import Bitcode.Proofs.Streaming.Sharing

/-!
A memory is a lazy view of its stream. After any sequence of requests it holds a first part of the
stream and answers as if it held all of it, from the bytes on that have not been dropped. It fetches
no chunk of the stream behind the one with the last byte that it is asked for.
-/

namespace Bitcode.Streaming

section Session

variable {σ : Type}

/-- Answer one request, and note the answer. A request that fails leaves what it has done. -/
def Request.noted (answer : Request → EStateM Error σ Response) (state : σ) (request : Request) :
    σ × Answered :=
  match answer request state with
  | .ok response next => (next, ⟨request, .ok response⟩)
  | .error cause next => (next, ⟨request, .error cause⟩)

/-- Answer requests one after the other. -/
def session (answer : Request → EStateM Error σ Response) (state : σ) :
    List Request → σ × List Answered
  | [] => (state, [])
  | request :: rest =>
      let first := request.noted answer state
      let others := session answer first.1 rest
      (others.1, first.2 :: others.2)

/-- How many bytes a call has dropped. -/
def Answered.dropped (answered : Answered) : Nat :=
  match answered.request, answered.outcome with
  | .drop count, .ok _ => count
  | _, _ => 0

/-- How many bytes all calls together have dropped. -/
def droppedIn (answered : List Answered) : Nat :=
  (answered.map Answered.dropped).sum

variable {answer : Request → EStateM Error σ Response} {state next : σ} {request : Request}

theorem Request.noted_of_ok {α : Type} {computation : EStateM Error σ α} (respond : α → Response)
    {value : α} (hanswer : answer request = computation >>= fun value => pure (respond value))
    (hrun : computation state = .ok value next) :
    request.noted answer state = (next, ⟨request, .ok (respond value)⟩) := by
  rw [noted, hanswer, bind_apply_of_ok hrun]
  rfl

theorem Request.noted_of_error {α : Type} {computation : EStateM Error σ α}
    (respond : α → Response) {cause : Error}
    (hanswer : answer request = computation >>= fun value => pure (respond value))
    (hrun : computation state = .error cause next) :
    request.noted answer state = (next, ⟨request, .error cause⟩) := by
  rw [noted, hanswer, bind_apply_of_error hrun]

end Session

namespace Memory

variable {σ : Type} [Source σ] {stream : Array UInt8} {memory next : Memory σ}

/-- The end of the chunk of a stream that a position lies in. -/
def chunkEnd (position : Nat) : Nat :=
  (position / chunkSize + 1) * chunkSize

/-- The chunks that have been fetched are whole, but for the one that ends the stream. -/
def Whole (memory : Memory σ) : Prop :=
  memory.ended = false → chunkSize ∣ memory.bytes.size

/-- Of the stream, nothing has been fetched behind the chunk of a position. The end of the stream is
not met either, unless it lies in that chunk or before. -/
structure Frugal (stream : Array UInt8) (position : Nat) (memory next : Memory σ) : Prop where
  size_le : next.bytes.size ≤ max memory.bytes.size (chunkEnd position)
  ended : next.ended = true → memory.ended = true ∨ stream.size < chunkEnd position

omit [Source σ] in
theorem frugal_refl (stream : Array UInt8) (position : Nat) (memory : Memory σ) :
    Frugal stream position memory memory :=
  ⟨Nat.le_max_left _ _, Or.inl⟩

theorem add_chunkSize_le {position size : Nat} (hsize : chunkSize ∣ size) (hle : size ≤ position) :
    size + chunkSize ≤ chunkEnd position := by
  obtain ⟨count, rfl⟩ := hsize
  simp only [chunkEnd, chunkSize] at hle ⊢
  omega

theorem Views.size_fetchChunk (hmemory : memory.Views stream) (hopen : memory.ended = false)
    (hfetch : Memory.fetchChunk memory = .ok () next) :
    next.bytes.size ≤ memory.bytes.size + chunkSize ∧
      (next.ended = true → stream.size < memory.bytes.size + chunkSize) ∧
      (next.ended = false → next.bytes.size = memory.bytes.size + chunkSize) := by
  obtain ⟨source, hpull, -⟩ := (hmemory.source hopen).pull chunkSize
  have hsize := hmemory.size_le
  rw [Memory.fetchChunk, hpull] at hfetch
  obtain ⟨-, rfl⟩ := EStateM.Result.ok.inj hfetch
  unfold absorb
  dsimp only
  split_ifs with hshort
  · rw [Array.size_extract] at hshort
    refine ⟨?_, fun _ => by omega, fun hopened => ?_⟩
    · simp only [extend, Array.size_append, Array.size_extract]
      omega
    · cases hopened
  · rw [Array.size_extract] at hshort
    refine ⟨?_, fun hended => ?_, fun _ => ?_⟩
    · simp only [extend, Array.size_append, Array.size_extract]
      omega
    · exact absurd (hopen.symm.trans hended) (by decide)
    · simp only [extend, Array.size_append, Array.size_extract]
      omega

theorem Views.frugal_fetchWithin {address : Nat} (chunks : Nat) {value : Bool}
    (hmemory : memory.Views stream) (hwhole : memory.Whole)
    (hfetch : Memory.fetchWithin address chunks memory = .ok value next) :
    next.Whole ∧ Frugal stream (memory.dropped + address) memory next := by
  -- A memory that is whole ends at a chunk boundary, so one more chunk stays in that of the address.
  induction chunks generalizing memory with
  | zero =>
      obtain ⟨-, rfl⟩ := EStateM.Result.ok.inj hfetch
      exact ⟨hwhole, frugal_refl _ _ _⟩
  | succ chunks ih =>
      rw [Memory.fetchWithin, get_bind_apply] at hfetch
      split_ifs at hfetch with haddress hended
      · obtain ⟨-, rfl⟩ := EStateM.Result.ok.inj hfetch
        exact ⟨hwhole, frugal_refl _ _ _⟩
      · obtain ⟨-, rfl⟩ := EStateM.Result.ok.inj hfetch
        exact ⟨hwhole, frugal_refl _ _ _⟩
      · rw [Bool.not_eq_true] at hended
        obtain ⟨between, hchunk, hbetween, -⟩ := hmemory.fetchChunk hended
        obtain ⟨hsize, hmet, hfull⟩ := hmemory.size_fetchChunk hended hchunk
        have hdropped := memory.dropped_le
        have hend : memory.bytes.size + chunkSize ≤ chunkEnd (memory.dropped + address) := by
          apply add_chunkSize_le (hwhole hended)
          rw [bytesRead_eq] at haddress
          omega
        rw [bind_apply_of_ok hchunk] at hfetch
        obtain ⟨hnext, hfrugal⟩ := ih hbetween.views
          (fun hopen => hfull hopen ▸ (Nat.dvd_add_self_right).mpr (hwhole hended)) hfetch
        rw [hbetween.dropped] at hfrugal
        refine ⟨hnext, ?_, fun hover => Or.inr ?_⟩
        · have hle := hfrugal.size_le
          omega
        · rcases hfrugal.ended hover with hbefore | hnear
          · exact Nat.lt_of_lt_of_le (hmet hbefore) hend
          · exact hnear

theorem Views.frugal_isValid {address : Nat} {value : Bool} (hmemory : memory.Views stream)
    (hwhole : memory.Whole) (hvalid : Memory.isValid address memory = .ok value next) :
    next.Whole ∧ Frugal stream (memory.dropped + address) memory next := by
  rw [Memory.isValid, get_bind_apply] at hvalid
  split_ifs at hvalid
  · obtain ⟨-, rfl⟩ := EStateM.Result.ok.inj hvalid
    exact ⟨hwhole, frugal_refl _ _ _⟩
  · exact hmemory.frugal_fetchWithin _ hwhole hvalid

theorem Views.frugal_read {address length : Nat} {found : Array UInt8}
    (hmemory : memory.Views stream) (hwhole : memory.Whole)
    (hread : Memory.read address length memory = .ok found next) :
    next.Whole ∧ (length = 0 → next = memory) ∧
      Frugal stream (memory.dropped + address + length - 1) memory next := by
  rw [Memory.read] at hread
  split_ifs at hread with hnone
  · obtain ⟨-, rfl⟩ := EStateM.Result.ok.inj hread
    exact ⟨hwhole, fun _ => rfl, frugal_refl _ _ _⟩
  · obtain ⟨between, hfetch, -, -⟩ := hmemory.fetchTo (address + length - 1)
    rw [bind_apply_of_ok (discard_eq_ok hfetch), get_bind_apply] at hread
    obtain ⟨-, rfl⟩ := EStateM.Result.ok.inj hread
    obtain ⟨hnext, hfrugal⟩ := hmemory.frugal_fetchWithin _ hwhole hfetch
    have hlast : memory.dropped + (address + length - 1) =
        memory.dropped + address + length - 1 := by
      omega
    exact ⟨hnext, fun hzero => absurd (Or.inl hzero) hnone, hlast ▸ hfrugal⟩

theorem Views.whole_isEnd {address : Nat} {value : Bool} (hmemory : memory.Views stream)
    (hwhole : memory.Whole) (hend : Memory.isEnd address memory = .ok value next) : next.Whole := by
  rw [Memory.isEnd, get_bind_apply] at hend
  cases hobject : memory.objectSize with
  | some size =>
      rw [hobject] at hend
      obtain ⟨-, rfl⟩ := EStateM.Result.ok.inj hend
      exact hwhole
  | none =>
      obtain ⟨between, hfetch, -, -⟩ := hmemory.fetchTo address
      simp only [hobject] at hend
      rw [bind_apply_of_ok (discard_eq_ok hfetch), get_bind_apply] at hend
      obtain ⟨-, rfl⟩ := EStateM.Result.ok.inj hend
      exact (hmemory.frugal_fetchWithin _ hwhole hfetch).1

theorem Views.whole_fetchAll {address : Nat} (chunks : Nat) (hmemory : memory.Views stream)
    (hwhole : memory.Whole) (hfetch : Memory.fetchAll chunks address memory = .ok () next) :
    next.Whole := by
  induction chunks generalizing memory address with
  | zero =>
      obtain ⟨-, rfl⟩ := EStateM.Result.ok.inj hfetch
      exact hwhole
  | succ chunks ih =>
      obtain ⟨between, hreach, hbetween, -⟩ := hmemory.fetchTo address
      have hmiddle := (hmemory.frugal_fetchWithin _ hwhole hreach).1
      rw [Memory.fetchAll, bind_apply_of_ok hreach] at hfetch
      split_ifs at hfetch
      · exact ih hbetween.views hmiddle hfetch
      · obtain ⟨-, rfl⟩ := EStateM.Result.ok.inj hfetch
        exact hmiddle

theorem Views.whole_extent {size : Nat} (hmemory : memory.Views stream) (hwhole : memory.Whole)
    (hextent : Memory.extent memory = .ok size next) : next.Whole := by
  rw [Memory.extent, get_bind_apply] at hextent
  cases hobject : memory.objectSize with
  | some size =>
      rw [hobject] at hextent
      obtain ⟨-, rfl⟩ := EStateM.Result.ok.inj hextent
      exact hwhole
  | none =>
      rw [hobject] at hextent
      obtain ⟨_, between, hfetch, hrest⟩ := bind_eq_ok_iff.mp hextent
      obtain ⟨-, rfl⟩ := EStateM.Result.ok.inj hrest
      exact hmemory.whole_fetchAll _ hwhole hfetch

theorem Views.drop (hmemory : memory.Views stream) {count : Nat}
    (hcount : count ≤ memory.bytesRead) : Views stream (memory.advance count hcount) := by
  refine ⟨hmemory.bytes, hmemory.ended, hmemory.source, ?_⟩
  simp only [advance, hmemory.objectSize]
  cases memory.ended with
  | true => exact congrArg some (Nat.sub_sub _ _ _)
  | false => rfl

/-- A memory shows a stream from a number of dropped bytes on. -/
structure Shows (stream : Array UInt8) (dropped : Nat) (memory : Memory σ) : Prop where
  views : memory.Views stream
  whole : memory.Whole
  dropped : memory.dropped = dropped

section Shows

variable {dropped : Nat}

theorem shows_start {source : σ} (hsource : Delivers stream source 0) :
    Shows stream 0 ({ source } : Memory σ) :=
  ⟨views_start hsource, fun _ => Nat.dvd_zero _, rfl⟩

theorem Shows.read (hmemory : memory.Shows stream dropped) (address length : Nat) :
    ∃ next, Memory.read address length memory =
        .ok (if addressLimit ≤ address + length then #[]
          else stream.extract (dropped + address) (min (dropped + address + length) stream.size))
          next ∧
      next.Shows stream dropped ∧ (length = 0 → next = memory) ∧
      Frugal stream (dropped + address + length - 1) memory next := by
  obtain ⟨hviews, hwhole, rfl⟩ := hmemory
  by_cases hlimit : addressLimit ≤ address + length
  · refine ⟨memory, ?_, ⟨hviews, hwhole, rfl⟩, fun _ => rfl, frugal_refl _ _ _⟩
    rw [Memory.read, if_pos (Or.inr hlimit), if_pos hlimit]
    rfl
  · obtain ⟨next, hread, hnext⟩ := hviews.read fun _ => Nat.lt_of_not_le hlimit
    obtain ⟨hnextWhole, hidle, hfrugal⟩ := hviews.frugal_read hwhole hread
    refine ⟨next, ?_, ⟨hnext.views, hnextWhole, hnext.dropped⟩, hidle, hfrugal⟩
    rw [hread, if_neg hlimit, Array.extract_eq_extract_right.mpr]
    omega

theorem Shows.isValid (hmemory : memory.Shows stream dropped) (address : Nat) :
    ∃ next, Memory.isValid address memory = .ok (decide (address < stream.size - dropped)) next ∧
      next.Shows stream dropped ∧ Frugal stream (dropped + address) memory next := by
  obtain ⟨hviews, hwhole, rfl⟩ := hmemory
  obtain ⟨next, hvalid, hnext⟩ := hviews.isValid address
  obtain ⟨hnextWhole, hfrugal⟩ := hviews.frugal_isValid hwhole hvalid
  exact ⟨next, hvalid, ⟨hnext.views, hnextWhole, hnext.dropped⟩, hfrugal⟩

theorem Shows.isEnd (hmemory : memory.Shows stream dropped) (address : Nat) :
    ∃ value next, Memory.isEnd address memory = .ok value next ∧ next.Shows stream dropped := by
  obtain ⟨hviews, hwhole, rfl⟩ := hmemory
  obtain ⟨value, next, hend, hnext⟩ := hviews.isEnd address
  exact ⟨value, next, hend, hnext.views, hviews.whole_isEnd hwhole hend, hnext.dropped⟩

theorem Shows.extent (hmemory : memory.Shows stream dropped) :
    ∃ next, Memory.extent memory = .ok (stream.size - dropped) next ∧
      next.Shows stream dropped := by
  obtain ⟨hviews, hwhole, rfl⟩ := hmemory
  obtain ⟨next, hextent, hnext⟩ := hviews.extent
  exact ⟨next, hextent, hnext.views, hviews.whole_extent hwhole hextent, hnext.dropped⟩

theorem Shows.drop (hmemory : memory.Shows stream dropped) (count : Nat) :
    memory.bytesRead < count ∧
        Memory.drop count memory = .error (.dropPastRead count memory.bytesRead) memory ∨
      count ≤ memory.bytesRead ∧
        ∃ next, Memory.drop count memory = .ok () next ∧ next.Shows stream (dropped + count) := by
  obtain ⟨hviews, hwhole, rfl⟩ := hmemory
  by_cases hcount : memory.bytesRead < count
  · exact Or.inl ⟨hcount, dif_pos hcount⟩
  · have hle := Nat.le_of_not_lt hcount
    exact Or.inr ⟨hle, _, dif_neg hcount, hviews.drop hle, hwhole, rfl⟩

end Shows

end Memory

/-- The size of the object is not stated from outside. -/
def Request.LeavesSize : Request → Prop
  | .setSize _ => False
  | _ => True

instance (request : Request) : Decidable request.LeavesSize :=
  match request with
  | .setSize _ => .isFalse id
  | .read _ _ | .isValid _ | .isEnd _ | .drop _ | .extent => .isTrue trivial

namespace Memory

variable {σ : Type} [Source σ] {stream : Array UInt8} {memory : Memory σ} {dropped : Nat}

theorem Shows.noted (hmemory : memory.Shows stream dropped) {request : Request}
    (hrequest : request.LeavesSize) :
    (request.noted Memory.answer memory).1.Shows stream
      (dropped + (request.noted Memory.answer memory).2.dropped) := by
  cases request with
  | read address length =>
      obtain ⟨next, hread, hnext, -⟩ := hmemory.read address length
      rw [Request.noted_of_ok .bytes rfl hread]
      exact hnext
  | isValid address =>
      obtain ⟨next, hvalid, hnext, -⟩ := hmemory.isValid address
      rw [Request.noted_of_ok .truth rfl hvalid]
      exact hnext
  | isEnd address =>
      obtain ⟨value, next, hend, hnext⟩ := hmemory.isEnd address
      rw [Request.noted_of_ok .truth rfl hend]
      exact hnext
  | extent =>
      obtain ⟨next, hextent, hnext⟩ := hmemory.extent
      rw [Request.noted_of_ok .size rfl hextent]
      exact hnext
  | drop count =>
      rcases hmemory.drop count with ⟨-, hdrop⟩ | ⟨-, next, hdrop, hnext⟩
      · rw [Request.noted_of_error (fun _ => .done) rfl hdrop]
        exact hmemory
      · rw [Request.noted_of_ok (fun _ => .done) rfl hdrop]
        exact hnext
  | setSize size => exact hrequest.elim

theorem Shows.session (hmemory : memory.Shows stream dropped) {requests : List Request}
    (hrequests : ∀ request ∈ requests, request.LeavesSize) :
    (session Memory.answer memory requests).1.Shows stream
      (dropped + droppedIn (session Memory.answer memory requests).2) := by
  induction requests generalizing memory dropped with
  | nil => exact hmemory
  | cons request rest ih =>
      rw [List.forall_mem_cons] at hrequests
      have hrest := ih (hmemory.noted hrequests.1) hrequests.2
      rw [Nat.add_assoc] at hrest
      exact hrest

/-- A memory over a reader that hands out its bytes in any pieces, however often it is interrupted,
shows these bytes. After any requests, the memory holds the first of them, as many as have been
dropped and can be read. A read gives what the bytes have at its addresses, an address is valid if
there is a byte that has not been dropped, and the extent is the number of these. A drop fails only
if it asks for more than has been read, and then changes nothing. What a read or a question for an
address fetches ends with the chunk of the last byte asked for. -/
theorem session_faithful {reader : Reader} (hreader : reader.Steady) (hstart : reader.position = 0)
    {requests : List Request} (hrequests : ∀ request ∈ requests, request.LeavesSize) :
    let stream := reader.bytes
    let memory := (Streaming.session Memory.answer { source := reader } requests).1
    let dropped := droppedIn (Streaming.session Memory.answer { source := reader } requests).2
    (memory.dropped = dropped ∧ memory.bytes.size = dropped + memory.bytesRead ∧
        memory.bytes = stream.extract 0 (dropped + memory.bytesRead)) ∧
      (∀ address length, ∃ next, Memory.read address length memory =
          .ok (if addressLimit ≤ address + length then #[]
            else stream.extract (dropped + address) (min (dropped + address + length) stream.size))
            next ∧
        (length = 0 → next = memory) ∧
        Frugal stream (dropped + address + length - 1) memory next) ∧
      (∀ address, ∃ next, Memory.isValid address memory =
          .ok (decide (address < stream.size - dropped)) next ∧
        Frugal stream (dropped + address) memory next) ∧
      (∃ next, Memory.extent memory = .ok (stream.size - dropped) next) ∧
      ∀ count, memory.bytesRead < count ∧
          Memory.drop count memory = .error (.dropPastRead count memory.bytesRead) memory ∨
        count ≤ memory.bytesRead ∧ ∃ next, Memory.drop count memory = .ok () next := by
  intro stream memory dropped
  have hsource := hreader.delivers
  rw [hstart] at hsource
  have hmemory : memory.Shows stream dropped := by
    have hsession := (shows_start hsource).session hrequests
    rwa [Nat.zero_add] at hsession
  refine ⟨?_, ?_, ?_, ?_, ?_⟩
  · have hsize : memory.bytes.size = dropped + memory.bytesRead := by
      rw [← memory.counted, hmemory.dropped]
    exact ⟨hmemory.dropped, hsize, hsize ▸ hmemory.views.bytes⟩
  · intro address length
    obtain ⟨next, hread, -, hidle, hfrugal⟩ := hmemory.read address length
    exact ⟨next, hread, hidle, hfrugal⟩
  · intro address
    obtain ⟨next, hvalid, -, hfrugal⟩ := hmemory.isValid address
    exact ⟨next, hvalid, hfrugal⟩
  · obtain ⟨next, hextent, -⟩ := hmemory.extent
    exact ⟨next, hextent⟩
  · intro count
    rcases hmemory.drop count with hfails | ⟨hcount, next, hdrop, -⟩
    · exact Or.inl hfails
    · exact Or.inr ⟨hcount, next, hdrop⟩

theorem session_faithful_sampleReader :
    Sharing.sampleReader.Steady ∧
      ∃ memory : Memory Reader,
        (Streaming.session Memory.answer { source := Sharing.sampleReader }
          [.drop 1, .read 0 2, .isEnd 3, .drop 1]).1 = memory ∧
        memory.bytes = #[7, 8, 9] ∧
        (∃ next, Memory.read 1 7 memory = .ok #[9] next) ∧
        (∃ next, Memory.isValid 2 memory = .ok false next) ∧
        (∃ next, Memory.extent memory = .ok 2 next) ∧
        Memory.drop 3 memory = .error (.dropPastRead 3 2) memory := by
  have hdropped : droppedIn (Streaming.session Memory.answer
      ({ source := Sharing.sampleReader } : Memory Reader)
      [.drop 1, .read 0 2, .isEnd 3, .drop 1]).2 = 1 := by decide +kernel
  have hread : (Streaming.session Memory.answer
      ({ source := Sharing.sampleReader } : Memory Reader)
      [.drop 1, .read 0 2, .isEnd 3, .drop 1]).1.bytesRead = 2 := by decide +kernel
  obtain ⟨⟨-, -, hbytes⟩, hreads, hvalid, hextent, hdrop⟩ :=
    session_faithful Sharing.steady_sampleReader rfl
      (show ∀ request ∈ [Request.drop 1, .read 0 2, .isEnd 3, .drop 1], request.LeavesSize by
        decide)
  rw [hdropped] at hreads hvalid hextent hbytes
  rw [hread] at hbytes hdrop
  obtain ⟨last, hlast, -⟩ := hreads 1 7
  obtain ⟨asked, hasked, -⟩ := hvalid 2
  refine ⟨Sharing.steady_sampleReader, _, rfl, hbytes, ⟨last, hlast⟩, ⟨asked, hasked⟩, hextent, ?_⟩
  exact ((hdrop 3).resolve_right fun hfew => absurd hfew.1 (by decide)).2

end Memory

end Bitcode.Streaming
