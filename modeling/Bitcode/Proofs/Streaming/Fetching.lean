import Bitcode.Proofs.Streaming.Laziness

namespace Bitcode.Streaming

/-- Bytes are those of a stream from a place on if each of them is. -/
theorem eq_extract_iff {found stream : Array UInt8} {start : Nat} :
    found = stream.extract start (start + found.size) ↔
      ∀ offset < found.size, found[offset]? = stream[start + offset]? := by
  have hextract : ∀ offset, (stream.extract start (start + found.size))[offset]? =
      if offset < found.size then stream[start + offset]? else none := by
    intro offset
    rw [Array.getElem?_extract]
    split_ifs with hinside hoffset hoffset
    · rfl
    · omega
    · rw [Array.getElem?_eq_none (by omega)]
    · rfl
  constructor
  · intro hfound offset hoffset
    rw [hfound, hextract, if_pos hoffset]
  · intro hbytes
    apply Array.ext_getElem?
    intro offset
    rw [hextract]
    split_ifs with hoffset
    · exact hbytes offset hoffset
    · exact Array.getElem?_eq_none (Nat.le_of_not_lt hoffset)

namespace Memory

variable {σ α β : Type} [Source σ] {memory next last : Memory σ}

/-- Chunks are fetched one after the other. -/
inductive Fetches : Memory σ → Memory σ → Prop where
  | refl (memory : Memory σ) : Fetches memory memory
  | chunk {memory between next : Memory σ} (hchunk : fetchChunk memory = .ok () between)
      (hothers : Fetches between next) : Fetches memory next

/-- Chunks are fetched until one fails. -/
def Breaks (memory : Memory σ) (cause : Error) (next : Memory σ) : Prop :=
  ∃ last, Fetches memory last ∧ fetchChunk last = .error cause next

theorem Fetches.trans (hnext : Fetches memory next) (hlast : Fetches next last) :
    Fetches memory last := by
  induction hnext with
  | refl => exact hlast
  | chunk hchunk _ ih => exact .chunk hchunk (ih hlast)

/-- The operation fetches chunks, and fails exactly where one of them does. -/
structure OnlyFetches (operation : Fetching σ α) : Prop where
  ok : ∀ ⦃memory value next⦄, operation memory = .ok value next → Fetches memory next
  error : ∀ ⦃memory cause next⦄, operation memory = .error cause next → Breaks memory cause next

namespace OnlyFetches

theorem pure (value : α) : OnlyFetches (Pure.pure value : Fetching σ α) where
  ok memory _ _ hrun := by
    obtain ⟨-, rfl⟩ := EStateM.Result.ok.inj hrun
    exact .refl memory
  error _ _ _ hrun := by cases hrun

theorem get : OnlyFetches (MonadState.get : Fetching σ (Memory σ)) where
  ok memory _ _ hrun := by
    obtain ⟨-, rfl⟩ := EStateM.Result.ok.inj hrun
    exact .refl memory
  error _ _ _ hrun := by cases hrun

theorem bind {first : Fetching σ α} {second : α → Fetching σ β} (hfirst : OnlyFetches first)
    (hsecond : ∀ value, OnlyFetches (second value)) : OnlyFetches (first >>= second) where
  ok memory value next hrun := by
    obtain ⟨middle, between, hbetween, hnext⟩ := bind_eq_ok_iff.mp hrun
    exact (hfirst.ok hbetween).trans ((hsecond middle).ok hnext)
  error memory cause next hrun := by
    cases hbetween : first memory with
    | ok middle between =>
        rw [bind_apply_of_ok hbetween] at hrun
        obtain ⟨last, hlast, hfails⟩ := (hsecond middle).error hrun
        exact ⟨last, (hfirst.ok hbetween).trans hlast, hfails⟩
    | error other between =>
        rw [bind_apply_of_error hbetween] at hrun
        obtain ⟨rfl, rfl⟩ := EStateM.Result.error.inj hrun
        exact hfirst.error hbetween

theorem discard {operation : Fetching σ α} (hoperation : OnlyFetches operation) :
    OnlyFetches (discard operation) := by
  have hdiscard : Functor.discard operation = operation >>= fun _ => Pure.pure () := by
    funext memory
    change EStateM.map _ operation memory = EStateM.bind operation _ memory
    rw [EStateM.map, EStateM.bind]
    cases operation memory <;> rfl
  rw [hdiscard]
  exact hoperation.bind fun _ => pure ()

theorem fetchChunk : OnlyFetches (Memory.fetchChunk : Fetching σ Unit) where
  ok _ _ next hrun := .chunk hrun (.refl next)
  error memory _ _ hrun := ⟨memory, .refl memory, hrun⟩

theorem fetchWithin (address chunks : Nat) :
    OnlyFetches (Memory.fetchWithin address chunks : Fetching σ Bool) := by
  induction chunks with
  | zero => exact pure false
  | succ chunks ih =>
      refine get.bind fun memory => ?_
      split_ifs
      · exact pure _
      · exact pure _
      · exact fetchChunk.bind fun _ => ih

theorem fetchTo (address : Nat) : OnlyFetches (Memory.fetchTo address : Fetching σ Bool) :=
  fetchWithin address (address + 2)

theorem read (address length : Nat) :
    OnlyFetches (Memory.read address length : Fetching σ (Array UInt8)) := by
  unfold Memory.read
  split_ifs
  · exact pure _
  · exact (fetchTo _).discard.bind fun _ => get.bind fun _ => pure _

theorem isValid (address : Nat) : OnlyFetches (Memory.isValid address : Fetching σ Bool) := by
  refine get.bind fun memory => ?_
  split_ifs
  · exact pure true
  · exact fetchTo address

theorem isEnd (address : Nat) : OnlyFetches (Memory.isEnd address : Fetching σ Bool) := by
  refine get.bind fun memory => ?_
  cases memory.objectSize with
  | some size => exact pure _
  | none => exact (fetchTo address).discard.bind fun _ => get.bind fun _ => pure _

theorem fetchAll (chunks address : Nat) :
    OnlyFetches (Memory.fetchAll chunks address : Fetching σ Unit) := by
  induction chunks generalizing address with
  | zero => exact pure ()
  | succ chunks ih =>
      refine (fetchTo address).bind fun there => ?_
      split_ifs
      · exact ih _
      · exact pure ()

theorem extent : OnlyFetches (Memory.extent : Fetching σ Nat) := by
  refine get.bind fun memory => ?_
  cases memory.objectSize with
  | some size => exact pure size
  | none => exact (fetchAll _ _).bind fun _ => get.bind fun _ => pure _

end OnlyFetches

/-- More bytes have been fetched, and the addresses have stayed. -/
structure Grows (memory next : Memory σ) : Prop where
  dropped : next.dropped = memory.dropped
  bytes : ∃ more, next.bytes = memory.bytes ++ more

omit [Source σ] in
theorem Grows.refl (memory : Memory σ) : Grows memory memory :=
  ⟨rfl, #[], Array.append_empty.symm⟩

omit [Source σ] in
theorem Grows.trans (hnext : Grows memory next) (hlast : Grows next last) : Grows memory last := by
  obtain ⟨more, hmore⟩ := hnext.bytes
  obtain ⟨others, hothers⟩ := hlast.bytes
  exact ⟨hlast.dropped.trans hnext.dropped, more ++ others,
    by rw [hothers, hmore, Array.append_assoc]⟩

omit [Source σ] in
theorem absorb_eq (memory : Memory σ) (chunk : Array UInt8) :
    (memory.absorb chunk).source = memory.source ∧
      (memory.absorb chunk).bytes = memory.bytes ++ chunk ∧
      (memory.absorb chunk).dropped = memory.dropped := by
  unfold absorb
  split
  · exact ⟨rfl, rfl, rfl⟩
  · exact ⟨rfl, rfl, rfl⟩

theorem fetchChunk_eq_ok (hchunk : fetchChunk memory = .ok () next) :
    ∃ chunk, Source.pull chunkSize memory.source = .ok chunk next.source ∧
      next.bytes = memory.bytes ++ chunk ∧ next.dropped = memory.dropped := by
  unfold fetchChunk at hchunk
  cases hpull : (Source.pull chunkSize : EStateM Error σ _) memory.source with
  | ok chunk source =>
      rw [hpull] at hchunk
      obtain ⟨-, rfl⟩ := EStateM.Result.ok.inj hchunk
      obtain ⟨hsource, hbytes, hdropped⟩ := absorb_eq { memory with source } chunk
      exact ⟨chunk, by rw [hsource], hbytes, hdropped⟩
  | error cause source =>
      rw [hpull] at hchunk
      cases hchunk

theorem fetchChunk_eq_error {cause : Error} (hchunk : fetchChunk memory = .error cause next) :
    ∃ source, Source.pull chunkSize memory.source = .error cause source ∧
      next = { memory with source } := by
  unfold fetchChunk at hchunk
  cases hpull : (Source.pull chunkSize : EStateM Error σ _) memory.source with
  | ok chunk source =>
      rw [hpull] at hchunk
      cases hchunk
  | error other source =>
      rw [hpull] at hchunk
      obtain ⟨rfl, rfl⟩ := EStateM.Result.error.inj hchunk
      exact ⟨source, rfl, rfl⟩

theorem Fetches.grows (hfetches : Fetches memory next) : Grows memory next := by
  induction hfetches with
  | refl => exact .refl _
  | chunk hchunk _ ih =>
      obtain ⟨chunk, -, hbytes, hsame⟩ := fetchChunk_eq_ok hchunk
      obtain ⟨hdropped, more, hmore⟩ := ih
      exact ⟨hdropped.trans hsame, chunk ++ more, by rw [hmore, hbytes, Array.append_assoc]⟩

theorem Breaks.grows {cause : Error} (hbreaks : Breaks memory cause next) : Grows memory next := by
  obtain ⟨last, hlast, hchunk⟩ := hbreaks
  obtain ⟨source, -, rfl⟩ := fetchChunk_eq_error hchunk
  obtain ⟨hdropped, hbytes⟩ := hlast.grows
  exact ⟨hdropped, hbytes⟩

theorem read_eq_ok {address length : Nat} {found : Array UInt8}
    (hread : Memory.read address length memory = .ok found next) :
    ∀ offset < found.size, found[offset]? = next.bytes[memory.dropped + address + offset]? ∧
      memory.dropped + address + offset < next.bytes.size := by
  have hdropped := ((OnlyFetches.read address length).ok hread).grows.dropped
  unfold Memory.read at hread
  split_ifs at hread with hempty
  · obtain ⟨rfl, -⟩ := EStateM.Result.ok.inj hread
    exact fun offset hoffset => absurd hoffset (Nat.not_lt_zero offset)
  · obtain ⟨_, between, -, hread⟩ := bind_eq_ok_iff.mp hread
    rw [get_bind_apply] at hread
    obtain ⟨rfl, rfl⟩ := EStateM.Result.ok.inj hread
    intro offset hoffset
    rw [Array.size_extract] at hoffset
    rw [Array.getElem?_extract, if_pos hoffset, hdropped]
    exact ⟨rfl, by omega⟩

theorem read_of_ended (hended : memory.ended = true)
    {address length : Nat} (hlength : length ≠ 0) (hlimit : address + length < addressLimit) :
    Memory.read address length memory = .ok (memory.bytes.extract (memory.dropped + address)
      (memory.dropped + min (address + length) memory.bytesRead)) memory := by
  obtain ⟨value, hfetch⟩ : ∃ value, Memory.fetchTo (address + length - 1) memory =
      .ok value memory := by
    rw [Memory.fetchTo, Memory.fetchWithin, get_bind_apply, if_pos hended]
    split_ifs
    · exact ⟨_, rfl⟩
    · exact ⟨_, rfl⟩
  rw [Memory.read, if_neg (by omega), bind_apply_of_ok (discard_eq_ok hfetch), get_bind_apply]
  rfl

/-- What answering a request may do to a memory. -/
inductive Responds (memory : Memory σ) : Memory σ × Answered → Prop where
  | fetched {next : Memory σ} {answered : Answered} (hnext : Fetches memory next) :
      Responds memory (next, answered)
  | broken {next : Memory σ} {cause : Error} (request : Request)
      (hnext : Breaks memory cause next) : Responds memory (next, ⟨request, .error cause⟩)
  /-- The addresses move, or the size of the object is stated. -/
  | changed {next : Memory σ} {answered : Answered} (hsource : next.source = memory.source)
      (hbytes : next.bytes = memory.bytes) : Responds memory (next, answered)

theorem OnlyFetches.responds {operation : Fetching σ α} (hoperation : OnlyFetches operation)
    {request : Request} (respond : α → Response)
    (hanswer : Memory.answer request = operation >>= fun value => Pure.pure (respond value))
    (memory : Memory σ) : Responds memory (request.noted Memory.answer memory) := by
  cases hrun : operation memory with
  | ok value next =>
      rw [Request.noted_of_ok respond hanswer hrun]
      exact .fetched (hoperation.ok hrun)
  | error cause next =>
      rw [Request.noted_of_error respond hanswer hrun]
      exact .broken request (hoperation.error hrun)

theorem responds (memory : Memory σ) (request : Request) :
    Responds memory (request.noted Memory.answer memory) := by
  cases request with
  | read address length => exact (OnlyFetches.read address length).responds .bytes rfl memory
  | isValid address => exact (OnlyFetches.isValid address).responds .truth rfl memory
  | isEnd address => exact (OnlyFetches.isEnd address).responds .truth rfl memory
  | extent => exact OnlyFetches.extent.responds .size rfl memory
  | setSize size => exact .changed rfl rfl
  | drop count =>
      by_cases hcount : memory.bytesRead < count
      · have hdrop : Memory.drop count memory = .error _ memory := dif_pos hcount
        rw [Request.noted_of_error (fun _ => .done) rfl hdrop]
        exact .changed rfl rfl
      · have hdrop : Memory.drop count memory = .ok () _ := dif_neg hcount
        rw [Request.noted_of_ok (fun _ => .done) rfl hdrop]
        exact .changed rfl rfl

theorem session_bytes (memory : Memory σ) (requests : List Request) :
    ∃ more, (session Memory.answer memory requests).1.bytes = memory.bytes ++ more := by
  induction requests generalizing memory with
  | nil => exact ⟨#[], Array.append_empty.symm⟩
  | cons request rest ih =>
      obtain ⟨more, hmore⟩ := ih (request.noted Memory.answer memory).1
      obtain ⟨first, hfirst⟩ : ∃ first,
          (request.noted Memory.answer memory).1.bytes = memory.bytes ++ first := by
        cases hnoted : request.noted Memory.answer memory with
        | mk next answered =>
            have hresponds := responds memory request
            rw [hnoted] at hresponds
            cases hresponds with
            | fetched hnext => exact hnext.grows.bytes
            | broken _ hnext => exact hnext.grows.bytes
            | changed _ hbytes => exact ⟨#[], hbytes.trans Array.append_empty.symm⟩
      refine ⟨first ++ more, ?_⟩
      rw [← Array.append_assoc, ← hfirst]
      exact hmore

end Memory

end Bitcode.Streaming
