import Bitcode.Proofs.Streaming.Fetching

namespace Bitcode.Streaming

namespace Reader

variable {reader middle next : Reader} {collected : Array UInt8}

/-- The reader has handed out some bytes more. -/
structure Advances (reader next : Reader) (count : Nat) : Prop where
  bytes : next.bytes = reader.bytes
  position : next.position = reader.position + count
  position_le : next.position ≤ reader.bytes.size

/-- What collecting comes to: bytes that follow each other, or a failure after some bytes. -/
structure Collects (reader : Reader) (collected : Array UInt8)
    (result : EStateM.Result Error Reader (Array UInt8)) : Prop where
  ok : ∀ ⦃found next⦄, result = .ok found next → ∃ count, Advances reader next count ∧
    found = collected ++ reader.bytes.extract reader.position (reader.position + count)
  error : ∀ ⦃cause next⦄, result = .error cause next → ∃ count report,
    Advances reader next count ∧ cause = .source report

theorem advances_advance {count : Nat} (hposition : reader.position ≤ reader.bytes.size)
    (hcount : count ≤ reader.left) : Advances reader (reader.advance count) count := by
  refine ⟨rfl, rfl, ?_⟩
  simp only [left, advance] at hcount ⊢
  omega

theorem Advances.trans {count more : Nat} (hmiddle : Advances reader middle count)
    (hnext : Advances middle next more) : Advances reader next (count + more) := by
  refine ⟨hnext.bytes.trans hmiddle.bytes, ?_, hmiddle.bytes ▸ hnext.position_le⟩
  rw [hnext.position, hmiddle.position, Nat.add_assoc]

theorem Advances.collects {count : Nat} {result : EStateM.Result Error Reader (Array UInt8)}
    (hmiddle : Advances reader middle count)
    (hresult : Collects middle
      (collected ++ reader.bytes.extract reader.position (reader.position + count)) result) :
    Collects reader collected result where
  ok found next hrun := by
    obtain ⟨more, hnext, hfound⟩ := hresult.ok hrun
    refine ⟨count + more, hmiddle.trans hnext, ?_⟩
    rw [hfound, Array.append_assoc, hmiddle.bytes, hmiddle.position, Array.extract_append_extract,
      Nat.min_eq_left (Nat.le_add_right _ _), Nat.max_eq_right (Nat.le_add_right _ _), Nat.add_assoc]
  error cause next hrun := by
    obtain ⟨more, report, hnext, hcause⟩ := hresult.error hrun
    exact ⟨count + more, report, hmiddle.trans hnext, hcause⟩

theorem collects_ok (hposition : reader.position ≤ reader.bytes.size) (collected : Array UInt8) :
    Collects reader collected (.ok collected reader) where
  ok found next hrun := by
    obtain ⟨rfl, rfl⟩ := EStateM.Result.ok.inj hrun
    exact ⟨0, ⟨rfl, rfl, hposition⟩, by simp⟩
  error _ _ hrun := by cases hrun

theorem collect_of_failed {wanted : Nat} (hwanted : wanted ≠ 0) {report : String}
    (hreply : reader.nextReply = .failed report) (requests : Nat) (collected : Array UInt8) :
    collect (requests + 1) wanted collected reader = .error (.source report) (reader.advance 0) := by
  rw [collect, if_neg hwanted, get_bind_apply, hreply]
  rfl

theorem collects_collect (requests wanted : Nat) (collected : Array UInt8)
    (hposition : reader.position ≤ reader.bytes.size) :
    Collects reader collected (collect requests wanted collected reader) := by
  induction requests generalizing reader wanted collected with
  | zero => exact collects_ok hposition collected
  | succ requests ih =>
      by_cases hwanted : wanted = 0
      · rw [collect, if_pos hwanted]
        exact collects_ok hposition collected
      have hstays := advances_advance hposition (Nat.zero_le _)
      cases hreply : reader.nextReply with
      | interrupted =>
          rw [collect_of_interrupted hwanted hreply]
          apply hstays.collects
          simpa using ih wanted collected hstays.position_le
      | failed report =>
          rw [collect_of_failed hwanted hreply]
          constructor
          · intro found next hrun
            cases hrun
          · intro cause next hrun
            obtain ⟨rfl, rfl⟩ := EStateM.Result.error.inj hrun
            exact ⟨0, report, hstays, rfl⟩
      | piece limit =>
          rw [collect_of_piece hwanted hreply rfl]
          have hadvances :=
            advances_advance hposition (Reply.pieceSize_le limit wanted reader.left).2
          apply hadvances.collects
          split_ifs with hcount
          · simpa [hcount] using collects_ok hstays.position_le collected
          · exact ih _ _ hadvances.position_le

end Reader

theorem session_concat {σ : Type} (answer : Request → EStateM Error σ Response) (state : σ)
    (requests : List Request) (request : Request) :
    (session answer state (requests ++ [request])).1 =
      (request.noted answer (session answer state requests).1).1 := by
  induction requests generalizing state with
  | nil => rfl
  | cons first rest ih => exact ih _

namespace Memory

variable {stream : Array UInt8} {memory next last : Memory Reader} {lost : Nat}

/-- How many bytes the reader has handed out that the memory does not hold. -/
def lag (memory : Memory Reader) : Nat :=
  memory.source.position - memory.bytes.size

/-- The reader hands out a stream, and the memory holds no more than has been handed out. -/
structure Trails (stream : Array UInt8) (memory : Memory Reader) : Prop where
  source : memory.source.bytes = stream
  position_le : memory.source.position ≤ stream.size
  size_le : memory.bytes.size ≤ memory.source.position

/-- The memory has come to hold the next bytes of the reader, and some after them have been lost. -/
structure Passes (stream : Array UInt8) (memory next : Memory Reader) (lost : Nat) : Prop where
  trails : next.Trails stream
  bytes : ∃ count, next.source.position = memory.source.position + count + lost ∧
    next.bytes = memory.bytes ++
      stream.extract memory.source.position (memory.source.position + count)

theorem trails_start (stream : Array UInt8) (script : List Reply) (limit : Option Nat) :
    Trails stream { source := { bytes := stream, script, limit } } :=
  ⟨rfl, Nat.zero_le _, Nat.le_refl _⟩

theorem Trails.passes (hmemory : memory.Trails stream) (hsource : next.source = memory.source)
    (hbytes : next.bytes = memory.bytes) : Passes stream memory next 0 := by
  obtain ⟨hstream, hposition, hsize⟩ := hmemory
  refine ⟨⟨hsource ▸ hstream, hsource ▸ hposition, ?_⟩, 0, congrArg Reader.position hsource, ?_⟩
  · rw [hbytes, hsource]
    exact hsize
  · rw [hbytes]
    simp

theorem Passes.trans (hnext : Passes stream memory next 0) (hlast : Passes stream next last lost) :
    Passes stream memory last lost := by
  obtain ⟨count, hposition, hbytes⟩ := hnext.bytes
  obtain ⟨more, hend, hothers⟩ := hlast.bytes
  refine ⟨hlast.trails, count + more, by omega, ?_⟩
  rw [hothers, hbytes, hposition, Array.append_assoc, Nat.add_zero, Array.extract_append_extract,
    Nat.min_eq_left (Nat.le_add_right _ _), Nat.max_eq_right (Nat.le_add_right _ _), Nat.add_assoc]

theorem Trails.passes_fetchChunk (hmemory : memory.Trails stream)
    (hchunk : fetchChunk memory = .ok () next) : Passes stream memory next 0 := by
  obtain ⟨rfl, hposition, hsize⟩ := hmemory
  obtain ⟨chunk, hpull, hbytes, -⟩ := fetchChunk_eq_ok hchunk
  obtain ⟨count, hsource, hfound⟩ := (Reader.collects_collect _ _ _ hposition).ok hpull
  rw [Array.empty_append] at hfound
  refine ⟨⟨hsource.bytes, hsource.position_le, ?_⟩, count, hsource.position, by rw [hbytes, hfound]⟩
  have hcount := hsource.position
  rw [hbytes, hfound, Array.size_append, Array.size_extract]
  omega

theorem Trails.passes_fetches (hmemory : memory.Trails stream) (hfetches : Fetches memory next) :
    Passes stream memory next 0 := by
  induction hfetches with
  | refl => exact hmemory.passes rfl rfl
  | chunk hchunk _ ih =>
      have hbetween := hmemory.passes_fetchChunk hchunk
      exact hbetween.trans (ih hbetween.trails)

theorem Trails.passes_breaks {cause : Error} (hmemory : memory.Trails stream)
    (hbreaks : Breaks memory cause next) :
    ∃ lost report, Passes stream memory next lost ∧ cause = .source report := by
  obtain ⟨last, hlast, hchunk⟩ := hbreaks
  have hfetched := hmemory.passes_fetches hlast
  obtain ⟨rfl, hposition, hsize⟩ := hfetched.trails
  obtain ⟨source, hpull, rfl⟩ := fetchChunk_eq_error hchunk
  obtain ⟨count, report, hsource, rfl⟩ := (Reader.collects_collect _ _ _ hposition).error hpull
  refine ⟨count, report, hfetched.trans ⟨⟨hsource.bytes, hsource.position_le, ?_⟩, 0, ?_, ?_⟩, rfl⟩
  · have hcount := hsource.position
    dsimp only
    omega
  · rw [Nat.add_zero]
    exact hsource.position
  · simp

theorem Trails.passes_noted (hmemory : memory.Trails stream) (request : Request) :
    ∃ lost, Passes stream memory (request.noted Memory.answer memory).1 lost ∧
      (lost = 0 ∨
        ∃ report, (request.noted Memory.answer memory).2.outcome = .error (.source report)) := by
  have hresponds := responds memory request
  cases hnoted : request.noted Memory.answer memory with
  | mk next answered =>
      rw [hnoted] at hresponds
      cases hresponds with
      | fetched hnext => exact ⟨0, hmemory.passes_fetches hnext, Or.inl rfl⟩
      | broken request hnext =>
          obtain ⟨lost, report, hpasses, rfl⟩ := hmemory.passes_breaks hnext
          exact ⟨lost, hpasses, Or.inr ⟨report, rfl⟩⟩
      | changed hsource hbytes => exact ⟨0, hmemory.passes hsource hbytes, Or.inl rfl⟩

theorem Passes.lag (hnext : Passes stream memory next lost) (hmemory : memory.Trails stream) :
    next.lag = memory.lag + lost := by
  obtain ⟨count, hposition, hbytes⟩ := hnext.bytes
  have hend := hnext.trails.position_le
  have hsize := hmemory.size_le
  rw [Memory.lag, Memory.lag, hposition, hbytes, Array.size_append, Array.size_extract]
  omega

theorem Passes.getElem?_bytes (hnext : Passes stream memory next lost)
    (hmemory : memory.Trails stream) {index : Nat} (hindex : memory.bytes.size ≤ index)
    (hinside : index < next.bytes.size) : next.bytes[index]? = stream[index + memory.lag]? := by
  obtain ⟨count, hposition, hbytes⟩ := hnext.bytes
  have hsize := hmemory.size_le
  rw [hbytes, Array.size_append, Array.size_extract] at hinside
  rw [hbytes, Array.getElem?_append_right hindex, Array.getElem?_extract, if_pos (by omega),
    Memory.lag]
  congr 1
  omega

/-- How many bytes had been lost when the byte at an index was fetched, or are lost now. -/
def lostBefore (memory : Memory Reader) (index : Nat) : List Request → Nat
  | [] => memory.lag
  | request :: rest =>
      let next := (request.noted Memory.answer memory).1
      if index < next.bytes.size then memory.lag else next.lostBefore index rest

theorem Trails.session_getElem? (hmemory : memory.Trails stream) {requests : List Request}
    {index : Nat} (hindex : memory.bytes.size ≤ index)
    (hinside : index < (session Memory.answer memory requests).1.bytes.size) :
    (session Memory.answer memory requests).1.bytes[index]? =
      stream[index + memory.lostBefore index requests]? := by
  induction requests generalizing memory with
  | nil => exact absurd hinside (Nat.not_lt_of_le hindex)
  | cons request rest ih =>
      obtain ⟨lost, hnext, -⟩ := hmemory.passes_noted request
      rw [lostBefore]
      split_ifs with hfetched
      · obtain ⟨more, hmore⟩ := session_bytes (request.noted Memory.answer memory).1 rest
        rw [← hnext.getElem?_bytes hmemory hindex hfetched]
        change (session Memory.answer (request.noted Memory.answer memory).1 rest).1.bytes[index]? = _
        rw [hmore, Array.getElem?_append_left hfetched]
      · exact ih hnext.trails (Nat.le_of_not_lt hfetched) hinside

theorem Trails.session (hmemory : memory.Trails stream) (requests : List Request) :
    (session Memory.answer memory requests).1.Trails stream ∧
      memory.lag ≤ (session Memory.answer memory requests).1.lag ∧
      ∀ index, memory.lostBefore index requests ≤
        (session Memory.answer memory requests).1.lag := by
  induction requests generalizing memory with
  | nil => exact ⟨hmemory, Nat.le_refl _, fun _ => Nat.le_refl _⟩
  | cons request rest ih =>
      obtain ⟨lost, hnext, -⟩ := hmemory.passes_noted request
      obtain ⟨hlast, hmore, hbound⟩ := ih hnext.trails
      have hlag : memory.lag ≤ (Streaming.session Memory.answer memory (request :: rest)).1.lag :=
        Nat.le_trans (hnext.lag hmemory ▸ Nat.le_add_right _ _) hmore
      refine ⟨hlast, hlag, ?_⟩
      intro index
      rw [lostBefore]
      split_ifs
      · exact hlag
      · exact hbound index

/-- A memory over a reader that hands out a stream in any pieces and with any failures between them
has every byte as many places too low as bytes had been lost when it was fetched. So it holds the
first part of the stream, and a read gives what the stream has at its addresses, exactly if the
stream has the same bytes there. What is lost is what the reader has handed out and the memory does
not hold; only requests that fail with a failure of the source lose anything. -/
theorem session_shifted (stream : Array UInt8) (script : List Reply) (limit : Option Nat)
    (requests : List Request) :
    let start : Memory Reader := { source := { bytes := stream, script, limit } }
    let memory := (Streaming.session Memory.answer start requests).1
    (∀ index < memory.bytes.size,
        memory.bytes[index]? = stream[index + start.lostBefore index requests]?) ∧
      (memory.bytes = stream.extract 0 memory.bytes.size ↔
        ∀ index < memory.bytes.size,
          stream[index + start.lostBefore index requests]? = stream[index]?) ∧
      (∀ address length found next, Memory.read address length memory = .ok found next →
        (found = stream.extract (memory.dropped + address)
            (memory.dropped + address + found.size) ↔
          ∀ offset < found.size,
            stream[memory.dropped + address + offset +
                start.lostBefore (memory.dropped + address + offset)
                  (requests ++ [.read address length])]? =
              stream[memory.dropped + address + offset]?)) ∧
      (∀ index, start.lostBefore index requests ≤ memory.lag) ∧
      ∀ request : Request, (request.noted Memory.answer memory).1.lag = memory.lag ∨
        ∃ report, (request.noted Memory.answer memory).2.outcome = .error (.source report) := by
  intro start memory
  have hstart : start.Trails stream := trails_start stream script limit
  obtain ⟨hmemory, -, hbound⟩ := hstart.session requests
  have hbytes : ∀ index < memory.bytes.size,
      memory.bytes[index]? = stream[index + start.lostBefore index requests]? :=
    fun index hindex => hstart.session_getElem? (Nat.zero_le index) hindex
  refine ⟨hbytes, ?_, ?_, hbound, ?_⟩
  · have hholds : memory.bytes = stream.extract 0 memory.bytes.size ↔
        ∀ index < memory.bytes.size, memory.bytes[index]? = stream[index]? := by
      simpa using @eq_extract_iff memory.bytes stream 0
    rw [hholds]
    exact forall₂_congr fun index hindex => by rw [hbytes index hindex]
  · intro address length found next hread
    rw [eq_extract_iff]
    refine forall₂_congr fun offset hoffset => ?_
    obtain ⟨hfound, hinside⟩ := read_eq_ok hread offset hoffset
    have hlast : (Streaming.session Memory.answer start (requests ++ [.read address length])).1 =
        next := by
      rw [session_concat, Request.noted_of_ok .bytes rfl hread]
    rw [← hlast] at hfound hinside
    rw [hfound, hstart.session_getElem? (Nat.zero_le _) hinside]
  · intro request
    obtain ⟨lost, hnext, hfails⟩ := hmemory.passes_noted request
    refine hfails.imp_left fun hlost => ?_
    rw [hnext.lag hmemory, hlost, Nat.add_zero]

/-- Eight bytes in two pieces, and a failure between them. -/
def halvedReader : Reader :=
  { bytes := #[0, 1, 2, 3, 4, 5, 6, 7], script := [.piece (some 4), .failed "source failed"],
    limit := some 4 }

/-- The request that meets the failure loses the first piece, and the next one finds the second piece
in its place. -/
theorem session_loses_halvedReader :
    ∃ memory, (Streaming.session Memory.answer ({ source := halvedReader } : Memory Reader)
        [.read 0 4]).1 = memory ∧
      memory.bytes = #[] ∧ memory.lag = 4 ∧
      (Memory.read 0 4).run' memory = some #[4, 5, 6, 7] ∧
      #[4, 5, 6, 7] ≠ halvedReader.bytes.extract 0 4 :=
  ⟨_, rfl, by decide +kernel⟩

end Memory

end Bitcode.Streaming
