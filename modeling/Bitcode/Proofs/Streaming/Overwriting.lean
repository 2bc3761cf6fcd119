import Bitcode.Proofs.Streaming.Lines

/-!
Lines that are fetched in part. A cache puts what it finds of a line over the line that it has, and
only then asks whether all bytes were there. If some are missing the request fails, and the old line
keeps its address with the first bytes of another line in it.
-/

namespace Bitcode.Streaming

/-- Bytes that a call has read are those that a stream has at the addresses asked for. -/
def Answered.Faithful (stream : Array UInt8) (answered : Answered) : Prop :=
  match answered.request, answered.outcome with
  | .read address length, .ok (.bytes found) =>
      found.size ≤ length ∧ found = stream.extract address (address + found.size)
  | _, _ => True

/-- A call has not failed because bytes of a line were missing. -/
def Answered.IsComplete (answered : Answered) : Prop :=
  ∀ base expected actual, answered.outcome ≠ .error (.shortRead base expected actual)

theorem Answered.faithful_of_not_read {stream : Array UInt8} {answered : Answered}
    (hread : ∀ address length, answered.request ≠ .read address length) :
    answered.Faithful stream := by
  unfold Faithful
  split
  next hrequest _ => exact absurd hrequest (hread _ _)
  next => trivial

namespace Window

section Origins

variable {σ : Type} [Source σ]

/-- The addresses in the stream that the bytes of the line are from, after a request. -/
def originsAfter (window : Window σ) (origins : Nat → Nat) : Request → Nat → Nat
  | .read address length, offset =>
      if window.NeedsLine address length ∧ offset < window.brought address then
        Cache.lineStart address + offset
      else origins offset
  | _, offset => origins offset

omit [Source σ] in
/-- The bytes of the line that a request is served with are those of the stream at their addresses,
though they may be from others. -/
def Intact (stream : Array UInt8) (origins : Nat → Nat) (window : Window σ) : Request → Prop
  | .read address length =>
      address + length < addressLimit → window.cache.covers address (address + length) →
        ∀ index < min (address + length) (window.cache.base.getD 0 + window.cache.valid),
          address ≤ index →
            stream[origins (index - window.cache.base.getD 0)]? = stream[index]?
  | _ => True

instance (stream : Array UInt8) (origins : Nat → Nat) (window : Window σ) (request : Request) :
    Decidable (window.Intact stream origins request) :=
  match request with
  | .read _ _ => inferInstanceAs (Decidable (_ → _ → ∀ index < _, _ → _))
  | .isValid _ | .isEnd _ | .drop _ | .setSize _ | .extent => .isTrue trivial

/-- Every request of a sequence finds the bytes intact that it is served with. -/
def Undisturbed (stream : Array UInt8) (window : Window σ) (origins : Nat → Nat) :
    List Request → Prop
  | [] => True
  | request :: rest =>
      window.Intact stream origins request ∧
        Undisturbed stream (request.noted Window.answer window).1
          (window.originsAfter origins request) rest

instance decidableUndisturbed (stream : Array UInt8) (window : Window σ) (origins : Nat → Nat) :
    (requests : List Request) → Decidable (window.Undisturbed stream origins requests)
  | [] => .isTrue trivial
  | request :: rest =>
      have := decidableUndisturbed stream (request.noted Window.answer window).1
        (window.originsAfter origins request) rest
      inferInstanceAs (Decidable (_ ∧ _))

end Origins

variable {σ : Type} [Source σ] {stream : Array UInt8} {window next : Window σ}
  {origins : Nat → Nat} {request : Request} {requests : List Request}

/-- No address has moved, and the bytes of the line are those that a stream has at their origins. -/
structure Displays (stream : Array UInt8) (origins : Nat → Nat) (window : Window σ) : Prop where
  undropped : window.memory.dropped = 0
  valid_le : window.cache.valid ≤ window.cache.line.size
  line : ∀ offset < window.cache.valid, window.cache.line[offset]? = stream[origins offset]?

omit [Source σ] in
theorem displays_start (stream : Array UInt8) (origins : Nat → Nat) (source : σ) :
    Displays stream origins ({ memory := { source } } : Window σ) where
  undropped := rfl
  valid_le := Nat.zero_le _
  line offset hoffset := absurd hoffset (Nat.not_lt_zero offset)

omit [Source σ] in
/-- Neither a longer memory nor a higher bound for addresses changes what the line displays. -/
theorem Displays.grown (hwindow : window.Displays stream origins) {memory : Memory σ} {cache : Cache}
    (hmemory : window.memory.Grows memory) (hcache : window.cache.SameLine cache) :
    Displays stream origins ⟨memory, cache⟩ := by
  obtain ⟨line, base, valid, bound⟩ := cache
  obtain ⟨rfl, rfl, rfl⟩ := hcache
  exact ⟨hmemory.dropped.trans hwindow.undropped, hwindow.valid_le, hwindow.line⟩

omit [Source σ] in
theorem Displays.faithful_serve (hwindow : window.Displays stream origins) {address length : Nat}
    (hbase : window.cache.base.getD 0 ≤ address) :
    Answered.Faithful stream ⟨.read address length,
        .ok (.bytes (window.cache.serve address (address + length)))⟩ ↔
      ∀ index < min (address + length) (window.cache.base.getD 0 + window.cache.valid),
        address ≤ index → stream[origins (index - window.cache.base.getD 0)]? = stream[index]? := by
  obtain ⟨hsize, hserve⟩ := window.cache.getElem?_serve hwindow.valid_le hbase
  simp only [Answered.Faithful]
  rw [eq_extract_iff, and_iff_right (by rw [hsize]; omega)]
  constructor
  · intro hfound index hindex haddress
    have hoffset : index - address < (window.cache.serve address (address + length)).size := by
      rw [hsize]
      omega
    have hbyte := hfound _ hoffset
    rw [hserve _ hoffset, hwindow.line _ (by omega)] at hbyte
    rw [show index - window.cache.base.getD 0 =
      address - window.cache.base.getD 0 + (index - address) by omega, hbyte]
    congr 1
    omega
  · intro hintact offset hoffset
    rw [hserve offset hoffset]
    rw [hsize] at hoffset
    rw [hwindow.line _ (by omega), ← hintact (address + offset) (by omega) (Nat.le_add_right _ _)]
    congr 2
    omega

theorem originsAfter_of_not_needsLine {address length : Nat}
    (hspared : ¬ window.NeedsLine address length) :
    window.originsAfter origins (.read address length) = origins := by
  funext offset
  exact if_neg fun hneeds => hspared hneeds.1

theorem originsAfter_of_needsLine {address length : Nat} {memory : Memory σ} {bytes : Array UInt8}
    (hneeds : window.NeedsLine address length) (hbytes : window.Finds address memory bytes) :
    window.originsAfter origins (.read address length) = fun offset =>
      if offset < bytes.size then Cache.lineStart address + offset else origins offset := by
  funext offset
  simp only [originsAfter, hneeds, true_and, hbytes.size]

theorem Finds.getElem? {address : Nat} {memory : Memory σ} {bytes : Array UInt8}
    (hbytes : window.Finds address memory bytes) (hundropped : window.memory.dropped = 0)
    (hheld : ∃ rest, stream = memory.bytes ++ rest) :
    ∀ offset < bytes.size, bytes[offset]? = stream[Cache.lineStart address + offset]? := by
  obtain ⟨rest, rfl⟩ := hheld
  intro offset hoffset
  have hbyte := hbytes.bytes offset hoffset
  rw [hundropped, Nat.zero_add] at hbyte
  rw [hbyte.1, Array.getElem?_append_left hbyte.2]

theorem Displays.overwrite (hwindow : window.Displays stream origins) {address : Nat}
    {memory : Memory σ} {bytes : Array UInt8} (hbytes : window.Finds address memory bytes)
    (hheld : ∃ rest, stream = memory.bytes ++ rest) :
    Displays stream
      (fun offset => if offset < bytes.size then Cache.lineStart address + offset
        else origins offset)
      ⟨memory, window.cache.overwrite bytes⟩ := by
  refine ⟨hbytes.grows.dropped.trans hwindow.undropped, ?_, ?_⟩
  · rw [Cache.size_overwrite]
    exact Nat.le_trans hwindow.valid_le (Nat.le_max_right _ _)
  · intro offset hoffset
    rw [Cache.getElem?_overwrite]
    split_ifs with hnew
    · exact hbytes.getElem? hwindow.undropped hheld offset hnew
    · exact hwindow.line offset hoffset

theorem Displays.load (hwindow : window.Displays stream origins) {address : Nat}
    {memory : Memory σ} {bytes : Array UInt8} (hbytes : window.Finds address memory bytes)
    (hheld : ∃ rest, stream = memory.bytes ++ rest) (size : Nat) :
    Displays stream
      (fun offset => if offset < bytes.size then Cache.lineStart address + offset
        else origins offset)
      ⟨memory, window.cache.load address bytes size⟩ := by
  refine ⟨hbytes.grows.dropped.trans hwindow.undropped, window.cache.valid_load_le address bytes size,
    ?_⟩
  intro offset hoffset
  change offset < bytes.size at hoffset
  change (window.cache.overwrite bytes).line[offset]? = _
  rw [Cache.getElem?_overwrite, if_pos hoffset, if_pos hoffset]
  exact hbytes.getElem? hwindow.undropped hheld offset hoffset

theorem Reads.displays {address length : Nat} {answered : Answered}
    (hreads : Reads window address length (next, answered))
    (hwindow : window.Displays stream origins) (hheld : ∃ rest, stream = next.memory.bytes ++ rest) :
    (answered.Faithful stream ↔ window.Intact stream origins (.read address length)) ∧
      next.Displays stream (window.originsAfter origins (.read address length)) := by
  cases hreads with
  | empty hspared hempty =>
      rw [originsAfter_of_not_needsLine hspared]
      refine ⟨iff_of_true ⟨Nat.zero_le _, by simp⟩ ?_, hwindow⟩
      intro hlimit _ index hindex haddress
      omega
  | served hspared hlimit hcovers =>
      have hbase : window.cache.base.getD 0 ≤ address := by
        cases hbase : window.cache.base with
        | none => exact Nat.zero_le _
        | some base =>
            simp only [Cache.covers, hbase, Option.any_some, decide_eq_true_eq] at hcovers
            exact hcovers.1
      rw [originsAfter_of_not_needsLine hspared, hwindow.faithful_serve hbase]
      exact ⟨⟨fun hintact _ _ => hintact, fun hintact => hintact hlimit hcovers⟩, hwindow⟩
  | spanning hspared hcovers =>
      rw [originsAfter_of_not_needsLine hspared]
      exact ⟨iff_of_true trivial fun _ hcovered => absurd hcovered hcovers, hwindow⟩
  | missing hneeds hbytes =>
      rw [originsAfter_of_needsLine hneeds hbytes]
      exact ⟨iff_of_true trivial fun _ hcovers => absurd hcovers hneeds.2.1,
        hwindow.overwrite hbytes hheld⟩
  | @loaded memory bytes size hneeds hbytes =>
      have hnext := hwindow.load hbytes hheld size
      rw [originsAfter_of_needsLine hneeds hbytes]
      refine ⟨iff_of_true ?_ fun _ hcovers => absurd hcovers hneeds.2.1, hnext⟩
      -- The bytes of the new line are from where they stand.
      apply (hnext.faithful_serve (Cache.lineStart_le address)).mpr
      intro index hindex haddress
      have hstart := Cache.lineStart_le address
      change index < min _ (Cache.lineStart address + bytes.size) at hindex
      change stream[if index - Cache.lineStart address < bytes.size then
        Cache.lineStart address + (index - Cache.lineStart address) else _]? = _
      rw [if_pos (by omega), Nat.add_sub_of_le (by omega)]

theorem Displays.noted (hwindow : window.Displays stream origins) (hkeeps : request.KeepsAddresses)
    (hheld : ∃ rest, stream = (request.noted Window.answer window).1.memory.bytes ++ rest) :
    ((request.noted Window.answer window).2.Faithful stream ↔
        window.Intact stream origins request) ∧
      (request.noted Window.answer window).1.Displays stream
        (window.originsAfter origins request) := by
  cases request with
  | read address length => exact (reads window address length).displays hwindow hheld
  | isValid address | isEnd address | setSize size | extent =>
      obtain ⟨hmemory, hcache⟩ := noted_sameLine window hkeeps (by simp)
      refine ⟨iff_of_true (Answered.faithful_of_not_read ?_) trivial, hwindow.grown hmemory hcache⟩
      rw [Request.request_noted]
      simp
  | drop count => exact hkeeps.elim

theorem Displays.session (hwindow : window.Displays stream origins)
    (hkeeps : ∀ request ∈ requests, request.KeepsAddresses)
    (hheld : ∃ rest, stream =
      (session Window.answer window requests).1.memory.bytes ++ rest) :
    (∀ answered ∈ (session Window.answer window requests).2, answered.Faithful stream) ↔
      window.Undisturbed stream origins requests := by
  induction requests generalizing window origins with
  | nil => exact iff_of_true (fun _ hanswered => absurd hanswered List.not_mem_nil) trivial
  | cons request rest ih =>
      rw [List.forall_mem_cons] at hkeeps
      obtain ⟨last, hlast⟩ := hheld
      obtain ⟨more, hmore⟩ := (grows_session (request.noted Window.answer window).1 hkeeps.2).bytes
      have hnext : ∃ rest, stream = (request.noted Window.answer window).1.memory.bytes ++ rest :=
        ⟨more ++ last, by rw [← Array.append_assoc, ← hmore]; exact hlast⟩
      obtain ⟨hintact, hdisplays⟩ := hwindow.noted hkeeps.1 hnext
      simp only [Streaming.session, List.forall_mem_cons, Undisturbed]
      rw [hintact, ih hdisplays hkeeps.2 ⟨last, hlast⟩]

/-- The bytes of the line are from where they stand. -/
def Straight (origins : Nat → Nat) (window : Window σ) : Prop :=
  ∀ offset < window.cache.valid, origins offset = window.cache.base.getD 0 + offset

omit [Source σ] in
theorem Straight.intact (hwindow : window.Straight origins) (stream : Array UInt8)
    (request : Request) : window.Intact stream origins request := by
  cases request with
  | read address length =>
      intro _ hcovers index hindex haddress
      cases hbase : window.cache.base with
      | none => simp [Cache.covers, hbase] at hcovers
      | some base =>
          simp only [Cache.covers, hbase, Option.any_some, decide_eq_true_eq] at hcovers
          rw [hbase, Option.getD_some] at hindex
          rw [Option.getD_some, hwindow _ (by omega), hbase, Option.getD_some,
            Nat.add_sub_of_le (by omega)]
  | isValid address | isEnd address | drop count | setSize size | extent => trivial

theorem Reads.straight {address length : Nat} {answered : Answered}
    (hreads : Reads window address length (next, answered)) (hwindow : window.Straight origins)
    (hcomplete : answered.IsComplete) :
    next.Straight (window.originsAfter origins (.read address length)) := by
  cases hreads with
  | empty hspared | served hspared | spanning hspared =>
      rw [originsAfter_of_not_needsLine hspared]
      exact hwindow
  | missing hneeds hbytes hcause =>
      -- No bytes were found, so that nothing lies over the line.
      rcases hcause with hnone | ⟨expected, rfl⟩
      · rw [originsAfter_of_needsLine hneeds hbytes]
        intro offset hoffset
        exact (if_neg (by omega)).trans (hwindow offset hoffset)
      · exact absurd rfl (hcomplete _ _ _)
  | loaded size hneeds hbytes =>
      rw [originsAfter_of_needsLine hneeds hbytes]
      exact fun offset hoffset => if_pos hoffset

theorem Straight.undisturbed (hwindow : window.Straight origins) (stream : Array UInt8)
    (hkeeps : ∀ request ∈ requests, request.KeepsAddresses)
    (hcomplete : ∀ answered ∈ (session Window.answer window requests).2, answered.IsComplete) :
    window.Undisturbed stream origins requests := by
  induction requests generalizing window origins with
  | nil => trivial
  | cons request rest ih =>
      simp only [Streaming.session, List.forall_mem_cons] at hkeeps hcomplete
      refine ⟨hwindow.intact stream request, ih ?_ hkeeps.2 hcomplete.2⟩
      cases request with
      | read address length => exact (reads window address length).straight hwindow hcomplete.1
      | isValid address | isEnd address | setSize size | extent =>
          obtain ⟨-, hcache⟩ := noted_sameLine window hkeeps.1 (by simp)
          intro offset hoffset
          rw [hcache.valid] at hoffset
          rw [hcache.base]
          exact hwindow offset hoffset
      | drop count => exact hkeeps.1.elim

/-- All bytes that are read through a cache are those of the stream, over any sequence of requests
that moves no addresses and over any source, exactly if the requests find the line undisturbed. What
disturbs it is a read that fails because bytes of its line are missing: those that are there stay at
the start of the line before. A failure of the source disturbs nothing. -/
theorem session_faithful_iff {source : σ} {requests : List Request}
    (hkeeps : ∀ request ∈ requests, request.KeepsAddresses)
    (hheld : ∃ rest, stream =
      (Streaming.session Window.answer { memory := { source } } requests).1.memory.bytes ++ rest) :
    ((∀ answered ∈ (Streaming.session Window.answer { memory := { source } } requests).2,
        answered.Faithful stream) ↔
      Undisturbed stream ({ memory := { source } } : Window σ) id requests) ∧
    ((∀ answered ∈ (Streaming.session Window.answer { memory := { source } } requests).2,
        answered.IsComplete) →
      ∀ answered ∈ (Streaming.session Window.answer { memory := { source } } requests).2,
        answered.Faithful stream) := by
  have hiff := (displays_start stream id source).session hkeeps hheld
  refine ⟨hiff, fun hcomplete => hiff.mpr ?_⟩
  have hstart : Straight id ({ memory := { source } } : Window σ) :=
    fun offset hoffset => absurd hoffset (Nat.not_lt_zero offset)
  exact hstart.undisturbed stream hkeeps hcomplete

theorem session_faithful_overstated :
    ∃ run, Streaming.session Window.answer
        ({ memory := { source := Sharing.sampleReader } } : Window Reader)
        [.read 0 2, .setSize 20000, .read 16384 1, .read 1 2] = run ∧
      run.2.map (·.outcome.toBool) = [true, true, false, true] ∧
      Undisturbed #[7, 8, 9] ({ memory := { source := Sharing.sampleReader } } : Window Reader) id
        [.read 0 2, .setSize 20000, .read 16384 1, .read 1 2] ∧
      ∀ answered ∈ run.2, answered.Faithful #[7, 8, 9] := by
  have hheld : (Streaming.session Window.answer
      ({ memory := { source := Sharing.sampleReader } } : Window Reader)
      [.read 0 2, .setSize 20000, .read 16384 1, .read 1 2]).1.memory.bytes = #[7, 8, 9] := by
    decide +kernel
  have hundisturbed : Undisturbed #[7, 8, 9]
      ({ memory := { source := Sharing.sampleReader } } : Window Reader) id
      [.read 0 2, .setSize 20000, .read 16384 1, .read 1 2] := by
    decide +kernel
  refine ⟨_, rfl, by decide +kernel, hundisturbed, ?_⟩
  exact (session_faithful_iff (by decide) ⟨#[], by rw [hheld, Array.append_empty]⟩).1.mpr hundisturbed

/-- A line of zeros, and one more byte. -/
def lineAndByte : Array UInt8 :=
  Array.replicate Cache.lineSize 0 ++ #[1]

theorem size_lineAndByte : lineAndByte.size = Cache.lineSize + 1 := by
  simp [lineAndByte]

theorem lineAndByte_getElem?_ne : lineAndByte[Cache.lineSize]? ≠ lineAndByte[0]? := by
  have hpositive : 0 < Cache.lineSize := by decide
  have hfirst : lineAndByte[0]? = some 0 := by
    rw [lineAndByte, Array.getElem?_append_left (by rwa [Array.size_replicate]),
      Array.getElem?_replicate, if_pos hpositive]
  have hlast : lineAndByte[Cache.lineSize]? = some 1 := by
    rw [lineAndByte, Array.getElem?_append_right (by rw [Array.size_replicate]),
      Array.size_replicate]
    simp
  rw [hfirst, hlast]
  decide

theorem unfaithful_serve_overwrite {cache : Cache} {bytes : Array UInt8} {base : Nat}
    (hbase : cache.base = some base) (hvalid : cache.valid ≤ cache.line.size)
    (hpositive : 0 < cache.valid) (hbytes : 0 < bytes.size) (hother : bytes[0]? ≠ stream[base]?) :
    ¬ Answered.Faithful stream
      ⟨.read base 1, .ok (.bytes ((cache.overwrite bytes).serve base (base + 1)))⟩ := by
  rintro ⟨-, hfound⟩
  have hstart : (cache.overwrite bytes).base.getD 0 = base := by
    change cache.base.getD 0 = base
    rw [hbase, Option.getD_some]
  have hwhole : (cache.overwrite bytes).valid ≤ (cache.overwrite bytes).line.size := by
    rw [Cache.size_overwrite]
    exact Nat.le_trans hvalid (Nat.le_max_right _ _)
  have hsome : 0 < (cache.overwrite bytes).valid := hpositive
  obtain ⟨hsize, hserve⟩ :=
    @Cache.getElem?_serve (cache.overwrite bytes) hwhole base (base + 1) (Nat.le_of_eq hstart)
  have hone : 0 < ((cache.overwrite bytes).serve base (base + 1)).size := by omega
  have hfirst := eq_extract_iff.mp hfound 0 hone
  rw [hserve 0 hone, hstart, Nat.sub_self, Nat.add_zero, Nat.add_zero, Cache.getElem?_overwrite,
    if_pos hbytes] at hfirst
  exact hother hfirst

theorem unfaithful_of_ended {memory : Memory σ} {cache : Cache} (hended : memory.ended = true)
    (hundropped : memory.dropped = 0) (hbytes : memory.bytes = lineAndByte)
    (hobject : memory.objectSize = some (Cache.lineSize + 1)) (hnone : cache.base = none) :
    ∃ answered ∈ (session Window.answer (⟨memory, cache⟩ : Window σ)
      [.read 0 1, .setSize 32768, .read 16384 1, .read 0 1]).2,
        ¬ answered.Faithful lineAndByte := by
  have hsize := size_lineAndByte
  obtain ⟨line, hline⟩ : ∃ line, memory.bytes.extract 0 (0 + Cache.lineSize) = line := ⟨_, rfl⟩
  obtain ⟨byte, hbyte⟩ :
      ∃ byte, memory.bytes.extract Cache.lineSize (Cache.lineSize + Cache.lineSize) = byte :=
    ⟨_, rfl⟩
  have hlineSize : line.size = Cache.lineSize := by
    rw [← hline, Array.size_extract, hbytes]
    omega
  have hbyteSize : byte.size = 1 := by
    rw [← hbyte, Array.size_extract, hbytes, hsize]
    rfl
  -- The first line is loaded.
  obtain ⟨found, bound, hfirst⟩ : ∃ found bound, Window.read 0 1 (⟨memory, cache⟩ : Window σ) =
      .ok found ⟨memory, cache.load 0 line bound⟩ := by
    have hneeds : (⟨memory, cache⟩ : Window σ).NeedsLine 0 1 :=
      ⟨by decide, by simp [Cache.covers, hnone], rfl⟩
    have hfetch := @fetchLine_of_ended _ _ ⟨memory, cache⟩ _ 0 0 _ hended hundropped hobject rfl
      (by decide) (by decide) hline
    rw [if_neg (not_not.mpr hlineSize)] at hfetch
    rw [read_of_needsLine hneeds, bind_apply_of_ok hfetch, get_bind_apply]
    exact ⟨_, _, rfl⟩
  -- The read of the second line fails, with its only byte over the first line.
  obtain ⟨cause, hsecond⟩ : ∃ cause, Window.read 16384 1
      (⟨memory.setSize 32768, (cache.load 0 line bound).raise 32768⟩ : Window σ) =
        .error cause ⟨memory.setSize 32768,
          ((cache.load 0 line bound).raise 32768).overwrite byte⟩ := by
    have hneeds : (⟨memory.setSize 32768, (cache.load 0 line bound).raise 32768⟩ :
        Window σ).NeedsLine 16384 1 :=
      ⟨by decide, by simp [Cache.covers, Cache.load, Cache.raise, Cache.lineStart, Cache.lineSize],
        rfl⟩
    have hfetch := @fetchLine_of_ended _ _
      ⟨memory.setSize 32768, (cache.load 0 line bound).raise 32768⟩ 32768 16384 Cache.lineSize _
      (by simp [Memory.setSize, hended]) hundropped rfl rfl (by decide) (by decide) hbyte
    rw [if_pos (by rw [hbyteSize]; decide)] at hfetch
    rw [read_of_needsLine hneeds, bind_apply_of_error hfetch]
    exact ⟨_, rfl⟩
  have hthird := @read_of_covers _ _ (⟨memory.setSize 32768,
    ((cache.load 0 line bound).raise 32768).overwrite byte⟩ : Window σ) 0 1 (by decide) (by decide)
    rfl
  refine ⟨_, ?_, @unfaithful_serve_overwrite _ ((cache.load 0 line bound).raise 32768) byte 0 rfl
    (cache.valid_load_le 0 line bound) ?_ (by omega) ?_⟩
  · have hstated : (Request.setSize 32768).noted Window.answer
        (⟨memory, cache.load 0 line bound⟩ : Window σ) =
          (⟨memory.setSize 32768, (cache.load 0 line bound).raise 32768⟩,
            ⟨.setSize 32768, .ok .done⟩) := rfl
    simp only [Streaming.session]
    rw [Request.noted_of_ok .bytes rfl hfirst, hstated,
      Request.noted_of_error .bytes rfl hsecond, Request.noted_of_ok .bytes rfl hthird]
    simp
  · change 0 < line.size
    rw [hlineSize]
    decide
  · rw [← hbyte, Array.getElem?_extract, hbytes, if_pos (by rw [hsize]; decide)]
    exact lineAndByte_getElem?_ne

/-- A failed read of the second line leaves the first line with a byte that is not its own. -/
theorem session_unfaithful_lineAndByte :
    ∃ answered ∈ (Streaming.session Window.answer
        ({ memory := { source := { bytes := lineAndByte } } } : Window Reader)
        [.isEnd 16385, .read 0 1, .setSize 32768, .read 16384 1, .read 0 1]).2,
      ¬ answered.Faithful lineAndByte := by
  have hsteady : Reader.Steady { bytes := lineAndByte } :=
    ⟨fun _ hreply => absurd hreply List.not_mem_nil, by decide, Nat.zero_le _⟩
  obtain ⟨memory, hfetch, hmemory, hreached⟩ :=
    (Memory.views_start hsteady.delivers).fetchTo 16385
  have hsize : lineAndByte.size = 16385 := size_lineAndByte
  have hundropped : memory.dropped = 0 := hmemory.dropped
  have hended : memory.ended = true := by
    apply hreached.resolve_left
    have hle : memory.bytes.size ≤ lineAndByte.size := hmemory.views.size_le
    rw [Memory.bytesRead_eq]
    omega
  have hbytes : memory.bytes = lineAndByte := by
    rw [hmemory.views.bytes, hmemory.views.ended hended, Array.extract_size]
  have hobject : memory.objectSize = some (Cache.lineSize + 1) := by
    rw [hmemory.views.objectSize, if_pos hended, hundropped, Nat.sub_zero, size_lineAndByte]
  obtain ⟨value, hend⟩ : ∃ value,
      Memory.isEnd 16385 ({ source := { bytes := lineAndByte } } : Memory Reader) =
        .ok value memory := by
    rw [Memory.isEnd, get_bind_apply]
    dsimp only
    rw [bind_apply_of_ok (discard_eq_ok hfetch), get_bind_apply]
    exact ⟨_, rfl⟩
  obtain ⟨answered, hanswered, hunfaithful⟩ :=
    @unfaithful_of_ended _ _ memory .empty hended hundropped hbytes hobject rfl
  refine ⟨answered, List.mem_cons_of_mem _ ?_, hunfaithful⟩
  have hnoted : (Request.isEnd 16385).noted Window.answer
      (⟨{ source := { bytes := lineAndByte } }, .empty⟩ : Window Reader) =
        (⟨memory, .empty⟩, ⟨.isEnd 16385, .ok (.truth value)⟩) :=
    Request.noted_of_ok .truth rfl (onMemory_of_ok hend)
  rw [hnoted]
  exact hanswered

end Window

end Bitcode.Streaming
