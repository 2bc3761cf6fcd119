import Bitcode.Proofs.Streaming.Fetching

namespace Bitcode.Streaming

/-- The addresses stay where they are. -/
def Request.KeepsAddresses : Request → Prop
  | .drop _ => False
  | _ => True

instance (request : Request) : Decidable request.KeepsAddresses :=
  match request with
  | .drop _ => .isFalse id
  | .read _ _ | .isValid _ | .isEnd _ | .setSize _ | .extent => .isTrue trivial

theorem Request.request_noted {σ : Type} (answer : Request → EStateM Error σ Response) (state : σ)
    (request : Request) : (request.noted answer state).2.request = request := by
  unfold noted
  split <;> rfl

namespace Cache

/-- Two caches have the same line, at the same address. -/
structure SameLine (cache other : Cache) : Prop where
  line : other.line = cache.line
  base : other.base = cache.base
  valid : other.valid = cache.valid

variable (cache : Cache)

theorem size_overwrite (bytes : Array UInt8) :
    (cache.overwrite bytes).line.size = max bytes.size cache.line.size := by
  rw [overwrite, Array.size_append, Array.size_extract]
  omega

theorem getElem?_overwrite (bytes : Array UInt8) (offset : Nat) :
    (cache.overwrite bytes).line[offset]? =
      if offset < bytes.size then bytes[offset]? else cache.line[offset]? := by
  rw [overwrite, Array.getElem?_append, Array.getElem?_extract]
  split_ifs with hnew hold
  · rfl
  · congr 1
    omega
  · exact (Array.getElem?_eq_none (by omega)).symm

theorem overwrite_empty : cache.overwrite #[] = cache := by
  simp [overwrite]

/-- Replace the line by the bytes of another one. -/
def load (address : Nat) (bytes : Array UInt8) (size : Nat) : Cache :=
  { cache.overwrite bytes with base := some (lineStart address), valid := bytes.size }.raise size

theorem valid_load_le (address : Nat) (bytes : Array UInt8) (size : Nat) :
    (cache.load address bytes size).valid ≤ (cache.load address bytes size).line.size := by
  change bytes.size ≤ (cache.overwrite bytes).line.size
  rw [size_overwrite]
  exact Nat.le_max_left _ _

theorem getElem?_serve (hvalid : cache.valid ≤ cache.line.size) {address past : Nat}
    (hbase : cache.base.getD 0 ≤ address) :
    (cache.serve address past).size = min past (cache.base.getD 0 + cache.valid) - address ∧
      ∀ offset < (cache.serve address past).size,
        (cache.serve address past)[offset]? =
          cache.line[address - cache.base.getD 0 + offset]? := by
  have hsize : (cache.serve address past).size =
      min past (cache.base.getD 0 + cache.valid) - address := by
    rw [serve, Array.size_extract]
    omega
  refine ⟨hsize, ?_⟩
  intro offset hoffset
  rw [hsize] at hoffset
  rw [serve, Array.getElem?_extract, if_pos (by omega)]

end Cache

namespace Window

variable {σ : Type} [Source σ] {window next : Window σ}

/-- How many bytes are put over the line when the line of an address is fetched. -/
def brought (window : Window σ) (address : Nat) : Nat :=
  let found : Fetching σ (Array UInt8) := do
    let extent ← lineExtent (Cache.lineStart address)
    Memory.read (Cache.lineStart address) extent.1
  match found window.memory with
  | .ok bytes _ => bytes.size
  | .error _ _ => 0

omit [Source σ] in
/-- A request cannot be answered without another line, and lies in one. -/
def NeedsLine (window : Window σ) (address length : Nat) : Prop :=
  ¬ (length = 0 ∨ addressLimit ≤ address + length) ∧
    ¬ window.cache.covers address (address + length) ∧
      Cache.lineStart address = Cache.lineStart (address + length - 1)

instance (window : Window σ) (address length : Nat) :
    Decidable (window.NeedsLine address length) :=
  inferInstanceAs (Decidable (_ ∧ _))

omit [Source σ] in
theorem onMemory_of_error {α : Type} {operation : Fetching σ α} {cause : Error} {memory : Memory σ}
    (hoperation : operation window.memory = .error cause memory) :
    onMemory operation window = .error cause { window with memory } := by
  rw [onMemory, hoperation]

theorem onlyFetches_lineExtent (base : Nat) :
    Memory.OnlyFetches (lineExtent base : Fetching σ (Nat × Nat)) := by
  refine (Memory.OnlyFetches.isValid _).bind fun valid => ?_
  split_ifs
  · exact .pure _
  · exact Memory.OnlyFetches.extent.bind fun _ => .pure _

/-- Of the line of an address, these bytes are found in the memory, of which more may be fetched. -/
structure Finds (window : Window σ) (address : Nat) (memory : Memory σ) (bytes : Array UInt8) :
    Prop where
  grows : window.memory.Grows memory
  size : bytes.size = window.brought address
  bytes : ∀ offset < bytes.size,
    bytes[offset]? = memory.bytes[window.memory.dropped + Cache.lineStart address + offset]? ∧
      window.memory.dropped + Cache.lineStart address + offset < memory.bytes.size

theorem fetchLine_of_read {address : Nat} {extent : Nat × Nat} {between memory : Memory σ}
    {bytes : Array UInt8}
    (hextent : lineExtent (Cache.lineStart address) window.memory = .ok extent between)
    (hread : Memory.read (Cache.lineStart address) extent.1 between = .ok bytes memory) :
    Window.fetchLine address window =
      if bytes.size ≠ extent.1 then
        .error (.shortRead (Cache.lineStart address) extent.1 bytes.size)
          ⟨memory, window.cache.overwrite bytes⟩
      else .ok () ⟨memory, window.cache.load address bytes extent.2⟩ := by
  rw [Window.fetchLine]
  dsimp only
  rw [bind_apply_of_ok (onMemory_of_ok hextent), bind_apply_of_ok (onMemory_of_ok hread),
    modifyCache, modify_bind_apply]
  split_ifs with hmissing
  · rfl
  · rw [not_not] at hmissing
    rw [Cache.load, hmissing]
    rfl

theorem fetchLine_cases (window : Window σ) (address : Nat) :
    ∃ memory bytes, window.Finds address memory bytes ∧
      ((∃ cause, Window.fetchLine address window =
            .error cause ⟨memory, window.cache.overwrite bytes⟩ ∧
          (bytes.size = 0 ∨ ∃ expected,
            cause = .shortRead (Cache.lineStart address) expected bytes.size)) ∨
        ∃ size, Window.fetchLine address window =
          .ok () ⟨memory, window.cache.load address bytes size⟩) := by
  cases hextent : lineExtent (Cache.lineStart address) window.memory with
  | error cause memory =>
      refine ⟨memory, #[], ⟨((onlyFetches_lineExtent _).error hextent).grows, ?_,
        fun offset hoffset => absurd hoffset (Nat.not_lt_zero offset)⟩,
        Or.inl ⟨cause, ?_, Or.inl rfl⟩⟩
      · rw [brought, bind_apply_of_error hextent]
        rfl
      · rw [Cache.overwrite_empty, Window.fetchLine]
        exact bind_apply_of_error (onMemory_of_error hextent)
  | ok extent between =>
      have hbetween := ((onlyFetches_lineExtent _).ok hextent).grows
      cases hread : Memory.read (Cache.lineStart address) extent.1 between with
      | error cause memory =>
          refine ⟨memory, #[], ⟨hbetween.trans ((Memory.OnlyFetches.read _ _).error hread).grows, ?_,
            fun offset hoffset => absurd hoffset (Nat.not_lt_zero offset)⟩,
            Or.inl ⟨cause, ?_, Or.inl rfl⟩⟩
          · rw [brought, bind_apply_of_ok hextent, hread]
            rfl
          · rw [Cache.overwrite_empty, Window.fetchLine]
            dsimp only
            rw [bind_apply_of_ok (onMemory_of_ok hextent)]
            exact bind_apply_of_error (onMemory_of_error hread)
      | ok bytes memory =>
          refine ⟨memory, bytes, ⟨hbetween.trans ((Memory.OnlyFetches.read _ _).ok hread).grows, ?_,
            hbetween.dropped ▸ Memory.read_eq_ok hread⟩, ?_⟩
          · rw [brought, bind_apply_of_ok hextent, hread]
          · rw [fetchLine_of_read hextent hread]
            split_ifs
            · exact Or.inl ⟨_, rfl, Or.inr ⟨extent.1, rfl⟩⟩
            · exact Or.inr ⟨extent.2, rfl⟩

/-- What a read comes to. -/
inductive Reads (window : Window σ) (address length : Nat) : Window σ × Answered → Prop where
  | empty (hspared : ¬ window.NeedsLine address length)
      (hempty : length = 0 ∨ addressLimit ≤ address + length) :
      Reads window address length (window, ⟨.read address length, .ok (.bytes #[])⟩)
  | served (hspared : ¬ window.NeedsLine address length) (hlimit : address + length < addressLimit)
      (hcovers : window.cache.covers address (address + length)) :
      Reads window address length (window, ⟨.read address length,
        .ok (.bytes (window.cache.serve address (address + length)))⟩)
  | spanning (hspared : ¬ window.NeedsLine address length)
      (hcovers : ¬ window.cache.covers address (address + length)) :
      Reads window address length
        (window, ⟨.read address length, .error (.spansLines address (address + length))⟩)
  /-- Bytes that are found lie over the line, which they do not replace. -/
  | missing {memory : Memory σ} {bytes : Array UInt8} {cause : Error}
      (hneeds : window.NeedsLine address length) (hbytes : window.Finds address memory bytes)
      (hcause : bytes.size = 0 ∨ ∃ expected,
        cause = .shortRead (Cache.lineStart address) expected bytes.size) :
      Reads window address length
        (⟨memory, window.cache.overwrite bytes⟩, ⟨.read address length, .error cause⟩)
  | loaded {memory : Memory σ} {bytes : Array UInt8} (size : Nat)
      (hneeds : window.NeedsLine address length) (hbytes : window.Finds address memory bytes) :
      Reads window address length (⟨memory, window.cache.load address bytes size⟩,
        ⟨.read address length, .ok (.bytes
          ((window.cache.load address bytes size).serve address (address + length)))⟩)

theorem read_of_needsLine {address length : Nat} (hneeds : window.NeedsLine address length) :
    Window.read address length window =
      (do
        Window.fetchLine address
        return (← get).cache.serve address (address + length) : Viewing σ _) window := by
  obtain ⟨houtside, hcovers, hline⟩ := hneeds
  rw [Window.read]
  dsimp only
  rw [if_neg houtside, get_bind_apply, if_neg hcovers, if_neg (not_not.mpr hline)]

theorem read_of_covers {address length : Nat} (hlength : length ≠ 0)
    (hlimit : address + length < addressLimit)
    (hcovers : window.cache.covers address (address + length)) :
    Window.read address length window =
      .ok (window.cache.serve address (address + length)) window := by
  rw [Window.read]
  dsimp only
  rw [if_neg (by omega), get_bind_apply, if_pos hcovers]
  rfl

theorem reads (window : Window σ) (address length : Nat) :
    Reads window address length ((Request.read address length).noted Window.answer window) := by
  by_cases hneeds : window.NeedsLine address length
  · have hread := read_of_needsLine hneeds
    obtain ⟨memory, bytes, hbytes, ⟨cause, hfetch, hcause⟩ | ⟨size, hfetch⟩⟩ :=
      fetchLine_cases window address
    · rw [bind_apply_of_error hfetch] at hread
      rw [Request.noted_of_error .bytes rfl hread]
      exact .missing hneeds hbytes hcause
    · rw [bind_apply_of_ok hfetch, get_bind_apply] at hread
      rw [Request.noted_of_ok .bytes rfl hread]
      exact .loaded size hneeds hbytes
  by_cases houtside : length = 0 ∨ addressLimit ≤ address + length
  · have hread : Window.read address length window = .ok #[] window := by
      rw [Window.read]
      dsimp only
      rw [if_pos houtside]
      rfl
    rw [Request.noted_of_ok .bytes rfl hread]
    exact .empty hneeds houtside
  by_cases hcovers : window.cache.covers address (address + length) = true
  · rw [Request.noted_of_ok .bytes rfl (read_of_covers (by omega) (by omega) hcovers)]
    exact .served hneeds (by omega) hcovers
  · have hspans : Cache.lineStart address ≠ Cache.lineStart (address + length - 1) :=
      fun hline => hneeds ⟨houtside, hcovers, hline⟩
    have hread : Window.read address length window =
        .error (.spansLines address (address + length)) window := by
      rw [Window.read]
      dsimp only
      rw [if_neg houtside, get_bind_apply, if_neg hcovers, if_pos hspans]
      rfl
    rw [Request.noted_of_error .bytes rfl hread]
    exact .spanning hneeds hcovers

theorem Reads.grows {address length : Nat} {answered : Answered}
    (hreads : Reads window address length (next, answered)) : window.memory.Grows next.memory := by
  cases hreads with
  | empty | served | spanning => exact .refl _
  | missing _ hbytes => exact hbytes.grows
  | loaded _ _ hbytes => exact hbytes.grows

/-- Requests other than reads fetch more of the memory, or raise the bound for addresses. -/
theorem noted_sameLine (window : Window σ) {request : Request} (hkeeps : request.KeepsAddresses)
    (hread : ∀ address length, request ≠ .read address length) :
    window.memory.Grows (request.noted Window.answer window).1.memory ∧
      window.cache.SameLine (request.noted Window.answer window).1.cache := by
  cases request with
  | read address length => exact absurd rfl (hread address length)
  | drop count => exact hkeeps.elim
  | setSize size => exact ⟨⟨rfl, #[], Array.append_empty.symm⟩, rfl, rfl, rfl⟩
  | extent => exact ⟨.refl _, rfl, rfl, rfl⟩
  | isEnd address =>
      cases hrun : Memory.isEnd address window.memory with
      | ok value memory =>
          rw [Request.noted_of_ok .truth rfl (onMemory_of_ok hrun)]
          exact ⟨((Memory.OnlyFetches.isEnd address).ok hrun).grows, rfl, rfl, rfl⟩
      | error cause memory =>
          rw [Request.noted_of_error .truth rfl (onMemory_of_error hrun)]
          exact ⟨((Memory.OnlyFetches.isEnd address).error hrun).grows, rfl, rfl, rfl⟩
  | isValid address =>
      by_cases hknown : address < window.cache.minObjectSize
      · have hvalid : Window.isValid address window = .ok true window := by
          rw [Window.isValid, get_bind_apply, if_pos hknown]
          rfl
        rw [Request.noted_of_ok .truth rfl hvalid]
        exact ⟨.refl _, rfl, rfl, rfl⟩
      cases hrun : Memory.isValid address window.memory with
      | ok value memory =>
          have hvalid : Window.isValid address window = .ok value ⟨memory,
              if value then window.cache.raise (Cache.saturate (address + 1))
              else window.cache⟩ := by
            rw [Window.isValid, get_bind_apply, if_neg hknown, bind_apply_of_ok (onMemory_of_ok hrun)]
            cases value <;> rfl
          rw [Request.noted_of_ok .truth rfl hvalid]
          refine ⟨((Memory.OnlyFetches.isValid address).ok hrun).grows, ?_⟩
          cases value <;> exact ⟨rfl, rfl, rfl⟩
      | error cause memory =>
          have hfails : Window.isValid address window = .error cause { window with memory } := by
            rw [Window.isValid, get_bind_apply, if_neg hknown]
            exact bind_apply_of_error (onMemory_of_error hrun)
          rw [Request.noted_of_error .truth rfl hfails]
          exact ⟨((Memory.OnlyFetches.isValid address).error hrun).grows, rfl, rfl, rfl⟩

theorem grows_noted (window : Window σ) {request : Request} (hkeeps : request.KeepsAddresses) :
    window.memory.Grows (request.noted Window.answer window).1.memory := by
  cases request with
  | read address length => exact (reads window address length).grows
  | isValid address | isEnd address | setSize size | extent =>
      exact (noted_sameLine window hkeeps (by simp)).1
  | drop count => exact hkeeps.elim

theorem grows_session (window : Window σ) {requests : List Request}
    (hkeeps : ∀ request ∈ requests, request.KeepsAddresses) :
    window.memory.Grows (session Window.answer window requests).1.memory := by
  induction requests generalizing window with
  | nil => exact .refl _
  | cons request rest ih =>
      rw [List.forall_mem_cons] at hkeeps
      exact (grows_noted window hkeeps.1).trans (ih _ hkeeps.2)

theorem fetchLine_of_ended {size address base : Nat} {bytes : Array UInt8}
    (hended : window.memory.ended = true) (hundropped : window.memory.dropped = 0)
    (hsize : window.memory.objectSize = some size) (hbase : Cache.lineStart address = base)
    (hinside : base + Cache.lineSize ≤ size) (hlimit : base + Cache.lineSize < addressLimit)
    (hbytes : window.memory.bytes.extract base (base + Cache.lineSize) = bytes) :
    Window.fetchLine address window =
      if bytes.size ≠ Cache.lineSize then
        .error (.shortRead base Cache.lineSize bytes.size)
          ⟨window.memory, window.cache.overwrite bytes⟩
      else .ok () ⟨window.memory, window.cache.load address bytes
        (Cache.saturate (base + Cache.lineSize))⟩ := by
  have hpositive : 0 < Cache.lineSize := by decide
  subst hbase
  have hextent : lineExtent (Cache.lineStart address) window.memory =
      .ok (Cache.lineSize, Cache.saturate (Cache.lineStart address + Cache.lineSize))
        window.memory := by
    have hvalid : Memory.isValid (Cache.lineStart address + (Cache.lineSize - 1)) window.memory =
        .ok true window.memory := by
      rw [Memory.isValid, get_bind_apply, hsize, Option.any_some,
        if_pos (decide_eq_true (by omega))]
      rfl
    rw [lineExtent, bind_apply_of_ok hvalid]
    rfl
  have hread := Memory.read_of_ended hended (Nat.pos_iff_ne_zero.mp hpositive) hlimit
  have hfound : window.memory.bytes.extract (window.memory.dropped + Cache.lineStart address)
      (window.memory.dropped +
        min (Cache.lineStart address + Cache.lineSize) window.memory.bytesRead) = bytes := by
    rw [← hbytes, Memory.bytesRead_eq, hundropped, Nat.zero_add, Nat.zero_add, Nat.sub_zero,
      Array.extract_eq_extract_right]
    omega
  rw [hfound] at hread
  exact fetchLine_of_read hextent hread

end Window

end Bitcode.Streaming
