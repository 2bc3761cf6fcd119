import Bitcode.Proofs.Streaming.Memory
import Bitcode.Streaming.Request

namespace Bitcode.Streaming

namespace Cache

variable {stream : Array UInt8} {cache : Cache}

/-- The line of a cache is an aligned one of a stream, as far as the stream goes. -/
structure Recalls (stream : Array UInt8) (cache : Cache) : Prop where
  size : cache.line.size = lineSize
  aligned : ∀ base, cache.base = some base → lineSize ∣ base
  valid : ∀ base, cache.base = some base → cache.valid = min lineSize (stream.size - base)
  line : ∀ base, cache.base = some base →
    cache.line.extract 0 cache.valid = stream.extract base (base + cache.valid)

/-- A cache holds a line of a stream, and takes no address for valid that is not. -/
structure Holds (stream : Array UInt8) (cache : Cache) : Prop extends Recalls stream cache where
  minObjectSize_le : cache.minObjectSize ≤ stream.size

theorem recalls_empty (stream : Array UInt8) : empty.Recalls stream :=
  ⟨Array.size_replicate, nofun, nofun, nofun⟩

theorem holds_empty (stream : Array UInt8) : empty.Holds stream :=
  ⟨recalls_empty stream, Nat.zero_le _⟩

theorem Recalls.raise (hcache : cache.Recalls stream) (size : Nat) :
    (cache.raise size).Recalls stream :=
  { hcache with }

theorem Holds.raise (hcache : cache.Holds stream) {size : Nat} (hsize : size ≤ stream.size) :
    (cache.raise size).Holds stream :=
  ⟨hcache.toRecalls.raise size, Nat.max_le.mpr ⟨hcache.minObjectSize_le, hsize⟩⟩

theorem saturate_le (size : Nat) : saturate size ≤ size :=
  Nat.min_le_left _ _

theorem lineStart_le (address : Nat) : lineStart address ≤ address :=
  Nat.div_mul_le_self _ _

theorem lt_lineStart_add (address : Nat) : address < lineStart address + lineSize := by
  simp only [lineStart, lineSize]
  omega

theorem Recalls.serve (hcache : cache.Recalls stream) {address past : Nat}
    (hcovers : cache.covers address past = true) :
    cache.serve address past = stream.extract address past := by
  cases hbase : cache.base with
  | none => simp [covers, hbase] at hcovers
  | some base =>
      have hvalid := hcache.valid base hbase
      have hline := hcache.line base hbase
      obtain ⟨hstart, hend⟩ : base ≤ address ∧ past - base ≤ lineSize := by
        simpa [covers, hbase] using hcovers
      have hoffset : base + (address - base) = address := by omega
      have hwithin : min past (base + cache.valid) - base ≤ cache.valid := by omega
      simp only [Cache.serve, hbase, Option.getD_some]
      calc cache.line.extract (address - base) (min past (base + cache.valid) - base)
          = (cache.line.extract 0 cache.valid).extract (address - base)
              (min past (base + cache.valid) - base) := by
            rw [Array.extract_extract, Nat.zero_add, Nat.zero_add, Nat.min_eq_left hwithin]
        _ = stream.extract address past := by
            rw [hline, Array.extract_extract, hoffset, Array.extract_eq_extract_right]
            omega

theorem recalls_load (hline : cache.line.size = lineSize) {base : Nat} {bytes : Array UInt8}
    (haligned : lineSize ∣ base)
    (hbytes : bytes = stream.extract base (base + min lineSize (stream.size - base))) :
    Recalls stream { cache.overwrite bytes with base := some base, valid := bytes.size } := by
  have hvalid : bytes.size = min lineSize (stream.size - base) := by
    rw [hbytes, Array.size_extract]
    omega
  refine ⟨?_, ?_, ?_, ?_⟩
  · simp only [overwrite, Array.size_append, Array.size_extract]
    omega
  · rintro _ ⟨⟩
    exact haligned
  · rintro _ ⟨⟩
    exact hvalid
  · rintro _ ⟨⟩
    simp only [overwrite]
    rw [Array.extract_append_left, Array.extract_size, hvalid]
    exact hbytes

end Cache

namespace Window

variable {σ : Type} [Source σ] {stream : Array UInt8} {window next : Window σ}

/-- A memory that shows all of a stream, behind a cache that holds a line of it. -/
structure Views (stream : Array UInt8) (window : Window σ) : Prop where
  memory : window.memory.Views stream
  undropped : window.memory.dropped = 0
  cache : window.cache.Holds stream

/-- A window has come about from another by requests. -/
structure Follows (stream : Array UInt8) (window next : Window σ) : Prop where
  views : next.Views stream
  minObjectSize_le : window.cache.minObjectSize ≤ next.cache.minObjectSize

omit [Source σ] in
theorem onMemory_of_ok {α : Type} {operation : Fetching σ α} {value : α} {memory : Memory σ}
    (hoperation : operation window.memory = .ok value memory) :
    onMemory operation window = .ok value { window with memory } := by
  rw [onMemory, hoperation]

theorem Views.objectEnd (hwindow : window.Views stream) :
    window.memory.objectEnd stream = stream.size := by
  rw [Memory.objectEnd, hwindow.undropped, Nat.sub_zero]

theorem Views.fetched (hwindow : window.Views stream) {memory : Memory σ}
    (hmemory : Memory.Fetched stream window.memory memory) :
    Views stream { window with memory } :=
  ⟨hmemory.views, hmemory.dropped.trans hwindow.undropped, hwindow.cache⟩

theorem lineExtent_eq {memory : Memory σ} (hmemory : memory.Views stream) (base : Nat) :
    ∃ size next, lineExtent base memory =
        .ok (min Cache.lineSize (memory.objectEnd stream - base), size) next ∧
      size ≤ memory.objectEnd stream ∧ Memory.Fetched stream memory next := by
  obtain ⟨between, hvalid, hbetween⟩ := hmemory.isValid (base + (Cache.lineSize - 1))
  rw [lineExtent, bind_apply_of_ok hvalid]
  by_cases hfull : base + (Cache.lineSize - 1) < memory.objectEnd stream
  · have hsize : Cache.lineSize ≤ memory.objectEnd stream - base := by omega
    have hend := Cache.saturate_le (base + Cache.lineSize)
    rw [if_pos (decide_eq_true hfull), Nat.min_eq_left hsize]
    exact ⟨_, between, rfl, by simp only [Cache.lineSize] at hend hfull ⊢; omega, hbetween⟩
  · obtain ⟨next, hextent, hnext⟩ := hbetween.views.extent
    have hsize : memory.objectEnd stream - base ≤ Cache.lineSize := by omega
    rw [hbetween.objectEnd] at hextent
    rw [if_neg (by simpa using hfull), Nat.min_eq_right hsize, bind_apply_of_ok hextent]
    exact ⟨_, next, rfl, Nat.le_refl _, hbetween.trans hnext⟩

theorem fetchLine_eq (hmemory : window.memory.Views stream) (hsize : stream.size < addressLimit)
    (address : Nat) :
    ∃ bytes size memory,
      bytes = stream.extract (window.memory.dropped + Cache.lineStart address)
        (window.memory.dropped + Cache.lineStart address +
          min Cache.lineSize (window.memory.objectEnd stream - Cache.lineStart address)) ∧
      Window.fetchLine address window = .ok () ⟨memory,
        { window.cache.overwrite bytes with
          base := some (Cache.lineStart address), valid := bytes.size }.raise size⟩ ∧
      size ≤ window.memory.objectEnd stream ∧ Memory.Fetched stream window.memory memory := by
  obtain ⟨size, between, hextent, hle, hbetween⟩ :=
    lineExtent_eq hmemory (Cache.lineStart address)
  obtain ⟨expected, hexpected⟩ : ∃ expected,
      min Cache.lineSize (window.memory.objectEnd stream - Cache.lineStart address) = expected :=
    ⟨_, rfl⟩
  rw [hexpected] at hextent ⊢
  have hobject : window.memory.objectEnd stream = stream.size - window.memory.dropped := rfl
  -- A line behind the end of the stream is empty, and is read wherever it lies.
  have hlimit : expected ≠ 0 → Cache.lineStart address + expected < addressLimit := by omega
  obtain ⟨last, hread, hlast⟩ := hbetween.views.read hlimit
  rw [hbetween.dropped] at hread
  obtain ⟨bytes, hbytes⟩ : ∃ bytes, stream.extract
    (window.memory.dropped + Cache.lineStart address)
    (window.memory.dropped + Cache.lineStart address + expected) = bytes := ⟨_, rfl⟩
  rw [hbytes] at hread ⊢
  have hfull : bytes.size = expected := by
    rw [← hbytes, Array.size_extract]
    omega
  refine ⟨bytes, size, last, rfl, ?_, hle, hbetween.trans hlast⟩
  rw [Window.fetchLine]
  dsimp only
  rw [bind_apply_of_ok (onMemory_of_ok hextent)]
  dsimp only
  rw [bind_apply_of_ok (onMemory_of_ok hread)]
  rw [modifyCache, modify_bind_apply, ← hfull, if_neg (fun h => h rfl)]
  rfl

theorem Views.fetchLine (hwindow : window.Views stream) (hsize : stream.size < addressLimit)
    (address : Nat) :
    ∃ next, Window.fetchLine address window = .ok () next ∧ Follows stream window next ∧
      next.cache.base = some (Cache.lineStart address) := by
  obtain ⟨bytes, size, memory, hbytes, hfetch, hle, hmemory⟩ :=
    fetchLine_eq hwindow.memory hsize address
  rw [hwindow.objectEnd] at hbytes hle
  rw [hwindow.undropped, Nat.zero_add] at hbytes
  have hnext := hwindow.fetched hmemory
  refine ⟨_, hfetch, ⟨⟨hnext.memory, hnext.undropped, ?_⟩, Nat.le_max_left _ _⟩, rfl⟩
  have hline := Cache.recalls_load hwindow.cache.size (Nat.dvd_mul_left _ _) hbytes
  exact Cache.Holds.raise ⟨hline, hwindow.cache.minObjectSize_le⟩ hle

/-- A request within one line is answered as from the stream. -/
theorem Views.read (hwindow : window.Views stream)
    (hsize : stream.size + Cache.lineSize ≤ addressLimit) {address length : Nat}
    (hline : length = 0 ∨ Cache.lineStart address = Cache.lineStart (address + length - 1)) :
    ∃ next, Window.read address length window =
        .ok (stream.extract address (address + length)) next ∧ Follows stream window next := by
  have hbefore := Cache.lt_lineStart_add address
  have hstart := Cache.lineStart_le address
  have hlast := Cache.lt_lineStart_add (address + length - 1)
  have hpositive : 0 < Cache.lineSize := by decide
  rw [Window.read]
  dsimp only
  by_cases houtside : length = 0 ∨ addressLimit ≤ address + length
  · -- A request that goes past the last address begins in a line behind the end of the stream.
    refine ⟨window, ?_, hwindow, Nat.le_refl _⟩
    rw [if_pos houtside, Array.extract_eq_empty_of_le (by omega)]
    rfl
  · rw [if_neg houtside, get_bind_apply]
    by_cases hcovers : window.cache.covers address (address + length) = true
    · refine ⟨window, ?_, hwindow, Nat.le_refl _⟩
      rw [if_pos hcovers, ← hwindow.cache.serve hcovers]
      rfl
    · obtain ⟨next, hfetch, hnext, hbase⟩ := hwindow.fetchLine (by omega) address
      have hloaded : next.cache.covers address (address + length) = true := by
        simp only [Cache.covers, hbase, Option.any_some, decide_eq_true_eq]
        omega
      refine ⟨next, ?_, hnext⟩
      rw [if_neg hcovers, if_neg (by omega), bind_apply_of_ok hfetch, get_bind_apply,
        ← hnext.views.cache.serve hloaded]
      rfl

theorem Views.isValid (hwindow : window.Views stream) (address : Nat) :
    ∃ next, Window.isValid address window = .ok (decide (address < stream.size)) next ∧
      Follows stream window next := by
  have hmin := hwindow.cache.minObjectSize_le
  obtain ⟨memory, hvalid, hmemory⟩ := hwindow.memory.isValid address
  rw [hwindow.objectEnd] at hvalid
  rw [Window.isValid, get_bind_apply]
  split_ifs with hknown
  · refine ⟨window, ?_, hwindow, Nat.le_refl _⟩
    rw [decide_eq_true (by omega)]
    rfl
  · rw [bind_apply_of_ok (onMemory_of_ok hvalid)]
    have hnext := hwindow.fetched hmemory
    by_cases hinside : address < stream.size
    · rw [decide_eq_true hinside]
      refine ⟨_, rfl, ⟨hnext.memory, hnext.undropped, ?_⟩, Nat.le_max_left _ _⟩
      exact hwindow.cache.raise ((Cache.saturate_le _).trans hinside)
    · rw [decide_eq_false hinside]
      exact ⟨_, rfl, hnext, Nat.le_refl _⟩

theorem Views.isEnd (hwindow : window.Views stream) (address : Nat) :
    ∃ value next, Window.isEnd address window = .ok value next ∧ Follows stream window next := by
  obtain ⟨value, memory, hend, hmemory⟩ := hwindow.memory.isEnd address
  exact ⟨value, _, onMemory_of_ok hend, hwindow.fetched hmemory, Nat.le_refl _⟩

end Window

/-- A request leaves the object as it is, and reads from one line only. -/
def Request.IsQuery : Request → Prop
  | .read address length =>
      length = 0 ∨ Cache.lineStart address = Cache.lineStart (address + length - 1)
  | .isValid _ => True
  | .isEnd _ => True
  | .drop _ => False
  | .setSize _ => False
  | .extent => False

instance (request : Request) : Decidable request.IsQuery :=
  match request with
  | .read address length => inferInstanceAs (Decidable (length = 0 ∨
      Cache.lineStart address = Cache.lineStart (address + length - 1)))
  | .isValid _ => .isTrue trivial
  | .isEnd _ => .isTrue trivial
  | .drop _ => .isFalse id
  | .setSize _ => .isFalse id
  | .extent => .isFalse id

/-- A response gives the bytes that a stream has, and tells its addresses from others. -/
def Response.Truthful (stream : Array UInt8) : Request → Response → Prop
  | .read address length, .bytes found => found = stream.extract address (address + length)
  | .isValid address, .truth value => value = decide (address < stream.size)
  | .isEnd _, .truth _ => True
  | _, _ => False

namespace Window

variable {σ : Type} [Source σ] {stream : Array UInt8} {window : Window σ}

theorem Views.answer (hwindow : window.Views stream)
    (hsize : stream.size + Cache.lineSize ≤ addressLimit) {request : Request}
    (hquery : request.IsQuery) :
    ∃ response next, Window.answer request window = .ok response next ∧
      response.Truthful stream request ∧ Follows stream window next := by
  cases request with
  | read address length =>
      obtain ⟨next, hread, hnext⟩ := hwindow.read hsize hquery
      refine ⟨.bytes _, next, ?_, rfl, hnext⟩
      rw [Window.answer, bind_apply_of_ok hread]
      rfl
  | isValid address =>
      obtain ⟨next, hvalid, hnext⟩ := hwindow.isValid address
      refine ⟨.truth _, next, ?_, rfl, hnext⟩
      rw [Window.answer, bind_apply_of_ok hvalid]
      rfl
  | isEnd address =>
      obtain ⟨value, next, hend, hnext⟩ := hwindow.isEnd address
      refine ⟨.truth value, next, ?_, trivial, hnext⟩
      rw [Window.answer, bind_apply_of_ok hend]
      rfl
  | drop count => exact hquery.elim
  | setSize size => exact hquery.elim
  | extent => exact hquery.elim

end Window

end Bitcode.Streaming
