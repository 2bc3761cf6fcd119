import Bitcode.Proofs.Streaming.Source
import Bitcode.Streaming.Memory

/-!
A memory over a source that delivers a stream shows that stream. Whatever is asked of it, it holds
the part of the stream that it has fetched, and answers as if it held all of it.
-/

namespace Bitcode.Streaming.Memory

variable {σ : Type} [Source σ] {stream : Array UInt8} {memory next : Memory σ}

/-- A memory holds the first bytes of a stream, and its source delivers the others. The size of the
object is known exactly when all bytes are there. -/
structure Views (stream : Array UInt8) (memory : Memory σ) : Prop where
  bytes : memory.bytes = stream.extract 0 memory.bytes.size
  ended : memory.ended = true → memory.bytes.size = stream.size
  source : memory.ended = false → Delivers stream memory.source memory.bytes.size
  objectSize : memory.objectSize =
    if memory.ended then some (stream.size - memory.dropped) else none

/-- A memory has come about from another by fetching. -/
structure Fetched (stream : Array UInt8) (memory next : Memory σ) : Prop where
  views : next.Views stream
  dropped : next.dropped = memory.dropped

theorem Views.fetched (hmemory : memory.Views stream) : Fetched stream memory memory :=
  ⟨hmemory, rfl⟩

theorem Fetched.trans {last : Memory σ} (hnext : Fetched stream memory next)
    (hlast : Fetched stream next last) : Fetched stream memory last :=
  ⟨hlast.views, hlast.dropped.trans hnext.dropped⟩

theorem Views.size_le (hmemory : memory.Views stream) : memory.bytes.size ≤ stream.size := by
  have hsize := congrArg Array.size hmemory.bytes
  rw [Array.size_extract] at hsize
  omega

theorem views_start {source : σ} (hsource : Delivers stream source 0) :
    Views stream { source } :=
  ⟨by simp, nofun, fun _ => hsource, rfl⟩

theorem Views.append_extract {position : Nat} (hmemory : memory.Views stream)
    (hposition : memory.bytes.size ≤ position) :
    memory.bytes ++ stream.extract memory.bytes.size position = stream.extract 0 position := by
  have hjoined := @Array.extract_append_extract _ stream 0 memory.bytes.size position
  rwa [← hmemory.bytes, Nat.zero_min, Nat.max_eq_right hposition] at hjoined

/-- A chunk brings more bytes, or ends the object. -/
theorem Views.fetchChunk (hmemory : memory.Views stream) (hopen : memory.ended = false) :
    ∃ next, Memory.fetchChunk memory = .ok () next ∧ Fetched stream memory next ∧
      (next.ended = true ∨ memory.bytes.size < next.bytes.size) := by
  obtain ⟨source, hpull, hsource⟩ := (hmemory.source hopen).pull chunkSize
  have hbytes := hmemory.append_extract (Nat.le_add_right _ chunkSize)
  have hle := hmemory.size_le
  have hobject : memory.objectSize = none := by
    rw [hmemory.objectSize, hopen]
    rfl
  refine ⟨_, by rw [Memory.fetchChunk, hpull], ?_⟩
  unfold absorb
  dsimp only
  split_ifs with hshort
  · rw [Array.size_extract] at hshort
    have hall : memory.bytes ++ stream.extract memory.bytes.size (memory.bytes.size + chunkSize) =
        stream := by
      rw [hbytes]
      exact Array.extract_eq_self_of_le (by omega)
    refine ⟨⟨⟨?_, fun _ => ?_, nofun, ?_⟩, rfl⟩, Or.inl rfl⟩
    · simp only [extend, hall, Array.extract_size]
    · simp only [extend, hall]
    · have hcounted := (memory.extend
        (stream.extract memory.bytes.size (memory.bytes.size + chunkSize))).counted
      simp only [extend, hall, hobject, Option.getD_none, if_true] at hcounted ⊢
      exact congrArg some (by omega)
  · rw [Array.size_extract] at hshort
    have hfull : (stream.extract 0 (memory.bytes.size + chunkSize)).size =
        memory.bytes.size + chunkSize := by
      rw [Array.size_extract]
      omega
    refine ⟨⟨⟨?_, ?_, fun _ => ?_, ?_⟩, rfl⟩, Or.inr ?_⟩
    · simp only [extend, hbytes, hfull]
    · simp only [extend, hopen]
      nofun
    · simp only [extend, hbytes, hfull]
      rwa [Nat.min_eq_left (by omega)] at hsource
    · simp only [extend, hobject, hopen, Bool.false_eq_true, if_false]
    · simp only [extend, hbytes, hfull]
      exact Nat.lt_add_of_pos_right (by decide)

/-- The size of the object that a memory shows. -/
def objectEnd (stream : Array UInt8) (memory : Memory σ) : Nat :=
  stream.size - memory.dropped

theorem Views.bytesRead_le (hmemory : memory.Views stream) :
    memory.bytesRead ≤ memory.objectEnd stream := by
  have := hmemory.size_le
  simp only [bytesRead_eq, objectEnd]
  omega

theorem Views.bytesRead_of_ended (hmemory : memory.Views stream) (hended : memory.ended = true) :
    memory.bytesRead = memory.objectEnd stream := by
  rw [bytesRead_eq, hmemory.ended hended, objectEnd]

theorem Fetched.objectEnd (hnext : Fetched stream memory next) :
    next.objectEnd stream = memory.objectEnd stream := by
  rw [Memory.objectEnd, hnext.dropped, Memory.objectEnd]

theorem Views.within (hmemory : memory.Views stream) {address : Nat}
    (haddress : address < memory.bytesRead) : memory.within address = true := by
  have hobject := hmemory.objectSize
  have := hmemory.bytesRead_le
  rw [Memory.within]
  split_ifs at hobject with hended
  · simp only [hobject, Option.all_some, decide_eq_true_eq]
    simp only [objectEnd] at this
    omega
  · simp [hobject]

theorem Views.fetchWithin {address : Nat} (chunks : Nat) (hmemory : memory.Views stream)
    (hchunks : 1 ≤ chunks ∧ (memory.ended = true ∨ address + 2 ≤ memory.bytesRead + chunks)) :
    ∃ next, Memory.fetchWithin address chunks memory =
        .ok (decide (address < memory.objectEnd stream)) next ∧
      Fetched stream memory next ∧ (address < next.bytesRead ∨ next.ended = true) := by
  induction chunks generalizing memory with
  | zero => omega
  | succ chunks ih =>
      have hle := hmemory.bytesRead_le
      rw [Memory.fetchWithin, get_bind_apply]
      split_ifs with haddress hended
      · refine ⟨memory, ?_, hmemory.fetched, Or.inl haddress⟩
        rw [hmemory.within haddress, decide_eq_true (by omega)]
        rfl
      · refine ⟨memory, ?_, hmemory.fetched, Or.inr hended⟩
        rw [← hmemory.bytesRead_of_ended hended, decide_eq_false haddress]
        rfl
      · rw [Bool.not_eq_true] at hended
        obtain ⟨between, hfetch, hbetween, hprogress⟩ := hmemory.fetchChunk hended
        have hmore : 1 ≤ chunks ∧
            (between.ended = true ∨ address + 2 ≤ between.bytesRead + chunks) := by
          have hdropped := memory.dropped_le
          simp only [hended, Bool.false_eq_true, false_or, bytesRead_eq] at hchunks haddress
          refine ⟨by omega, hprogress.imp_right fun hgrown => ?_⟩
          rw [bytesRead_eq, hbetween.dropped]
          omega
        obtain ⟨next, hnext, hfetched, hreached⟩ := ih hbetween.views hmore
        refine ⟨next, ?_, hbetween.trans hfetched, hreached⟩
        rw [bind_apply_of_ok hfetch, hnext, hbetween.objectEnd]

theorem Views.fetchTo (hmemory : memory.Views stream) (address : Nat) :
    ∃ next, Memory.fetchTo address memory = .ok (decide (address < memory.objectEnd stream)) next ∧
      Fetched stream memory next ∧ (address < next.bytesRead ∨ next.ended = true) :=
  hmemory.fetchWithin (address + 2) ⟨by omega, Or.inr (by omega)⟩

theorem Views.isValid (hmemory : memory.Views stream) (address : Nat) :
    ∃ next, Memory.isValid address memory =
        .ok (decide (address < memory.objectEnd stream)) next ∧ Fetched stream memory next := by
  obtain ⟨next, hfetch, hnext, -⟩ := hmemory.fetchTo address
  rw [Memory.isValid, get_bind_apply]
  split_ifs with hknown
  · refine ⟨memory, ?_, hmemory.fetched⟩
    have hobject := hmemory.objectSize
    split_ifs at hobject with hended
    · rw [hobject, Option.any_some] at hknown
      rw [objectEnd, hknown]
      rfl
    · rw [hobject] at hknown
      cases hknown
  · exact ⟨next, hfetch, hnext⟩

theorem Views.isEnd (hmemory : memory.Views stream) (address : Nat) :
    ∃ value next, Memory.isEnd address memory = .ok value next ∧ Fetched stream memory next := by
  obtain ⟨next, hfetch, hnext, -⟩ := hmemory.fetchTo address
  rw [Memory.isEnd, get_bind_apply]
  cases memory.objectSize with
  | some size => exact ⟨_, memory, rfl, hmemory.fetched⟩
  | none =>
      refine ⟨next.objectSize == some address && address != 0, next, ?_, hnext⟩
      dsimp only
      rw [bind_apply_of_ok (discard_eq_ok hfetch), get_bind_apply]
      rfl

theorem Views.read (hmemory : memory.Views stream) {address length : Nat}
    (hlimit : length ≠ 0 → address + length < addressLimit) :
    ∃ next, Memory.read address length memory =
        .ok (stream.extract (memory.dropped + address) (memory.dropped + address + length)) next ∧
      Fetched stream memory next := by
  by_cases hlength : length = 0
  · refine ⟨memory, ?_, hmemory.fetched⟩
    rw [Memory.read, if_pos (Or.inl hlength), hlength, Nat.add_zero, Array.extract_eq_empty_of_le]
    · rfl
    · exact Nat.min_le_left _ _
  have hreadable := hlimit hlength
  obtain ⟨next, hfetch, hnext, hreached⟩ := hmemory.fetchTo (address + length - 1)
  refine ⟨next, ?_, hnext⟩
  rw [Memory.read, if_neg (by omega), bind_apply_of_ok (discard_eq_ok hfetch), get_bind_apply]
  obtain ⟨hbytes, hended, -, -⟩ := hnext.views
  have hdropped := next.dropped_le
  have hsize := hnext.views.size_le
  have hfound : next.bytes.extract (next.dropped + address)
      (next.dropped + min (address + length) next.bytesRead) =
        stream.extract (memory.dropped + address) (memory.dropped + address + length) := by
    rw [hbytes, Array.extract_extract, Nat.zero_add, ← hnext.dropped,
      Array.extract_eq_extract_right]
    simp only [bytesRead_eq] at hreached ⊢
    rcases hreached with hreached | hreached
    · omega
    · have := hended hreached
      omega
  rw [hfound]
  rfl

theorem Views.fetchAll {address : Nat} (chunks : Nat) (hmemory : memory.Views stream)
    (hchunks : 1 ≤ chunks ∧ memory.objectEnd stream < address + chunks) :
    ∃ next, Memory.fetchAll chunks address memory = .ok () next ∧ Fetched stream memory next ∧
      next.ended = true := by
  induction chunks generalizing memory address with
  | zero => omega
  | succ chunks ih =>
      obtain ⟨between, hfetch, hbetween, hreached⟩ := hmemory.fetchTo address
      have hsame := hbetween.objectEnd
      rw [Memory.fetchAll, bind_apply_of_ok hfetch]
      by_cases haddress : address < memory.objectEnd stream
      · rw [if_pos (decide_eq_true haddress)]
        have hmore : 1 ≤ chunks ∧ between.objectEnd stream < address + chunkSize + chunks := by
          rw [hsame]
          simp only [chunkSize]
          omega
        obtain ⟨next, hnext, hfetched, hended⟩ := ih hbetween.views hmore
        exact ⟨next, hnext, hbetween.trans hfetched, hended⟩
      · rw [if_neg (by simpa using haddress)]
        refine ⟨between, rfl, hbetween, hreached.resolve_left ?_⟩
        have := hbetween.views.bytesRead_le
        omega

theorem Views.extent (hmemory : memory.Views stream) :
    ∃ next, Memory.extent memory = .ok (memory.objectEnd stream) next ∧
      Fetched stream memory next := by
  have hobject := hmemory.objectSize
  rw [Memory.extent, get_bind_apply]
  split_ifs at hobject with hended
  · rw [hobject]
    exact ⟨memory, rfl, hmemory.fetched⟩
  · rw [hobject]
    rw [Bool.not_eq_true] at hended
    have hrest := (hmemory.source hended).remaining_le
    have hsize := hmemory.size_le
    have henough : 1 ≤ Source.remaining memory.source + 1 ∧ memory.objectEnd stream <
        memory.bytesRead + chunkSize + (Source.remaining memory.source + 1) := by
      simp only [objectEnd, bytesRead_eq]
      omega
    obtain ⟨next, hfetch, hnext, hall⟩ := hmemory.fetchAll _ henough
    refine ⟨next, ?_, hnext⟩
    dsimp only
    rw [bind_apply_of_ok hfetch, get_bind_apply, hnext.views.objectSize, if_pos hall,
      Option.getD_some, hnext.dropped]
    rfl

end Bitcode.Streaming.Memory
