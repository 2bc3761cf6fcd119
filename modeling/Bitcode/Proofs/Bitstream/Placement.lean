import Bitcode.Proofs.Bitstream.Emission

namespace Bitcode.Bitstream

open Format Bits

namespace Writer

/-- Where the lengths of the open blocks stand, in bytes. -/
def lengthsAt (writer : Writer) : List Nat :=
  writer.blocks.map (·.lengthAt)

/-- The bit belongs to no length of an open block. -/
def Free (writer : Writer) (index : Nat) : Prop :=
  ∀ place ∈ writer.lengthsAt, index < 8 * place ∨ 8 * place + 32 ≤ index

/-- The lengths of the open blocks are words of their own among the bits written, the inner ones
after the outer ones. Between blocks there are only complete words. -/
structure Nested (writer : Writer) : Prop where
  inside : ∀ place ∈ writer.lengthsAt, 8 * place + 32 ≤ writer.size
  apart : writer.lengthsAt.Pairwise fun inner outer => outer + 4 ≤ inner
  words : ∀ place ∈ writer.lengthsAt, place % 4 = 0
  complete : writer.blocks = [] → writer.size % 32 = 0

/-- Finished bytes of a stream, of which the writer has written the beginning. -/
structure Keeps (bytes : Array UInt8) (writer : Writer) : Prop where
  size_le : writer.size ≤ 8 * bytes.size
  bit_eq : ∀ index < writer.size, writer.Free index →
    bitAt bytes index = writer.bits.bits.getD index false

section Keeps

variable {writer next : Writer} {bytes : Array UInt8} {bits : List Bool}

theorem nested_of_blocks_eq_nil (hblocks : writer.blocks = []) (hsize : writer.size % 32 = 0) :
    writer.Nested := by
  have hnone : writer.lengthsAt = [] := by rw [lengthsAt, hblocks, List.map_nil]
  refine ⟨?_, ?_, ?_, fun _ => hsize⟩
  · simp [hnone]
  · simp [hnone]
  · simp [hnone]

theorem getD_append_left (writer : Writer) (bits : List Bool) {index : Nat}
    (hindex : index < writer.size) :
    (writer.append bits).bits.bits.getD index false = writer.bits.bits.getD index false := by
  rw [size, ← Array.length_toList] at hindex
  rw [Array.getD_eq_getD_getElem?, Array.getD_eq_getD_getElem?, ← Array.getElem?_toList, append,
    Array.toList_appendList, List.getElem?_append_left hindex, Array.getElem?_toList]

theorem getD_append_right (writer : Writer) (bits : List Bool) {index : Nat}
    (hindex : index < bits.length) :
    (writer.append bits).bits.bits.getD (writer.size + index) false = bits[index] := by
  rw [Array.getD_eq_getD_getElem?, ← Array.getElem?_toList, append, Array.toList_appendList, size,
    ← Array.length_toList, List.getElem?_append_right (by omega), Nat.add_sub_cancel_left,
    List.getElem?_eq_getElem hindex, Option.getD_some]

/-- Bits that are final when they are written are in the finished bytes. -/
theorem Keeps.back (hnested : writer.Nested) (hsize : writer.size + bits.length ≤ next.size)
    (hagree : ∀ index < writer.size + bits.length, writer.Free index → next.Free index ∧
      next.bits.bits.getD index false = (writer.append bits).bits.bits.getD index false)
    (hkeeps : Keeps bytes next) : Keeps bytes writer ∧ Holds bytes writer.size bits := by
  have hinside := hkeeps.size_le
  have hfinal : ∀ index < writer.size + bits.length, writer.Free index →
      bitAt bytes index = (writer.append bits).bits.bits.getD index false := by
    intro index hindex hfree
    obtain ⟨hstill, hbit⟩ := hagree index hindex hfree
    rw [← hbit]
    exact hkeeps.bit_eq index (by omega) hstill
  refine ⟨⟨by omega, ?_⟩, ⟨by omega, ?_⟩⟩
  · intro index hindex hfree
    rw [hfinal index (by omega) hfree, getD_append_left writer bits hindex]
  · intro index hindex
    -- No length that is still open lies behind the end of what was written.
    have hfree : writer.Free (writer.size + index) := by
      intro place hplace
      have hplaced := hnested.inside place hplace
      omega
    rw [hfinal _ (by omega) hfree, getD_append_right writer bits hindex]

end Keeps

/-- A reader follows the writer from one state to the next: in the finished bytes it takes steps
from one context to the other, with entries that may depend on lengths filled in later. -/
structure Follows (writer next : Writer) (before after : Context)
    (entries : Array UInt8 → List Entry) : Prop where
  nested : next.Nested
  keeps : ∀ bytes, Keeps bytes next → Keeps bytes writer
  parsed : ∀ bytes, Keeps bytes next →
    Parsed bytes writer.size before (entries bytes) next.size after

section Follows

variable {writer middle next : Writer} {before between after : Context}

theorem Follows.refl (hnested : writer.Nested) (context : Context) :
    Follows writer writer context context fun _ => [] :=
  ⟨hnested, fun _ hkeeps => hkeeps, fun _ _ => .refl _ _⟩

theorem Follows.trans {first second : Array UInt8 → List Entry}
    (hfirst : Follows writer middle before between first)
    (hsecond : Follows middle next between after second) :
    Follows writer next before after fun bytes => first bytes ++ second bytes := by
  refine ⟨hsecond.nested, fun bytes hkeeps => hfirst.keeps bytes (hsecond.keeps bytes hkeeps), ?_⟩
  intro bytes hkeeps
  exact (hfirst.parsed bytes (hsecond.keeps bytes hkeeps)).trans (hsecond.parsed bytes hkeeps)

theorem follows_of_append {bits : List Bool} {found? : Option Entry} (hnested : writer.Nested)
    (hinside : writer.blocks ≠ []) (hpositive : 0 < bits.length)
    (hbits : next.bits = (writer.append bits).bits) (hlengths : next.lengthsAt = writer.lengthsAt)
    (hparses : ∀ bytes, Holds bytes writer.size bits →
      Parses Reader.step bytes writer.size before found? next.size after) :
    Follows writer next before after fun _ => found?.toList := by
  have hsize : next.size = writer.size + bits.length := by
    rw [size, hbits, ← size, size_append]
  have hback : ∀ bytes, Keeps bytes next → Keeps bytes writer ∧ Holds bytes writer.size bits := by
    intro bytes hkeeps
    refine hkeeps.back hnested (by omega) ?_
    intro index hindex hfree
    refine ⟨?_, by rw [hbits]⟩
    rwa [Free, hlengths]
  refine ⟨⟨?_, ?_, ?_, ?_⟩, fun bytes hkeeps => (hback bytes hkeeps).1, ?_⟩
  · intro place hplace
    rw [hlengths] at hplace
    have hplaced := hnested.inside place hplace
    omega
  · rw [hlengths]
    exact hnested.apart
  · rw [hlengths]
    exact hnested.words
  · intro hblocks
    have hnone : writer.lengthsAt = [] := by rw [← hlengths, lengthsAt, hblocks, List.map_nil]
    exact absurd (List.map_eq_nil_iff.mp hnone) hinside
  · intro bytes hkeeps
    have hlast := hkeeps.size_le
    exact .single (by omega) hlast (hparses bytes (hback bytes hkeeps).2)

theorem size_entered (writer : Writer) (front : List Bool) (id width : UInt64) :
    (writer.entered front id width).size = writer.size + front.length + 32 := by
  change (writer.append (front ++ lowBits 0 32)).size = _
  rw [size_append, List.length_append, lowBits_length, Nat.add_assoc]

theorem lengthsAt_entered (writer : Writer) (front : List Bool) (id width : UInt64) :
    (writer.entered front id width).lengthsAt =
      (writer.size + front.length) / 8 :: writer.lengthsAt :=
  rfl

theorem Nested.entered {front : List Bool} {id width : UInt64} (hnested : writer.Nested)
    (hmod : (writer.size + front.length) % 32 = 0) : (writer.entered front id width).Nested := by
  refine ⟨?_, ?_, ?_, fun hblocks => by simp [Writer.entered] at hblocks⟩
  · intro place hplace
    rw [size_entered]
    rw [lengthsAt_entered] at hplace
    rcases List.mem_cons.mp hplace with rfl | hplace
    · omega
    · have hplaced := hnested.inside place hplace
      omega
  · rw [lengthsAt_entered, List.pairwise_cons]
    refine ⟨?_, hnested.apart⟩
    intro outer houter
    have hplaced := hnested.inside outer houter
    omega
  · intro place hplace
    rw [lengthsAt_entered] at hplace
    rcases List.mem_cons.mp hplace with rfl | hplace
    · omega
    · exact hnested.words place hplace

theorem Keeps.back_entered {bytes : Array UInt8} {front : List Bool} {id width : UInt64}
    (hnested : writer.Nested) (hmod : (writer.size + front.length) % 32 = 0)
    (hkeeps : Keeps bytes (writer.entered front id width)) :
    Keeps bytes writer ∧ Holds bytes writer.size front := by
  refine hkeeps.back hnested (by rw [size_entered]; omega) ?_
  intro index hindex hfree
  constructor
  · intro place hplace
    rw [lengthsAt_entered] at hplace
    rcases List.mem_cons.mp hplace with rfl | hplace
    · omega
    · exact hfree place hplace
  · have hbits : (writer.entered front id width).bits =
        ((writer.append front).append (lowBits 0 32)).bits := by
      rw [entered, append_append]
    rw [hbits]
    exact getD_append_left (writer.append front) _ (by rwa [size_append])

theorem follows_enterBlock {id width : UInt64} (hnested : writer.Nested)
    (hrun : enterBlock id width writer = .ok () next) :
    ∃ place, 8 * place + 32 = next.size ∧ next.size % 32 = 0 ∧ next.shared = writer.shared ∧
      next.blocks = ⟨id, width.toNat, place, writer.shared.forBlock id⟩ :: writer.blocks ∧
      next.Nested ∧ (∀ bytes, Keeps bytes next → Keeps bytes writer) ∧
      (1 ≤ width ∧ width ≤ 32 → Follows writer next writer.context next.context fun bytes =>
        (if id = infoBlockId then none
          else some (.block id (4 * fieldAt bytes (8 * place) 32))).toList) := by
  obtain ⟨front, hpositive, hmod, rfl, hparses⟩ := enter_answered hrun
  have hsize := size_entered writer front id width
  have hback : ∀ bytes, Keeps bytes (writer.entered front id width) → Keeps bytes writer :=
    fun bytes hkeeps => (hkeeps.back_entered hnested hmod).1
  refine ⟨(writer.size + front.length) / 8, by omega, by omega, rfl, rfl, hnested.entered hmod,
    hback, ?_⟩
  intro hwidth
  refine ⟨hnested.entered hmod, hback, ?_⟩
  intro bytes hkeeps
  have hlast := hkeeps.size_le
  have hplace : 8 * ((writer.size + front.length) / 8) = writer.size + front.length := by omega
  rw [hplace]
  exact .single (by omega) hlast
    ((hparses bytes hlast (hkeeps.back_entered hnested hmod).2).1 hwidth)

theorem rejects_of_enterBlock {id width : UInt64} {bytes : Array UInt8} (hnested : writer.Nested)
    (hrun : enterBlock id width writer = .ok () next) (hwide : 32 < width)
    (hkeeps : Keeps bytes next) :
    writer.size < 8 * bytes.size ∧
      Rejects Reader.step bytes writer.size writer.context (.scope (.badIdWidth id width)) := by
  obtain ⟨front, hpositive, hmod, rfl, hparses⟩ := enter_answered hrun
  have hsize := size_entered writer front id width
  have hlast := hkeeps.size_le
  exact ⟨by omega, (hparses bytes hlast (hkeeps.back_entered hnested hmod).2).2 hwide⟩

theorem follows_exitBlock {block : OpenBlock} {rest : List OpenBlock} (target : Option UInt64)
    (hnested : writer.Nested) (hblocks : writer.blocks = block :: rest)
    (hrun : exitBlock writer = .ok () next) :
    next.blocks = rest ∧ next.shared = writer.shared ∧ next.size % 32 = 0 ∧
      (∀ bytes, Keeps bytes next →
        fieldAt bytes (8 * block.lengthAt) 32 = wordsTold block.lengthAt next.size) ∧
      Follows writer next (writer.context target) next.context fun _ =>
        (if block.block = infoBlockId then none else some .endBlock).toList := by
  obtain ⟨bits, hpositive, hmod, hnext, hparses⟩ := exit_answered target hblocks hrun
  have hlengths : writer.lengthsAt = block.lengthAt :: next.lengthsAt := by
    rw [lengthsAt, hblocks, hnext]
    rfl
  have hbits : next.bits.bits = Bits.Writer.patch (writer.append bits).bits.bits
      (8 * block.lengthAt) (lowBits (wordsTold block.lengthAt (writer.size + bits.length)) 32) := by
    rw [hnext]
  have hsize : next.size = writer.size + bits.length := by
    rw [size, hbits, size_patch, ← size, size_append]
  have hplace : 8 * block.lengthAt + 32 ≤ writer.size :=
    hnested.inside _ (by rw [hlengths]; exact List.mem_cons_self)
  have happart := hnested.apart
  rw [hlengths, List.pairwise_cons] at happart
  have hback : ∀ bytes, Keeps bytes next → Keeps bytes writer ∧ Holds bytes writer.size bits := by
    intro bytes hkeeps
    refine hkeeps.back hnested (by omega) ?_
    intro index hindex hfree
    rw [Free, hlengths] at hfree
    refine ⟨fun place hplace => hfree place (List.mem_cons_of_mem _ hplace), ?_⟩
    have houtside := hfree block.lengthAt List.mem_cons_self
    rw [hbits, getD_patch_outside _ _ _ (by rwa [lowBits_length])]
  refine ⟨by rw [hnext], by rw [hnext], by omega, ?_, ⟨?_, happart.2, ?_, ?_⟩,
    fun bytes hkeeps => (hback bytes hkeeps).1, ?_⟩
  · intro bytes hkeeps
    rw [hsize]
    refine Holds.fieldAt_eq ⟨?_, ?_⟩ (UInt32.toNat_lt _)
    · have hlast := hkeeps.size_le
      rw [lowBits_length]
      omega
    · intro index hindex
      rw [lowBits_length] at hindex
      -- The lengths of the outer blocks stand before this one.
      have hfree : next.Free (8 * block.lengthAt + index) := by
        intro place hplace
        have houter := happart.1 place hplace
        omega
      rw [hkeeps.bit_eq _ (by omega) hfree, hbits, getD_patch_inside _ _ _ ?_ _]
      rw [lowBits_length, ← size, size_append]
      omega
  · intro place hplace
    have hplaced := hnested.inside place (by rw [hlengths]; exact List.mem_cons_of_mem _ hplace)
    omega
  · intro place hplace
    exact hnested.words place (by rw [hlengths]; exact List.mem_cons_of_mem _ hplace)
  · intro _
    rwa [hsize]
  · intro bytes hkeeps
    have hlast := hkeeps.size_le
    exact .single (by omega) hlast (hparses bytes (hback bytes hkeeps).2)

end Follows

end Writer

end Bitcode.Bitstream
