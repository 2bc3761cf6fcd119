import Mathlib
import Bitcode.Format.Ids

namespace Bitcode.Format

theorem lt_two_pow_bitLength (value : Nat) : value < 2 ^ bitLength value := by
  unfold bitLength
  split
  · omega
  · exact Nat.lt_log2_self

theorem bitLength_le {value width : Nat} (hvalue : value < 2 ^ width) : bitLength value ≤ width := by
  unfold bitLength
  split
  · exact Nat.zero_le _
  · rename_i hpositive
    exact (Nat.log2_lt hpositive).mpr hvalue

theorem initialIdWidth_le_idWidthFor (count : Nat) : initialIdWidth ≤ idWidthFor count :=
  Nat.le_max_right _ _

theorem id_lt_of_place_lt {place count : Nat} (hplace : place < count) :
    firstDefinedId + place < 2 ^ idWidthFor count := by
  have hlast := lt_two_pow_bitLength (firstDefinedId + count - 1)
  have hpower : 2 ^ bitLength (firstDefinedId + count - 1) ≤ 2 ^ idWidthFor count :=
    Nat.pow_le_pow_right (by decide) (Nat.le_max_left _ _)
  omega

theorem idWidthFor_le_iff {count width : Nat} (hwidth : initialIdWidth ≤ width) :
    idWidthFor count ≤ width ↔ count + firstDefinedId ≤ 2 ^ width := by
  constructor
  · intro hle
    have hlast := lt_two_pow_bitLength (firstDefinedId + count - 1)
    have hpower : 2 ^ bitLength (firstDefinedId + count - 1) ≤ 2 ^ width :=
      Nat.pow_le_pow_right (by decide) (Nat.le_trans (Nat.le_max_left _ _) hle)
    omega
  · intro hcount
    refine Nat.max_le.mpr ⟨bitLength_le ?_, hwidth⟩
    rw [firstDefinedId] at hcount ⊢
    omega

end Bitcode.Format
