import Mathlib
import Bitcode.Bits.Basic

namespace Bitcode.Bits

theorem testBit_spell (bit : Nat → Bool) (position count index : Nat) :
    (spell bit position count).testBit index = (decide (index < count) && bit (position + index)) := by
  induction count generalizing position index with
  | zero => simp [spell]
  | succ count ih =>
      have hsplit : spell bit position (count + 1) =
          2 * spell bit (position + 1) count + (bit position).toNat := by
        rw [spell, Nat.add_comm]
      rw [hsplit]
      cases index with
      | zero =>
          rw [Nat.testBit_zero]
          cases bit position <;> simp
      | succ index =>
          have hhalf : (2 * spell bit (position + 1) count + (bit position).toNat) / 2 =
              spell bit (position + 1) count := by
            have hbit := Bool.toNat_lt (bit position)
            omega
          rw [Nat.testBit_succ, hhalf, ih]
          have hplace : position + 1 + index = position + (index + 1) := by omega
          simp [hplace]

theorem spell_lt_two_pow (bit : Nat → Bool) (position count : Nat) :
    spell bit position count < 2 ^ count := by
  apply Nat.lt_pow_two_of_testBit
  intro index hindex
  rw [testBit_spell]
  simp [Nat.not_lt.mpr hindex]

/-- Bits that agree with the low bits of a number spell the number. -/
theorem spell_eq_of_testBit {bit : Nat → Bool} {position count value : Nat}
    (hvalue : value < 2 ^ count)
    (hbits : ∀ index < count, bit (position + index) = value.testBit index) :
    spell bit position count = value := by
  apply Nat.eq_of_testBit_eq
  intro index
  rw [testBit_spell]
  by_cases hindex : index < count
  · simp [hindex, hbits index hindex]
  · have hlarge : value < 2 ^ index :=
      Nat.lt_of_lt_of_le hvalue (Nat.pow_le_pow_right (by omega) (by omega))
    simp [hindex, Nat.testBit_lt_two_pow hlarge]

@[simp] theorem lowBits_length (value count : Nat) : (lowBits value count).length = count := by
  induction count generalizing value with
  | zero => rfl
  | succ count ih => simp [lowBits, ih]

theorem getElem_lowBits (value count index : Nat) (hindex : index < (lowBits value count).length) :
    (lowBits value count)[index] = value.testBit index := by
  induction count generalizing value index with
  | zero => simp [lowBits] at hindex
  | succ count ih =>
      cases index with
      | zero => simp [lowBits]
      | succ index =>
          simp only [lowBits, List.getElem_cons_succ, ih]
          rw [Nat.testBit_succ]

@[simp] theorem size_append_list (bits : Array Bool) (more : List Bool) :
    (bits ++ more).size = bits.size + more.length := by
  rw [← Array.length_toList, Array.toList_appendList, List.length_append, Array.length_toList]

theorem append_list_assoc (bits : Array Bool) (first second : List Bool) :
    bits ++ first ++ second = bits ++ (first ++ second) := by
  apply Array.ext'
  simp

@[simp] theorem packBytes_size (bits : Array Bool) (count : Nat) :
    (packBytes bits count).size = count := by
  simp [packBytes]

@[simp] theorem unpackBytes_size (bytes : Array UInt8) :
    (unpackBytes bytes).size = 8 * bytes.size := by
  simp [unpackBytes]

theorem getElem_unpackBytes (bytes : Array UInt8) (position : Nat)
    (hposition : position < (unpackBytes bytes).size) :
    (unpackBytes bytes)[position] = bitAt bytes position := by
  simp [unpackBytes]

theorem getD_unpackBytes {bytes : Array UInt8} {position : Nat}
    (hposition : position < 8 * bytes.size) :
    (unpackBytes bytes).getD position false = bitAt bytes position := by
  have hinside : position < (unpackBytes bytes).size := by rwa [unpackBytes_size]
  rw [Array.getD, dif_pos hinside]
  exact getElem_unpackBytes bytes position hinside

theorem bitAt_packBytes (bits : Array Bool) (count position : Nat)
    (hposition : position < 8 * count) :
    bitAt (packBytes bits count) position = bits.getD position false := by
  have hbyte : position / 8 < count := by omega
  have hget : (packBytes bits count).getD (position / 8) 0 =
      UInt8.ofNat (spell (bits.getD · false) (8 * (position / 8)) 8) := by
    simp [packBytes, Array.getD, hbyte]
  have hsmall := spell_lt_two_pow (bits.getD · false) (8 * (position / 8)) 8
  have hoffset : position % 8 < 8 := Nat.mod_lt _ (by omega)
  have hplace : 8 * (position / 8) + position % 8 = position := by omega
  rw [bitAt, hget, UInt8.toNat_ofNat', Nat.mod_eq_of_lt hsmall, testBit_spell, hplace]
  simp [hoffset]

theorem bytes_ext {first second : Array UInt8} (hsize : first.size = second.size)
    (hbits : ∀ position < 8 * first.size, bitAt first position = bitAt second position) :
    first = second := by
  apply Array.ext hsize
  intro index hfirst hsecond
  apply UInt8.toNat_inj.mp
  apply Nat.eq_of_testBit_eq
  intro bit
  by_cases hbit : bit < 8
  · have hsame := hbits (8 * index + bit) (by omega)
    have hdiv : (8 * index + bit) / 8 = index := by omega
    have hmod : (8 * index + bit) % 8 = bit := by omega
    simpa [bitAt, hdiv, hmod, Array.getD, hfirst, hsecond] using hsame
  · have hlarge : (2 : Nat) ^ 8 ≤ 2 ^ bit := Nat.pow_le_pow_right (by omega) (by omega)
    rw [Nat.testBit_lt_two_pow (Nat.lt_of_lt_of_le (UInt8.toNat_lt _) hlarge),
      Nat.testBit_lt_two_pow (Nat.lt_of_lt_of_le (UInt8.toNat_lt _) hlarge)]

end Bitcode.Bits
