import Mathlib
import Bitcode.Header

namespace Bitcode

open Bitstream

namespace Header

variable {bytes : Array UInt8} {header : Header}

theorem except_bind_eq_ok_iff {ε α β : Type} {first : Except ε α} {second : α → Except ε β}
    {value : β} :
    (first >>= second) = .ok value ↔ ∃ middle, first = .ok middle ∧ second middle = .ok value := by
  cases first with
  | error cause => simp [Bind.bind, Except.bind]
  | ok middle => simp [Bind.bind, Except.bind]

/-- A check that fails ends the computation. -/
theorem except_check_eq_ok_iff {ε α β : Type} {bad : Prop} [Decidable bad] {cause : ε}
    {second : α → Except ε β} {rest : Except ε β} {value : β} :
    (if bad then (throw cause : Except ε α) >>= second else rest) = .ok value ↔
      ¬ bad ∧ rest = .ok value := by
  by_cases hbad : bad
  · simp [hbad, throw, throwThe, MonadExceptOf.throw, Bind.bind, Except.bind]
  · simp [hbad]

theorem readFields_mod {count position finish : Nat} {fields : List HeaderField}
    (hread : readFields bytes count position = .ok (fields, finish)) :
    finish % 4 = position % 4 := by
  induction count generalizing position fields with
  | zero =>
      obtain ⟨-, rfl⟩ := Prod.mk.inj (Except.ok.inj hread)
      rfl
  | succ count ih =>
      obtain ⟨id, -, hread⟩ := except_bind_eq_ok_iff.mp hread
      obtain ⟨length, -, hread⟩ := except_bind_eq_ok_iff.mp hread
      obtain ⟨-, hread⟩ := except_check_eq_ok_iff.mp hread
      obtain ⟨⟨rest, stop⟩, hrest, hread⟩ := except_bind_eq_ok_iff.mp hread
      obtain ⟨-, rfl⟩ := Prod.mk.inj (Except.ok.inj hread)
      rw [ih hrest, wordAligned]
      omega

theorem parse_eq_ok_iff :
    parse bytes = .ok header ↔
      ∃ fieldCount byteCount,
        fixedSize + byteCount ≤ bytes.size ∧ (bytes.extract 0 4).toList = magic ∧
        read16 bytes 4 = .ok fieldCount ∧ read16 bytes 6 = .ok byteCount ∧
        readFields (bytes.extract fixedSize (fixedSize + byteCount)) fieldCount 0 =
          .ok (header.fields, byteCount) ∧
        header.raw = bytes.extract 0 (fixedSize + byteCount) := by
  unfold parse
  constructor
  · intro hparse
    obtain ⟨hmagic, hparse⟩ := except_check_eq_ok_iff.mp hparse
    obtain ⟨fieldCount, hfieldCount, hparse⟩ := except_bind_eq_ok_iff.mp hparse
    obtain ⟨byteCount, hbyteCount, hparse⟩ := except_bind_eq_ok_iff.mp hparse
    obtain ⟨hlong, hparse⟩ := except_check_eq_ok_iff.mp hparse
    obtain ⟨⟨fields, finish⟩, hfields, hparse⟩ := except_bind_eq_ok_iff.mp hparse
    obtain ⟨hfinish, hparse⟩ := except_check_eq_ok_iff.mp hparse
    obtain rfl := Except.ok.inj hparse
    obtain rfl := Decidable.not_not.mp hfinish
    rw [not_or, Decidable.not_not] at hmagic
    exact ⟨fieldCount, finish, by omega, hmagic.2, hfieldCount, hbyteCount, hfields, rfl⟩
  · rintro ⟨fieldCount, byteCount, hsize, hmagic, hfieldCount, hbyteCount, hfields, hraw⟩
    have hgood : ¬ (bytes.size < fixedSize ∨ (bytes.extract 0 4).toList ≠ magic) := by
      rw [not_or, Decidable.not_not]
      exact ⟨by omega, hmagic⟩
    have hlong : ¬ bytes.size < fixedSize + byteCount := by omega
    rw [if_neg hgood, hfieldCount, hbyteCount]
    simp only [Bind.bind, Except.bind, Pure.pure, Except.pure, if_neg hlong, hfields]
    rw [← hraw]
    simp

theorem size_of_parse (hparse : parse bytes = .ok header) :
    fixedSize ≤ header.size ∧ header.size ≤ bytes.size ∧ header.size % 4 = 0 ∧
      header.raw = bytes.extract 0 header.size := by
  obtain ⟨fieldCount, byteCount, hsize, -, -, -, hfields, hraw⟩ := parse_eq_ok_iff.mp hparse
  have hcount : header.size = fixedSize + byteCount := by
    rw [size, hraw, Array.size_extract]
    omega
  have hmod := readFields_mod hfields
  rw [fixedSize] at hcount hsize ⊢
  exact ⟨by omega, by omega, by omega, by rw [hcount, hraw, fixedSize]⟩

theorem extract_of_extract_eq {other : Array UInt8} {stop first last : Nat}
    (hsame : other.extract 0 stop = bytes.extract 0 stop) (hlast : last ≤ stop) :
    other.extract first last = bytes.extract first last := by
  have hwithin := congrArg (fun part : Array UInt8 => part.extract first last) hsame
  simpa [Array.extract_extract, Nat.min_eq_left hlast] using hwithin

theorem read16_of_extract_eq {other : Array UInt8} {stop position value : Nat}
    (hsame : other.extract 0 stop = bytes.extract 0 stop) (hposition : position + 2 ≤ stop)
    (hstop : stop ≤ other.size) (hread : read16 bytes position = .ok value) :
    read16 other position = .ok value := by
  unfold read16 at hread ⊢
  split at hread
  · rw [if_pos (by omega), extract_of_extract_eq hsame hposition]
    exact hread
  · simp at hread

theorem parse_of_extract_eq {other : Array UInt8} (hparse : parse bytes = .ok header)
    (hsize : header.size ≤ other.size) (hsame : other.extract 0 header.size = header.raw) :
    parse other = .ok header := by
  obtain ⟨hfixed, -, -, hraw⟩ := size_of_parse hparse
  obtain ⟨fieldCount, byteCount, hinside, hmagic, hfieldCount, hbyteCount, hfields, hbytes⟩ :=
    parse_eq_ok_iff.mp hparse
  have hcount : header.size = fixedSize + byteCount := by
    rw [size, hbytes, Array.size_extract]
    omega
  rw [hraw] at hsame
  rw [fixedSize] at hfixed
  refine parse_eq_ok_iff.mpr ⟨fieldCount, byteCount, by omega, ?_, ?_, ?_, ?_, ?_⟩
  · rw [extract_of_extract_eq hsame (by omega)]
    exact hmagic
  · exact read16_of_extract_eq hsame (by omega) hsize hfieldCount
  · exact read16_of_extract_eq hsame (by omega) hsize hbyteCount
  · rw [extract_of_extract_eq hsame (by omega)]
    exact hfields
  · rw [← hcount, hsame, ← hraw]

end Header

end Bitcode
