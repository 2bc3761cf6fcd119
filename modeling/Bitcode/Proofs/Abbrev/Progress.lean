import Bitcode.Proofs.Abbrev.Records
import Bitcode.Proofs.Bits.Progress

namespace Bitcode

open Format Bits Bitstream

namespace Operator

theorem moves_readEncoded :
    Moves readEncoded fun operator taken => 0 < taken ∧ operator.hasValidWidth := by
  refine ((Cursor.moves_read 3).adaptExcept Error.field).bind fun code taken hcode => ?_
  obtain ⟨rfl, -, -⟩ := hcode
  cases Encoding.ofCode? code with
  | none => exact Moves.throw _
  | some encoding =>
      cases encoding with
      | fixed =>
          refine ((Cursor.moves_readVbr 5).adaptExcept Error.field).bind fun width _ _ => ?_
          refine Moves.of_if (fun _ => Moves.pure ⟨by omega, rfl⟩) fun hzero => ?_
          refine Moves.of_if (fun _ => Moves.throw_bind _) fun hwide => ?_
          refine Moves.pure ⟨by omega, ?_⟩
          have hpositive : width.toNat ≠ 0 := fun hwidth => hzero (UInt64.toNat_inj.mp hwidth)
          have hle : width.toNat ≤ 63 := UInt64.le_iff_toNat_le.mp (UInt64.not_lt.mp hwide)
          simp only [hasValidWidth, Bool.and_eq_true, decide_eq_true_eq]
          omega
      | vbr =>
          refine ((Cursor.moves_readVbr 5).adaptExcept Error.field).bind fun width _ _ => ?_
          refine Moves.of_if (fun _ => Moves.pure ⟨by omega, rfl⟩) fun hzero => ?_
          refine Moves.of_if (fun _ => Moves.throw_bind _) fun hvalid => ?_
          refine Moves.pure ⟨by omega, ?_⟩
          have hwidth : Vbr.ValidWidth width.toNat := Decidable.not_not.mp hvalid
          simp only [hasValidWidth, Bool.and_eq_true, decide_eq_true_eq]
          exact hwidth
      | array => exact Moves.pure ⟨by omega, rfl⟩
      | char6 => exact Moves.pure ⟨by omega, rfl⟩
      | blob => exact Moves.pure ⟨by omega, rfl⟩

theorem moves_read :
    Moves Operator.read fun operator taken => 0 < taken ∧ operator.hasValidWidth := by
  refine ((Cursor.moves_read 1).adaptExcept Error.field).bind fun mark taken hmark => ?_
  obtain ⟨rfl, -, -⟩ := hmark
  refine Moves.of_if (fun _ => ?_) fun _ => ?_
  · refine ((Cursor.moves_readVbr 8).adaptExcept Error.field).bind fun value _ _ => ?_
    exact Moves.pure ⟨by omega, rfl⟩
  · exact moves_readEncoded.mono fun operator _ ⟨_, hwidth⟩ => ⟨by omega, hwidth⟩

theorem of_misplaced_eq_none {operator : Operator} {remaining : Nat} {afterArray : Bool}
    (hplace : operator.misplaced? remaining afterArray = none) :
    (operator = .array → remaining = 1) ∧ (operator = .blob → remaining = 0) ∧
      (afterArray → operator.isElement) := by
  unfold misplaced? at hplace
  split at hplace
  · simp at hplace
  · rename_i harray
    split at hplace
    · simp at hplace
    · rename_i hblob
      split at hplace
      · simp at hplace
      · rename_i helement
        refine ⟨fun h => Decidable.byContradiction fun hne => harray ⟨h, hne⟩,
          fun h => Decidable.byContradiction fun hne => hblob ⟨h, hne⟩, fun hafter => ?_⟩
        simp only [hafter, true_and, not_or] at helement
        simpa [isElement] using And.intro helement.2 helement.1

theorem moves_readScalar (operator : Operator) :
    Moves operator.readScalar fun _ taken =>
      operator.isElement → operator.hasValidWidth → 0 < taken := by
  cases operator with
  | literal value => exact Moves.pure fun helement => by simp [isElement, isLiteral, literal?] at helement
  | fixed width =>
      refine Moves.of_if (fun hzero => ?_) fun _ => ?_
      · refine Moves.pure fun _ hwidth => ?_
        simp [hzero, hasValidWidth] at hwidth
      · exact ((Cursor.moves_read _).adaptExcept Error.field).mono fun _ _ hread _ _ => by omega
  | vbr width =>
      refine Moves.of_if (fun hzero => ?_) fun _ => ?_
      · refine Moves.pure fun _ hwidth => ?_
        simp [hzero, hasValidWidth] at hwidth
      · exact ((Cursor.moves_readVbr _).adaptExcept Error.field).mono fun _ _ hread _ _ => hread.1
  | char6 =>
      refine ((Cursor.moves_read 6).adaptExcept Error.field).bind fun code taken hcode => ?_
      exact Moves.pure fun _ _ => by omega
  | array => exact Moves.throw _
  | blob => exact Moves.throw _

end Operator

namespace Abbrev

theorem moves_readOperators (remaining : Nat) (afterArray : Bool) :
    Moves (readOperators remaining afterArray) fun operators taken =>
      operators.length = remaining ∧ remaining ≤ taken ∧
        (afterArray = false → acceptableFrom operators) ∧
        (afterArray → remaining = 1 → acceptableFrom (.array :: operators)) := by
  induction remaining generalizing afterArray with
  | zero => exact Moves.pure ⟨rfl, Nat.le_refl _, fun _ => rfl, fun _ hone => by simp at hone⟩
  | succ remaining ih =>
      refine Operator.moves_read.bind fun operator taken ⟨htaken, hwidth⟩ => ?_
      cases hplace : operator.misplaced? remaining afterArray with
      | some cause => exact Moves.throw _
      | none =>
          obtain ⟨harray, hblob, helement⟩ := Operator.of_misplaced_eq_none hplace
          refine (ih _).bind fun rest more ⟨hlength, hmore, hplain, hinside⟩ => ?_
          refine Moves.pure ⟨by simp [hlength], by omega, fun _ => ?_, fun hafter hone => ?_⟩
          · cases operator with
            | array => exact hinside rfl (harray rfl)
            | blob =>
                have hnil := List.eq_nil_of_length_eq_zero (hlength.trans (hblob rfl))
                rw [hnil]
                rfl
            | literal | fixed | vbr | char6 =>
                rw [acceptableFrom_scalar rfl, Bool.and_eq_true]
                exact ⟨hwidth, hplain rfl⟩
          · have hnil : rest = [] := List.eq_nil_of_length_eq_zero (by omega)
            simp [hnil, acceptableFrom, helement hafter, hwidth]

/-- A definition that is read is acceptable, and has taken at least one bit for each operator. -/
theorem moves_read :
    Moves Abbrev.read fun shape taken => shape.isAcceptable ∧ shape.operators.length ≤ taken := by
  refine ((Cursor.moves_readVbr 5).adaptExcept Error.field).bind fun count taken _ => ?_
  refine Moves.of_if (fun _ => Moves.throw_bind _) fun hcount => ?_
  refine (moves_readOperators _ _).bind fun operators more ⟨hlength, hmore, haccept, _⟩ => ?_
  refine Moves.pure ⟨?_, by simp only; omega⟩
  have hpositive : count.toNat ≠ 0 := fun hzero => hcount (UInt64.toNat_inj.mp hzero)
  have hnonempty : operators ≠ [] := by
    rintro rfl
    exact hpositive hlength.symm
  simp [isAcceptable, hnonempty, haccept rfl]

theorem moves_readMany {readOne : Bitstream.Reading UInt64} {least : Nat}
    (hone : Moves readOne fun _ taken => least ≤ taken) (count : Nat) (reversed : List UInt64) :
    Moves (readMany readOne count reversed) fun values taken =>
      values.length = reversed.length + count ∧ least * count ≤ taken := by
  induction count generalizing reversed with
  | zero => exact Moves.pure ⟨by simp, Nat.le_refl _⟩
  | succ count ih =>
      refine hone.bind fun value taken htaken => ?_
      refine (ih _).mono fun values more ⟨hlength, hmore⟩ => ⟨?_, ?_⟩
      · rw [hlength, List.length_cons]
        omega
      · rw [Nat.mul_succ]
        omega

theorem moves_readFields (count : Nat) :
    Moves (readMany (liftM (Cursor.readVbr 6)) count []) fun fields taken =>
      fields.length = count ∧ 6 * count ≤ taken := by
  have hone : Moves (liftM (Cursor.readVbr 6) : Bitstream.Reading UInt64) fun _ taken =>
      6 ≤ taken :=
    ((Cursor.moves_readVbr 6).adaptExcept Error.field).mono fun _ _ hread => hread.2
  exact (moves_readMany hone count []).mono fun fields _ ⟨hlength, htaken⟩ =>
    ⟨by simpa using hlength, htaken⟩

theorem moves_readBlob : Moves readBlob fun bytes taken => bytes.length ≤ taken := by
  refine ((Cursor.moves_readVbr 6).adaptExcept Error.field).bind fun count taken _ => ?_
  refine Cursor.moves_align32.bind fun _ _ _ => ?_
  have hbyte : Moves (liftM (Cursor.read 8) : Bitstream.Reading UInt64) fun _ taken => 8 ≤ taken :=
    ((Cursor.moves_read 8).adaptExcept Error.field).mono fun _ _ hread => by omega
  refine (moves_readMany hbyte _ _).bind fun bytes more ⟨hlength, hmore⟩ => ?_
  refine Cursor.moves_align32.bind fun _ _ _ => ?_
  refine Moves.pure ?_
  rw [hlength, List.length_nil]
  omega

theorem moves_readOperatorValues {operators : List Operator}
    (hoperators : acceptableFrom operators) :
    Moves (readOperatorValues operators) fun values taken =>
      values.length ≤ operators.length + taken := by
  fun_induction acceptableFrom operators with
  | case1 => exact Moves.pure (Nat.zero_le _)
  | case2 element =>
      rw [Bool.and_eq_true] at hoperators
      refine ((Cursor.moves_readVbr 6).adaptExcept Error.field).bind fun count taken _ => ?_
      have hone : Moves element.readScalar fun _ taken => 1 ≤ taken :=
        (Operator.moves_readScalar element).mono fun _ _ hread =>
          hread hoperators.1 hoperators.2
      refine (moves_readMany hone _ _).bind fun elements more hread => ?_
      obtain ⟨hlength, hmore⟩ := hread
      refine Moves.pure ?_
      rw [List.length_append, hlength]
      simp only [List.length_cons, List.length_nil]
      omega
  | case3 rest => simp at hoperators
  | case4 rest =>
      obtain rfl := List.isEmpty_iff.mp hoperators
      refine moves_readBlob.bind fun bytes taken hbytes => ?_
      refine Moves.pure ?_
      simp only [List.append_nil, List.length_cons, List.length_nil]
      omega
  | case5 operator rest hpair harray hblob ih =>
      rw [Bool.and_eq_true] at hoperators
      rw [readOperatorValues_scalar
        (isScalar_of_ne (fun heq => harray heq) (fun heq => hblob heq))]
      refine (Operator.moves_readScalar operator).bind fun value taken _ => ?_
      refine (ih hoperators.2).bind fun values more hvalues => ?_
      refine Moves.pure ?_
      simp only [List.length_cons]
      omega

theorem moves_readValues {shape : Abbrev} (hshape : shape.isAcceptable) :
    Moves shape.readValues fun values taken =>
      values.length ≤ shape.operators.length + taken := by
  rw [isAcceptable, Bool.and_eq_true] at hshape
  exact moves_readOperatorValues hshape.2

end Abbrev

end Bitcode
