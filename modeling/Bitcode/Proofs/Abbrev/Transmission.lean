import Bitcode.Abbrev.Definition
import Bitcode.Abbrev.Values
import Bitcode.Proofs.Abbrev.Acceptable
import Bitcode.Proofs.Bits.Vbr

namespace Bitcode

open Format Bits Bitstream

theorem Format.Char6.decode?_of_encode? {character code : UInt64}
    (hencode : Char6.encode? character = some code) : Char6.decode? code = some character := by
  have hcharacter : UInt64.ofNat character.toNat = character := UInt64.ofNat_toNat
  have hround : ∀ number < 64, (UInt64.ofNat number).toNat = number := by
    intro number hnumber
    rw [UInt64.toNat_ofNat', Nat.mod_eq_of_lt (by omega)]
  simp only [Char6.encode?] at hencode
  split at hencode
  · obtain rfl := Option.some.inj hencode
    have hback : character.toNat - 97 + 97 = character.toNat := by omega
    simp only [Char6.decode?]
    rw [hround _ (by omega), if_pos (by omega), hback, hcharacter]
  split at hencode
  · obtain rfl := Option.some.inj hencode
    have hback : character.toNat - 65 + 26 - 26 + 65 = character.toNat := by omega
    simp only [Char6.decode?]
    rw [hround _ (by omega), if_neg (by omega), if_pos (by omega), hback, hcharacter]
  split at hencode
  · obtain rfl := Option.some.inj hencode
    have hback : character.toNat - 48 + 52 - 52 + 48 = character.toNat := by omega
    simp only [Char6.decode?]
    rw [hround _ (by omega), if_neg (by omega), if_neg (by omega), if_pos (by omega), hback,
      hcharacter]
  split at hencode
  · rename_i hstop
    obtain rfl := Option.some.inj hencode
    rw [← hcharacter, hstop]
    rfl
  split at hencode
  · rename_i hline
    obtain rfl := Option.some.inj hencode
    rw [← hcharacter, hline]
    rfl
  · simp at hencode

theorem Format.Char6.encode?_lt {character code : UInt64}
    (hencode : Char6.encode? character = some code) : code.toNat < 2 ^ 6 := by
  have hround : ∀ number < 64, (UInt64.ofNat number).toNat < 64 := by
    intro number hnumber
    rw [UInt64.toNat_ofNat', Nat.mod_eq_of_lt (by omega)]
    exact hnumber
  simp only [Char6.encode?] at hencode
  repeat' split at hencode
  all_goals simp only [Option.some.injEq, reduceCtorEq] at hencode
  · exact hencode ▸ hround _ (by omega)
  · exact hencode ▸ hround _ (by omega)
  · exact hencode ▸ hround _ (by omega)
  · subst hencode
    decide
  · subst hencode
    decide

namespace Bitstream

theorem transmits_field (value : UInt64) (width : Nat) :
    Transmits (liftM (Writer.emit value width) : Writing Unit)
      (liftM (Cursor.read width) : Reading UInt64) value :=
  (Writer.transmits_emit value width).adaptExcept _ _

theorem transmits_vbr (value : UInt64) (width : Nat) :
    Transmits (liftM (Writer.emitVbr value width) : Writing Unit)
      (liftM (Cursor.readVbr width) : Reading UInt64) value :=
  (transmits_emitVbr value width).adaptExcept _ _

theorem succeeds_field {value : UInt64} {width : Nat} (hpositive : 0 < width) (hwidth : width < 64)
    (hvalue : value.toNat < 2 ^ width) :
    Succeeds (liftM (Writer.emit value width) : Writing Unit) :=
  (Writer.succeeds_emit hpositive hwidth hvalue).adaptExcept _

theorem succeeds_vbr (value : UInt64) {width : Nat} (hwidth : Vbr.ValidWidth width) :
    Succeeds (liftM (Writer.emitVbr value width) : Writing Unit) :=
  (Writer.succeeds_emitVbr value hwidth).adaptExcept _

end Bitstream

namespace Operator

theorem succeeds_write (operator : Operator) : Succeeds operator.write := by
  cases operator with
  | literal value =>
      exact (succeeds_field (by decide) (by decide) (by decide)).bind fun _ =>
        succeeds_vbr value (by decide)
  | fixed width =>
      exact (succeeds_field (by decide) (by decide) (by decide)).bind fun _ =>
        (succeeds_field (by decide) (by decide) (by decide)).bind fun _ =>
          succeeds_vbr width (by decide)
  | vbr width =>
      exact (succeeds_field (by decide) (by decide) (by decide)).bind fun _ =>
        (succeeds_field (by decide) (by decide) (by decide)).bind fun _ =>
          succeeds_vbr width (by decide)
  | array | char6 | blob =>
      exact (succeeds_field (by decide) (by decide) (by decide)).bind fun _ =>
        succeeds_field (by decide) (by decide) (by decide)

/-- An operator with a valid width is read as it was written. -/
theorem transmits_write {operator : Operator} (hwidth : operator.hasValidWidth) :
    Transmits operator.write Operator.read operator := by
  cases operator with
  | literal value =>
      refine (transmits_field 1 1).bind ?_
      exact (transmits_vbr value 8).finish rfl
  | fixed width =>
      simp only [hasValidWidth, Bool.and_eq_true, decide_eq_true_eq] at hwidth
      have hzero : width ≠ 0 := by
        rintro rfl
        simp at hwidth
      have hgreatest : ¬ 63 < width := by
        rw [UInt64.lt_iff_toNat_lt]
        exact Nat.not_lt.mpr hwidth.2
      refine (transmits_field 0 1).bind ?_
      refine (transmits_field Encoding.fixed.code 3).bind ?_
      refine (transmits_vbr width 5).finish ?_
      simp only [hzero, hgreatest, if_false]
  | vbr width =>
      simp only [hasValidWidth, Bool.and_eq_true, decide_eq_true_eq] at hwidth
      have hzero : width ≠ 0 := by
        rintro rfl
        simp at hwidth
      have hvalid : ¬ ¬ Vbr.ValidWidth width.toNat := not_not_intro hwidth
      refine (transmits_field 0 1).bind ?_
      refine (transmits_field Encoding.vbr.code 3).bind ?_
      refine (transmits_vbr width 5).finish ?_
      simp only [hzero, hvalid, if_false]
  | array =>
      refine (transmits_field 0 1).bind ?_
      exact (transmits_field Encoding.array.code 3).finish rfl
  | char6 =>
      refine (transmits_field 0 1).bind ?_
      exact (transmits_field Encoding.char6.code 3).finish rfl
  | blob =>
      refine (transmits_field 0 1).bind ?_
      exact (transmits_field Encoding.blob.code 3).finish rfl

theorem misplaced?_eq_none {operator : Operator} {remaining : Nat} {afterArray : Bool}
    (harray : operator = .array → remaining = 1) (hblob : operator = .blob → remaining = 0)
    (helement : afterArray = true → operator.isElement) :
    operator.misplaced? remaining afterArray = none := by
  have hfirst : ¬ (operator = .array ∧ remaining ≠ 1) := by
    rintro ⟨hoperator, hremaining⟩
    exact hremaining (harray hoperator)
  have hsecond : ¬ (operator = .blob ∧ remaining ≠ 0) := by
    rintro ⟨hoperator, hremaining⟩
    exact hremaining (hblob hoperator)
  have hthird : ¬ (afterArray = true ∧ (operator.isLiteral = true ∨ (!operator.isScalar) = true)) := by
    rintro ⟨hafter, hbad⟩
    have hgood := helement hafter
    simp only [isElement, Bool.and_eq_true, Bool.not_eq_true'] at hgood
    rcases hbad with hliteral | hscalar
    · simp [hgood.2] at hliteral
    · simp [hgood.1] at hscalar
  rw [misplaced?, if_neg hfirst, if_neg hsecond, if_neg hthird]

end Operator

namespace Abbrev

theorem succeeds_write (shape : Abbrev) : Succeeds shape.write :=
  (succeeds_vbr _ (by decide)).bind fun _ =>
    Succeeds.forM fun operator _ => operator.succeeds_write

theorem transmits_operator {operator : Operator} {rest : List Operator} {afterArray : Bool}
    (hwidth : operator.hasValidWidth)
    (hplace : operator.misplaced? rest.length afterArray = none)
    (hrest : Transmits (rest.forM Operator.write)
      (readOperators rest.length (operator = .array)) rest) :
    Transmits ((operator :: rest).forM Operator.write)
      (readOperators (operator :: rest).length afterArray) (operator :: rest) := by
  change Transmits (operator.write >>= fun _ => rest.forM Operator.write) _ _
  rw [List.length_cons, readOperators]
  refine (Operator.transmits_write hwidth).bind ?_
  simp only [hplace]
  exact hrest.finish rfl

theorem transmits_operators {operators : List Operator} (hoperators : acceptableFrom operators) :
    Transmits (operators.forM Operator.write) (readOperators operators.length false) operators := by
  fun_induction acceptableFrom operators with
  | case1 => exact Transmits.pure []
  | case2 element =>
      simp only [Bool.and_eq_true] at hoperators
      have hscalar : element.isScalar := by
        have helement := hoperators.1
        simp only [Operator.isElement, Bool.and_eq_true] at helement
        exact helement.1
      have helement : element.misplaced? 0 true = none := by
        apply Operator.misplaced?_eq_none
        · rintro rfl
          simp [Operator.isScalar] at hscalar
        · intro _
          rfl
        · intro _
          exact hoperators.1
      refine transmits_operator rfl rfl ?_
      exact transmits_operator hoperators.2 helement (Transmits.pure [])
  | case3 => simp at hoperators
  | case4 rest =>
      have hempty : rest = [] := by simpa using hoperators
      subst hempty
      exact transmits_operator rfl rfl (Transmits.pure [])
  | case5 operator rest hpair harray hblob ih =>
      simp only [Bool.and_eq_true] at hoperators
      have hnotArray : operator ≠ .array := fun heq => harray heq
      have hplace : operator.misplaced? rest.length false = none := by
        apply Operator.misplaced?_eq_none
        · intro heq
          exact absurd heq hnotArray
        · intro heq
          exact absurd heq (fun heq => hblob heq)
        · intro hafter
          simp at hafter
      refine transmits_operator hoperators.1 hplace ?_
      simpa [hnotArray] using ih hoperators.2

/-- The definition of an acceptable abbreviation is read as it was written. -/
theorem transmits_write {shape : Abbrev} (hshape : shape.isAcceptable)
    (hlength : shape.operators.length < 2 ^ 64) : Transmits shape.write Abbrev.read shape := by
  simp only [isAcceptable, Bool.and_eq_true, Bool.not_eq_true', List.isEmpty_eq_false_iff]
    at hshape
  have hcount := UInt64.toNat_ofNat_of_lt' hlength
  have hsome : UInt64.ofNat shape.operators.length ≠ 0 := by
    intro hzero
    rw [hzero] at hcount
    exact hshape.1 (List.eq_nil_of_length_eq_zero hcount.symm)
  refine (transmits_vbr _ 5).bind ?_
  simp only [hsome, if_false, hcount]
  exact (transmits_operators hshape.2).finish rfl

end Abbrev

end Bitcode
