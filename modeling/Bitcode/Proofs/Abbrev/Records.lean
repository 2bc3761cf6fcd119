import Bitcode.Proofs.Abbrev.Transmission

namespace Bitcode

open Format Bits Bitstream

namespace Operator

theorem transmits_writeScalar {operator : Operator} (hwidth : operator.hasValidWidth)
    (value : UInt64) : Transmits (operator.writeScalar value) operator.readScalar value := by
  by_cases hnone : (operator.scalarBits value).isNone
  · unfold writeScalar
    rw [if_pos hnone]
    exact Transmits.throw _ _ _
  · unfold writeScalar
    rw [if_neg hnone]
    cases operator with
    | literal constant =>
        have hconstant : constant = value := by
          simpa [scalarBits] using hnone
        subst hconstant
        exact Transmits.pure constant
    | fixed width =>
        have hzero : width ≠ 0 := by
          rintro rfl
          simp [hasValidWidth] at hwidth
        simp only [readScalar, hzero, if_false]
        exact transmits_field value width.toNat
    | vbr width =>
        have hzero : width ≠ 0 := by
          rintro rfl
          simp [hasValidWidth] at hwidth
        simp only [readScalar, hzero, if_false]
        exact transmits_vbr value width.toNat
    | char6 =>
        obtain ⟨code, hcode⟩ : ∃ code, Char6.encode? value = some code := by
          simpa [scalarBits, Option.ne_none_iff_exists'] using hnone
        simp only [hcode, Option.getD_some]
        refine (transmits_field code 6).finish ?_
        rw [Char6.decode?_of_encode? hcode]
        rfl
    | array => simp [scalarBits] at hnone
    | blob => simp [scalarBits] at hnone

theorem succeeds_writeScalar {operator : Operator} (hwidth : operator.hasValidWidth)
    {value : UInt64} (hvalue : (operator.scalarBits value).isSome) :
    Succeeds (operator.writeScalar value) := by
  have hsome : ¬ (operator.scalarBits value).isNone := by
    simpa using Option.isSome_iff_ne_none.mp hvalue
  unfold writeScalar
  rw [if_neg hsome]
  cases operator with
  | literal constant => exact Succeeds.pure ()
  | fixed width =>
      simp only [hasValidWidth, Bool.and_eq_true, decide_eq_true_eq] at hwidth
      have hzero : width ≠ 0 := by
        rintro rfl
        simp at hwidth
      simp only [hzero, if_false]
      refine succeeds_field (by omega) (by omega) ?_
      simp only [scalarBits, hzero, if_false] at hvalue
      split at hvalue
      · simp at hvalue
      · rename_i hfits
        have hwide : width < 64 := by
          rw [UInt64.lt_iff_toNat_lt]
          exact Nat.lt_of_le_of_lt hwidth.2 (by decide)
        simp only [hwide, true_and, not_or, Nat.one_shiftLeft] at hfits
        exact Nat.not_le.mp hfits.2
  | vbr width =>
      simp only [hasValidWidth, Bool.and_eq_true, decide_eq_true_eq] at hwidth
      have hzero : width ≠ 0 := by
        rintro rfl
        simp at hwidth
      simp only [hzero, if_false]
      exact succeeds_vbr value hwidth
  | char6 =>
      obtain ⟨code, hcode⟩ : ∃ code, Char6.encode? value = some code := by
        simpa [scalarBits, Option.isSome_iff_exists] using hvalue
      simp only [hcode, Option.getD_some]
      exact succeeds_field (by decide) (by decide) (Char6.encode?_lt hcode)
  | array => simp [scalarBits] at hvalue
  | blob => simp [scalarBits] at hvalue

end Operator

namespace Abbrev

/-- Values that are written one after the other are read in their order, after those read before. -/
theorem transmits_readMany {write : UInt64 → Bitstream.Writing Unit}
    {readOne : Bitstream.Reading UInt64} (values before : List UInt64)
    (hone : ∀ value ∈ values, Transmits (write value) readOne value) :
    Transmits (values.forM write) (readMany readOne values.length before)
      (before.reverse ++ values) := by
  induction values generalizing before with
  | nil =>
      simp only [List.length_nil, readMany, List.append_nil]
      exact Transmits.pure _
  | cons value rest ih =>
      change Transmits (write value >>= fun _ => rest.forM write) _ _
      rw [List.length_cons, readMany]
      refine (hone value (by simp)).bind ?_
      have hrest := ih (value :: before) (fun other hother => hone other (by simp [hother]))
      simpa using hrest

theorem transmits_count {write : UInt64 → Bitstream.Writing Unit}
    {readOne : Bitstream.Reading UInt64} {values : List UInt64} (hlength : values.length < 2 ^ 64)
    (hone : ∀ value ∈ values, Transmits (write value) readOne value) :
    Transmits (values.forM write)
      (readMany readOne (UInt64.ofNat values.length).toNat []) values := by
  rw [UInt64.toNat_ofNat_of_lt' hlength]
  simpa using transmits_readMany values [] hone

theorem transmits_writeByte (value : UInt64) :
    Transmits (writeByte value) (liftM (Cursor.read 8) : Bitstream.Reading UInt64) value := by
  by_cases hlarge : 0xff < value
  · rw [writeByte, if_pos hlarge]
    exact Transmits.throw _ _ _
  · rw [writeByte, if_neg hlarge]
    exact transmits_field value 8

theorem transmits_writeBlob {values : List UInt64} (hlength : values.length < 2 ^ 64) :
    Transmits (writeBlob values) readBlob values := by
  refine (transmits_vbr _ 6).bind ?_
  refine Writer.transmits_align32.bind ?_
  refine (transmits_count hlength fun value _ => transmits_writeByte value).bind ?_
  exact Writer.transmits_align32.finish rfl

theorem writeOperatorValues_scalar (shape : Abbrev) {operator : Operator}
    (hscalar : operator.isScalar) (rest : List Operator) (value : UInt64) (values : List UInt64) :
    writeOperatorValues shape (operator :: rest) (value :: values) =
      operator.writeScalar value >>= fun _ => writeOperatorValues shape rest values := by
  cases operator with
  | literal | fixed | vbr | char6 => rfl
  | array | blob => simp [Operator.isScalar] at hscalar

theorem readOperatorValues_scalar {operator : Operator} (hscalar : operator.isScalar)
    (rest : List Operator) :
    readOperatorValues (operator :: rest) = (do
      let value ← operator.readScalar
      let others ← readOperatorValues rest
      return value :: others) := by
  cases operator with
  | literal | fixed | vbr | char6 => rfl
  | array | blob => simp [Operator.isScalar] at hscalar

theorem transmits_writeOperatorValues (shape : Abbrev) {operators : List Operator}
    (hoperators : acceptableFrom operators) (values : List UInt64)
    (hlength : values.length < 2 ^ 64) :
    Transmits (writeOperatorValues shape operators values) (readOperatorValues operators)
      values := by
  fun_induction acceptableFrom operators generalizing values with
  | case1 =>
      cases values with
      | nil => exact Transmits.pure []
      | cons value values => exact Transmits.throw _ _ _
  | case2 element =>
      simp only [Bool.and_eq_true] at hoperators
      rw [writeOperatorValues, readOperatorValues]
      refine (transmits_vbr _ 6).bind ?_
      refine (transmits_count hlength fun value _ =>
        Operator.transmits_writeScalar hoperators.2 value).bind ?_
      refine (Transmits.pure []).finish ?_
      rw [List.append_nil]
  | case3 => simp at hoperators
  | case4 rest =>
      have hempty : rest = [] := by simpa using hoperators
      subst hempty
      rw [writeOperatorValues, readOperatorValues]
      refine (transmits_writeBlob hlength).bind ?_
      refine (Transmits.pure []).finish ?_
      rw [List.append_nil]
  | case5 operator rest hpair harray hblob ih =>
      simp only [Bool.and_eq_true] at hoperators
      have hscalar : operator.isScalar :=
        isScalar_of_ne (fun heq => harray heq) (fun heq => hblob heq)
      cases values with
      | nil =>
          cases operator with
          | array | blob => simp [Operator.isScalar] at hscalar
          | literal | fixed | vbr | char6 => exact Transmits.throw _ _ _
      | cons value values =>
          rw [writeOperatorValues_scalar shape hscalar, readOperatorValues_scalar hscalar]
          refine (Operator.transmits_writeScalar hoperators.1 value).bind ?_
          refine (ih hoperators.2 values ?_).finish rfl
          rw [List.length_cons] at hlength
          omega

theorem transmits_writeValues {shape : Abbrev} (hshape : shape.isAcceptable) (values : List UInt64)
    (hlength : values.length < 2 ^ 64) :
    Transmits (shape.writeValues values) shape.readValues values := by
  simp only [isAcceptable, Bool.and_eq_true] at hshape
  exact transmits_writeOperatorValues shape hshape.2 values hlength

theorem scalarBits_isSome_of_elementBits {element : Operator} {values : List UInt64}
    (hbits : (elementBits element values).isSome) :
    ∀ value ∈ values, (element.scalarBits value).isSome := by
  induction values with
  | nil => simp
  | cons first rest ih =>
      obtain ⟨total, htotal⟩ := Option.isSome_iff_exists.mp hbits
      simp only [elementBits, Option.bind_eq_bind, Option.bind_eq_some_iff] at htotal
      obtain ⟨bits, hfirst, more, hrest, -⟩ := htotal
      intro value hvalue
      rcases List.mem_cons.mp hvalue with rfl | hmember
      · simp [hfirst]
      · exact ih (by simp [hrest]) value hmember

theorem operatorBits_scalar {operator : Operator} (hscalar : operator.isScalar)
    (rest : List Operator) (value : UInt64) (values : List UInt64) :
    operatorBits (operator :: rest) (value :: values) = (do
      let bits ← operator.scalarBits value
      let more ← operatorBits rest values
      return bits + more) := by
  cases operator with
  | literal | fixed | vbr | char6 => rfl
  | array | blob => simp [Operator.isScalar] at hscalar

theorem operatorBits_scalar_nil {operator : Operator} (hscalar : operator.isScalar)
    (rest : List Operator) : operatorBits (operator :: rest) [] = none := by
  cases operator with
  | literal | fixed | vbr | char6 => rfl
  | array | blob => simp [Operator.isScalar] at hscalar

theorem succeeds_of_operatorBits (shape : Abbrev) {operators : List Operator}
    (hoperators : acceptableFrom operators) (values : List UInt64)
    (hbits : (operatorBits operators values).isSome) :
    Succeeds (writeOperatorValues shape operators values) := by
  fun_induction acceptableFrom operators generalizing values with
  | case1 =>
      cases values with
      | nil => exact Succeeds.pure ()
      | cons value values => simp [operatorBits] at hbits
  | case2 element =>
      simp only [Bool.and_eq_true] at hoperators
      have helements : (elementBits element values).isSome := by
        obtain ⟨total, htotal⟩ := Option.isSome_iff_exists.mp hbits
        simp only [operatorBits, Option.bind_eq_bind, Option.bind_eq_some_iff] at htotal
        obtain ⟨bits, helementBits, -⟩ := htotal
        simp [helementBits]
      rw [writeOperatorValues]
      refine (succeeds_vbr _ (by decide)).bind fun _ => ?_
      refine Succeeds.bind (Succeeds.forM ?_) fun _ => Succeeds.pure ()
      intro value hvalue
      exact Operator.succeeds_writeScalar hoperators.2
        (scalarBits_isSome_of_elementBits helements value hvalue)
  | case3 => simp at hoperators
  | case4 rest => simp [operatorBits] at hbits
  | case5 operator rest hpair harray hblob ih =>
      simp only [Bool.and_eq_true] at hoperators
      have hscalar : operator.isScalar :=
        isScalar_of_ne (fun heq => harray heq) (fun heq => hblob heq)
      cases values with
      | nil => simp [operatorBits_scalar_nil hscalar] at hbits
      | cons value values =>
          obtain ⟨total, htotal⟩ := Option.isSome_iff_exists.mp hbits
          simp only [operatorBits_scalar hscalar, Option.bind_eq_bind, Option.bind_eq_some_iff]
            at htotal
          obtain ⟨bits, hvalue, more, hrest, -⟩ := htotal
          rw [writeOperatorValues_scalar shape hscalar]
          exact (Operator.succeeds_writeScalar hoperators.1 (by simp [hvalue])).bind fun _ =>
            ih hoperators.2 values (by simp [hrest])

theorem succeeds_writeBlob {values : List UInt64} (hbytes : values.all (· ≤ 0xff)) :
    Succeeds (writeBlob values) := by
  refine (succeeds_vbr _ (by decide)).bind fun _ => ?_
  refine (Succeeds.modify Writer.align32).bind fun _ => ?_
  refine Succeeds.bind (Succeeds.forM ?_) fun _ => Succeeds.modify Writer.align32
  intro value hvalue
  have hsmall : value ≤ 0xff := by
    simpa using List.all_eq_true.mp hbytes value hvalue
  have hnotLarge : ¬ 0xff < value := UInt64.not_lt.mpr hsmall
  rw [writeByte, if_neg hnotLarge]
  refine succeeds_field (by decide) (by decide) ?_
  have htoNat := UInt64.le_iff_toNat_le.mp hsmall
  exact Nat.lt_of_le_of_lt htoNat (by decide)

theorem succeeds_beforeBlob (shape : Abbrev) {head : List Operator}
    (hoperators : acceptableFrom (head ++ [.blob])) (values : List UInt64)
    (hcount : head.length ≤ values.length)
    (hbits : (operatorBits head (values.take head.length)).isSome)
    (hbytes : (values.drop head.length).all (· ≤ 0xff)) :
    Succeeds (writeOperatorValues shape (head ++ [.blob]) values) := by
  induction head generalizing values with
  | nil =>
      simp only [List.nil_append, writeOperatorValues]
      exact (succeeds_writeBlob hbytes).bind fun _ => Succeeds.pure ()
  | cons operator rest ih =>
      have hscalar := isScalar_of_acceptableFrom_blob hoperators
      rw [List.cons_append, acceptableFrom_scalar hscalar, Bool.and_eq_true] at hoperators
      cases values with
      | nil => simp at hcount
      | cons value values =>
          simp only [List.length_cons, List.take_succ_cons, List.drop_succ_cons] at hcount hbits hbytes
          obtain ⟨total, htotal⟩ := Option.isSome_iff_exists.mp hbits
          simp only [operatorBits_scalar hscalar, Option.bind_eq_bind, Option.bind_eq_some_iff]
            at htotal
          obtain ⟨bits, hvalue, more, hrest, -⟩ := htotal
          rw [List.cons_append, writeOperatorValues_scalar shape hscalar]
          exact (Operator.succeeds_writeScalar hoperators.1 (by simp [hvalue])).bind fun _ =>
            ih hoperators.2 values (by omega) (by simp [hrest]) hbytes

theorem length_le_of_operatorBits {operators : List Operator} (hoperators : acceptableFrom operators)
    {values : List UInt64} (hbits : (operatorBits operators values).isSome) :
    operators.length ≤ values.length + 2 := by
  fun_induction acceptableFrom operators generalizing values with
  | case1 => exact Nat.zero_le _
  | case2 element =>
      simp only [List.length_cons, List.length_nil]
      omega
  | case3 => simp at hoperators
  | case4 rest => simp [operatorBits] at hbits
  | case5 operator rest hpair harray hblob ih =>
      rw [Bool.and_eq_true] at hoperators
      have hscalar : operator.isScalar :=
        isScalar_of_ne (fun heq => harray heq) (fun heq => hblob heq)
      cases values with
      | nil => simp [operatorBits_scalar_nil hscalar] at hbits
      | cons value values =>
          obtain ⟨total, htotal⟩ := Option.isSome_iff_exists.mp hbits
          simp only [operatorBits_scalar hscalar, Option.bind_eq_bind, Option.bind_eq_some_iff]
            at htotal
          obtain ⟨_, _, more, hmore, -⟩ := htotal
          have hlength := ih hoperators.2 (Option.isSome_of_eq_some hmore)
          simp only [List.length_cons]
          omega

theorem length_le_of_canEncode {shape : Abbrev} (hshape : shape.isAcceptable)
    {values : List UInt64} (hencode : shape.canEncode values) :
    shape.operators.length ≤ values.length + 2 := by
  simp only [isAcceptable, Bool.and_eq_true] at hshape
  by_cases hblob : shape.operators.getLast? = some .blob
  · obtain ⟨head, hhead⟩ := List.getLast?_eq_some_iff.mp hblob
    simp only [canEncode, beforeBlob?, hhead, List.getLast?_append, List.getLast?_singleton,
      Option.some_or, if_true, List.dropLast_concat, Bool.and_eq_true, decide_eq_true_eq] at hencode
    rw [hhead, List.length_append, List.length_singleton]
    omega
  · simp only [canEncode, beforeBlob?, hblob, if_false] at hencode
    exact length_le_of_operatorBits hshape.2 hencode

theorem succeeds_writeValues {shape : Abbrev} (hshape : shape.isAcceptable) {values : List UInt64}
    (hencode : shape.canEncode values) : Succeeds (shape.writeValues values) := by
  simp only [isAcceptable, Bool.and_eq_true] at hshape
  by_cases hblob : shape.operators.getLast? = some .blob
  · obtain ⟨head, hhead⟩ := List.getLast?_eq_some_iff.mp hblob
    simp only [canEncode, beforeBlob?, hhead, List.getLast?_append, List.getLast?_singleton,
      Option.some_or, if_true, List.dropLast_concat, Bool.and_eq_true, decide_eq_true_eq] at hencode
    obtain ⟨⟨hcount, hbits⟩, hbytes⟩ := hencode
    rw [writeValues, hhead]
    exact succeeds_beforeBlob shape (hhead ▸ hshape.2) values hcount hbits hbytes
  · simp only [canEncode, beforeBlob?, hblob, if_false] at hencode
    exact succeeds_of_operatorBits shape hshape.2 values hencode

end Abbrev

end Bitcode
