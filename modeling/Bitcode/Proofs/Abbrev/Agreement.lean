import Bitcode.Proofs.Abbrev.Records
import Bitcode.Proofs.Bits.Outcome

namespace Bitcode

open Format Bits Bitstream

theorem Format.Char6.isSome_encode?_decode? {code : UInt64} (hcode : code.toNat < 2 ^ 6) :
    (Char6.encode? ((Char6.decode? code).getD 0)).isSome := by
  have hall : ∀ number < 64,
      (Char6.encode? ((Char6.decode? (UInt64.ofNat number)).getD 0)).isSome := by decide
  simpa using hall code.toNat hcode

namespace Operator

theorem ensures_writeScalar (operator : Operator) (value : UInt64) :
    Ensures (operator.writeScalar value) fun _ => (operator.scalarBits value).isSome := by
  by_cases hnone : (operator.scalarBits value).isNone
  · unfold writeScalar
    rw [if_pos hnone]
    exact Ensures.throw _
  · intro writer next _ _
    simpa [Option.isSome_iff_ne_none] using hnone

theorem appends_writeScalar {operator : Operator} {value : UInt64} {bits : Nat}
    (hbits : operator.scalarBits value = some bits) : Appends (operator.writeScalar value) bits := by
  have hsome : ¬ (operator.scalarBits value).isNone := by simp [hbits]
  unfold writeScalar
  rw [if_neg hsome]
  cases operator with
  | literal constant =>
      simp only [scalarBits, Option.ite_none_right_eq_some, Option.some.injEq] at hbits
      exact hbits.2 ▸ Appends.pure
  | fixed width =>
      simp only [scalarBits] at hbits
      split at hbits
      · rename_i hzero
        simp only [Option.ite_none_right_eq_some, Option.some.injEq] at hbits
        simp only [hzero, if_true]
        exact hbits.2 ▸ Appends.pure
      · rename_i hzero
        simp only [Option.ite_none_left_eq_some, Option.some.injEq] at hbits
        simp only [hzero, if_false]
        exact hbits.2 ▸ (Bits.Writer.appends_emit value _).adaptExcept _
  | vbr width =>
      simp only [scalarBits] at hbits
      split at hbits
      · rename_i hzero
        simp only [Option.ite_none_right_eq_some, Option.some.injEq] at hbits
        simp only [hzero, if_true]
        exact hbits.2 ▸ Appends.pure
      · rename_i hzero
        simp only [hzero, if_false]
        exact Option.some.inj hbits ▸ (Bits.Writer.appends_emitVbr value _).adaptExcept _
  | char6 =>
      obtain ⟨_, -, rfl⟩ := Option.map_eq_some_iff.mp hbits
      exact (Bits.Writer.appends_emit _ 6).adaptExcept _
  | array | blob => simp [scalarBits] at hbits

theorem ensures_readScalar {operator : Operator} (hscalar : operator.isScalar)
    (hnarrow : ∀ width, operator = .fixed width → width.toNat ≤ 32) :
    Ensures operator.readScalar fun value => (operator.scalarBits value).isSome := by
  cases operator with
  | literal constant => exact Ensures.pure (by simp [scalarBits])
  | fixed width =>
      rw [readScalar]
      split
      · rename_i hzero
        exact Ensures.pure (by simp [scalarBits, hzero])
      · rename_i hzero
        refine ((Cursor.ensures_read _).adaptExcept _).mono fun value hvalue => ?_
        have hwide : (2 : Nat) ^ width.toNat ≤ 2 ^ 32 :=
          Nat.pow_le_pow_right (by decide) (hnarrow width rfl)
        have hfits : ¬ (UInt32.size ≤ value.toNat ∨
            (width < 64 ∧ 1 <<< width.toNat ≤ value.toNat)) := by
          rw [UInt32.size, Nat.one_shiftLeft]
          omega
        simp [scalarBits, hzero, hfits]
  | vbr width =>
      rw [readScalar]
      split
      · rename_i hzero
        exact Ensures.pure (by simp [scalarBits, hzero])
      · rename_i hzero
        refine (Ensures.trivial _).mono fun value _ => ?_
        simp [scalarBits, hzero]
  | char6 =>
      refine ((Cursor.ensures_read 6).adaptExcept _).bind fun code hcode => Ensures.pure ?_
      rw [scalarBits, Option.isSome_map]
      exact Char6.isSome_encode?_decode? hcode
  | array | blob => simp [isScalar] at hscalar

end Operator

namespace Abbrev

theorem elementBits_isSome_iff {element : Operator} {values : List UInt64} :
    (elementBits element values).isSome ↔ ∀ value ∈ values, (element.scalarBits value).isSome := by
  refine ⟨scalarBits_isSome_of_elementBits, ?_⟩
  induction values with
  | nil => simp [elementBits]
  | cons first rest ih =>
      intro hall
      obtain ⟨bits, hbits⟩ := Option.isSome_iff_exists.mp (hall first (by simp))
      obtain ⟨more, hmore⟩ := Option.isSome_iff_exists.mp
        (ih fun value hvalue => hall value (by simp [hvalue]))
      simp [elementBits, hbits, hmore]

section CanEncode

theorem canEncode_nil {values : List UInt64} : canEncode ⟨[]⟩ values ↔ values = [] := by
  cases values <;> simp [canEncode, beforeBlob?, encodedBits, operatorBits]

theorem canEncode_array {element : Operator} (helement : element.isScalar) {values : List UInt64} :
    canEncode ⟨[.array, element]⟩ values ↔
      ∀ value ∈ values, (element.scalarBits value).isSome := by
  have hlast : ¬ element = .blob := by
    rintro rfl
    simp [Operator.isScalar] at helement
  rw [← elementBits_isSome_iff]
  cases helements : elementBits element values <;>
    simp [canEncode, beforeBlob?, hlast, encodedBits, operatorBits, helements]

theorem canEncode_blob {values : List UInt64} :
    canEncode ⟨[.blob]⟩ values ↔ ∀ value ∈ values, value ≤ 0xff := by
  simp [canEncode, beforeBlob?, operatorBits]

/-- The first value is for the first operator. -/
theorem canEncode_scalar {operator : Operator} (hscalar : operator.isScalar) (rest : List Operator)
    (value : UInt64) (values : List UInt64) :
    canEncode ⟨operator :: rest⟩ (value :: values) ↔
      (operator.scalarBits value).isSome ∧ canEncode ⟨rest⟩ values := by
  have hsplit : ∀ operators others,
      (operatorBits (operator :: operators) (value :: others)).isSome ↔
        (operator.scalarBits value).isSome ∧ (operatorBits operators others).isSome := by
    intro operators others
    rw [operatorBits_scalar hscalar]
    cases operator.scalarBits value <;> cases operatorBits operators others <;> simp
  by_cases hblob : rest.getLast? = some .blob
  · obtain ⟨head, rfl⟩ := List.getLast?_eq_some_iff.mp hblob
    have hlast : (operator :: (head ++ [.blob])).getLast? = some .blob := by
      rw [← List.cons_append, List.getLast?_concat]
    have hfront : (operator :: (head ++ [.blob])).dropLast = operator :: head := by
      rw [← List.cons_append, List.dropLast_concat]
    simp only [canEncode, beforeBlob?, hlast, hblob, if_true, hfront, List.dropLast_concat,
      List.length_cons, List.take_succ_cons, List.drop_succ_cons, Bool.and_eq_true,
      decide_eq_true_eq, hsplit, Nat.add_le_add_iff_right]
    tauto
  · have hlast : (operator :: rest).getLast? ≠ some .blob := by
      cases rest with
      | nil =>
          rintro hoperator
          simp only [List.getLast?_singleton, Option.some.injEq] at hoperator
          simp [hoperator, Operator.isScalar] at hscalar
      | cons second rest => simpa using hblob
    simp only [canEncode, beforeBlob?, hlast, hblob, if_false, encodedBits, hsplit]

end CanEncode

theorem ensures_writeBlob (values : List UInt64) :
    Ensures (writeBlob values) fun _ => ∀ value ∈ values, value ≤ 0xff := by
  have hbyte : ∀ value, Ensures (writeByte value) fun _ => value ≤ 0xff := by
    intro value
    rw [writeByte]
    split
    · exact Ensures.throw _
    · rename_i hlarge
      exact (Ensures.trivial _).mono fun _ _ => UInt64.not_lt.mp hlarge
  refine (Ensures.trivial _).bind fun _ _ => ?_
  refine (Ensures.trivial _).bind fun _ _ => ?_
  refine (Ensures.forM hbyte).bind fun _ hbytes => ?_
  exact (Ensures.trivial _).mono fun _ _ => hbytes

theorem ensures_writeOperatorValues (shape : Abbrev) {operators : List Operator}
    (hoperators : acceptableFrom operators) (values : List UInt64) :
    Ensures (writeOperatorValues shape operators values) fun _ => canEncode ⟨operators⟩ values := by
  fun_induction acceptableFrom operators generalizing values with
  | case1 =>
      cases values with
      | nil => exact Ensures.pure (canEncode_nil.mpr rfl)
      | cons value values => exact Ensures.throw _
  | case2 element =>
      simp only [Bool.and_eq_true, Operator.isElement] at hoperators
      rw [writeOperatorValues, canEncode_array hoperators.1.1]
      refine (Ensures.trivial _).bind fun _ _ => ?_
      refine (Ensures.forM element.ensures_writeScalar).bind fun _ helements => ?_
      exact (Ensures.trivial _).mono fun _ _ => helements
  | case3 => simp at hoperators
  | case4 rest =>
      have hempty : rest = [] := by simpa using hoperators
      subst hempty
      rw [writeOperatorValues, canEncode_blob]
      refine (ensures_writeBlob values).bind fun _ hbytes => ?_
      exact (Ensures.trivial _).mono fun _ _ => hbytes
  | case5 operator rest hpair harray hblob ih =>
      simp only [Bool.and_eq_true] at hoperators
      have hscalar : operator.isScalar :=
        isScalar_of_ne (fun heq => harray heq) (fun heq => hblob heq)
      cases values with
      | nil =>
          cases operator with
          | array | blob => simp [Operator.isScalar] at hscalar
          | literal | fixed | vbr | char6 => exact Ensures.throw _
      | cons value values =>
          rw [writeOperatorValues_scalar shape hscalar, canEncode_scalar hscalar]
          refine (operator.ensures_writeScalar value).bind fun _ hvalue => ?_
          exact (ih hoperators.2 values).mono fun _ hrest => ⟨hvalue, hrest⟩

theorem appends_elements {element : Operator} {values : List UInt64} {bits : Nat}
    (hbits : elementBits element values = some bits) :
    Appends (values.forM element.writeScalar) bits := by
  induction values generalizing bits with
  | nil =>
      obtain rfl := Option.some.inj hbits
      exact Appends.pure
  | cons value rest ih =>
      simp only [elementBits, Option.bind_eq_bind, Option.bind_eq_some_iff] at hbits
      obtain ⟨first, hfirst, more, hmore, hsum⟩ := hbits
      obtain rfl := Option.some.inj hsum
      exact (Operator.appends_writeScalar hfirst).bind (ih hmore)

theorem appends_writeOperatorValues (shape : Abbrev) {operators : List Operator}
    (hoperators : acceptableFrom operators) {values : List UInt64} {bits : Nat}
    (hbits : operatorBits operators values = some bits) :
    Appends (writeOperatorValues shape operators values) bits := by
  fun_induction acceptableFrom operators generalizing values bits with
  | case1 =>
      cases values with
      | nil =>
          obtain rfl := Option.some.inj hbits
          exact Appends.pure
      | cons value values => simp [operatorBits] at hbits
  | case2 element =>
      simp only [operatorBits, Option.bind_eq_bind, Option.bind_eq_some_iff] at hbits
      obtain ⟨elements, helements, more, hmore, hsum⟩ := hbits
      obtain rfl := Option.some.inj hmore
      obtain rfl := Option.some.inj hsum
      rw [writeOperatorValues, Nat.add_assoc]
      refine ((Bits.Writer.appends_emitVbr _ 6).adaptExcept _).bind ?_
      exact (appends_elements helements).bind Appends.pure
  | case3 => simp at hoperators
  | case4 rest => simp [operatorBits] at hbits
  | case5 operator rest hpair harray hblob ih =>
      simp only [Bool.and_eq_true] at hoperators
      have hscalar : operator.isScalar :=
        isScalar_of_ne (fun heq => harray heq) (fun heq => hblob heq)
      cases values with
      | nil => simp [operatorBits_scalar_nil hscalar] at hbits
      | cons value values =>
          simp only [operatorBits_scalar hscalar, Option.bind_eq_bind, Option.bind_eq_some_iff]
            at hbits
          obtain ⟨first, hfirst, more, hmore, hsum⟩ := hbits
          obtain rfl := Option.some.inj hsum
          rw [writeOperatorValues_scalar shape hscalar]
          exact (Operator.appends_writeScalar hfirst).bind (ih hoperators.2 hmore)

theorem ensures_readMany {readOne : Bitstream.Reading UInt64} {post : UInt64 → Prop}
    (hone : Ensures readOne post) (count : Nat) {before : List UInt64}
    (hbefore : ∀ value ∈ before, post value) :
    Ensures (readMany readOne count before) fun values => ∀ value ∈ values, post value := by
  induction count generalizing before with
  | zero => exact Ensures.pure (by simpa using hbefore)
  | succ count ih =>
      refine hone.bind fun value hvalue => ih ?_
      simpa using ⟨hvalue, hbefore⟩

theorem ensures_readBlob : Ensures readBlob fun values => ∀ value ∈ values, value ≤ 0xff := by
  have hbyte : Ensures (liftM (Cursor.read 8) : Bitstream.Reading UInt64) (· ≤ 0xff) := by
    refine ((Cursor.ensures_read 8).adaptExcept _).mono fun value hvalue => ?_
    rw [UInt64.le_iff_toNat_le]
    exact Nat.le_of_lt_succ hvalue
  refine (Ensures.trivial _).bind fun _ _ => ?_
  refine (Ensures.trivial _).bind fun _ _ => ?_
  refine (ensures_readMany hbyte _ (by simp)).bind fun _ hbytes => ?_
  exact (Ensures.trivial _).bind fun _ _ => Ensures.pure hbytes

theorem ensures_readOperatorValues {operators : List Operator}
    (hoperators : acceptableFrom operators)
    (hnarrow : ∀ width, .fixed width ∈ operators → width.toNat ≤ 32) :
    Ensures (readOperatorValues operators) fun values => canEncode ⟨operators⟩ values := by
  fun_induction acceptableFrom operators with
  | case1 => exact Ensures.pure (canEncode_nil.mpr rfl)
  | case2 element =>
      simp only [Bool.and_eq_true, Operator.isElement] at hoperators
      have helement := Operator.ensures_readScalar hoperators.1.1
        fun width hwidth => hnarrow width (by simp [hwidth])
      rw [readOperatorValues]
      refine (Ensures.trivial _).bind fun _ _ => ?_
      refine (ensures_readMany helement _ (by simp)).bind fun elements helements => ?_
      refine Ensures.pure ?_
      rw [List.append_nil, canEncode_array hoperators.1.1]
      exact helements
  | case3 => simp at hoperators
  | case4 rest =>
      have hempty : rest = [] := by simpa using hoperators
      subst hempty
      rw [readOperatorValues]
      refine ensures_readBlob.bind fun bytes hbytes => Ensures.pure ?_
      rw [List.append_nil, canEncode_blob]
      exact hbytes
  | case5 operator rest hpair harray hblob ih =>
      simp only [Bool.and_eq_true] at hoperators
      have hscalar : operator.isScalar :=
        isScalar_of_ne (fun heq => harray heq) (fun heq => hblob heq)
      have hfirst := Operator.ensures_readScalar hscalar
        fun width hwidth => hnarrow width (by simp [hwidth])
      rw [readOperatorValues_scalar hscalar]
      refine hfirst.bind fun value hvalue => ?_
      refine (ih hoperators.2 fun width hwidth => hnarrow width (by simp [hwidth])).bind
        fun others hothers => Ensures.pure ?_
      exact (canEncode_scalar hscalar _ _ _).mpr ⟨hvalue, hothers⟩

theorem canEncode_eq_isSome_encodedBits {shape : Abbrev} (hblob : .blob ∉ shape.operators)
    (values : List UInt64) : shape.canEncode values = (shape.encodedBits values).isSome := by
  have hlast : shape.operators.getLast? ≠ some .blob :=
    fun hlast => hblob (List.mem_of_getLast? hlast)
  simp only [canEncode, beforeBlob?, hlast, if_false]

theorem writeValues_eq_ok_iff {shape : Abbrev} (hshape : shape.isAcceptable) (values : List UInt64)
    (writer : Bits.Writer) :
    (∃ next, shape.writeValues values writer = .ok () next) ↔ shape.canEncode values := by
  constructor
  · rintro ⟨next, hwrite⟩
    rw [isAcceptable, Bool.and_eq_true] at hshape
    exact ensures_writeOperatorValues shape hshape.2 values hwrite
  · intro hencode
    obtain ⟨_, next, hwrite⟩ := succeeds_writeValues hshape hencode writer
    exact ⟨next, hwrite⟩

theorem encodedBits_eq_some_iff {shape : Abbrev} (hshape : shape.isAcceptable)
    (hblob : .blob ∉ shape.operators) (values : List UInt64) (writer : Bits.Writer) (count : Nat) :
    shape.encodedBits values = some count ↔
      ∃ next, shape.writeValues values writer = .ok () next ∧
        ∃ bits : List Bool, next.bits = writer.bits ++ bits ∧ bits.length = count := by
  have hoperators := hshape
  rw [isAcceptable, Bool.and_eq_true] at hoperators
  have happends : ∀ bits, shape.encodedBits values = some bits →
      Appends (shape.writeValues values) bits :=
    fun bits hbits => appends_writeOperatorValues shape hoperators.2 hbits
  constructor
  · intro hcount
    have hencode : shape.canEncode values := by
      rw [canEncode_eq_isSome_encodedBits hblob, hcount]
      rfl
    obtain ⟨next, hwrite⟩ := (writeValues_eq_ok_iff hshape values writer).mpr hencode
    exact ⟨next, hwrite, happends count hcount hwrite⟩
  · rintro ⟨next, hwrite, bits, hbits, rfl⟩
    have hencode := (writeValues_eq_ok_iff hshape values writer).mp ⟨next, hwrite⟩
    rw [canEncode_eq_isSome_encodedBits hblob] at hencode
    obtain ⟨count, hcount⟩ := Option.isSome_iff_exists.mp hencode
    -- The bits appended are the same ones, so their number is.
    obtain ⟨others, hothers, rfl⟩ := happends count hcount hwrite
    have hsize := congrArg Array.size (hbits.symm.trans hothers)
    simp only [size_append_list, Nat.add_left_cancel_iff] at hsize
    rw [hcount, hsize]

theorem readValues_of_written {shape : Abbrev} (hshape : shape.isAcceptable) {values : List UInt64}
    (hlength : values.length < 2 ^ 64) {writer next : Bits.Writer}
    (hwrite : shape.writeValues values writer = .ok () next) :
    ∃ sought final,
      Cursor.seekBit writer.bitPosition (Cursor.ofBytes next.toBytes) = .ok () sought ∧
      shape.readValues sought = .ok values final ∧ final.position = next.bitPosition := by
  obtain ⟨bits, hbits, hreads⟩ := transmits_writeValues hshape values hlength writer next hwrite
  have hsize : next.bits.size = writer.bits.size + bits.length := by
    rw [hbits, size_append_list]
  have hinside := next.size_le_toBytes
  obtain ⟨sought, hsought, hstands⟩ := Cursor.standsAt_seekBit next.size_toBytes_mod
    (show writer.bitPosition ≤ 8 * next.toBytes.size by rw [Bits.Writer.bitPosition]; omega)
  obtain ⟨final, hfinal, hstop⟩ :=
    hreads next.toBytes (Bits.Writer.holds_toBytes hbits) sought hstands
  refine ⟨sought, final, hsought, hfinal, ?_⟩
  rw [hstop.position_eq, Bits.Writer.bitPosition, hsize]

/-- Sizes, admissibility, writing and reading agree for every abbreviation that a reader accepts. The
count of an array or a blob has 64 bits, so records are read again if they have fewer than `2 ^ 64`
values. -/
theorem coding_agrees {shape : Abbrev} (hshape : shape.isAcceptable) :
    (∀ values writer,
      (∃ next, shape.writeValues values writer = .ok () next) ↔ shape.canEncode values) ∧
    (.blob ∉ shape.operators → ∀ values writer count,
      shape.encodedBits values = some count ↔
        ∃ next, shape.writeValues values writer = .ok () next ∧
          ∃ bits : List Bool, next.bits = writer.bits ++ bits ∧ bits.length = count) ∧
    (∀ values writer next, values.length < 2 ^ 64 →
      shape.writeValues values writer = .ok () next →
        ∃ sought final,
          Cursor.seekBit writer.bitPosition (Cursor.ofBytes next.toBytes) = .ok () sought ∧
          shape.readValues sought = .ok values final ∧ final.position = next.bitPosition) ∧
    ((∀ width, .fixed width ∈ shape.operators → width.toNat ≤ 32) → ∀ cursor values final,
      shape.readValues cursor = .ok values final → shape.canEncode values) := by
  refine ⟨writeValues_eq_ok_iff hshape, encodedBits_eq_some_iff hshape, ?_, ?_⟩
  · intro values writer next hlength hwrite
    exact readValues_of_written hshape hlength hwrite
  · intro hnarrow cursor values final hread
    rw [isAcceptable, Bool.and_eq_true] at hshape
    exact ensures_readOperatorValues hshape.2 hnarrow hread

theorem coding_agrees_from_second_bit :
    isAcceptable ⟨[.literal 3, .fixed 7, .array, .char6]⟩ ∧ isAcceptable ⟨[.vbr 6, .blob]⟩ ∧
    (∃ (next : Bits.Writer) (bits : List Bool),
      writeValues ⟨[.literal 3, .fixed 7, .array, .char6]⟩ [3, 100, 97, 98]
        ⟨#[true]⟩ = .ok () next ∧ next.bits = #[true] ++ bits ∧ bits.length = 25) ∧
    (¬ ∃ next, writeValues ⟨[.literal 3, .fixed 7, .array, .char6]⟩ [3, 128] ⟨#[true]⟩ =
        .ok () next) ∧
    (∃ next sought final, writeValues ⟨[.vbr 6, .blob]⟩ [40, 7, 255] ⟨#[true]⟩ = .ok () next ∧
      Cursor.seekBit 1 (Cursor.ofBytes next.toBytes) = .ok () sought ∧
      readValues ⟨[.vbr 6, .blob]⟩ sought = .ok [40, 7, 255] final ∧
      final.position = next.bitPosition) := by
  have harray : isAcceptable ⟨[.literal 3, .fixed 7, .array, .char6]⟩ := by decide
  have hblob : isAcceptable ⟨[.vbr 6, .blob]⟩ := by decide
  refine ⟨harray, hblob, ?_, ?_, ?_⟩
  · obtain ⟨next, hwrite, bits, hbits⟩ :=
      ((coding_agrees harray).2.1 (by decide) [3, 100, 97, 98] ⟨#[true]⟩ 25).mp (by decide)
    exact ⟨next, bits, hwrite, hbits⟩
  · rw [(coding_agrees harray).1]
    decide
  · obtain ⟨next, hwrite⟩ := ((coding_agrees hblob).1 [40, 7, 255] ⟨#[true]⟩).mpr (by decide)
    obtain ⟨sought, final, hread⟩ :=
      (coding_agrees hblob).2.2.1 [40, 7, 255] ⟨#[true]⟩ next (by decide) hwrite
    exact ⟨next, sought, final, hwrite, hread⟩

end Abbrev

end Bitcode
