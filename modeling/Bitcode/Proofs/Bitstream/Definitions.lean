import Mathlib
import Bitcode.Proofs.Abbrev.Progress
import Bitcode.Proofs.Bitstream.Sizes

namespace Bitcode

open Format Bits Bitstream

namespace Bits

/-- A reading computation fails wherever the bits of a writing one are held. -/
def Spoils {δ ε α : Type} (writing : EStateM δ Writer Unit) (reading : EStateM ε Cursor α) : Prop :=
  ∀ writer next, writing writer = .ok () next →
    ∃ bits : List Bool, next.bits = writer.bits ++ bits ∧
      ∀ bytes, Holds bytes writer.bits.size bits →
        ∀ cursor, cursor.StandsAt bytes writer.bits.size →
          ∃ cause final, reading cursor = .error cause final

section Spoils

variable {δ ε α β : Type} {firstWrite secondWrite : EStateM δ Writer Unit}
  {firstRead : EStateM ε Cursor α} {secondRead : α → EStateM ε Cursor β}

theorem Transmits.spoils_finish {value : α} (cause : ε)
    (hfirst : Transmits firstWrite firstRead value)
    (hthrow : secondRead value = MonadExcept.throw cause) :
    Spoils firstWrite (firstRead >>= secondRead) := by
  intro writer next hwrite
  obtain ⟨bits, hnext, hreads⟩ := hfirst writer next hwrite
  refine ⟨bits, hnext, fun bytes hholds cursor hcursor => ?_⟩
  obtain ⟨between, hread, -⟩ := hreads bytes hholds cursor hcursor
  refine ⟨cause, between, ?_⟩
  rw [bind_apply_of_ok hread, hthrow]
  rfl

theorem Transmits.spoils_bind {value : α} (hfirst : Transmits firstWrite firstRead value)
    (hsecond : Spoils secondWrite (secondRead value)) :
    Spoils (firstWrite >>= fun _ => secondWrite) (firstRead >>= secondRead) := by
  intro writer next hwrite
  obtain ⟨_, between, hfirstWrite, hsecondWrite⟩ := bind_eq_ok_iff.mp hwrite
  obtain ⟨firstBits, hbetween, hreads⟩ := hfirst writer between hfirstWrite
  obtain ⟨secondBits, hnext, hfails⟩ := hsecond between next hsecondWrite
  have hsize : between.bits.size = writer.bits.size + firstBits.length := by
    rw [hbetween, size_append_list]
  refine ⟨firstBits ++ secondBits, by rw [hnext, hbetween, append_list_assoc], ?_⟩
  intro bytes hholds cursor hcursor
  obtain ⟨hholdsFirst, hholdsSecond⟩ := holds_append.mp hholds
  obtain ⟨middle, hread, hmiddle⟩ := hreads bytes hholdsFirst cursor hcursor
  rw [← hsize] at hholdsSecond hmiddle
  obtain ⟨cause, final, hfail⟩ := hfails bytes hholdsSecond middle hmiddle
  exact ⟨cause, final, (bind_apply_of_ok hread).trans hfail⟩

theorem Appends.spoils_throw {count : Nat} (hwrite : Appends firstWrite count) (cause : ε) :
    Spoils firstWrite (MonadExcept.throw cause : EStateM ε Cursor α) := by
  intro writer next hnext
  obtain ⟨bits, hbits, -⟩ := hwrite hnext
  exact ⟨bits, hbits, fun bytes _ cursor _ => ⟨cause, cursor, rfl⟩⟩

theorem Spoils.finish (hfirst : Spoils firstWrite firstRead) :
    Spoils firstWrite (firstRead >>= secondRead) := by
  intro writer next hwrite
  obtain ⟨bits, hnext, hfails⟩ := hfirst writer next hwrite
  refine ⟨bits, hnext, fun bytes hholds cursor hcursor => ?_⟩
  obtain ⟨cause, final, hfail⟩ := hfails bytes hholds cursor hcursor
  exact ⟨cause, final, bind_apply_of_error hfail⟩

/-- Nothing that is written after it mends a failure. -/
theorem Spoils.followed {count : Nat} (hfirst : Spoils firstWrite firstRead)
    (hsecond : Appends secondWrite count) :
    Spoils (firstWrite >>= fun _ => secondWrite) firstRead := by
  intro writer next hwrite
  obtain ⟨_, between, hfirstWrite, hsecondWrite⟩ := bind_eq_ok_iff.mp hwrite
  obtain ⟨firstBits, hbetween, hfails⟩ := hfirst writer between hfirstWrite
  obtain ⟨secondBits, hnext, -⟩ := hsecond hsecondWrite
  refine ⟨firstBits ++ secondBits, by rw [hnext, hbetween, append_list_assoc], ?_⟩
  intro bytes hholds cursor hcursor
  exact hfails bytes (holds_append.mp hholds).1 cursor hcursor

end Spoils

end Bits

namespace Operator

/-- The operator is a field without bits. -/
def IsVoid (operator : Operator) : Prop :=
  operator = .fixed 0 ∨ operator = .vbr 0

/-- The operator as it is read: a field without bits is the constant zero. -/
def settle : Operator → Operator
  | .fixed width => if width = 0 then .literal 0 else .fixed width
  | .vbr width => if width = 0 then .literal 0 else .vbr width
  | operator => operator

theorem settle_of_hasValidWidth {operator : Operator} (hwidth : operator.hasValidWidth) :
    operator.settle = operator := by
  cases operator with
  | fixed width | vbr width =>
      have hzero : width ≠ 0 := by
        rintro rfl
        simp [hasValidWidth] at hwidth
      rw [settle, if_neg hzero]
  | literal | array | char6 | blob => rfl

theorem transmits_settle {operator : Operator} (hwidth : operator.settle.hasValidWidth) :
    Transmits operator.write Operator.read operator.settle := by
  by_cases hsame : operator.settle = operator
  · rw [hsame] at hwidth ⊢
    exact transmits_write hwidth
  · cases operator with
    | fixed width =>
        have hzero : width = 0 := by
          by_contra hne
          exact hsame (if_neg hne)
        subst hzero
        refine (transmits_field 0 1).bind ?_
        refine (transmits_field Encoding.fixed.code 3).bind ?_
        exact (transmits_vbr 0 5).finish rfl
    | vbr width =>
        have hzero : width = 0 := by
          by_contra hne
          exact hsame (if_neg hne)
        subst hzero
        refine (transmits_field 0 1).bind ?_
        refine (transmits_field Encoding.vbr.code 3).bind ?_
        exact (transmits_vbr 0 5).finish rfl
    | literal | array | char6 | blob => exact absurd rfl hsame

theorem spoils_write {operator : Operator} (hwidth : ¬ operator.settle.hasValidWidth) :
    Spoils operator.write Operator.read := by
  cases operator with
  | literal | array | char6 | blob => exact absurd rfl hwidth
  | fixed width =>
      have hzero : width ≠ 0 := by
        rintro rfl
        exact hwidth rfl
      have hwide : 63 < width := by
        simp only [settle, hzero, if_false, hasValidWidth, Bool.and_eq_true, decide_eq_true_eq]
          at hwidth
        have hpositive : width.toNat ≠ 0 := fun hwidth => hzero (UInt64.toNat_inj.mp hwidth)
        have hless : 63 < width.toNat := by omega
        exact UInt64.lt_iff_toNat_lt.mpr hless
      refine (transmits_field 0 1).spoils_bind ?_
      refine (transmits_field Encoding.fixed.code 3).spoils_bind ?_
      refine Transmits.spoils_finish (.definition (.fixedTooWide width)) (transmits_vbr width 5) ?_
      simp only [hzero, hwide, if_false, if_true]
      rfl
  | vbr width =>
      have hzero : width ≠ 0 := by
        rintro rfl
        exact hwidth rfl
      have hbad : ¬ Vbr.ValidWidth width.toNat := by
        simp only [settle, hzero, if_false, hasValidWidth, Bool.and_eq_true, decide_eq_true_eq]
          at hwidth
        exact hwidth
      refine (transmits_field 0 1).spoils_bind ?_
      refine (transmits_field Encoding.vbr.code 3).spoils_bind ?_
      refine Transmits.spoils_finish (.definition (.badVbrWidth width)) (transmits_vbr width 5) ?_
      simp only [hzero, hbad, if_false, not_false_eq_true, if_true]
      rfl

theorem ensures_readEncoded : Ensures readEncoded fun operator => operator.hasValidWidth := by
  refine (Ensures.trivial _).bind fun code _ => ?_
  cases Encoding.ofCode? code with
  | none => exact Ensures.throw _
  | some encoding =>
      cases encoding with
      | fixed =>
          refine (Ensures.trivial _).bind fun width _ => ?_
          refine Ensures.of_if (fun _ => Ensures.pure rfl) fun hzero => ?_
          refine Ensures.of_if (fun _ => Ensures.throw_bind _) fun hwide => Ensures.pure ?_
          have hpositive : width.toNat ≠ 0 := fun hwidth => hzero (UInt64.toNat_inj.mp hwidth)
          have hle : width.toNat ≤ 63 := UInt64.le_iff_toNat_le.mp (UInt64.not_lt.mp hwide)
          simp only [hasValidWidth, Bool.and_eq_true, decide_eq_true_eq]
          omega
      | vbr =>
          refine (Ensures.trivial _).bind fun width _ => ?_
          refine Ensures.of_if (fun _ => Ensures.pure rfl) fun _ => ?_
          refine Ensures.of_if (fun _ => Ensures.throw_bind _) fun hvalid => Ensures.pure ?_
          have hwidth : Vbr.ValidWidth width.toNat := Decidable.not_not.mp hvalid
          simp only [hasValidWidth, Bool.and_eq_true, decide_eq_true_eq]
          exact hwidth
      | array | char6 | blob => exact Ensures.pure rfl

theorem ensures_read : Ensures Operator.read fun operator => operator.hasValidWidth := by
  refine (Ensures.trivial _).bind fun mark _ => ?_
  refine Ensures.of_if (fun _ => ?_) fun _ => ensures_readEncoded
  exact (Ensures.trivial _).bind fun value _ => Ensures.pure rfl

end Operator

namespace Abbrev

/-- Each operator has a valid width and a place where it may stand. -/
def admitted : Bool → List Operator → Bool
  | _, [] => true
  | afterArray, operator :: rest =>
      operator.hasValidWidth && (operator.misplaced? rest.length afterArray).isNone &&
        admitted (operator = .array) rest

section Reading

variable {operators : List Operator} {afterArray : Bool}

theorem transmits_admitted (hadmitted : admitted afterArray (operators.map Operator.settle)) :
    Transmits (operators.forM Operator.write) (readOperators operators.length afterArray)
      (operators.map Operator.settle) := by
  induction operators generalizing afterArray with
  | nil => exact Transmits.pure []
  | cons operator rest ih =>
      simp only [List.map_cons, admitted, List.length_map, Bool.and_eq_true,
        Option.isNone_iff_eq_none] at hadmitted
      obtain ⟨⟨hwidth, hplace⟩, hrest⟩ := hadmitted
      change Transmits (operator.write >>= fun _ => rest.forM Operator.write) _ _
      rw [List.length_cons, readOperators]
      refine (Operator.transmits_settle hwidth).bind ?_
      simp only [hplace]
      exact (ih hrest).finish rfl

theorem spoils_operators (hadmitted : ¬ admitted afterArray (operators.map Operator.settle)) :
    Spoils (operators.forM Operator.write) (readOperators operators.length afterArray) := by
  induction operators generalizing afterArray with
  | nil => exact absurd rfl hadmitted
  | cons operator rest ih =>
      have happends : Appends (rest.forM Operator.write) _ :=
        Appends.forM_foldr Operator.appends_write
      change Spoils (operator.write >>= fun _ => rest.forM Operator.write) _
      rw [List.length_cons, readOperators]
      by_cases hwidth : operator.settle.hasValidWidth
      · refine (Operator.transmits_settle hwidth).spoils_bind ?_
        cases hplace : operator.settle.misplaced? rest.length afterArray with
        | some cause =>
            simp only
            exact happends.spoils_throw _
        | none =>
            have hrest : ¬ admitted (operator.settle = .array) (rest.map Operator.settle) := by
              intro hrest
              apply hadmitted
              simp [admitted, hwidth, hplace, hrest]
            simp only
            exact (ih hrest).finish
      · exact (Operator.spoils_write hwidth).finish.followed happends

theorem ensures_readOperators (remaining : Nat) (afterArray : Bool) :
    Ensures (readOperators remaining afterArray) fun operators =>
      operators.length = remaining ∧ admitted afterArray operators := by
  induction remaining generalizing afterArray with
  | zero => exact Ensures.pure ⟨rfl, rfl⟩
  | succ remaining ih =>
      refine Operator.ensures_read.bind fun operator hwidth => ?_
      cases hplace : operator.misplaced? remaining afterArray with
      | some cause => exact Ensures.throw _
      | none =>
          refine (ih _).bind fun rest hrest => Ensures.pure ?_
          simp [admitted, hrest.1, hrest.2, hwidth, hplace]

theorem ensures_read :
    Ensures Abbrev.read fun shape => shape.operators ≠ [] ∧ admitted false shape.operators ∧
      shape.operators.length < 2 ^ 64 := by
  refine (Ensures.trivial _).bind fun count _ => ?_
  refine Ensures.of_if (fun _ => Ensures.throw_bind _) fun hcount => ?_
  refine (ensures_readOperators _ _).bind fun operators hoperators => Ensures.pure ?_
  refine ⟨?_, hoperators.2, ?_⟩
  · rintro rfl
    exact hcount (UInt64.toNat_inj.mp hoperators.1.symm)
  · rw [hoperators.1]
    exact count.toNat_lt

theorem transmits_settled {shape : Abbrev} (hlength : shape.operators.length < 2 ^ 64)
    (hsome : shape.operators ≠ [])
    (hadmitted : admitted false (shape.operators.map Operator.settle)) :
    Transmits shape.write Abbrev.read ⟨shape.operators.map Operator.settle⟩ := by
  have hcount := UInt64.toNat_ofNat_of_lt' hlength
  have hpositive : UInt64.ofNat shape.operators.length ≠ 0 := by
    intro hzero
    rw [hzero] at hcount
    exact hsome (List.eq_nil_of_length_eq_zero hcount.symm)
  refine (transmits_vbr _ 5).bind ?_
  simp only [hpositive, if_false, hcount]
  exact (transmits_admitted hadmitted).finish rfl

theorem spoils_write {shape : Abbrev} (hlength : shape.operators.length < 2 ^ 64)
    (hbad : shape.operators = [] ∨ ¬ admitted false (shape.operators.map Operator.settle)) :
    Spoils shape.write Abbrev.read := by
  have hcount := UInt64.toNat_ofNat_of_lt' hlength
  refine (transmits_vbr _ 5).spoils_bind ?_
  by_cases hzero : UInt64.ofNat shape.operators.length = 0
  · simp only [hzero, if_true]
    exact ((Appends.forM_foldr Operator.appends_write).spoils_throw _).finish
  · have hsome : shape.operators ≠ [] := by
      intro hempty
      exact hzero (by rw [hempty]; rfl)
    simp only [hzero, if_false, hcount]
    exact (spoils_operators (hbad.resolve_left hsome)).finish

end Reading

/-- Every array stands in the second place from the end, with an operator after it that its elements
can have, and every blob at the end. -/
structure InPlace (operators : List Operator) : Prop where
  array : ∀ index, operators[index]? = some .array → index + 2 = operators.length ∧
    ∃ element, operators[index + 1]? = some element ∧ element.isElement
  blob : ∀ index, operators[index]? = some .blob → index + 1 = operators.length

/-- The rules for definitions. -/
structure WellFormed (shape : Abbrev) : Prop where
  nonempty : shape.operators ≠ []
  places : InPlace shape.operators
  widths : ∀ operator ∈ shape.operators, operator.hasValidWidth

/-- The rules for definitions, but for fields without bits that are not the element of an array. -/
structure WellFormedButForVoids (shape : Abbrev) : Prop where
  nonempty : shape.operators ≠ []
  places : InPlace shape.operators
  widths : ∀ index operator, shape.operators[index]? = some operator →
    operator.hasValidWidth ∨
      operator.IsVoid ∧ ∀ before, index = before + 1 → shape.operators[before]? ≠ some .array

/-- The abbreviation with the constant zero in the place of fields without bits. -/
def settled (shape : Abbrev) : Abbrev :=
  ⟨shape.operators.map Operator.settle⟩

theorem inPlace_cons {operator : Operator} {rest : List Operator} :
    InPlace (operator :: rest) ↔
      (operator = .array →
        rest.length = 1 ∧ ∃ element, rest.head? = some element ∧ element.isElement) ∧
        (operator = .blob → rest.length = 0) ∧ InPlace rest := by
  constructor
  · intro hplaces
    refine ⟨?_, ?_, ⟨?_, ?_⟩⟩
    · rintro rfl
      obtain ⟨hlength, element, helement, hgood⟩ := hplaces.array 0 rfl
      rw [List.getElem?_cons_succ, ← List.head?_eq_getElem?] at helement
      rw [List.length_cons] at hlength
      exact ⟨by omega, element, helement, hgood⟩
    · rintro rfl
      have hlength := hplaces.blob 0 rfl
      rw [List.length_cons] at hlength
      omega
    · intro index hindex
      obtain ⟨hlength, hnext⟩ := hplaces.array (index + 1) hindex
      rw [List.length_cons] at hlength
      exact ⟨by omega, hnext⟩
    · intro index hindex
      have hlength := hplaces.blob (index + 1) hindex
      rw [List.length_cons] at hlength
      omega
  · rintro ⟨harray, hblob, hrest⟩
    constructor
    · intro index hindex
      cases index with
      | zero =>
          obtain ⟨hlength, element, helement, hgood⟩ := harray (Option.some.inj hindex)
          rw [List.head?_eq_getElem?] at helement
          exact ⟨by rw [List.length_cons, hlength], element, helement, hgood⟩
      | succ index =>
          obtain ⟨hlength, hnext⟩ := hrest.array index hindex
          exact ⟨by rw [List.length_cons, ← hlength], hnext⟩
    · intro index hindex
      cases index with
      | zero => rw [List.length_cons, hblob (Option.some.inj hindex)]
      | succ index => rw [List.length_cons, ← hrest.blob index hindex]

theorem admitted_iff {operators : List Operator} {afterArray : Bool} :
    admitted afterArray operators ↔
      InPlace operators ∧ (∀ operator ∈ operators, operator.hasValidWidth) ∧
        (afterArray → ∀ first, operators.head? = some first → first.isElement) := by
  induction operators generalizing afterArray with
  | nil =>
      refine iff_of_true rfl ⟨⟨?_, ?_⟩, ?_, ?_⟩
      all_goals simp
  | cons operator rest ih =>
      have hplace : (operator.misplaced? rest.length afterArray).isNone ↔
          (operator = .array → rest.length = 1) ∧ (operator = .blob → rest.length = 0) ∧
            (afterArray → operator.isElement) := by
        rw [Option.isNone_iff_eq_none]
        constructor
        · exact Operator.of_misplaced_eq_none
        · rintro ⟨harray, hblob, helement⟩
          exact Operator.misplaced?_eq_none harray hblob helement
      rw [admitted, Bool.and_eq_true, Bool.and_eq_true, hplace, ih, inPlace_cons,
        List.forall_mem_cons]
      simp only [List.head?_cons, Option.some.injEq, forall_eq', decide_eq_true_eq]
      constructor
      · rintro ⟨⟨hwidth, harray, hblob, helement⟩, hrest, hwidths, hfirst⟩
        refine ⟨⟨fun heq => ⟨harray heq, ?_⟩, hblob, hrest⟩, ⟨hwidth, hwidths⟩, helement⟩
        -- One operator is left, so there is an element to speak of.
        obtain ⟨element, rfl⟩ := List.length_eq_one_iff.mp (harray heq)
        exact ⟨element, rfl, hfirst heq element rfl⟩
      · rintro ⟨⟨harray, hblob, hrest⟩, ⟨hwidth, hwidths⟩, helement⟩
        refine ⟨⟨hwidth, fun heq => (harray heq).1, hblob, helement⟩, hrest, hwidths, ?_⟩
        intro heq first hfirst
        obtain ⟨-, element, hhead, hgood⟩ := harray heq
        rw [hfirst] at hhead
        rwa [Option.some.inj hhead]

theorem wellFormed_iff {shape : Abbrev} :
    shape.WellFormed ↔ shape.operators ≠ [] ∧ admitted false shape.operators := by
  rw [admitted_iff]
  constructor
  · intro hshape
    exact ⟨hshape.nonempty, hshape.places, hshape.widths, fun hfalse => by simp at hfalse⟩
  · rintro ⟨hsome, hplaces, hwidths, -⟩
    exact ⟨hsome, hplaces, hwidths⟩

theorem WellFormed.settled_eq {shape : Abbrev} (hshape : shape.WellFormed) :
    shape.settled = shape := by
  have hmap : shape.operators.map Operator.settle = shape.operators := by
    conv_rhs => rw [← List.map_id shape.operators]
    exact List.map_congr_left fun operator hoperator =>
      Operator.settle_of_hasValidWidth (hshape.widths operator hoperator)
  rw [settled, hmap]

end Abbrev

namespace Operator

theorem settle_of_isVoid {operator : Operator} (hvoid : operator.IsVoid) :
    operator.settle = .literal 0 := by
  rcases hvoid with rfl | rfl
  · rfl
  · rfl

theorem settle_of_not_isVoid {operator : Operator} (hvoid : ¬ operator.IsVoid) :
    operator.settle = operator := by
  cases operator with
  | fixed width =>
      rw [settle, if_neg]
      rintro rfl
      exact hvoid (.inl rfl)
  | vbr width =>
      rw [settle, if_neg]
      rintro rfl
      exact hvoid (.inr rfl)
  | literal | array | char6 | blob => rfl

theorem settle_eq_iff {operator other : Operator} (hother : ¬ other.isScalar) :
    operator.settle = other ↔ operator = other := by
  by_cases hvoid : operator.IsVoid
  · rw [settle_of_isVoid hvoid]
    constructor
    · rintro rfl
      exact absurd rfl hother
    · rintro rfl
      rcases hvoid with rfl | rfl
      · exact absurd rfl hother
      · exact absurd rfl hother
  · rw [settle_of_not_isVoid hvoid]

theorem hasValidWidth_settle {operator : Operator} :
    operator.settle.hasValidWidth ↔ operator.hasValidWidth ∨ operator.IsVoid := by
  by_cases hvoid : operator.IsVoid
  · rw [settle_of_isVoid hvoid]
    exact iff_of_true rfl (.inr hvoid)
  · rw [settle_of_not_isVoid hvoid, or_iff_left hvoid]

end Operator

namespace Abbrev

section Settled

variable {shape : Abbrev} {index : Nat} {operator other : Operator}

theorem getElem?_settled (hindex : shape.operators[index]? = some operator) :
    shape.settled.operators[index]? = some operator.settle := by
  rw [settled, List.getElem?_map, hindex]
  rfl

theorem exists_of_getElem?_settled (hindex : shape.settled.operators[index]? = some other) :
    ∃ operator, shape.operators[index]? = some operator ∧ operator.settle = other := by
  rw [settled, List.getElem?_map] at hindex
  exact Option.map_eq_some_iff.mp hindex

theorem getElem?_of_settled (hother : ¬ other.isScalar)
    (hindex : shape.settled.operators[index]? = some other) :
    shape.operators[index]? = some other := by
  obtain ⟨operator, hoperator, hsettle⟩ := exists_of_getElem?_settled hindex
  rwa [(Operator.settle_eq_iff hother).mp hsettle] at hoperator

theorem length_settled : shape.settled.operators.length = shape.operators.length :=
  List.length_map _

theorem settled_ne_nil : shape.settled.operators ≠ [] ↔ shape.operators ≠ [] := by
  simp [settled]

theorem WellFormedButForVoids.settled (hshape : shape.WellFormedButForVoids) :
    shape.settled.WellFormed := by
  refine ⟨settled_ne_nil.mpr hshape.nonempty, ⟨?_, ?_⟩, ?_⟩
  · intro index hindex
    have harray := getElem?_of_settled (by decide) hindex
    obtain ⟨hend, element, helement, hgood⟩ := hshape.places.array index harray
    refine ⟨hend.trans length_settled.symm, element.settle, getElem?_settled helement, ?_⟩
    rcases hshape.widths _ _ helement with hwidth | ⟨-, hfree⟩
    · rwa [Operator.settle_of_hasValidWidth hwidth]
    · exact absurd harray (hfree index rfl)
  · intro index hindex
    exact (hshape.places.blob index (getElem?_of_settled (by decide) hindex)).trans
      length_settled.symm
  · intro other hother
    obtain ⟨index, hindex⟩ := List.getElem?_of_mem hother
    obtain ⟨operator, hoperator, rfl⟩ := exists_of_getElem?_settled hindex
    rw [Operator.hasValidWidth_settle]
    exact (hshape.widths index operator hoperator).imp_right And.left

theorem WellFormed.element_of_settled (hshape : shape.settled.WellFormed)
    (harray : shape.operators[index]? = some .array)
    (hnext : shape.operators[index + 1]? = some operator) :
    operator.isElement ∧ ¬ operator.IsVoid := by
  obtain ⟨-, element, helement, hgood⟩ := hshape.places.array index (getElem?_settled harray)
  obtain rfl := Option.some.inj ((getElem?_settled hnext).symm.trans helement)
  by_cases hvoid : operator.IsVoid
  · rw [Operator.settle_of_isVoid hvoid] at hgood
    simp [Operator.isElement, Operator.isLiteral, Operator.literal?] at hgood
  · rw [Operator.settle_of_not_isVoid hvoid] at hgood
    exact ⟨hgood, hvoid⟩

theorem WellFormed.butForVoids (hshape : shape.settled.WellFormed) :
    shape.WellFormedButForVoids := by
  refine ⟨settled_ne_nil.mp hshape.nonempty, ⟨?_, ?_⟩, ?_⟩
  · intro index hindex
    obtain ⟨hend, element, helement, -⟩ := hshape.places.array index (getElem?_settled hindex)
    obtain ⟨operator, hoperator, -⟩ := exists_of_getElem?_settled helement
    exact ⟨hend.trans length_settled, operator, hoperator,
      (hshape.element_of_settled hindex hoperator).1⟩
  · intro index hindex
    exact (hshape.places.blob index (getElem?_settled hindex)).trans length_settled
  · intro index operator hindex
    have hwidth := hshape.widths _ (List.mem_of_getElem? (getElem?_settled hindex))
    rcases Operator.hasValidWidth_settle.mp hwidth with hwidth | hvoid
    · exact .inl hwidth
    · refine .inr ⟨hvoid, ?_⟩
      rintro before rfl harray
      exact (hshape.element_of_settled harray hindex).2 hvoid

theorem wellFormedButForVoids_iff :
    shape.WellFormedButForVoids ↔ shape.settled.WellFormed :=
  ⟨WellFormedButForVoids.settled, WellFormed.butForVoids⟩

end Settled

/-- Where the definition is written, an abbreviation is read, and no bits more or less. Without an
abbreviation the reader fails. -/
def ComesBack (shape : Abbrev) (found : Option Abbrev) : Prop :=
  ∀ writer : Bits.Writer, ∃ next, shape.write writer = .ok () next ∧
    ∀ (final : Bits.Writer) (more : List Bool), final.bits = next.bits ++ more →
      ∃ sought, Cursor.seekBit writer.bitPosition (Cursor.ofBytes final.toBytes) = .ok () sought ∧
        match found with
        | some other =>
            ∃ stop, Abbrev.read sought = .ok other stop ∧ stop.position = next.bitPosition
        | none => ∃ cause stop, Abbrev.read sought = .error cause stop

section ComesBack

variable {shape other : Abbrev} {writer next final : Bits.Writer} {bits more : List Bool}

theorem exists_sought (hnext : next.bits = writer.bits ++ bits)
    (hfinal : final.bits = next.bits ++ more) :
    Holds final.toBytes writer.bits.size bits ∧
      ∃ sought, Cursor.seekBit writer.bitPosition (Cursor.ofBytes final.toBytes) = .ok () sought ∧
        sought.StandsAt final.toBytes writer.bits.size := by
  have hall : final.bits = writer.bits ++ (bits ++ more) := by
    rw [hfinal, hnext, append_list_assoc]
  have hsize : final.bits.size = writer.bits.size + (bits ++ more).length := by
    rw [hall, size_append_list]
  have hinside := final.size_le_toBytes
  refine ⟨(holds_append.mp (Bits.Writer.holds_toBytes hall)).1, ?_⟩
  apply Cursor.standsAt_seekBit final.size_toBytes_mod
  rw [Bits.Writer.bitPosition]
  omega

theorem comesBack_of_transmits (htransmits : Transmits shape.write Abbrev.read other) :
    shape.ComesBack (some other) := by
  intro writer
  obtain ⟨_, next, hwrite⟩ := shape.succeeds_write writer
  refine ⟨next, hwrite, fun final more hfinal => ?_⟩
  obtain ⟨bits, hnext, hreads⟩ := htransmits writer next hwrite
  obtain ⟨hholds, sought, hsought, hstands⟩ := exists_sought hnext hfinal
  obtain ⟨stop, hread, hstop⟩ := hreads _ hholds sought hstands
  refine ⟨sought, hsought, stop, hread, ?_⟩
  rw [hstop.position_eq, Bits.Writer.bitPosition, hnext, size_append_list]

theorem comesBack_of_spoils (hspoils : Spoils shape.write Abbrev.read) : shape.ComesBack none := by
  intro writer
  obtain ⟨_, next, hwrite⟩ := shape.succeeds_write writer
  refine ⟨next, hwrite, fun final more hfinal => ?_⟩
  obtain ⟨bits, hnext, hfails⟩ := hspoils writer next hwrite
  obtain ⟨hholds, sought, hsought, hstands⟩ := exists_sought hnext hfinal
  exact ⟨sought, hsought, hfails _ hholds sought hstands⟩

theorem ComesBack.of_settled (hlength : shape.operators.length < 2 ^ 64)
    (hshape : shape.settled.WellFormed) : shape.ComesBack (some shape.settled) := by
  obtain ⟨hsome, hadmitted⟩ := wellFormed_iff.mp hshape
  exact comesBack_of_transmits (transmits_settled hlength (settled_ne_nil.mp hsome) hadmitted)

theorem ComesBack.of_not_settled (hlength : shape.operators.length < 2 ^ 64)
    (hshape : ¬ shape.settled.WellFormed) : shape.ComesBack none := by
  refine comesBack_of_spoils (spoils_write hlength ?_)
  rw [wellFormed_iff, not_and_or, not_not] at hshape
  exact hshape.imp_left List.map_eq_nil_iff.mp

end ComesBack

/-- What is read where the definition of an abbreviation was written: the abbreviation itself if it
keeps the rules, with constants for its fields without bits if only these break the rules, and
otherwise nothing. The operator count has 64 bits. Whatever is read anywhere keeps the rules, and
comes back. -/
theorem definition_comes_back (shape : Abbrev) :
    (shape.operators.length < 2 ^ 64 →
      (shape.WellFormed → shape.ComesBack (some shape)) ∧
      (shape.WellFormedButForVoids → shape.ComesBack (some shape.settled)) ∧
      (¬ shape.WellFormedButForVoids → shape.ComesBack none)) ∧
    ∀ cursor next, Abbrev.read cursor = .ok shape next →
      shape.WellFormed ∧ shape.ComesBack (some shape) := by
  have hback : shape.operators.length < 2 ^ 64 → shape.WellFormed →
      shape.ComesBack (some shape) := by
    intro hlength hshape
    have hsame := hshape.settled_eq
    rw [← hsame] at hshape
    have hsettled := ComesBack.of_settled hlength hshape
    rwa [hsame] at hsettled
  constructor
  · intro hlength
    refine ⟨hback hlength, ?_, ?_⟩
    · rw [wellFormedButForVoids_iff]
      exact ComesBack.of_settled hlength
    · rw [wellFormedButForVoids_iff]
      exact ComesBack.of_not_settled hlength
  · intro cursor next hread
    obtain ⟨hsome, hadmitted, hlength⟩ := ensures_read hread
    have hshape := wellFormed_iff.mpr ⟨hsome, hadmitted⟩
    exact ⟨hshape, hback hlength hshape⟩

theorem definition_comes_back_voids :
    WellFormedButForVoids ⟨[.vbr 0, .array, .char6]⟩ ∧
      ComesBack ⟨[.vbr 0, .array, .char6]⟩ (some ⟨[.literal 0, .array, .char6]⟩) ∧
      ¬ WellFormedButForVoids ⟨[.char6, .array, .vbr 0]⟩ ∧
      ComesBack ⟨[.char6, .array, .vbr 0]⟩ none := by
  have hfield : WellFormedButForVoids ⟨[.vbr 0, .array, .char6]⟩ := by
    rw [wellFormedButForVoids_iff, wellFormed_iff]
    decide
  have helement : ¬ WellFormedButForVoids ⟨[.char6, .array, .vbr 0]⟩ := by
    rw [wellFormedButForVoids_iff, wellFormed_iff]
    decide
  exact ⟨hfield, ((definition_comes_back _).1 (by decide)).2.1 hfield,
    helement, ((definition_comes_back _).1 (by decide)).2.2 helement⟩

end Abbrev

end Bitcode
