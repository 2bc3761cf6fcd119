import Bitcode.Proofs.Synthesis.Meaning
import Bitcode.Proofs.Synthesis.Narrowing

namespace Bitcode.Synthesis

open Abbrev (canEncode acceptableFrom minRecordSize)
open Candidates (narrowField)
open Census (Counts FieldTally SizeTally fieldKeys)
open Bitcode.Tree (Record)

theorem forall₂_take_iff {α β : Type} {related : α → β → Prop} {first : List α} {second : List β}
    (hlength : first.length ≤ second.length) :
    List.Forall₂ related first (second.take first.length) ↔
      ∀ (place : Nat) left right, first[place]? = some left → second[place]? = some right →
        related left right := by
  induction first generalizing second with
  | nil => simp
  | cons left first ih =>
      cases second with
      | nil => simp at hlength
      | cons right second =>
          rw [List.length_cons, List.take_succ_cons, List.forall₂_cons,
            ih (Nat.le_of_succ_le_succ hlength)]
          constructor
          · rintro ⟨hhead, htail⟩ (_ | place) other another hother hanother
            · obtain rfl := Option.some.inj hother
              obtain rfl := Option.some.inj hanother
              exact hhead
            · exact htail place other another hother hanother
          · intro hall
            exact ⟨hall 0 left right rfl rfl, fun place => hall (place + 1)⟩

theorem carries_literal_iff {constant value : UInt64} :
    (Operator.literal constant).Carries value ↔ constant = value := by
  rw [Operator.Carries, Operator.scalarBits, Option.isSome_ite]

namespace Spread

variable {spread : Spread} {record : Record}

/-- Each operator of the spread carries its value of the record, and the operators past the size can
encode the values past it. -/
structure Fits (spread : Spread) (record : Record) : Prop where
  length_le : spread.fields.length + minRecordSize ⟨spread.rest⟩ ≤ record.fields.length
  code : spread.code.Carries record.code
  fields : ∀ (place : Nat) operator value, spread.fields[place]? = some operator →
    record.fields[place]? = some value → operator.Carries value
  rest : canEncode ⟨spread.rest⟩ (record.fields.drop spread.fields.length)

theorem fits_iff_canEncode (hscalar : ∀ operator ∈ spread.taken, operator.isScalar)
    (hlength : spread.fields.length + minRecordSize ⟨spread.rest⟩ ≤ record.fields.length) :
    spread.Fits record ↔ canEncode ⟨spread.taken ++ spread.rest⟩ record.values := by
  rw [Abbrev.canEncode_append hscalar, taken, Record.values, List.length_cons, List.take_succ_cons,
    List.drop_succ_cons, List.forall₂_cons, forall₂_take_iff (by omega)]
  constructor
  · rintro ⟨-, hcode, hfields, hrest⟩
    exact ⟨⟨hcode, hfields⟩, hrest⟩
  · rintro ⟨⟨hcode, hfields⟩, hrest⟩
    exact ⟨hlength, hcode, hfields, hrest⟩

theorem Sound.isScalar (hspread : spread.Sound) : ∀ operator ∈ spread.taken, operator.isScalar :=
  List.forall_mem_cons.mpr
    ⟨hspread.code.1, fun operator hoperator => (hspread.fields operator hoperator).1⟩

theorem canEncode_restore_iff (hspread : spread.Sound)
    (hlength : spread.fields.length + minRecordSize ⟨spread.rest⟩ ≤ record.fields.length) :
    spread.restore.canEncode record.values ↔ spread.Fits record := by
  rw [fits_iff_canEncode hspread.isScalar hlength, restore]
  apply Abbrev.canEncode_simplify hspread.acceptableFrom
  rw [← taken, Abbrev.minRecordSize_append hspread.isScalar, taken, List.length_cons, Record.values,
    List.length_cons]
  omega

/-- A record that the abbreviation can encode fits the spread to its size. -/
theorem fits_of_canEncode {shape : Abbrev} {size : Nat} {isOpen : Bool}
    (hshape : acceptableFrom shape.operators)
    (hspread : ofAbbrev? shape (size + 1) isOpen = some spread)
    (hsize : if isOpen then size ≤ record.fields.length else record.fields.length = size)
    (hencode : shape.canEncode record.values) : spread.Fits record := by
  have hvalues : record.values.length = record.fields.length + 1 := rfl
  cases isOpen with
  | true =>
      rw [if_pos rfl] at hsize
      have htakes := takes_of_takeOperators hshape (of_ofAbbrev?_open hspread)
      have hroom := htakes.minRecordSize_eq
      have hleast : minRecordSize ⟨shape.operators⟩ ≤ record.values.length :=
        Abbrev.minRecordSize_le_of_canEncode hshape hencode
      rw [Abbrev.minRecordSize_append htakes.isScalar, taken, List.length_cons] at hroom
      apply (fits_iff_canEncode htakes.isScalar (by omega)).mpr
      exact (htakes.canEncode_iff (by omega)).mpr hencode
  | false =>
      rw [if_neg Bool.false_ne_true] at hsize
      obtain ⟨hrest, left, htake, hspent⟩ := of_ofAbbrev?_closed hspread
      have htakes := takes_of_takeOperators hshape htake
      have hleft := canEncode_nil_of_spent (takeOperators_sound hshape htake).2 hspent
      have hlength := htakes.length_eq
      rw [taken, List.length_cons] at hlength
      have hempty : minRecordSize ⟨spread.rest⟩ = 0 := by rw [hrest]; rfl
      apply (fits_iff_canEncode htakes.isScalar (by omega)).mpr
      rw [hrest, List.append_nil]
      exact (htakes.canEncode_of_spent hleft).mpr ⟨by omega, hencode⟩

theorem Fits.set (hfits : spread.Fits record) {place : Nat} {operator : Operator}
    (hcarries : ∀ value, record.fields[place]? = some value → operator.Carries value) :
    Fits { spread with fields := spread.fields.set place operator } record := by
  have hset : (spread.fields.set place operator).length = spread.fields.length := List.length_set
  obtain ⟨hlength, hcode, hfields, hrest⟩ := hfits
  rw [← hset] at hlength hrest
  refine ⟨hlength, hcode, ?_, hrest⟩
  intro other found value hfound hvalue
  rw [List.getElem?_set] at hfound
  split_ifs at hfound with hsame hinside
  · subst hsame
    obtain rfl := Option.some.inj hfound
    exact hcarries value hvalue
  · exact hfields other found value hfound hvalue

/-- The spread with a constant code. -/
def withCode (spread : Spread) (code : UInt64) : Spread :=
  { spread with code := .literal code }

/-- The spread with a constant field. -/
def withConstant (spread : Spread) (field value : UInt64) : Spread :=
  { spread with fields := spread.fields.set field.toNat (.literal value) }

/-- The spread with all fields narrowed to the values that were counted. -/
def withNarrowed (spread : Spread) (tally : SizeTally) : Spread :=
  { spread with
    fields := tally.fields.elements.foldl
      (fun fields entry => narrowField fields entry.1 entry.2) spread.fields }

section Sound

variable (hspread : spread.Sound)

include hspread

theorem Sound.withCode (code : UInt64) : (spread.withCode code).Sound :=
  ⟨⟨rfl, rfl⟩, hspread.fields, hspread.rest⟩

theorem Sound.withConstant (field value : UInt64) : (spread.withConstant field value).Sound :=
  hspread.set ⟨rfl, rfl⟩ _

theorem Sound.withNarrowed (tally : SizeTally) : (spread.withNarrowed tally).Sound :=
  ⟨hspread.code, Candidates.isField_foldl_narrowField hspread tally, hspread.rest⟩

end Sound

theorem Fits.withCode (hfits : spread.Fits record) : (spread.withCode record.code).Fits record :=
  ⟨hfits.length_le, carries_literal_iff.mpr rfl, hfits.fields, hfits.rest⟩

theorem Fits.withConstant_iff (hfits : spread.Fits record) {field : UInt64}
    (hfield : field.toNat < spread.fields.length) (value : UInt64) :
    (spread.withConstant field value).Fits record ↔
      record.fields[field.toNat]? = some value := by
  have hlength := hfits.length_le
  have hinside : field.toNat < record.fields.length := by omega
  constructor
  · intro hconstant
    have hcarries := hconstant.fields field.toNat (.literal value) record.fields[field.toNat]
      (List.getElem?_set_self hfield) (List.getElem?_eq_getElem hinside)
    rw [List.getElem?_eq_getElem hinside, carries_literal_iff.mp hcarries]
  · intro hvalue
    apply hfits.set
    intro other hother
    rw [carries_literal_iff]
    exact Option.some.inj (hvalue.symm.trans hother)

theorem Fits.narrowField (hfits : spread.Fits record) {field : UInt64} {tally : FieldTally}
    {records : List Record} (htally : tally.About field records)
    (hrecord : field.toNat < record.fields.length → record ∈ records) :
    Fits { spread with fields := narrowField spread.fields field tally } record := by
  unfold Candidates.narrowField
  split
  · exact hfits
  · split
    · exact hfits
    · rename_i narrowed hnarrow
      apply hfits.set
      intro value hvalue
      obtain ⟨cost, hcost⟩ := exists_encodingCost_of_narrow? hnarrow
      exact carries_of_encodingCost htally.values (isNumeric_of_narrow? hnarrow) hcost
        (hrecord (List.getElem?_eq_some_iff.mp hvalue).1) hvalue

theorem Fits.withNarrowed (hfits : spread.Fits record) {tally : SizeTally} {records : List Record}
    (htally : tally.About records) (hrecord : record ∈ records) :
    (spread.withNarrowed tally).Fits record := by
  refine List.foldlRecOn (motive := fun fields : List Operator => Fits { spread with fields } record)
    _ _ hfits ?_
  intro fields hfields entry hentry
  refine hfields.narrowField (htally.fields.about_of_mem hentry) fun hinside => ?_
  -- Fields are counted up to the cutoff only, and so is one that some record is counted under.
  obtain ⟨other, -, hother⟩ := htally.fields.exists_of_mem hentry
  have hkey := Census.mem_fieldKeys_iff.mpr ⟨(Census.mem_fieldKeys_iff.mp hother).1, hinside⟩
  exact List.mem_filter.mpr ⟨hrecord, decide_eq_true hkey⟩

section Applicable

variable (hspread : spread.Sound) (hfits : spread.Fits record)

include hspread hfits

theorem Fits.canEncode_withCode : (spread.withCode record.code).restore.canEncode record.values :=
  (canEncode_restore_iff (hspread.withCode record.code) hfits.length_le).mpr hfits.withCode

theorem Fits.canEncode_withConstant_iff {field : UInt64}
    (hfield : field.toNat < spread.fields.length) (value : UInt64) :
    (spread.withConstant field value).restore.canEncode record.values ↔
      record.fields[field.toNat]? = some value := by
  have hlength : (spread.withConstant field value).fields.length = spread.fields.length :=
    List.length_set
  rw [canEncode_restore_iff (hspread.withConstant field value) (hlength ▸ hfits.length_le),
    hfits.withConstant_iff hfield]

theorem Fits.canEncode_withNarrowed {tally : SizeTally} {records : List Record}
    (htally : tally.About records) (hrecord : record ∈ records) :
    (spread.withNarrowed tally).restore.canEncode record.values := by
  have hnarrowed := hfits.withNarrowed htally hrecord
  exact (canEncode_restore_iff (hspread.withNarrowed tally) hnarrowed.length_le).mpr hnarrowed

end Applicable

/-- How many operators of the spread are constants. -/
def literalCount (spread : Spread) : Nat :=
  (spread.taken ++ spread.rest).countP Operator.isLiteral

section Distinct

variable (hspread : spread.Sound)

theorem literalCount_eq :
    spread.literalCount =
      (if spread.code.isLiteral then 1 else 0) + spread.fields.countP Operator.isLiteral +
        spread.rest.countP Operator.isLiteral := by
  rw [literalCount, taken, List.countP_append, List.countP_cons]
  omega

theorem countP_isLiteral_set {fields : List Operator} {place : Nat} {operator : Operator}
    (hoperator : fields[place]? = some operator) (hvariable : operator.isLiteral = false)
    (changed : Operator) :
    (fields.set place changed).countP Operator.isLiteral =
      fields.countP Operator.isLiteral + if changed.isLiteral then 1 else 0 := by
  obtain ⟨hinside, rfl⟩ := List.getElem?_eq_some_iff.mp hoperator
  rw [List.countP_set hinside, hvariable]
  rfl

theorem isLiteral_eq_false_of_narrow? {operator narrowed : Operator}
    {values : Census Census.ValueTally} (hnarrow : narrow? operator values = some narrowed) :
    operator.isLiteral = false ∧ narrowed.isLiteral = false := by
  constructor
  · obtain ⟨hrank, -⟩ := narrow?_eq_some_iff.mp hnarrow
    cases operator with
    | literal => simp [Operator.rank] at hrank
    | fixed | vbr | array | char6 | blob => rfl
  · rcases isNumeric_of_narrow? hnarrow with ⟨width, rfl, -⟩ | ⟨width, rfl, -⟩
    · rfl
    · rfl

theorem countP_isLiteral_narrowField (fields : List Operator) (field : UInt64)
    (tally : FieldTally) :
    (narrowField fields field tally).countP Operator.isLiteral =
      fields.countP Operator.isLiteral := by
  unfold narrowField
  split
  · rfl
  · rename_i operator hoperator
    split
    · rfl
    · rename_i narrowed hnarrow
      obtain ⟨hvariable, hnarrowed⟩ := isLiteral_eq_false_of_narrow? hnarrow
      rw [countP_isLiteral_set hoperator hvariable, hnarrowed]
      rfl

theorem literalCount_withNarrowed (tally : SizeTally) :
    (spread.withNarrowed tally).literalCount = spread.literalCount := by
  have hfields : (spread.withNarrowed tally).fields.countP Operator.isLiteral =
      spread.fields.countP Operator.isLiteral := by
    refine List.foldlRecOn (motive := fun fields : List Operator =>
      fields.countP Operator.isLiteral = spread.fields.countP Operator.isLiteral) _ _ rfl ?_
    intro fields hfields entry _
    rw [countP_isLiteral_narrowField, hfields]
  rw [literalCount_eq, literalCount_eq, hfields]
  rfl

theorem literalCount_withCode (hcode : spread.code.isLiteral = false) (code : UInt64) :
    (spread.withCode code).literalCount = spread.literalCount + 1 := by
  rw [literalCount_eq, literalCount_eq, hcode]
  simp only [withCode, Operator.isLiteral, Operator.literal?, Option.isSome_some, if_true,
    Bool.false_eq_true, if_false]
  omega

theorem literalCount_withConstant {field : UInt64} {operator : Operator}
    (hoperator : spread.fields[field.toNat]? = some operator)
    (hvariable : operator.isLiteral = false) (value : UInt64) :
    (spread.withConstant field value).literalCount = spread.literalCount + 1 := by
  have hfields := countP_isLiteral_set hoperator hvariable (.literal value)
  rw [literalCount_eq, literalCount_eq, withConstant, hfields]
  simp only [Operator.isLiteral, Operator.literal?, Option.isSome_some, if_true]
  omega

include hspread

theorem Sound.countP_isLiteral_restore :
    spread.restore.operators.countP Operator.isLiteral = spread.literalCount :=
  Abbrev.countP_isLiteral_simplify hspread.acceptableFrom

theorem Sound.restore_withNarrowed_ne {other : Spread} (hother : other.Sound)
    (hmore : other.literalCount = spread.literalCount + 1) (tally : SizeTally) :
    other.restore ≠ (spread.withNarrowed tally).restore := by
  intro hsame
  have hcount := hother.countP_isLiteral_restore
  rw [hsame, (hspread.withNarrowed tally).countP_isLiteral_restore, literalCount_withNarrowed] at hcount
  omega

theorem Sound.restore_withCode_ne (hcode : spread.code.isLiteral = false) (code field value : UInt64) :
    (spread.withCode code).restore ≠ (spread.withConstant field value).restore := by
  intro hsame
  have hfirst := Abbrev.any_isLiteral_head?_simplify (hspread.withCode code).acceptableFrom
  have hsecond := Abbrev.any_isLiteral_head?_simplify (hspread.withConstant field value).acceptableFrom
  have hbool : true = spread.code.isLiteral :=
    hfirst.symm.trans ((congrArg (·.operators.head?.any Operator.isLiteral) hsame).trans hsecond)
  rw [hcode] at hbool
  cases hbool

end Distinct

end Spread

end Bitcode.Synthesis
