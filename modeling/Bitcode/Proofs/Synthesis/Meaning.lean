import Mathlib
import Bitcode.Proofs.Abbrev.Simplification
import Bitcode.Proofs.Synthesis.Acceptance

namespace Bitcode.Synthesis

open Abbrev (canEncode acceptableFrom minRecordSize)

/-- The operators of so many values are taken one after the other: the next one of the list, or the
element of the array that the list has come to. -/
inductive Takes : Nat → List Operator → List Operator → List Operator → Prop
  | done (operators : List Operator) : Takes 0 operators [] operators
  | next {count : Nat} {operator : Operator} {rest taken left : List Operator}
      (hscalar : operator.isScalar) (hrest : Takes count rest taken left) :
      Takes (count + 1) (operator :: rest) (operator :: taken) left
  | element {count : Nat} {element : Operator} {taken left : List Operator}
      (hscalar : element.isScalar) (hrest : Takes count [.array, element] taken left) :
      Takes (count + 1) [.array, element] (element :: taken) left

section Taking

variable {count : Nat} {operators taken left : List Operator} {values : List UInt64}

theorem isScalar_of_acceptableFrom_pair {element : Operator} {rest : List Operator}
    (hoperators : acceptableFrom (.array :: element :: rest)) : element.isScalar ∧ rest = [] := by
  cases rest with
  | nil =>
      rw [acceptableFrom, Operator.isElement, Bool.and_eq_true, Bool.and_eq_true] at hoperators
      exact ⟨hoperators.1.1, rfl⟩
  | cons other rest => simp [acceptableFrom] at hoperators

theorem ne_array_of_unmatched {operator : Operator} {rest : List Operator}
    (hsingle : operator = .array → rest = [] → False)
    (hpair : ∀ element others, operator = .array → rest = element :: others → False) :
    operator ≠ .array := by
  intro harray
  cases rest with
  | nil => exact hsingle harray rfl
  | cons element others => exact hpair element others harray rfl

theorem takes_of_takeOperators (hoperators : acceptableFrom operators)
    (htake : takeOperators count operators = some (taken, left)) :
    Takes count operators taken left := by
  fun_induction takeOperators count operators generalizing taken left with
  | case1 operators =>
      obtain ⟨rfl, rfl⟩ := Prod.mk.inj (Option.some.inj htake)
      exact .done _
  | case2 | case3 | case5 => simp at htake
  | case4 count element rest ih =>
      obtain ⟨⟨others, remaining⟩, hothers, htake⟩ := Option.bind_eq_some_iff.mp htake
      obtain ⟨rfl, rfl⟩ := Prod.mk.inj (Option.some.inj htake)
      obtain ⟨hscalar, rfl⟩ := isScalar_of_acceptableFrom_pair hoperators
      exact .element hscalar (ih hoperators hothers)
  | case6 count operator rest hsingle hpair hblob ih =>
      obtain ⟨⟨others, remaining⟩, hothers, htake⟩ := Option.bind_eq_some_iff.mp htake
      obtain ⟨rfl, rfl⟩ := Prod.mk.inj (Option.some.inj htake)
      have hscalar := Abbrev.isScalar_of_ne (ne_array_of_unmatched hsingle hpair) hblob
      rw [Abbrev.acceptableFrom_scalar hscalar, Bool.and_eq_true] at hoperators
      exact .next hscalar (ih hoperators.2 hothers)

theorem Takes.length_eq (htakes : Takes count operators taken left) : taken.length = count := by
  induction htakes with
  | done => rfl
  | next _ _ ih | element _ _ ih => rw [List.length_cons, ih]

theorem Takes.isScalar (htakes : Takes count operators taken left) :
    ∀ operator ∈ taken, operator.isScalar := by
  induction htakes with
  | done => simp
  | next hscalar _ ih | element hscalar _ ih => exact List.forall_mem_cons.mpr ⟨hscalar, ih⟩

theorem Takes.canEncode_iff (htakes : Takes count operators taken left)
    (hlength : count ≤ values.length) :
    canEncode ⟨taken ++ left⟩ values ↔ canEncode ⟨operators⟩ values := by
  induction htakes generalizing values with
  | done => rfl
  | next hscalar _ ih =>
      cases values with
      | nil => simp at hlength
      | cons value values =>
          rw [List.cons_append, Abbrev.canEncode_scalar hscalar, Abbrev.canEncode_scalar hscalar,
            ih (Nat.le_of_succ_le_succ hlength)]
  | element hscalar _ ih =>
      cases values with
      | nil => simp at hlength
      | cons value values =>
          rw [List.cons_append, Abbrev.canEncode_scalar hscalar,
            ih (Nat.le_of_succ_le_succ hlength), Abbrev.canEncode_array hscalar,
            Abbrev.canEncode_array hscalar, List.forall_mem_cons]

theorem Takes.minRecordSize_eq (htakes : Takes count operators taken left) :
    minRecordSize ⟨taken ++ left⟩ = max count (minRecordSize ⟨operators⟩) := by
  induction htakes with
  | done operators => simp
  | @next count operator rest taken left hscalar _ ih =>
      have hfront : ∀ other ∈ [operator], other.isScalar := by simpa using hscalar
      have htaken := Abbrev.minRecordSize_append hfront (taken ++ left)
      have hrest := Abbrev.minRecordSize_append hfront rest
      simp only [List.singleton_append, List.length_singleton] at htaken hrest
      rw [List.cons_append, htaken, hrest, ih]
      omega
  | @element count element taken left hscalar _ ih =>
      have hfront : ∀ other ∈ [element], other.isScalar := by simpa using hscalar
      have htaken := Abbrev.minRecordSize_append hfront (taken ++ left)
      simp only [List.singleton_append, List.length_singleton] at htaken
      have hzero : minRecordSize ⟨[.array, element]⟩ = 0 := by
        simp [minRecordSize, List.findIdx_cons, Abbrev.isOpen, Operator.isScalar]
      rw [List.cons_append, htaken, ih, hzero]
      omega

theorem takeOperators_isSome (hoperators : acceptableFrom operators) (hblob : .blob ∉ operators)
    (hlength : count ≤ values.length) (hencode : canEncode ⟨operators⟩ values) :
    (takeOperators count operators).isSome := by
  fun_induction takeOperators count operators generalizing values with
  | case1 => rfl
  | case2 count =>
      obtain rfl := Abbrev.canEncode_nil.mp hencode
      simp at hlength
  | case3 => simp [acceptableFrom] at hoperators
  | case5 => simp at hblob
  | case4 count element rest ih =>
      obtain ⟨hscalar, rfl⟩ := isScalar_of_acceptableFrom_pair hoperators
      cases values with
      | nil => simp at hlength
      | cons value values =>
          rw [Abbrev.canEncode_array hscalar, List.forall_mem_cons] at hencode
          have hothers := ih hoperators hblob (Nat.le_of_succ_le_succ hlength)
            ((Abbrev.canEncode_array hscalar).mpr hencode.2)
          obtain ⟨others, hothers⟩ := Option.isSome_iff_exists.mp hothers
          simp [hothers]
  | case6 count operator rest hsingle hpair hne ih =>
      have hscalar := Abbrev.isScalar_of_ne (ne_array_of_unmatched hsingle hpair) hne
      rw [Abbrev.acceptableFrom_scalar hscalar, Bool.and_eq_true] at hoperators
      cases values with
      | nil => simp at hlength
      | cons value values =>
          rw [Abbrev.canEncode_scalar hscalar] at hencode
          have hothers := ih hoperators.2 (fun hmem => hblob (List.mem_cons_of_mem _ hmem))
            (Nat.le_of_succ_le_succ hlength) hencode.2
          obtain ⟨others, hothers⟩ := Option.isSome_iff_exists.mp hothers
          simp [hothers]

theorem Takes.blob_notMem (htakes : Takes count operators taken left) (hblob : .blob ∉ operators) :
    .blob ∉ left := by
  induction htakes with
  | done => exact hblob
  | next _ _ ih => exact ih fun hmem => hblob (List.mem_cons_of_mem _ hmem)
  | element _ _ ih => exact ih hblob

end Taking

/-- The operators that are left have nothing to say about records of the size. -/
def Spent (left : List Operator) : Prop :=
  left.isEmpty ∨ left.head? = some .array

theorem canEncode_nil_of_spent {left : List Operator} (hleft : acceptableFrom left)
    (hspent : Spent left) : canEncode ⟨left⟩ [] := by
  obtain ⟨front, ending, rfl, hfront, hending⟩ := Abbrev.exists_ending hleft
  cases front with
  | cons first front =>
      have hfirst := hfront first List.mem_cons_self
      rcases hspent with hempty | hhead
      · simp at hempty
      · obtain rfl := Option.some.inj hhead
        simp [Operator.isScalar] at hfirst
  | nil =>
      cases hending with
      | closed => rw [List.append_nil, Abbrev.canEncode_nil]
      | array helement => simp [Abbrev.canEncode_array helement]
      | blob => simp [Abbrev.canEncode_blob]

theorem spent_of_canEncode_nil {left : List Operator} (hleft : acceptableFrom left)
    (hblob : .blob ∉ left) (hencode : canEncode ⟨left⟩ []) : Spent left := by
  obtain ⟨front, ending, rfl, hfront, hending⟩ := Abbrev.exists_ending hleft
  cases front with
  | cons first front =>
      exact absurd hencode (Abbrev.not_canEncode_scalar_nil (hfront first List.mem_cons_self) _)
  | nil =>
      cases hending with
      | closed => exact .inl rfl
      | array helement => exact .inr rfl
      | blob => simp at hblob

section Spread

variable {shape : Abbrev} {size : Nat} {spread : Spread} {values : List UInt64}

/-- The operators of a spread, one for each value. -/
def Spread.taken (spread : Spread) : List Operator :=
  spread.code :: spread.fields

theorem Spread.of_ofAbbrev?_open (hspread : Spread.ofAbbrev? shape size true = some spread) :
    takeOperators size shape.operators = some (spread.taken, spread.rest) := by
  unfold Spread.ofAbbrev? at hspread
  split at hspread
  · simp at hspread
  · simp at hspread
  · rename_i htake
    obtain rfl := Option.some.inj hspread
    exact htake

theorem Spread.of_ofAbbrev?_closed (hspread : Spread.ofAbbrev? shape size false = some spread) :
    spread.rest = [] ∧ ∃ left, takeOperators size shape.operators = some (spread.taken, left) ∧
      Spent left := by
  unfold Spread.ofAbbrev? at hspread
  split at hspread
  · simp at hspread
  · simp at hspread
  · rename_i code fields left htake
    rw [if_neg (by simp)] at hspread
    split_ifs at hspread with hspent
    obtain rfl := Option.some.inj hspread
    exact ⟨rfl, left, htake, hspent⟩

theorem Spread.isSome_ofAbbrev? {taken left : List Operator} (hsize : 1 ≤ size)
    (htake : takeOperators size shape.operators = some (taken, left))
    (hlength : taken.length = size) :
    (Spread.ofAbbrev? shape size true).isSome ∧
      (Spent left → (Spread.ofAbbrev? shape size false).isSome) := by
  cases taken with
  | nil =>
      obtain rfl : 0 = size := hlength
      simp at hsize
  | cons code fields =>
      simp only [Spread.ofAbbrev?, htake]
      refine ⟨rfl, fun hspent => ?_⟩
      rw [Spent] at hspent
      rw [if_neg (by simp), if_pos hspent]
      rfl

theorem Takes.canEncode_of_spent {operators taken left : List Operator}
    (htakes : Takes size operators taken left) (hleft : canEncode ⟨left⟩ []) :
    canEncode ⟨taken⟩ values ↔ values.length = size ∧ canEncode ⟨operators⟩ values := by
  have hsize := htakes.length_eq
  rw [Abbrev.canEncode_scalars htakes.isScalar]
  constructor
  · intro hcarries
    have hlength : values.length = size := hcarries.length_eq.symm.trans hsize
    refine ⟨hlength, (htakes.canEncode_iff hlength.ge).mp ?_⟩
    rw [Abbrev.canEncode_append htakes.isScalar, hsize, ← hlength, List.take_length,
      List.drop_length]
    exact ⟨hcarries, hleft⟩
  · rintro ⟨hlength, hencode⟩
    rw [← htakes.canEncode_iff hlength.ge, Abbrev.canEncode_append htakes.isScalar, hsize,
      ← hlength, List.take_length] at hencode
    exact hencode.1

theorem Spread.canEncode_restore_closed (hshape : acceptableFrom shape.operators)
    (hspread : Spread.ofAbbrev? shape size false = some spread) :
    spread.restore.canEncode values ↔ values.length = size ∧ shape.canEncode values := by
  obtain ⟨hrest, left, htake, hspent⟩ := Spread.of_ofAbbrev?_closed hspread
  have htakes := takes_of_takeOperators hshape htake
  have hleft := canEncode_nil_of_spent (takeOperators_sound hshape htake).2 hspent
  have hrestore : spread.restore = ⟨spread.taken⟩ := by
    rw [Spread.restore, hrest, List.append_nil]
    exact Abbrev.simplify_scalars htakes.isScalar
  rw [hrestore]
  exact htakes.canEncode_of_spent hleft

theorem Spread.canEncode_restore_open (hshape : acceptableFrom shape.operators)
    (hspread : Spread.ofAbbrev? shape size true = some spread) (hsize : size ≤ values.length)
    (hleast : shape.minRecordSize ≤ values.length) :
    spread.restore.canEncode values ↔ shape.canEncode values := by
  have htake := Spread.of_ofAbbrev?_open hspread
  have htakes := takes_of_takeOperators hshape htake
  obtain ⟨htaken, hleft⟩ := takeOperators_sound hshape htake
  have hoperators : acceptableFrom (spread.taken ++ spread.rest) := by
    rw [Abbrev.acceptableFrom_append _ htakes.isScalar, Bool.and_eq_true]
    exact ⟨List.all_eq_true.mpr fun operator hoperator => (htaken operator hoperator).2, hleft⟩
  have hlength : minRecordSize ⟨spread.taken ++ spread.rest⟩ ≤ values.length := by
    rw [htakes.minRecordSize_eq]
    exact Nat.max_le.mpr ⟨hsize, hleast⟩
  exact (Abbrev.canEncode_simplify hoperators hlength).trans (htakes.canEncode_iff hsize)

theorem Spread.isSome_of_canEncode (hshape : acceptableFrom shape.operators)
    (hblob : .blob ∉ shape.operators) (hpos : 1 ≤ size) (hsize : size ≤ values.length)
    (hencode : shape.canEncode values) :
    (Spread.ofAbbrev? shape size true).isSome ∧
      (values.length = size → (Spread.ofAbbrev? shape size false).isSome) := by
  have htake := takeOperators_isSome hshape hblob hsize hencode
  obtain ⟨⟨taken, left⟩, htake⟩ := Option.isSome_iff_exists.mp htake
  have htakes := takes_of_takeOperators hshape htake
  obtain ⟨hopen, hclosed⟩ := Spread.isSome_ofAbbrev? hpos htake htakes.length_eq
  refine ⟨hopen, fun hlength => hclosed ?_⟩
  apply spent_of_canEncode_nil (takeOperators_sound hshape htake).2 (htakes.blob_notMem hblob)
  rw [← htakes.canEncode_iff hsize, Abbrev.canEncode_append htakes.isScalar, htakes.length_eq,
    ← hlength, List.drop_length] at hencode
  exact hencode.2

/-- A spread abbreviation is accepted by readers and means what the abbreviation means: for records
of the size if it is closed, and if it is open for those that have the size and the fewest values
that the abbreviation asks for. Without a blob, only sizes without records have no spread. -/
theorem spread_faithful (hshape : shape.isAcceptable) (hsize : 1 ≤ size) :
    (∀ spread, Spread.ofAbbrev? shape size false = some spread →
      spread.restore.isAcceptable ∧ ∀ values,
        spread.restore.canEncode values ↔ values.length = size ∧ shape.canEncode values) ∧
    (∀ spread, Spread.ofAbbrev? shape size true = some spread →
      spread.restore.isAcceptable ∧ ∀ values,
        size ≤ values.length → shape.minRecordSize ≤ values.length →
          (spread.restore.canEncode values ↔ shape.canEncode values)) ∧
    (.blob ∉ shape.operators →
      (Spread.ofAbbrev? shape size false = none →
        ∀ values, values.length = size → ¬ shape.canEncode values) ∧
      (Spread.ofAbbrev? shape size true = none →
        ∀ values, size ≤ values.length → ¬ shape.canEncode values)) := by
  have hoperators : acceptableFrom shape.operators := by
    rw [Abbrev.isAcceptable, Bool.and_eq_true] at hshape
    exact hshape.2
  refine ⟨?_, ?_, ?_⟩
  · intro spread hspread
    exact ⟨(Spread.sound_of_ofAbbrev? hshape hspread).restore,
      fun values => Spread.canEncode_restore_closed hoperators hspread⟩
  · intro spread hspread
    exact ⟨(Spread.sound_of_ofAbbrev? hshape hspread).restore,
      fun values => Spread.canEncode_restore_open hoperators hspread⟩
  · intro hblob
    constructor
    · intro hnone values hlength hencode
      have hsome := (Spread.isSome_of_canEncode hoperators hblob hsize hlength.ge hencode).2 hlength
      simp [hnone] at hsome
    · intro hnone values hlength hencode
      have hsome := (Spread.isSome_of_canEncode hoperators hblob hsize hlength hencode).1
      simp [hnone] at hsome

end Spread

/-- A field and an array of the same fields. -/
def runShape : Abbrev :=
  ⟨[.literal 1, .vbr 6, .array, .vbr 6]⟩

theorem spread_faithful_runShape :
    runShape.isAcceptable ∧ 1 ≤ 3 ∧
      Spread.ofAbbrev? runShape 3 false = some { code := .literal 1, fields := [.vbr 6, .vbr 6] } ∧
      ∀ values, Abbrev.canEncode ⟨[.literal 1, .vbr 6, .vbr 6]⟩ values ↔
        values.length = 3 ∧ runShape.canEncode values := by
  have hclosed : Spread.ofAbbrev? runShape 3 false =
      some { code := .literal 1, fields := [.vbr 6, .vbr 6] } := by decide
  refine ⟨by decide, by decide, hclosed, ?_⟩
  exact ((spread_faithful (by decide) (by decide)).1 _ hclosed).2

/-- An open spread that stands for shorter records than its abbreviation: the only field before the
array is folded into it. -/
theorem spread_unfaithful_runShape :
    runShape.isAcceptable ∧
      ∃ spread, Spread.ofAbbrev? runShape 1 true = some spread ∧
        spread.restore.canEncode [1] ∧ ¬ runShape.canEncode [1] := by
  refine ⟨by decide, { code := .literal 1, fields := [], rest := [.vbr 6, .array, .vbr 6] }, ?_⟩
  decide

end Bitcode.Synthesis
