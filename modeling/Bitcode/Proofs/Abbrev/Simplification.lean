import Mathlib
import Bitcode.Proofs.Abbrev.Agreement

namespace Bitcode

open Bits

/-- The operator can encode the value. -/
def Operator.Carries (operator : Operator) (value : UInt64) : Prop :=
  (operator.scalarBits value).isSome

namespace Abbrev

section Records

variable {front : List Operator}

theorem not_canEncode_scalar_nil {operator : Operator} (hscalar : operator.isScalar)
    (rest : List Operator) : ¬ canEncode ⟨operator :: rest⟩ [] := by
  intro hencode
  have hlast : (operator :: rest).getLast? = some .blob →
      (operator :: rest).dropLast.length ≠ 0 := by
    intro hlast
    cases rest with
    | nil =>
        obtain rfl := Option.some.inj hlast
        simp [Operator.isScalar] at hscalar
    | cons second rest => simp
  simp only [canEncode, beforeBlob?] at hencode
  split_ifs at hencode with hblob
  · simp only [Bool.and_eq_true, decide_eq_true_eq, List.length_nil, Nat.le_zero] at hencode
    exact hlast hblob hencode.1.1
  · simp [encodedBits, operatorBits_scalar_nil hscalar] at hencode

theorem canEncode_append (hfront : ∀ operator ∈ front, operator.isScalar) (back : List Operator)
    (values : List UInt64) :
    canEncode ⟨front ++ back⟩ values ↔
      List.Forall₂ Operator.Carries front (values.take front.length) ∧
        canEncode ⟨back⟩ (values.drop front.length) := by
  induction front generalizing values with
  | nil => simp
  | cons first front ih =>
      have hfirst := hfront first List.mem_cons_self
      cases values with
      | nil =>
          constructor
          · intro hencode
            exact absurd hencode (not_canEncode_scalar_nil hfirst _)
          · rintro ⟨hcarries, -⟩
            simp at hcarries
      | cons value values =>
          rw [List.cons_append, canEncode_scalar hfirst, List.length_cons, List.take_succ_cons,
            List.drop_succ_cons, List.forall₂_cons,
            ih (fun operator hoperator => hfront operator (List.mem_cons_of_mem _ hoperator)),
            and_assoc]
          rfl

theorem canEncode_scalars (hfront : ∀ operator ∈ front, operator.isScalar) (values : List UInt64) :
    canEncode ⟨front⟩ values ↔ List.Forall₂ Operator.Carries front values := by
  have happend := canEncode_append hfront [] values
  rw [List.append_nil, canEncode_nil, List.drop_eq_nil_iff] at happend
  rw [happend]
  constructor
  · rintro ⟨hcarries, hlength⟩
    rwa [List.take_of_length_le hlength] at hcarries
  · intro hcarries
    have hlength := hcarries.length_eq
    rw [hlength, List.take_length]
    exact ⟨hcarries, Nat.le_refl _⟩

theorem minRecordSize_append (hfront : ∀ operator ∈ front, operator.isScalar)
    (back : List Operator) :
    minRecordSize ⟨front ++ back⟩ = front.length + minRecordSize ⟨back⟩ := by
  have hclosed : front.findIdx isOpen = front.length := by
    rw [List.findIdx_eq_length]
    intro operator hoperator
    simp [isOpen, hfront operator hoperator]
  simp only [minRecordSize]
  rw [List.findIdx_append, hclosed, if_neg (Nat.lt_irrefl _), Nat.add_comm]

end Records

/-- What may stand after the operators for one value each. -/
inductive Ending : List Operator → Prop
  | closed : Ending []
  | array {element : Operator} (helement : element.isScalar) : Ending [.array, element]
  | blob : Ending [.blob]

theorem exists_ending {operators : List Operator} (hoperators : acceptableFrom operators) :
    ∃ front ending, operators = front ++ ending ∧ (∀ operator ∈ front, operator.isScalar) ∧
      Ending ending := by
  fun_induction acceptableFrom operators with
  | case1 => exact ⟨[], [], rfl, by simp, .closed⟩
  | case2 element =>
      rw [Operator.isElement, Bool.and_eq_true, Bool.and_eq_true] at hoperators
      exact ⟨[], _, rfl, by simp, .array hoperators.1.1⟩
  | case3 => simp at hoperators
  | case4 rest =>
      obtain rfl := List.isEmpty_iff.mp hoperators
      exact ⟨[], _, rfl, by simp, .blob⟩
  | case5 operator rest hpair harray hblob ih =>
      rw [Bool.and_eq_true] at hoperators
      obtain ⟨front, ending, rfl, hfront, hending⟩ := ih hoperators.2
      refine ⟨operator :: front, ending, rfl, ?_, hending⟩
      rw [List.forall_mem_cons]
      exact ⟨isScalar_of_ne harray hblob, hfront⟩

theorem minRecordSize_le_of_canEncode {shape : Abbrev} (hshape : acceptableFrom shape.operators)
    {values : List UInt64} (hencode : shape.canEncode values) :
    shape.minRecordSize ≤ values.length := by
  obtain ⟨operators⟩ := shape
  obtain ⟨front, ending, rfl, hfront, hending⟩ := exists_ending hshape
  have htaken := ((canEncode_append hfront ending values).mp hencode).1.length_eq
  have hzero : minRecordSize ⟨ending⟩ = 0 := by
    cases hending with
    | closed => rfl
    | array | blob => simp [minRecordSize, List.findIdx_cons, isOpen, Operator.isScalar]
  rw [List.length_take] at htaken
  rw [minRecordSize_append hfront, hzero]
  omega

section Folding

variable {front : List Operator}

theorem foldIntoArrays_append (hfront : ∀ operator ∈ front, operator.isScalar)
    (passed back : List Operator) :
    foldIntoArrays passed (front ++ back) = foldIntoArrays (front.reverse ++ passed) back := by
  induction front generalizing passed with
  | nil => rfl
  | cons first front ih =>
      have hstep : foldIntoArrays passed (first :: (front ++ back)) =
          foldIntoArrays (first :: passed) (front ++ back) := by
        have hfirst := hfront first List.mem_cons_self
        cases first with
        | literal | fixed | vbr | char6 => rfl
        | array | blob => simp [Operator.isScalar] at hfirst
      rw [List.cons_append, hstep,
        ih fun operator hoperator => hfront operator (List.mem_cons_of_mem _ hoperator)]
      simp

theorem simplify_scalars (hfront : ∀ operator ∈ front, operator.isScalar) :
    simplify ⟨front⟩ = ⟨front⟩ := by
  have hfold := foldIntoArrays_append hfront [] []
  rw [List.append_nil] at hfold
  simp [simplify, hfold, foldIntoArrays]

theorem simplify_blob (hfront : ∀ operator ∈ front, operator.isScalar) :
    simplify ⟨front ++ [.blob]⟩ = ⟨front ++ [.blob]⟩ := by
  simp [simplify, foldIntoArrays_append hfront, foldIntoArrays]

theorem simplify_array (hfront : ∀ operator ∈ front, operator.isScalar) {element : Operator}
    (helement : element.isScalar) :
    simplify ⟨front ++ [.array, element]⟩ =
      ⟨front.rdropWhile (· == element) ++ [.array, element]⟩ := by
  have hlast : foldIntoArrays (.array :: (front.reverse.dropWhile (· == element))) [element] =
      (front.reverse.dropWhile (· == element)).reverse ++ [.array, element] := by
    cases element with
    | literal | fixed | vbr | char6 => simp [foldIntoArrays]
    | array | blob => simp [Operator.isScalar] at helement
  rw [simplify, foldIntoArrays_append hfront, List.append_nil, foldIntoArrays, hlast]
  rfl

end Folding

theorem canEncode_repeats {repeats : List Operator} {element : Operator}
    (hrepeats : ∀ operator ∈ repeats, operator = element) (helement : element.isScalar)
    {values : List UInt64} (hlength : repeats.length ≤ values.length) :
    canEncode ⟨repeats ++ [.array, element]⟩ values ↔ canEncode ⟨[.array, element]⟩ values := by
  induction repeats generalizing values with
  | nil => rfl
  | cons first repeats ih =>
      rw [List.forall_mem_cons] at hrepeats
      obtain ⟨rfl, hrepeats⟩ := hrepeats
      cases values with
      | nil => simp at hlength
      | cons value values =>
          rw [List.cons_append, canEncode_scalar helement,
            ih hrepeats (Nat.le_of_succ_le_succ hlength), canEncode_array helement,
            canEncode_array helement, List.forall_mem_cons]

theorem canEncode_simplify {shape : Abbrev} (hshape : acceptableFrom shape.operators)
    {values : List UInt64} (hlength : shape.minRecordSize ≤ values.length) :
    shape.simplify.canEncode values ↔ shape.canEncode values := by
  obtain ⟨operators⟩ := shape
  obtain ⟨front, ending, rfl, hfront, hending⟩ := exists_ending hshape
  cases hending with
  | closed => rw [List.append_nil, simplify_scalars hfront]
  | blob => rw [simplify_blob hfront]
  | @array element helement =>
      -- The front is the part that is kept, with the operators that are folded after it.
      have hsplit := List.rdropWhile_append_rtakeWhile (p := (· == element)) (l := front)
      set kept := front.rdropWhile (· == element)
      set repeats := front.rtakeWhile (· == element)
      have hkept : ∀ operator ∈ kept, operator.isScalar :=
        fun operator hoperator => hfront operator (hsplit ▸ List.mem_append_left _ hoperator)
      have hrepeats : ∀ operator ∈ repeats, operator = element := by
        intro operator hoperator
        simpa using List.mem_rtakeWhile_imp hoperator
      have hroom : repeats.length ≤ (values.drop kept.length).length := by
        rw [minRecordSize_append hfront, ← hsplit, List.length_append] at hlength
        rw [List.length_drop]
        omega
      rw [simplify_array hfront helement, canEncode_append hkept,
        ← canEncode_repeats hrepeats helement hroom, ← canEncode_append hkept,
        ← List.append_assoc, hsplit]

section NormalForm

variable {shape : Abbrev}

theorem simplify_cases (hshape : acceptableFrom shape.operators) :
    .array ∉ shape.operators ∧ shape.simplify = shape ∨
      ∃ front element, (∀ operator ∈ front, operator.isScalar) ∧ element.isElement ∧
        shape.operators = front ++ [.array, element] ∧
        shape.simplify = ⟨front.rdropWhile (· == element) ++ [.array, element]⟩ := by
  obtain ⟨operators⟩ := shape
  obtain ⟨front, ending, rfl, hfront, hending⟩ := exists_ending hshape
  have hclosed : .array ∉ front := fun hmem => absurd (hfront _ hmem) (by decide)
  cases hending with
  | closed =>
      rw [List.append_nil]
      exact .inl ⟨hclosed, simplify_scalars hfront⟩
  | blob => exact .inl ⟨by simpa using hclosed, simplify_blob hfront⟩
  | @array element helement =>
      rw [acceptableFrom_append _ hfront, acceptableFrom, Bool.and_eq_true, Bool.and_eq_true]
        at hshape
      exact .inr ⟨front, element, hfront, hshape.2.1, rfl, simplify_array hfront helement⟩

theorem isScalar_of_mem_rdropWhile {front : List Operator}
    (hfront : ∀ operator ∈ front, operator.isScalar) (element : Operator) :
    ∀ operator ∈ front.rdropWhile (· == element), operator.isScalar :=
  fun operator hoperator => hfront operator ((List.rdropWhile_prefix _ _).subset hoperator)

theorem simplify_simplify (hshape : acceptableFrom shape.operators) :
    shape.simplify.simplify = shape.simplify := by
  rcases simplify_cases hshape with ⟨-, hsame⟩ | ⟨front, element, hfront, helement, -, hfolded⟩
  · rw [hsame, hsame]
  · rw [Operator.isElement, Bool.and_eq_true] at helement
    rw [hfolded, simplify_array (isScalar_of_mem_rdropWhile hfront element) helement.1,
      List.rdropWhile_idempotent]

theorem minRecordSize_simplify_le (hshape : acceptableFrom shape.operators) :
    shape.simplify.minRecordSize ≤ shape.minRecordSize := by
  rcases simplify_cases hshape with ⟨-, hsame⟩ | ⟨front, element, hfront, -, hoperators, hfolded⟩
  · rw [hsame]
  · obtain rfl : shape = ⟨front ++ [.array, element]⟩ := by rw [← hoperators]
    rw [hfolded, minRecordSize_append hfront,
      minRecordSize_append (isScalar_of_mem_rdropWhile hfront element)]
    exact Nat.add_le_add_right (List.rdropWhile_prefix _ _).length_le _

theorem countP_isLiteral_simplify (hshape : acceptableFrom shape.operators) :
    shape.simplify.operators.countP Operator.isLiteral =
      shape.operators.countP Operator.isLiteral := by
  -- Constants are never folded, since no array has constant elements.
  rcases simplify_cases hshape with ⟨-, hsame⟩ | ⟨front, element, -, helement, hoperators, hfolded⟩
  · rw [hsame]
  · rw [Operator.isElement, Bool.and_eq_true, Bool.not_eq_true'] at helement
    have hnone : (front.rtakeWhile (· == element)).countP Operator.isLiteral = 0 := by
      rw [List.countP_eq_zero]
      intro operator hoperator
      have hrepeat : operator = element := by simpa using List.mem_rtakeWhile_imp hoperator
      rw [hrepeat, helement.2]
      exact Bool.false_ne_true
    rw [hfolded, hoperators, List.countP_append, List.countP_append]
    nth_rewrite 2 [← List.rdropWhile_append_rtakeWhile (p := (· == element)) (l := front)]
    rw [List.countP_append, hnone, Nat.add_zero]

theorem any_isLiteral_head?_simplify (hshape : acceptableFrom shape.operators) :
    shape.simplify.operators.head?.any Operator.isLiteral =
      shape.operators.head?.any Operator.isLiteral := by
  rcases simplify_cases hshape with ⟨-, hsame⟩ | ⟨front, element, -, helement, hoperators, hfolded⟩
  · rw [hsame]
  · rw [hfolded, hoperators]
    cases hkept : front.rdropWhile (· == element) with
    | cons first kept =>
        -- What is kept is the beginning of what was there.
        obtain ⟨dropped, rfl⟩ := hkept ▸ List.rdropWhile_prefix (· == element) front
        rfl
    | nil =>
        cases front with
        | nil => rfl
        | cons first front =>
            have hrepeat := List.rdropWhile_eq_nil_iff.mp hkept first List.mem_cons_self
            rw [Operator.isElement, Bool.and_eq_true, Bool.not_eq_true'] at helement
            rw [beq_iff_eq.mp hrepeat]
            exact helement.2.symm

/-- No operator right before an array repeats the array's element. -/
def IsFolded (shape : Abbrev) : Prop :=
  ∀ place operator, shape.operators[place]? = some operator →
    shape.operators[place + 1]? = some .array → shape.operators[place + 2]? ≠ some operator

theorem isFolded_append_array {front : List Operator} (hfront : ∀ operator ∈ front, operator.isScalar)
    {element : Operator} (helement : element.isScalar) (hlast : front.getLast? ≠ some element) :
    IsFolded ⟨front ++ [.array, element]⟩ := by
  intro place operator hoperator harray hrepeat
  -- The array is the only operator that does not stand for one value.
  have hplace : place + 1 = front.length := by
    rcases Nat.lt_trichotomy (place + 1) front.length with hbefore | hplace | hafter
    · rw [List.getElem?_append_left hbefore] at harray
      exact absurd (hfront _ (List.mem_of_getElem? harray)) (by decide)
    · exact hplace
    · rw [List.getElem?_append_right hafter.le] at harray
      obtain ⟨offset, hoffset⟩ := Nat.exists_eq_succ_of_ne_zero (Nat.sub_ne_zero_of_lt hafter)
      rw [hoffset, List.getElem?_cons_succ] at harray
      obtain rfl := List.mem_singleton.mp (List.mem_of_getElem? harray)
      exact absurd helement (by decide)
  rw [List.getElem?_append_left (by omega)] at hoperator
  rw [List.getElem?_append_right (by omega), show place + 2 - front.length = 1 by omega] at hrepeat
  apply hlast
  rw [List.getLast?_eq_getElem?, ← hplace, Nat.add_sub_cancel, hoperator]
  exact hrepeat.symm

theorem isFolded_simplify (hshape : acceptableFrom shape.operators) : shape.simplify.IsFolded := by
  rcases simplify_cases hshape with ⟨hclosed, hsame⟩ | ⟨front, element, hfront, helement, -, hfolded⟩
  · rw [hsame]
    intro place operator _ harray
    exact absurd (List.mem_of_getElem? harray) hclosed
  · rw [Operator.isElement, Bool.and_eq_true] at helement
    rw [hfolded]
    apply isFolded_append_array (isScalar_of_mem_rdropWhile hfront element) helement.1
    intro hlast
    have hsome : front.rdropWhile (· == element) ≠ [] := List.ne_nil_of_mem (List.mem_of_getLast? hlast)
    rw [List.getLast?_eq_some_getLast hsome] at hlast
    exact List.rdropWhile_last_not _ _ hsome (beq_iff_eq.mpr (Option.some.inj hlast))

/-- An acceptable abbreviation is simplified to an acceptable one that nothing more can be folded in.
Its records may be shorter, and of the records with values for all operators it has the same. -/
theorem simplify_normalizes (hshape : shape.isAcceptable) :
    shape.simplify.isAcceptable ∧ shape.simplify.simplify = shape.simplify ∧
      shape.simplify.IsFolded ∧ shape.simplify.minRecordSize ≤ shape.minRecordSize ∧
      ∀ values : List UInt64, shape.minRecordSize ≤ values.length →
        (shape.simplify.canEncode values ↔ shape.canEncode values) := by
  have hoperators := hshape
  rw [isAcceptable, Bool.and_eq_true] at hoperators
  exact ⟨isAcceptable_simplify hshape, simplify_simplify hoperators.2,
    isFolded_simplify hoperators.2, minRecordSize_simplify_le hoperators.2,
    fun _ hlength => canEncode_simplify hoperators.2 hlength⟩

theorem simplify_normalizes_interrupted :
    isAcceptable ⟨[.vbr 6, .char6, .vbr 6, .vbr 6, .array, .vbr 6]⟩ ∧
      simplify ⟨[.vbr 6, .char6, .vbr 6, .vbr 6, .array, .vbr 6]⟩ =
        ⟨[.vbr 6, .char6, .array, .vbr 6]⟩ ∧
      IsFolded ⟨[.vbr 6, .char6, .array, .vbr 6]⟩ ∧
      canEncode ⟨[.vbr 6, .char6, .array, .vbr 6]⟩ [7, 97, 8, 9] ∧
      ∀ values : List UInt64, 4 ≤ values.length →
        (canEncode ⟨[.vbr 6, .char6, .array, .vbr 6]⟩ values ↔
          canEncode ⟨[.vbr 6, .char6, .vbr 6, .vbr 6, .array, .vbr 6]⟩ values) := by
  have hshape : isAcceptable ⟨[.vbr 6, .char6, .vbr 6, .vbr 6, .array, .vbr 6]⟩ := by decide
  obtain ⟨-, -, hfolded, -, hsame⟩ := simplify_normalizes hshape
  exact ⟨hshape, rfl, hfolded, by decide, hsame⟩

end NormalForm

end Abbrev

end Bitcode
