import Mathlib
import Bitcode.Abbrev.Basic

namespace Bitcode

open Bits

namespace Operator

/-- The operator has a width that its fields can be read with. -/
def hasValidWidth : Operator → Bool
  | .fixed width => 1 ≤ width.toNat && width.toNat ≤ 63
  | .vbr width => 2 ≤ width.toNat && width.toNat ≤ 32
  | _ => true

/-- The operator can stand for the elements of an array. -/
def isElement (operator : Operator) : Bool :=
  operator.isScalar && !operator.isLiteral

end Operator

namespace Abbrev

/-- All widths are valid, an array has the operator of its elements and nothing else after it, and a
blob has nothing after it. -/
def acceptableFrom : List Operator → Bool
  | [] => true
  | [.array, element] => element.isElement && element.hasValidWidth
  | .array :: _ => false
  | .blob :: rest => rest.isEmpty
  | operator :: rest => operator.hasValidWidth && acceptableFrom rest

theorem isScalar_of_ne {operator : Operator} (harray : operator ≠ .array) (hblob : operator ≠ .blob) :
    operator.isScalar := by
  cases operator <;> simp_all [Operator.isScalar]

theorem acceptableFrom_scalar {operator : Operator} (hscalar : operator.isScalar)
    (rest : List Operator) :
    acceptableFrom (operator :: rest) = (operator.hasValidWidth && acceptableFrom rest) := by
  cases operator with
  | literal | fixed | vbr | char6 => rfl
  | array | blob => simp [Operator.isScalar] at hscalar

/-- In front of a blob all operators stand for one value each. -/
theorem isScalar_of_acceptableFrom_blob {operator : Operator} {head : List Operator}
    (hoperators : acceptableFrom (operator :: (head ++ [.blob]))) : operator.isScalar := by
  cases operator with
  | literal value => rfl
  | fixed width => rfl
  | vbr width => rfl
  | char6 => rfl
  | array =>
      cases head with
      | nil => simp [acceptableFrom, Operator.isElement, Operator.isScalar] at hoperators
      | cons second others =>
          cases others <;> simp [acceptableFrom] at hoperators
  | blob => simp [acceptableFrom] at hoperators

/-- A reader accepts the definition of the abbreviation. -/
def isAcceptable (shape : Abbrev) : Bool :=
  !shape.operators.isEmpty && acceptableFrom shape.operators

theorem isScalar_of_acceptableFrom_array {front back : List Operator}
    (hoperators : acceptableFrom (front ++ .array :: back)) :
    ∀ operator ∈ front, operator.isScalar := by
  induction front with
  | nil => simp
  | cons first front ih =>
      have hfirst : first.isScalar := by
        cases first with
        | literal | fixed | vbr | char6 => rfl
        | array =>
            cases front with
            | nil =>
                cases back <;>
                  simp [acceptableFrom, Operator.isElement, Operator.isScalar] at hoperators
            | cons second front => cases front <;> simp [acceptableFrom] at hoperators
        | blob => simp [acceptableFrom] at hoperators
      rw [List.cons_append, acceptableFrom_scalar hfirst, Bool.and_eq_true] at hoperators
      intro operator hoperator
      rcases List.mem_cons.mp hoperator with rfl | hoperator
      · exact hfirst
      · exact ih hoperators.2 operator hoperator

theorem acceptableFrom_append {front : List Operator} (back : List Operator)
    (hfront : ∀ operator ∈ front, operator.isScalar) :
    acceptableFrom (front ++ back) = (front.all Operator.hasValidWidth && acceptableFrom back) := by
  induction front with
  | nil => rfl
  | cons first front ih =>
      rw [List.cons_append, acceptableFrom_scalar (hfront first List.mem_cons_self),
        ih fun operator hoperator => hfront operator (List.mem_cons_of_mem _ hoperator),
        List.all_cons, Bool.and_assoc]

theorem acceptableFrom_foldIntoArrays {passed operators : List Operator}
    (hoperators : acceptableFrom (passed.reverse ++ operators)) :
    acceptableFrom (foldIntoArrays passed operators) := by
  fun_induction foldIntoArrays passed operators with
  | case1 passed => simpa using hoperators
  | case2 passed element rest ih =>
      apply ih
      have hscalar := isScalar_of_acceptableFrom_array hoperators
      rw [acceptableFrom_append _ hscalar, Bool.and_eq_true] at hoperators
      have hsublist : ∀ operator ∈ (passed.dropWhile (· == element)).reverse,
          operator ∈ passed.reverse := by
        intro operator hoperator
        exact List.mem_reverse.mpr
          ((List.dropWhile_sublist _).mem (List.mem_reverse.mp hoperator))
      rw [List.reverse_cons, List.append_assoc, List.singleton_append,
        acceptableFrom_append _ fun operator hoperator =>
          hscalar operator (hsublist operator hoperator), Bool.and_eq_true]
      refine ⟨List.all_eq_true.mpr fun operator hoperator => ?_, hoperators.2⟩
      exact List.all_eq_true.mp hoperators.1 operator (hsublist operator hoperator)
  | case3 passed operator rest _ ih =>
      apply ih
      simpa using hoperators

theorem foldIntoArrays_ne_nil {passed operators : List Operator}
    (hsome : passed ≠ [] ∨ operators ≠ []) : foldIntoArrays passed operators ≠ [] := by
  fun_induction foldIntoArrays passed operators with
  | case1 passed => simpa using hsome
  | case2 passed element rest ih => exact ih (.inl (List.cons_ne_nil _ _))
  | case3 passed operator rest _ ih => exact ih (.inl (List.cons_ne_nil _ _))

theorem isAcceptable_simplify {shape : Abbrev} (hshape : shape.isAcceptable) :
    shape.simplify.isAcceptable := by
  simp only [isAcceptable, Bool.and_eq_true, Bool.not_eq_true', List.isEmpty_eq_false_iff]
    at hshape ⊢
  exact ⟨foldIntoArrays_ne_nil (.inr hshape.1), acceptableFrom_foldIntoArrays hshape.2⟩

end Abbrev

end Bitcode
