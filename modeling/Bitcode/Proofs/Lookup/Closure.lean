import Mathlib
import Bitcode.Lookup.Trie

/-!
Closure of tries. A trie is closed under the constants of an abbreviation if adding them calls for no
further node: at every node that a record may reach before a constant, there is an edge for the
constant. Additions keep what is closed already up to a position, so each round of additions closes
one more position.
-/

namespace Bitcode.Lookup

namespace Forest

/-- Adding the constants would add no node. The cases are those of `add`. -/
def Closed : Forest → List (Nat × UInt64) → Prop
  | _, [] => True
  | .nil, _ :: _ => False
  | .edge position value _ below others, (next, constant) :: rest =>
      if position < next then
        below.Closed ((next, constant) :: rest) ∧ others.Closed ((next, constant) :: rest)
      else if position = next ∧ value = constant then below.Closed rest
      else if position = next ∧ value < constant then others.Closed ((next, constant) :: rest)
      else False

theorem closed_nil (forest : Forest) : forest.Closed [] := by
  cases forest <;> trivial

section Edge

variable {position next : Nat} {value constant : UInt64} {rows : List Nat} {below others : Forest}
  {rest : List (Nat × UInt64)}

theorem closed_before (hbefore : position < next) :
    (edge position value rows below others).Closed ((next, constant) :: rest) ↔
      below.Closed ((next, constant) :: rest) ∧ others.Closed ((next, constant) :: rest) := by
  rw [Closed, if_pos hbefore]

theorem closed_same :
    (edge position value rows below others).Closed ((position, value) :: rest) ↔
      below.Closed rest := by
  rw [Closed, if_neg (Nat.lt_irrefl _), if_pos ⟨rfl, rfl⟩]

theorem closed_smaller (hvalue : value < constant) :
    (edge position value rows below others).Closed ((position, constant) :: rest) ↔
      others.Closed ((position, constant) :: rest) := by
  have hne : value ≠ constant := UInt64.ne_of_lt hvalue
  rw [Closed, if_neg (Nat.lt_irrefl _), if_neg (by simp [hne]), if_pos ⟨rfl, hvalue⟩]

theorem not_closed_after (hafter : next < position ∨ next = position ∧ constant < value) :
    ¬ (edge position value rows below others).Closed ((next, constant) :: rest) := by
  intro hclosed
  rw [Closed] at hclosed
  rcases hafter with hafter | ⟨rfl, hafter⟩
  · rw [if_neg (by omega), if_neg (by omega), if_neg (by omega)] at hclosed
    exact hclosed
  · have hne : value ≠ constant := (UInt64.ne_of_lt hafter).symm
    have hle : ¬ value < constant := UInt64.lt_asymm hafter
    simp [hne, hle] at hclosed

theorem edge_cases (position next : Nat) (value constant : UInt64) :
    position < next ∨ (position = next ∧ value = constant) ∨
      (position = next ∧ value < constant) ∨
        (next < position ∨ next = position ∧ constant < value) := by
  rcases Nat.lt_trichotomy position next with hposition | hposition | hposition
  · exact .inl hposition
  · by_cases hvalue : value = constant
    · exact .inr (.inl ⟨hposition, hvalue⟩)
    · rcases UInt64.lt_or_lt_of_ne hvalue with hvalue | hvalue
      · exact .inr (.inr (.inl ⟨hposition, hvalue⟩))
      · exact .inr (.inr (.inr (.inr ⟨hposition.symm, hvalue⟩)))
  · exact .inr (.inr (.inr (.inl hposition)))

end Edge

theorem closed_path (literals : List (Nat × UInt64)) : (path literals).Closed literals := by
  induction literals with
  | nil => trivial
  | cons literal rest ih =>
      obtain ⟨position, value⟩ := literal
      simp [path, Closed, ih]

theorem closed_add (forest : Forest) (literals : List (Nat × UInt64)) :
    (forest.add literals).Closed literals := by
  fun_induction add forest literals with
  | case1 forest => exact closed_nil forest
  | case2 literals => exact closed_path literals
  | case3 position value rows below others next constant rest hbefore ihbelow ihothers =>
      rw [Closed, if_pos hbefore]
      exact ⟨ihbelow, ihothers⟩
  | case4 position value rows below others next constant rest hbefore hsame ih =>
      rw [Closed, if_neg hbefore, if_pos hsame]
      exact ih
  | case5 position value rows below others next constant rest hbefore hsame hsmaller ih =>
      rw [Closed, if_neg hbefore, if_neg hsame, if_pos hsmaller]
      exact ih
  | case6 position value rows below others next constant rest hbefore hsame hsmaller =>
      rw [Closed, if_neg (Nat.lt_irrefl _), if_pos ⟨rfl, rfl⟩]
      exact closed_path rest

/-- Constants that come first do not need those that come later. -/
theorem Closed.left {forest : Forest} {first second : List (Nat × UInt64)}
    (hclosed : forest.Closed (first ++ second)) : forest.Closed first := by
  induction forest generalizing first with
  | nil =>
      cases first with
      | nil => trivial
      | cons literal rest => exact hclosed.elim
  | edge position value rows below others ihbelow ihothers =>
      cases first with
      | nil => trivial
      | cons literal rest =>
          obtain ⟨next, constant⟩ := literal
          rw [List.cons_append] at hclosed
          rcases edge_cases position next value constant with
            hbefore | ⟨rfl, rfl⟩ | ⟨rfl, hsmaller⟩ | hafter
          · rw [closed_before hbefore] at hclosed ⊢
            exact ⟨ihbelow hclosed.1, ihothers hclosed.2⟩
          · rw [closed_same] at hclosed ⊢
            exact ihbelow hclosed
          · rw [closed_smaller hsmaller] at hclosed ⊢
            exact ihothers hclosed
          · exact absurd hclosed (not_closed_after hafter)

theorem add_eq_self {forest : Forest} {literals : List (Nat × UInt64)}
    (hclosed : forest.Closed literals) : forest.add literals = forest := by
  fun_induction add forest literals with
  | case1 forest => rfl
  | case2 literals hsome => 
      cases literals with
      | nil => rfl
      | cons literal rest => exact hclosed.elim
  | case3 position value rows below others next constant rest hbefore ihbelow ihothers =>
      rw [Closed, if_pos hbefore] at hclosed
      rw [ihbelow hclosed.1, ihothers hclosed.2]
  | case4 position value rows below others next constant rest hbefore hsame ih =>
      rw [Closed, if_neg hbefore, if_pos hsame] at hclosed
      rw [ih hclosed]
  | case5 position value rows below others next constant rest hbefore hsame hsmaller ih =>
      rw [Closed, if_neg hbefore, if_neg hsame, if_pos hsmaller] at hclosed
      rw [ih hclosed]
  | case6 position value rows below others next constant rest hbefore hsame hsmaller =>
      rw [Closed, if_neg hbefore, if_neg hsame, if_neg hsmaller] at hclosed
      exact hclosed.elim

section Addition

variable {position next : Nat} {value constant : UInt64} {rows : List Nat} {below others : Forest}
  {rest : List (Nat × UInt64)}

theorem add_before (hbefore : position < next) :
    (edge position value rows below others).add ((next, constant) :: rest) =
      .edge position value rows (below.add ((next, constant) :: rest))
        (others.add ((next, constant) :: rest)) := by
  rw [add, if_pos hbefore]

theorem add_same :
    (edge position value rows below others).add ((position, value) :: rest) =
      .edge position value rows (below.add rest) others := by
  rw [add, if_neg (Nat.lt_irrefl _), if_pos ⟨rfl, rfl⟩]

theorem add_smaller (hvalue : value < constant) :
    (edge position value rows below others).add ((position, constant) :: rest) =
      .edge position value rows below (others.add ((position, constant) :: rest)) := by
  have hne : value ≠ constant := UInt64.ne_of_lt hvalue
  rw [add, if_neg (Nat.lt_irrefl _), if_neg (by simp [hne]), if_pos ⟨rfl, hvalue⟩]

theorem add_after (hafter : next < position ∨ next = position ∧ constant < value) :
    (edge position value rows below others).add ((next, constant) :: rest) =
      .edge next constant [] (path rest) (.edge position value rows below others) := by
  rw [add]
  rcases hafter with hafter | ⟨rfl, hafter⟩
  · rw [if_neg (by omega), if_neg (by omega), if_neg (by omega)]
  · have hne : value ≠ constant := (UInt64.ne_of_lt hafter).symm
    have hle : ¬ value < constant := UInt64.lt_asymm hafter
    simp [hne, hle]

end Addition

/-- Everything that is closed up to a position in one trie is closed in the other. -/
def ClosedAlike (bound : Nat) (first second : Forest) : Prop :=
  ∀ literals : List (Nat × UInt64), (∀ literal ∈ literals, literal.1 ≤ bound) →
    first.Closed literals → second.Closed literals

theorem closedAlike_edge {bound position : Nat} {value : UInt64} {rows : List Nat}
    {below others below' others' : Forest} (hbelow : ClosedAlike bound below below')
    (hothers : ClosedAlike bound others others') :
    ClosedAlike bound (.edge position value rows below others)
      (.edge position value rows below' others') := by
  intro literals hbound hclosed
  obtain _ | ⟨⟨next, constant⟩, rest⟩ := literals
  · exact closed_nil _
  rcases edge_cases position next value constant with
    hbefore | ⟨rfl, rfl⟩ | ⟨rfl, hsmaller⟩ | hafter
  · rw [closed_before hbefore] at hclosed ⊢
    exact ⟨hbelow _ hbound hclosed.1, hothers _ hbound hclosed.2⟩
  · rw [closed_same] at hclosed ⊢
    exact hbelow _ (fun literal hliteral => hbound literal (List.mem_cons_of_mem _ hliteral)) hclosed
  · rw [closed_smaller hsmaller] at hclosed ⊢
    exact hothers _ hbound hclosed
  · exact absurd hclosed (not_closed_after hafter)

theorem closedAlike_newEdge {bound position next : Nat} {value constant : UInt64} {rows : List Nat}
    {below others new : Forest} (hnext : bound ≤ next)
    (hafter : next < position ∨ next = position ∧ constant < value) :
    ClosedAlike bound (.edge position value rows below others)
      (.edge next constant [] new (.edge position value rows below others)) := by
  intro literals hbound hclosed
  obtain _ | ⟨⟨target, goal⟩, rest⟩ := literals
  · exact closed_nil _
  have htarget : target ≤ bound := hbound (target, goal) List.mem_cons_self
  rcases edge_cases next target constant goal with
    hbefore | ⟨rfl, rfl⟩ | ⟨rfl, hsmaller⟩ | hbehind
  · omega
  · exact absurd hclosed (not_closed_after hafter)
  · rwa [closed_smaller hsmaller]
  · refine absurd hclosed (not_closed_after ?_)
    rcases hbehind with hbehind | ⟨rfl, hbehind⟩
    · omega
    · rcases hafter with hafter | ⟨rfl, hafter⟩
      · exact .inl hafter
      · exact .inr ⟨rfl, UInt64.lt_trans hbehind hafter⟩

theorem closedAlike_add {forest : Forest} {known later : List (Nat × UInt64)} {bound : Nat}
    (hknown : forest.Closed known) (hlater : ∀ literal ∈ later, bound ≤ literal.1) :
    ClosedAlike bound forest (forest.add (known ++ later)) := by
  -- Nodes are added at later positions only, so nothing before the position is opened up again.
  induction forest generalizing known later with
  | nil =>
      intro literals hbound hclosed
      cases literals with
      | nil => exact closed_nil _
      | cons literal rest => exact hclosed.elim
  | edge position value rows below others ihbelow ihothers =>
      obtain _ | ⟨⟨next, constant⟩, known⟩ := known
      · obtain _ | ⟨⟨next, constant⟩, later⟩ := later
        · exact fun _ _ hclosed => hclosed
        have hnext : bound ≤ next := hlater (next, constant) List.mem_cons_self
        have hrest : ∀ literal ∈ later, bound ≤ literal.1 :=
          fun literal hliteral => hlater literal (List.mem_cons_of_mem _ hliteral)
        rw [List.nil_append]
        rcases edge_cases position next value constant with
          hbefore | ⟨rfl, rfl⟩ | ⟨rfl, hsmaller⟩ | hafter
        · rw [add_before hbefore]
          exact closedAlike_edge (ihbelow (closed_nil _) hlater) (ihothers (closed_nil _) hlater)
        · rw [add_same]
          exact closedAlike_edge (ihbelow (closed_nil _) hrest) fun _ _ hclosed => hclosed
        · rw [add_smaller hsmaller]
          exact closedAlike_edge (fun _ _ hclosed => hclosed) (ihothers (closed_nil _) hlater)
        · rw [add_after hafter]
          exact closedAlike_newEdge hnext hafter
      · rw [List.cons_append]
        rcases edge_cases position next value constant with
          hbefore | ⟨rfl, rfl⟩ | ⟨rfl, hsmaller⟩ | hafter
        · rw [add_before hbefore]
          rw [closed_before hbefore] at hknown
          exact closedAlike_edge (ihbelow hknown.1 hlater) (ihothers hknown.2 hlater)
        · rw [add_same]
          rw [closed_same] at hknown
          exact closedAlike_edge (ihbelow hknown hlater) fun _ _ hclosed => hclosed
        · rw [add_smaller hsmaller]
          rw [closed_smaller hsmaller] at hknown
          exact closedAlike_edge (fun _ _ hclosed => hclosed) (ihothers hknown hlater)
        · exact absurd hknown (not_closed_after hafter)

theorem size_le_add (forest : Forest) (literals : List (Nat × UInt64)) :
    forest.size ≤ (forest.add literals).size ∧
      ((forest.add literals).size = forest.size → forest.Closed literals) := by
  fun_induction add forest literals with
  | case1 forest => exact ⟨Nat.le_refl _, fun _ => closed_nil forest⟩
  | case2 literals hsome =>
      refine ⟨Nat.zero_le _, ?_⟩
      cases literals with
      | nil => exact fun _ => closed_nil _
      | cons literal rest => simp [path, size]
  | case3 position value rows below others next constant rest hbefore ihbelow ihothers =>
      simp only [size, Closed, if_pos hbefore]
      refine ⟨by omega, fun hsize => ⟨ihbelow.2 (by omega), ihothers.2 (by omega)⟩⟩
  | case4 position value rows below others next constant rest hbefore hsame ih =>
      simp only [size, Closed, if_neg hbefore, if_pos hsame]
      exact ⟨by omega, fun hsize => ih.2 (by omega)⟩
  | case5 position value rows below others next constant rest hbefore hsame hsmaller ih =>
      simp only [size, Closed, if_neg hbefore, if_neg hsame, if_pos hsmaller]
      exact ⟨by omega, fun hsize => ih.2 (by omega)⟩
  | case6 position value rows below others next constant rest hbefore hsame hsmaller =>
      simp only [size]
      exact ⟨by omega, fun hsize => by omega⟩

end Forest

theorem mem_literalsFrom {start position : Nat} {value : UInt64} {operators : List Operator} :
    (position, value) ∈ literalsFrom start operators ↔
      ∃ index, position = start + index ∧ index < operators.findIdx Abbrev.isOpen ∧
        operators[index]? = some (.literal value) := by
  fun_induction literalsFrom start operators with
  | case1 => simp
  | case2 | case3 =>
      rw [List.findIdx_cons]
      simp [Abbrev.isOpen, Operator.isScalar]
  | case4 start constant rest ih =>
      have hscalar : Abbrev.isOpen (.literal constant) = false := rfl
      rw [List.mem_cons, ih, List.findIdx_cons, hscalar]
      constructor
      · rintro (hfirst | ⟨index, rfl, hindex, hvalue⟩)
        · obtain ⟨rfl, rfl⟩ := Prod.mk.inj hfirst
          exact ⟨0, rfl, by simp, rfl⟩
        · exact ⟨index + 1, by omega, by simpa using hindex, hvalue⟩
      · rintro ⟨index, rfl, hindex, hvalue⟩
        cases index with
        | zero =>
            have hconstant : constant = value := by simpa using hvalue
            exact .inl (by rw [hconstant]; rfl)
        | succ index => exact .inr ⟨index, by omega, by simpa using hindex, hvalue⟩
  | case5 start operator rest harray hblob hliteral ih =>
      have hscalar : Abbrev.isOpen operator = false := by
        cases operator with
        | literal constant => exact absurd rfl (hliteral constant)
        | array => exact absurd rfl harray
        | blob => exact absurd rfl hblob
        | fixed | vbr | char6 => rfl
      rw [ih, List.findIdx_cons, hscalar]
      constructor
      · rintro ⟨index, rfl, hindex, hvalue⟩
        exact ⟨index + 1, by omega, by simpa using hindex, hvalue⟩
      · rintro ⟨index, rfl, hindex, hvalue⟩
        cases index with
        | zero =>
            have hconstant : operator = .literal value := by simpa using hvalue
            exact absurd hconstant (hliteral value)
        | succ index => exact ⟨index, by omega, by simpa using hindex, hvalue⟩

theorem pairwise_literalsFrom (start : Nat) (operators : List Operator) :
    (literalsFrom start operators).Pairwise fun first second => first.1 < second.1 := by
  fun_induction literalsFrom start operators with
  | case1 | case2 | case3 => exact .nil
  | case4 start constant rest ih =>
      refine List.pairwise_cons.mpr ⟨?_, ih⟩
      rintro ⟨position, value⟩ hmem
      obtain ⟨index, rfl, -, -⟩ := mem_literalsFrom.mp hmem
      change start < start + 1 + index
      omega
  | case5 start operator rest harray hblob hliteral ih => exact ih

theorem mem_literals {shape : Abbrev} {position : Nat} {value : UInt64} :
    (position, value) ∈ literals shape ↔
      position < shape.minRecordSize ∧ shape.operators[position]? = some (.literal value) := by
  rw [literals, mem_literalsFrom, Abbrev.minRecordSize]
  constructor
  · rintro ⟨index, rfl, hindex, hvalue⟩
    rw [Nat.zero_add]
    exact ⟨hindex, hvalue⟩
  · rintro ⟨hposition, hvalue⟩
    exact ⟨position, by omega, hposition, hvalue⟩

theorem filter_append_filter (bound : Nat) {literals : List (Nat × UInt64)}
    (hascending : literals.Pairwise fun first second => first.1 < second.1) :
    literals.filter (·.1 < bound) ++ literals.filter (bound ≤ ·.1) = literals := by
  induction literals with
  | nil => rfl
  | cons literal rest ih =>
      obtain ⟨hfirst, hrest⟩ := List.pairwise_cons.mp hascending
      by_cases hbound : literal.1 < bound
      · have hnot : ¬ bound ≤ literal.1 := by omega
        rw [List.filter_cons_of_pos (by simpa using hbound),
          List.filter_cons_of_neg (by simpa using hnot), List.cons_append, ih hrest]
      · have hnone : rest.filter (·.1 < bound) = [] := by
          rw [List.filter_eq_nil_iff]
          intro later hlater
          have hless := hfirst later hlater
          simp only [decide_eq_true_eq]
          omega
        have hall : rest.filter (bound ≤ ·.1) = rest := by
          rw [List.filter_eq_self]
          intro later hlater
          have hless := hfirst later hlater
          simp only [decide_eq_true_eq]
          omega
        rw [List.filter_cons_of_neg (by simpa using hbound),
          List.filter_cons_of_pos (by simpa using Nat.le_of_not_lt hbound), hnone, hall,
          List.nil_append]

namespace Forest

/-- The constants of the abbreviation before a position call for no further node. -/
def ClosedTo (bound : Nat) (forest : Forest) (shape : Abbrev) : Prop :=
  forest.Closed ((literals shape).filter (·.1 < bound))

theorem closedTo_zero (forest : Forest) (shape : Abbrev) : forest.ClosedTo 0 shape := by
  have hnone : (literals shape).filter (·.1 < 0) = [] := by simp
  rw [ClosedTo, hnone]
  exact closed_nil forest

theorem ClosedTo.closed {bound : Nat} {forest : Forest} {shape : Abbrev}
    (hclosed : forest.ClosedTo bound shape) (hbound : shape.minRecordSize ≤ bound) :
    forest.Closed (literals shape) := by
  have hall : (literals shape).filter (·.1 < bound) = literals shape := by
    rw [List.filter_eq_self]
    rintro ⟨position, value⟩ hliteral
    have hposition := (mem_literals.mp hliteral).1
    exact decide_eq_true (by omega)
  rwa [ClosedTo, hall] at hclosed

theorem literals_split (bound : Nat) (shape : Abbrev) :
    (literals shape).filter (·.1 < bound) ++ (literals shape).filter (bound ≤ ·.1) =
      literals shape :=
  filter_append_filter bound (pairwise_literalsFrom 0 shape.operators)

theorem Closed.closedTo {forest : Forest} {shape : Abbrev} (bound : Nat)
    (hclosed : forest.Closed (literals shape)) : forest.ClosedTo bound shape := by
  rw [← literals_split bound shape] at hclosed
  exact hclosed.left

theorem ClosedTo.alike_add {bound : Nat} {forest : Forest} {shape : Abbrev}
    (hclosed : forest.ClosedTo bound shape) :
    ClosedAlike bound forest (forest.add (literals shape)) := by
  rw [← literals_split bound shape]
  refine closedAlike_add hclosed ?_
  intro literal hliteral
  simpa using (List.mem_filter.mp hliteral).2

theorem ClosedAlike.closedTo {bound least : Nat} {first second : Forest} {shape : Abbrev}
    (halike : ClosedAlike bound first second) (hleast : least ≤ bound + 1)
    (hclosed : first.ClosedTo least shape) : second.ClosedTo least shape := by
  refine halike _ ?_ hclosed
  intro literal hliteral
  have hsmall := (List.mem_filter.mp hliteral).2
  rw [decide_eq_true_eq] at hsmall
  omega

/-- One round of additions. -/
def addRound (forest : Forest) (shapes : List Abbrev) : Forest :=
  shapes.foldl (fun forest shape => forest.add (literals shape)) forest

theorem alike_addRound {bound : Nat} {shapes : List Abbrev} {forest : Forest}
    (hclosed : ∀ shape ∈ shapes, forest.ClosedTo bound shape) :
    ClosedAlike bound forest (forest.addRound shapes) := by
  induction shapes generalizing forest with
  | nil => exact fun _ _ hliterals => hliterals
  | cons shape shapes ih =>
      have halike := (hclosed shape List.mem_cons_self).alike_add
      have hrest := ih fun other hother =>
        halike.closedTo (by omega) (hclosed other (List.mem_cons_of_mem _ hother))
      exact fun literals hbound hliterals => hrest literals hbound (halike literals hbound hliterals)

theorem closedTo_addRound {bound : Nat} {shapes : List Abbrev} {forest : Forest}
    (hclosed : ∀ shape ∈ shapes, forest.ClosedTo bound shape) :
    ∀ shape ∈ shapes, (forest.addRound shapes).ClosedTo (bound + 1) shape := by
  induction shapes generalizing forest with
  | nil => simp
  | cons first shapes ih =>
      have halike := (hclosed first List.mem_cons_self).alike_add
      have hrest : ∀ shape ∈ shapes, (forest.add (literals first)).ClosedTo bound shape :=
        fun other hother =>
          halike.closedTo (by omega) (hclosed other (List.mem_cons_of_mem _ hother))
      intro shape hshape
      rcases List.mem_cons.mp hshape with rfl | hshape
      · -- The later additions of the round keep what this one has closed.
        have hnow := (closed_add forest (literals shape)).closedTo (bound + 1)
        exact (alike_addRound hrest).closedTo (Nat.le_refl _) hnow
      · exact ih hrest shape hshape

end Forest

end Bitcode.Lookup
