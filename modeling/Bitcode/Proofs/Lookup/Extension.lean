import Bitcode.Proofs.Lookup.Nodes

namespace Bitcode.Lookup

/-- The constants of an abbreviation from a position on. -/
def laterLiterals (shape : Abbrev) (index : Nat) : List (Nat × UInt64) :=
  (literals shape).filter (index ≤ ·.1)

section LaterLiterals

variable {shape : Abbrev} {index : Nat}

theorem mem_laterLiterals {position : Nat} {value : UInt64} :
    (position, value) ∈ laterLiterals shape index ↔
      index ≤ position ∧ position < shape.minRecordSize ∧
        shape.operators[position]? = some (.literal value) := by
  rw [laterLiterals, List.mem_filter, mem_literals, decide_eq_true_eq, and_comm]

theorem ascend_laterLiterals (shape : Abbrev) (index : Nat) :
    Forest.Ascend (laterLiterals shape index) :=
  (pairwise_literalsFrom 0 shape.operators).filter _

theorem le_of_mem_laterLiterals {literal : Nat × UInt64}
    (hliteral : literal ∈ laterLiterals shape index) : index ≤ literal.1 :=
  (mem_laterLiterals.mp hliteral).1

theorem laterLiterals_zero (shape : Abbrev) : laterLiterals shape 0 = literals shape :=
  List.filter_eq_self.mpr fun _ _ => by simp

theorem laterLiterals_of_le (hindex : shape.minRecordSize ≤ index) :
    laterLiterals shape index = [] := by
  refine List.eq_nil_iff_forall_not_mem.mpr ?_
  rintro ⟨position, value⟩ hliteral
  have hposition := mem_laterLiterals.mp hliteral
  omega

/-- Constants ascend, so their list is told by its members. -/
theorem eq_of_ascend {first second : List (Nat × UInt64)} (hfirst : Forest.Ascend first)
    (hsecond : Forest.Ascend second) (hmem : ∀ literal, literal ∈ first ↔ literal ∈ second) :
    first = second := by
  refine List.Perm.eq_of_pairwise ?_ hfirst hsecond ?_
  · intro literal later _ _ hless hmore
    exact absurd hmore (Nat.lt_asymm hless)
  · refine (List.perm_ext_iff_of_nodup ?_ ?_).mpr hmem
    · exact hfirst.imp fun hless heq => Nat.ne_of_lt hless (congrArg Prod.fst heq)
    · exact hsecond.imp fun hless heq => Nat.ne_of_lt hless (congrArg Prod.fst heq)

theorem laterLiterals_of_literal {value : UInt64} (hindex : index < shape.minRecordSize)
    (hvalue : shape.operators[index]? = some (.literal value)) :
    laterLiterals shape index = (index, value) :: laterLiterals shape (index + 1) := by
  refine eq_of_ascend (ascend_laterLiterals shape index) ?_ ?_
  · exact List.pairwise_cons.mpr
      ⟨fun _ hliteral => le_of_mem_laterLiterals hliteral, ascend_laterLiterals shape (index + 1)⟩
  · rintro ⟨position, constant⟩
    rw [List.mem_cons, mem_laterLiterals, mem_laterLiterals, Prod.mk.injEq]
    constructor
    · rintro ⟨hle, hliteral⟩
      rcases Nat.eq_or_lt_of_le hle with rfl | hless
      · rw [hvalue] at hliteral
        cases hliteral.2
        exact Or.inl ⟨rfl, rfl⟩
      · exact Or.inr ⟨hless, hliteral⟩
    · rintro (⟨rfl, rfl⟩ | ⟨hless, hliteral⟩)
      · exact ⟨Nat.le_refl _, hindex, hvalue⟩
      · exact ⟨Nat.le_of_lt hless, hliteral⟩

theorem laterLiterals_of_not_literal
    (hother : ∀ value, shape.operators[index]? ≠ some (.literal value)) :
    laterLiterals shape index = laterLiterals shape (index + 1) := by
  refine eq_of_ascend (ascend_laterLiterals shape index) (ascend_laterLiterals shape (index + 1)) ?_
  rintro ⟨position, constant⟩
  rw [mem_laterLiterals, mem_laterLiterals]
  refine and_congr_left fun hliteral => ⟨fun hle => ?_, Nat.le_of_lt⟩
  refine Nat.lt_of_le_of_ne hle fun heq => ?_
  subst heq
  exact hother constant hliteral.2

theorem laterLiterals_eq (shape : Abbrev) (index : Nat) :
    (nextLiteral? shape index = none → laterLiterals shape index = []) ∧
      ∀ next value, nextLiteral? shape index = some (next, value) →
        laterLiterals shape index = laterLiterals shape next ∧
          laterLiterals shape next = (next, value) :: laterLiterals shape (next + 1) := by
  fun_induction nextLiteral? shape index with
  | case1 index hindex value hvalue =>
      refine ⟨fun hnone => (Option.some_ne_none _ hnone).elim, fun next constant hsome => ?_⟩
      cases hsome
      exact ⟨rfl, laterLiterals_of_literal hindex hvalue⟩
  | case2 index hindex hother ih =>
      rw [laterLiterals_of_not_literal hother]
      exact ih
  | case3 index hindex =>
      exact ⟨fun _ => laterLiterals_of_le (Nat.le_of_not_lt hindex), fun _ _ hsome => by cases hsome⟩

end LaterLiterals

namespace Forest

/-- Constants are added below the edges at positions from `skip` up to `index`. -/
def addBelow (index skip : Nat) (literals : List (Nat × UInt64)) : Forest → Forest
  | .nil => .nil
  | .edge position value rows below others =>
      .edge position value rows
        (if skip ≤ position ∧ position < index then below.add literals else below)
        (others.addBelow index skip literals)

/-- Constants are added, but not at the edges of the node before a position. -/
def addFrom (skip : Nat) (literals : List (Nat × UInt64)) : Forest → Forest
  | .nil => path literals
  | .edge position value rows below others =>
      if position < skip then .edge position value rows below (others.addFrom skip literals)
      else (Forest.edge position value rows below others).add literals

/-- What a change leaves, and whether it has more nodes. -/
def grown (before after : Forest) : Forest × Bool :=
  (after, decide (before.size < after.size))

section Addition

variable {forest : Forest} {index skip start : Nat} {value : UInt64}
  {literals rest : List (Nat × UInt64)}

theorem nil_add (literals : List (Nat × UInt64)) : nil.add literals = path literals := by
  cases literals <;> rfl

theorem add_nil (forest : Forest) : forest.add [] = forest := by
  cases forest <;> rfl

theorem addFrom_nil (skip : Nat) (forest : Forest) : forest.addFrom skip [] = forest := by
  induction forest with
  | nil => rfl
  | edge position value rows below others _ ihothers => rw [addFrom, ihothers, add_nil, ite_self]

theorem addBelow_nil (index skip : Nat) (forest : Forest) :
    forest.addBelow index skip [] = forest := by
  induction forest with
  | nil => rfl
  | edge position value rows below others _ ihothers => rw [addBelow, ihothers, add_nil, ite_self]

theorem From.mono (hforest : forest.From start) (hskip : skip ≤ start) : forest.From skip := by
  induction forest with
  | nil => trivial
  | edge position value rows below others _ ihothers =>
      obtain ⟨hposition, hbelow, hothers⟩ := hforest
      exact ⟨Nat.le_trans hskip hposition, hbelow, ihothers hothers⟩

theorem Behind.from {position : Nat} (hbehind : forest.Behind position value)
    (hforest : forest.From start) : forest.From position := by
  induction forest with
  | nil => trivial
  | edge next constant rows below others _ ihothers =>
      obtain ⟨-, hbelow, hothers⟩ := hforest
      refine ⟨?_, hbelow, ihothers hbehind.2 hothers⟩
      rcases hbehind.1 with hless | ⟨hsame, -⟩
      · exact Nat.le_of_lt hless
      · exact Nat.le_of_eq hsame

theorem Sorted.from_edge {position : Nat} {rows : List Nat} {below others : Forest}
    (hsorted : (edge position value rows below others).Sorted)
    (hforest : (edge position value rows below others).From start) :
    (edge position value rows below others).From position :=
  ⟨Nat.le_refl _, hforest.2.1, hsorted.1.from hforest.2.2⟩

theorem From.addFrom_eq_add (hforest : forest.From skip) (literals : List (Nat × UInt64)) :
    forest.addFrom skip literals = forest.add literals := by
  cases forest with
  | nil => exact (nil_add literals).symm
  | edge position value rows below others => rw [addFrom, if_neg (Nat.not_lt.mpr hforest.1)]

theorem From.addBelow_eq_self (hforest : forest.From index) (skip : Nat)
    (literals : List (Nat × UInt64)) : forest.addBelow index skip literals = forest := by
  induction forest with
  | nil => rfl
  | edge position value rows below others _ ihothers =>
      rw [addBelow, if_neg (fun hin => Nat.not_lt.mpr hforest.1 hin.2), ihothers hforest.2.2]

theorem Behind.addBelow {position : Nat} (hforest : forest.Behind position value) :
    (forest.addBelow index skip literals).Behind position value := by
  induction forest with
  | nil => trivial
  | edge next constant rows below others _ ihothers => exact ⟨hforest.1, ihothers hforest.2⟩

theorem Sorted.addBelow (hforest : forest.Sorted) (index skip : Nat)
    (literals : List (Nat × UInt64)) : (forest.addBelow index skip literals).Sorted := by
  induction forest with
  | nil => trivial
  | edge position value rows below others _ ihothers =>
      obtain ⟨hbehind, hbelow, hothers⟩ := hforest
      refine ⟨hbehind.addBelow, ?_, ihothers hothers⟩
      split
      · exact hbelow.add literals
      · exact hbelow

theorem From.addBelow (hforest : forest.From start) (hascend : Ascend literals)
    (hliterals : ∀ literal ∈ literals, index ≤ literal.1) :
    (forest.addBelow index skip literals).From start := by
  induction forest with
  | nil => trivial
  | edge position value rows below others _ ihothers =>
      obtain ⟨hposition, hbelow, hothers⟩ := hforest
      refine ⟨hposition, ?_, ihothers hothers⟩
      split
      · rename_i hin
        exact hbelow.add hascend fun literal hliteral =>
          Nat.le_trans hin.2 (hliterals literal hliteral)
      · exact hbelow

theorem size_le_addBelow (forest : Forest) (index skip : Nat) (literals : List (Nat × UInt64)) :
    forest.size ≤ (forest.addBelow index skip literals).size := by
  induction forest with
  | nil => exact Nat.le_refl _
  | edge position value rows below others _ ihothers =>
      have hbelow := (size_le_add below literals).1
      simp only [Forest.addBelow, size]
      split <;> omega

theorem size_le_addFrom (forest : Forest) (skip : Nat) (literals : List (Nat × UInt64)) :
    forest.size ≤ (forest.addFrom skip literals).size := by
  induction forest with
  | nil => exact Nat.zero_le _
  | edge position value rows below others _ ihothers =>
      rw [addFrom]
      split
      · simp only [size]
        omega
      · exact (size_le_add _ _).1

theorem addFrom_addBelow (hsorted : forest.Sorted) (hforest : forest.From start)
    (hliteral : ∀ literal ∈ literals.head?, index ≤ literal.1) (hskip : skip ≤ index) :
    (forest.addBelow index skip literals).addFrom index literals = forest.addFrom skip literals := by
  obtain _ | ⟨⟨next, constant⟩, rest⟩ := literals
  · rw [addBelow_nil, addFrom_nil, addFrom_nil]
  have hnext : index ≤ next := hliteral _ rfl
  induction forest with
  | nil => rfl
  | edge position value rows below others _ ihothers =>
      have hlater := ihothers hsorted.2.2 hforest.2.2
      have hedge := hsorted.from_edge hforest
      by_cases hbefore : position < index
      · rw [addBelow, addFrom, if_pos hbefore, hlater, addFrom]
        by_cases hkept : position < skip
        · rw [if_pos hkept, if_neg (by omega)]
        · have hfrom := hedge.2.2.mono (Nat.le_of_not_lt hkept)
          rw [if_neg hkept, if_pos ⟨Nat.le_of_not_lt hkept, hbefore⟩,
            add_before (Nat.lt_of_lt_of_le hbefore hnext), hfrom.addFrom_eq_add]
      · have hfrom := hedge.mono (Nat.le_of_not_lt hbefore)
        rw [hfrom.addBelow_eq_self, hfrom.addFrom_eq_add, (hfrom.mono hskip).addFrom_eq_add]

end Addition

section Put

variable {forest : Forest} {position start : Nat} {value : UInt64} {old : List Nat × Forest}

theorem Behind.successor?_eq_none (hforest : forest.Behind position value) :
    forest.successor? position value = none := by
  induction forest with
  | nil => rfl
  | edge next constant rows below others _ ihothers =>
      obtain ⟨hnext, hothers⟩ := hforest
      rw [successor?, if_neg, ihothers hothers]
      rintro ⟨rfl, rfl⟩
      rcases hnext with hless | ⟨-, hless⟩
      · exact Nat.lt_irrefl _ hless
      · exact UInt64.lt_irrefl _ hless

theorem Sorted.of_successor? (hforest : forest.Sorted)
    (hold : forest.successor? position value = some old) : old.2.Sorted := by
  induction forest with
  | nil => cases hold
  | edge next constant rows below others _ ihothers =>
      obtain ⟨-, hbelow, hothers⟩ := hforest
      rw [successor?] at hold
      split at hold
      · cases hold
        exact hbelow
      · exact ihothers hothers hold

theorem From.of_successor? (hforest : forest.From start)
    (hold : forest.successor? position value = some old) : old.2.From (position + 1) := by
  induction forest with
  | nil => cases hold
  | edge next constant rows below others _ ihothers =>
      obtain ⟨-, hbelow, hothers⟩ := hforest
      rw [successor?] at hold
      split at hold
      · rename_i hsame
        cases hold
        rw [← hsame.1]
        exact hbelow
      · exact ihothers hothers hold

theorem size_put_of_none (hnone : forest.successor? position value = none)
    (node : List Nat × Forest) :
    (forest.put position value node).size = forest.size + 1 + node.2.size := by
  induction forest with
  | nil => simp only [put, size]; omega
  | edge next constant rows below others _ ihothers =>
      rw [successor?] at hnone
      split at hnone
      · cases hnone
      · rename_i hother
        rw [put, if_neg hother]
        split
        · simp only [size, ihothers hnone]
          omega
        · simp only [size]
          omega

theorem Sorted.size_put_of_some (hforest : forest.Sorted)
    (hold : forest.successor? position value = some old) (node : List Nat × Forest) :
    (forest.put position value node).size + old.2.size = forest.size + node.2.size := by
  induction forest with
  | nil => cases hold
  | edge next constant rows below others _ ihothers =>
      obtain ⟨hbehind, -, hothers⟩ := hforest
      rcases edge_cases next position constant value with
        hbefore | ⟨rfl, rfl⟩ | ⟨rfl, hsmaller⟩ | hafter
      · rw [successor?, if_neg (fun hsame => Nat.ne_of_lt hbefore hsame.1)] at hold
        have hlater := ihothers hothers hold
        rw [put, if_pos (Or.inl hbefore)]
        simp only [size]
        omega
      · rw [successor?, if_pos ⟨rfl, rfl⟩] at hold
        cases hold
        rw [put, if_neg (by simp), if_pos ⟨rfl, rfl⟩]
        simp only [size]
        omega
      · rw [successor?, if_neg (fun hsame => UInt64.ne_of_lt hsmaller hsame.2)] at hold
        have hlater := ihothers hothers hold
        rw [put, if_pos (Or.inr ⟨rfl, hsmaller⟩)]
        simp only [size]
        omega
      · have hnone : (edge next constant rows below others).successor? position value = none :=
          Behind.successor?_eq_none ⟨hafter, hbehind.trans hafter⟩
        rw [hnone] at hold
        cases hold

theorem successor?_cons_of_ne {next : Nat} {constant : UInt64} {rows : List Nat}
    {below others : Forest} (hne : ¬ (next = position ∧ constant = value)) :
    (edge next constant rows below others).successor? position value =
      others.successor? position value := by
  rw [successor?, if_neg hne]

theorem put_addBelow (hsorted : forest.Sorted) (hforest : forest.From start) {skip : Nat}
    (hskip : skip ≤ position) (value : UInt64) (rest : List (Nat × UInt64)) :
    let passed := forest.addBelow position skip ((position, value) :: rest)
    let old := (passed.successor? position value).getD ([], .nil)
    passed.put position value (old.1, old.2.add rest) =
      forest.addFrom skip ((position, value) :: rest) := by
  intro passed old
  induction forest with
  | nil => simp only [passed, old, addBelow, successor?, Option.getD_none, put, nil_add, addFrom, path]
  | edge next constant rows below others _ ihothers =>
      have hlater := ihothers hsorted.2.2 hforest.2.2
      have hedge := hsorted.from_edge hforest
      simp only [passed, old]
      rcases edge_cases next position constant value with
        hbefore | ⟨rfl, rfl⟩ | ⟨rfl, hsmaller⟩ | hafter
      · rw [addBelow, successor?_cons_of_ne (fun hsame => Nat.ne_of_lt hbefore hsame.1), put,
          if_pos (Or.inl hbefore), hlater, addFrom]
        by_cases hkept : next < skip
        · rw [if_pos hkept, if_neg (fun hin => Nat.not_le.mpr hkept hin.1)]
        · rw [if_neg hkept, if_pos ⟨Nat.le_of_not_lt hkept, hbefore⟩, add_before hbefore,
            (hedge.2.2.mono (Nat.le_of_not_lt hkept)).addFrom_eq_add]
      · rw [hedge.addBelow_eq_self, (hedge.mono hskip).addFrom_eq_add, add_same, successor?,
          if_pos ⟨rfl, rfl⟩, put, if_neg (by simp), if_pos ⟨rfl, rfl⟩]
        rfl
      · rw [hedge.2.2.addBelow_eq_self, (hedge.2.2.mono hskip).addFrom_eq_add] at hlater
        rw [hedge.addBelow_eq_self, (hedge.mono hskip).addFrom_eq_add, add_smaller hsmaller,
          successor?_cons_of_ne (fun hsame => UInt64.ne_of_lt hsmaller hsame.2), put,
          if_pos (Or.inr ⟨rfl, hsmaller⟩), hlater]
      · have hfrom : (edge next constant rows below others).From position := by
          refine hedge.mono ?_
          rcases hafter with hless | ⟨hsame, -⟩
          · exact Nat.le_of_lt hless
          · exact Nat.le_of_eq hsame
        have hnone : (edge next constant rows below others).successor? position value = none :=
          Behind.successor?_eq_none ⟨hafter, hsorted.1.trans hafter⟩
        have hnot : ¬ (next < position ∨ next = position ∧ constant < value) := by
          rintro (hless | ⟨rfl, hless⟩)
          · omega
          · rcases hafter with hmore | ⟨-, hmore⟩
            · exact Nat.lt_irrefl _ hmore
            · exact UInt64.lt_asymm hmore hless
        rw [hfrom.addBelow_eq_self, (hfrom.mono hskip).addFrom_eq_add, add_after hafter, hnone,
          Option.getD_none, nil_add, put, if_neg hnot, if_neg]
        rintro ⟨rfl, rfl⟩
        rcases hafter with hmore | ⟨-, hmore⟩
        · exact Nat.lt_irrefl _ hmore
        · exact UInt64.lt_irrefl _ hmore

end Put

section Extend

variable {shape : Abbrev} {index : Nat} {forest : Forest}

theorem or_decide_lt {first second third : Nat} (hfirst : first ≤ second) (hsecond : second ≤ third) :
    (decide (first < second) || decide (second < third)) = decide (first < third) := by
  rw [← Bool.decide_or]
  exact decide_eq_decide.mpr (by omega)

theorem grown_put_of_some {passed below : Forest} {position : Nat} {value : UInt64}
    {rows : List Nat} (hsorted : passed.Sorted) (hpassed : forest.size ≤ passed.size)
    (hold : passed.successor? position value = some (rows, below)) (rest : List (Nat × UInt64)) :
    (passed.put position value (rows, below.add rest),
        decide (forest.size < passed.size) || (below.grown (below.add rest)).2) =
      forest.grown (passed.put position value (rows, below.add rest)) := by
  have hsize : (passed.put position value (rows, below.add rest)).size + below.size =
      passed.size + (below.add rest).size := hsorted.size_put_of_some hold _
  have hmore := (size_le_add below rest).1
  refine congrArg (Prod.mk _) ?_
  rw [grown, ← Bool.decide_or]
  exact decide_eq_decide.mpr (by omega)

theorem grown_put_of_none {passed : Forest} {position : Nat} {value : UInt64}
    (hpassed : forest.size ≤ passed.size) (hnone : passed.successor? position value = none)
    (node : List Nat × Forest) :
    (passed.put position value node, true) = forest.grown (passed.put position value node) := by
  have hsize := size_put_of_none hnone node
  exact congrArg (Prod.mk _) (decide_eq_true (by omega)).symm

/-- Extending a node adds the constants from a position on, and tells whether there is a new node. -/
def ExtendsTo (shape : Abbrev) (index : Nat) (forest : Forest) : Prop :=
  ∀ skip (hskip : skip ≤ index), forest.extend shape index skip hskip =
    forest.grown (forest.addFrom skip (laterLiterals shape index))

theorem extendsTo_of_extendBelow (hsorted : forest.Sorted) (hfrom : forest.From 0)
    (hbelow : ∀ skip (hskip : skip ≤ index), forest.extendBelow shape index skip hskip =
      forest.grown (forest.addBelow index skip (laterLiterals shape index)))
    (hlater : index < shape.operators.length → ∀ next > index, ∀ other : Forest, other.Sorted →
      other.From 0 → other.ExtendsTo shape next) :
    forest.ExtendsTo shape index := by
  intro skip hskip
  have hascend := ascend_laterLiterals shape index
  have hleast : ∀ literal ∈ laterLiterals shape index, index ≤ literal.1 :=
    fun _ hliteral => le_of_mem_laterLiterals hliteral
  have hpassed := size_le_addBelow forest index skip (laterLiterals shape index)
  have hsorted' := hsorted.addBelow index skip (laterLiterals shape index)
  have hfrom' : (forest.addBelow index skip (laterLiterals shape index)).From 0 :=
    hfrom.addBelow hascend hleast
  have hagain := addFrom_addBelow hsorted hfrom (fun literal hliteral =>
    hleast literal (List.mem_of_mem_head? hliteral)) hskip
  obtain ⟨hnone, hsome⟩ := laterLiterals_eq shape index
  rw [extend, hbelow skip hskip]
  split
  · rename_i hend
    have hmin : shape.minRecordSize ≤ shape.operators.length := List.findIdx_le_length
    rw [laterLiterals_of_le (Nat.le_trans hmin hend), addFrom_nil, grown, decide_eq_false (by omega)]
  rename_i hend
  have hlater := hlater (Nat.not_le.mp hend)
  simp only [grown]
  split
  · rename_i hnext
    rw [hnone hnext, addFrom_nil, addBelow_nil]
  · rename_i next value hnext
    obtain ⟨hsame, hcons⟩ := hsome next value hnext
    have hle := le_of_nextLiteral? hnext
    split
    · rename_i heq
      subst heq
      have hput := put_addBelow hsorted hfrom hskip value (laterLiterals shape (next + 1))
      simp only [← hcons] at hput
      split
      · rename_i rows below hold
        rw [hold, Option.getD_some] at hput
        have hchild := hfrom'.of_successor? hold
        have hdeeper := hlater (next + 1) (Nat.lt_succ_self _) below (hsorted'.of_successor? hold)
          (hchild.mono (Nat.zero_le _)) (next + 1) (Nat.le_refl _)
        rw [hchild.addFrom_eq_add] at hdeeper
        rw [hdeeper, ← hput]
        exact grown_put_of_some hsorted' hpassed hold _
      · rename_i hold
        rw [hold, Option.getD_none] at hput
        have hdeeper := hlater (next + 1) (Nat.lt_succ_self _) .nil trivial trivial (next + 1)
          (Nat.le_refl _)
        rw [From.addFrom_eq_add (by trivial)] at hdeeper
        rw [hdeeper, ← hput]
        exact grown_put_of_none hpassed hold _
    · rename_i hne
      have hagain' := hlater next (by omega) _ hsorted' hfrom' index hle
      rw [← hsame, hagain] at hagain'
      rw [hagain', grown]
      refine congrArg (Prod.mk _) (or_decide_lt hpassed ?_)
      rw [← hagain]
      exact size_le_addFrom _ _ _

theorem extendBelow_edge {position : Nat} {below others : Forest} (value : UInt64) (rows : List Nat)
    (hfrom : below.From (position + 1)) (hbelow : below.ExtendsTo shape index) {skip : Nat}
    (hskip : skip ≤ index)
    (hothers : others.extendBelow shape index skip hskip =
      others.grown (others.addBelow index skip (laterLiterals shape index))) :
    (edge position value rows below others).extendBelow shape index skip hskip =
      (edge position value rows below others).grown
        ((edge position value rows below others).addBelow index skip (laterLiterals shape index)) := by
  have hdeeper := (size_le_add below (laterLiterals shape index)).1
  have hlater := size_le_addBelow others index skip (laterLiterals shape index)
  rw [extendBelow, hothers]
  simp only [grown, addBelow]
  split
  · rename_i hin
    rw [hbelow (position + 1) hin.2, hfrom.addFrom_eq_add]
    simp only [grown, size]
    refine congrArg (Prod.mk _) ?_
    rw [← Bool.decide_or]
    exact decide_eq_decide.mpr (by omega)
  · simp only [size]
    refine congrArg (Prod.mk _) ?_
    exact decide_eq_decide.mpr (by omega)

theorem extendsTo (shape : Abbrev) (index : Nat) (hsorted : forest.Sorted) (hfrom : forest.From 0) :
    forest.ExtendsTo shape index := by
  induction hrest : shape.operators.length - index using Nat.strong_induction_on
    generalizing index forest with
  | h rest ih =>
      have hlater : index < shape.operators.length → ∀ next > index, ∀ other : Forest,
          other.Sorted → other.From 0 → other.ExtendsTo shape next :=
        fun hindex next hnext other hsorted hfrom => ih _ (by omega) next hsorted hfrom rfl
      -- At one position the recursion goes down the nodes, so an induction on them is left.
      have hhere : (∀ skip (hskip : skip ≤ index), forest.extendBelow shape index skip hskip =
          forest.grown (forest.addBelow index skip (laterLiterals shape index))) ∧
          forest.ExtendsTo shape index := by
        induction forest with
        | nil =>
            have hbelow : ∀ skip (hskip : skip ≤ index), nil.extendBelow shape index skip hskip =
                nil.grown (nil.addBelow index skip (laterLiterals shape index)) := by
              intro skip hskip
              rw [extendBelow, addBelow, grown, decide_eq_false (Nat.lt_irrefl _)]
            exact ⟨hbelow, extendsTo_of_extendBelow hsorted hfrom hbelow hlater⟩
        | edge position value rows below others ihbelow ihothers =>
            obtain ⟨-, hbelow⟩ := ihbelow hsorted.2.1 (hfrom.2.1.mono (Nat.zero_le _))
            obtain ⟨hothers, -⟩ := ihothers hsorted.2.2 hfrom.2.2
            have hedge := fun skip (hskip : skip ≤ index) =>
              extendBelow_edge value rows hfrom.2.1 hbelow hskip (hothers skip hskip)
            exact ⟨hedge, extendsTo_of_extendBelow hsorted hfrom hedge hlater⟩
      exact hhere.2

theorem extend_zero (shape : Abbrev) (hsorted : forest.Sorted) (hfrom : forest.From 0) :
    forest.extend shape 0 0 (Nat.le_refl _) = forest.grown (forest.add (literals shape)) := by
  rw [extendsTo shape 0 hsorted hfrom 0 (Nat.le_refl _), hfrom.addFrom_eq_add, laterLiterals_zero]

end Extend

end Forest

namespace Index

theorem size_updateSorted_eq {tries : List (Nat × Trie)} (htries : Keyed.Ascending tries) (key : Nat)
    (change : Trie → Trie) :
    size ⟨Keyed.updateSorted key {} change tries⟩ + ((tries.lookup key).elim 0 Trie.size) =
      size ⟨tries⟩ + (change ((tries.lookup key).getD {})).size := by
  induction tries with
  | nil => simp only [Keyed.updateSorted, size, List.foldr_cons, List.foldr_nil, List.lookup_nil,
      Option.elim_none, Option.getD_none]; omega
  | cons entry rest ih =>
      obtain ⟨first, trie⟩ := entry
      obtain ⟨hfirst, hrest⟩ := List.pairwise_cons.mp htries
      have hlater := ih hrest
      simp only [size] at hlater
      unfold Keyed.updateSorted
      split
      · rename_i hsame
        subst hsame
        simp only [size, List.foldr_cons, List.lookup_cons_self, Option.elim_some, Option.getD_some]
        omega
      · rename_i hne
        rw [Keyed.lookup_cons_of_ne _ _ (Ne.symm hne)]
        split
        · rename_i hless
          rw [Keyed.lookup_eq_none_of_lt fun other hother => Nat.lt_trans hless (hfirst other hother)]
          simp only [size, List.foldr_cons, Option.elim_none, Option.getD_none]
          omega
        · simp only [size, List.foldr_cons]
          omega

section Round

variable {index : Index} {shape : Abbrev} {tries : List (Nat × Trie)}

theorem extendAt_eq (htries : Keyed.Ascending tries) {key : Nat}
    (hsorted : ((tries.lookup key).getD {}).edges.Sorted)
    (hfrom : ((tries.lookup key).getD {}).edges.From 0) (grown : Bool) :
    extendAt shape (⟨tries⟩, grown) key =
      (⟨Keyed.updateSorted key {} (·.add shape) tries⟩,
        grown || decide (size ⟨tries⟩ < size ⟨Keyed.updateSorted key {} (·.add shape) tries⟩)) := by
  have hroot : (⟨tries⟩ : Index).get? key = tries.lookup key := rfl
  have htrie : Keyed.updateSorted key {}
      ({ · with edges := ((tries.lookup key).getD {}).edges.add (literals shape) }) tries =
        Keyed.updateSorted key {} (·.add shape) tries := by
    refine Keyed.eq_of_lookup_eq (Keyed.ascending_updateSorted htries)
      (Keyed.ascending_updateSorted htries) fun other => ?_
    rw [Keyed.lookup_updateSorted htries, Keyed.lookup_updateSorted htries]
    rfl
  have hsize := size_updateSorted_eq htries key (·.add shape)
  simp only [extendAt, hroot, Forest.extend_zero shape hsorted hfrom, Forest.grown, htrie]
  generalize Keyed.updateSorted key {} (·.add shape) tries = next at hsize ⊢
  refine congrArg (fun more => (_, grown || more)) ?_
  rw [Bool.eq_iff_iff, Bool.or_eq_true, decide_eq_true_eq, decide_eq_true_eq]
  cases hold : tries.lookup key with
  | none =>
      rw [hold] at hsize
      simp only [Option.elim_none, Option.getD_none, Trie.size, Trie.add] at hsize
      simp only [Option.isNone_none, true_or, true_iff]
      omega
  | some trie =>
      rw [hold] at hsize
      simp only [Option.elim_some, Option.getD_some, Trie.size, Trie.add] at hsize
      simp only [Option.isNone_some, Bool.false_eq_true, false_or, Option.getD_some]
      omega

theorem foldl_extendAt {keys : List Nat} (hkeys : keys.Nodup) (htries : Keyed.Ascending tries)
    (hsorted : ∀ key ∈ keys, ((tries.lookup key).getD {}).edges.Sorted)
    (hfrom : ∀ key ∈ keys, ((tries.lookup key).getD {}).edges.From 0) (grown : Bool) :
    let final := keys.foldl (fun tries key => Keyed.updateSorted key {} (·.add shape) tries) tries
    keys.foldl (extendAt shape) (⟨tries⟩, grown) =
      (⟨final⟩, grown || decide (size ⟨tries⟩ < size ⟨final⟩)) := by
  induction keys generalizing tries grown with
  | nil => simp
  | cons key keys ih =>
      obtain ⟨hkey, hkeys⟩ := List.nodup_cons.mp hkeys
      rw [List.forall_mem_cons] at hsorted hfrom
      have hlater : Keyed.Ascending (Keyed.updateSorted key {} (·.add shape) tries) :=
        Keyed.ascending_updateSorted htries
      have hsame : ∀ other ∈ keys,
          ((Keyed.updateSorted key {} (·.add shape) tries).lookup other).getD {} =
            (tries.lookup other).getD {} := by
        intro other hother
        have hne : other ≠ key := fun heq => hkey (heq ▸ hother)
        rw [Keyed.getD_lookup_updateSorted htries, if_neg hne]
      have hfirst := (size_updateSorted (size_le_add shape) key tries).1
      have hothers := (size_foldl_update (size_le_add shape) hkeys hlater).1
      have hrest := ih hkeys hlater (fun other hother => hsame other hother ▸ hsorted.2 other hother)
        (fun other hother => hsame other hother ▸ hfrom.2 other hother)
      simp only [List.foldl_cons]
      rw [extendAt_eq htries hsorted.1 hfrom.1, hrest, Bool.or_assoc,
        Forest.or_decide_lt hfirst hothers]
      rfl

theorem extend_eq (hindex : index.Ordered) (hsorted : ∀ key, (index.trieAt key).edges.Sorted)
    (hfrom : ∀ key, (index.trieAt key).edges.From 0) (grown : Bool) :
    extend shape (index, grown) =
      (index.add shape, grown || decide (index.size < (index.add shape).size)) :=
  foldl_extendAt (nodup_keysOf shape) hindex (fun key _ => hsorted key) (fun key _ => hfrom key) grown

end Round

end Index

end Bitcode.Lookup
