import Bitcode.Census.Tally
import Bitcode.Proofs.Census.Ranking

namespace Bitcode.Census

open Bitcode.Tree (Record Block)

/-- A question about a ranking. -/
inductive Question where
  | sorted
  | elements
  deriving DecidableEq

/-- Importances and keys, or the keys that tallies are listed under. -/
inductive Answer where
  | pairs (ranking : List (Double × UInt64))
  | keys (keys : List UInt64)
  deriving DecidableEq

variable {ι ε τ : Type}

def answer (importance : UInt64 → ε → Double) (census : Census ε) : Question → Answer × Census ε
  | .sorted => (.pairs (census.sorted importance).1, (census.sorted importance).2)
  | .elements =>
      (.keys ((census.sortedElements importance).1.map (·.1)), (census.sortedElements importance).2)

/-- A kind of tallies: their importance, which may be a number that they hold, and what lies inside
them. Keys lead to a distribution there, which can be asked for its ranking. -/
structure Kind (ε : Type) where
  importance : UInt64 → ε → Double
  amount? : Option (ε → Nat)
  inside : Question → List UInt64 → ε → Option Answer × ε
  amountsInside : List UInt64 → ε → Option (List (UInt64 × Nat))
  /-- The tally without the rankings that are kept inside. -/
  forget : ε → ε
  /-- The rankings that are kept inside are up to date. -/
  Fresh : ε → Prop

namespace Kind

/-- Ask a distribution, or the one that keys lead to. -/
def ask (kind : Kind ε) (question : Question) : List UInt64 → Census ε → Option Answer × Census ε
  | [], census =>
      (some (census.answer kind.importance question).1, (census.answer kind.importance question).2)
  | key :: path, census =>
      ((census.get? key).bind fun tally => (kind.inside question path tally).1,
        { census with
          elements := census.elements.map fun (other, tally) =>
            (other, if other = key then (kind.inside question path tally).2 else tally) })

/-- The keys and amounts of a distribution, or of the one that keys lead to, if its tallies rank by
amounts. -/
def amounts (kind : Kind ε) : List UInt64 → Census ε → Option (List (UInt64 × Nat))
  | [], census =>
      kind.amount?.map fun amount => census.elements.map fun (key, tally) => (key, amount tally)
  | key :: path, census => (census.get? key).bind (kind.amountsInside path)

/-- The distribution without kept rankings. -/
def forgetAll (kind : Kind ε) (census : Census ε) : Census ε where
  elements := census.elements.map fun (key, tally) => (key, kind.forget tally)
  total := census.total

/-- Keys ascend, and kept rankings are what would be worked out now. -/
structure AllFresh (kind : Kind ε) (census : Census ε) : Prop where
  ascending : Keyed.Ascending census.elements
  kept : ∀ ranking, census.ranking? = some ranking → ranking = census.ranking kind.importance
  inside : ∀ entry ∈ census.elements, kind.Fresh entry.2

/-- The kind of tallies that hold a distribution. -/
def holding (inner : Kind ε) (importance : UInt64 → τ → Double) (amount? : Option (τ → Nat))
    (get : τ → Census ε) (set : τ → Census ε → τ) : Kind τ where
  importance
  amount?
  inside question path tally :=
    ((inner.ask question path (get tally)).1, set tally (inner.ask question path (get tally)).2)
  amountsInside path tally := inner.amounts path (get tally)
  forget tally := set tally (inner.forgetAll (get tally))
  Fresh tally := inner.AllFresh (get tally)

end Kind

def valueKind : Kind ValueTally where
  importance := ValueTally.importance
  amount? := none
  inside _ _ tally := (none, tally)
  amountsInside _ _ := none
  forget tally := tally
  Fresh _ := True

def fieldKind : Kind FieldTally :=
  valueKind.holding (fun _ tally => tally.importance) none FieldTally.values
    fun tally values => { tally with values }

def sizeKind : Kind SizeTally :=
  fieldKind.holding (fun _ tally => tally.importance) (some SizeTally.count) SizeTally.fields
    fun tally fields => { tally with fields }

def codeKind : Kind CodeTally :=
  sizeKind.holding (fun _ tally => tally.importance) (some CodeTally.count) CodeTally.sizes
    fun tally sizes => { tally with sizes }

def rowKind : Kind RowTally :=
  codeKind.holding (fun _ tally => tally.importance) (some RowTally.count) RowTally.codes
    fun tally codes => { tally with codes }

def blockKind : Kind BlockTally :=
  rowKind.holding (fun _ tally => tally.importance) (some BlockTally.bits) BlockTally.rows
    fun tally rows => { tally with rows }

namespace Kind

/-- What is asked inside tallies changes nothing but the rankings that are kept there, is answered as
if none were, and ranks amounts. -/
structure Lawful (kind : Kind ε) : Prop where
  importance_forget : ∀ key tally, kind.importance key (kind.forget tally) = kind.importance key tally
  importance_eq : ∀ amount, kind.amount? = some amount →
    ∀ key tally, kind.importance key tally = .ofNat (amount tally)
  forget_inside : ∀ question path tally,
    kind.forget (kind.inside question path tally).2 = kind.forget tally
  fresh_inside : ∀ question path tally, kind.Fresh tally →
    kind.Fresh (kind.inside question path tally).2
  answer_inside : ∀ question path tally, kind.Fresh tally →
    (kind.inside question path tally).1 = (kind.inside question path (kind.forget tally)).1
  ranks_inside : ∀ path tally amounts, kind.Fresh tally →
    kind.amountsInside path tally = some amounts → (∀ entry ∈ amounts, entry.2 < 2 ^ 53) →
    ∃ pairs, (kind.inside .sorted path tally).1 = some (.pairs (weighed pairs)) ∧
      Ranks amounts pairs

section Lawful

variable {kind : Kind ε} {path : List UInt64} {census : Census ε}

theorem get?_forgetAll (kind : Kind ε) (census : Census ε) (key : UInt64) :
    (kind.forgetAll census).get? key = (census.get? key).map kind.forget :=
  Keyed.lookup_map (fun _ => kind.forget) key census.elements

theorem Lawful.importance_inside (hkind : kind.Lawful) (question : Question) (path : List UInt64)
    (key : UInt64) (tally : ε) :
    kind.importance key (kind.inside question path tally).2 = kind.importance key tally := by
  rw [← hkind.importance_forget, hkind.forget_inside, hkind.importance_forget]

theorem Lawful.ranking_forgetAll (hkind : kind.Lawful) (census : Census ε) :
    (kind.forgetAll census).ranking kind.importance = census.ranking kind.importance := by
  apply ranking_congr
  rw [forgetAll, List.map_map]
  refine List.map_congr_left fun entry _ => ?_
  exact congrArg (·, entry.1) (hkind.importance_forget entry.1 entry.2)

theorem Lawful.forgetAll_ask (hkind : kind.Lawful) (question : Question) (path : List UInt64)
    (census : Census ε) :
    kind.forgetAll (kind.ask question path census).2 = kind.forgetAll census := by
  cases path with
  | nil => cases question <;> rfl
  | cons key path =>
      rw [forgetAll, forgetAll, ask, List.map_map]
      congr 1
      refine List.map_congr_left fun entry _ => ?_
      dsimp only [Function.comp_apply]
      split_ifs
      · rw [hkind.forget_inside]
      · rfl

theorem Lawful.allFresh_ask (hkind : kind.Lawful) (hcensus : kind.AllFresh census)
    (question : Question) (path : List UInt64) :
    kind.AllFresh (kind.ask question path census).2 := by
  obtain ⟨hascending, hkept, hinside⟩ := hcensus
  cases path with
  | nil =>
      have hsorted := sorted_of_kept hkept
      cases question with
      | sorted => exact ⟨hascending, fun _ hranking => Option.some.inj hranking ▸ hsorted, hinside⟩
      | elements => exact ⟨hascending, fun _ hranking => Option.some.inj hranking ▸ hsorted, hinside⟩
  | cons key path =>
      refine ⟨?_, fun ranking hranking => ?_, ?_⟩
      · rw [Keyed.Ascending, ask, List.map_map]
        exact hascending
      · rw [hkept ranking hranking]
        apply ranking_congr
        rw [ask, List.map_map]
        refine List.map_congr_left fun entry _ => ?_
        dsimp only [Function.comp_apply]
        split_ifs
        · rw [hkind.importance_inside]
        · rfl
      · intro entry hentry
        obtain ⟨other, hother, rfl⟩ := List.mem_map.mp hentry
        dsimp only
        split_ifs
        · exact hkind.fresh_inside _ _ _ (hinside other hother)
        · exact hinside other hother

theorem Lawful.answer_ask (hkind : kind.Lawful) (hcensus : kind.AllFresh census)
    (question : Question) (path : List UInt64) :
    (kind.ask question path census).1 = (kind.ask question path (kind.forgetAll census)).1 := by
  obtain ⟨-, hkept, hinside⟩ := hcensus
  cases path with
  | nil =>
      have hsorted : (census.sorted kind.importance).1 =
          ((kind.forgetAll census).sorted kind.importance).1 :=
        (sorted_of_kept hkept).trans (hkind.ranking_forgetAll census).symm
      cases question with
      | sorted => exact congrArg (fun ranking => some (Answer.pairs ranking)) hsorted
      | elements =>
          refine congrArg (fun keys => some (Answer.keys keys)) ?_
          rw [keys_sortedElements, keys_sortedElements, hsorted]
          refine List.filterMap_congr fun entry _ => ?_
          rw [get?_forgetAll, Option.map_map]
          rfl
  | cons key path =>
      rw [ask, ask, get?_forgetAll]
      cases htally : census.get? key with
      | none => rfl
      | some tally =>
          exact hkind.answer_inside _ _ _ (hinside _ (Keyed.mem_of_lookup_eq_some htally))

theorem Lawful.ranks_ask (hkind : kind.Lawful) (hcensus : kind.AllFresh census)
    {amounts : List (UInt64 × Nat)} (hamounts : kind.amounts path census = some amounts)
    (hbound : ∀ entry ∈ amounts, entry.2 < 2 ^ 53) :
    ∃ pairs, (kind.ask .sorted path census).1 = some (.pairs (weighed pairs)) ∧
      Ranks amounts pairs := by
  obtain ⟨hascending, hkept, hinside⟩ := hcensus
  cases path with
  | nil =>
      obtain ⟨amount, hamount, rfl⟩ := Option.map_eq_some_iff.mp hamounts
      rw [List.forall_mem_map] at hbound
      obtain ⟨pairs, hpairs, hranks⟩ := exists_ranks hascending (hkind.importance_eq amount hamount)
        hbound
      refine ⟨pairs, ?_, hranks⟩
      rw [← hpairs, ← sorted_of_kept hkept]
      rfl
  | cons key path =>
      obtain ⟨tally, htally, hamounts⟩ := Option.bind_eq_some_iff.mp hamounts
      rw [ask, htally]
      exact hkind.ranks_inside path tally amounts (hinside _ (Keyed.mem_of_lookup_eq_some htally))
        hamounts hbound

theorem lawful_valueKind : valueKind.Lawful where
  importance_forget _ _ := rfl
  importance_eq _ hnone := by cases hnone
  forget_inside _ _ _ := rfl
  fresh_inside _ _ _ _ := trivial
  answer_inside _ _ _ _ := rfl
  ranks_inside _ _ _ _ hnone := by cases hnone

theorem Lawful.holding (hkind : kind.Lawful) {importance : UInt64 → τ → Double}
    {amount? : Option (τ → Nat)} {get : τ → Census ε} {set : τ → Census ε → τ}
    (hget : ∀ tally census, get (set tally census) = census)
    (hset : ∀ tally census other, set (set tally census) other = set tally other)
    (hforget : ∀ key tally,
      importance key (set tally (kind.forgetAll (get tally))) = importance key tally)
    (hamount : ∀ amount, amount? = some amount →
      ∀ key tally, importance key tally = .ofNat (amount tally)) :
    (kind.holding importance amount? get set).Lawful where
  importance_forget := hforget
  importance_eq := hamount
  forget_inside question path tally := by
    change set (set tally _) (kind.forgetAll (get (set tally _))) = set tally _
    rw [hget, hset, hkind.forgetAll_ask]
  fresh_inside question path tally hfresh := by
    change kind.AllFresh (get (set tally _))
    rw [hget]
    exact hkind.allFresh_ask hfresh question path
  answer_inside question path tally hfresh := by
    change _ = (kind.ask question path (get (set tally _))).1
    rw [hget]
    exact hkind.answer_ask hfresh question path
  ranks_inside path tally amounts hfresh hamounts hbound := hkind.ranks_ask hfresh hamounts hbound

end Lawful

theorem lawful_fieldKind : fieldKind.Lawful := by
  refine lawful_valueKind.holding (fun _ _ => rfl) (fun _ _ _ => rfl) ?_ (fun _ hnone => by cases hnone)
  intro key tally
  have hsame : (valueKind.forgetAll tally.values).elements = tally.values.elements :=
    List.map_id' _
  rw [FieldTally.importance, FieldTally.importance, hsame]

theorem lawful_sizeKind : sizeKind.Lawful :=
  lawful_fieldKind.holding (fun _ _ => rfl) (fun _ _ _ => rfl) (fun _ _ => rfl)
    fun _ hamount _ _ => Option.some.inj hamount ▸ rfl

theorem lawful_codeKind : codeKind.Lawful :=
  lawful_sizeKind.holding (fun _ _ => rfl) (fun _ _ _ => rfl) (fun _ _ => rfl)
    fun _ hamount _ _ => Option.some.inj hamount ▸ rfl

theorem lawful_rowKind : rowKind.Lawful :=
  lawful_codeKind.holding (fun _ _ => rfl) (fun _ _ _ => rfl) (fun _ _ => rfl)
    fun _ hamount _ _ => Option.some.inj hamount ▸ rfl

theorem lawful_blockKind : blockKind.Lawful :=
  lawful_rowKind.holding (fun _ _ => rfl) (fun _ _ _ => rfl) (fun _ _ => rfl)
    fun _ hamount _ _ => Option.some.inj hamount ▸ rfl

end Kind

section Counted

variable {keys others : List UInt64} {fresh : ε} {count countOther : UInt64 → ε → ε}
  {elements : List (UInt64 × ε)}

/-- The tallies after an item with some keys. -/
def counted (keys : List UInt64) (fresh : ε) (count : UInt64 → ε → ε)
    (elements : List (UInt64 × ε)) : List (UInt64 × ε) :=
  keys.foldl (fun elements key => Keyed.updateSorted key fresh (count key) elements) elements

theorem add_eq (census : Census ε) (keys : List UInt64) (fresh : ε) (count : UInt64 → ε → ε) :
    census.add keys fresh count =
      if keys.isEmpty then census
      else { elements := counted keys fresh count census.elements, total := census.total + 1 } :=
  rfl

theorem counted_cons (key : UInt64) (keys : List UInt64) (elements : List (UInt64 × ε)) :
    counted (key :: keys) fresh count elements =
      counted keys fresh count (Keyed.updateSorted key fresh (count key) elements) :=
  rfl

theorem map_counted {view : ε → ε} (hfresh : view fresh = fresh)
    (hcount : ∀ key tally, view (count key tally) = count key (view tally)) :
    (counted keys fresh count elements).map (fun entry => (entry.1, view entry.2)) =
      counted keys fresh count (elements.map fun entry => (entry.1, view entry.2)) := by
  induction keys generalizing elements with
  | nil => rfl
  | cons key keys ih =>
      rw [counted_cons, ih, Keyed.map_updateSorted hfresh (hcount key), counted_cons]

theorem forall_mem_counted {property : ε → Prop} (helements : ∀ entry ∈ elements, property entry.2)
    (hfresh : property fresh) (hcount : ∀ key tally, property tally → property (count key tally)) :
    ∀ entry ∈ counted keys fresh count elements, property entry.2 := by
  induction keys generalizing elements with
  | nil => exact helements
  | cons key keys ih => exact ih (Keyed.forall_mem_updateSorted helements hfresh (hcount key))

theorem updateSorted_counted
    (hcount : ∀ key tally, countOther key (count key tally) = count key (countOther key tally))
    (other : UInt64) :
    Keyed.updateSorted other fresh (countOther other) (counted keys fresh count elements) =
      counted keys fresh count (Keyed.updateSorted other fresh (countOther other) elements) := by
  induction keys generalizing elements with
  | nil => rfl
  | cons key keys ih =>
      rw [counted_cons, ih, counted_cons, Keyed.updateSorted_comm]
      rintro rfl
      exact hcount other

theorem counted_comm
    (hcount : ∀ key tally, countOther key (count key tally) = count key (countOther key tally)) :
    counted others fresh countOther (counted keys fresh count elements) =
      counted keys fresh count (counted others fresh countOther elements) := by
  induction others generalizing elements with
  | nil => rfl
  | cons other others ih =>
      rw [counted_cons, updateSorted_counted hcount, ih, counted_cons]

end Counted

namespace Kind

/-- Counting an item does not look at kept rankings and leaves none that it makes stale, and two
items may change places. -/
structure Adds (kind : Kind ε) (add : Census ε → ι → Census ε) : Prop where
  forgetAll_add : ∀ census item, kind.forgetAll (add census item) = add (kind.forgetAll census) item
  allFresh_add : ∀ census item, kind.AllFresh census → kind.AllFresh (add census item)
  add_comm : ∀ census first second, add (add census first) second = add (add census second) first

theorem allFresh_empty (kind : Kind ε) : kind.AllFresh {} where
  ascending := List.Pairwise.nil
  kept _ hnone := by cases hnone
  inside _ hnone := absurd hnone List.not_mem_nil

theorem adds_of_count {kind : Kind ε} {add : Census ε → ι → Census ε} {keys : ι → List UInt64}
    {fresh : ε} {count : ι → UInt64 → ε → ε}
    (hadd : ∀ census item, add census item = census.add (keys item) fresh (count item))
    (hforgetFresh : kind.forget fresh = fresh) (hfresh : kind.Fresh fresh)
    (hforget : ∀ item key tally,
      kind.forget (count item key tally) = count item key (kind.forget tally))
    (hcount : ∀ item key tally, kind.Fresh tally → kind.Fresh (count item key tally))
    (hcomm : ∀ first second key tally,
      count second key (count first key tally) = count first key (count second key tally)) :
    kind.Adds add where
  forgetAll_add census item := by
    rw [hadd, hadd, add_eq, add_eq]
    split_ifs
    · rfl
    · exact congrArg (Census.mk · (census.total + 1)  none) (map_counted hforgetFresh (hforget item))
  allFresh_add census item hcensus := by
    rw [hadd, add_eq]
    split_ifs
    · exact hcensus
    · exact {
        ascending := Keyed.ascending_foldl_updateSorted _ hcensus.ascending
        kept := fun _ hnone => by cases hnone
        inside := forall_mem_counted hcensus.inside hfresh (hcount item) }
  add_comm census first second := by
    simp only [hadd, add_eq]
    split_ifs
    · rfl
    · rfl
    · rfl
    · exact congrArg (Census.mk · (census.total + 1 + 1) none) (counted_comm (hcomm first second))

theorem adds_addValue (field : Nat) : valueKind.Adds (addValue field) :=
  adds_of_count (fun _ _ => rfl) rfl trivial (fun _ _ _ => rfl) (fun _ _ _ _ => trivial)
    fun _ _ _ _ => rfl

theorem adds_addFields : fieldKind.Adds addFields := by
  refine adds_of_count (fun _ _ => rfl) rfl (allFresh_empty _) ?_ ?_ ?_
  · intro record field tally
    exact congrArg (FieldTally.mk (tally.count + 1)) ((adds_addValue _).forgetAll_add _ record)
  · intro record field tally hfresh
    exact (adds_addValue _).allFresh_add _ record hfresh
  · intro first second field tally
    exact congrArg (FieldTally.mk (tally.count + 1 + 1)) ((adds_addValue _).add_comm _ first second)

theorem adds_addSize : sizeKind.Adds addSize := by
  refine adds_of_count (fun _ _ => rfl) rfl (allFresh_empty _) ?_ ?_ ?_
  · intro record size tally
    exact congrArg (SizeTally.mk (tally.count + 1)) (adds_addFields.forgetAll_add _ record)
  · intro record size tally hfresh
    exact adds_addFields.allFresh_add _ record hfresh
  · intro first second size tally
    exact congrArg (SizeTally.mk (tally.count + 1 + 1)) (adds_addFields.add_comm _ first second)

theorem adds_addCode : codeKind.Adds addCode := by
  refine adds_of_count (fun _ _ => rfl) rfl (allFresh_empty _) ?_ ?_ ?_
  · intro record code tally
    exact congrArg (CodeTally.mk _ _ _) (adds_addSize.forgetAll_add _ record)
  · intro record code tally hfresh
    exact adds_addSize.allFresh_add _ record hfresh
  · intro first second code tally
    rw [CodeTally.mk.injEq]
    exact ⟨rfl, Nat.add_right_comm _ _ _, Nat.add_right_comm _ _ _,
      adds_addSize.add_comm _ first second⟩

theorem adds_addRow : rowKind.Adds addRow := by
  refine adds_of_count (fun _ _ => rfl) rfl (allFresh_empty _) ?_ ?_ ?_
  · intro record row tally
    exact congrArg (RowTally.mk (tally.count + 1)) (adds_addCode.forgetAll_add _ record)
  · intro record row tally hfresh
    exact adds_addCode.allFresh_add _ record hfresh
  · intro first second row tally
    exact congrArg (RowTally.mk (tally.count + 1 + 1)) (adds_addCode.add_comm _ first second)

section Foldl

variable {kind : Kind ε} {add : Census ε → ι → Census ε} {census : Census ε}

theorem Adds.forgetAll_foldl (hadds : kind.Adds add) (items : List ι) :
    kind.forgetAll (items.foldl add census) = items.foldl add (kind.forgetAll census) := by
  induction items generalizing census with
  | nil => rfl
  | cons item items ih => rw [List.foldl_cons, ih, hadds.forgetAll_add, List.foldl_cons]

theorem Adds.allFresh_foldl (hadds : kind.Adds add) (items : List ι) (hcensus : kind.AllFresh census) :
    kind.AllFresh (items.foldl add census) := by
  induction items generalizing census with
  | nil => exact hcensus
  | cons item items ih => exact ih (hadds.allFresh_add census item hcensus)

theorem Adds.foldl_perm (hadds : kind.Adds add) {items others : List ι} (hperm : items.Perm others)
    (census : Census ε) : items.foldl add census = others.foldl add census :=
  hperm.foldl_eq' (fun first _ second _ census => hadds.add_comm census first second) census

end Foldl

theorem adds_addBlock : blockKind.Adds addBlock := by
  refine adds_of_count (fun _ _ => rfl) rfl (allFresh_empty _) ?_ ?_ ?_
  · intro block id tally
    exact congrArg (BlockTally.mk _ _) (adds_addRow.forgetAll_foldl _)
  · intro block id tally hfresh
    exact adds_addRow.allFresh_foldl _ hfresh
  · intro first second id tally
    rw [BlockTally.mk.injEq]
    refine ⟨rfl, Nat.add_right_comm _ _ _, ?_⟩
    rw [← List.foldl_append, ← List.foldl_append]
    exact adds_addRow.foldl_perm List.perm_append_comm _

end Kind

/-- What is done with a distribution: count an item, or ask it or one inside it for its ranking. -/
inductive Move (ι : Type) where
  | add (item : ι)
  | ask (question : Question) (path : List UInt64)

/-- The items among moves. -/
def added (moves : List (Move ι)) : List ι :=
  moves.filterMap fun
    | .add item => some item
    | .ask .. => none

namespace Kind

/-- The distribution after a move. -/
def step (kind : Kind ε) (add : Census ε → ι → Census ε) (census : Census ε) : Move ι → Census ε
  | .add item => add census item
  | .ask question path => (kind.ask question path census).2

/-- The distribution after moves, from the empty one on. -/
def after (kind : Kind ε) (add : Census ε → ι → Census ε) (moves : List (Move ι)) : Census ε :=
  moves.foldl (kind.step add) {}

section Moves

variable {kind : Kind ε} {add : Census ε → ι → Census ε}

theorem foldl_step (hkind : kind.Lawful) (hadds : kind.Adds add) {census : Census ε}
    (hcensus : kind.AllFresh census) (moves : List (Move ι)) :
    kind.AllFresh (moves.foldl (kind.step add) census) ∧
      kind.forgetAll (moves.foldl (kind.step add) census) =
        (added moves).foldl add (kind.forgetAll census) := by
  induction moves generalizing census with
  | nil => exact ⟨hcensus, rfl⟩
  | cons move moves ih =>
      cases move with
      | add item =>
          have hrest := ih (hadds.allFresh_add census item hcensus)
          rw [hadds.forgetAll_add] at hrest
          exact hrest
      | ask question path =>
          have hrest := ih (hkind.allFresh_ask hcensus question path)
          rw [hkind.forgetAll_ask] at hrest
          exact hrest

end Moves

end Kind

/-- The distributions that rank by counts or sizes, with how they count items. -/
inductive ByAmount : {ι ε : Type} → (Census ε → ι → Census ε) → Kind ε → Prop where
  | blocks : ByAmount addBlock blockKind
  | rows : ByAmount addRow rowKind
  | codes : ByAmount addCode codeKind
  | sizes : ByAmount addSize sizeKind

theorem ByAmount.lawful {add : Census ε → ι → Census ε} {kind : Kind ε} (hkind : ByAmount add kind) :
    kind.Lawful := by
  cases hkind with
  | blocks => exact Kind.lawful_blockKind
  | rows => exact Kind.lawful_rowKind
  | codes => exact Kind.lawful_codeKind
  | sizes => exact Kind.lawful_sizeKind

theorem ByAmount.adds {add : Census ε → ι → Census ε} {kind : Kind ε} (hkind : ByAmount add kind) :
    kind.Adds add := by
  cases hkind with
  | blocks => exact Kind.adds_addBlock
  | rows => exact Kind.adds_addRow
  | codes => exact Kind.adds_addCode
  | sizes => exact Kind.adds_addSize

/-- However questions come between items, each is answered as if all items had come first and
nothing had been asked, in whatever order the items came. While amounts are held exactly, the answer
has each that is not zero once, the greatest first and equal ones by their keys. -/
theorem answers_up_to_date {add : Census ε → ι → Census ε} {kind : Kind ε}
    (hkind : ByAmount add kind) (moves : List (Move ι)) (path : List UInt64) :
    (∀ question, (kind.ask question path (kind.after add moves)).1 =
      (kind.ask question path ((added moves).foldl add {})).1) ∧
    (kind.ask .sorted [] (kind.after add moves)).1 =
      some (.pairs (((added moves).foldl add {}).ranking kind.importance)) ∧
    (∀ others, (added others).Perm (added moves) → ∀ question,
      (kind.ask question path (kind.after add others)).1 =
        (kind.ask question path (kind.after add moves)).1) ∧
    ∀ amounts, kind.amounts path (kind.after add moves) = some amounts →
      (∀ entry ∈ amounts, entry.2 < 2 ^ 53) →
      ∃ pairs, (kind.ask .sorted path (kind.after add moves)).1 = some (.pairs (weighed pairs)) ∧
        Ranks amounts pairs := by
  have hlawful := hkind.lawful
  have hadds := hkind.adds
  have hafter : ∀ moves, kind.AllFresh (kind.after add moves) ∧
      kind.forgetAll (kind.after add moves) = (added moves).foldl add {} :=
    Kind.foldl_step hlawful hadds kind.allFresh_empty
  have hanswer : ∀ moves question path, (kind.ask question path (kind.after add moves)).1 =
      (kind.ask question path ((added moves).foldl add {})).1 := by
    intro moves question path
    rw [hlawful.answer_ask (hafter moves).1, (hafter moves).2]
  refine ⟨fun question => hanswer moves question path, ?_, fun others hperm question => ?_, ?_⟩
  · have hranking := hlawful.ranking_forgetAll (kind.after add moves)
    rw [(hafter moves).2] at hranking
    rw [hranking, ← sorted_of_kept (hafter moves).1.kept]
    rfl
  · rw [hanswer others, hanswer moves, hadds.foldl_perm hperm]
  · exact fun amounts hamounts hbound => hlawful.ranks_ask (hafter moves).1 hamounts hbound

/-- Records with two codes, and questions for the ranking of codes and inside one of them. -/
def askedEarly : List (Move Record) :=
  [.add ⟨9, [], 0, 8⟩, .add ⟨4, [], 0, 8⟩, .ask .sorted [], .ask .elements [4],
    .add ⟨4, [7], 0, 14⟩, .ask .sorted [4], .add ⟨9, [7, 7], 0, 20⟩]

theorem answers_up_to_date_askedEarly :
    codeKind.amounts [4] (codeKind.after addCode askedEarly) = some [(0, 1), (1, 1)] ∧
      (∃ pairs, (codeKind.ask .sorted [4] (codeKind.after addCode askedEarly)).1 =
        some (.pairs (weighed pairs)) ∧ Ranks [(0, 1), (1, 1)] pairs) ∧
      (codeKind.ask .sorted [4] (codeKind.after addCode askedEarly.reverse)).1 =
        (codeKind.ask .sorted [4] (codeKind.after addCode askedEarly)).1 := by
  have hamounts : codeKind.amounts [4] (codeKind.after addCode askedEarly) =
      some [(0, 1), (1, 1)] := by decide +kernel
  obtain ⟨-, -, hperm, hranks⟩ := answers_up_to_date .codes askedEarly [4]
  refine ⟨hamounts, hranks _ hamounts (by decide), hperm _ ?_ .sorted⟩
  rw [added, List.filterMap_reverse]
  exact List.reverse_perm _

end Bitcode.Census
