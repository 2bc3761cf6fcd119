import Bitcode.Lookup.Index
import Bitcode.Proofs.Keyed
import Bitcode.Proofs.Lookup.Closure

namespace Bitcode.Lookup

theorem nodup_keysOf (shape : Abbrev) : (keysOf shape).Nodup :=
  List.nodup_range.sublist (List.drop_sublist _ _)

theorem mem_keysOf {shape : Abbrev} {key : Nat} :
    key ∈ keysOf shape ↔
      keyFor shape.minRecordSize ≤ key ∧
        key ≤ if shape.isFixedSize then keyFor shape.minRecordSize else maxKey := by
  have hsmall : keyFor shape.minRecordSize ≤ maxKey := Nat.min_le_right _ _
  rw [keysOf, List.range_eq_range', List.drop_range', List.mem_range'_1]
  split <;> omega

namespace Index

/-- The trie with a key, which is empty if the index has none. -/
def trieAt (index : Index) (key : Nat) : Trie :=
  (index.get? key).getD {}

/-- The keys of the tries ascend. -/
def Ordered (index : Index) : Prop :=
  Keyed.Ascending index.tries

theorem ordered_empty : ({} : Index).Ordered :=
  List.Pairwise.nil

section Modify

variable {index : Index} {shape : Abbrev} {change : Trie → Trie}

theorem Ordered.modify (hindex : index.Ordered) : (index.modify shape change).Ordered :=
  Keyed.ascending_foldl_updateSorted _ hindex

theorem get?_modify (hindex : index.Ordered) (key : Nat) :
    (index.modify shape change).get? key =
      if key ∈ keysOf shape then some (change (index.trieAt key)) else index.get? key :=
  Keyed.lookup_foldl_updateSorted (nodup_keysOf shape) hindex key

/-- A change reaches the tries that the abbreviation belongs to. -/
theorem trieAt_modify (hindex : index.Ordered) (key : Nat) :
    (index.modify shape change).trieAt key =
      if key ∈ keysOf shape then change (index.trieAt key) else index.trieAt key := by
  rw [trieAt, get?_modify hindex]
  split
  · rfl
  · rfl

end Modify

section Size

theorem size_updateSorted {change : Trie → Trie} (hgrow : ∀ trie, trie.size ≤ (change trie).size)
    (key : Nat) (tries : List (Nat × Trie)) :
    size ⟨tries⟩ ≤ size ⟨Keyed.updateSorted key {} change tries⟩ ∧
      (size ⟨Keyed.updateSorted key {} change tries⟩ = size ⟨tries⟩ →
        (change ((tries.lookup key).getD {})).size = ((tries.lookup key).getD {}).size) := by
  have hfresh : 0 < (change {}).size := Nat.lt_of_lt_of_le (by decide) (hgrow {})
  induction tries with
  | nil =>
      simp only [size, Keyed.updateSorted, List.foldr_cons, List.foldr_nil]
      exact ⟨by omega, fun hsize => by omega⟩
  | cons entry rest ih =>
      obtain ⟨first, trie⟩ := entry
      have hold := hgrow trie
      simp only [size] at ih
      unfold Keyed.updateSorted
      split
      · rename_i hfirst
        subst hfirst
        simp only [size, List.foldr_cons, List.lookup_cons_self, Option.getD_some]
        exact ⟨by omega, fun hsize => by omega⟩
      · rename_i hne
        split
        · simp only [size, List.foldr_cons]
          exact ⟨by omega, fun hsize => by omega⟩
        · rw [Keyed.lookup_cons_of_ne _ _ (Ne.symm hne)]
          simp only [size, List.foldr_cons]
          exact ⟨by omega, fun hsize => ih.2 (by omega)⟩

theorem size_foldl_update {change : Trie → Trie} (hgrow : ∀ trie, trie.size ≤ (change trie).size)
    {keys : List Nat} (hkeys : keys.Nodup) {tries : List (Nat × Trie)}
    (htries : Keyed.Ascending tries) :
    let final := keys.foldl (fun tries key => Keyed.updateSorted key {} change tries) tries
    size ⟨tries⟩ ≤ size ⟨final⟩ ∧
      (size ⟨final⟩ = size ⟨tries⟩ → ∀ key ∈ keys,
        (change ((tries.lookup key).getD {})).size = ((tries.lookup key).getD {}).size) := by
  induction keys generalizing tries with
  | nil => simp
  | cons first keys ih =>
      obtain ⟨hfirst, hrest⟩ := List.nodup_cons.mp hkeys
      obtain ⟨hstep, hsame⟩ := size_updateSorted hgrow first tries
      obtain ⟨hlater, hothers⟩ := ih hrest (Keyed.ascending_updateSorted htries)
      refine ⟨Nat.le_trans hstep hlater, ?_⟩
      intro hsize key hkey
      simp only [List.foldl_cons] at hsize
      rcases List.mem_cons.mp hkey with rfl | hkey
      · exact hsame (by omega)
      · have hne : key ≠ first := fun heq => hfirst (heq ▸ hkey)
        have hlast := hothers (by omega) key hkey
        rwa [Keyed.getD_lookup_updateSorted htries, if_neg hne] at hlast

/-- The tries that an abbreviation belongs to call for none of its nodes. -/
def ClosedUnder (index : Index) (shape : Abbrev) : Prop :=
  ∀ key ∈ keysOf shape, (index.trieAt key).edges.Closed (literals shape)

theorem size_le_add (shape : Abbrev) (trie : Trie) : trie.size ≤ (trie.add shape).size := by
  have hforest := (Forest.size_le_add trie.edges (literals shape)).1
  simp only [Trie.size, Trie.add]
  omega

theorem size_add {index : Index} (hindex : index.Ordered) (shape : Abbrev) :
    index.size ≤ (index.add shape).size ∧
      ((index.add shape).size = index.size → index.ClosedUnder shape) := by
  obtain ⟨hle, hsame⟩ := size_foldl_update (size_le_add shape) (nodup_keysOf shape) hindex
  refine ⟨hle, ?_⟩
  intro hsize key hkey
  have htrie : ((index.trieAt key).add shape).size = (index.trieAt key).size :=
    hsame hsize key hkey
  simp only [Trie.size, Trie.add] at htrie
  exact (Forest.size_le_add _ _).2 (by omega)

theorem trieAt_add_of_closedUnder {index : Index} (hindex : index.Ordered) {shape : Abbrev}
    (hclosed : index.ClosedUnder shape) (key : Nat) :
    (index.add shape).trieAt key = index.trieAt key := by
  rw [add, trieAt_modify hindex]
  split
  · rename_i hkey
    rw [Trie.add, Forest.add_eq_self (hclosed key hkey)]
  · rfl

theorem Ordered.add {index : Index} (hindex : index.Ordered) (shape : Abbrev) :
    (index.add shape).Ordered :=
  hindex.modify

theorem Ordered.addAll {index : Index} (hindex : index.Ordered) (shapes : List Abbrev) :
    (addAll shapes index).Ordered := by
  induction shapes generalizing index with
  | nil => exact hindex
  | cons shape shapes ih => exact ih (hindex.add shape)

theorem closedUnder_of_size_addAll {index : Index} (hindex : index.Ordered) (shapes : List Abbrev) :
    index.size ≤ (addAll shapes index).size ∧
      ((addAll shapes index).size = index.size →
        (∀ key, (addAll shapes index).trieAt key = index.trieAt key) ∧
          ∀ shape ∈ shapes, index.ClosedUnder shape) := by
  induction shapes generalizing index with
  | nil => exact ⟨Nat.le_refl _, fun _ => ⟨fun _ => rfl, by simp⟩⟩
  | cons first shapes ih =>
      obtain ⟨hstep, hfirst⟩ := size_add hindex first
      obtain ⟨hlater, hrest⟩ := ih (hindex.add first)
      refine ⟨Nat.le_trans hstep hlater, ?_⟩
      intro hsize
      change (addAll shapes (index.add first)).size = index.size at hsize
      have hclosed := hfirst (by omega)
      have hunchanged := trieAt_add_of_closedUnder hindex hclosed
      obtain ⟨htries, hothers⟩ := hrest (by omega)
      refine ⟨fun key => (htries key).trans (hunchanged key), ?_⟩
      intro shape hshape
      rcases List.mem_cons.mp hshape with rfl | hshape
      · exact hclosed
      · intro key hkey
        rw [← hunchanged key]
        exact hothers shape hshape key hkey

end Size

section Rounds

variable {index : Index} {shapes : List Abbrev}

theorem trieAt_addAll (hindex : index.Ordered) (shapes : List Abbrev) (key : Nat) :
    ((addAll shapes index).trieAt key).edges =
      (index.trieAt key).edges.addRound (shapes.filter (key ∈ keysOf ·)) := by
  induction shapes generalizing index with
  | nil => rfl
  | cons shape shapes ih =>
      change ((addAll shapes (index.add shape)).trieAt key).edges = _
      rw [ih (hindex.add shape), add, trieAt_modify hindex]
      by_cases hkey : key ∈ keysOf shape
      · rw [if_pos hkey, List.filter_cons_of_pos (by simpa using hkey)]
        rfl
      · rw [if_neg hkey, List.filter_cons_of_neg (by simpa using hkey)]

theorem complete_succ (shapes : List Abbrev) (rounds : Nat) (index : Index) :
    complete shapes (rounds + 1) index =
      if (addAll shapes index).size = index.size then addAll shapes index
      else complete shapes rounds (addAll shapes index) :=
  rfl

theorem Ordered.complete (hindex : index.Ordered) (shapes : List Abbrev) (rounds : Nat) :
    (complete shapes rounds index).Ordered := by
  induction rounds generalizing index with
  | zero => exact hindex
  | succ rounds ih =>
      rw [complete_succ]
      split
      · exact hindex.addAll shapes
      · exact ih (hindex.addAll shapes)

theorem closedUnder_complete (bound : Nat) {rounds : Nat} (hindex : index.Ordered)
    (hclosed : ∀ key, ∀ shape ∈ shapes, key ∈ keysOf shape →
      (index.trieAt key).edges.ClosedTo bound shape)
    (hrounds : ∀ shape ∈ shapes, shape.minRecordSize ≤ bound + rounds) :
    ∀ shape ∈ shapes, (complete shapes rounds index).ClosedUnder shape := by
  induction rounds generalizing index bound with
  | zero =>
      intro shape hshape key hkey
      exact (hclosed key shape hshape hkey).closed (hrounds shape hshape)
  | succ rounds ih =>
      intro shape hshape
      rw [complete_succ]
      split
      · rename_i hsize
        obtain ⟨hsame, hall⟩ := (closedUnder_of_size_addAll hindex shapes).2 hsize
        intro key hkey
        rw [hsame key]
        exact hall shape hshape key hkey
      · refine ih (bound + 1) (hindex.addAll shapes) ?_ ?_ shape hshape
        · intro key other hother hkey
          rw [trieAt_addAll hindex]
          refine Forest.closedTo_addRound ?_ other (List.mem_filter.mpr ⟨hother, by simpa using hkey⟩)
          intro member hmember
          obtain ⟨hmember, hin⟩ := List.mem_filter.mp hmember
          exact hclosed key member hmember (by simpa using hin)
        · intro other hother
          have hbound := hrounds other hother
          omega

theorem le_foldl_max (sizes : List Nat) (start : Nat) :
    start ≤ sizes.foldl max start ∧ ∀ size ∈ sizes, size ≤ sizes.foldl max start := by
  induction sizes generalizing start with
  | nil => simp
  | cons first sizes ih =>
      obtain ⟨hstart, hsizes⟩ := ih (max start first)
      rw [List.foldl_cons]
      refine ⟨by omega, ?_⟩
      intro size hsize
      rcases List.mem_cons.mp hsize with rfl | hsize
      · omega
      · exact hsizes size hsize

theorem minRecordSize_lt_roundBound {shape : Abbrev} (hshape : shape ∈ shapes) :
    shape.minRecordSize < roundBound shapes := by
  have hle := (le_foldl_max (shapes.map Abbrev.minRecordSize) 0).2 shape.minRecordSize
    (List.mem_map_of_mem hshape)
  rw [roundBound]
  omega

theorem closedUnder_complete_roundBound {shape : Abbrev} (hshape : shape ∈ shapes) :
    (complete shapes (roundBound shapes) {}).ClosedUnder shape := by
  refine closedUnder_complete 0 ordered_empty ?_ ?_ shape hshape
  · intro key other _ _
    exact Forest.closedTo_zero _ _
  · intro other hother
    have hbound := minRecordSize_lt_roundBound hother
    omega

end Rounds

end Index

end Bitcode.Lookup
