import Bitcode.Proofs.Lookup.Extension

/-!
Rounds of additions come to an end. Every round adds a node until one changes no trie, and from then
on none does. What is reached is the least set of nodes that the abbreviations call for.
-/

namespace Bitcode.Lookup

open Forest (Ascend Below Pending Reaches)

/-- The paths to all nodes, the root among them. -/
def Trie.paths (trie : Trie) : List (List (Nat × UInt64)) :=
  [] :: trie.edges.paths

/-- The nodes that the trie with a key cannot do without: its root, and below any node whose path
has the constants of an abbreviation so far, the one for the next constant. -/
inductive Called (shapes : List Abbrev) (key : Nat) : List (Nat × UInt64) → Prop where
  | root {shape : Abbrev} (hshape : shape ∈ shapes) (hkey : key ∈ keysOf shape) :
      Called shapes key []
  | next {shape : Abbrev} {path : List (Nat × UInt64)} {position : Nat} {value : UInt64}
      (hpath : Called shapes key path) (hshape : shape ∈ shapes) (hkey : key ∈ keysOf shape)
      (hposition : position < shape.minRecordSize)
      (hvalue : shape.operators[position]? = some (.literal value))
      (hbehind : ∀ edge ∈ path, edge.1 < position)
      (hmet : ∀ earlier < position, ∀ constant,
        shape.operators[earlier]? = some (.literal constant) → (earlier, constant) ∈ path) :
      Called shapes key (path ++ [(position, value)])

section Called

variable {shapes : List Abbrev} {shape : Abbrev} {key : Nat} {path : List (Nat × UInt64)}

theorem Called.of_reaches {next : Nat × UInt64} (hpath : Called shapes key path)
    (hshape : shape ∈ shapes) (hkey : key ∈ keysOf shape)
    (hreaches : Reaches (literals shape) path next) : Called shapes key (path ++ [next]) := by
  obtain ⟨hnext, hbehind, hall⟩ := hreaches
  obtain ⟨hposition, hvalue⟩ := mem_literals.mp hnext
  refine .next hpath hshape hkey hposition hvalue hbehind ?_
  intro earlier hearlier constant hconstant
  exact hall (earlier, constant) (mem_literals.mpr ⟨hearlier.trans hposition, hconstant⟩) hearlier

theorem Called.ascend (hpath : Called shapes key path) : Ascend path := by
  induction hpath with
  | root => exact List.Pairwise.nil
  | next _ _ _ _ _ hbehind _ ih =>
      refine List.pairwise_append.mpr ⟨ih, List.pairwise_singleton _ _, ?_⟩
      intro edge hedge other hother
      rw [List.mem_singleton.mp hother]
      exact hbehind edge hedge

/-- Every edge on the way to a node is a constant of an abbreviation that belongs to the trie. -/
theorem Called.constant (hpath : Called shapes key path) : ∀ edge ∈ path, ∃ shape ∈ shapes,
    key ∈ keysOf shape ∧ edge.1 < shape.minRecordSize ∧
      shape.operators[edge.1]? = some (.literal edge.2) := by
  induction hpath with
  | root => exact fun _ hnone => absurd hnone List.not_mem_nil
  | next _ hshape hkey hposition hvalue _ _ ih =>
      intro edge hedge
      rcases List.mem_append.mp hedge with hedge | hedge
      · exact ih edge hedge
      · rw [List.mem_singleton.mp hedge]
        exact ⟨_, hshape, hkey, hposition, hvalue⟩

end Called

namespace Index

theorem eq_of_get? {index other : Index} (hindex : index.Ordered) (hother : other.Ordered)
    (hget : ∀ key, index.get? key = other.get? key) : index = other := by
  obtain ⟨tries⟩ := index
  obtain ⟨others⟩ := other
  exact congrArg Index.mk (Keyed.eq_of_lookup_eq hindex hother hget)

theorem trieAt_of_get? {index : Index} {key : Nat} {trie : Trie} (htrie : index.get? key = some trie) :
    index.trieAt key = trie := by
  rw [trieAt, htrie, Option.getD_some]

/-- All nodes, each with the key of its trie. -/
def nodes (index : Index) : List (Nat × List (Nat × UInt64)) :=
  index.tries.flatMap fun entry => entry.2.paths.map (entry.1, ·)

theorem length_nodes (index : Index) : index.nodes.length = index.size := by
  obtain ⟨tries⟩ := index
  induction tries with
  | nil => rfl
  | cons entry tries ih =>
      have hentry : entry.2.paths.length = entry.2.size := by
        rw [Trie.paths, Trie.size, List.length_cons, Forest.length_paths, Nat.add_comm]
      simp only [nodes, size] at ih
      simp only [nodes, size, List.flatMap_cons, List.length_append, List.length_map,
        List.foldr_cons, ih, hentry]

section Nodes

variable {index : Index} {key : Nat} {path : List (Nat × UInt64)}

theorem mem_nodes (hindex : index.Ordered) :
    (key, path) ∈ index.nodes ↔ ∃ trie, index.get? key = some trie ∧ path ∈ trie.paths := by
  simp only [nodes, List.mem_flatMap, List.mem_map]
  constructor
  · rintro ⟨⟨other, trie⟩, hentry, found, hpath, hsame⟩
    obtain ⟨rfl, rfl⟩ := Prod.mk.inj hsame
    exact ⟨trie, Keyed.lookup_eq_some_of_mem (Keyed.nodup_of_ascending hindex) hentry, hpath⟩
  · rintro ⟨trie, htrie, hpath⟩
    exact ⟨(key, trie), Keyed.mem_of_lookup_eq_some htrie, path, hpath, rfl⟩

theorem nil_mem_nodes (hindex : index.Ordered) :
    (key, []) ∈ index.nodes ↔ (index.get? key).isSome := by
  rw [mem_nodes hindex, Option.isSome_iff_exists]
  exact exists_congr fun trie => and_iff_left List.mem_cons_self

/-- Tries that additions have grown: edges ascend, and every node is called for. -/
structure Grown (shapes : List Abbrev) (index : Index) : Prop where
  ordered : index.Ordered
  sorted : ∀ key, (index.trieAt key).edges.Sorted
  starts : ∀ key, (index.trieAt key).edges.From 0
  called : ∀ node ∈ index.nodes, Called shapes node.1 node.2

variable {shapes : List Abbrev} {shape : Abbrev}

theorem grown_empty : ({} : Index).Grown shapes :=
  ⟨ordered_empty, fun _ => trivial, fun _ => trivial, fun _ hnone => absurd hnone List.not_mem_nil⟩

theorem Grown.below (hindex : index.Grown shapes) (hshape : shape ∈ shapes)
    (hkey : key ∈ keysOf shape) : Below (Called shapes key) [] (index.trieAt key).edges := by
  cases htrie : index.get? key with
  | none =>
      rw [trieAt, htrie]
      exact Forest.below_nil.mpr (.root hshape hkey)
  | some trie =>
      rw [trieAt_of_get? htrie]
      intro path hpath
      exact hindex.called (key, path) ((mem_nodes hindex.ordered).mpr ⟨trie, htrie, hpath⟩)

theorem Grown.add (hindex : index.Grown shapes) (hshape : shape ∈ shapes) :
    (index.add shape).Grown shapes := by
  have hascend : Ascend (literals shape) := pairwise_literalsFrom 0 shape.operators
  refine ⟨hindex.ordered.add shape, fun key => ?_, fun key => ?_, ?_⟩
  · rw [Index.add, trieAt_modify hindex.ordered]
    split
    · exact (hindex.sorted key).add _
    · exact hindex.sorted key
  · rw [Index.add, trieAt_modify hindex.ordered]
    split
    · exact (hindex.starts key).add hascend fun _ _ => Nat.zero_le _
    · exact hindex.starts key
  · rintro ⟨key, path⟩ hnode
    obtain ⟨trie, htrie, hpath⟩ := (mem_nodes (hindex.ordered.add shape)).mp hnode
    rw [Index.add, get?_modify hindex.ordered] at htrie
    split at htrie
    · rename_i hkey
      have hpending : Pending (literals shape) [] (literals shape) :=
        ⟨fun _ => Or.inr, List.Subset.refl _, hascend, fun _ hnone => absurd hnone List.not_mem_nil⟩
      rw [← Option.some.inj htrie] at hpath
      exact (hindex.below hshape hkey).add
        (fun _ _ hpath => hpath.of_reaches hshape hkey) hpending path hpath
    · exact hindex.called _ ((mem_nodes hindex.ordered).mpr ⟨trie, htrie, hpath⟩)

theorem Grown.addAll (hindex : index.Grown shapes) {added : List Abbrev} (hadded : added ⊆ shapes) :
    (addAll added index).Grown shapes := by
  induction added generalizing index with
  | nil => exact hindex
  | cons shape added ih =>
      obtain ⟨hshape, hadded⟩ := List.cons_subset.mp hadded
      exact ih (hindex.add hshape) hadded

theorem Grown.nodup_nodes (hindex : index.Grown shapes) : index.nodes.Nodup := by
  refine List.nodup_flatMap.mpr ⟨?_, ?_⟩
  · rintro ⟨key, trie⟩ hentry
    have htrie : index.get? key = some trie :=
      Keyed.lookup_eq_some_of_mem (Keyed.nodup_of_ascending hindex.ordered) hentry
    have hsorted := hindex.sorted key
    rw [trieAt_of_get? htrie] at hsorted
    exact hsorted.nodup_paths.map fun _ _ hsame => (Prod.mk.inj hsame).2
  · refine (List.pairwise_map.mp hindex.ordered).imp ?_
    rintro ⟨key, trie⟩ ⟨other, later⟩ hless node hnode hother
    obtain ⟨path, -, rfl⟩ := List.mem_map.mp hnode
    obtain ⟨path', -, hsame⟩ := List.mem_map.mp hother
    exact Nat.ne_of_gt hless (Prod.mk.inj hsame).1

theorem nodes_subset_add (hindex : index.Ordered) (shape : Abbrev) :
    index.nodes ⊆ (index.add shape).nodes := by
  rintro ⟨key, path⟩ hnode
  obtain ⟨trie, htrie, hpath⟩ := (mem_nodes hindex).mp hnode
  rw [mem_nodes (hindex.add shape), add, get?_modify hindex]
  split
  · rw [trieAt_of_get? htrie]
    exact ⟨_, rfl, List.cons_subset_cons _ (Forest.paths_subset_add _ _) hpath⟩
  · exact ⟨trie, htrie, hpath⟩

theorem nodes_subset_addAll (hindex : index.Ordered) (shapes : List Abbrev) :
    index.nodes ⊆ (addAll shapes index).nodes := by
  induction shapes generalizing index with
  | nil => exact List.Subset.refl _
  | cons shape shapes ih =>
      exact List.Subset.trans (nodes_subset_add hindex shape) (ih (hindex.add shape))

theorem Grown.foldl_extend (hindex : index.Grown shapes) {added : List Abbrev}
    (hadded : added ⊆ shapes) (grown : Bool) :
    added.foldl (fun state shape => extend shape state) (index, grown) =
      (Index.addAll added index, grown || decide (index.size < (Index.addAll added index).size)) := by
  induction added generalizing index grown with
  | nil => simp [Index.addAll]
  | cons shape added ih =>
      obtain ⟨hshape, hadded⟩ := List.cons_subset.mp hadded
      have hnext := hindex.add hshape
      rw [List.foldl_cons, extend_eq hindex.ordered hindex.sorted hindex.starts, ih hnext hadded,
        Bool.or_assoc, Forest.or_decide_lt (size_add hindex.ordered shape).1
          (closedUnder_of_size_addAll hnext.ordered added).1]
      rfl

theorem Grown.addAll_eq_self (hindex : index.Grown shapes)
    (hsize : (Index.addAll shapes index).size = index.size) : Index.addAll shapes index = index := by
  have hordered := hindex.ordered.addAll shapes
  have hkept := nodes_subset_addAll hindex.ordered shapes
  have hnone : (Index.addAll shapes index).nodes ⊆ index.nodes := by
    refine ((List.subperm_of_subset hindex.nodup_nodes hkept).perm_of_length_le ?_).symm.subset
    rw [length_nodes, length_nodes, hsize]
  have htries := ((closedUnder_of_size_addAll hindex.ordered shapes).2 hsize).1
  refine eq_of_get? hordered hindex.ordered fun key => ?_
  have hkeys : ((Index.addAll shapes index).get? key).isSome = (index.get? key).isSome := by
    rw [Bool.eq_iff_iff, ← nil_mem_nodes hordered, ← nil_mem_nodes hindex.ordered]
    exact ⟨fun hnode => hnone hnode, fun hnode => hkept hnode⟩
  have htrie := htries key
  unfold trieAt at htrie
  cases hbefore : index.get? key with
  | none => rwa [hbefore, Option.isSome_none, Option.isSome_eq_false_iff, Option.isNone_iff_eq_none]
      at hkeys
  | some trie =>
      rw [hbefore, Option.isSome_some, Option.isSome_iff_exists] at hkeys
      obtain ⟨other, hother⟩ := hkeys
      rw [hbefore, hother] at htrie
      rw [hother]
      exact congrArg some htrie

theorem Grown.extendAll_eq (hindex : index.Grown shapes) :
    extendAll shapes index =
      (Index.addAll shapes index, decide (Index.addAll shapes index ≠ index)) := by
  rw [extendAll, hindex.foldl_extend (List.Subset.refl _), Bool.false_or]
  refine congrArg (Prod.mk _) (decide_eq_decide.mpr ⟨?_, ?_⟩)
  · intro hless hsame
    rw [hsame] at hless
    exact Nat.lt_irrefl _ hless
  · intro hchange
    have hle := (closedUnder_of_size_addAll hindex.ordered shapes).1
    exact Nat.lt_of_le_of_ne hle fun hsize => hchange (hindex.addAll_eq_self hsize.symm)

theorem Grown.exists_new_node (hindex : index.Grown shapes)
    (hchange : Index.addAll shapes index ≠ index) :
    ∃ node ∈ (Index.addAll shapes index).nodes, node ∉ index.nodes := by
  by_contra hall
  push Not at hall
  have hnext : (Index.addAll shapes index).Grown shapes := hindex.addAll (List.Subset.refl _)
  have hle := (List.subperm_of_subset hnext.nodup_nodes fun _ hnode => hall _ hnode).length_le
  rw [length_nodes, length_nodes] at hle
  have hge := (closedUnder_of_size_addAll hindex.ordered shapes).1
  exact hchange (hindex.addAll_eq_self (Nat.le_antisymm hle hge))

theorem addAll_eq_self_of_closedUnder (hindex : index.Ordered)
    (hclosed : ∀ shape ∈ shapes, index.ClosedUnder shape)
    (hkeys : ∀ shape ∈ shapes, ∀ key ∈ keysOf shape, (key, []) ∈ index.nodes) :
    addAll shapes index = index := by
  induction shapes with
  | nil => rfl
  | cons shape shapes ih =>
      rw [List.forall_mem_cons] at hclosed hkeys
      have hsame : index.add shape = index := by
        refine eq_of_get? (hindex.add shape) hindex fun key => ?_
        rw [add, get?_modify hindex]
        split
        · rename_i hkey
          obtain ⟨trie, htrie, -⟩ := (mem_nodes hindex).mp (hkeys.1 key hkey)
          have hedges := hclosed.1 key hkey
          rw [trieAt_of_get? htrie] at hedges ⊢
          rw [Trie.add, Forest.add_eq_self hedges, htrie]
        · rfl
      change addAll shapes (index.add shape) = index
      rw [hsame, ih hclosed.2 hkeys.2]

end Nodes

/-- The tries after a number of rounds, from none on. -/
def round (shapes : List Abbrev) : Nat → Index
  | 0 => {}
  | n + 1 => addAll shapes (round shapes n)

section Round

variable {shapes : List Abbrev} {shape : Abbrev} {key n : Nat}

theorem grown_round (shapes : List Abbrev) (n : Nat) : (round shapes n).Grown shapes := by
  induction n with
  | zero => exact grown_empty
  | succ n ih => exact ih.addAll (List.Subset.refl _)

theorem closedTo_round (hshape : shape ∈ shapes) (hkey : key ∈ keysOf shape) (n : Nat) :
    ((round shapes n).trieAt key).edges.ClosedTo n shape := by
  induction n generalizing shape with
  | zero => exact Forest.closedTo_zero _ _
  | succ n ih =>
      rw [round, trieAt_addAll (grown_round shapes n).ordered]
      refine Forest.closedTo_addRound ?_ shape (List.mem_filter.mpr ⟨hshape, by simpa using hkey⟩)
      intro member hmember
      obtain ⟨hmember, hin⟩ := List.mem_filter.mp hmember
      exact ih hmember (by simpa using hin)

theorem nil_mem_nodes_addAll {index : Index} (hindex : index.Ordered) (hshape : shape ∈ shapes)
    (hkey : key ∈ keysOf shape) : (key, []) ∈ (addAll shapes index).nodes := by
  induction shapes generalizing index with
  | nil => exact absurd hshape List.not_mem_nil
  | cons first shapes ih =>
      rcases List.mem_cons.mp hshape with rfl | hshape
      · refine nodes_subset_addAll (hindex.add shape) shapes ?_
        rw [nil_mem_nodes (hindex.add shape), add, get?_modify hindex, if_pos hkey]
        rfl
      · exact ih (hindex.add first) hshape

theorem round_roundBound_succ (shapes : List Abbrev) :
    round shapes (roundBound shapes + 1) = round shapes (roundBound shapes) := by
  refine addAll_eq_self_of_closedUnder (grown_round _ _).ordered ?_ ?_
  · intro shape hshape key hkey
    exact (closedTo_round hshape hkey _).closed (Nat.le_of_lt (minRecordSize_lt_roundBound hshape))
  · intro shape hshape key hkey
    exact nil_mem_nodes_addAll (grown_round _ _).ordered hshape hkey

theorem round_add_of_settled (hsettled : round shapes (n + 1) = round shapes n) (more : Nat) :
    round shapes (n + more) = round shapes n := by
  induction more with
  | zero => rfl
  | succ more ih => rw [← Nat.add_assoc, round, ih, ← round, hsettled]

theorem complete_round {last : Nat} (hsettled : round shapes (last + 1) = round shapes last)
    {limit : Nat} (hlimit : last ≤ n + limit) :
    complete shapes limit (round shapes n) = round shapes last := by
  induction limit generalizing n with
  | zero =>
      obtain ⟨more, rfl⟩ := Nat.exists_eq_add_of_le hlimit
      exact round_add_of_settled hsettled more
  | succ limit ih =>
      have hnext : addAll shapes (round shapes n) = round shapes (n + 1) := rfl
      rw [complete_succ]
      split
      · rename_i hsize
        have hsame : round shapes (n + 1) = round shapes n :=
          (grown_round shapes n).addAll_eq_self hsize
        calc
          addAll shapes (round shapes n) = round shapes n := hsame
          _ = round shapes (n + last) := (round_add_of_settled hsame last).symm
          _ = round shapes (last + n) := by rw [Nat.add_comm]
          _ = round shapes last := round_add_of_settled hsettled n
      · rw [hnext]
        exact ih (by omega)

theorem closedUnder_of_settled (hsettled : round shapes (n + 1) = round shapes n)
    (hshape : shape ∈ shapes) : (round shapes n).ClosedUnder shape :=
  ((closedUnder_of_size_addAll (grown_round shapes n).ordered shapes).2
    (congrArg size hsettled)).2 shape hshape

theorem nil_mem_nodes_of_settled (hsettled : round shapes (n + 1) = round shapes n)
    (hshape : shape ∈ shapes) (hkey : key ∈ keysOf shape) :
    (key, []) ∈ (round shapes n).nodes := by
  rw [← hsettled]
  exact nil_mem_nodes_addAll (grown_round shapes n).ordered hshape hkey

theorem mem_nodes_iff_called (hsettled : round shapes (n + 1) = round shapes n)
    {path : List (Nat × UInt64)} : (key, path) ∈ (round shapes n).nodes ↔ Called shapes key path := by
  have hgrown := grown_round shapes n
  constructor
  · exact hgrown.called (key, path)
  · intro hcalled
    induction hcalled with
    | root hshape hkey => exact nil_mem_nodes_of_settled hsettled hshape hkey
    | @next shape path position value _ hshape hkey hposition hvalue hbehind hmet ih =>
        obtain ⟨trie, htrie, hpath⟩ := (mem_nodes hgrown.ordered).mp ih
        refine (mem_nodes hgrown.ordered).mpr ⟨trie, htrie, List.mem_cons_of_mem _ ?_⟩
        have hreaches : Reaches (literals shape) path (position, value) := by
          refine ⟨mem_literals.mpr ⟨hposition, hvalue⟩, hbehind, ?_⟩
          rintro ⟨earlier, constant⟩ hliteral hless
          exact hmet earlier hless constant (mem_literals.mp hliteral).2
        have hclosed := closedUnder_of_settled hsettled hshape key hkey
        have hsorted := hgrown.sorted key
        have hstarts := hgrown.starts key
        rw [trieAt_of_get? htrie] at hclosed hsorted hstarts
        exact hclosed.concat_mem_paths hsorted hstarts (pairwise_literalsFrom 0 shape.operators)
          hpath hreaches

end Round

section Record

variable {index : Index} {numbered all : List (Nat × Abbrev)} {shape : Abbrev}

theorem mem_nodes_record (row : Nat) (hindex : index.Ordered)
    (hkeys : ∀ key ∈ keysOf shape, (key, []) ∈ index.nodes)
    (node : Nat × List (Nat × UInt64)) :
    node ∈ (index.modify shape (·.insert row shape)).nodes ↔ node ∈ index.nodes := by
  obtain ⟨key, path⟩ := node
  rw [mem_nodes hindex.modify, mem_nodes hindex, get?_modify hindex]
  split
  · rename_i hkey
    obtain ⟨trie, htrie, -⟩ := (mem_nodes hindex).mp (hkeys key hkey)
    have hpaths : (trie.insert row shape).paths = trie.paths :=
      congrArg ([] :: ·) (Forest.alike_insert row shape trie.edges).paths_eq.symm
    simp only [trieAt_of_get? htrie, htrie, Option.some.injEq, exists_eq_left', hpaths]
  · exact Iff.rfl

theorem mem_nodes_recordAll (hindex : index.Ordered)
    (hkeys : ∀ entry ∈ numbered, ∀ key ∈ keysOf entry.2, (key, []) ∈ index.nodes)
    (node : Nat × List (Nat × UInt64)) :
    node ∈ (recordAll numbered index).nodes ↔ node ∈ index.nodes := by
  induction numbered generalizing index with
  | nil => exact Iff.rfl
  | cons entry numbered ih =>
      rw [List.forall_mem_cons] at hkeys
      have hnodes := mem_nodes_record entry.1 hindex hkeys.1
      refine (ih hindex.modify ?_).trans (hnodes node)
      intro other hother key hkey
      exact (hnodes _).mpr (hkeys.2 other hother key hkey)

theorem Searchable.recordAll (hindex : index.Searchable all) :
    (recordAll numbered index).Searchable all := by
  induction numbered generalizing index with
  | nil => exact hindex
  | cons entry numbered ih => exact ih (hindex.record entry.1 entry.2)

theorem map_snd_numberedFrom (abbrevs : List Abbrev) (first : Nat) :
    (numberedFrom abbrevs first).map (·.2) = abbrevs.drop first := by
  have hall : abbrevs.zipIdx.map (·.1) = abbrevs := List.zipIdx_map_fst 0 abbrevs
  rw [numberedFrom, List.map_map]
  change (abbrevs.zipIdx.drop first).map (·.1) = _
  rw [List.map_drop, hall]

theorem ofRows_eq (abbrevs : List Abbrev) (first : Nat) :
    ofRows abbrevs first = recordAll (numberedFrom abbrevs first)
      (complete (abbrevs.drop first) (roundBound (abbrevs.drop first)) {}) := by
  rw [← map_snd_numberedFrom]
  rfl

end Record

/-- For the abbreviations from any row on, rounds of additions settle: so many of them each add a
node, and no later one changes a trie. Extending the tries makes the same rounds, and tells of each
whether it is one that adds. The loop over rounds ends there, whatever its limit. Recording
the rows changes no node, so one more round would leave the index as it is. The nodes are those that
are called for; along every path positions ascend, and all edges are constants of abbreviations that
belong to the trie. -/
theorem rounds_settle (abbrevs : List Abbrev) (first : Nat) :
    ∃ last ≤ roundBound (abbrevs.drop first),
      (∀ n < last, (round (abbrevs.drop first) n).nodes ⊆ (round (abbrevs.drop first) (n + 1)).nodes ∧
        ∃ node ∈ (round (abbrevs.drop first) (n + 1)).nodes,
          node ∉ (round (abbrevs.drop first) n).nodes) ∧
      (∀ n ≥ last, round (abbrevs.drop first) n = round (abbrevs.drop first) last) ∧
      (∀ n, extendAll (abbrevs.drop first) (round (abbrevs.drop first) n) =
        (round (abbrevs.drop first) (n + 1), decide (n < last))) ∧
      (∀ limit ≥ last, complete (abbrevs.drop first) limit {} = round (abbrevs.drop first) last) ∧
      addAll (abbrevs.drop first) (ofRows abbrevs first) = ofRows abbrevs first ∧
      (∀ node, node ∈ (ofRows abbrevs first).nodes ↔
        node ∈ (round (abbrevs.drop first) last).nodes) ∧
      (∀ node, node ∈ (ofRows abbrevs first).nodes ↔ Called (abbrevs.drop first) node.1 node.2) ∧
      ∀ n, ∀ node ∈ (round (abbrevs.drop first) n).nodes,
        (node.2.Pairwise fun edge deeper => edge.1 < deeper.1) ∧
          ∀ edge ∈ node.2, ∃ shape ∈ abbrevs.drop first, node.1 ∈ keysOf shape ∧
            edge.1 < shape.minRecordSize ∧ shape.operators[edge.1]? = some (.literal edge.2) := by
  have hofRows := ofRows_eq abbrevs first
  have hnumbered := map_snd_numberedFrom abbrevs first
  generalize hshapes : abbrevs.drop first = shapes at hofRows hnumbered ⊢
  have hsome : ∃ n, round shapes (n + 1) = round shapes n := ⟨_, round_roundBound_succ shapes⟩
  -- The first round that changes nothing comes after the last one that adds a node.
  let last := Nat.find hsome
  have hsettled : round shapes (last + 1) = round shapes last := Nat.find_spec hsome
  have hbound : last ≤ roundBound shapes := Nat.find_min' hsome (round_roundBound_succ shapes)
  have hcomplete : ∀ limit ≥ last, complete shapes limit {} = round shapes last :=
    fun limit hlimit => complete_round hsettled (n := 0) (by omega)
  rw [hcomplete _ hbound] at hofRows
  have hsearchable := searchable_complete (numberedFrom abbrevs first)
  rw [hnumbered, hcomplete _ hbound] at hsearchable
  have hshape : ∀ entry ∈ numberedFrom abbrevs first, entry.2 ∈ shapes :=
    fun entry hentry => hnumbered ▸ List.mem_map_of_mem hentry
  have hnodes : ∀ node, node ∈ (ofRows abbrevs first).nodes ↔ node ∈ (round shapes last).nodes := by
    rw [hofRows]
    exact mem_nodes_recordAll hsearchable.ordered fun entry hentry key hkey =>
      nil_mem_nodes_of_settled hsettled (hshape entry hentry) hkey
  have hafter : ∀ n ≥ last, round shapes n = round shapes last := by
    intro n hle
    obtain ⟨more, rfl⟩ := Nat.exists_eq_add_of_le hle
    exact round_add_of_settled hsettled more
  refine ⟨last, hbound, fun n hless => ?_, hafter, fun n => ?_, hcomplete, ?_, hnodes, ?_, ?_⟩
  · have hgrown := grown_round shapes n
    exact ⟨nodes_subset_addAll hgrown.ordered shapes,
      hgrown.exists_new_node (Nat.find_min hsome hless)⟩
  · rw [(grown_round shapes n).extendAll_eq]
    refine congrArg (Prod.mk _) (decide_eq_decide.mpr ⟨fun hchange => ?_, Nat.find_min hsome⟩)
    by_contra hle
    exact hchange ((hafter (n + 1) (by omega)).trans (hafter n (by omega)).symm)
  · have hrecorded : (ofRows abbrevs first).Searchable (numberedFrom abbrevs first) := by
      rw [hofRows]
      exact hsearchable.recordAll
    refine addAll_eq_self_of_closedUnder hrecorded.ordered ?_ ?_
    · intro shape hmem
      rw [← hnumbered] at hmem
      obtain ⟨entry, hentry, rfl⟩ := List.mem_map.mp hmem
      exact hrecorded.closed entry hentry
    · intro shape hmem key hkey
      exact (hnodes _).mpr (nil_mem_nodes_of_settled hsettled hmem hkey)
  · exact fun node => (hnodes node).trans (mem_nodes_iff_called hsettled)
  · intro n node hnode
    have hcalled := (grown_round shapes n).called node hnode
    exact ⟨hcalled.ascend, hcalled.constant⟩

end Index

end Bitcode.Lookup
