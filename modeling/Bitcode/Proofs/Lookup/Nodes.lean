import Bitcode.Proofs.Lookup.Exact

namespace Bitcode.Lookup

namespace Forest

/-- The paths to the nodes, as the positions and values along them. -/
def paths : Forest → List (List (Nat × UInt64))
  | .nil => []
  | .edge position value _ below others =>
      [(position, value)] :: (below.paths.map ((position, value) :: ·) ++ others.paths)

theorem length_paths (forest : Forest) : forest.paths.length = forest.size := by
  induction forest with
  | nil => rfl
  | edge position value rows below others ihbelow ihothers =>
      simp only [paths, size, List.length_cons, List.length_append, List.length_map, ihbelow,
        ihothers]
      omega

theorem mem_paths_edge {position : Nat} {value : UInt64} {rows : List Nat} {below others : Forest}
    {path : List (Nat × UInt64)} :
    path ∈ (edge position value rows below others).paths ↔
      (∃ rest ∈ [] :: below.paths, path = (position, value) :: rest) ∨ path ∈ others.paths := by
  simp [paths, or_assoc, eq_comm]

theorem Alike.paths_eq {first second : Forest} (halike : first.Alike second) :
    first.paths = second.paths := by
  induction first generalizing second with
  | nil =>
      cases second with
      | nil => rfl
      | edge => exact halike.elim
  | edge position value rows below others ihbelow ihothers =>
      cases second with
      | nil => exact halike.elim
      | edge position' value' rows' below' others' =>
          obtain ⟨rfl, rfl, hbelow, hothers⟩ := halike
          rw [paths, paths, ihbelow hbelow, ihothers hothers]

theorem paths_subset_add (forest : Forest) (literals : List (Nat × UInt64)) :
    forest.paths ⊆ (forest.add literals).paths := by
  fun_induction add forest literals with
  | case1 forest => exact List.Subset.refl _
  | case2 literals => exact List.nil_subset _
  | case3 position value rows below others next constant rest hbefore ihbelow ihothers =>
      intro path hpath
      rw [mem_paths_edge] at hpath ⊢
      refine hpath.imp ?_ fun hothers => ihothers hothers
      rintro ⟨rest, hrest, rfl⟩
      exact ⟨rest, List.cons_subset_cons _ ihbelow hrest, rfl⟩
  | case4 position value rows below others next constant rest hbefore hsame ih =>
      intro path hpath
      rw [mem_paths_edge] at hpath ⊢
      refine hpath.imp_left ?_
      rintro ⟨rest, hrest, rfl⟩
      exact ⟨rest, List.cons_subset_cons _ ih hrest, rfl⟩
  | case5 position value rows below others next constant rest hbefore hsame hsmaller ih =>
      intro path hpath
      rw [mem_paths_edge] at hpath ⊢
      exact hpath.imp_right fun hothers => ih hothers
  | case6 position value rows below others next constant rest hbefore hsame hsmaller =>
      intro path hpath
      exact mem_paths_edge.mpr (Or.inr hpath)

/-- The edges of a node lie behind a position and value. -/
def Behind (position : Nat) (value : UInt64) : Forest → Prop
  | .nil => True
  | .edge next constant _ _ others =>
      (position < next ∨ position = next ∧ value < constant) ∧ others.Behind position value

/-- The edges of every node ascend. -/
def Sorted : Forest → Prop
  | .nil => True
  | .edge position value _ below others =>
      others.Behind position value ∧ below.Sorted ∧ others.Sorted

section Sorted

variable {forest : Forest} {position next : Nat} {value constant : UInt64}
  {literals rest : List (Nat × UInt64)}

theorem Behind.trans (hforest : forest.Behind next constant)
    (hless : position < next ∨ position = next ∧ value < constant) :
    forest.Behind position value := by
  induction forest with
  | nil => trivial
  | edge other found rows below others _ ihothers =>
      obtain ⟨hother, hothers⟩ := hforest
      refine ⟨?_, ihothers hothers⟩
      rcases hless with hless | ⟨rfl, hless⟩
      · exact Or.inl (by omega)
      · exact hother.imp_right fun hfound => ⟨hfound.1, UInt64.lt_trans hless hfound.2⟩

theorem Behind.add (hforest : forest.Behind position value)
    (hless : position < next ∨ position = next ∧ value < constant) :
    (forest.add ((next, constant) :: rest)).Behind position value := by
  induction forest with
  | nil => exact ⟨hless, trivial⟩
  | edge other found rows below others _ ihothers =>
      obtain ⟨hother, hothers⟩ := hforest
      rcases edge_cases other next found constant with
        hbefore | ⟨rfl, rfl⟩ | ⟨rfl, hsmaller⟩ | hafter
      · rw [add_before hbefore]
        exact ⟨hother, ihothers hothers⟩
      · rw [add_same]
        exact ⟨hother, hothers⟩
      · rw [add_smaller hsmaller]
        exact ⟨hother, ihothers hothers⟩
      · rw [add_after hafter]
        exact ⟨hless, hother, hothers⟩

theorem sorted_path (literals : List (Nat × UInt64)) : (path literals).Sorted := by
  induction literals with
  | nil => trivial
  | cons literal rest ih => exact ⟨trivial, ih, trivial⟩

theorem Sorted.add (hforest : forest.Sorted) (literals : List (Nat × UInt64)) :
    (forest.add literals).Sorted := by
  induction forest generalizing literals with
  | nil =>
      cases literals with
      | nil => trivial
      | cons literal rest => exact sorted_path _
  | edge position value rows below others ihbelow ihothers =>
      obtain _ | ⟨⟨next, constant⟩, rest⟩ := literals
      · exact hforest
      obtain ⟨hbehind, hbelow, hothers⟩ := hforest
      rcases edge_cases position next value constant with
        hbefore | ⟨rfl, rfl⟩ | ⟨rfl, hsmaller⟩ | hafter
      · rw [add_before hbefore]
        exact ⟨hbehind.add (Or.inl hbefore), ihbelow hbelow _, ihothers hothers _⟩
      · rw [add_same]
        exact ⟨hbehind, ihbelow hbelow _, hothers⟩
      · rw [add_smaller hsmaller]
        exact ⟨hbehind.add (Or.inr ⟨rfl, hsmaller⟩), hbelow, ihothers hothers _⟩
      · rw [add_after hafter]
        exact ⟨⟨hafter, hbehind.trans hafter⟩, sorted_path rest, hbehind, hbelow, hothers⟩

theorem Behind.cons_notMem_paths (hforest : forest.Behind position value) :
    (position, value) :: rest ∉ forest.paths := by
  induction forest with
  | nil => exact List.not_mem_nil
  | edge other found rows below others _ ihothers =>
      obtain ⟨hother, hothers⟩ := hforest
      rw [mem_paths_edge]
      rintro (⟨more, -, hsame⟩ | hpath)
      · obtain ⟨hedge, -⟩ := List.cons.inj hsame
        obtain ⟨rfl, rfl⟩ := Prod.mk.inj hedge
        rcases hother with hother | ⟨-, hother⟩
        · exact Nat.lt_irrefl _ hother
        · exact UInt64.lt_irrefl _ hother
      · exact ihothers hothers hpath

theorem nil_notMem_paths (forest : Forest) : [] ∉ forest.paths := by
  induction forest with
  | nil => exact List.not_mem_nil
  | edge position value rows below others _ ihothers =>
      rw [mem_paths_edge]
      rintro (⟨rest, -, hsame⟩ | hpath)
      · cases hsame
      · exact ihothers hpath

theorem Sorted.nodup_paths (hforest : forest.Sorted) : ([] :: forest.paths).Nodup := by
  rw [List.nodup_cons]
  refine ⟨nil_notMem_paths forest, ?_⟩
  induction forest with
  | nil => exact List.nodup_nil
  | edge position value rows below others ihbelow ihothers =>
      obtain ⟨hbehind, hbelow, hothers⟩ := hforest
      have hsplit : (edge position value rows below others).paths =
          ([] :: below.paths).map ((position, value) :: ·) ++ others.paths := rfl
      rw [hsplit, List.nodup_append]
      refine ⟨?_, ihothers hothers, ?_⟩
      · exact (List.nodup_cons.mpr ⟨nil_notMem_paths below, ihbelow hbelow⟩).map
          (List.cons_injective)
      · rintro first hfirst second hsecond rfl
        obtain ⟨more, -, rfl⟩ := List.mem_map.mp hfirst
        exact hbehind.cons_notMem_paths hsecond

end Sorted

section Steps

variable {forest : Forest} {start : Nat} {path : List (Nat × UInt64)}

theorem From.of_mem_paths {start : Nat} (hforest : forest.From start)
    {path : List (Nat × UInt64)} (hpath : path ∈ forest.paths) :
    (∀ edge ∈ path, start ≤ edge.1) ∧ path.Pairwise fun first second => first.1 < second.1 := by
  induction forest generalizing path start with
  | nil => exact absurd hpath List.not_mem_nil
  | edge position value rows below others ihbelow ihothers =>
      obtain ⟨hposition, hbelow, hothers⟩ := hforest
      rcases mem_paths_edge.mp hpath with ⟨rest, hrest, rfl⟩ | hpath
      · have hlater : (∀ edge ∈ rest, position + 1 ≤ edge.1) ∧
            rest.Pairwise fun first second => first.1 < second.1 := by
          rcases List.mem_cons.mp hrest with rfl | hrest
          · exact ⟨fun _ hnone => absurd hnone List.not_mem_nil, .nil⟩
          · exact ihbelow hbelow hrest
        rw [List.forall_mem_cons, List.pairwise_cons]
        refine ⟨⟨hposition, fun edge hedge => ?_⟩, hlater⟩
        exact hposition.trans (Nat.le_of_succ_le (hlater.1 edge hedge))
      · exact ihothers hothers hpath

theorem From.le_of_mem_paths (hforest : forest.From start) (hpath : path ∈ [] :: forest.paths) :
    ∀ edge ∈ path, start ≤ edge.1 := by
  rcases List.mem_cons.mp hpath with rfl | hpath
  · exact fun _ hnone => absurd hnone List.not_mem_nil
  · exact (hforest.of_mem_paths hpath).1

variable {constant : Nat × UInt64} {literals : List (Nat × UInt64)}

theorem Closed.head_mem_paths (hclosed : forest.Closed (constant :: literals)) :
    [constant] ∈ forest.paths := by
  obtain ⟨next, constant⟩ := constant
  induction forest with
  | nil => exact hclosed.elim
  | edge position value rows below others _ ihothers =>
      rw [mem_paths_edge]
      rcases edge_cases position next value constant with
        hbefore | ⟨rfl, rfl⟩ | ⟨rfl, hsmaller⟩ | hafter
      · exact Or.inr (ihothers ((closed_before hbefore).mp hclosed).2)
      · exact Or.inl ⟨[], List.mem_cons_self, rfl⟩
      · exact Or.inr (ihothers ((closed_smaller hsmaller).mp hclosed))
      · exact absurd hclosed (not_closed_after hafter)

/-- A path has all the constants before the next one, which lies behind it. -/
def Reaches (literals path : List (Nat × UInt64)) (next : Nat × UInt64) : Prop :=
  next ∈ literals ∧ (∀ edge ∈ path, edge.1 < next.1) ∧
    ∀ literal ∈ literals, literal.1 < next.1 → literal ∈ path

/-- Constants that ascend by position. -/
def Ascend (literals : List (Nat × UInt64)) : Prop :=
  literals.Pairwise fun first second => first.1 < second.1

variable {next first : Nat × UInt64} {rest : List (Nat × UInt64)}

theorem Reaches.head_mem (hreaches : Reaches (first :: rest) path next)
    (hliterals : Ascend (first :: rest)) (hfar : ∃ edge ∈ path, first.1 ≤ edge.1) : first ∈ path := by
  obtain ⟨hnext, hbehind, hall⟩ := hreaches
  refine hall first List.mem_cons_self ?_
  rcases List.mem_cons.mp hnext with rfl | hnext
  · obtain ⟨edge, hedge, hle⟩ := hfar
    exact absurd (hbehind edge hedge) (Nat.not_lt.mpr hle)
  · exact List.rel_of_pairwise_cons hliterals hnext

theorem Reaches.of_cons_path {edge : Nat × UInt64} (hreaches : Reaches literals (edge :: path) next)
    (hedge : edge ∉ literals) : Reaches literals path next := by
  obtain ⟨hnext, hbehind, hall⟩ := hreaches
  refine ⟨hnext, (List.forall_mem_cons.mp hbehind).2, fun literal hliteral hless => ?_⟩
  refine (List.mem_cons.mp (hall literal hliteral hless)).resolve_left ?_
  rintro rfl
  exact hedge hliteral

theorem Reaches.tail (hreaches : Reaches (first :: rest) (first :: path) next)
    (hliterals : Ascend (first :: rest)) : Reaches rest path next := by
  obtain ⟨hnext, hbehind, hall⟩ := hreaches
  rw [List.forall_mem_cons] at hbehind
  refine ⟨(List.mem_cons.mp hnext).resolve_left ?_, hbehind.2, fun literal hliteral hless => ?_⟩
  · rintro rfl
    exact Nat.lt_irrefl _ hbehind.1
  · refine (List.mem_cons.mp (hall literal (List.mem_cons_of_mem _ hliteral) hless)).resolve_left ?_
    rintro rfl
    exact Nat.lt_irrefl _ (List.rel_of_pairwise_cons hliterals hliteral)

theorem From.notMem_of_lt {edge : Nat × UInt64} (hforest : forest.From start)
    (hpath : path ∈ [] :: forest.paths) (hedge : edge.1 < start) : edge ∉ path :=
  fun hmem => Nat.not_le.mpr hedge (hforest.le_of_mem_paths hpath edge hmem)

theorem Behind.skips {position : Nat} {value : UInt64} (hforest : forest.Behind position value)
    (hfrom : forest.From start) (hpath : path ∈ forest.paths) :
    (∃ edge ∈ path, position ≤ edge.1) ∧ (position, value) ∉ path := by
  induction forest with
  | nil => exact absurd hpath List.not_mem_nil
  | edge other found rows below others _ ihothers =>
      obtain ⟨hother, hothers⟩ := hforest
      rcases mem_paths_edge.mp hpath with ⟨more, hmore, rfl⟩ | hpath
      · have hle : position ≤ other := by omega
        refine ⟨⟨(other, found), List.mem_cons_self, hle⟩, ?_⟩
        rw [List.mem_cons, not_or]
        refine ⟨?_, hfrom.2.1.notMem_of_lt hmore (Nat.lt_succ_of_le hle)⟩
        rintro ⟨rfl, rfl⟩
        rcases hother with hother | ⟨-, hother⟩
        · exact Nat.lt_irrefl _ hother
        · exact UInt64.lt_irrefl _ hother
      · exact ihothers hothers hfrom.2.2 hpath

theorem Closed.concat_mem_paths (hforest : forest.Sorted) (hfrom : forest.From start)
    (hclosed : forest.Closed literals) (hliterals : Ascend literals)
    (hpath : path ∈ [] :: forest.paths) (hreaches : Reaches literals path next) :
    path ++ [next] ∈ forest.paths := by
  induction forest generalizing start literals path with
  | nil =>
      cases literals with
      | nil => exact absurd hreaches.1 List.not_mem_nil
      | cons first rest => exact hclosed.elim
  | edge position value rows below others ihbelow ihothers =>
      obtain _ | ⟨⟨following, constant⟩, rest⟩ := literals
      · exact absurd hreaches.1 List.not_mem_nil
      obtain ⟨hbehind, hbelow, hothers⟩ := hforest
      obtain ⟨-, hbelowFrom, hothersFrom⟩ := hfrom
      rcases List.mem_cons.mp hpath with rfl | hpath
      · -- Nothing comes before the next constant, so it is the first one.
        obtain ⟨hnext, -, hall⟩ := hreaches
        rcases List.mem_cons.mp hnext with rfl | hnext
        · exact hclosed.head_mem_paths
        · exact absurd (hall _ List.mem_cons_self (List.rel_of_pairwise_cons hliterals hnext))
            List.not_mem_nil
      rw [mem_paths_edge] at hpath ⊢
      rcases edge_cases position following value constant with
        hbefore | ⟨rfl, rfl⟩ | ⟨rfl, hsmaller⟩ | hafter
      · obtain ⟨hbelowClosed, hothersClosed⟩ := (closed_before hbefore).mp hclosed
        rcases hpath with ⟨more, hmore, rfl⟩ | hpath
        · have hskipped : (position, value) ∉ (following, constant) :: rest := by
            intro hmem
            rcases List.mem_cons.mp hmem with hsame | hmem
            · exact Nat.ne_of_lt hbefore (congrArg Prod.fst hsame)
            · exact Nat.lt_asymm hbefore (List.rel_of_pairwise_cons hliterals hmem)
          exact Or.inl ⟨more ++ [next], List.mem_cons_of_mem _ (ihbelow hbelow hbelowFrom
            hbelowClosed hliterals hmore (hreaches.of_cons_path hskipped)), rfl⟩
        · exact Or.inr (ihothers hothers hothersFrom hothersClosed hliterals
            (List.mem_cons_of_mem _ hpath) hreaches)
      · rcases hpath with ⟨more, hmore, rfl⟩ | hpath
        · exact Or.inl ⟨more ++ [next], List.mem_cons_of_mem _ (ihbelow hbelow hbelowFrom
            (closed_same.mp hclosed) hliterals.of_cons hmore (hreaches.tail hliterals)), rfl⟩
        · obtain ⟨hfar, hskipped⟩ := hbehind.skips hothersFrom hpath
          exact absurd (hreaches.head_mem hliterals hfar) hskipped
      · rcases hpath with ⟨more, hmore, rfl⟩ | hpath
        · have hskipped : (position, constant) ∉ (position, value) :: more := by
            rw [List.mem_cons, not_or]
            refine ⟨fun hsame => ?_, hbelowFrom.notMem_of_lt hmore (Nat.lt_succ_self _)⟩
            exact UInt64.ne_of_lt hsmaller (congrArg Prod.snd hsame).symm
          exact absurd (hreaches.head_mem hliterals ⟨_, List.mem_cons_self, Nat.le_refl _⟩) hskipped
        · exact Or.inr (ihothers hothers hothersFrom ((closed_smaller hsmaller).mp hclosed) hliterals
            (List.mem_cons_of_mem _ hpath) hreaches)
      · exact absurd hclosed (not_closed_after hafter)

/-- Of all constants, those on the way to a node have been met, and the others are behind it. -/
structure Pending (all before literals : List (Nat × UInt64)) : Prop where
  met : ∀ literal ∈ all, literal ∈ before ∨ literal ∈ literals
  subset : literals ⊆ all
  ascend : Ascend literals
  behind : ∀ edge ∈ before, ∀ literal ∈ literals, edge.1 < literal.1

variable {all before : List (Nat × UInt64)}

theorem Pending.reaches (hpending : Pending all before (first :: rest)) :
    Reaches all before first := by
  refine ⟨hpending.subset List.mem_cons_self,
    fun edge hedge => hpending.behind edge hedge first List.mem_cons_self, ?_⟩
  intro literal hliteral hless
  refine (hpending.met literal hliteral).resolve_right fun hlater => ?_
  rcases List.mem_cons.mp hlater with rfl | hlater
  · exact Nat.lt_irrefl _ hless
  · exact Nat.lt_asymm hless (List.rel_of_pairwise_cons hpending.ascend hlater)

theorem Pending.take (hpending : Pending all before (first :: rest)) :
    Pending all (before ++ [first]) rest := by
  obtain ⟨hmet, hsubset, hascend, hbehind⟩ := hpending
  refine ⟨fun literal hliteral => ?_, (List.cons_subset.mp hsubset).2, hascend.of_cons, ?_⟩
  · rcases hmet literal hliteral with hbefore | hlater
    · exact Or.inl (List.mem_append_left _ hbefore)
    · rcases List.mem_cons.mp hlater with rfl | hlater
      · exact Or.inl (List.mem_append_right _ List.mem_cons_self)
      · exact Or.inr hlater
  · intro edge hedge literal hliteral
    rcases List.mem_append.mp hedge with hedge | hedge
    · exact hbehind edge hedge literal (List.mem_cons_of_mem _ hliteral)
    · rw [List.mem_singleton.mp hedge]
      exact List.rel_of_pairwise_cons hascend hliteral

theorem Pending.pass {edge : Nat × UInt64} (hpending : Pending all before (first :: rest))
    (hedge : edge.1 < first.1) : Pending all (before ++ [edge]) (first :: rest) := by
  obtain ⟨hmet, hsubset, hascend, hbehind⟩ := hpending
  refine ⟨fun literal hliteral => (hmet literal hliteral).imp_left (List.mem_append_left _),
    hsubset, hascend, ?_⟩
  intro other hother literal hliteral
  rcases List.mem_append.mp hother with hother | hother
  · exact hbehind other hother literal hliteral
  · rw [List.mem_singleton.mp hother]
    rcases List.mem_cons.mp hliteral with rfl | hliteral
    · exact hedge
    · exact hedge.trans (List.rel_of_pairwise_cons hascend hliteral)

/-- All nodes at and below the end of a path have a property. -/
def Below (property : List (Nat × UInt64) → Prop) (before : List (Nat × UInt64))
    (forest : Forest) : Prop :=
  ∀ path ∈ [] :: forest.paths, property (before ++ path)

variable {property : List (Nat × UInt64) → Prop}

theorem below_nil : Below property before nil ↔ property before := by
  simp [Below, paths]

theorem below_edge {position : Nat} {value : UInt64} {rows : List Nat} {below others : Forest} :
    Below property before (edge position value rows below others) ↔
      Below property (before ++ [(position, value)]) below ∧ Below property before others := by
  constructor
  · intro hforest
    constructor
    · intro path hpath
      rw [List.append_assoc]
      exact hforest _ (List.mem_cons_of_mem _ (mem_paths_edge.mpr (Or.inl ⟨path, hpath, rfl⟩)))
    · intro path hpath
      refine hforest path ?_
      rcases List.mem_cons.mp hpath with rfl | hpath
      · exact List.mem_cons_self
      · exact List.mem_cons_of_mem _ (mem_paths_edge.mpr (Or.inr hpath))
  · rintro ⟨hbelow, hothers⟩ path hpath
    rcases List.mem_cons.mp hpath with rfl | hpath
    · exact hothers [] List.mem_cons_self
    rcases mem_paths_edge.mp hpath with ⟨more, hmore, rfl⟩ | hpath
    · have hmore := hbelow more hmore
      rwa [List.append_assoc] at hmore
    · exact hothers path (List.mem_cons_of_mem _ hpath)

theorem below_path (hstep : ∀ path next, property path → Reaches all path next →
      property (path ++ [next])) (hbefore : property before)
    (hpending : Pending all before literals) : Below property before (Forest.path literals) := by
  induction literals generalizing before with
  | nil => exact below_nil.mpr hbefore
  | cons first rest ih =>
      have hfirst := hstep before first hbefore hpending.reaches
      exact below_edge.mpr ⟨ih hfirst hpending.take, below_nil.mpr hbefore⟩

/-- Additions add only nodes that the constants call for. -/
theorem Below.add (hstep : ∀ path next, property path → Reaches all path next →
      property (path ++ [next])) (hforest : Below property before forest)
    (hpending : Pending all before literals) : Below property before (forest.add literals) := by
  have hbefore := hforest [] List.mem_cons_self
  rw [List.append_nil] at hbefore
  fun_induction Forest.add forest literals generalizing before with
  | case1 forest => exact hforest
  | case2 literals => exact below_path hstep hbefore hpending
  | case3 position value rows below others next constant rest hless ihbelow ihothers =>
      rw [below_edge] at hforest ⊢
      have hedge := hforest.1 [] List.mem_cons_self
      rw [List.append_nil] at hedge
      exact ⟨ihbelow hforest.1 (hpending.pass hless) hedge, ihothers hforest.2 hpending hbefore⟩
  | case4 position value rows below others next constant rest hless hsame ih =>
      obtain ⟨rfl, rfl⟩ := hsame
      rw [below_edge] at hforest ⊢
      exact ⟨ih hforest.1 hpending.take (hstep _ _ hbefore hpending.reaches), hforest.2⟩
  | case5 position value rows below others next constant rest hless hsame hsmaller ih =>
      rw [below_edge] at hforest ⊢
      exact ⟨hforest.1, ih hforest.2 hpending hbefore⟩
  | case6 position value rows below others next constant rest hless hsame hsmaller =>
      rw [below_edge]
      have hnext := hstep _ _ hbefore hpending.reaches
      exact ⟨below_path hstep hnext hpending.take, hforest⟩

end Steps

end Forest

end Bitcode.Lookup
