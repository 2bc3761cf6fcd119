import Bitcode.Proofs.Abbrev.Acceptable
import Bitcode.Proofs.Keyed
import Bitcode.Table.Basic

namespace Bitcode

/-- All rows of the table are acceptable. -/
def Table.Sound (table : Table) : Prop :=
  ∀ shape ∈ table.rows, shape.isAcceptable

/-- Every block id has at most one table, and all tables are sound. -/
structure Tables.Sound (tables : Tables) : Prop where
  keys : (tables.entries.map (·.1)).Nodup
  rows : ∀ entry ∈ tables.entries, entry.2.Sound

/-- Rows are only appended. -/
def Tables.Grows (before after : Tables) : Prop :=
  ∀ block, (before.getD block).rows <+: (after.getD block).rows

namespace Table

variable {table : Table} {shape : Abbrev}

theorem sound_fresh (block : UInt64) : Table.Sound { block } := by
  intro shape hshape
  rw [List.eq_of_mem_replicate hshape]
  rfl

theorem Sound.add (htable : table.Sound) (hshape : shape.isAcceptable) :
    (table.add shape).1.Sound := by
  unfold Table.add
  split
  · exact htable
  · intro other hother
    rcases List.mem_append.mp hother with hrow | hnew
    · exact htable other hrow
    · rw [List.mem_singleton.mp hnew]
      exact hshape

theorem rows_addSynthesized (table : Table) (shape : Abbrev) :
    (table.addSynthesized shape).1.rows = (table.add shape).1.rows := by
  unfold addSynthesized
  split
  · rename_i hadd
    rw [hadd]
  · rename_i hadd
    rw [hadd]

theorem Sound.addSynthesized (htable : table.Sound) (hshape : shape.isAcceptable) :
    (table.addSynthesized shape).1.Sound := by
  rw [Sound, rows_addSynthesized]
  exact htable.add hshape

theorem add_of_find?_eq_some {row : Nat} (hfind : table.find? shape = some row) :
    table.add shape = (table, row, false) := by
  rw [add, hfind]

theorem add_of_find?_eq_none (hfind : table.find? shape = none) :
    table.add shape = ({ table with rows := table.rows ++ [shape] }, table.rows.length, true) := by
  rw [add, hfind]

theorem rows_prefix_add (table : Table) (shape : Abbrev) :
    table.rows <+: (table.add shape).1.rows := by
  cases hfind : table.find? shape with
  | some row => rw [add_of_find?_eq_some hfind]
  | none =>
      rw [add_of_find?_eq_none hfind]
      exact List.prefix_append _ _

theorem ids_add (table : Table) (shape : Abbrev) : (table.add shape).1.ids = table.ids := by
  cases hfind : table.find? shape with
  | some row => rw [add_of_find?_eq_some hfind]
  | none => rw [add_of_find?_eq_none hfind]

theorem get?_of_find? {row : Nat} (hfind : table.find? shape = some row) :
    firstRow ≤ row ∧ table.get? row = some shape := by
  obtain ⟨place, hplace, rfl⟩ := Option.map_eq_some_iff.mp hfind
  obtain ⟨hinside, hshape, -⟩ := List.findIdx?_eq_some_iff_getElem.mp hplace
  refine ⟨Nat.le_add_left _ _, ?_⟩
  have hrow : table.ownRows[place]? = some shape := by
    rw [List.getElem?_eq_getElem hinside, beq_iff_eq.mp hshape]
  rwa [ownRows, List.getElem?_drop, Nat.add_comm] at hrow

theorem notMem_ownRows_of_find? (hfind : table.find? shape = none) : shape ∉ table.ownRows := by
  intro hmem
  rw [find?, Option.map_eq_none_iff, List.findIdx?_eq_none_iff] at hfind
  simpa using hfind shape hmem

/-- The row of an abbreviation after it was added. -/
theorem get?_add (hreserved : firstRow ≤ table.rows.length) (shape : Abbrev) :
    firstRow ≤ (table.add shape).2.1 ∧
      (table.add shape).1.get? (table.add shape).2.1 = some shape := by
  cases hfind : table.find? shape with
  | some row =>
      rw [add_of_find?_eq_some hfind]
      exact get?_of_find? hfind
  | none =>
      rw [add_of_find?_eq_none hfind]
      exact ⟨hreserved, List.getElem?_concat_length⟩

theorem nodup_ownRows_add (hreserved : firstRow ≤ table.rows.length)
    (hnodup : table.ownRows.Nodup) (shape : Abbrev) : (table.add shape).1.ownRows.Nodup := by
  cases hfind : table.find? shape with
  | some row =>
      rw [add_of_find?_eq_some hfind]
      exact hnodup
  | none =>
      rw [add_of_find?_eq_none hfind]
      have hnew := notMem_ownRows_of_find? hfind
      change (List.drop firstRow (table.rows ++ [shape])).Nodup
      rw [List.drop_append_of_le_length hreserved]
      exact List.nodup_append.mpr ⟨hnodup, List.nodup_singleton _, by
        rintro first hfirst last hlast rfl
        exact hnew (List.mem_singleton.mp hlast ▸ hfirst)⟩

end Table

namespace Tables

variable {tables : Tables} {block : UInt64}

theorem sound_empty : Tables.Sound {} :=
  ⟨List.nodup_nil, by simp⟩

theorem Sound.of_get? (htables : tables.Sound) {table : Table}
    (htable : tables.get? block = some table) : table.Sound :=
  htables.rows _ (Keyed.mem_of_lookup_eq_some htable)

theorem Sound.getD (htables : tables.Sound) (block : UInt64) : (tables.getD block).Sound := by
  unfold Tables.getD
  cases htable : tables.get? block with
  | none => exact Table.sound_fresh block
  | some table => exact htables.of_get? htable

theorem Sound.update {change : Table → Table} (htables : tables.Sound)
    (hchange : ∀ table, table.Sound → (change table).Sound) : (tables.update block change).Sound := by
  refine ⟨Keyed.nodup_keys_update htables.keys, ?_⟩
  intro entry hentry
  rcases Keyed.mem_update hentry with hbefore | ⟨-, table, htable, hentry⟩
  · exact htables.rows entry hbefore
  · rw [hentry]
    rcases htable with rfl | htable
    · exact hchange _ (Table.sound_fresh block)
    · exact hchange table (htables.rows _ htable)

theorem getD_update (block other : UInt64) (change : Table → Table) :
    (tables.update block change).getD other =
      if other = block then change (tables.getD block) else tables.getD other := by
  rw [Tables.getD, get?, update, Keyed.lookup_update]
  split
  · rfl
  · rfl

theorem getD_touch (block other : UInt64) : (tables.touch block).getD other = tables.getD other := by
  rw [touch, getD_update]
  split
  · rename_i heq
    rw [heq]
    rfl
  · rfl

theorem getD_add (block other : UInt64) (shape : Abbrev) :
    (tables.add block shape).1.getD other =
      if other = block then ((tables.getD block).add shape).1 else tables.getD other :=
  getD_update block other fun _ => ((tables.getD block).add shape).1

theorem Sound.touch (htables : tables.Sound) (block : UInt64) : (tables.touch block).Sound :=
  htables.update fun _ htable => htable

theorem Sound.add {shape : Abbrev} (htables : tables.Sound) (hshape : shape.isAcceptable) :
    (tables.add block shape).1.Sound :=
  htables.update fun _ _ => (htables.getD block).add hshape

theorem Sound.buildLookups (htables : tables.Sound) : tables.buildLookups.Sound := by
  refine ⟨?_, ?_⟩
  · rw [Tables.buildLookups, List.map_map]
    exact htables.keys
  · intro entry hentry
    obtain ⟨source, hsource, rfl⟩ := List.mem_map.mp hentry
    exact htables.rows source hsource

theorem get?_buildLookups (tables : Tables) (block : UInt64) :
    tables.buildLookups.get? block = (tables.get? block).map Table.buildLookup :=
  Keyed.lookup_map (fun _ => Table.buildLookup) block tables.entries

theorem Grows.refl (tables : Tables) : tables.Grows tables :=
  fun _ => List.prefix_rfl

theorem Grows.trans {first second third : Tables} (hfirst : first.Grows second)
    (hsecond : second.Grows third) : first.Grows third :=
  fun block => (hfirst block).trans (hsecond block)

theorem grows_update {change : Table → Table}
    (hchange : (tables.getD block).rows <+: (change (tables.getD block)).rows) :
    tables.Grows (tables.update block change) := by
  intro other
  rw [getD_update]
  split
  · rename_i heq
    rw [heq]
    exact hchange
  · exact List.prefix_rfl

theorem grows_add (tables : Tables) (block : UInt64) (shape : Abbrev) :
    tables.Grows (tables.add block shape).1 :=
  grows_update (Table.rows_prefix_add _ _)

end Tables

end Bitcode
