import Bitcode.Proofs.Bitstream.Outline
import Bitcode.Proofs.Tree.Unrolling

/-!
The numbering of abbreviations. Unrolling gives out ids for the rows of tables: block 0 for every block
id, and each open block after those that block 0 had given out when the block was entered. A reader
sees a list of abbreviations in every block instead. An id leads to the same abbreviation in both.
-/

namespace Bitcode

open Format
open Bitstream (Entry Outline Place Shared abbrevWithId?)

/-- The row holds what an abbreviation is simplified to. -/
def Table.Holds (table : Table) (row : Nat) (shape : Abbrev) : Prop :=
  firstRow ≤ row ∧ table.get? row = some shape.simplify

/-- The table gives out ids for the shared abbreviations of its block, and has no row twice. -/
structure Table.Numbers (table : Table) (shared : List Abbrev) : Prop where
  first : table.ids.first = firstDefinedId
  holds : List.Forall₂ table.Holds table.ids.rows shared
  reserved : firstRow ≤ table.rows.length
  distinct : table.ownRows.Nodup

section Tables

variable {table later : Table} {row : Nat} {shape : Abbrev} {shared : List Abbrev}

theorem Table.Holds.mono (hholds : table.Holds row shape) (hrows : table.rows <+: later.rows) :
    later.Holds row shape := by
  obtain ⟨hrow, hget⟩ := hholds
  obtain ⟨hinside, hshape⟩ := List.getElem?_eq_some_iff.mp hget
  refine ⟨hrow, ?_⟩
  rw [← hshape]
  exact List.prefix_iff_getElem?.mp hrows row hinside

theorem Table.numbers_fresh (block : UInt64) : Table.Numbers { block } [] :=
  ⟨rfl, .nil, Nat.le_refl _, by simp [Table.ownRows]⟩

theorem Table.Numbers.add (htable : table.Numbers shared) (shape : Abbrev) :
    (table.add shape).1.Numbers shared := by
  have hrows := table.rows_prefix_add shape
  refine ⟨?_, ?_, ?_, nodup_ownRows_add htable.reserved htable.distinct shape⟩
  · rw [ids_add]
    exact htable.first
  · rw [ids_add]
    exact htable.holds.imp fun _ _ hholds => hholds.mono hrows
  · exact Nat.le_trans htable.reserved hrows.length_le

theorem Table.Numbers.install (htable : table.Numbers shared) (hholds : table.Holds row shape) :
    (table.install row).Numbers (shared ++ [shape]) := by
  refine ⟨htable.first, ?_, htable.reserved, htable.distinct⟩
  exact List.rel_append htable.holds (.cons hholds .nil)

theorem Tables.get?_of_holds {tables : Tables} {block : UInt64}
    (hholds : (tables.getD block).Holds row shape) :
    ∃ table, tables.get? block = some table ∧ table.get? row = some shape.simplify := by
  obtain ⟨hrow, hget⟩ := hholds
  cases htable : tables.get? block with
  | some table =>
      rw [getD, htable] at hget
      exact ⟨table, rfl, hget⟩
  | none =>
      rw [getD, htable] at hget
      have hnone : (List.replicate firstRow anyRecord)[row]? = none :=
        List.getElem?_eq_none (by simpa using hrow)
      exact absurd (hnone.symm.trans hget) (by simp)

end Tables

theorem Bitstream.Shared.forBlock_add (shared : Shared) (block other : UInt64) (shape : Abbrev) :
    (shared.add block shape).forBlock other =
      shared.forBlock other ++ if other = block then [shape] else [] := by
  by_cases hblock : block = other
  · simp [Shared.forBlock, Shared.add, hblock]
  · simp [Shared.forBlock, Shared.add, hblock, Ne.symm hblock]

theorem exists_getElem?_of_forall₂ {α β : Type} {related : α → β → Prop} {first : List α}
    {second : List β} (hall : List.Forall₂ related first second) {place : Nat} {right : β}
    (hright : second[place]? = some right) :
    ∃ left, first[place]? = some left ∧ related left right := by
  obtain ⟨hlength, hrelated⟩ := List.forall₂_iff_get.mp hall
  obtain ⟨hinside, rfl⟩ := List.getElem?_eq_some_iff.mp hright
  have hleft : place < first.length := by omega
  exact ⟨first[place], List.getElem?_eq_getElem hleft, hrelated place hleft hinside⟩

namespace Tree

/-- An open block found abbreviations of block 0 when it was entered, and gives out ids for its own
after theirs. -/
structure OpenBlock.Numbers (tables : Tables) (shared : Shared) (block : OpenBlock) (place : Place) :
    Prop where
  id_eq : block.id = place.block
  split : ∃ found own, place.abbrevs = found ++ own ∧ found <+: shared.forBlock block.id ∧
    block.ids.first = firstDefinedId + found.length ∧
    List.Forall₂ (tables.getD block.id).Holds block.ids.rows own

/-- The state of unrolling agrees with what a reader sees. -/
structure Unrolling.Tracks (state : Unrolling) (outline : Outline) : Prop where
  tables : ∀ block, (state.tables.getD block).Numbers (outline.shared.forBlock block)
  blocks : List.Forall₂ (OpenBlock.Numbers state.tables outline.shared) state.blocks outline.blocks

/-- The record of a tree is one that was read in a place. If it was read with an abbreviation, its row
in the table of its block holds what that is simplified to, and else it has the plain row. -/
structure Numbered (tables : Tables) (found : Place × Bitstream.Record)
    (kept : UInt64 × Tree.Record) : Prop where
  block_eq : kept.1 = found.1.block
  code_eq : kept.2.code = found.2.code
  fields_eq : kept.2.fields = found.2.fields
  bits_eq : kept.2.bits = found.2.bits
  plain : found.2.id = none → kept.2.row = plainRow
  abbreviated : ∀ id, found.2.id = some id →
    ∃ shape, abbrevWithId? found.1.abbrevs id = some shape ∧
      (∃ cursor final, shape.readValues cursor = .ok found.2.values final) ∧
      firstRow ≤ kept.2.row ∧
      ∃ table, tables.get? kept.1 = some table ∧ table.get? kept.2.row = some shape.simplify

theorem Numbered.mono {before after : Tables} {found : Place × Bitstream.Record}
    {kept : UInt64 × Tree.Record} (hnumbered : Numbered before found kept)
    (hgrows : before.Grows after) : Numbered after found kept := by
  obtain ⟨hblock, hcode, hfields, hbits, hplain, habbreviated⟩ := hnumbered
  refine ⟨hblock, hcode, hfields, hbits, hplain, ?_⟩
  intro id hid
  obtain ⟨shape, hshape, hread, hrow, table, htable, hget⟩ := habbreviated id hid
  have hholds : (before.getD kept.1).Holds kept.2.row shape := by
    rw [Tables.getD, htable]
    exact ⟨hrow, hget⟩
  exact ⟨shape, hshape, hread, hrow, Tables.get?_of_holds (hholds.mono (hgrows kept.1))⟩

section Numbers

variable {tables later : Tables} {shared laterShared : Shared} {block : OpenBlock} {place : Place}

theorem OpenBlock.Numbers.mono (hblock : block.Numbers tables shared place)
    (hgrows : tables.Grows later)
    (hshared : ∀ id, shared.forBlock id <+: laterShared.forBlock id) :
    block.Numbers later laterShared place := by
  obtain ⟨hid, found, own, habbrevs, hfound, hfirst, hown⟩ := hblock
  refine ⟨hid, found, own, habbrevs, hfound.trans (hshared _), hfirst, ?_⟩
  exact hown.imp fun _ _ hholds => hholds.mono (hgrows _)

theorem OpenBlock.Numbers.install {row : Nat} {shape : Abbrev}
    (hblock : block.Numbers tables shared place)
    (hholds : (tables.getD block.id).Holds row shape) :
    OpenBlock.Numbers tables shared { block with ids := block.ids.install row }
      { place with abbrevs := place.abbrevs ++ [shape] } := by
  obtain ⟨hid, found, own, habbrevs, hfound, hfirst, hown⟩ := hblock
  refine ⟨hid, found, own ++ [shape], ?_, hfound, hfirst, ?_⟩
  · rw [habbrevs, List.append_assoc]
  · exact List.rel_append hown (.cons hholds .nil)

theorem OpenBlock.Numbers.exists_holds {shape : Abbrev} (hblock : block.Numbers tables shared place)
    (htable : (tables.getD block.id).Numbers (shared.forBlock block.id))
    (hshape : shape ∈ place.abbrevs) : ∃ row, (tables.getD place.block).Holds row shape := by
  obtain ⟨hid, found, own, habbrevs, hfound, -, hown⟩ := hblock
  rw [habbrevs, List.mem_append] at hshape
  rw [← hid]
  rcases hshape with hshared | hlocal
  · obtain ⟨index, hindex⟩ := List.mem_iff_getElem?.mp (hfound.subset hshared)
    obtain ⟨row, -, hholds⟩ := exists_getElem?_of_forall₂ htable.holds hindex
    exact ⟨row, hholds⟩
  · obtain ⟨index, hindex⟩ := List.mem_iff_getElem?.mp hlocal
    obtain ⟨row, -, hholds⟩ := exists_getElem?_of_forall₂ hown hindex
    exact ⟨row, hholds⟩

theorem exists_rowOf {state : Unrolling} {id : UInt64} {shape : Abbrev}
    (hblock : block.Numbers state.tables shared place)
    (htable : (state.tables.getD block.id).Numbers (shared.forBlock block.id))
    (hshape : abbrevWithId? place.abbrevs id = some shape) :
    ∃ row, state.rowOf block (some id) = some row ∧
      (state.tables.getD block.id).Holds row shape := by
  obtain ⟨-, found, own, habbrevs, hfound, hfirst, hown⟩ := hblock
  unfold abbrevWithId? at hshape
  split at hshape
  · simp at hshape
  · rename_i hdefined
    rw [habbrevs] at hshape
    simp only [Unrolling.rowOf, IdMap.get?, hfirst, htable.first, hdefined, if_false]
    -- The block's own ids come after those that it found, so an id is one of block 0 or its own.
    by_cases hplace : id.toNat - firstDefinedId < found.length
    · rw [List.getElem?_append_left hplace] at hshape
      obtain ⟨hinside, hfoundShape⟩ := List.getElem?_eq_some_iff.mp hshape
      have hsharedShape := List.prefix_iff_getElem?.mp hfound _ hinside
      rw [hfoundShape] at hsharedShape
      obtain ⟨row, hrow, hholds⟩ := exists_getElem?_of_forall₂ htable.holds hsharedShape
      have hbefore : id.toNat < firstDefinedId + found.length := by omega
      exact ⟨row, by simp [hbefore, hrow], hholds⟩
    · rw [List.getElem?_append_right (by omega)] at hshape
      obtain ⟨row, hrow, hholds⟩ := exists_getElem?_of_forall₂ hown hshape
      have hafter : ¬ id.toNat < firstDefinedId + found.length := by omega
      rw [Nat.sub_sub] at hrow
      exact ⟨row, by simp [hafter, hrow], hholds⟩

end Numbers

namespace Unrolling

section Step

variable {state : Unrolling} {outline : Outline} {block : UInt64} {shape : Abbrev}

theorem holds_addAbbrev (htable : firstRow ≤ (state.tables.getD block).rows.length) :
    ((state.addAbbrev block shape).1.tables.getD block).Holds (state.addAbbrev block shape).2
      shape := by
  change ((state.tables.add block shape.simplify).1.getD block).Holds
    ((state.tables.getD block).add shape.simplify).2.1 shape
  rw [Tables.getD_add, if_pos rfl]
  exact Table.get?_add htable shape.simplify

theorem grows_addAbbrev (state : Unrolling) (block : UInt64) (shape : Abbrev) :
    state.tables.Grows (state.addAbbrev block shape).1.tables :=
  state.tables.grows_add block shape.simplify

theorem grows_addShared (state : Unrolling) (block : UInt64) (shape : Abbrev) :
    state.tables.Grows (state.addShared block shape).tables :=
  (grows_addAbbrev state block shape).trans (Tables.grows_update List.prefix_rfl)

theorem numbers_addAbbrev (htracks : state.Tracks outline) (other : UInt64) :
    ((state.addAbbrev block shape).1.tables.getD other).Numbers (outline.shared.forBlock other) := by
  change ((state.tables.add block shape.simplify).1.getD other).Numbers _
  rw [Tables.getD_add]
  split
  · rename_i heq
    rw [heq]
    exact (htracks.tables block).add _
  · exact htracks.tables other

theorem Tracks.enter (htracks : state.Tracks outline) (id : UInt64) (size : Nat) :
    (state.enter id size).Tracks (outline.step (.block id size)) := by
  have htables : ∀ other, (state.tables.touch id).getD other = state.tables.getD other :=
    fun other => Tables.getD_touch id other
  have hgrows : state.tables.Grows (state.tables.touch id) := by
    intro other
    rw [htables]
  constructor
  · intro other
    change ((state.tables.touch id).getD other).Numbers _
    rw [htables]
    exact htracks.tables other
  · refine .cons ?_ (htracks.blocks.imp fun _ _ hblock => hblock.mono hgrows fun _ => List.prefix_rfl)
    have htable := htracks.tables id
    refine ⟨rfl, outline.shared.forBlock id, [], (List.append_nil _).symm, List.prefix_rfl, ?_, .nil⟩
    change ((state.tables.touch id).getD id).ids.nextId = _
    rw [htables, IdMap.nextId, htable.first, htable.holds.length_eq]

theorem Tracks.addShared (htracks : state.Tracks outline) (block : UInt64) (shape : Abbrev) :
    (state.addShared block shape).Tracks (outline.step (.definition block shape false)) := by
  have hholds : ((state.addAbbrev block shape).1.tables.getD block).Holds
      (state.addAbbrev block shape).2 shape := holds_addAbbrev (htracks.tables block).reserved
  constructor
  · intro other
    change (((state.addAbbrev block shape).1.tables.update block _).getD other).Numbers
      ((outline.shared.add block shape).forBlock other)
    rw [Tables.getD_update, Shared.forBlock_add]
    split
    · rename_i heq
      rw [heq]
      exact (numbers_addAbbrev htracks block).install hholds
    · rw [List.append_nil]
      exact numbers_addAbbrev htracks other
  · refine htracks.blocks.imp fun _ _ hblock => hblock.mono (grows_addShared state block shape) ?_
    intro other
    change _ <+: (outline.shared.add block shape).forBlock other
    rw [Shared.forBlock_add]
    exact List.prefix_append _ _

theorem Tracks.addOwn {inner : OpenBlock} {outer : List OpenBlock} {place : Place}
    {rest : List Place} (htracks : state.Tracks outline) (hblocks : state.blocks = inner :: outer)
    (hplaces : outline.blocks = place :: rest) (shape : Abbrev) :
    Tracks
      { (state.addAbbrev place.block shape).1 with
        blocks := { inner with
          ids := inner.ids.install (state.addAbbrev place.block shape).2 } :: outer }
      (outline.step (.definition place.block shape true)) := by
  have hopen := htracks.blocks
  rw [hblocks, hplaces] at hopen
  obtain ⟨hinner, houter⟩ := List.forall₂_cons.mp hopen
  have hgrows := grows_addAbbrev state place.block shape
  have hkeep : ∀ id, outline.shared.forBlock id <+: outline.shared.forBlock id :=
    fun _ => List.prefix_rfl
  constructor
  · intro other
    exact numbers_addAbbrev htracks other
  · change List.Forall₂ _ _ (outline.blocks.modifyHead _)
    rw [hplaces]
    refine .cons ((hinner.mono hgrows hkeep).install ?_)
      (houter.imp fun _ _ hblock => hblock.mono hgrows hkeep)
    rw [hinner.id_eq]
    exact holds_addAbbrev (htracks.tables place.block).reserved

theorem Tracks.leave {inner : OpenBlock} {outer : List OpenBlock} (htracks : state.Tracks outline)
    (hblocks : state.blocks = inner :: outer) :
    ∃ next, state.step .endBlock = .ok next ∧ next.Tracks (outline.step .endBlock) ∧
      next.tables = state.tables := by
  have hopen := htracks.blocks
  rw [hblocks] at hopen
  obtain ⟨place, rest, -, houter, hplaces⟩ := List.forall₂_cons_left_iff.mp hopen
  have hrest : (outline.step .endBlock).blocks = rest := by
    change outline.blocks.tail = rest
    rw [hplaces, List.tail_cons]
  cases houter with
  | nil =>
      let next : Unrolling :=
        { state with
          blocks := []
          reversed := ⟨inner.id, inner.bits, inner.reversed.reverse⟩ :: state.reversed }
      refine ⟨next, by simp only [step, hblocks, next], ⟨htracks.tables, ?_⟩, rfl⟩
      rw [hrest]
      exact .nil
  | @cons around _ outer _ haround houter =>
      let reversed := Body.block inner.id inner.bits inner.reversed.reverse around.reversed
      let next : Unrolling := { state with blocks := { around with reversed } :: outer }
      refine ⟨next, by simp only [step, hblocks, next, reversed], ⟨htracks.tables, ?_⟩, rfl⟩
      rw [hrest]
      exact .cons ⟨haround.id_eq, haround.split⟩ houter

theorem Tracks.numbered {inner : OpenBlock} {outer : List OpenBlock} {place : Place}
    {rest : List Place} {item : Bitstream.Record} (htracks : state.Tracks outline)
    (hblocks : state.blocks = inner :: outer) (hplaces : outline.blocks = place :: rest)
    (hitem : item.ReadWith place.abbrevs) :
    ∃ row, state.rowOf inner item.id = some row ∧
      Numbered state.tables (place, item)
        (inner.id, { code := item.code, fields := item.fields, row, bits := item.bits }) := by
  have hopen := htracks.blocks
  rw [hblocks, hplaces] at hopen
  have hinner := (List.forall₂_cons.mp hopen).1
  cases hid : item.id with
  | none =>
      refine ⟨plainRow, rfl, hinner.id_eq, rfl, rfl, rfl, fun _ => rfl, fun id hsome => ?_⟩
      exact absurd (hid.symm.trans hsome) (by simp)
  | some id =>
      obtain ⟨shape, hshape, hread⟩ := hitem id hid
      obtain ⟨row, hrow, hholds⟩ := exists_rowOf hinner (htracks.tables inner.id) hshape
      refine ⟨row, hrow, hinner.id_eq, rfl, rfl, rfl, fun hnone => ?_, fun other hother => ?_⟩
      · exact absurd (hid.symm.trans hnone) (by simp)
      · obtain rfl := Option.some.inj (hid.symm.trans hother)
        exact ⟨shape, hshape, hread, hholds.1, Tables.get?_of_holds hholds⟩

theorem step_tracks {entry : Entry} (htracks : state.Tracks outline)
    (hentry : outline.Admits entry) :
    ∃ next, state.step entry = .ok next ∧ next.Tracks (outline.step entry) ∧
      state.tables.Grows next.tables ∧
      List.Forall₂ (Numbered state.tables) (Bitstream.File.recordIn? (entry, outline.blocks.head?)).toList
        ((state.mark? entry).toList.filterMap Mark.owned?) := by
  have hopen := htracks.blocks
  cases entry with
  | block id size =>
      have hstep : state.step (.block id size) = .ok (state.enter id size) := by
        cases hblocks : state.blocks <;> simp only [step, hblocks]
      refine ⟨_, hstep, htracks.enter id size, fun other => ?_, .nil⟩
      exact (congrArg Table.rows (Tables.getD_touch id other)).symm ▸ List.prefix_rfl
  | endBlock =>
      obtain ⟨place, rest, hplaces⟩ := hentry
      rw [hplaces] at hopen
      obtain ⟨inner, outer, -, -, hblocks⟩ := List.forall₂_cons_right_iff.mp hopen
      obtain ⟨next, hstep, hnext, htables⟩ := htracks.leave hblocks
      refine ⟨next, hstep, hnext, htables ▸ .refl _, ?_⟩
      simp [Bitstream.File.recordIn?, mark?, hblocks, Mark.owned?]
  | record item =>
      obtain ⟨place, rest, hplaces, hitem⟩ := hentry
      rw [hplaces] at hopen
      obtain ⟨inner, outer, hinner, houter, hblocks⟩ := List.forall₂_cons_right_iff.mp hopen
      obtain ⟨row, hrow, hnumbered⟩ := htracks.numbered hblocks hplaces hitem
      let unrolled : Record := { code := item.code, fields := item.fields, row, bits := item.bits }
      let next : Unrolling :=
        { state with
          blocks := { inner with reversed := .record unrolled inner.reversed } :: outer }
      refine ⟨next, by simp only [step, hblocks, hrow, next, unrolled], ⟨htracks.tables, ?_⟩,
        .refl _, ?_⟩
      · change List.Forall₂ _ _ outline.blocks
        rw [hplaces]
        exact .cons ⟨hinner.id_eq, hinner.split⟩ houter
      · simpa [Bitstream.File.recordIn?, mark?, hblocks, hplaces, hrow, Mark.owned?] using hnumbered
  | definition block shape isLocal =>
      cases isLocal with
      | false =>
          have hstep : state.step (.definition block shape false) =
              .ok (state.addShared block shape) := by
            cases hblocks : state.blocks <;> simp only [step, hblocks]
          exact ⟨_, hstep, htracks.addShared block shape, grows_addShared state block shape, .nil⟩
      | true =>
          obtain ⟨place, rest, hplaces, rfl⟩ := hentry
          rw [hplaces] at hopen
          obtain ⟨inner, outer, -, -, hblocks⟩ := List.forall₂_cons_right_iff.mp hopen
          exact ⟨_, by simp only [step, hblocks], htracks.addOwn hblocks hplaces shape,
            grows_addAbbrev state place.block shape, .nil⟩

theorem run_tracks {entries : List Entry} (htracks : state.Tracks outline)
    (hentries : outline.Accepts entries) :
    ∃ final owned, state.run entries = (final, none) ∧ final.Tracks (outline.after entries) ∧
      state.tables.Grows final.tables ∧
      final.marks.filterMap Mark.owned? = state.marks.filterMap Mark.owned? ++ owned ∧
      List.Forall₂ (Numbered final.tables) ((outline.along entries).filterMap Bitstream.File.recordIn?)
        owned := by
  induction entries generalizing state outline with
  | nil => exact ⟨state, [], rfl, htracks, .refl _, (List.append_nil _).symm, .nil⟩
  | cons entry entries ih =>
      obtain ⟨hentry, hentries⟩ := hentries
      obtain ⟨next, hstep, hnext, hgrows, hnumbered⟩ := step_tracks htracks hentry
      obtain ⟨final, owned, hrun, hfinal, hlater, hmarks, hrest⟩ := ih hnext hentries
      -- The rows found so far stay where they are, since tables only grow.
      have hfirst := hnumbered.imp fun _ _ hrecord => hrecord.mono (hgrows.trans hlater)
      refine ⟨final, (state.mark? entry).toList.filterMap Mark.owned? ++ owned, ?_, hfinal,
        hgrows.trans hlater, ?_, ?_⟩
      · rw [run, hstep]
        exact hrun
      · rw [hmarks, marks_step hstep, List.filterMap_append, List.append_assoc]
      · have hall := List.rel_append hfirst hrest
        rw [Outline.along]
        cases hfound : Bitstream.File.recordIn? (entry, outline.blocks.head?) with
        | none => simpa [hfound] using hall
        | some found => simpa [hfound] using hall

end Step

theorem tracks_start : Tracks {} {} :=
  ⟨fun block => Table.numbers_fresh block, .nil⟩

end Unrolling

/-- Unrolling fails only for a size or where reading fails. Otherwise each record has the row of the
abbreviation that it was read with, and no table has a row of its own twice. -/
theorem numbered_unroll (bytes : Array UInt8) :
    (∀ cause, (unroll bytes).result = .error cause →
      cause = .badSize bytes.size ∨ ∃ reason, cause = .bitstream reason) ∧
    ∀ file, (unroll bytes).result = .ok file →
      ∃ source, Bitstream.File.ofBytes bytes = .ok source ∧ source.entries.2 = none ∧
        List.Forall₂ (Numbered (unroll bytes).tables) source.records file.owned ∧
        ∀ block table, (unroll bytes).tables.get? block = some table → table.ownRows.Nodup := by
  unfold unroll
  split
  · exact ⟨fun cause hcause => .inl (Except.error.inj hcause).symm, fun _ hok => absurd hok (by simp)⟩
  · cases hopen : Bitstream.File.ofBytes bytes with
    | error reason =>
        exact ⟨fun cause hcause => .inr ⟨reason, (Except.error.inj hcause).symm⟩,
          fun _ hok => absurd hok (by simp)⟩
    | ok source =>
        obtain ⟨haccepts, hplaced, hclosed⟩ := Bitstream.File.outline_entries hopen
        obtain ⟨final, owned, hrun, hfinal, -, hmarks, hnumbered⟩ :=
          Unrolling.run_tracks Unrolling.tracks_start haccepts
        cases hend : source.entries.2 with
        | some reason =>
            simp only [hrun, hend]
            exact ⟨fun cause hcause => .inr ⟨reason, (Except.error.inj hcause).symm⟩,
              fun _ hok => absurd hok (by simp)⟩
        | none =>
            -- A reader that comes to the end has left all blocks, and so has unrolling.
            have hblocks : final.blocks = [] := by
              have hopenBlocks := hfinal.blocks
              rw [hclosed hend] at hopenBlocks
              exact List.forall₂_nil_right_iff.mp hopenBlocks
            simp only [hrun, hend, endFailure, hblocks, List.isEmpty_nil]
            refine ⟨fun _ hcause => absurd hcause (by simp), fun file hfile => ?_⟩
            obtain rfl := Except.ok.inj hfile
            refine ⟨source, rfl, hend, ?_, fun block table htable => ?_⟩
            · have howned : File.owned ⟨source.header, final.reversed.reverse⟩ = owned := by
                have hfileMarks : final.marks = final.reversed.reverse.flatMap Block.marks := by
                  simp [Unrolling.marks, hblocks]
                rw [File.owned, File.marks, ← hfileMarks, hmarks]
                rfl
              rw [howned, Bitstream.File.records, hplaced]
              exact hnumbered
            · have hdistinct := (hfinal.tables block).distinct
              rw [Tables.getD, htable] at hdistinct
              exact hdistinct

/-- A block with block 0 inside, which shares an abbreviation for it, and then a block of the same id
inside, which sees that abbreviation and defines it once more. -/
def recursiveFile : Array UInt8 :=
  #[80, 69, 88, 69, 1, 0, 8, 0, 17, 0, 4, 0, 2, 0, 0, 0, 33, 12, 0, 0, 11, 0, 0, 0, 1, 16, 0, 0, 2,
    0, 0, 0, 7, 1, 162, 88, 32, 6, 0, 0, 18, 15, 104, 80, 75, 130, 32, 8, 4, 0, 0, 0, 2, 0, 0, 0, 34,
    22, 136, 161, 176, 68, 0, 0, 0, 0, 0, 0]

theorem numbered_unroll_recursiveFile :
    ∃ file source, (unroll recursiveFile).result = .ok file ∧
      file.owned.map (fun record => (record.1, record.2.row)) = [(8, 5), (8, 3), (8, 4), (8, 4)] ∧
      Bitstream.File.ofBytes recursiveFile = .ok source ∧
      List.Forall₂ (Numbered (unroll recursiveFile).tables) source.records file.owned := by
  have hrows : (unroll recursiveFile).result.toOption.map (fun file =>
      file.owned.map fun record => (record.1, record.2.row)) =
        some [(8, 5), (8, 3), (8, 4), (8, 4)] := by
    decide +kernel
  cases hresult : (unroll recursiveFile).result with
  | error cause => simp [hresult, Except.toOption] at hrows
  | ok file =>
      obtain ⟨source, hopen, -, hnumbered, -⟩ := (numbered_unroll recursiveFile).2 file hresult
      rw [hresult] at hrows
      exact ⟨file, source, rfl, Option.some.inj hrows, hopen, hnumbered⟩

end Tree

end Bitcode
