import Bitcode.Proofs.Abbrev.Simplification
import Bitcode.Proofs.Tree.Numbering

namespace Bitcode

open Format
open Bitstream (Entry Outline Place Shared abbrevWithId?)

/-- The abbreviation has no fixed field of more than 32 bits. -/
def Abbrev.IsNarrow (shape : Abbrev) : Prop :=
  ∀ width, .fixed width ∈ shape.operators → width.toNat ≤ 32

theorem canEncode_anyRecord (values : List UInt64) : anyRecord.canEncode values := by
  rw [anyRecord, Abbrev.canEncode_array rfl]
  intro value _
  rfl

namespace Bitstream

/-- The abbreviation that an entry defines. -/
def Entry.shape? : Entry → Option Abbrev
  | .definition _ shape _ => some shape
  | _ => none

/-- The abbreviations that a file defines, in their order. -/
def File.definitions (file : File) : List Abbrev :=
  file.entries.1.filterMap Entry.shape?

namespace Outline

variable {known : Abbrev → Prop} {outline : Outline} {entry : Entry}

/-- All abbreviations that are seen in open blocks, or will be seen in blocks, are of a kind. -/
structure Sees (known : Abbrev → Prop) (outline : Outline) : Prop where
  blocks : ∀ place ∈ outline.blocks, ∀ shape ∈ place.abbrevs, known shape
  shared : ∀ definition ∈ outline.shared.definitions, known definition.2

theorem Sees.forBlock (houtline : outline.Sees known) (block : UInt64) :
    ∀ shape ∈ outline.shared.forBlock block, known shape := by
  intro shape hshape
  obtain ⟨definition, hdefinition, rfl⟩ := List.mem_map.mp hshape
  exact houtline.shared definition (List.mem_filter.mp hdefinition).1

theorem Sees.step (houtline : outline.Sees known)
    (hentry : ∀ shape, entry.shape? = some shape → known shape) :
    (outline.step entry).Sees known := by
  cases entry with
  | endBlock =>
      exact ⟨fun place hplace => houtline.blocks place (List.mem_of_mem_tail hplace),
        houtline.shared⟩
  | block id size =>
      exact ⟨List.forall_mem_cons.mpr ⟨houtline.forBlock id, houtline.blocks⟩, houtline.shared⟩
  | record item => exact houtline
  | definition block shape isLocal =>
      have hshape := hentry shape rfl
      cases isLocal with
      | false =>
          refine ⟨houtline.blocks, fun definition hdefinition => ?_⟩
          rcases List.mem_append.mp hdefinition with hbefore | hnew
          · exact houtline.shared definition hbefore
          · rw [List.mem_singleton.mp hnew]
            exact hshape
      | true =>
          refine ⟨?_, houtline.shared⟩
          have hblocks := houtline.blocks
          change ∀ place ∈ outline.blocks.modifyHead _, _
          cases hplaces : outline.blocks with
          | nil => simp
          | cons first rest =>
              rw [hplaces, List.forall_mem_cons] at hblocks
              rw [List.modifyHead_cons, List.forall_mem_cons]
              refine ⟨fun other hother => ?_, hblocks.2⟩
              rcases List.mem_append.mp hother with hbefore | hnew
              · exact hblocks.1 other hbefore
              · rw [List.mem_singleton.mp hnew]
                exact hshape

theorem Sees.along {entries : List Entry} (houtline : outline.Sees known)
    (hentries : ∀ shape ∈ entries.filterMap Entry.shape?, known shape) :
    ∀ placed ∈ outline.along entries, ∀ place, placed.2 = some place →
      ∀ shape ∈ place.abbrevs, known shape := by
  induction entries generalizing outline with
  | nil => simp [Outline.along]
  | cons entry entries ih =>
      have hstep : (outline.step entry).Sees known := by
        refine houtline.step fun shape hshape => hentries shape ?_
        exact List.mem_filterMap.mpr ⟨entry, List.mem_cons_self, hshape⟩
      rw [Outline.along, List.forall_mem_cons]
      refine ⟨fun place hplace => houtline.blocks place (List.mem_of_head? hplace),
        ih hstep fun shape hshape => ?_⟩
      obtain ⟨other, hother, hshape⟩ := List.mem_filterMap.mp hshape
      exact hentries shape (List.mem_filterMap.mpr ⟨other, List.mem_cons_of_mem _ hother, hshape⟩)

end Outline

theorem File.known_of_mem_records (known : Abbrev → Prop) {bytes : Array UInt8} {file : File}
    (hopen : ofBytes bytes = .ok file) (hknown : ∀ shape ∈ file.definitions, known shape)
    {found : Place × Record} (hfound : found ∈ file.records) : ∀ shape ∈ found.1.abbrevs, known shape := by
  obtain ⟨-, hplaced, -⟩ := File.outline_entries hopen
  rw [File.records, hplaced] at hfound
  obtain ⟨⟨entry, place?⟩, hentry, hrecord⟩ := List.mem_filterMap.mp hfound
  have hstart : Outline.Sees known {} := ⟨by simp, by simp⟩
  refine hstart.along hknown _ hentry found.1 ?_
  unfold recordIn? at hrecord
  split at hrecord
  · rename_i hpair
    obtain ⟨-, rfl⟩ := Prod.mk.inj hpair
    obtain rfl := Option.some.inj hrecord
    rfl
  · cases hrecord

end Bitstream

/-- A later form of a table, with at most so many rows more. -/
structure Table.Extends (table : Table) (count : Nat) (later : Table) : Prop where
  block_eq : later.block = table.block
  rows : table.rows <+: later.rows
  length_le : later.rows.length ≤ table.rows.length + count

section Tables

variable {table middle later : Table} {count more : Nat}

theorem Table.Extends.refl (table : Table) (count : Nat) : table.Extends count table :=
  ⟨rfl, List.prefix_rfl, Nat.le_add_right _ _⟩

theorem Table.Extends.trans (hfirst : table.Extends count middle)
    (hsecond : middle.Extends more later) : table.Extends (count + more) later := by
  refine ⟨hsecond.block_eq.trans hfirst.block_eq, hfirst.rows.trans hsecond.rows, ?_⟩
  have hmiddle := hfirst.length_le
  have hlater := hsecond.length_le
  omega

theorem Table.extends_add (table : Table) (shape : Abbrev) :
    table.Extends 1 (table.add shape).1 := by
  cases hfind : table.find? shape with
  | some row =>
      rw [add_of_find?_eq_some hfind]
      exact .refl table 1
  | none =>
      rw [add_of_find?_eq_none hfind]
      exact ⟨rfl, List.prefix_append _ _, by simp⟩

end Tables

namespace Tree

namespace Unrolling

variable {state next : Unrolling} {entry : Entry}

theorem extends_addAbbrev (state : Unrolling) (block : UInt64) (shape : Abbrev) (other : UInt64) :
    (state.tables.getD other).Extends 1 ((state.addAbbrev block shape).1.tables.getD other) := by
  change (state.tables.getD other).Extends 1
    ((state.tables.add block shape.simplify).1.getD other)
  rw [Tables.getD_add]
  split
  · rename_i heq
    rw [heq]
    exact Table.extends_add _ _
  · exact .refl _ 1

theorem extends_addShared (state : Unrolling) (block : UInt64) (shape : Abbrev) (other : UInt64) :
    (state.tables.getD other).Extends 1 ((state.addShared block shape).tables.getD other) := by
  have hadded := extends_addAbbrev state block shape other
  change (state.tables.getD other).Extends 1
    (((state.addAbbrev block shape).1.tables.update block _).getD other)
  rw [Tables.getD_update]
  split
  · rename_i heq
    rw [heq] at hadded ⊢
    exact ⟨hadded.block_eq, hadded.rows, hadded.length_le⟩
  · exact hadded

theorem extends_step (hstep : state.step entry = .ok next) (block : UInt64) :
    (state.tables.getD block).Extends 1 (next.tables.getD block) := by
  rcases tables_step hstep with hsame | ⟨id, htouch⟩ | ⟨target, shape, -, -, hown | hshared⟩
  · rw [hsame]
    exact .refl _ 1
  · rw [htouch, Tables.getD_touch]
    exact .refl _ 1
  · rw [hown]
    exact extends_addAbbrev state target shape block
  · rw [hshared]
    exact extends_addShared state target shape block

theorem extends_run {final : Unrolling} {entries : List Entry}
    (hrun : state.run entries = (final, none)) (block : UInt64) :
    (state.tables.getD block).Extends entries.length (final.tables.getD block) := by
  induction entries generalizing state with
  | nil =>
      obtain ⟨rfl, -⟩ := Prod.mk.inj hrun
      exact .refl _ 0
  | cons entry entries ih =>
      unfold run at hrun
      cases hstep : state.step entry with
      | error cause => simp [hstep] at hrun
      | ok next =>
          simp only [hstep] at hrun
          rw [List.length_cons, Nat.add_comm]
          exact (extends_step hstep block).trans (ih hrun)

theorem run_holds {final : Unrolling} {outline : Outline} {entries : List Entry}
    (htracks : state.Tracks outline) (hentries : outline.Accepts entries)
    (hrun : state.run entries = (final, none)) :
    ∀ placed ∈ outline.along entries, ∀ place, placed.2 = some place →
      ∀ shape ∈ place.abbrevs, ∃ row, (final.tables.getD place.block).Holds row shape := by
  induction entries generalizing state outline with
  | nil => simp [Outline.along]
  | cons entry entries ih =>
      obtain ⟨same, -, hsame, -, hgrows, -, -⟩ := run_tracks htracks hentries
      obtain rfl : final = same := (Prod.mk.inj (hrun.symm.trans hsame)).1
      obtain ⟨next, hstep, hnext, -, -⟩ := step_tracks htracks hentries.1
      rw [run, hstep] at hrun
      rw [Outline.along, List.forall_mem_cons]
      refine ⟨fun place hplace shape hshape => ?_, ih hnext hentries.2 hrun⟩
      obtain ⟨rest, hplaces⟩ := List.head?_eq_some_iff.mp hplace
      have hopen := htracks.blocks
      rw [hplaces] at hopen
      obtain ⟨inner, outer, hinner, -, -⟩ := List.forall₂_cons_right_iff.mp hopen
      obtain ⟨row, hholds⟩ := hinner.exists_holds (htracks.tables inner.id) hshape
      exact ⟨row, hholds.mono (hgrows place.block)⟩

end Unrolling

theorem exists_run_of_unroll {bytes : Array UInt8} {file : File} {source : Bitstream.File}
    (hopen : Bitstream.File.ofBytes bytes = .ok source)
    (hresult : (unroll bytes).result = .ok file) :
    ∃ final, Unrolling.run {} source.entries.1 = (final, none) ∧
      (unroll bytes).tables = final.tables ∧ file.marks = final.marks := by
  unfold unroll at hresult ⊢
  by_cases hsize : bytes.size % 4 ≠ 0
  · simp [hsize] at hresult
  · simp only [hsize, hopen, if_false] at hresult ⊢
    cases hrun : Unrolling.run {} source.entries.1 with
    | mk final failed =>
        simp only [hrun] at hresult ⊢
        split at hresult
        · cases hresult
        · rename_i hfailure
          rw [Option.or_eq_none_iff, Option.or_eq_none_iff] at hfailure
          obtain ⟨⟨rfl, -⟩, hclosed⟩ := hfailure
          obtain rfl := Except.ok.inj hresult
          have hblocks : final.blocks = [] := by simpa [endFailure] using hclosed
          exact ⟨final, rfl, rfl, by simp [File.marks, Unrolling.marks, hblocks]⟩

section Rows

variable {bytes : Array UInt8} {file : File} {source : Bitstream.File}

theorem run_entries (hopen : Bitstream.File.ofBytes bytes = .ok source) :
    ∃ final, Unrolling.run {} source.entries.1 = (final, none) ∧
      (source.entries.2 = none → final.blocks = []) := by
  obtain ⟨haccepts, -, hclosed⟩ := Bitstream.File.outline_entries hopen
  obtain ⟨final, owned, hrun, hfinal, -, -, -⟩ :=
    Unrolling.run_tracks Unrolling.tracks_start haccepts
  refine ⟨final, hrun, fun hend => ?_⟩
  have hblocks := hfinal.blocks
  rw [hclosed hend] at hblocks
  exact List.forall₂_nil_right_iff.mp hblocks

theorem unroll_of_entries_eq_none (hopen : Bitstream.File.ofBytes bytes = .ok source)
    (hend : source.entries.2 = none) : ∃ file, (unroll bytes).result = .ok file := by
  obtain ⟨final, hrun, hclosed⟩ := run_entries hopen
  have hwords := (Bitstream.File.ofBytes_eq_ok_iff.mp hopen).1
  simp [unroll, hwords, hopen, hrun, hend, endFailure, hclosed hend]

theorem unroll_of_entries_eq_some {cause : Bitstream.Error}
    (hopen : Bitstream.File.ofBytes bytes = .ok source) (hend : source.entries.2 = some cause) :
    (unroll bytes).result = .error (.bitstream cause) := by
  obtain ⟨final, hrun, -⟩ := run_entries hopen
  have hwords := (Bitstream.File.ofBytes_eq_ok_iff.mp hopen).1
  simp [unroll, hwords, hopen, hrun, hend]

theorem holds_of_mem_placed (hopen : Bitstream.File.ofBytes bytes = .ok source)
    (hresult : (unroll bytes).result = .ok file) {entry : Entry} {place : Place}
    (hplaced : (entry, some place) ∈ source.placed) {shape : Abbrev}
    (hshape : shape ∈ place.abbrevs) :
    ∃ row, ((unroll bytes).tables.getD place.block).Holds row shape := by
  obtain ⟨final, hrun, htables, -⟩ := exists_run_of_unroll hopen hresult
  obtain ⟨haccepts, hsame, -⟩ := Bitstream.File.outline_entries hopen
  rw [hsame] at hplaced
  rw [htables]
  exact Unrolling.run_holds Unrolling.tracks_start haccepts hrun _ hplaced place rfl shape hshape

/-- A table of an unrolled file knows its block id and starts with the reserved rows. -/
theorem extends_unroll (hopen : Bitstream.File.ofBytes bytes = .ok source)
    (hresult : (unroll bytes).result = .ok file) (block : UInt64) :
    Table.Extends { block } source.entries.1.length ((unroll bytes).tables.getD block) := by
  obtain ⟨final, hrun, htables, -⟩ := exists_run_of_unroll hopen hresult
  rw [htables]
  exact Unrolling.extends_run hrun block

theorem length_rows_le (hopen : Bitstream.File.ofBytes bytes = .ok source)
    (hresult : (unroll bytes).result = .ok file) (block : UInt64) :
    ((unroll bytes).tables.getD block).rows.length ≤ 8 * bytes.size := by
  obtain ⟨-, hbits⟩ := Bitstream.File.entries_bounded hopen
  have hentries : source.entries.1.length ≤ (source.entries.1.map Entry.leastBits).sum := by
    rw [← List.length_map Entry.leastBits]
    apply List.length_le_sum_of_one_le
    rw [List.forall_mem_map]
    intro entry _
    cases entry <;> simp [Entry.leastBits]
  have hrows : ((unroll bytes).tables.getD block).rows.length ≤
      firstRow + source.entries.1.length := (extends_unroll hopen hresult block).length_le
  have hreserved : firstRow ≤ Bitstream.firstBit := by decide
  omega

theorem forall₂_numbered (hopen : Bitstream.File.ofBytes bytes = .ok source)
    (hresult : (unroll bytes).result = .ok file) :
    List.Forall₂ (Numbered (unroll bytes).tables) source.records file.owned := by
  obtain ⟨final, hrun, htables, hmarks⟩ := exists_run_of_unroll hopen hresult
  obtain ⟨haccepts, hplaced, -⟩ := Bitstream.File.outline_entries hopen
  obtain ⟨same, owned, hsame, -, -, howned, hnumbered⟩ :=
    Unrolling.run_tracks Unrolling.tracks_start haccepts
  obtain rfl : final = same := (Prod.mk.inj (hrun.symm.trans hsame)).1
  have hfile : file.owned = owned := by
    rw [File.owned, hmarks, howned]
    rfl
  rw [Bitstream.File.records, hplaced, htables, hfile]
  exact hnumbered

theorem numbered_of_mem_owned (hopen : Bitstream.File.ofBytes bytes = .ok source)
    (hresult : (unroll bytes).result = .ok file) {kept : UInt64 × Record}
    (hkept : kept ∈ file.owned) :
    ∃ found ∈ source.records, Numbered (unroll bytes).tables found kept := by
  obtain ⟨place, hplace⟩ := List.mem_iff_getElem?.mp hkept
  obtain ⟨found, hfound, hrecord⟩ :=
    exists_getElem?_of_forall₂ (forall₂_numbered hopen hresult) hplace
  exact ⟨found, List.mem_of_getElem? hfound, hrecord⟩

theorem canEncode_of_mem_owned (hopen : Bitstream.File.ofBytes bytes = .ok source)
    (hnarrow : ∀ shape ∈ source.definitions, shape.IsNarrow)
    (hresult : (unroll bytes).result = .ok file) {block : UInt64} {record : Record}
    (hrecord : (block, record) ∈ file.owned) :
    ∃ shape, ((unroll bytes).tables.getD block).get? record.row = some shape ∧
      shape.canEncode record.values := by
  obtain ⟨found, hfound, hnumbered⟩ := numbered_of_mem_owned hopen hresult hrecord
  have hvalues : record.values = found.2.values := by
    rw [Record.values, Bitstream.Record.values, ← hnumbered.code_eq, ← hnumbered.fields_eq]
  cases hid : found.2.id with
  | none =>
      have hrow : record.row = plainRow := hnumbered.plain hid
      refine ⟨anyRecord, ?_, canEncode_anyRecord _⟩
      rw [Table.get?, hrow]
      exact List.prefix_iff_getElem?.mp (extends_unroll hopen hresult block).rows plainRow
        (show plainRow < (List.replicate firstRow anyRecord).length by decide)
  | some id =>
      obtain ⟨shape, hshape, ⟨cursor, final, hread⟩, -, table, htable, hget⟩ :=
        hnumbered.abbreviated id hid
      have hseen : shape ∈ found.1.abbrevs := by
        unfold abbrevWithId? at hshape
        split at hshape
        · cases hshape
        · exact List.mem_of_getElem? hshape
      have hacceptable : shape.isAcceptable := by
        refine Bitstream.File.known_of_mem_records (·.isAcceptable) hopen
          (fun other hother => ?_) hfound shape hseen
        obtain ⟨entry, hentry, hother⟩ := List.mem_filterMap.mp hother
        have hbounded := (Bitstream.File.entries_bounded hopen).1 entry hentry
        cases entry with
        | definition block other isLocal =>
            obtain rfl := Option.some.inj hother
            exact hbounded
        | endBlock | block | record => cases hother
      rw [Abbrev.isAcceptable, Bool.and_eq_true] at hacceptable
      have hencode := Abbrev.ensures_readOperatorValues hacceptable.2
        (Bitstream.File.known_of_mem_records Abbrev.IsNarrow hopen hnarrow hfound shape hseen) hread
      refine ⟨shape.simplify, ?_, ?_⟩
      · rw [Tables.getD, htable]
        exact hget
      · rw [hvalues, Abbrev.canEncode_simplify hacceptable.2
          (Abbrev.minRecordSize_le_of_canEncode hacceptable.2 hencode)]
        exact hencode

end Rows

/-- The records that stand directly in blocks with an id. -/
def File.recordsIn (file : File) (block : UInt64) : List Record :=
  (file.allBlocks.filter (·.id = block)).flatMap (·.body.records)

theorem Body.owned_perm_blocks (body : Body) (owner : UInt64) :
    ((body.marks owner).filterMap Mark.owned?).Perm
      (body.records.map (owner, ·) ++
        body.blocks.flatMap fun block => block.body.records.map (block.id, ·)) := by
  induction body generalizing owner with
  | empty => exact .refl _
  | record item rest ih =>
      simp only [marks, records, blocks, List.filterMap_cons, Mark.owned?, List.map_cons,
        List.cons_append]
      exact (ih owner).cons _
  | block id bits body rest ihBody ihRest =>
      simp only [marks, records, blocks, List.filterMap_cons, List.filterMap_append, Mark.owned?,
        List.flatMap_cons, List.flatMap_append]
      -- What stands in the block comes before the rest of the body here, and after its records there.
      refine ((ihBody id).append (ihRest owner)).trans ?_
      exact (List.perm_append_comm_assoc _ _ _).trans (.of_eq (by simp only [List.append_assoc]))

theorem File.owned_perm_allBlocks (file : File) :
    file.owned.Perm
      (file.allBlocks.flatMap fun block => block.body.records.map (block.id, ·)) := by
  rw [File.owned, File.marks, File.allBlocks, List.filterMap_flatMap, List.flatMap_assoc]
  refine List.Perm.flatMap_left _ fun block _ => ?_
  simpa [Block.marks, Mark.owned?, List.filterMap_cons] using block.body.owned_perm_blocks block.id

theorem File.recordsIn_perm_owned (file : File) (block : UInt64) :
    (file.recordsIn block).Perm ((file.owned.filter (·.1 = block)).map (·.2)) := by
  refine .trans (.of_eq ?_) ((file.owned_perm_allBlocks.filter _).map _).symm
  rw [File.recordsIn, List.filter_flatMap, List.map_flatMap]
  induction file.allBlocks with
  | nil => rfl
  | cons first rest ih =>
      by_cases hid : first.id = block <;> simp [hid, ih, List.filter_map, Function.comp_def]

theorem File.mem_owned_of_mem_recordsIn {file : File} {block : UInt64} {record : Record}
    (hrecord : record ∈ file.recordsIn block) : (block, record) ∈ file.owned := by
  obtain ⟨kept, hkept, rfl⟩ := List.mem_map.mp ((file.recordsIn_perm_owned block).mem_iff.mp hrecord)
  obtain ⟨howned, hid⟩ := List.mem_filter.mp hkept
  obtain rfl : kept.1 = block := of_decide_eq_true hid
  exact howned

/-- That a block is entered. -/
def Event.isEnter : Event → Bool
  | .enter _ _ _ => true
  | _ => false

/-- The event at the start of a block. -/
def Block.entered (block : Block) : Event :=
  .enter block.id block.bits block.localBits

theorem Body.filter_isEnter_eventsOnto (body : Body) (others : List Event) :
    (body.eventsOnto others).filter Event.isEnter =
      body.blocks.map Block.entered ++ others.filter Event.isEnter := by
  induction body generalizing others with
  | empty => rfl
  | record item rest ih => exact ih others
  | block id bits body rest ihBody ihRest =>
      simp [eventsOnto, blocks, List.filter_cons, Event.isEnter, ihBody, ihRest, Block.entered,
        Block.localBits]

theorem File.filter_isEnter_events (file : File) :
    file.events.filter Event.isEnter = file.allBlocks.map Block.entered := by
  rw [File.events, File.allBlocks]
  induction file.blocks with
  | nil => rfl
  | cons block rest ih =>
      simp [Block.eventsOnto, Body.filter_isEnter_eventsOnto, List.filter_cons, Event.isEnter, ih,
        Block.entered]

end Tree

end Bitcode
