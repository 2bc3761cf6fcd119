import Bitcode.Proofs.Compression.Lossless

namespace Bitcode.Compression

open Format Bitstream
open Selection (keptRows minUsage rowFor rowsIn)

/-- A record that is read from a compressed file is one of the original file, in a block with the same
id. It has no abbreviation if its row is the plain one or is used too rarely, and else an id that leads
to the row's abbreviation. -/
structure Assigned (tables : Tables) (blocks : List Tree.Block) (found : Place × Bitstream.Record)
    (original : UInt64 × Tree.Record) : Prop where
  block_eq : found.1.block = original.1
  code_eq : found.2.code = original.2.code
  fields_eq : found.2.fields = original.2.fields
  plain_iff : found.2.id = none ↔
    rowFor tables original.1 original.2.values = plainRow ∨
      (rowsIn tables blocks original.1).count (rowFor tables original.1 original.2.values) < minUsage
  abbreviated : ∀ id, found.2.id = some id →
    ∃ shape, abbrevWithId? found.1.abbrevs id = some shape ∧
      (tables.getD original.1).get? (rowFor tables original.1 original.2.values) = some shape

/-- The block sees the abbreviations of the rows that are used often enough, each once and in the order
of the table. -/
def SeesFrequent (tables : Tables) (blocks : List Tree.Block) (place : Place) : Prop :=
  ∃ rows : List Nat, rows.Pairwise (· < ·) ∧
    (∀ row, row ∈ rows ↔
      row ≠ plainRow ∧ minUsage ≤ (rowsIn tables blocks place.block).count row) ∧
    place.abbrevs.map some = rows.map (tables.getD place.block).get?

section Plan

variable {tables : Tables} {blocks : List Tree.Block}

theorem seesFrequent_place (htables : tables.Sound) (block : UInt64) :
    SeesFrequent tables blocks ((Plan.ofTables tables blocks).place block) :=
  ⟨keptRows tables blocks block, Selection.pairwise_frequentAmong _ _,
    Selection.mem_keptRows htables blocks block,
    (Selection.map_get?_keptRows tables blocks block).symm⟩

theorem id?_eq_none_iff (htables : tables.Sound) (block : UInt64) (values : List UInt64) :
    (Plan.ofTables tables blocks).id? block values = none ↔
      rowFor tables block values = plainRow ∨
        (rowsIn tables blocks block).count (rowFor tables block values) < minUsage := by
  have hkept := Selection.mem_keptRows htables blocks block (rowFor tables block values)
  have hpick := Selection.idOf_eq_plainRow_iff (keptRows tables blocks block)
    (rowFor tables block values)
  unfold Plan.id?
  constructor
  · intro hnone
    by_contra hfrequent
    rw [not_or, Nat.not_lt, ← ne_eq, ← hkept] at hfrequent
    have hplain : (Plan.ofTables tables blocks).pick block values ≠ plainRow :=
      fun hplain => hpick.mp hplain hfrequent
    rw [if_neg hplain] at hnone
    cases hnone
  · intro hrare
    apply if_pos
    apply hpick.mpr
    rw [hkept]
    rintro ⟨hrow, hcount⟩
    exact hrare.elim hrow (Nat.not_lt.mpr hcount)

theorem abbrevWithId?_of_id? (hplan : (Plan.ofTables tables blocks).Sound) {block id : UInt64}
    {values : List UInt64} (hid : (Plan.ofTables tables blocks).id? block values = some id) :
    ∃ shape, abbrevWithId? ((Plan.ofTables tables blocks).kept block) id = some shape ∧
      (tables.getD block).get? (rowFor tables block values) = some shape := by
  unfold Plan.id? at hid
  split at hid
  · cases hid
  · rename_i hdefined
    obtain rfl := Option.some.inj hid
    rcases Selection.idOf_eq (keptRows tables blocks block) (rowFor tables block values) with
      hplain | ⟨place, hpick, hrow⟩
    · exact absurd hplain hdefined
    · have hinside : ∀ row ∈ keptRows tables blocks block, row < (tables.getD block).rows.length :=
        fun row hrow => (Selection.mem_frequentAmong hrow).1
      have hrowInside := hinside _ (List.mem_of_getElem? hrow)
      have hshape := List.getElem?_eq_getElem hrowInside
      have hkept : ((Plan.ofTables tables blocks).kept block)[place]? = _ :=
        (Selection.getElem?_filterMap_get? hinside hrow).trans hshape
      refine ⟨_, ?_, hshape⟩
      have hnamed := (abbrevWithId?_of_place (hplan.few block) hkept).2
      rw [← hnamed]
      exact congrArg (fun pick => abbrevWithId? _ (UInt64.ofNat pick)) hpick

end Plan

/-- How the plan words a record. -/
def Plan.recordWording (plan : Plan) (original : UInt64 × Tree.Record) : RecordWording :=
  (plan.place original.1, plan.id? original.1 original.2.values, original.2.code, original.2.fields)

theorem filterMap_recordWording? (plan : Plan) (file : Tree.File) :
    (file.marks.map plan.wording).filterMap recordWording? =
      file.owned.map plan.recordWording := by
  rw [List.filterMap_map, Tree.File.owned, List.map_filterMap]
  congr 1
  funext mark
  cases mark <;> rfl

theorem assigned_of_readWording {tables : Tables} {blocks : List Tree.Block}
    {found : Place × Bitstream.Record} {original : UInt64 × Tree.Record} (htables : tables.Sound)
    (hplan : (Plan.ofTables tables blocks).Sound)
    (hworded : readWording found = (Plan.ofTables tables blocks).recordWording original) :
    Assigned tables blocks found original := by
  obtain ⟨place, item⟩ := found
  obtain ⟨hplace, hid, hcode, hfields⟩ : place = (Plan.ofTables tables blocks).place original.1 ∧
      item.id = (Plan.ofTables tables blocks).id? original.1 original.2.values ∧
      item.code = original.2.code ∧ item.fields = original.2.fields := by
    simpa [readWording, Plan.recordWording] using hworded
  refine ⟨by rw [hplace]; rfl, hcode, hfields, ?_, ?_⟩
  · rw [hid]
    exact id?_eq_none_iff htables original.1 original.2.values
  · intro id hsome
    rw [hplace]
    exact abbrevWithId?_of_id? hplan (hid.symm.trans hsome)

theorem forall₂_assigned {tables : Tables} {blocks : List Tree.Block}
    {found : List (Place × Bitstream.Record)} {originals : List (UInt64 × Tree.Record)}
    (htables : tables.Sound) (hplan : (Plan.ofTables tables blocks).Sound)
    (hworded : found.map readWording =
      originals.map (Plan.ofTables tables blocks).recordWording) :
    List.Forall₂ (Assigned tables blocks) found originals := by
  rw [← List.forall₂_eq_eq_eq, List.forall₂_map_left_iff, List.forall₂_map_right_iff] at hworded
  exact hworded.imp fun _ _ hrecord => assigned_of_readWording htables hplan hrecord

theorem seesFrequent_of_mem_wordings {tables : Tables} {file : Tree.File} {wording : Wording}
    {place : Place} (htables : tables.Sound)
    (hmem : wording ∈ file.marks.map (Plan.ofTables tables file.blocks).wording)
    (hplace : wording = .exit place ∨ ∃ id code fields, wording = .record place id code fields) :
    SeesFrequent tables file.blocks place := by
  obtain ⟨mark, -, rfl⟩ := List.mem_map.mp hmem
  cases mark with
  | enter id => simp [Plan.wording] at hplace
  | exit id =>
      obtain rfl : (Plan.ofTables tables file.blocks).place id = place := by
        simpa [Plan.wording] using hplace
      exact seesFrequent_place htables id
  | record owner item =>
      obtain rfl : (Plan.ofTables tables file.blocks).place owner = place := by
        simpa [Plan.wording] using hplace
      exact seesFrequent_place htables owner

/-- Each record of a compressed file is written with the abbreviation that is selected for it, and at
every record and at the end of every block, the block sees the rows that are used often enough. All
records are read exactly if ids of 32 bits can name the abbreviations that each block id keeps; so they
are if the original has less than 4 GiB. Else a reader stops at the first block with wider ids, and the
records found are those before it. -/
theorem assigned_of_compress {bytes : Array UInt8} {file : Tree.File}
    (hsize : 8 * bytes.size < 2 ^ 64) (hresult : (Tree.unroll bytes).result = .ok file) :
    ∃ compressed, ∃ written : Bitstream.File,
      compress bytes false = .ok compressed ∧ File.ofBytes compressed = .ok written ∧
      (Nameable (selectionTables bytes file) file.blocks →
        written.entries.2 = none ∧
          List.Forall₂ (Assigned (selectionTables bytes file) file.blocks) written.records
            file.owned) ∧
      (¬ Nameable (selectionTables bytes file) file.blocks →
        (∃ block width, 32 < width ∧ written.contents ++ [.enter block] <+: file.contents ∧
          written.entries.2 = some (.scope (.badIdWidth block width))) ∧
        ∃ originals, originals <+: file.owned ∧
          List.Forall₂ (Assigned (selectionTables bytes file) file.blocks) written.records
            originals) ∧
      (bytes.size < 2 ^ 32 → Nameable (selectionTables bytes file) file.blocks) ∧
      ∀ entry place, (entry, some place) ∈ written.placed →
        (entry = .endBlock ∨ ∃ item, entry = .record item) →
        SeesFrequent (selectionTables bytes file) file.blocks place := by
  have htables := sound_selectionTables hresult
  have hplan := sound_ofTables htables hsize hresult
  obtain ⟨hparse, hreadable, hraw, hwords⟩ := header_of_unroll hresult
  obtain ⟨writer, hcompress, hclosed, hworded⟩ := compress_words hsize hresult
  obtain ⟨written, hopen, -, hread⟩ :=
    ofBytes_of_words hparse hreadable hraw hwords hworded hclosed
  -- Also where reading stops early, what is found are the first wordings of the plan.
  have hprefix : written.wordings <+:
      file.marks.map (Plan.ofTables (selectionTables bytes file) file.blocks).wording := by
    rcases hread with ⟨-, -, hall⟩ | ⟨-, block, width, -, hfound, -⟩
    · exact hall ▸ List.prefix_rfl
    · exact (List.prefix_append _ _).trans hfound
  refine ⟨_, written, hcompress, hopen, ?_, ?_, nameable_of_size_lt hresult, ?_⟩
  · intro hnameable
    obtain ⟨-, hend, hall⟩ := hread.resolve_right fun hstopped => hstopped.1 hnameable
    refine ⟨hend, forall₂_assigned htables hplan ?_⟩
    rw [map_readWording, hall, filterMap_recordWording?]
  · intro hwide
    obtain ⟨-, block, width, hwidth, hfound, hstop⟩ :=
      hread.resolve_left fun hall => hwide hall.1
    refine ⟨⟨block, width, hwidth, ?_, hstop⟩, file.owned.take written.records.length,
      List.take_prefix _ _, forall₂_assigned htables hplan ?_⟩
    · have hsaid := hfound.map Wording.content
      rw [List.map_append, File.map_content_wordings hopen, map_content_wordings] at hsaid
      exact hsaid
    · have hrecords := hprefix.filterMap recordWording?
      rw [← map_readWording, filterMap_recordWording?] at hrecords
      rw [List.map_take]
      simpa using List.prefix_iff_eq_take.mp hrecords
  · intro entry place hplaced hkind
    have hwording : ∀ {wording}, entry.wording? (some place) = some wording →
        wording ∈ file.marks.map (Plan.ofTables (selectionTables bytes file) file.blocks).wording :=
      fun hwording => hprefix.subset (List.mem_filterMap.mpr ⟨_, hplaced, hwording⟩)
    rcases hkind with rfl | ⟨item, rfl⟩
    · exact seesFrequent_of_mem_wordings htables (hwording rfl) (.inl rfl)
    · exact seesFrequent_of_mem_wordings htables (hwording rfl) (.inr ⟨_, _, _, rfl⟩)

theorem assigned_of_compress_sampleFile :
    ∃ file compressed, ∃ written : Bitstream.File,
      (Tree.unroll sampleFile).result = .ok file ∧
      file.owned.map (·.1) = [8, 17, 17, 17, 17, 17, 17, 8] ∧
      compress sampleFile false = .ok compressed ∧ File.ofBytes compressed = .ok written ∧
      written.entries.2 = none ∧
      List.Forall₂ (Assigned (selectionTables sampleFile file) file.blocks) written.records
        file.owned := by
  have howners : (Tree.unroll sampleFile).result.toOption.map (fun file => file.owned.map (·.1)) =
      some [8, 17, 17, 17, 17, 17, 17, 8] := by
    decide +kernel
  obtain ⟨file, hresult⟩ := isOk_iff_exists.mp isOk_unroll_sampleFile
  rw [hresult] at howners
  obtain ⟨compressed, written, hcompress, hopen, hread, -, hsmall, -⟩ :=
    assigned_of_compress (by decide) hresult
  obtain ⟨hend, hassigned⟩ := hread (hsmall (by decide))
  exact ⟨file, compressed, written, hresult, Option.some.inj howners, hcompress, hopen, hend,
    hassigned⟩

/-- Not every record of the original is always found. -/
theorem assigned_of_compress_crowded :
    ∃ bytes file compressed, ∃ written : Bitstream.File, bytes.size < 2 ^ 39 ∧
      (Tree.unroll bytes).result = .ok file ∧ compress bytes false = .ok compressed ∧
      File.ofBytes compressed = .ok written ∧ written.records = [] ∧
      ¬ List.Forall₂ (Assigned (selectionTables bytes file) file.blocks) written.records
        file.owned := by
  obtain ⟨bytes, file, compressed, written, hsize, hresult, howned, -, hcompress, hopen, hempty,
    -, -, -, -⟩ := exists_unread
  have hrecords : written.records = [] := by
    have hwordings : written.wordings = [] := by
      rw [← List.map_eq_nil_iff, File.map_content_wordings hopen, hempty]
    rw [← List.map_eq_nil_iff, map_readWording, hwordings, List.filterMap_nil]
  refine ⟨bytes, file, compressed, written, hsize, hresult, hcompress, hopen, hrecords, ?_⟩
  rw [hrecords, List.forall₂_nil_left_iff]
  exact howned

end Bitcode.Compression
