import Bitcode.Compression.Compressor
import Bitcode.Proofs.Compression.Output
import Bitcode.Proofs.Synthesis.Acceptance

namespace Bitcode.Compression

open Format Bitstream
open Bits (bitAt bytes_ext getD_unpackBytes unpackBytes)

section Selections

theorem forBlock_definitions_cons (entry : UInt64 × List Abbrev)
    (listed : List (UInt64 × List Abbrev)) (id : UInt64) :
    Shared.forBlock ⟨Operation.definitions (entry :: listed)⟩ id =
      (if entry.1 = id then entry.2 else []) ++
        Shared.forBlock ⟨Operation.definitions listed⟩ id := by
  obtain ⟨block, shapes⟩ := entry
  by_cases hblock : block = id
  · simp [Shared.forBlock, Operation.definitions, List.filter_map, Function.comp_def, hblock]
  · simp [Shared.forBlock, Operation.definitions, List.filter_map, Function.comp_def, hblock]

theorem forBlock_shared_cons (block : UInt64) (selected : Selection.Selected)
    (entries : List (UInt64 × Selection.Selected)) (id : UInt64) :
    Shared.forBlock ⟨Operation.definitions
        (Output.shared { selection := some ⟨(block, selected) :: entries⟩ })⟩ id =
      (if block = id ∧ id ≠ moduleBlockId then selected.kept else []) ++
        Shared.forBlock ⟨Operation.definitions (Output.shared { selection := some ⟨entries⟩ })⟩
          id := by
  simp only [Output.shared]
  by_cases hlisted : block ≠ moduleBlockId ∧ !selected.kept.isEmpty
  · rw [List.filter_cons_of_pos (by simpa using hlisted), List.map_cons, forBlock_definitions_cons]
    congr 1
    by_cases hblock : block = id
    · simp [← hblock, hlisted.1]
    · simp [hblock]
  · rw [List.filter_cons_of_neg (by simpa using hlisted)]
    have hnone : (if block = id ∧ id ≠ moduleBlockId then selected.kept else []) = [] := by
      split
      · rename_i hblock
        have hmodule : block ≠ moduleBlockId := hblock.1 ▸ hblock.2
        simpa [hmodule] using hlisted
      · rfl
    rw [hnone, List.nil_append]

theorem forBlock_shared {selection : Selection} (hkeys : (selection.entries.map (·.1)).Nodup)
    (id : UInt64) :
    Shared.forBlock ⟨Operation.definitions (Output.shared { selection := some selection })⟩ id =
      if id = moduleBlockId then [] else (selection.entryOf id).kept := by
  obtain ⟨entries⟩ := selection
  induction entries with
  | nil => simp [Output.shared, Shared.forBlock, Operation.definitions, Selection.entryOf,
      Selection.get?]
  | cons entry entries ih =>
      obtain ⟨block, selected⟩ := entry
      obtain ⟨hnew, hkeys⟩ := List.nodup_cons.mp hkeys
      rw [forBlock_shared_cons, ih hkeys]
      by_cases hblock : block = id
      · subst hblock
        have hothers : entries.lookup block = none := by
          rw [List.lookup_eq_none_iff]
          intro entry hentry
          have hne : block ≠ entry.1 := fun heq =>
            hnew (List.mem_map.mpr ⟨entry, hentry, heq.symm⟩)
          simpa using hne
        simp [Selection.entryOf, Selection.get?, hothers]
      · have hother : (id == block) = false := by simpa using Ne.symm hblock
        simp [Selection.entryOf, Selection.get?, hblock, List.lookup_cons, hother]

theorem kept_of_mem_shared {selection : Selection}
    (hkeys : (selection.entries.map (·.1)).Nodup) {entry : UInt64 × List Abbrev}
    (hentry : entry ∈ Output.shared { selection := some selection }) :
    entry.2 = (selection.entryOf entry.1).kept := by
  obtain ⟨⟨block, selected⟩, hselected, rfl⟩ := List.mem_map.mp hentry
  rw [Selection.entryOf, Selection.get?,
    Keyed.lookup_eq_some_of_mem hkeys (List.mem_filter.mp hselected).1]
  rfl

/-- The plan of tables for some blocks: keep the rows that are selected often enough, and write each
record with the row that is selected for it. -/
def Plan.ofTables (tables : Tables) (blocks : List Tree.Block) : Plan where
  kept block := (Selection.keptRows tables blocks block).filterMap (tables.getD block).get?
  pick block values :=
    Selection.idOf (Selection.keptRows tables blocks block) (Selection.rowFor tables block values)

theorem entryOf_choose_eq_plan (tables : Tables) (blocks : List Tree.Block) (block : UInt64) :
    (Selection.choose tables blocks).entryOf block =
      { queue := ((Tree.valuesIn blocks block).map
          ((Plan.ofTables tables blocks).pick block)).toArray
        kept := (Plan.ofTables tables blocks).kept block } := by
  rw [Selection.entryOf_choose, Selection.rowsIn, List.map_map]
  rfl

end Selections

/-- Ids of 32 bits can name all abbreviations that the blocks of any id keep. -/
def Nameable (tables : Tables) (blocks : List Tree.Block) : Prop :=
  ∀ block, (Selection.keptRows tables blocks block).length + firstDefinedId ≤ 2 ^ 32

section Bounds

variable {plan : Plan} {file : Tree.File} {bits : Nat}

theorem ten_mul_length_kept_le
    (hplan : ∀ block,
      Selection.Suits (plan.kept block) (plan.pick block) (Tree.valuesIn file.blocks block))
    (hrecords : 2 * file.contents.countP Content.isRecord ≤ bits) (block : UInt64) :
    10 * (plan.kept block).length ≤ bits := by
  have hfrequent := (hplan block).frequent
  have hcount := Tree.length_valuesIn_le file.blocks block
  rw [Selection.minUsage] at hfrequent
  rw [Tree.File.contents] at hrecords
  omega

theorem sound_of_suits
    (hplan : ∀ block,
      Selection.Suits (plan.kept block) (plan.pick block) (Tree.valuesIn file.blocks block))
    (hcontents : ∀ content ∈ file.contents, content.Bounded bits)
    (hrecords : 2 * file.contents.countP Content.isRecord ≤ bits) (hbits : bits < 2 ^ 64) :
    plan.Sound := by
  refine ⟨?_, ?_⟩
  · intro block
    have hkept := ten_mul_length_kept_le hplan hrecords block
    rw [firstDefinedId]
    omega
  · intro block shape hshape
    obtain ⟨hacceptable, values, hvalues, hencode⟩ := (hplan block).used shape hshape
    have hoperators := Abbrev.length_le_of_canEncode hacceptable hencode
    obtain ⟨code, fields, rfl, hrecord⟩ := Tree.record_of_mem_valuesIn hvalues
    have hfields : fields.length + 1 + firstBit ≤ bits := hcontents _ hrecord
    rw [firstBit, Header.fixedSize] at hfields
    rw [List.length_cons] at hoperators
    rw [Operation.isReadable, hacceptable, Bool.true_and, decide_eq_true_eq]
    omega

theorem admits_enter_iff (tables : Tables) (blocks : List Tree.Block) (block : UInt64) :
    (Plan.ofTables tables blocks).Admits (.enter block) ↔
      (Selection.keptRows tables blocks block).length + firstDefinedId ≤ 2 ^ 32 := by
  rw [← Selection.length_filterMap_keptRows]
  exact idWidthFor_le_iff (by decide)

theorem forall_admits_iff_nameable {tables : Tables} (htables : tables.Sound)
    (blocks : List Tree.Block) :
    (∀ mark ∈ blocks.flatMap Tree.Block.marks, (Plan.ofTables tables blocks).Admits mark) ↔
      Nameable tables blocks := by
  -- Abbreviations are kept only for blocks with records, and these blocks are entered.
  constructor
  · intro hadmits block
    have hfrequent := (Selection.suits_keptRows htables blocks block).frequent
    rw [Selection.length_filterMap_keptRows, Selection.minUsage] at hfrequent
    cases hvalues : Tree.valuesIn blocks block with
    | nil =>
        rw [hvalues, List.length_nil] at hfrequent
        rw [firstDefinedId]
        omega
    | cons values rest =>
        have hentered : .enter block ∈ blocks.flatMap Tree.Block.marks :=
          Tree.enter_mem_marks (hvalues ▸ List.mem_cons_self)
        exact (admits_enter_iff tables blocks block).mp (hadmits _ hentered)
  · intro hnameable mark _
    cases mark with
    | enter block => exact (admits_enter_iff tables blocks block).mpr (hnameable block)
    | exit | record => trivial

theorem nameable_of_records_le {tables : Tables} (htables : tables.Sound)
    (hrecords : 2 * file.contents.countP Content.isRecord ≤ bits) (hbits : bits < 2 ^ 35) :
    Nameable tables file.blocks := by
  intro block
  have hsuits : ∀ block, Selection.Suits ((Plan.ofTables tables file.blocks).kept block)
      ((Plan.ofTables tables file.blocks).pick block) (Tree.valuesIn file.blocks block) :=
    Selection.suits_keptRows htables file.blocks
  have hkept : 10 * ((Selection.keptRows tables file.blocks block).filterMap
      (tables.getD block).get?).length ≤ bits := ten_mul_length_kept_le hsuits hrecords block
  rw [Selection.length_filterMap_keptRows] at hkept
  rw [firstDefinedId]
  omega

theorem writable_of_bounded {content : Content} (hcontent : content.Bounded bits)
    (hbits : bits < 2 ^ 64) : Writable content := by
  cases content with
  | enter id => exact hcontent
  | exit => trivial
  | record code fields =>
      have hfields : fields.length + 1 + firstBit ≤ bits := hcontent
      exact Nat.lt_of_le_of_lt (Nat.le_trans (Nat.le_add_right _ _) hfields) hbits

end Bounds

/-- The writer of a stream after its header. -/
def headed (raw : Array UInt8) : Writer :=
  { bits := { bits := Bits.unpackBytes raw } }

theorem size_headed (raw : Array UInt8) : (headed raw).size = 8 * raw.size :=
  Bits.unpackBytes_size raw

theorem sound_headed {raw : Array UInt8} (hwords : raw.size % 4 = 0) : (headed raw).Sound := by
  apply Writer.sound_of_blocks_eq_nil rfl _ rfl
  rw [size_headed]
  omega

theorem writeHeader_eq_ok {header : Header} (hwords : header.raw.size % 4 = 0) :
    Writer.writeHeader header {} = .ok () (headed header.raw) := by
  have hemit : Bits.Writer.emitWords header.raw ({} : Bits.Writer) =
      .ok () { bits := Bits.unpackBytes header.raw } := by
    simp [Bits.Writer.emitWords, hwords]
  rw [Writer.writeHeader, get_bind_apply, if_neg (by decide)]
  exact Writer.onBits_eq_ok_iff.mpr ⟨_, adaptExcept_eq_ok_iff.mpr hemit, rfl⟩

section Reading

variable {bytes : Array UInt8}

theorem extract_of_keeps {raw : Array UInt8} (hkeeps : Writer.Keeps bytes (headed raw)) :
    raw.size ≤ bytes.size ∧ bytes.extract 0 raw.size = raw := by
  have hsize := hkeeps.size_le
  rw [size_headed] at hsize
  have hextract : (bytes.extract 0 raw.size).size = raw.size := by
    rw [Array.size_extract]
    omega
  refine ⟨by omega, bytes_ext hextract fun position hposition => ?_⟩
  rw [hextract] at hposition
  have hfree : (headed raw).Free position := by
    intro place hplace
    cases hplace
  calc bitAt (bytes.extract 0 raw.size) position
      = bitAt bytes position := by
        have hinside : position / 8 < bytes.size := by omega
        have hboth : position / 8 < min raw.size bytes.size := by omega
        simp [bitAt, Array.getD, hinside, hboth]
    _ = (unpackBytes raw).getD position false :=
        hkeeps.bit_eq position (by rwa [size_headed]) hfree
    _ = bitAt raw position := getD_unpackBytes hposition

theorem ofBytes_of_words {valid : Prop} {header : Header} {writer : Writer}
    {wordings : List Wording} (hparse : Header.parse bytes = .ok header)
    (hreadable : header.isReadable) (hraw : header.raw.size = header.size)
    (hwords : header.size % 4 = 0)
    (hworded : Words valid (headed header.raw) writer wordings) (hclosed : writer.blocks = []) :
    ∃ file : Bitstream.File, File.ofBytes writer.bits.toBytes = .ok file ∧ file.header = header ∧
      (valid ∧ file.entries.2 = none ∧ file.wordings = wordings ∨
        ¬ valid ∧ ∃ block width, 32 < width ∧ file.wordings ++ [.enter block] <+: wordings ∧
          file.entries.2 = some (.scope (.badIdWidth block width))) := by
  have hsound := sound_headed (hraw ▸ hwords)
  obtain ⟨hfinal, hback⟩ := hworded.kept hsound
  have hcomplete := hfinal.nested.complete hclosed
  have hkeeps := Writer.keeps_toBytes hcomplete
  have hbytes := Writer.size_toBytes hcomplete
  obtain ⟨hinside, hextract⟩ := extract_of_keeps (hback _ hkeeps)
  rw [hraw] at hinside hextract
  have hcursor := standsAt_restart hinside hwords (by omega)
  obtain ⟨file, hfile⟩ : ∃ file : Bitstream.File,
      file = ⟨header, .ofCursor ((Bits.Cursor.ofBytes writer.bits.toBytes).restart header.size)⟩ :=
    ⟨_, rfl⟩
  have hopen : File.ofBytes writer.bits.toBytes = .ok file := by
    rw [hfile]
    exact File.ofBytes_eq_ok_iff.mpr
      ⟨by omega, Header.parse_of_extract_eq hparse hinside hextract, hreadable, rfl⟩
  have hcollect : ∀ {entries position context cause},
      Parsed writer.bits.toBytes (headed header.raw).size (headed header.raw).context entries
        position context →
      Reader.Ends writer.bits.toBytes position context cause →
      file.reader.collect = (entries, cause) := by
    intro entries position context cause hparsed hends
    rw [size_headed, hraw] at hparsed
    rw [hfile]
    exact Reader.collect_of_parsed hparsed hends _ hcursor
  have hstart : (headed header.raw).size = 8 * header.size := by rw [size_headed, hraw]
  refine ⟨file, hopen, by rw [hfile], ?_⟩
  rw [File.wordings_eq hopen]
  obtain ⟨entries, hread⟩ := hworded.parsed hsound hkeeps ⟨_, hstart ▸ hcursor⟩
  rcases hread with ⟨hall, hparsed, hfound⟩ |
    ⟨hwide, position, context, block, width, hwidth, hfound, hparsed, hends⟩
  · left
    have hscopes : writer.context.scopes = [] := by
      rw [Writer.context_none_scopes, hclosed]
      rfl
    rw [← hbytes] at hparsed
    rw [File.entries, hcollect hparsed (Reader.ends_of_scopes_eq_nil hscopes)]
    exact ⟨hall, rfl, hfound⟩
  · right
    rw [File.entries, hcollect hparsed hends]
    exact ⟨hwide, block, width, hwidth, hfound, rfl⟩

theorem ofBytes_of_composes {valid : Prop} {header : Header} {writer : Writer}
    {contents : List Content} (hparse : Header.parse bytes = .ok header)
    (hreadable : header.isReadable) (hraw : header.raw.size = header.size)
    (hwords : header.size % 4 = 0)
    (hcomposes : Composes valid (headed header.raw) writer contents)
    (hclosed : writer.blocks = []) :
    ∃ file : Bitstream.File, File.ofBytes writer.bits.toBytes = .ok file ∧ file.header = header ∧
      (valid ∧ file.entries.2 = none ∧ file.contents = contents ∨
        ¬ valid ∧ ∃ block width, 32 < width ∧ file.contents ++ [.enter block] <+: contents ∧
          file.entries.2 = some (.scope (.badIdWidth block width))) := by
  obtain ⟨wordings, hworded, rfl⟩ := hcomposes
  obtain ⟨file, hopen, hheader, hread⟩ :=
    ofBytes_of_words hparse hreadable hraw hwords hworded hclosed
  refine ⟨file, hopen, hheader, ?_⟩
  rw [← File.map_content_wordings hopen]
  rcases hread with ⟨hall, hend, hfound⟩ | ⟨hwide, block, width, hwidth, hfound, hstop⟩
  · exact .inl ⟨hall, hend, by rw [hfound]⟩
  · have hsaid := hfound.map Wording.content
    rw [List.map_append] at hsaid
    exact .inr ⟨hwide, block, width, hwidth, hsaid, hstop⟩

end Reading

/-- A file is written by the plan if it is written with the selection. -/
structure Plan.Governs (plan : Plan) (selection : Option Selection) (file : Tree.File) : Prop where
  sound : plan.Sound
  words : file.header.raw.size % 4 = 0
  offers : ∀ id, Shared.forBlock
    ⟨Operation.definitions (Output.shared { selection })⟩ id = plan.offered id
  readable : ∀ entry ∈ Output.shared { selection }, ∀ shape ∈ entry.2, Operation.isReadable shape
  serves : Output.Serves plan (Tree.valuesIn file.blocks) { selection }
  encodes : ∀ target, ∀ values ∈ Tree.valuesIn file.blocks target, plan.Encodes target values
  writable : ∀ content ∈ file.contents, Writable content

section Governs

variable {plan : Plan} {selection : Option Selection} {file : Tree.File}

theorem Plan.Governs.outside (hplan : plan.Governs selection file) :
    Output.Outside plan (Tree.valuesIn file.blocks)
      { writer := headed file.header.raw, selection } :=
  ⟨rfl, ⟨sound_headed hplan.words, by simp [headed]⟩, rfl, hplan.offers, hplan.readable,
    hplan.serves.of_selection_eq rfl⟩

theorem writeFile_eq_ok {output : Output} (hwords : file.header.raw.size % 4 = 0)
    (hblocks : file.blocks.forM Output.writeBlock
      { writer := headed file.header.raw, selection } = .ok () output)
    (hclosed : output.writer.blocks = []) :
    Output.writeFile file { selection } = .ok output.writer.bits.toBytes output := by
  refine bind_eq_ok_iff.mpr ⟨(), _, Output.onWriter_eq_ok (writeHeader_eq_ok hwords), ?_⟩
  refine bind_eq_ok_iff.mpr ⟨(), output, hblocks, ?_⟩
  rw [get_bind_apply]
  simp only [Writer.finish_eq_ok_iff.mpr ⟨hclosed, rfl⟩]
  rfl

theorem writeFile_words (hplan : plan.Governs selection file) :
    ∃ output : Output,
      Output.writeFile file { selection } = .ok output.writer.bits.toBytes output ∧
      output.writer.blocks = [] ∧
      Words (∀ mark ∈ file.marks, plan.Admits mark) (headed file.header.raw) output.writer
        (file.marks.map plan.wording) := by
  obtain ⟨output, hblocks, hclosed, hworded⟩ := Output.writeBlocks_words hplan.sound file.blocks
    (.inl hplan.outside) hplan.encodes hplan.writable
  exact ⟨output, writeFile_eq_ok hplan.words hblocks hclosed, hclosed, hworded⟩

end Governs

section Compress

variable {bytes : Array UInt8} {file : Tree.File}

theorem header_of_unroll (hresult : (Tree.unroll bytes).result = .ok file) :
    Header.parse bytes = .ok file.header ∧ file.header.isReadable ∧
      file.header.raw.size = file.header.size ∧ file.header.size % 4 = 0 := by
  obtain ⟨source, hopen, -, hheader, -, -⟩ := Tree.unroll_eq_ok hresult
  obtain ⟨-, hparse, hreadable, -⟩ := Bitstream.File.ofBytes_eq_ok_iff.mp hopen
  rw [hheader] at hparse hreadable
  obtain ⟨-, hinside, hwords, hraw⟩ := Header.size_of_parse hparse
  refine ⟨hparse, hreadable, ?_, hwords⟩
  rw [hraw, Array.size_extract]
  omega

theorem governs_plain (hsize : 8 * bytes.size < 2 ^ 64)
    (hresult : (Tree.unroll bytes).result = .ok file) : Plan.plain.Governs none file := by
  obtain ⟨-, -, hraw, hwords⟩ := header_of_unroll hresult
  obtain ⟨hcontents, -⟩ := Tree.contents_bounded hresult
  refine ⟨Plan.sound_plain, hraw ▸ hwords, ?_, fun _ hentry => (nomatch hentry), rfl,
    fun _ _ _ => .inl rfl,
    fun content hcontent => writable_of_bounded (hcontents content hcontent) hsize⟩
  intro id
  rw [Plan.offered, Plan.plain, ite_self]
  rfl

theorem encodePlain_words (hsize : 8 * bytes.size < 2 ^ 64)
    (hresult : (Tree.unroll bytes).result = .ok file) :
    ∃ writer, encodePlain file = .ok writer.bits.toBytes ∧ writer.blocks = [] ∧
      Words True (headed file.header.raw) writer (file.marks.map Plan.plain.wording) := by
  obtain ⟨output, hwrite, hclosed, hworded⟩ := writeFile_words (governs_plain hsize hresult)
  refine ⟨output.writer, ?_, hclosed,
    hworded.congr (iff_true_intro fun mark _ => Plan.admits_plain mark)⟩
  rw [encodePlain, hwrite]

theorem sound_ofTables {tables : Tables} (htables : tables.Sound) (hsize : 8 * bytes.size < 2 ^ 64)
    (hresult : (Tree.unroll bytes).result = .ok file) : (Plan.ofTables tables file.blocks).Sound := by
  obtain ⟨hcontents, hrecords⟩ := Tree.contents_bounded hresult
  exact sound_of_suits (Selection.suits_keptRows htables file.blocks) hcontents hrecords hsize

theorem governs_ofTables {tables : Tables} (htables : tables.Sound)
    (hsize : 8 * bytes.size < 2 ^ 64) (hresult : (Tree.unroll bytes).result = .ok file) :
    (Plan.ofTables tables file.blocks).Governs (some (Selection.choose tables file.blocks)) file := by
  obtain ⟨-, -, hraw, hwords⟩ := header_of_unroll hresult
  obtain ⟨hcontents, -⟩ := Tree.contents_bounded hresult
  have hchoose := entryOf_choose_eq_plan tables file.blocks
  have hkeys := Selection.nodup_choose htables file.blocks
  have hplan := sound_ofTables htables hsize hresult
  refine ⟨hplan, hraw ▸ hwords, ?_, ?_, ?_,
    fun block => (Selection.suits_keptRows htables file.blocks block).encodes,
    fun content hcontent => writable_of_bounded (hcontents content hcontent) hsize⟩
  · intro id
    rw [forBlock_shared hkeys, hchoose id]
    rfl
  · intro entry hentry shape hshape
    rw [kept_of_mem_shared hkeys hentry, hchoose entry.1] at hshape
    exact hplan.readable entry.1 shape hshape
  · intro block
    rw [hchoose block]
    exact ⟨rfl, rfl⟩

theorem encodeWith_words {tables : Tables} (htables : tables.Sound)
    (hsize : 8 * bytes.size < 2 ^ 64) (hresult : (Tree.unroll bytes).result = .ok file) :
    ∃ writer,
      (encodeWith (Selection.choose tables file.blocks) file).1 = .ok writer.bits.toBytes ∧
      writer.blocks = [] ∧
      Words (Nameable tables file.blocks) (headed file.header.raw) writer
        (file.marks.map (Plan.ofTables tables file.blocks).wording) := by
  obtain ⟨output, hwrite, hclosed, hworded⟩ :=
    writeFile_words (governs_ofTables htables hsize hresult)
  refine ⟨output.writer, ?_, hclosed,
    hworded.congr (forall_admits_iff_nameable htables file.blocks)⟩
  rw [encodeWith, hwrite]

/-- The tables that abbreviations are selected from: those of the file, with the synthesized ones. -/
def selectionTables (bytes : Array UInt8) (file : Tree.File) : Tables :=
  (Synthesis.extend (Census.ofFile file) (Tree.unroll bytes).tables).buildLookups

theorem sound_selectionTables (hresult : (Tree.unroll bytes).result = .ok file) :
    (selectionTables bytes file).Sound := by
  obtain ⟨-, -, -, -, -, htables⟩ := Tree.unroll_eq_ok hresult
  exact (Synthesis.sound_extend htables (Census.ofFile file)).buildLookups

theorem nameable_of_size_lt (hresult : (Tree.unroll bytes).result = .ok file)
    (hsmall : bytes.size < 2 ^ 32) : Nameable (selectionTables bytes file) file.blocks :=
  nameable_of_records_le (sound_selectionTables hresult) (Tree.contents_bounded hresult).2 (by omega)

theorem compress_words (hsize : 8 * bytes.size < 2 ^ 64)
    (hresult : (Tree.unroll bytes).result = .ok file) :
    ∃ writer, compress bytes false = .ok writer.bits.toBytes ∧ writer.blocks = [] ∧
      Words (Nameable (selectionTables bytes file) file.blocks) (headed file.header.raw) writer
        (file.marks.map (Plan.ofTables (selectionTables bytes file) file.blocks).wording) := by
  obtain ⟨writer, hencode, hclosed, hworded⟩ :=
    encodeWith_words (sound_selectionTables hresult) hsize hresult
  refine ⟨writer, ?_, hclosed, hworded⟩
  rw [compress, hresult]
  exact hencode

theorem map_content_wordings (plan : Plan) (file : Tree.File) :
    (file.marks.map plan.wording).map Wording.content = file.contents := by
  rw [List.map_map, Tree.File.contents, ← Tree.map_content_flatMap_marks]
  apply List.map_congr_left
  intro mark _
  exact plan.content_wording mark

theorem composes_of_words {valid : Prop} {plan : Plan} {writer next : Bitstream.Writer}
    (hworded : Words valid writer next (file.marks.map plan.wording)) :
    Composes valid writer next file.contents :=
  ⟨_, hworded, map_content_wordings plan file⟩

/-- What is written without abbreviations is read again, and what is written with abbreviations if
they can be named. -/
def Rereadable (bytes : Array UInt8) (file : Tree.File) (removeAbbrevs : Bool) : Prop :=
  removeAbbrevs = true ∨ Nameable (selectionTables bytes file) file.blocks

/-- Compressing goes through for every file that can be unrolled, by a plan that can be carried out. A
reader can follow what is written exactly if no block keeps more abbreviations than its ids can name. -/
theorem compress_planned (hsize : 8 * bytes.size < 2 ^ 64)
    (hresult : (Tree.unroll bytes).result = .ok file) (removeAbbrevs : Bool) :
    ∃ (plan : Plan) (writer : Bitstream.Writer),
      compress bytes removeAbbrevs = .ok writer.bits.toBytes ∧ writer.blocks = [] ∧
      Words (Rereadable bytes file removeAbbrevs) (headed file.header.raw) writer
        (file.marks.map plan.wording) ∧
      plan.Sound ∧
      ∀ target, ∀ values ∈ Tree.valuesIn file.blocks target, plan.Encodes target values := by
  cases removeAbbrevs with
  | true =>
      obtain ⟨writer, hencode, hclosed, hworded⟩ := encodePlain_words hsize hresult
      have hplan := governs_plain hsize hresult
      refine ⟨.plain, writer, ?_, hclosed, hworded.congr ?_, hplan.sound, hplan.encodes⟩
      · rw [compress, hresult]
        exact hencode
      · exact (iff_true_intro (.inl rfl)).symm
  | false =>
      obtain ⟨writer, hencode, hclosed, hworded⟩ := compress_words hsize hresult
      have hplan := governs_ofTables (sound_selectionTables hresult) hsize hresult
      refine ⟨_, writer, hencode, hclosed, hworded.congr ?_, hplan.sound, hplan.encodes⟩
      exact (or_iff_right (by decide)).symm

theorem compress_composes (hsize : 8 * bytes.size < 2 ^ 64)
    (hresult : (Tree.unroll bytes).result = .ok file) (removeAbbrevs : Bool) :
    ∃ writer, compress bytes removeAbbrevs = .ok writer.bits.toBytes ∧ writer.blocks = [] ∧
      Composes (Rereadable bytes file removeAbbrevs) (headed file.header.raw) writer
        file.contents := by
  obtain ⟨plan, writer, hcompress, hclosed, hworded, -, -⟩ :=
    compress_planned hsize hresult removeAbbrevs
  exact ⟨writer, hcompress, hclosed, composes_of_words hworded⟩

theorem compress_reread (hsize : 8 * bytes.size < 2 ^ 64)
    (hresult : (Tree.unroll bytes).result = .ok file) (removeAbbrevs : Bool) :
    ∃ compressed, ∃ written : Bitstream.File, compress bytes removeAbbrevs = .ok compressed ∧
      Bitstream.File.ofBytes compressed = .ok written ∧ written.header = file.header ∧
      (Rereadable bytes file removeAbbrevs ∧ written.entries.2 = none ∧
          written.contents = file.contents ∨
        ¬ Rereadable bytes file removeAbbrevs ∧ ∃ block width, 32 < width ∧
          written.contents ++ [.enter block] <+: file.contents ∧
          written.entries.2 = some (.scope (.badIdWidth block width))) := by
  obtain ⟨hparse, hreadable, hraw, hwords⟩ := header_of_unroll hresult
  obtain ⟨writer, hcompress, hclosed, hcomposes⟩ := compress_composes hsize hresult removeAbbrevs
  obtain ⟨written, hopen, hheader, hread⟩ :=
    ofBytes_of_composes hparse hreadable hraw hwords hcomposes hclosed
  exact ⟨_, written, hcompress, hopen, hheader, hread⟩

end Compress

end Bitcode.Compression
