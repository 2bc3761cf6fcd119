import Bitcode.Proofs.Bits.Decoding
import Bitcode.Proofs.Bitstream.Sizes
import Bitcode.Proofs.Compression.File
import Bitcode.Proofs.Selection.Exhaustive
import Bitcode.Proofs.Tree.Rows

namespace Bitcode

open Format Bitstream

/-- The abbreviation of the record that has a code and no fields. -/
def Abbrev.constant (code : UInt64) : Abbrev :=
  ⟨[.literal code]⟩

section Constants

variable {code : UInt64} {shape : Abbrev}

theorem Operator.eq_literal_of_scalarBits {operator : Operator} (hcode : code ≠ 0)
    (hbits : operator.scalarBits code = some 0) : operator = .literal code := by
  cases operator with
  | literal constant =>
      by_cases hsame : constant = code
      · rw [hsame]
      · simp [scalarBits, hsame] at hbits
  | fixed width =>
      by_cases hwidth : width = 0
      · simp [scalarBits, hwidth, hcode] at hbits
      · simp only [scalarBits, hwidth, if_false] at hbits
        split at hbits
        · cases hbits
        · exact absurd (UInt64.toNat_inj.mp (Option.some.inj hbits)) hwidth
  | vbr width =>
      by_cases hwidth : width = 0
      · simp [scalarBits, hwidth, hcode] at hbits
      · simp only [scalarBits, hwidth, if_false, Bits.Vbr.bitSize] at hbits
        have hzero : width.toNat = 0 := Nat.eq_zero_of_add_eq_zero_right (Option.some.inj hbits)
        exact absurd (UInt64.toNat_inj.mp hzero) hwidth
  | char6 =>
      obtain ⟨_, -, hsix⟩ := Option.map_eq_some_iff.mp hbits
      cases hsix
  | array => cases hbits
  | blob => cases hbits

theorem Abbrev.operatorBits_array_ne {element : Operator} {rest : List Operator}
    {values : List UInt64} : operatorBits (.array :: element :: rest) values ≠ some 0 := by
  simp only [operatorBits, Option.bind_eq_bind, ne_eq, Option.bind_eq_some_iff, not_exists, not_and]
  intro bits _ more _ hsum
  have hlength : 6 ≤ Bits.Vbr.bitSize (UInt64.ofNat values.length) 6 := Nat.le_add_right _ _
  have htotal := Option.some.inj hsum
  omega

theorem Abbrev.eq_nil_of_operatorBits {operators : List Operator}
    (hbits : operatorBits operators [] = some 0) : operators = [] := by
  cases operators with
  | nil => rfl
  | cons operator rest =>
      cases operator with
      | array =>
          cases rest with
          | nil => cases hbits
          | cons element rest => exact absurd hbits operatorBits_array_ne
      | literal | fixed | vbr | char6 | blob => cases hbits

theorem Abbrev.eq_constant_of_encodedBits (hcode : code ≠ 0)
    (hbits : shape.encodedBits [code] = some 0) : shape = constant code := by
  obtain ⟨operators⟩ := shape
  rw [encodedBits] at hbits
  cases operators with
  | nil => cases hbits
  | cons operator rest =>
      by_cases hscalar : operator.isScalar
      · rw [operatorBits_scalar hscalar] at hbits
        simp only [Option.bind_eq_bind, Option.bind_eq_some_iff] at hbits
        obtain ⟨bits, hfirst, more, hrest, hsum⟩ := hbits
        have htotal : bits + more = 0 := Option.some.inj hsum
        obtain rfl : bits = 0 := by omega
        obtain rfl : more = 0 := by omega
        rw [Operator.eq_literal_of_scalarBits hcode hfirst, eq_nil_of_operatorBits hrest]
        rfl
      · cases operator with
        | array =>
            cases rest with
            | nil => cases hbits
            | cons element rest => exact absurd hbits operatorBits_array_ne
        | blob => cases hbits
        | literal | fixed | vbr | char6 => exact absurd rfl hscalar

end Constants

namespace Selection

variable {table : Table} {code : UInt64}

theorem get?_selectRow_constant (hrows : ∀ shape ∈ table.ownRows, shape.isAcceptable)
    (hlookup : table.lookup = .ofRows table.rows firstRow) (hcode : code ≠ 0) {row : Nat}
    (hrow : firstRow ≤ row) (hget : table.get? row = some (.constant code)) :
    firstRow ≤ selectRow table [code] ∧
      table.get? (selectRow table [code]) = some (.constant code) := by
  have hoffers : Offers table [code] row 0 := by
    refine ⟨hrow, .constant code, hget, ?_, .inl ?_⟩
    · simp [Abbrev.canEncode, Abbrev.beforeBlob?, Abbrev.constant, Abbrev.encodedBits,
        Abbrev.operatorBits, Operator.scalarBits]
    · simp [Abbrev.constant, Abbrev.encodedBits, Abbrev.operatorBits, Operator.scalarBits]
  cases hbest : bestRow? table [code] (table.lookup.rowsFor [code]) with
  | none =>
      obtain ⟨hmem, hprice⟩ := (offers_iff_mem hrows hlookup).mp hoffers
      rw [priceAt?_eq_none_of_bestRow? hbest row hmem] at hprice
      cases hprice
  | some best =>
      obtain ⟨bits, best⟩ := best
      obtain ⟨hoffered, hleast⟩ := isBest_of_bestRow? hrows hlookup hbest
      obtain rfl : bits = 0 := Nat.le_zero.mp (le_of_rank_le (hleast row 0 hoffers))
      rw [selectRow_of_some hbest, if_pos (Nat.zero_le _)]
      obtain ⟨hown, shape, hshape, -, hcosts⟩ := hoffered
      refine ⟨hown, ?_⟩
      rcases hcosts with hbits | ⟨head, before, -, -, hblob⟩
      · rw [hshape, Abbrev.eq_constant_of_encodedBits hcode hbits]
      · rw [blobBits] at hblob
        omega

theorem length_le_length_keptRows {tables : Tables} {blocks : List Tree.Block} {block : UInt64}
    {codes : List UInt64} (htables : tables.Sound)
    (hlookup : (tables.getD block).lookup = .ofRows (tables.getD block).rows firstRow)
    (hnodup : codes.Nodup) (hcodes : 0 ∉ codes)
    (hheld : ∀ code ∈ codes, ∃ row, (tables.getD block).Holds row (.constant code))
    (hused : ∀ code ∈ codes, minUsage ≤ (Tree.valuesIn blocks block).count [code]) :
    codes.length ≤ (keptRows tables blocks block).length := by
  have hselected : ∀ code ∈ codes, firstRow ≤ rowFor tables block [code] ∧
      (tables.getD block).get? (rowFor tables block [code]) = some (.constant code) := by
    intro code hcode
    obtain ⟨row, hrow, hget⟩ := hheld code hcode
    rw [rowFor_eq]
    refine get?_selectRow_constant (fun shape hshape => ?_) hlookup
      (fun hzero => hcodes (hzero ▸ hcode)) hrow hget
    exact htables.getD block shape (List.mem_of_mem_drop hshape)
  have hdistinct : (codes.map fun code => rowFor tables block [code]).Nodup := by
    refine hnodup.map_on fun first hfirst second hsecond hsame => ?_
    have hshapes := (hselected first hfirst).2
    rw [hsame, (hselected second hsecond).2] at hshapes
    simpa [Abbrev.constant] using hshapes.symm
  have hkept : (codes.map fun code => rowFor tables block [code]) ⊆ keptRows tables blocks block := by
    intro row hrow
    obtain ⟨code, hcode, rfl⟩ := List.mem_map.mp hrow
    refine (mem_keptRows htables blocks block _).mpr ⟨?_, ?_⟩
    · exact Nat.ne_of_gt (Nat.lt_of_lt_of_le (by decide) (hselected code hcode).1)
    · exact Nat.le_trans (hused code hcode) List.count_le_count_map
  simpa using (List.subperm_of_subset hdistinct hkept).length_le

end Selection

namespace Compression

section Tables

variable {bytes : Array UInt8} {file : Tree.File} {source : Bitstream.File}

theorem holds_selectionTables (file : Tree.File) {block : UInt64} {row : Nat} {shape : Abbrev}
    (hholds : ((Tree.unroll bytes).tables.getD block).Holds row shape) :
    ((selectionTables bytes file).getD block).Holds row shape ∧
      ((selectionTables bytes file).getD block).lookup =
        .ofRows ((selectionTables bytes file).getD block).rows firstRow := by
  have hextended := hholds.mono
    (Synthesis.grows_extend (Census.ofFile file) (Tree.unroll bytes).tables block)
  obtain ⟨table, htable, hget⟩ := Tables.get?_of_holds hextended
  have hbuilt : (selectionTables bytes file).getD block = table.buildLookup := by
    rw [selectionTables, Tables.getD, Tables.get?_buildLookups, htable]
    rfl
  rw [hbuilt]
  exact ⟨⟨hextended.1, hget⟩, rfl⟩

theorem valuesIn_eq_wordings (hopen : File.ofBytes bytes = .ok source)
    (hresult : (Tree.unroll bytes).result = .ok file) (target : UInt64) :
    Tree.valuesIn file.blocks target =
      ((source.wordings.filterMap recordWording?).filter (·.1.block = target)).map
        fun found => found.2.2.1 :: found.2.2.2 := by
  have hsame : source.records.map (fun found => (found.1.block, found.2.values)) =
      file.owned.map fun kept => (kept.1, kept.2.values) := by
    rw [← List.forall₂_eq_eq_eq, List.forall₂_map_left_iff, List.forall₂_map_right_iff]
    refine (Tree.forall₂_numbered hopen hresult).imp fun found kept hnumbered => ?_
    rw [hnumbered.block_eq, Tree.Record.values, Bitstream.Record.values, hnumbered.code_eq,
      hnumbered.fields_eq]
  have hvalues := congrArg (fun pairs : List (UInt64 × List UInt64) =>
    (pairs.filter (·.1 = target)).map (·.2)) hsame
  simp only [List.filter_map, List.map_map, Function.comp_def] at hvalues
  rw [Tree.valuesIn_eq_owned, ← hvalues, ← map_readWording, List.filter_map, List.map_map]
  rfl

end Tables

section Writing

variable {writer : Writer} {block : OpenBlock} {rest : List OpenBlock}

theorem writePlains_worded (codes : List UInt64) (hsound : writer.Sound)
    (hroom : Writer.RoomForIds block.idWidth) (hblocks : writer.blocks = block :: rest) :
    ∃ next, codes.forM (fun code => Writer.writePlain code []) writer = .ok () next ∧
      next.blocks = writer.blocks ∧ next.Sound ∧
      Words True writer next
        (codes.map fun code => .record ⟨block.block, block.abbrevs⟩ none code []) := by
  induction codes generalizing writer with
  | nil => exact ⟨writer, rfl, rfl, hsound, .refl _⟩
  | cons code codes ih =>
      obtain ⟨middle, hplain, hsame, -, hmiddle, hworded⟩ := writePlain_worded code [] hsound
        (Writer.idWidth_of_blocks hblocks ▸ hroom) hblocks (by decide)
      obtain ⟨next, hrest, hlast, hnext, hothers⟩ := ih hmiddle (hsame.trans hblocks)
      exact ⟨next, bind_eq_ok_iff.mpr ⟨(), middle, hplain, hrest⟩, hlast.trans hsame, hnext,
        (hworded.trans hothers).congr and_self_iff⟩

theorem bitSize_six_le (value : UInt64) : Bits.Vbr.bitSize value 6 ≤ 78 :=
  Bits.Vbr.bitSize_le (by decide) 12 value (by have := value.toNat_lt; omega)

theorem bitSize_eight_le (value : UInt64) : Bits.Vbr.bitSize value 8 ≤ 80 :=
  Bits.Vbr.bitSize_le (by decide) 9 value (by have := value.toNat_lt; omega)

theorem foldr_add_le {α : Type} {items : List α} {cost : α → Nat} {most : Nat}
    (hmost : ∀ item ∈ items, cost item ≤ most) :
    items.foldr (fun item total => cost item + total) 0 ≤ items.length * most := by
  induction items with
  | nil => exact Nat.zero_le _
  | cons item items ih =>
      obtain ⟨hitem, hothers⟩ := List.forall_mem_cons.mp hmost
      have hrest := ih hothers
      rw [List.foldr_cons, List.length_cons, Nat.succ_mul]
      omega

theorem size_forM_le {α : Type} {items : List α} {action : α → Composing PUnit}
    {cost : α → Nat → Nat} {next : Writer} (most : Nat)
    (haction : ∀ item, Spends (action item) (cost item))
    (hmost : ∀ item ∈ items, cost item writer.idWidth ≤ most)
    (hrun : items.forM action writer = .ok () next) :
    next.size ≤ writer.size + items.length * most ∧ next.idWidth = writer.idWidth := by
  obtain ⟨hsize, hwidth⟩ := Spends.forM haction hrun
  rw [hsize]
  exact ⟨Nat.add_le_add_left (foldr_add_le hmost) _, hwidth⟩

/-- The block that is crowded. -/
def crowdedId : UInt64 := 12

/-- What is seen at the records of the crowded block. -/
def crowdedPlace (codes : List UInt64) : Place :=
  { block := crowdedId, abbrevs := codes.map .constant }

/-- Each code as often as it takes to keep its abbreviation. -/
def crowdedCodes (codes : List UInt64) : List UInt64 :=
  codes.flatMap (List.replicate Selection.minUsage)

def crowdedWordings (codes : List UInt64) : List Wording :=
  .enter crowdedId ::
    ((crowdedCodes codes).map fun code => .record (crowdedPlace codes) none code []) ++
      [.exit (crowdedPlace codes)]

/-- Write a block that defines the constants of some codes and uses each of them often enough. -/
def writeCrowd (codes : List UInt64) : Composing Unit := do
  Writer.enterBlock crowdedId (UInt64.ofNat initialIdWidth)
  (codes.map Abbrev.constant).forM fun shape => (Operation.define shape).run
  (crowdedCodes codes).forM fun code => Writer.writePlain code []
  Writer.exitBlock

theorem writeCrowd_worded (codes : List UInt64) {raw : Array UInt8} (hwords : raw.size % 4 = 0) :
    ∃ next, writeCrowd codes (headed raw) = .ok () next ∧ next.blocks = [] ∧
      Words True (headed raw) next (crowdedWordings codes) := by
  have hroom : Writer.RoomForIds initialIdWidth := ⟨by decide, by decide⟩
  obtain ⟨entered, place, henter, hblocks, -, hentered, hstart⟩ :=
    enterBlock_worded (sound_headed hwords) hroom (show crowdedId ≠ infoBlockId by decide)
      (show 1 ≤ UInt64.ofNat initialIdWidth by decide)
  have hreadable : ∀ shape ∈ codes.map Abbrev.constant, Operation.isReadable shape := by
    simp [Operation.isReadable, Abbrev.constant, Abbrev.isAcceptable, Abbrev.acceptableFrom,
      Operator.hasValidWidth]
  obtain ⟨defined, hdefine, hinside, -, hdefined, hsilent⟩ :=
    defines_words hentered hblocks hroom hreadable
  obtain ⟨filled, hfill, hsame, hfilled, hrecords⟩ :=
    writePlains_worded (crowdedCodes codes) hdefined hroom hinside
  have hopen := hsame.trans hinside
  obtain ⟨next, hexit, hclosed, -, -, hend⟩ :=
    exitBlock_worded hfilled (Writer.idWidth_of_blocks hopen ▸ hroom) hopen
  refine ⟨next, ?_, hclosed, ?_⟩
  · exact bind_eq_ok_iff.mpr ⟨(), entered, henter, bind_eq_ok_iff.mpr
      ⟨(), defined, hdefine, bind_eq_ok_iff.mpr ⟨(), filled, hfill, hexit⟩⟩⟩
  · have hnarrow : UInt64.ofNat initialIdWidth ≤ 32 := by decide
    refine (hstart.trans (hsilent.trans (hrecords.trans hend))).congr ?_
    simp [hnarrow]

theorem definitionBits_constant_le (code : UInt64) : (Abbrev.constant code).definitionBits ≤ 86 := by
  have hcode := bitSize_eight_le code
  have hcount : Bits.Vbr.bitSize (UInt64.ofNat 1) 5 = 5 := by decide
  simp only [Abbrev.definitionBits, Abbrev.constant, List.length_singleton, List.foldr_cons,
    List.foldr_nil, Operator.definitionBits, hcount]
  omega

theorem plainBits_code_le (code : UInt64) : Selection.plainBits [code] ≤ 84 := by
  have hcode := bitSize_six_le code
  have hcount : Bits.Vbr.bitSize (UInt64.ofNat 0) 6 = 6 := by decide
  simp only [Selection.plainBits, List.length_nil, List.foldr_nil, hcount]
  omega

theorem size_writeCrowd_le {codes : List UInt64} {next : Writer}
    (hwidth : writer.idWidth = initialIdWidth) (hrun : writeCrowd codes writer = .ok () next) :
    next.size ≤ writer.size + 128 + codes.length * 518 := by
  obtain ⟨_, entered, henter, hrun⟩ := bind_eq_ok_iff.mp hrun
  obtain ⟨_, defined, hdefine, hrun⟩ := bind_eq_ok_iff.mp hrun
  obtain ⟨_, filled, hfill, hexit⟩ := bind_eq_ok_iff.mp hrun
  have hinner : entered.idWidth = initialIdWidth := by
    obtain ⟨front, -, -, rfl, -⟩ := Writer.enter_answered henter
    rfl
  have hdefines : ∀ shape : Abbrev, Spends (Operation.define shape).run
      fun width => width + shape.definitionBits :=
    fun shape => (Writer.spends_define shape).bind fun _ => Spends.pure ()
  obtain ⟨hdefinitions, hkept⟩ := size_forM_le 88 hdefines (fun shape hshape => by
    obtain ⟨code, -, rfl⟩ := List.mem_map.mp hshape
    rw [hinner]
    exact Nat.add_le_add_left (definitionBits_constant_le code) initialIdWidth) hdefine
  obtain ⟨huses, hsame⟩ := size_forM_le 86 (fun code => Writer.spends_writePlain code [])
    (fun code _ => by
      rw [hkept, hinner]
      exact Nat.add_le_add_left (plainBits_code_le code) initialIdWidth) hfill
  have hcount : (crowdedCodes codes).length = codes.length * Selection.minUsage := by
    simp [crowdedCodes, List.length_flatMap]
  have hstart : entered.size ≤ writer.size + 77 := by
    have hid : Bits.Vbr.bitSize crowdedId 8 = 8 := by decide
    have hids : Bits.Vbr.bitSize (UInt64.ofNat initialIdWidth) 4 = 4 := by decide
    rw [Writer.size_enterBlock henter, Writer.enterEnd, hid, hids, hwidth, initialIdWidth, Reader.aligned]
    omega
  have hend : next.size ≤ filled.size + 33 := by
    rw [Writer.size_exitBlock hexit, hsame, hkept, hinner, initialIdWidth, Reader.aligned]
    omega
  rw [hcount, Selection.minUsage] at huses
  rw [List.length_map] at hdefinitions
  omega

end Writing

section Files

/-- Codes from 1 on. -/
def firstCodes (count : Nat) : List UInt64 :=
  (List.range count).map fun number => UInt64.ofNat (number + 1)

theorem toNat_firstCode {number count : Nat} (hcount : count < 2 ^ 64) (hnumber : number < count) :
    (UInt64.ofNat (number + 1)).toNat = number + 1 :=
  UInt64.toNat_ofNat_of_lt' (by unfold UInt64.size; omega)

theorem nodup_firstCodes {count : Nat} (hcount : count < 2 ^ 64) : (firstCodes count).Nodup := by
  refine List.nodup_range.map_on fun first hfirst second hsecond hsame => ?_
  have hnumbers := congrArg UInt64.toNat hsame
  rw [toNat_firstCode hcount (List.mem_range.mp hfirst),
    toNat_firstCode hcount (List.mem_range.mp hsecond)] at hnumbers
  omega

theorem zero_notMem_firstCodes {count : Nat} (hcount : count < 2 ^ 64) : 0 ∉ firstCodes count := by
  intro hzero
  obtain ⟨number, hnumber, hcode⟩ := List.mem_map.mp hzero
  have hsucc := congrArg UInt64.toNat hcode
  rw [toNat_firstCode hcount (List.mem_range.mp hnumber)] at hsucc
  cases hsucc

theorem filterMap_crowdedWordings (codes : List UInt64) :
    (crowdedWordings codes).filterMap recordWording? =
      (crowdedCodes codes).map fun code => (crowdedPlace codes, none, code, []) := by
  simp [crowdedWordings, recordWording?, List.filterMap_cons, List.filterMap_append,
    List.filterMap_map, Function.comp_def]

theorem count_crowdedCodes {codes : List UInt64} {code : UInt64} (hcode : code ∈ codes) :
    Selection.minUsage ≤ (crowdedCodes codes).count code := by
  rw [← List.replicate_sublist_iff, crowdedCodes, List.flatMap]
  exact List.sublist_flatten_of_mem (List.mem_map_of_mem hcode)

theorem mem_placed_of_exit {source : Bitstream.File} {place : Place}
    (hexit : .exit place ∈ source.wordings) : (.endBlock, some place) ∈ source.placed := by
  obtain ⟨⟨entry, place?⟩, hplaced, hwording⟩ := List.mem_filterMap.mp hexit
  cases entry with
  | endBlock =>
      obtain ⟨found, rfl, hfound⟩ := Option.map_eq_some_iff.mp hwording
      rwa [Wording.exit.inj hfound] at hplaced
  | record item =>
      obtain ⟨found, -, hfound⟩ := Option.map_eq_some_iff.mp hwording
      cases hfound
  | block | definition => cases hwording

section Kept

variable {bytes : Array UInt8} {file : Tree.File} {source : Bitstream.File} {codes : List UInt64}

theorem holds_of_crowdedWordings (hopen : File.ofBytes bytes = .ok source)
    (hresult : (Tree.unroll bytes).result = .ok file)
    (hwordings : source.wordings = crowdedWordings codes) {code : UInt64} (hcode : code ∈ codes) :
    ∃ row, ((Tree.unroll bytes).tables.getD crowdedId).Holds row (.constant code) := by
  have hexit : .exit (crowdedPlace codes) ∈ source.wordings := by
    rw [hwordings]
    exact List.mem_append_right _ List.mem_cons_self
  exact Tree.holds_of_mem_placed hopen hresult (mem_placed_of_exit hexit)
    (List.mem_map_of_mem hcode)

theorem count_of_crowdedWordings (hopen : File.ofBytes bytes = .ok source)
    (hresult : (Tree.unroll bytes).result = .ok file)
    (hwordings : source.wordings = crowdedWordings codes) {code : UInt64} (hcode : code ∈ codes) :
    Selection.minUsage ≤ (Tree.valuesIn file.blocks crowdedId).count [code] := by
  have hvalues : Tree.valuesIn file.blocks crowdedId =
      (crowdedCodes codes).map fun code => [code] := by
    rw [valuesIn_eq_wordings hopen hresult, hwordings, filterMap_crowdedWordings, List.filter_map,
      List.map_map, List.filter_eq_self.mpr (by simp [crowdedPlace])]
    rfl
  rw [hvalues]
  exact Nat.le_trans (count_crowdedCodes hcode)
    (List.count_le_count_map (f := fun code : UInt64 => [code]))

end Kept

theorem exists_crowded (codes : List UInt64) (hsome : codes ≠ []) (hnodup : codes.Nodup)
    (hcodes : 0 ∉ codes) :
    ∃ bytes file, 8 * bytes.size ≤ 256 + codes.length * 518 ∧
      (Tree.unroll bytes).result = .ok file ∧
      file.contents = (crowdedWordings codes).map Wording.content ∧
      codes.length ≤
        (Selection.keptRows (selectionTables bytes file) file.blocks crowdedId).length := by
  have hparse : Header.parse (Header.ofVersion 2).raw = .ok (Header.ofVersion 2) := by decide
  have hwords : (Header.ofVersion 2).raw.size % 4 = 0 := by decide
  obtain ⟨writer, hrun, hclosed, hworded⟩ := writeCrowd_worded codes hwords
  obtain ⟨source, hopen, -, hread⟩ :=
    ofBytes_of_words hparse (by decide) rfl hwords hworded hclosed
  obtain ⟨-, hend, hfound⟩ := hread.resolve_right fun hstopped => hstopped.1 trivial
  obtain ⟨file, hresult⟩ := Tree.unroll_of_entries_eq_none hopen hend
  obtain ⟨same, hsame, -, -, hcontents, -⟩ := Tree.unroll_eq_ok hresult
  obtain rfl := Except.ok.inj (hopen.symm.trans hsame)
  refine ⟨_, file, ?_, hresult, ?_, ?_⟩
  · have hcomplete := (hworded.kept (sound_headed hwords)).1.nested.complete hclosed
    have hsize := size_writeCrowd_le rfl hrun
    have hraw : (Header.ofVersion 2).raw.size = 16 := by decide
    rw [size_headed, hraw] at hsize
    rw [Writer.size_toBytes hcomplete]
    exact hsize
  · rw [← hcontents, ← File.map_content_wordings hopen, hfound]
  · have hheld : ∀ code ∈ codes,
        ∃ row, ((Tree.unroll writer.bits.toBytes).tables.getD crowdedId).Holds row
          (.constant code) :=
      fun code hcode => holds_of_crowdedWordings hopen hresult hfound hcode
    obtain ⟨first, hfirst⟩ := List.exists_mem_of_ne_nil codes hsome
    obtain ⟨_, hrow⟩ := hheld first hfirst
    refine Selection.length_le_length_keptRows (sound_selectionTables hresult)
      (holds_selectionTables file hrow).2 hnodup hcodes (fun code hcode => ?_)
      fun code hcode => count_of_crowdedWordings hopen hresult hfound hcode
    obtain ⟨row, hholds⟩ := hheld code hcode
    exact ⟨row, (holds_selectionTables file hholds).1⟩

theorem eq_nil_of_enter_later {codes : List UInt64} {before : List Content} {block : UInt64}
    (hstarts : before ++ [.enter block] <+: (crowdedWordings codes).map Wording.content) :
    before = [] := by
  cases before with
  | nil => rfl
  | cons first before =>
      obtain ⟨-, hlater⟩ := List.cons_prefix_cons.mp hstarts
      have hmem := hlater.subset (List.mem_append_right before List.mem_cons_self)
      simp [Wording.content] at hmem

theorem exists_not_nameable :
    ∃ bytes file, bytes.size < 2 ^ 39 ∧ (Tree.unroll bytes).result = .ok file ∧
      ¬ Nameable (selectionTables bytes file) file.blocks ∧
      ∀ before block, before ++ [.enter block] <+: file.contents → before = [] := by
  have hlength : (firstCodes (2 ^ 32)).length = 2 ^ 32 := by simp [firstCodes]
  obtain ⟨bytes, file, hsize, hresult, hcontents, hkept⟩ :=
    exists_crowded (firstCodes (2 ^ 32)) (List.ne_nil_of_length_pos (by rw [hlength]; decide))
      (nodup_firstCodes (by decide)) (zero_notMem_firstCodes (by decide))
  rw [hlength] at hsize hkept
  refine ⟨bytes, file, by omega, hresult, ?_, ?_⟩
  · intro hnameable
    have hfew := hnameable crowdedId
    rw [firstDefinedId] at hfew
    omega
  · intro before block hstarts
    exact eq_nil_of_enter_later (hcontents ▸ hstarts)

/-- A file that is compressed to one that no reader takes: reading stops before anything is found. -/
theorem exists_unread :
    ∃ bytes file compressed, ∃ written : Bitstream.File, bytes.size < 2 ^ 39 ∧
      (Tree.unroll bytes).result = .ok file ∧ file.owned ≠ [] ∧ file.contents ≠ [] ∧
      compress bytes false = .ok compressed ∧ File.ofBytes compressed = .ok written ∧
      written.contents = [] ∧ ∃ block width, 32 < width ∧
        written.entries.2 = some (.scope (.badIdWidth block width)) := by
  obtain ⟨bytes, file, hsize, hresult, hcrowd, hfirst⟩ := exists_not_nameable
  obtain ⟨compressed, written, hcompress, hopen, -, hread⟩ :=
    compress_reread (by omega) hresult false
  have hunread : ¬ Rereadable bytes file false := fun hread => hread.elim Bool.false_ne_true hcrowd
  obtain ⟨-, block, width, hwidth, hfound, hstop⟩ :=
    hread.resolve_left fun hall => hunread hall.1
  refine ⟨bytes, file, compressed, written, hsize, hresult, ?_, ?_, hcompress, hopen,
    hfirst _ block hfound, block, width, hwidth, hstop⟩
  · intro hempty
    apply hcrowd
    intro id
    have hfrequent :=
      (Selection.suits_keptRows (sound_selectionTables hresult) file.blocks id).frequent
    rw [Selection.length_filterMap_keptRows, Tree.valuesIn_eq_owned, hempty, Selection.minUsage]
      at hfrequent
    simp only [List.filter_nil, List.map_nil, List.length_nil] at hfrequent
    rw [firstDefinedId]
    omega
  · intro hempty
    rw [hempty, List.prefix_nil] at hfound
    exact List.append_ne_nil_of_right_ne_nil _ (List.cons_ne_nil _ _) hfound

end Files

end Compression

end Bitcode
