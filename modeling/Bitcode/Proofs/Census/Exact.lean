import Mathlib
import Bitcode.Census.Tally
import Bitcode.Proofs.Census.Counting
import Bitcode.Proofs.Tree.Rows

/-!
The census of a file is exact. On every way into it, from a block id to a row, a code, a number of
fields, a field and a range of values, a tally is found if and only if something in the file is on
that way, and its count says how much.
-/

namespace Bitcode.Census

open Bitcode.Tree (Record Block)

section Ranges

theorem findIdx_rangeCutoffs (value : Nat) :
    rangeCutoffs.findIdx (value < ·) =
      if value < 256 then 0
      else if value < 4096 then 1
      else if value < 65536 then 2
      else if value < 16777216 then 3
      else if value < 4294967296 then 4
      else 5 := by
  simp only [rangeCutoffs, List.findIdx_cons, List.findIdx_nil, Bool.cond_eq_ite,
    decide_eq_true_eq, Nat.one_shiftLeft, Nat.reducePow]
  split_ifs <;> rfl

theorem toNat_rangeIndex (value : UInt64) :
    (rangeIndex value).toNat =
      if value.toNat < 64 then value.toNat
      else 64 + rangeCutoffs.findIdx (value.toNat < ·) := by
  have hbucket : rangeCutoffs.findIdx (value.toNat < ·) ≤ 5 := List.findIdx_le_length
  unfold rangeIndex
  rw [singletonCutoff]
  split
  · rfl
  · exact UInt64.toNat_ofNat_of_lt' (by rw [UInt64.size]; omega)

theorem toNat_rangeIndex_lt (value : UInt64) : (rangeIndex value).toNat < 70 := by
  have hbucket : rangeCutoffs.findIdx (value.toNat < ·) ≤ 5 := List.findIdx_le_length
  rw [toNat_rangeIndex]
  split <;> omega

theorem rangeIndex_eq_iff {range : UInt64} (hrange : range.toNat < 70) (value : UInt64) :
    rangeIndex value = range ↔ (valueRange range).1 ≤ value ∧ value ≤ (valueRange range).2 := by
  have hvalue := value.toNat_lt
  rw [← UInt64.toNat_inj, toNat_rangeIndex, findIdx_rangeCutoffs, UInt64.le_iff_toNat_le,
    UInt64.le_iff_toNat_le]
  by_cases hsingle : range.toNat < 64
  · rw [valueRange, singletonCutoff, if_pos hsingle]
    dsimp only
    split_ifs <;> omega
  · obtain ⟨bucket, hbucket, rfl⟩ : ∃ bucket < 6, range = UInt64.ofNat (64 + bucket) :=
      ⟨range.toNat - 64, by omega, by rw [Nat.add_sub_cancel' (by omega), UInt64.ofNat_toNat]⟩
    -- Both sides are comparisons with numbers once the range is one of the six.
    interval_cases bucket <;>
      simp only [valueRange, singletonCutoff, rangeCutoffs] <;> simp <;> split_ifs <;> omega

theorem le_greatest (value : UInt64) : value ≤ (valueRange (rangeIndex value)).2 :=
  ((rangeIndex_eq_iff (toNat_rangeIndex_lt value) value).mp rfl).2

end Ranges

/-! What a tally says about the records that it has counted, from the innermost to the outermost. -/

/-- The range of a record's value at a field. -/
def valueKeys (field : Nat) (record : Record) : List UInt64 :=
  (record.fields[field]?).toList.map rangeIndex

/-- The tally is about records with values of one range at a field. -/
def ValueTally.About (records : List Record) (tally : ValueTally) : Prop :=
  tally.count = records.length

/-- The tally is about records that have the field. -/
structure FieldTally.About (field : UInt64) (records : List Record) (tally : FieldTally) : Prop where
  count_eq : tally.count = records.length
  values : Counts (valueKeys field.toNat) (fun _ => ValueTally.About) records tally.values

/-- The tally is about records with one number of fields. -/
structure SizeTally.About (records : List Record) (tally : SizeTally) : Prop where
  count_eq : tally.count = records.length
  fields : Counts fieldKeys FieldTally.About records tally.fields

/-- The tally is about records with one code. -/
structure CodeTally.About (records : List Record) (tally : CodeTally) : Prop where
  count_eq : tally.count = records.length
  sizes : Counts (fun record => [sizeKey record]) (fun _ => SizeTally.About) records tally.sizes

/-- The tally is about records read with the abbreviation in one row. -/
structure RowTally.About (records : List Record) (tally : RowTally) : Prop where
  count_eq : tally.count = records.length
  codes : Counts (fun record => [record.code]) (fun _ => CodeTally.About) records tally.codes

/-- The tally is about blocks with one id. -/
structure BlockTally.About (blocks : List Block) (tally : BlockTally) : Prop where
  count_eq : tally.count = blocks.length
  rows : Counts (fun record => [UInt64.ofNat record.row]) (fun _ => RowTally.About)
    (blocks.flatMap (·.body.records)) tally.rows

section Adding

variable {records : List Record}

theorem Counts.addValue {field : Nat} {values : Census ValueTally}
    (hvalues : Counts (valueKeys field) (fun _ => ValueTally.About) records values)
    (record : Record) :
    Counts (valueKeys field) (fun _ => ValueTally.About) (records ++ [record])
      (addValue field values record) := by
  refine hvalues.add ?_ (fun _ => rfl) fun _ _ records tally htally => ?_
  · rw [valueKeys]
    cases record.fields[field]? <;> simp
  · simpa [ValueTally.About] using htally

theorem nodup_fieldKeys (record : Record) : (fieldKeys record).Nodup := by
  have hcut : min record.fields.length fieldCutoff ≤ 6 := Nat.min_le_right _ _
  refine List.Nodup.map_on (fun first hfirst second hsecond heq => ?_) List.nodup_range
  rw [List.mem_range] at hfirst hsecond
  have hnat := congrArg UInt64.toNat heq
  rwa [UInt64.toNat_ofNat_of_lt' (by rw [UInt64.size]; omega),
    UInt64.toNat_ofNat_of_lt' (by rw [UInt64.size]; omega)] at hnat

theorem mem_fieldKeys_iff {field : UInt64} {record : Record} :
    field ∈ fieldKeys record ↔ field.toNat < fieldCutoff ∧ field.toNat < record.fields.length := by
  have hcut : min record.fields.length fieldCutoff ≤ 6 := Nat.min_le_right _ _
  simp only [fieldKeys, List.mem_map, List.mem_range]
  constructor
  · rintro ⟨place, hplace, rfl⟩
    rw [UInt64.toNat_ofNat_of_lt' (by rw [UInt64.size]; omega)]
    omega
  · rintro ⟨hcutoff, hlength⟩
    exact ⟨field.toNat, by omega, UInt64.ofNat_toNat⟩

theorem Counts.addFields {fields : Census FieldTally}
    (hfields : Counts fieldKeys FieldTally.About records fields) (record : Record) :
    Counts fieldKeys FieldTally.About (records ++ [record]) (addFields fields record) := by
  refine hfields.add (nodup_fieldKeys record) (fun _ => ⟨rfl, .empty⟩) ?_
  intro field _ records tally htally
  exact ⟨by simp [htally.count_eq], htally.values.addValue record⟩

theorem Counts.addSize {sizes : Census SizeTally}
    (hsizes : Counts (fun record => [sizeKey record]) (fun _ => SizeTally.About) records sizes)
    (record : Record) :
    Counts (fun record => [sizeKey record]) (fun _ => SizeTally.About) (records ++ [record])
      (addSize sizes record) := by
  refine hsizes.add (List.nodup_singleton _) (fun _ => ⟨rfl, .empty⟩) ?_
  intro _ _ records tally htally
  exact ⟨by simp [htally.count_eq], htally.fields.addFields record⟩

theorem Counts.addCode {codes : Census CodeTally}
    (hcodes : Counts (fun record => [record.code]) (fun _ => CodeTally.About) records codes)
    (record : Record) :
    Counts (fun record => [record.code]) (fun _ => CodeTally.About) (records ++ [record])
      (addCode codes record) := by
  refine hcodes.add (List.nodup_singleton _) (fun _ => ⟨rfl, .empty⟩) ?_
  intro _ _ records tally htally
  exact ⟨by simp [htally.count_eq], htally.sizes.addSize record⟩

theorem Counts.addRow {rows : Census RowTally}
    (hrows : Counts (fun record => [UInt64.ofNat record.row]) (fun _ => RowTally.About) records rows)
    (record : Record) :
    Counts (fun record => [UInt64.ofNat record.row]) (fun _ => RowTally.About) (records ++ [record])
      (addRow rows record) := by
  refine hrows.add (List.nodup_singleton _) (fun _ => ⟨rfl, .empty⟩) ?_
  intro _ _ records tally htally
  exact ⟨by simp [htally.count_eq], htally.codes.addCode record⟩

theorem Counts.addBlock {blocks : List Block} {census : Census BlockTally}
    (hblocks : Counts (fun block => [block.id]) (fun _ => BlockTally.About) blocks census)
    (block : Block) :
    Counts (fun block => [block.id]) (fun _ => BlockTally.About) (blocks ++ [block])
      (addBlock census block) := by
  refine hblocks.add (List.nodup_singleton _) (fun _ => ⟨rfl, .empty⟩) ?_
  intro _ _ blocks tally htally
  refine ⟨by simp [htally.count_eq], ?_⟩
  have hrows := htally.rows.foldl (fun _ _ record hrows => hrows.addRow record) block.body.records
  simpa using hrows

theorem counts_ofFile (file : Tree.File) :
    Counts (fun block => [block.id]) (fun _ => BlockTally.About) file.allBlocks (ofFile file) :=
  Counts.empty.foldl (fun _ _ block hblocks => hblocks.addBlock block) file.allBlocks

end Adding

/-- A way into a census: a block id, a row, a code and a number of fields. -/
structure Route where
  block : UInt64
  row : UInt64
  code : UInt64
  size : UInt64
  deriving DecidableEq, Repr

namespace Route

section Walks

variable (route : Route) (blocks : Census BlockTally)

/-- The tally of the blocks with the id. -/
def block? : Option BlockTally :=
  blocks.get? route.block

/-- The tally of the row. -/
def row? : Option RowTally :=
  (route.block? blocks).bind (·.rows.get? route.row)

/-- The tally of the code. -/
def code? : Option CodeTally :=
  (route.row? blocks).bind (·.codes.get? route.code)

/-- The tally of the number of fields. -/
def size? : Option SizeTally :=
  (route.code? blocks).bind (·.sizes.get? route.size)

/-- The tally of a field. -/
def field? (field : UInt64) : Option FieldTally :=
  (route.size? blocks).bind (·.fields.get? field)

/-- The tally of a range of values at a field. -/
def value? (field range : UInt64) : Option ValueTally :=
  (route.field? blocks field).bind (·.values.get? range)

end Walks

section Matches

variable (route : Route) (file : Tree.File)

/-- The blocks of a file that have the id, at every depth. -/
def blocks : List Block :=
  file.allBlocks.filter (·.id = route.block)

/-- The records that stand directly in these blocks. -/
def inBlock : List Record :=
  (route.blocks file).flatMap (·.body.records)

/-- Of these, the records that were read with the abbreviation in the row. -/
def inRow : List Record :=
  (route.inBlock file).filter (UInt64.ofNat ·.row = route.row)

/-- Of these, the records with the code. -/
def inCode : List Record :=
  (route.inRow file).filter (·.code = route.code)

/-- Of these, the records with the number of fields, all numbers from the cutoff on taken as one. -/
def inSize : List Record :=
  (route.inCode file).filter fun record => min record.fields.length fieldCutoff = route.size.toNat

/-- Of these, the records that have a field before the cutoff. -/
def inField (field : UInt64) : List Record :=
  (route.inSize file).filter fun record =>
    field.toNat < fieldCutoff ∧ field.toNat < record.fields.length

/-- Of these, the records whose value at the field is in a range. -/
def inRange (field range : UInt64) : List Record :=
  (route.inField file field).filter fun record =>
    (record.fields[field.toNat]?).map rangeIndex = some range

end Matches

section Found

variable (route : Route) (file : Tree.File)

theorem having_single {α : Type} (key : α → UInt64) (sought : UInt64) (items : List α) :
    having (fun item => [key item]) sought items = items.filter (key · = sought) := by
  refine List.filter_congr fun item _ => ?_
  simp [eq_comm]

theorem sizeKey_eq_iff {record : Record} {size : UInt64} :
    sizeKey record = size ↔ min record.fields.length fieldCutoff = size.toNat := by
  have hcut : min record.fields.length fieldCutoff ≤ 6 := Nat.min_le_right _ _
  rw [← UInt64.toNat_inj, sizeKey, UInt64.toNat_ofNat_of_lt' (by rw [UInt64.size]; omega)]

theorem mem_valueKeys_iff {field : Nat} {range : UInt64} {record : Record} :
    range ∈ valueKeys field record ↔ (record.fields[field]?).map rangeIndex = some range := by
  simp [valueKeys]

theorem found_block :
    Found BlockTally.About (route.blocks file) (route.block? (ofFile file)) := by
  have hfound := (counts_ofFile file).found route.block
  rwa [having_single] at hfound

theorem found_row : Found RowTally.About (route.inRow file) (route.row? (ofFile file)) := by
  refine (route.found_block file).bind (fun hnone => by simp [inRow, inBlock, hnone]) ?_
  intro tally htally
  have hfound := htally.rows.found route.row
  rwa [having_single] at hfound

theorem found_code : Found CodeTally.About (route.inCode file) (route.code? (ofFile file)) := by
  refine (route.found_row file).bind (fun hnone => by simp [inCode, hnone]) ?_
  intro tally htally
  have hfound := htally.codes.found route.code
  rwa [having_single] at hfound

theorem found_size : Found SizeTally.About (route.inSize file) (route.size? (ofFile file)) := by
  refine (route.found_code file).bind (fun hnone => by simp [inSize, hnone]) ?_
  intro tally htally
  have hfound := htally.sizes.found route.size
  simpa only [inSize, having_single, sizeKey_eq_iff] using hfound

theorem found_field (field : UInt64) :
    Found (FieldTally.About field) (route.inField file field)
      (route.field? (ofFile file) field) := by
  refine (route.found_size file).bind (fun hnone => by simp [inField, hnone]) ?_
  intro tally htally
  have hfound := htally.fields.found field
  simpa only [inField, having, mem_fieldKeys_iff] using hfound

theorem found_value (field range : UInt64) :
    Found ValueTally.About (route.inRange file field range)
      (route.value? (ofFile file) field range) := by
  refine (route.found_field file field).bind (fun hnone => by simp [inRange, hnone]) ?_
  intro tally htally
  have hfound := htally.values.found range
  simpa only [inRange, having, mem_valueKeys_iff] using hfound

end Found

end Route

section Totals

variable {records : List Record}

theorem Counts.total_single {α ε : Type} {key : α → UInt64} {about : UInt64 → List α → ε → Prop}
    {items : List α} {census : Census ε} {count : ε → Nat}
    (hcounts : Counts (fun item => [key item]) about items census)
    (hcount : ∀ key items tally, about key items tally → count tally = items.length) :
    census.total = items.length ∧ Sums count census := by
  refine ⟨?_, hcounts.sums hcount fun _ => Nat.le_refl 1⟩
  rw [hcounts.total_eq]
  exact List.countP_eq_length.mpr fun _ _ => rfl

theorem Counts.total_fields {fields : Census FieldTally}
    (hfields : Counts fieldKeys FieldTally.About records fields) :
    fields.total = records.countP (!·.fields.isEmpty) := by
  rw [hfields.total_eq]
  refine List.countP_congr fun record _ => ?_
  cases hrecord : record.fields <;> simp [fieldKeys, hrecord, fieldCutoff]

theorem Counts.total_values {field : Nat} {values : Census ValueTally}
    (hvalues : Counts (valueKeys field) (fun _ => ValueTally.About) records values)
    (hrecords : ∀ record ∈ records, field < record.fields.length) :
    values.total = records.length ∧ Sums ValueTally.count values := by
  constructor
  · rw [hvalues.total_eq, List.countP_eq_length]
    intro record hrecord
    simp [valueKeys, List.getElem?_eq_getElem (hrecords record hrecord)]
  · refine hvalues.sums (fun _ _ _ htally => htally) fun record => ?_
    rw [valueKeys, List.length_map]
    exact Option.length_toList_le

end Totals

/-- The census of a file finds something under a key exactly where the file has a match, and counts
all matches. The blocks among which it looks are those that the events of the file enter, and their
records are those of the file. Every total is the number of items that contribute, and where each
contributes under one key only, the counts add up to it. -/
theorem ofFile_exact (file : Tree.File) (route : Route) (field range : UInt64) :
    (file.allBlocks.map Block.entered = file.events.filter Tree.Event.isEnter ∧
      (route.inBlock file).Perm ((file.owned.filter (·.1 = route.block)).map (·.2))) ∧
    (Tallied BlockTally.count (route.blocks file) (route.block? (ofFile file)) ∧
      Tallied RowTally.count (route.inRow file) (route.row? (ofFile file)) ∧
      Tallied CodeTally.count (route.inCode file) (route.code? (ofFile file)) ∧
      Tallied SizeTally.count (route.inSize file) (route.size? (ofFile file)) ∧
      Tallied FieldTally.count (route.inField file field) (route.field? (ofFile file) field) ∧
      Tallied ValueTally.count (route.inRange file field range)
        (route.value? (ofFile file) field range)) ∧
    ((ofFile file).total = file.allBlocks.length ∧ Sums BlockTally.count (ofFile file)) ∧
    (∀ tally, route.block? (ofFile file) = some tally →
      tally.rows.total = (route.inBlock file).length ∧ Sums RowTally.count tally.rows) ∧
    (∀ tally, route.row? (ofFile file) = some tally →
      tally.codes.total = (route.inRow file).length ∧ Sums CodeTally.count tally.codes) ∧
    (∀ tally, route.code? (ofFile file) = some tally →
      tally.sizes.total = (route.inCode file).length ∧ Sums SizeTally.count tally.sizes) ∧
    (∀ tally, route.size? (ofFile file) = some tally →
      tally.fields.total = (route.inSize file).countP (!·.fields.isEmpty)) ∧
    (∀ tally, route.field? (ofFile file) field = some tally →
      tally.values.total = (route.inField file field).length ∧
        Sums ValueTally.count tally.values) ∧
    (range.toNat < 70 → ∀ value,
      rangeIndex value = range ↔ (valueRange range).1 ≤ value ∧ value ≤ (valueRange range).2) := by
  have hblock := route.found_block file
  have hrow := route.found_row file
  have hcode := route.found_code file
  have hsize := route.found_size file
  have hfield := route.found_field file field
  refine ⟨⟨file.filter_isEnter_events.symm, file.recordsIn_perm_owned route.block⟩,
    ⟨hblock.tallied fun _ htally => htally.count_eq,
      hrow.tallied fun _ htally => htally.count_eq,
      hcode.tallied fun _ htally => htally.count_eq,
      hsize.tallied fun _ htally => htally.count_eq,
      hfield.tallied fun _ htally => htally.count_eq,
      (route.found_value file field range).tallied fun _ htally => htally⟩,
    (counts_ofFile file).total_single fun _ _ _ htally => htally.count_eq, ?_, ?_, ?_, ?_, ?_,
    fun hrange => rangeIndex_eq_iff hrange⟩
  · intro tally htally
    exact (hblock.of_eq_some htally).rows.total_single fun _ _ _ hinner => hinner.count_eq
  · intro tally htally
    exact (hrow.of_eq_some htally).codes.total_single fun _ _ _ hinner => hinner.count_eq
  · intro tally htally
    exact (hcode.of_eq_some htally).sizes.total_single fun _ _ _ hinner => hinner.count_eq
  · intro tally htally
    exact (hsize.of_eq_some htally).fields.total_fields
  · intro tally htally
    refine (hfield.of_eq_some htally).values.total_values fun record hrecord => ?_
    exact (of_decide_eq_true (List.mem_filter.mp hrecord).2).2

/-- A block inside another, with records that have six fields and more. -/
def layeredFile : Tree.File where
  header := .ofVersion 2
  blocks := [⟨8, 640, .record ⟨1, [5], 3, 32⟩
    (.block 12 128 (.record ⟨7, [100, 0, 0, 0, 0, 0, 3], 4, 40⟩
      (.record ⟨7, [200, 9, 9, 9, 9, 9], 4, 36⟩ .empty)) .empty)⟩]

theorem ofFile_exact_layeredFile :
    Route.value? ⟨12, 4, 7, 6⟩ (ofFile layeredFile) 0 64 = some { count := 2 } ∧
      Tallied ValueTally.count (Route.inRange ⟨12, 4, 7, 6⟩ layeredFile 0 64)
        (some { count := 2 }) ∧
      (rangeIndex 200 = 64 ↔ (valueRange 64).1 ≤ 200 ∧ 200 ≤ (valueRange 64).2) := by
  have hvalue : Route.value? ⟨12, 4, 7, 6⟩ (ofFile layeredFile) 0 64 = some { count := 2 } := by
    decide
  obtain ⟨-, ⟨-, -, -, -, -, htallied⟩, -, -, -, -, -, -, hrange⟩ :=
    ofFile_exact layeredFile ⟨12, 4, 7, 6⟩ 0 64
  rw [hvalue] at htallied
  exact ⟨hvalue, htallied, hrange (by decide) 200⟩

end Bitcode.Census
