import Bitcode.Proofs.Census.Ranking
import Bitcode.Proofs.Synthesis.Offers
import Bitcode.Proofs.Tree.Rows

/-!
Candidates are counted for records that they can encode. What a leaf offers is counted for exactly
those of its records that the abbreviation can encode. No record is in two leaves, so a candidate is
never counted for more records than there are.
-/

namespace Bitcode.Synthesis

open Candidates (constant? put)
open Census (BlockTally RowTally CodeTally SizeTally FieldTally Route fieldCutoff)
open Bitcode.Tree (Record)

section Constants

variable {records : List Record}

theorem constant?_eq_some {tally : FieldTally} {value : UInt64} {count : Nat}
    (hconstant : constant? tally = some (value, count)) :
    ∃ range valueTally, (range, valueTally) ∈ tally.values.elements ∧
      Census.valueRange range = (value, value) ∧ count = valueTally.count := by
  obtain ⟨⟨⟨least, greatest⟩, found⟩, hfind, hpair⟩ := Option.map_eq_some_iff.mp hconstant
  obtain ⟨rfl, rfl⟩ := Prod.mk.inj hpair
  obtain ⟨⟨range, valueTally⟩, hentry, hrange⟩ := List.mem_map.mp (List.mem_of_find?_eq_some hfind)
  have hsame : least = greatest := by simpa using List.find?_some hfind
  obtain ⟨hends, rfl⟩ := Prod.mk.inj hrange
  subst hsame
  exact ⟨range, valueTally, Census.mem_of_mem_ranked _ _ hentry, hends, rfl⟩

theorem count_constant? {field : UInt64} {tally : FieldTally} (htally : tally.About field records)
    {value : UInt64} {count : Nat} (hconstant : constant? tally = some (value, count)) :
    count = records.countP (·.fields[field.toNat]? = some value) := by
  obtain ⟨range, valueTally, hentry, hends, rfl⟩ := constant?_eq_some hconstant
  have hcount : valueTally.count = _ := htally.values.about_of_mem hentry
  obtain ⟨item, -, hitem⟩ := htally.values.exists_of_mem hentry
  obtain ⟨found, -, hfound⟩ := Option.map_eq_some_iff.mp (Route.mem_valueKeys_iff.mp hitem)
  have hrange : range.toNat < 70 := hfound ▸ Census.toNat_rangeIndex_lt found
  rw [hcount, Census.having, List.countP_eq_length_filter]
  congr 1
  refine List.filter_congr fun record _ => decide_eq_decide.mpr ?_
  rw [Route.mem_valueKeys_iff]
  cases record.fields[field.toNat]? with
  | none => simp
  | some other =>
      rw [Option.map_some, Option.some_inj, Option.some_inj, Census.rangeIndex_eq_iff hrange, hends]
      exact ⟨fun hwithin => UInt64.le_antisymm hwithin.2 hwithin.1, fun hsame => by simp [hsame]⟩

theorem count_constant?_of_size {tally : SizeTally} (htally : tally.About records) {field : UInt64}
    {fieldTally : FieldTally} (hfield : (field, fieldTally) ∈ tally.fields.elements) {value : UInt64}
    {count : Nat} (hconstant : constant? fieldTally = some (value, count)) :
    count = records.countP (·.fields[field.toNat]? = some value) := by
  rw [count_constant? (htally.fields.about_of_mem hfield) hconstant, Census.having,
    List.countP_filter]
  obtain ⟨other, -, hother⟩ := htally.fields.exists_of_mem hfield
  refine List.countP_congr fun record _ => ?_
  rw [Bool.and_eq_true, decide_eq_true_eq, decide_eq_true_eq, Census.mem_fieldKeys_iff,
    and_iff_left_iff_imp]
  intro hvalue
  exact ⟨(Census.mem_fieldKeys_iff.mp hother).1, (List.getElem?_eq_some_iff.mp hvalue).1⟩

end Constants

/-- The leaf is about records, which have its code and its size and can be encoded with its
abbreviation. -/
structure Leaf.About (leaf : Leaf) (records : List Record) : Prop where
  tally : leaf.tally.About records
  acceptable : leaf.shape.isAcceptable
  code : ∀ record ∈ records, record.code = leaf.code
  size : ∀ record ∈ records, min record.fields.length fieldCutoff = leaf.size.toNat
  encodes : ∀ record ∈ records, leaf.shape.canEncode record.values

namespace Leaf

variable {leaf : Leaf} {records : List Record} {spread : Spread}

theorem About.fits (hleaf : leaf.About records) (hspread : leaf.spread? = some spread)
    {record : Record} (hrecord : record ∈ records) : spread.Fits record := by
  have hshape := hleaf.acceptable
  rw [Abbrev.isAcceptable, Bool.and_eq_true] at hshape
  refine Spread.fits_of_canEncode hshape.2 hspread ?_ (hleaf.encodes record hrecord)
  have hsize := hleaf.size record hrecord
  by_cases hopen : fieldCutoff ≤ leaf.size.toNat
  · rw [if_pos (decide_eq_true hopen)]
    omega
  · rw [if_neg (by simpa using hopen)]
    omega

theorem About.canEncode_withCode (hleaf : leaf.About records) (hspread : leaf.spread? = some spread)
    {record : Record} (hrecord : record ∈ records) :
    (spread.withCode leaf.code).restore.canEncode record.values := by
  rw [← hleaf.code record hrecord]
  exact (hleaf.fits hspread hrecord).canEncode_withCode
    (Spread.sound_of_ofAbbrev? hleaf.acceptable hspread)

theorem About.canEncode_withNarrowed (hleaf : leaf.About records)
    (hspread : leaf.spread? = some spread) {record : Record} (hrecord : record ∈ records) :
    (spread.withNarrowed leaf.tally).restore.canEncode record.values :=
  (hleaf.fits hspread hrecord).canEncode_withNarrowed
    (Spread.sound_of_ofAbbrev? hleaf.acceptable hspread) hleaf.tally hrecord

theorem About.canEncode_withConstant_iff (hleaf : leaf.About records)
    (hspread : leaf.spread? = some spread) {record : Record} (hrecord : record ∈ records)
    {field : UInt64} (hfield : field.toNat < spread.fields.length) (value : UInt64) :
    (spread.withConstant field value).restore.canEncode record.values ↔
      record.fields[field.toNat]? = some value :=
  (hleaf.fits hspread hrecord).canEncode_withConstant_iff
    (Spread.sound_of_ofAbbrev? hleaf.acceptable hspread) hfield value

theorem About.count_offer (hleaf : leaf.About records) {offer : (UInt64 × Abbrev) × Nat}
    (hoffer : offer ∈ leaf.offers) :
    offer.2 = records.countP (offer.1.2.canEncode ·.values) := by
  obtain ⟨spread, hspread, hcode | hconstant | hnarrowed⟩ := mem_offers_iff.mp hoffer
  · obtain ⟨rfl, -⟩ := offer?_eq_some (codeOffer?_eq_some hcode).2
    rw [List.countP_eq_length.mpr fun _ => hleaf.canEncode_withCode hspread]
    exact hleaf.tally.count_eq
  · obtain ⟨field, tally, operator, value, count, hfield, hoperator, -, hvalue, hsome⟩ :=
      constantOffer?_eq_some hconstant
    obtain ⟨rfl, -⟩ := offer?_eq_some hsome
    rw [count_constant?_of_size hleaf.tally hfield hvalue]
    refine List.countP_congr fun record hrecord => ?_
    rw [decide_eq_true_eq, hleaf.canEncode_withConstant_iff hspread hrecord
      (List.getElem?_eq_some_iff.mp hoperator).1]
  · obtain ⟨rfl, -⟩ := offer?_eq_some (narrowedOffer?_eq_some hnarrowed)
    rw [List.countP_eq_length.mpr fun _ => hleaf.canEncode_withNarrowed hspread]
    exact hleaf.tally.count_eq

/-- The number of records that the leaf offers an abbreviation of a block for. -/
def weight (key : UInt64 × Abbrev) (leaf : Leaf) : Nat :=
  (leaf.offers.map fun offer => if offer.1 = key then offer.2 else 0).sum

theorem sum_le_of_nodup {offers : List ((UInt64 × Abbrev) × Nat)}
    (hkeys : (offers.map (·.1)).Nodup) {key : UInt64 × Abbrev} {bound : Nat}
    (hbound : ∀ offer ∈ offers, offer.1 = key → offer.2 ≤ bound) :
    (offers.map fun offer => if offer.1 = key then offer.2 else 0).sum ≤ bound := by
  induction offers with
  | nil => exact Nat.zero_le _
  | cons offer offers ih =>
      obtain ⟨hnew, hkeys⟩ := List.nodup_cons.mp hkeys
      obtain ⟨hfirst, hothers⟩ := List.forall_mem_cons.mp hbound
      rw [List.map_cons, List.sum_cons]
      by_cases hkey : offer.1 = key
      · have hzero : (offers.map fun offer => if offer.1 = key then offer.2 else 0).sum = 0 := by
          rw [List.sum_eq_zero_iff, List.forall_mem_map]
          intro other hother
          rw [if_neg]
          intro hsame
          exact hnew (List.mem_map.mpr ⟨other, hother, hsame.trans hkey.symm⟩)
        rw [if_pos hkey, hzero]
        exact hfirst hkey
      · rw [if_neg hkey, Nat.zero_add]
        exact ih hkeys hothers

theorem About.weight_le (hleaf : leaf.About records) (key : UInt64 × Abbrev) :
    leaf.weight key ≤
      records.countP fun record => leaf.table.block = key.1 && key.2.canEncode record.values := by
  apply sum_le_of_nodup (nodup_offers hleaf.acceptable)
  rintro offer hoffer rfl
  rw [hleaf.count_offer hoffer, (notMem_ownRows_of_mem_offers hoffer).1]
  simp

end Leaf

theorem sum_map_flatMap {α β : Type} (items : List α) (inner : α → List β) (weight : β → Nat) :
    ((items.flatMap inner).map weight).sum =
      (items.map fun item => ((inner item).map weight).sum).sum := by
  rw [List.map_flatMap, List.flatMap_def, List.sum_flatten, List.map_map]
  rfl

theorem leaves_eq (blocks : Census BlockTally) (tables : Tables) :
    leaves blocks tables =
      (Census.rankedBlocks blocks).flatMap fun blockEntry =>
        (tables.get? blockEntry.1).toList.flatMap fun table =>
          (Census.rankedRows blockEntry.2.rows).flatMap fun rowEntry =>
            (table.get? rowEntry.1.toNat).toList.flatMap fun shape =>
              (Census.rankedCodes rowEntry.2.codes).flatMap fun codeEntry =>
                (Census.rankedSizes codeEntry.2.sizes).map fun entry =>
                  { table, shape, code := codeEntry.1, size := entry.1, tally := entry.2 } := by
  rw [leaves]
  refine List.flatMap_congr fun blockEntry _ => ?_
  obtain ⟨block, blockTally⟩ := blockEntry
  cases htable : tables.get? block with
  | none => simp only [htable, Option.toList_none, List.flatMap_nil]
  | some table =>
      simp only [htable, Option.toList_some, List.flatMap_singleton]
      refine List.flatMap_congr fun rowEntry _ => ?_
      obtain ⟨row, rowTally⟩ := rowEntry
      cases table.get? row.toNat with
      | none => simp only [Option.toList_none, List.flatMap_nil]
      | some shape => simp only [Option.toList_some, List.flatMap_singleton]

/-- The leaf is the one on a route: the row has its abbreviation, and the census has its tally. -/
structure Leaf.StandsAt (leaf : Leaf) (route : Route) (blocks : Census BlockTally)
    (tables : Tables) : Prop where
  table_eq : tables.get? route.block = some leaf.table
  shape_eq : leaf.table.get? route.row.toNat = some leaf.shape
  code_eq : leaf.code = route.code
  size_eq : leaf.size = route.size
  tally_eq : route.size? blocks = some leaf.tally

/-- Everything on the way of a route is of some importance. -/
def weighs (route : Route) (blocks : Census BlockTally) : Bool :=
  (route.block? blocks).any (·.importance ≠ Double.zero) &&
    (route.row? blocks).any (·.importance ≠ Double.zero) &&
    (route.code? blocks).any (·.importance ≠ Double.zero) &&
    (route.size? blocks).any (·.importance ≠ Double.zero)

theorem Leaf.StandsAt.mem_leaves {route : Route} {leaf : Leaf} {blocks : Census BlockTally}
    {tables : Tables} (hleaf : leaf.StandsAt route blocks tables) (hweighs : weighs route blocks) :
    leaf ∈ leaves blocks tables := by
  obtain ⟨table, shape, code, size, tally⟩ := leaf
  obtain ⟨htable, hshape, rfl, rfl, htally⟩ := hleaf
  simp only [weighs, Bool.and_eq_true, Option.any_eq_true, decide_eq_true_eq] at hweighs
  obtain ⟨⟨⟨⟨block, hblock, hblockWeighs⟩, row, hrow, hrowWeighs⟩, code, hcode, hcodeWeighs⟩,
    size, hsize, hsizeWeighs⟩ := hweighs
  obtain rfl := Option.some.inj (hsize.symm.trans htally)
  rw [Route.size?, hcode, Option.bind_some] at hsize
  rw [Route.code?, hrow, Option.bind_some] at hcode
  rw [Route.row?, hblock, Option.bind_some] at hrow
  rw [leaves_eq]
  refine List.mem_flatMap.mpr ⟨(route.block, block),
    Census.mem_map_ranked (Keyed.mem_of_lookup_eq_some hblock) hblockWeighs, ?_⟩
  refine List.mem_flatMap.mpr ⟨table, Option.mem_toList.mpr htable, ?_⟩
  refine List.mem_flatMap.mpr ⟨(route.row, row),
    Census.mem_map_ranked (Keyed.mem_of_lookup_eq_some hrow) hrowWeighs, ?_⟩
  refine List.mem_flatMap.mpr ⟨shape, Option.mem_toList.mpr hshape, ?_⟩
  refine List.mem_flatMap.mpr ⟨(route.code, code),
    Census.mem_map_ranked (Keyed.mem_of_lookup_eq_some hcode) hcodeWeighs, ?_⟩
  exact List.mem_map.mpr ⟨(route.size, size),
    Census.mem_map_ranked (Keyed.mem_of_lookup_eq_some hsize) hsizeWeighs, rfl⟩

theorem exists_standsAt_of_mem_leaves {file : Tree.File} {tables : Tables} {leaf : Leaf}
    (hleaf : leaf ∈ leaves (Census.ofFile file) tables) :
    ∃ route, leaf.StandsAt route (Census.ofFile file) tables := by
  rw [leaves_eq] at hleaf
  obtain ⟨blockEntry, hblock, hleaf⟩ := List.mem_flatMap.mp hleaf
  obtain ⟨table, htable, hleaf⟩ := List.mem_flatMap.mp hleaf
  obtain ⟨rowEntry, hrow, hleaf⟩ := List.mem_flatMap.mp hleaf
  obtain ⟨shape, hshape, hleaf⟩ := List.mem_flatMap.mp hleaf
  obtain ⟨codeEntry, hcode, hleaf⟩ := List.mem_flatMap.mp hleaf
  obtain ⟨entry, hsize, rfl⟩ := List.mem_map.mp hleaf
  have hcounts := Census.counts_ofFile file
  have hblock := Census.mem_of_mem_ranked _ _ hblock
  have hrows := (hcounts.about_of_mem hblock).rows
  have hrow := Census.mem_of_mem_ranked _ _ hrow
  have hcodes := (hrows.about_of_mem hrow).codes
  have hcode := Census.mem_of_mem_ranked _ _ hcode
  have hsizes := (hcodes.about_of_mem hcode).sizes
  have hsize := Census.mem_of_mem_ranked _ _ hsize
  refine ⟨⟨blockEntry.1, rowEntry.1, codeEntry.1, entry.1⟩, Option.mem_toList.mp htable,
    Option.mem_toList.mp hshape, rfl, rfl, ?_⟩
  rw [Route.size?, Route.code?, Route.row?, Route.block?, hcounts.get?_of_mem hblock,
    Option.bind_some, hrows.get?_of_mem hrow, Option.bind_some, hcodes.get?_of_mem hcode,
    Option.bind_some, hsizes.get?_of_mem hsize]

theorem ofCensus_eq (blocks : Census BlockTally) (tables : Tables) :
    Candidates.ofCensus blocks tables =
      ((leaves blocks tables).flatMap Leaf.offers).foldl put {} := by
  rw [Candidates.ofCensus, List.foldl_flatMap]
  congr 1
  funext candidates leaf
  exact Leaf.addLeaf_eq candidates leaf

theorem mem_keys_counts {blocks : Census BlockTally} {tables : Tables} {key : UInt64 × Abbrev} :
    key ∈ (Candidates.ofCensus blocks tables).counts.map (·.1) ↔
      ∃ leaf ∈ leaves blocks tables, ∃ offer ∈ leaf.offers, offer.1 = key := by
  rw [ofCensus_eq, Candidates.mem_keys_foldl_put, List.map_nil, or_iff_right List.not_mem_nil]
  constructor
  · intro hkey
    obtain ⟨offer, hoffer, hkey⟩ := List.mem_map.mp hkey
    obtain ⟨leaf, hleaf, hoffer⟩ := List.mem_flatMap.mp hoffer
    exact ⟨leaf, hleaf, offer, hoffer, hkey⟩
  · rintro ⟨leaf, hleaf, offer, hoffer, hkey⟩
    exact List.mem_map.mpr ⟨offer, List.mem_flatMap.mpr ⟨leaf, hleaf, hoffer⟩, hkey⟩

theorem count_of_mem_counts {blocks : Census BlockTally} {tables : Tables}
    {entry : (UInt64 × Abbrev) × Nat} (hentry : entry ∈ (Candidates.ofCensus blocks tables).counts) :
    entry.2 = ((leaves blocks tables).map (Leaf.weight entry.1)).sum := by
  have hcount := Candidates.count_foldl_put {} ((leaves blocks tables).flatMap Leaf.offers) entry.1
  rw [ofCensus_eq] at hentry
  have hkeys : ((((leaves blocks tables).flatMap Leaf.offers).foldl put {}).counts.map (·.1)).Nodup :=
    Candidates.nodup_foldl_put (by simp) _
  rw [Candidates.count, Keyed.lookup_eq_some_of_mem hkeys hentry, sum_map_flatMap] at hcount
  exact hcount.trans (Nat.zero_add _)

section Files

variable {bytes : Array UInt8} {file : Tree.File} {source : Bitstream.File}
  (hsize : 8 * bytes.size < 2 ^ 64) (hopen : Bitstream.File.ofBytes bytes = .ok source)
  (hnarrow : ∀ shape ∈ source.definitions, shape.IsNarrow)
  (hresult : (Tree.unroll bytes).result = .ok file)

theorem block_eq_of_get? (hopen : Bitstream.File.ofBytes bytes = .ok source)
    (hresult : (Tree.unroll bytes).result = .ok file) {block : UInt64} {table : Table}
    (htable : (Tree.unroll bytes).tables.get? block = some table) : table.block = block := by
  have hextends := Tree.extends_unroll hopen hresult block
  rw [Tables.getD, htable] at hextends
  exact hextends.block_eq

include hsize hopen hnarrow hresult

theorem Leaf.StandsAt.about {route : Route} {leaf : Leaf}
    (hleaf : leaf.StandsAt route (Census.ofFile file) (Tree.unroll bytes).tables) :
    leaf.About (route.inSize file) := by
  have hgetD : (Tree.unroll bytes).tables.getD route.block = leaf.table := by
    rw [Tables.getD, hleaf.table_eq]
    rfl
  obtain ⟨-, -, -, -, -, htables⟩ := Tree.unroll_eq_ok hresult
  refine ⟨(route.found_size file).of_eq_some hleaf.tally_eq,
    htables.of_get? hleaf.table_eq leaf.shape (List.mem_of_getElem? hleaf.shape_eq), ?_, ?_, ?_⟩
  · intro record hrecord
    rw [hleaf.code_eq]
    exact of_decide_eq_true (List.mem_filter.mp (List.mem_filter.mp hrecord).1).2
  · intro record hrecord
    rw [hleaf.size_eq]
    exact of_decide_eq_true (List.mem_filter.mp hrecord).2
  · intro record hrecord
    have hinRow := (List.mem_filter.mp (List.mem_filter.mp hrecord).1).1
    obtain ⟨hinBlock, hrow⟩ := List.mem_filter.mp hinRow
    obtain ⟨found, hfound, hencode⟩ := Tree.canEncode_of_mem_owned hopen hnarrow hresult
      (Tree.File.mem_owned_of_mem_recordsIn hinBlock)
    rw [hgetD] at hfound
    -- Rows are keys of 64 bits in the census, and no table has more.
    have hrows := Tree.length_rows_le hopen hresult route.block
    rw [hgetD] at hrows
    have hinside := (List.getElem?_eq_some_iff.mp hfound).1
    have hexact : record.row = route.row.toNat := by
      rw [← of_decide_eq_true hrow, UInt64.toNat_ofNat_of_lt' (by rw [UInt64.size]; omega)]
    rw [hexact, hleaf.shape_eq] at hfound
    exact Option.some.inj hfound ▸ hencode

section Routes

variable (route : Route) {table : Table}
  (htable : (Tree.unroll bytes).tables.get? route.block = some table)

include htable

variable (key : UInt64 × Abbrev)

theorem sum_sizes_le {shape : Abbrev} (hshape : table.get? route.row.toNat = some shape)
    {tally : CodeTally} (htally : route.code? (Census.ofFile file) = some tally) :
    ((Census.rankedSizes tally.sizes).map fun entry =>
      Leaf.weight key
        { table, shape, code := route.code, size := entry.1, tally := entry.2 }).sum ≤
      (route.inCode file).countP fun record =>
        table.block = key.1 && key.2.canEncode record.values := by
  have habout := (route.found_code file).of_eq_some htally
  have hkeys := Keyed.nodup_of_ascending habout.sizes.ascending
  refine Census.sum_ranked_le _ _ hkeys Census.sizeKey fun entry hentry => ?_
  have hentry : ({ route with size := entry.1 } : Route).size? (Census.ofFile file) =
      some entry.2 :=
    Option.bind_eq_some_iff.mpr ⟨tally, htally, habout.sizes.get?_of_mem hentry⟩
  have hleaf : Leaf.StandsAt { table, shape, code := route.code, size := entry.1, tally := entry.2 }
      { route with size := entry.1 } (Census.ofFile file) (Tree.unroll bytes).tables :=
    ⟨htable, hshape, rfl, rfl, hentry⟩
  simp only [Route.sizeKey_eq_iff]
  exact (hleaf.about hsize hopen hnarrow hresult).weight_le key

theorem sum_codes_le {shape : Abbrev} (hshape : table.get? route.row.toNat = some shape)
    {tally : RowTally} (htally : route.row? (Census.ofFile file) = some tally) :
    ((Census.rankedCodes tally.codes).map fun codeEntry =>
      ((Census.rankedSizes codeEntry.2.sizes).map fun entry =>
        Leaf.weight key
          { table, shape, code := codeEntry.1, size := entry.1, tally := entry.2 }).sum).sum ≤
      (route.inRow file).countP fun record =>
        table.block = key.1 && key.2.canEncode record.values := by
  have habout := (route.found_row file).of_eq_some htally
  have hkeys := Keyed.nodup_of_ascending habout.codes.ascending
  refine Census.sum_ranked_le _ _ hkeys Record.code fun entry hentry => ?_
  have hentry : ({ route with code := entry.1 } : Route).code? (Census.ofFile file) =
      some entry.2 :=
    Option.bind_eq_some_iff.mpr ⟨tally, htally, habout.codes.get?_of_mem hentry⟩
  exact sum_sizes_le hsize hopen hnarrow hresult { route with code := entry.1 } htable key hshape
    hentry

theorem sum_rows_le {tally : BlockTally} (htally : route.block? (Census.ofFile file) = some tally) :
    ((Census.rankedRows tally.rows).map fun rowEntry =>
      (((table.get? rowEntry.1.toNat).toList.flatMap fun shape =>
        (Census.rankedCodes rowEntry.2.codes).flatMap fun codeEntry =>
          (Census.rankedSizes codeEntry.2.sizes).map fun entry =>
            ({ table, shape, code := codeEntry.1, size := entry.1, tally := entry.2 } : Leaf)).map
        (Leaf.weight key)).sum).sum ≤
      (route.inBlock file).countP fun record =>
        table.block = key.1 && key.2.canEncode record.values := by
  have habout := (route.found_block file).of_eq_some htally
  have hkeys := Keyed.nodup_of_ascending habout.rows.ascending
  refine Census.sum_ranked_le _ _ hkeys (UInt64.ofNat ·.row) fun entry hentry => ?_
  cases hshape : table.get? entry.1.toNat with
  | none => simp
  | some shape =>
      have hentry : ({ route with row := entry.1 } : Route).row? (Census.ofFile file) =
          some entry.2 :=
        Option.bind_eq_some_iff.mpr ⟨tally, htally, habout.rows.get?_of_mem hentry⟩
      have hcodes := sum_codes_le hsize hopen hnarrow hresult { route with row := entry.1 } htable key
        hshape hentry
      simp only [Option.toList_some, List.flatMap_singleton, sum_map_flatMap, List.map_map]
      exact hcodes

end Routes

theorem sum_leaves_le (key : UInt64 × Abbrev) :
    ((leaves (Census.ofFile file) (Tree.unroll bytes).tables).map (Leaf.weight key)).sum ≤
      (file.recordsIn key.1).countP (key.2.canEncode ·.values) := by
  have hkeys := Keyed.nodup_of_ascending (Census.counts_ofFile file).ascending
  rw [leaves_eq, sum_map_flatMap]
  refine Census.sum_ranked_le _ _ hkeys (fun _ => key.1) fun entry hentry => ?_
  cases htable : (Tree.unroll bytes).tables.get? entry.1 with
  | none => simp
  | some table =>
      have hblock := block_eq_of_get? hopen hresult htable
      have hrows := sum_rows_le hsize hopen hnarrow hresult ⟨entry.1, 0, 0, 0⟩ htable key
        (Keyed.lookup_eq_some_of_mem hkeys hentry)
      rw [Option.toList_some, List.flatMap_singleton, sum_map_flatMap]
      refine hrows.trans ?_
      rw [hblock]
      by_cases hsame : key.1 = entry.1
      · simp only [hsame, decide_true, Bool.true_and, List.filter_true]
        exact Nat.le_refl _
      · simp [Ne.symm hsame]

end Files

/-- Every candidate is an acceptable abbreviation that its block does not have yet, and is counted for
at most the records of the block that it can encode. It is the abbreviation of a leaf with a constant
code, with narrower fields or with a constant field. The first two can encode all records of the leaf,
and the last those that have the constant. -/
theorem candidates_applicable {bytes : Array UInt8} {file : Tree.File} {source : Bitstream.File}
    (hsize : 8 * bytes.size < 2 ^ 64) (hopen : Bitstream.File.ofBytes bytes = .ok source)
    (hnarrow : ∀ shape ∈ source.definitions, shape.IsNarrow)
    (hresult : (Tree.unroll bytes).result = .ok file) :
    (∀ entry ∈ (Candidates.ofCensus (Census.ofFile file) (Tree.unroll bytes).tables).counts,
      entry.1.2.isAcceptable ∧
      (∃ table, (Tree.unroll bytes).tables.get? entry.1.1 = some table ∧
        entry.1.2 ∉ table.ownRows) ∧
      entry.2 ≤ (file.recordsIn entry.1.1).countP (entry.1.2.canEncode ·.values) ∧
      ∃ (leaf : Leaf) (route : Route) (spread : Spread),
        leaf.StandsAt route (Census.ofFile file) (Tree.unroll bytes).tables ∧
        route.block = entry.1.1 ∧ leaf.spread? = some spread ∧
        (entry.1.2 = (spread.withCode leaf.code).restore ∨
          entry.1.2 = (spread.withNarrowed leaf.tally).restore ∨
          ∃ field fieldTally value count, leaf.tally.fields.get? field = some fieldTally ∧
            field.toNat < spread.fields.length ∧ constant? fieldTally = some (value, count) ∧
            entry.1.2 = (spread.withConstant field value).restore)) ∧
    ∀ (leaf : Leaf) (route : Route) (spread : Spread),
      leaf.StandsAt route (Census.ofFile file) (Tree.unroll bytes).tables →
      leaf.spread? = some spread →
      (∀ record ∈ route.inSize file,
        (spread.withCode leaf.code).restore.canEncode record.values ∧
          (spread.withNarrowed leaf.tally).restore.canEncode record.values) ∧
      ∀ field fieldTally value count, leaf.tally.fields.get? field = some fieldTally →
        field.toNat < spread.fields.length → constant? fieldTally = some (value, count) →
        count = (route.inSize file).countP (·.fields[field.toNat]? = some value) ∧
        ∀ record ∈ route.inSize file,
          ((spread.withConstant field value).restore.canEncode record.values ↔
            record.fields[field.toNat]? = some value) := by
  constructor
  · intro entry hentry
    obtain ⟨-, -, -, -, -, htables⟩ := Tree.unroll_eq_ok hresult
    obtain ⟨leaf, hleaf, offer, hoffer, hkey⟩ := mem_keys_counts.mp (List.mem_map_of_mem hentry)
    obtain ⟨route, hroute⟩ := exists_standsAt_of_mem_leaves hleaf
    obtain ⟨hblock, hnew⟩ := Leaf.notMem_ownRows_of_mem_offers hoffer
    have hid := block_eq_of_get? hopen hresult hroute.table_eq
    refine ⟨Candidates.sound_ofCensus htables _ entry hentry, ⟨leaf.table, ?_, hkey ▸ hnew⟩, ?_, ?_⟩
    · rw [← hkey, hblock, hid]
      exact hroute.table_eq
    · rw [count_of_mem_counts hentry]
      exact sum_leaves_le hsize hopen hnarrow hresult entry.1
    · obtain ⟨spread, hspread, hedit⟩ := Leaf.edit_of_mem_offers hoffer
      have hfields := (hroute.about hsize hopen hnarrow hresult).tally.fields
      rw [← hkey]
      refine ⟨leaf, route, spread, hroute, by rw [hblock, hid], hspread,
        hedit.imp_right (Or.imp_right ?_)⟩
      rintro ⟨field, fieldTally, value, count, hfield, hedit⟩
      exact ⟨field, fieldTally, value, count, hfields.get?_of_mem hfield, hedit⟩
  · intro leaf route spread hroute hspread
    have habout := hroute.about hsize hopen hnarrow hresult
    constructor
    · intro record hrecord
      exact ⟨habout.canEncode_withCode hspread hrecord, habout.canEncode_withNarrowed hspread hrecord⟩
    · intro field fieldTally value count hfield hinside hconstant
      refine ⟨count_constant?_of_size habout.tally (Keyed.mem_of_lookup_eq_some hfield) hconstant, ?_⟩
      intro record hrecord
      exact habout.canEncode_withConstant_iff hspread hrecord hinside value

/-- The tally of a field that has 33 in one record and 34 in another. -/
def pairTally : FieldTally :=
  { count := 2, values := { elements := [(33, ⟨1⟩), (34, ⟨1⟩)], total := 2 } }

/-- The tally of the fields of these records. -/
def pairFields : Census FieldTally :=
  { elements := [(0, pairTally)], total := 2 }

theorem constant?_pairTally : constant? pairTally = some (33, 1) := by
  unfold constant? Census.rankedValues Census.ranked
  rw [List.mergeSort_of_pairwise (by decide +kernel)]
  decide +kernel

/-- The leaf of these records. -/
def pairLeaf (table : Table) : Leaf where
  table := table
  shape := ⟨[.literal 5, .fixed 6]⟩
  code := 5
  size := 1
  tally := ⟨2, pairFields⟩

theorem mem_offers_pairLeaf {table : Table}
    (hnew : table.find? ⟨[.literal 5, .literal 33]⟩ = none) :
    ((table.block, ⟨[.literal 5, .literal 33]⟩), 1) ∈ (pairLeaf table).offers := by
  have hranked : Census.rankedFields pairFields = [(0, pairTally)] := by
    unfold Census.rankedFields Census.ranked
    rw [List.mergeSort_of_pairwise (by decide +kernel)]
    decide +kernel
  refine Leaf.mem_offers_iff.mpr
    ⟨{ code := .literal 5, fields := [.fixed 6] }, rfl, .inr (.inl ?_)⟩
  rw [Leaf.constantOffer?, pairLeaf, hranked, List.findSome?_singleton, Leaf.fieldOffer?, constant?_pairTally]
  change offer? table { code := .literal 5, fields := [.literal 33] } 1 = _
  unfold offer?
  have hrestore : Spread.restore { code := .literal 5, fields := [.literal 33] } =
      ⟨[.literal 5, .literal 33]⟩ := by decide
  rw [hrestore, hnew]
  rfl

theorem candidates_applicable_recursiveFile :
    ∃ file source count, (Tree.unroll Tree.recursiveFile).result = .ok file ∧
      Bitstream.File.ofBytes Tree.recursiveFile = .ok source ∧
      (∀ shape ∈ source.definitions, shape.IsNarrow) ∧
      ((8, ⟨[.literal 5, .literal 33]⟩), count) ∈
        (Candidates.ofCensus (Census.ofFile file) (Tree.unroll Tree.recursiveFile).tables).counts ∧
      count ≤ (file.recordsIn 8).countP (Abbrev.canEncode ⟨[.literal 5, .literal 33]⟩ ·.values) ∧
      (file.recordsIn 8).map (·.values) = [[7, 2], [9, 1], [5, 33], [5, 34]] ∧
      (Route.inSize ⟨8, 4, 5, 1⟩ file).map (·.fields) = [[33], [34]] ∧
      ∀ record ∈ Route.inSize ⟨8, 4, 5, 1⟩ file,
        (Abbrev.canEncode ⟨[.literal 5, .literal 33]⟩ record.values ↔
          record.fields[0]? = some 33) := by
  have hfile : (Tree.unroll Tree.recursiveFile).result.toOption.map (fun file =>
      ((file.recordsIn 8).map (·.values), (Route.inSize ⟨8, 4, 5, 1⟩ file).map (·.fields),
        Route.size? ⟨8, 4, 5, 1⟩ (Census.ofFile file), weighs ⟨8, 4, 5, 1⟩ (Census.ofFile file))) =
      some ([[7, 2], [9, 1], [5, 33], [5, 34]], [[33], [34]],
        some ⟨2, pairFields⟩, true) := by decide +kernel
  have htables : ((Tree.unroll Tree.recursiveFile).tables.get? 8).map (fun table =>
      (table.block, table.get? 4, table.find? ⟨[.literal 5, .literal 33]⟩)) =
      some (8, some ⟨[.literal 5, .fixed 6]⟩, none) := by decide +kernel
  have hdefinitions : (Bitstream.File.ofBytes Tree.recursiveFile).toOption.map (·.definitions) =
      some [⟨[.literal 5, .fixed 6]⟩, ⟨[.literal 7, .vbr 3]⟩, ⟨[.literal 5, .fixed 6]⟩] := by
    decide +kernel
  obtain ⟨table, htable, hfacts⟩ := Option.map_eq_some_iff.mp htables
  obtain ⟨hblock, hshape, hnew⟩ : table.block = 8 ∧ table.get? 4 = some ⟨[.literal 5, .fixed 6]⟩ ∧
      table.find? ⟨[.literal 5, .literal 33]⟩ = none := by simpa using hfacts
  cases hresult : (Tree.unroll Tree.recursiveFile).result with
  | error cause => simp [hresult, Except.toOption] at hfile
  | ok file =>
      cases hopen : Bitstream.File.ofBytes Tree.recursiveFile with
      | error cause => simp [hopen, Except.toOption] at hdefinitions
      | ok source =>
          rw [hresult] at hfile
          rw [hopen] at hdefinitions
          simp only [Except.toOption, Option.map_some, Option.some.injEq, Prod.mk.injEq] at hfile
          obtain ⟨hrecords, hfields, htally, hweighs⟩ := hfile
          have hnarrow : ∀ shape ∈ source.definitions, shape.IsNarrow := by
            rw [show source.definitions = _ from Option.some.inj hdefinitions]
            simp [Abbrev.IsNarrow]
          obtain ⟨hcounts, hleaves⟩ := candidates_applicable (by decide) hopen hnarrow hresult
          have hleaf : pairLeaf table |>.StandsAt ⟨8, 4, 5, 1⟩ (Census.ofFile file)
              (Tree.unroll Tree.recursiveFile).tables := ⟨htable, hshape, rfl, rfl, htally⟩
          obtain ⟨⟨key, count⟩, hentry, hkey⟩ := List.mem_map.mp (mem_keys_counts.mpr
            ⟨pairLeaf table, hleaf.mem_leaves hweighs, _, mem_offers_pairLeaf hnew, rfl⟩)
          obtain rfl : key = (8, ⟨[.literal 5, .literal 33]⟩) := by rw [← hblock]; exact hkey
          exact ⟨file, source, count, rfl, rfl, hnarrow, hentry, (hcounts _ hentry).2.2.1, hrecords,
            hfields, ((hleaves (pairLeaf table) ⟨8, 4, 5, 1⟩ _ hleaf rfl).2
              0 pairTally 33 1 rfl (by decide) constant?_pairTally).2⟩

end Bitcode.Synthesis
