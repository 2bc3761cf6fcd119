import Bitcode.Proofs.Compression.Ledger
import Bitcode.Proofs.Compression.Lossless

namespace Bitcode.Compression

open Format Bitstream Bits
open Bitcode.Tree (Body Block)
open Bitstream.Reader (aligned)

/-- By how much a blob may miss its price: it fills up two words, and is priced with half a word. -/
def blobSlack (shape : Abbrev) : Nat :=
  if shape.operators.getLast? = some .blob then 39 else 0

/-- The difference of two positions, when each has moved to the next word boundary. -/
def roundUp (difference : Int) : Int :=
  -(-difference / 32) * 32

theorem aligned_le {position other : Nat} {growth : Int} (hle : (position : Int) ≤ other + growth) :
    (aligned position : Int) ≤ aligned other + roundUp growth := by
  unfold aligned roundUp
  omega

theorem aligned_le_of_boundary {position other : Nat} {growth : Int}
    (hboundary : aligned other = other) (hle : (position : Int) ≤ other + growth) :
    (aligned position : Int) ≤ other + roundUp growth := by
  have haligned := aligned_le hle
  rwa [hboundary] at haligned

namespace Plan

/-- How many bits an abbreviation saves in a record. -/
def saved (plan : Plan) (block : UInt64) (values : List UInt64) : Nat :=
  match plan.shape? block values with
  | none => 0
  | some shape => Selection.plainBits values - (Selection.price? shape values).getD 0

/-- What a record costs above its saving: a wider id, and the filling around a blob. -/
def spent (plan : Plan) (block : UInt64) (values : List UInt64) : Nat :=
  (plan.width block - initialIdWidth) + ((plan.shape? block values).map blobSlack).getD 0

def enterGrowth (plan : Plan) (outer : Nat) (id : UInt64) (growth : Int) : Int :=
  roundUp (growth + outer + Vbr.bitSize (UInt64.ofNat (plan.width id)) 4 - initialIdWidth -
    Vbr.bitSize (UInt64.ofNat initialIdWidth) 4) + plan.ownBits id

def exitGrowth (plan : Plan) (id : UInt64) (growth : Int) : Int :=
  roundUp (growth + plan.width id - initialIdWidth)

def bodyGrowth (plan : Plan) (block : UInt64) : Body → Int → Int
  | .empty, growth => growth
  | .record item rest, growth =>
      plan.bodyGrowth block rest
        (growth + plan.spent block item.values - plan.saved block item.values)
  | .block id _ body rest, growth =>
      plan.bodyGrowth block rest
        (plan.exitGrowth id (plan.bodyGrowth id body
          (plan.enterGrowth (plan.width block) id growth)))

/-- All of block 0 is growth. -/
def infoGrowth (listed : List (UInt64 × List Abbrev)) (outer : Nat) (growth : Int) : Int :=
  if listed.isEmpty then growth
  else
    roundUp (roundUp (growth + outer + Vbr.bitSize infoBlockId 8 +
      Vbr.bitSize (UInt64.ofNat initialIdWidth) 4) + 32 +
      Writer.listedBits listed initialIdWidth + initialIdWidth)

def blockGrowth (plan : Plan) (listed : List (UInt64 × List Abbrev)) (block : Block)
    (growth : Int) : Int :=
  let start :=
    if block.id = moduleBlockId then
      infoGrowth listed (plan.width block.id) (plan.enterGrowth initialIdWidth block.id growth)
    else plan.enterGrowth initialIdWidth block.id (infoGrowth listed initialIdWidth growth)
  plan.exitGrowth block.id (plan.bodyGrowth block.id block.body start)

/-- By how many bits the blocks of a file grow, as compared to what they take without
abbreviations. -/
def blocksGrowth (plan : Plan) : List (UInt64 × List Abbrev) → List Block → Int → Int
  | _, [], growth => growth
  | listed, block :: rest, growth =>
      plan.blocksGrowth [] rest (plan.blockGrowth listed block growth)

/-- Records are written only with abbreviations that are no dearer than none. -/
def Thrifty (plan : Plan) : Prop :=
  ∀ block values shape, plan.shape? block values = some shape →
    ∃ bits, Selection.price? shape values = some bits ∧ bits ≤ Selection.plainBits values

theorem thrifty_ofTables (tables : Tables) (blocks : List Block) :
    (ofTables tables blocks).Thrifty := by
  intro block values shape hshape
  rw [shape?] at hshape
  split at hshape
  · cases hshape
  · rename_i hdefined
    have hrows : ∀ row ∈ Selection.keptRows tables blocks block,
        row < (tables.getD block).rows.length ∧ row ≠ plainRow :=
      fun row hrow => ⟨(Selection.mem_frequentAmong hrow).1, (Selection.mem_frequentAmong hrow).2.1⟩
    obtain ⟨place, hpick, hrow⟩ := (Selection.idOf_eq (Selection.keptRows tables blocks block)
      (Selection.rowFor tables block values)).resolve_left hdefined
    have hkept := Selection.getElem?_filterMap_get? (fun row hrow => (hrows row hrow).1) hrow
    have hplain := (hrows _ (List.mem_of_getElem? hrow)).2
    simp only [ofTables, hpick, Nat.add_sub_cancel_left, hkept] at hshape
    rw [Selection.rowFor_eq] at hplain hshape
    obtain ⟨other, bits, hother, hprice, hcheap⟩ := Selection.price?_of_selectRow hplain
    obtain rfl := Option.some.inj (hother.symm.trans hshape)
    exact ⟨bits, hprice, hcheap⟩

end Plan

theorem valuesEnd_le {shape : Abbrev} {values : List UInt64} {bits : Nat}
    (hprice : Selection.price? shape values = some bits) (position : Nat) :
    shape.valuesEnd values position ≤ position + bits + blobSlack shape := by
  unfold Selection.price? at hprice
  cases hencoded : shape.encodedBits values with
  | some encoded =>
      simp only [hencoded, Option.some.injEq] at hprice
      simp only [Abbrev.valuesEnd, hencoded, hprice]
      exact Nat.le_add_right _ _
  | none =>
      simp only [hencoded, Option.ite_none_right_eq_some, Option.map_eq_some_iff] at hprice
      obtain ⟨hencode, head, hhead, rfl⟩ := hprice
      have hblob := Abbrev.getLast?_eq_blob hencode hencoded
      simp only [Abbrev.valuesEnd, hencoded, hhead, Option.getD_some, Abbrev.blobEnd, aligned,
        Selection.blobBits, blobSlack, hblob, if_true]
      omega

namespace Plan

variable {plan : Plan} {position other : Nat} {growth : Int}

theorem width_plain (block : UInt64) : plain.width block = initialIdWidth := by
  change idWidthFor 0 = initialIdWidth
  decide

theorem recordEnd_le (hplan : plan.Thrifty) (block : UInt64) (values : List UInt64)
    (hle : (position : Int) ≤ other + growth) :
    (plan.recordEnd block values position : Int) ≤
      plain.recordEnd block values other +
        (growth + plan.spent block values - plan.saved block values) := by
  have hwidth : initialIdWidth ≤ plan.width block := initialIdWidth_le_idWidthFor _
  have hplain : plain.recordEnd block values other =
      other + initialIdWidth + Selection.plainBits values := by
    rw [← width_plain block]
    rfl
  rw [hplain]
  unfold recordEnd spent saved
  cases hshape : plan.shape? block values with
  | none =>
      simp only [Option.map_none, Option.getD_none]
      omega
  | some shape =>
      obtain ⟨bits, hprice, hcheap⟩ := hplan block values shape hshape
      have hend := valuesEnd_le hprice (position + plan.width block)
      simp only [hprice, Option.map_some, Option.getD_some]
      omega

theorem ownBits_plain (id : UInt64) : plain.ownBits id = 0 := by
  unfold ownBits
  split <;> rfl

theorem enterEnd_le (outer : Nat) (id : UInt64) (hle : (position : Int) ≤ other + growth) :
    (plan.enterEnd outer id position : Int) ≤
      plain.enterEnd initialIdWidth id other + plan.enterGrowth outer id growth := by
  unfold enterEnd Writer.enterEnd enterGrowth
  rw [ownBits_plain, width_plain]
  have hstart : ((position + outer + Vbr.bitSize id 8 +
      Vbr.bitSize (UInt64.ofNat (plan.width id)) 4 : Nat) : Int) ≤
      ((other + initialIdWidth + Vbr.bitSize id 8 +
        Vbr.bitSize (UInt64.ofNat initialIdWidth) 4 : Nat) : Int) +
      (growth + outer + Vbr.bitSize (UInt64.ofNat (plan.width id)) 4 - initialIdWidth -
        Vbr.bitSize (UInt64.ofNat initialIdWidth) 4) := by
    push_cast
    omega
  have haligned := aligned_le hstart
  push_cast at haligned ⊢
  omega

theorem exitEnd_le (id : UInt64) (hle : (position : Int) ≤ other + growth) :
    (plan.exitEnd id position : Int) ≤ plain.exitEnd id other + plan.exitGrowth id growth := by
  unfold exitEnd exitGrowth
  rw [width_plain]
  apply aligned_le
  push_cast
  omega

theorem bodyEnd_le (hplan : plan.Thrifty) (block : UInt64) (body : Body)
    (hle : (position : Int) ≤ other + growth) :
    (plan.bodyEnd block body position : Int) ≤
      plain.bodyEnd block body other + plan.bodyGrowth block body growth := by
  induction body generalizing block position other growth with
  | empty => exact hle
  | record item rest ih => exact ih block (recordEnd_le hplan block item.values hle)
  | block id bits inner rest ihInner ihRest =>
      rw [bodyEnd, bodyEnd, bodyGrowth, width_plain]
      apply ihRest
      apply exitEnd_le
      apply ihInner
      exact enterEnd_le _ id hle

theorem infoEnd_le (listed : List (UInt64 × List Abbrev)) (outer : Nat)
    (hboundary : aligned other = other) (hle : (position : Int) ≤ other + growth) :
    (infoEnd listed outer position : Int) ≤ other + infoGrowth listed outer growth := by
  unfold infoEnd infoGrowth Writer.enterEnd
  split
  · exact hle
  -- There is no block 0 without abbreviations, and both ends of it are compared with one boundary.
  · have hstart : ((position + outer + Vbr.bitSize infoBlockId 8 +
        Vbr.bitSize (UInt64.ofNat initialIdWidth) 4 : Nat) : Int) ≤ other +
        (growth + outer + Vbr.bitSize infoBlockId 8 +
          Vbr.bitSize (UInt64.ofNat initialIdWidth) 4) := by
      push_cast
      omega
    have hentered := aligned_le_of_boundary hboundary hstart
    apply aligned_le_of_boundary hboundary
    push_cast at hentered ⊢
    omega

theorem aligned_aligned (position : Nat) : aligned (aligned position) = aligned position := by
  unfold aligned
  omega

theorem blockEnd_le (hplan : plan.Thrifty) (listed : List (UInt64 × List Abbrev)) (block : Block)
    (hboundary : aligned other = other) (hle : (position : Int) ≤ other + growth) :
    (plan.blockEnd listed block position : Int) ≤
      plain.blockEnd [] block other + plan.blockGrowth listed block growth := by
  unfold blockEnd blockGrowth
  apply exitEnd_le
  apply bodyEnd_le hplan
  split
  · change _ ≤ (plain.enterEnd initialIdWidth block.id other : Int) + _
    apply infoEnd_le listed _ _ (enterEnd_le _ _ hle)
    rw [enterEnd, ownBits_plain, Writer.enterEnd]
    unfold aligned
    omega
  · exact enterEnd_le _ _ (infoEnd_le listed _ hboundary hle)

theorem blocksEnd_le (hplan : plan.Thrifty) (listed : List (UInt64 × List Abbrev))
    (blocks : List Block) (hboundary : aligned other = other)
    (hle : (position : Int) ≤ other + growth) :
    (plan.blocksEnd listed blocks position : Int) ≤
      plain.blocksEnd [] blocks other + plan.blocksGrowth listed blocks growth := by
  induction blocks generalizing listed position other growth with
  | nil => exact hle
  | cons block rest ih =>
      rw [blocksEnd, blocksEnd, blocksGrowth]
      apply ih
      · exact aligned_aligned _
      · exact blockEnd_le hplan listed block hboundary hle

end Plan

/-- By how many bits a file grows when it is compressed, as compared to what it takes without
abbreviations. -/
def growthOf (bytes : Array UInt8) (file : Tree.File) : Int :=
  (planOf bytes file).blocksGrowth (listedOf bytes file) file.blocks 0

/-- The sizes of a file with and without abbreviations are what the ledger says. So the first is
larger by the growth at most, and no larger at all if what the records save covers their wider ids,
the definitions, block 0 and the filling of words. -/
theorem compress_size_le_add_growth {bytes normal : Array UInt8} (hsize : 8 * bytes.size < 2 ^ 64)
    (hnormal : compress bytes false = .ok normal) :
    ∃ file plain,
      (Tree.unroll bytes).result = .ok file ∧ compress bytes true = .ok plain ∧
      8 * normal.size = (planOf bytes file).blocksEnd (listedOf bytes file) file.blocks
        (8 * file.header.raw.size) ∧
      8 * plain.size = Plan.plain.blocksEnd [] file.blocks (8 * file.header.raw.size) ∧
      (8 * normal.size : Int) ≤ 8 * plain.size + growthOf bytes file ∧
      (growthOf bytes file ≤ 0 → normal.size ≤ plain.size) := by
  obtain ⟨file, hresult⟩ := unroll_of_compress hnormal
  obtain ⟨-, -, hraw, hwords⟩ := header_of_unroll hresult
  obtain ⟨written, hwritten, hbits⟩ := compress_size hsize hresult
  obtain ⟨plain, hplain, hplainBits⟩ := compress_plain_size hsize hresult
  obtain rfl := Except.ok.inj (hwritten.symm.trans hnormal)
  have hboundary : aligned (8 * file.header.raw.size) = 8 * file.header.raw.size := by
    unfold aligned
    omega
  have hbound : (8 * written.size : Int) ≤ 8 * plain.size + growthOf bytes file := by
    have hle := Plan.blocksEnd_le (Plan.thrifty_ofTables (selectionTables bytes file) file.blocks)
      (listedOf bytes file) file.blocks hboundary (Int.le_of_eq (Int.add_zero _).symm)
    rw [← hplainBits] at hle
    change (((planOf bytes file).blocksEnd _ _ _ : Nat) : Int) ≤ _ + growthOf bytes file at hle
    rw [← hbits] at hle
    exact_mod_cast hle
  exact ⟨file, plain, hresult, hplain, hbits, hplainBits, hbound, fun hgrowth => by omega⟩

/-- A block with fourteen records that have nothing but a code. -/
def evenFile : Array UInt8 :=
  #[80, 69, 88, 69, 1, 0, 8, 0, 17, 0, 4, 0, 2, 0, 0, 0, 49, 8, 0, 0, 7, 0, 0, 0, 7, 192, 1, 112, 0,
    28, 0, 7, 192, 1, 112, 0, 28, 0, 7, 192, 1, 112, 0, 28, 0, 7, 192, 1, 0, 0, 0, 0]

theorem compress_size_le_evenFile :
    ∃ file normal plain, (Tree.unroll evenFile).result = .ok file ∧
      compress evenFile false = .ok normal ∧ compress evenFile true = .ok plain ∧
      growthOf evenFile file = 0 ∧ normal.size ≤ plain.size := by
  have hgrowth : (Tree.unroll evenFile).result.toOption.map (growthOf evenFile) = some 0 := by
    decide +kernel
  have hok : (Tree.unroll evenFile).result.isOk := by decide +kernel
  obtain ⟨_, hunrolled⟩ := isOk_iff_exists.mp hok
  obtain ⟨normal, hnormal, -⟩ := compress_size (by decide) hunrolled
  obtain ⟨file, plain, hresult, hplain, -, -, -, hle⟩ :=
    compress_size_le_add_growth (by decide) hnormal
  rw [hresult] at hgrowth
  have hfile : growthOf evenFile file = 0 := Option.some.inj hgrowth
  exact ⟨file, normal, plain, hresult, hnormal, hplain, hfile, hle (Int.le_of_eq hfile)⟩

/-- A block with five such records. -/
def terseFile : Array UInt8 :=
  #[80, 69, 88, 69, 1, 0, 8, 0, 17, 0, 4, 0, 2, 0, 0, 0, 49, 8, 0, 0, 3, 0, 0, 0, 7, 192, 1, 112, 0,
    28, 0, 7, 0, 0, 0, 0]

/-- One abbreviation is kept for the five records, and the file is two words longer with it. -/
theorem compress_grows_terseFile :
    (Tree.unroll terseFile).result.toOption.map (fun file =>
        (Selection.choose (selectionTables terseFile file) file.blocks).kept 12) =
      some [⟨[.literal 1]⟩] ∧
    (compress terseFile false).toOption.map (·.size) = some 44 ∧
    (compress terseFile true).toOption.map (·.size) = some 36 := by
  refine ⟨?_, ?_, ?_⟩
  · decide +kernel
  · decide +kernel
  · decide +kernel

end Bitcode.Compression
