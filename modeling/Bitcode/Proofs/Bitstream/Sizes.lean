import Bitcode.Proofs.Abbrev.Agreement
import Bitcode.Proofs.Bitstream.Emission
import Bitcode.Selection.Price

namespace Bitcode

open Format Bits Bitstream
open Bitstream.Reader (aligned)

namespace Bits

variable {ε α β : Type}

theorem Appends.forM_foldr {items : List α} {action : α → EStateM ε Writer PUnit} {count : α → Nat}
    (haction : ∀ item, Appends (action item) (count item)) :
    Appends (items.forM action) (items.foldr (fun item total => count item + total) 0) := by
  induction items with
  | nil => exact Appends.pure
  | cons item rest ih => exact (haction item).bind ih

/-- Every success of a writing computation ends at the position that is given for its start. -/
def Reaches (writing : EStateM ε Writer α) (stop : Nat → Nat) : Prop :=
  ∀ ⦃writer next : Writer⦄ ⦃value : α⦄, writing writer = .ok value next →
    next.bits.size = stop writer.bits.size

theorem Reaches.bind {first : EStateM ε Writer α} {second : α → EStateM ε Writer β}
    {stop last : Nat → Nat} (hfirst : Reaches first stop)
    (hsecond : ∀ value, Reaches (second value) last) :
    Reaches (first >>= second) fun position => last (stop position) := by
  intro writer next value hrun
  obtain ⟨middle, between, hbetween, hnext⟩ := bind_eq_ok_iff.mp hrun
  rw [hsecond middle hnext, hfirst hbetween]

theorem Appends.reaches {writing : EStateM ε Writer Unit} {count : Nat}
    (hwriting : Appends writing count) : Reaches writing (· + count) := by
  intro writer next _ hrun
  obtain ⟨bits, hbits, rfl⟩ := hwriting hrun
  rw [hbits, size_append_list]

theorem reaches_align32 : Reaches (modify Writer.align32 : EStateM ε Writer Unit) aligned := by
  intro writer next _ hrun
  obtain ⟨-, rfl⟩ := EStateM.Result.ok.inj hrun
  simp only [Writer.align32, Writer.append, size_append_list, lowBits_length, aligned]

end Bits

section Definitions

/-- How many bits an operator takes in a definition. -/
def Operator.definitionBits : Operator → Nat
  | .literal value => 1 + Vbr.bitSize value 8
  | .fixed width => 1 + (3 + Vbr.bitSize width 5)
  | .vbr width => 1 + (3 + Vbr.bitSize width 5)
  | .array | .char6 | .blob => 1 + 3

/-- How many bits the definition of an abbreviation takes, its abbreviation id apart. -/
def Abbrev.definitionBits (shape : Abbrev) : Nat :=
  Vbr.bitSize (UInt64.ofNat shape.operators.length) 5 +
    shape.operators.foldr (fun operator total => operator.definitionBits + total) 0

theorem Operator.appends_write (operator : Operator) :
    Appends operator.write operator.definitionBits := by
  have hfield : ∀ value width,
      Appends (liftM (Bits.Writer.emit value width) : Bitstream.Writing Unit) width :=
    fun value width => (Bits.Writer.appends_emit value width).adaptExcept _
  have hvbr : ∀ value width,
      Appends (liftM (Bits.Writer.emitVbr value width) : Bitstream.Writing Unit)
        (Vbr.bitSize value width) :=
    fun value width => (Bits.Writer.appends_emitVbr value width).adaptExcept _
  cases operator with
  | literal value => exact (hfield 1 1).bind (hvbr value 8)
  | fixed width | vbr width => exact (hfield 0 1).bind ((hfield _ 3).bind (hvbr width 5))
  | array | char6 | blob => exact (hfield 0 1).bind (hfield _ 3)

theorem Abbrev.appends_write (shape : Abbrev) : Appends shape.write shape.definitionBits :=
  ((Bits.Writer.appends_emitVbr _ 5).adaptExcept _).bind
    (Appends.forM_foldr Operator.appends_write)

end Definitions

namespace Abbrev

/-- Where a blob of so many bytes ends. -/
def blobEnd (count position : Nat) : Nat :=
  aligned (aligned (position + Vbr.bitSize (UInt64.ofNat count) 6) + 8 * count)

/-- Where the values of a record end, if the abbreviation can encode them. -/
def valuesEnd (shape : Abbrev) (values : List UInt64) (position : Nat) : Nat :=
  match shape.encodedBits values with
  | some bits => position + bits
  | none =>
      let head := shape.operators.dropLast
      blobEnd (values.length - head.length)
        (position + (operatorBits head (values.take head.length)).getD 0)

theorem reaches_writeBlob (values : List UInt64) :
    Reaches (writeBlob values) (blobEnd values.length) := by
  have hbyte : ∀ value, Appends (writeByte value) 8 := by
    intro value writer next hrun
    rw [writeByte] at hrun
    split at hrun
    · exact absurd hrun (throw_ne_ok _ _ _ _)
    · exact (Bits.Writer.appends_emit value 8).adaptExcept _ hrun
  exact ((Bits.Writer.appends_emitVbr _ 6).adaptExcept _).reaches.bind fun _ =>
    reaches_align32.bind fun _ => (Appends.forM hbyte).reaches.bind fun _ => reaches_align32

theorem reaches_beforeBlob (shape : Abbrev) {head : List Operator}
    (hoperators : acceptableFrom (head ++ [.blob])) {values : List UInt64} {bits : Nat}
    (hbits : operatorBits head (values.take head.length) = some bits) :
    Reaches (writeOperatorValues shape (head ++ [.blob]) values)
      fun position => blobEnd (values.length - head.length) (position + bits) := by
  induction head generalizing values bits with
  | nil =>
      obtain rfl := Option.some.inj hbits
      exact (reaches_writeBlob values).bind fun _ => Appends.pure.reaches
  | cons operator head ih =>
      have hscalar := isScalar_of_acceptableFrom_blob hoperators
      rw [List.cons_append, acceptableFrom_scalar hscalar, Bool.and_eq_true] at hoperators
      cases values with
      | nil => simp [operatorBits_scalar_nil hscalar] at hbits
      | cons value values =>
          simp only [List.length_cons, List.take_succ_cons, operatorBits_scalar hscalar,
            Option.bind_eq_bind, Option.bind_eq_some_iff] at hbits
          obtain ⟨first, hfirst, more, hmore, hsum⟩ := hbits
          obtain rfl := Option.some.inj hsum
          rw [List.cons_append, writeOperatorValues_scalar shape hscalar]
          simp only [List.length_cons, Nat.add_sub_add_right, ← Nat.add_assoc]
          exact (Operator.appends_writeScalar hfirst).reaches.bind fun _ =>
            ih hoperators.2 hmore

/-- Only a blob is encoded in a number of bits that cannot be told from the values. -/
theorem getLast?_eq_blob {shape : Abbrev} {values : List UInt64} (hencode : shape.canEncode values)
    (hbits : shape.encodedBits values = none) : shape.operators.getLast? = some .blob := by
  by_contra hblob
  simp only [canEncode, beforeBlob?, hblob, if_false, hbits] at hencode
  cases hencode

theorem reaches_writeValues {shape : Abbrev} (hshape : shape.isAcceptable) {values : List UInt64}
    (hencode : shape.canEncode values) :
    Reaches (shape.writeValues values) (shape.valuesEnd values) := by
  rw [isAcceptable, Bool.and_eq_true] at hshape
  cases hbits : shape.encodedBits values with
  | some bits =>
      have hstop : shape.valuesEnd values = (· + bits) := by
        funext position
        simp only [valuesEnd, hbits]
      rw [hstop]
      exact (appends_writeOperatorValues shape hshape.2 hbits).reaches
  | none =>
      obtain ⟨head, hhead⟩ := List.getLast?_eq_some_iff.mp (getLast?_eq_blob hencode hbits)
      simp only [canEncode, beforeBlob?, hhead, List.getLast?_concat, if_true,
        List.dropLast_concat, Bool.and_eq_true] at hencode
      obtain ⟨more, hmore⟩ := Option.isSome_iff_exists.mp hencode.1.2
      have hstop : shape.valuesEnd values =
          fun position => blobEnd (values.length - head.length) (position + more) := by
        funext position
        simp only [valuesEnd, hbits, hhead, List.dropLast_concat, hmore, Option.getD_some]
      rw [hstop, writeValues, hhead]
      exact reaches_beforeBlob shape (hhead ▸ hshape.2) hmore

end Abbrev

namespace Bitstream

/-- What every success of a computation adds to a stream in a block with ids of some width. The
block stays open. -/
def Spends {α : Type} (composing : Composing α) (cost : Nat → Nat) : Prop :=
  ∀ ⦃writer next : Writer⦄ ⦃value : α⦄, composing writer = .ok value next →
    next.size = writer.size + cost writer.idWidth ∧ next.idWidth = writer.idWidth

section Spends

variable {α β : Type} {cost more : Nat → Nat}

theorem Spends.pure (value : α) : Spends (Pure.pure value : Composing α) fun _ => 0 := by
  intro writer next _ hrun
  obtain ⟨-, rfl⟩ := EStateM.Result.ok.inj hrun
  exact ⟨rfl, rfl⟩

theorem Spends.bind {first : Composing α} {second : α → Composing β} (hfirst : Spends first cost)
    (hsecond : ∀ value, Spends (second value) more) :
    Spends (first >>= second) fun width => cost width + more width := by
  intro writer next value hrun
  obtain ⟨middle, between, hbetween, hnext⟩ := bind_eq_ok_iff.mp hrun
  obtain ⟨hsize, hwidth⟩ := hfirst hbetween
  obtain ⟨hlast, hsame⟩ := hsecond middle hnext
  rw [hwidth] at hlast hsame
  refine ⟨?_, hsame⟩
  dsimp only
  omega

theorem Spends.forM {items : List α} {action : α → Composing PUnit} {cost : α → Nat → Nat}
    (haction : ∀ item, Spends (action item) (cost item)) :
    Spends (items.forM action) fun width =>
      items.foldr (fun item total => cost item width + total) 0 := by
  induction items with
  | nil => exact Spends.pure _
  | cons item rest ih => exact (haction item).bind fun _ => ih

theorem spends_onBits {writing : Writing Unit} {count : Nat} (hwriting : Appends writing count) :
    Spends (onBits writing) fun _ => count := by
  intro writer next _ hrun
  obtain ⟨changed, hwrite, rfl⟩ := Writer.onBits_eq_ok_iff.mp hrun
  exact ⟨hwriting.reaches hwrite, rfl⟩

end Spends

namespace Writer

/-- How many bits definitions take, in a block with ids of some width. -/
def definitionsBits (shapes : List Abbrev) (width : Nat) : Nat :=
  shapes.foldr (fun shape total => width + shape.definitionBits + total) 0

/-- How many bits block 0 takes for a list of blocks, between its start and its end. -/
def listedBits (listed : List (UInt64 × List Abbrev)) (width : Nat) : Nat :=
  listed.foldr (fun entry total =>
    (if entry.2.isEmpty then 0
      else width + Selection.plainBits [setBlockCode, entry.1] + definitionsBits entry.2 width) +
      total) 0

/-- Where the start of a block ends. -/
def enterEnd (outer : Nat) (block width : UInt64) (position : Nat) : Nat :=
  aligned (position + outer + Vbr.bitSize block 8 + Vbr.bitSize width 4) + 32

theorem spends_emitId (id : UInt64) : Spends (emitId id) fun width => width := by
  intro writer next _ hrun
  exact spends_onBits ((Bits.Writer.appends_emit id writer.idWidth).adaptExcept _) hrun

theorem spends_emitVbr (value : UInt64) (width : Nat) :
    Spends (liftM (Bits.Writer.emitVbr value width) : Composing Unit)
      fun _ => Vbr.bitSize value width :=
  spends_onBits ((Bits.Writer.appends_emitVbr value width).adaptExcept _)

theorem spends_define (shape : Abbrev) :
    Spends (define shape) fun width => width + shape.definitionBits := by
  intro writer next id hrun
  rw [define, get_bind_apply] at hrun
  cases hblocks : writer.blocks with
  | nil =>
      rw [hblocks] at hrun
      exact absurd hrun (throw_ne_ok _ _ _ _)
  | cons block rest =>
      rw [hblocks] at hrun
      obtain ⟨_, announced, hid, hrun⟩ := bind_eq_ok_iff.mp hrun
      obtain ⟨_, written, hshape, hrun⟩ := bind_eq_ok_iff.mp hrun
      obtain ⟨hannounced, hwidth⟩ := spends_emitId _ hid
      obtain ⟨hwritten, -⟩ := spends_onBits shape.appends_write hshape
      rw [modify_bind_apply] at hrun
      obtain ⟨-, rfl⟩ := EStateM.Result.ok.inj hrun
      refine ⟨?_, (idWidth_of_blocks hblocks).symm⟩
      change written.size = _
      dsimp only at hannounced hwritten ⊢
      omega

theorem spends_share (block : UInt64) (shape : Abbrev) :
    Spends (share block shape) fun width => width + shape.definitionBits := by
  intro writer next _ hrun
  have hwrites := (spends_emitId ReservedId.defineAbbrev.code).bind fun _ =>
    spends_onBits shape.appends_write
  obtain ⟨_, announced, hid, hrun⟩ := bind_eq_ok_iff.mp hrun
  obtain ⟨_, written, hshape, hrun⟩ := bind_eq_ok_iff.mp hrun
  obtain ⟨-, rfl⟩ := EStateM.Result.ok.inj hrun
  obtain ⟨hsize, hwidth⟩ := hwrites (bind_eq_ok_iff.mpr ⟨(), announced, hid, hshape⟩)
  exact ⟨hsize, hwidth⟩

theorem spends_writePlain (code : UInt64) (fields : List UInt64) :
    Spends (writePlain code fields) fun width => width + Selection.plainBits (code :: fields) := by
  intro writer next _ hrun
  rw [writePlain, get_bind_apply] at hrun
  cases hblocks : writer.blocks with
  | nil =>
      rw [hblocks] at hrun
      exact absurd hrun (throw_ne_ok _ _ _ _)
  | cons block rest =>
      rw [hblocks] at hrun
      have hwrites := (spends_emitId ReservedId.plainRecord.code).bind fun _ =>
        (spends_emitVbr code 6).bind fun _ =>
          (spends_emitVbr (UInt64.ofNat fields.length) 6).bind fun _ =>
            @Spends.forM _ fields _ _ fun field => spends_emitVbr field 6
      obtain ⟨hsize, hwidth⟩ := hwrites hrun
      refine ⟨?_, hwidth⟩
      rw [hsize, Selection.plainBits, Nat.add_assoc (Vbr.bitSize code 6)]

theorem spends_shareAll (block : UInt64) (shapes : List Abbrev) :
    Spends (shareAll block shapes) fun width =>
      if shapes.isEmpty then 0
      else width + Selection.plainBits [setBlockCode, block] + definitionsBits shapes width := by
  unfold shareAll
  split
  · exact Spends.pure ()
  · exact (spends_writePlain setBlockCode [block]).bind fun _ =>
      Spends.forM fun shape => spends_share block shape

theorem size_writeAbbreviated {writer next : Writer} {block : OpenBlock} {rest : List OpenBlock}
    {id code : UInt64} {fields : List UInt64} {shape : Abbrev}
    (hblocks : writer.blocks = block :: rest) (hshape : abbrevWithId? block.abbrevs id = some shape)
    (hacceptable : shape.isAcceptable)
    (hrun : writeAbbreviated id code fields writer = .ok () next) :
    next.size = shape.valuesEnd (code :: fields) (writer.size + writer.idWidth) := by
  obtain ⟨other, announced, hother, hencode, hid, hvalues⟩ := writeAbbreviated_eq_ok hblocks hrun
  obtain rfl := Option.some.inj (hshape.symm.trans hother)
  obtain ⟨changed, hwrite, rfl⟩ := onBits_eq_ok_iff.mp hvalues
  obtain ⟨hsize, -⟩ := spends_emitId id hid
  rw [← hsize]
  exact Abbrev.reaches_writeValues hacceptable hencode hwrite

theorem size_enterBlock {writer next : Writer} {id width : UInt64}
    (hrun : enterBlock id width writer = .ok () next) :
    next.size = enterEnd writer.idWidth id width writer.size := by
  obtain ⟨_, announced, hid, hrun⟩ := bind_eq_ok_iff.mp hrun
  obtain ⟨_, named, hname, hrun⟩ := bind_eq_ok_iff.mp hrun
  obtain ⟨_, sized, hsized, hrun⟩ := bind_eq_ok_iff.mp hrun
  obtain ⟨_, filled, halign, hrun⟩ := bind_eq_ok_iff.mp hrun
  rw [get_bind_apply] at hrun
  obtain ⟨_, measured, hzero, hrun⟩ := bind_eq_ok_iff.mp hrun
  obtain ⟨-, rfl⟩ := EStateM.Result.ok.inj hrun
  have hannounced := (spends_emitId _ hid).1
  have hnamed := (spends_emitVbr id 8 hname).1
  have hwide := (spends_emitVbr width 4 hsized).1
  have hmeasured := (spends_onBits ((Bits.Writer.appends_emit 0 32).adaptExcept _) hzero).1
  change measured.size = _
  rw [hmeasured, align_eq halign, size_padded, hwide, hnamed, hannounced, enterEnd]

theorem size_exitBlock {writer next : Writer} (hrun : exitBlock writer = .ok () next) :
    next.size = aligned (writer.size + writer.idWidth) := by
  rw [exitBlock, get_bind_apply] at hrun
  cases hblocks : writer.blocks with
  | nil =>
      rw [hblocks] at hrun
      exact absurd hrun (throw_ne_ok _ _ _ _)
  | cons block rest =>
      rw [hblocks] at hrun
      obtain ⟨_, announced, hid, hrun⟩ := bind_eq_ok_iff.mp hrun
      obtain ⟨_, filled, halign, hrun⟩ := bind_eq_ok_iff.mp hrun
      rw [modify_bind_apply, get_bind_apply] at hrun
      obtain ⟨changed, hpatch, rfl⟩ := onBits_eq_ok_iff.mp hrun
      rw [size, backpatch_eq (adaptExcept_eq_ok_iff.mp hpatch), size_patch]
      change filled.size = _
      rw [align_eq halign, size_padded, (spends_emitId _ hid).1]

theorem size_writeInfoBlock {writer next : Writer} {listed : List (UInt64 × List Abbrev)}
    (hrun : writeInfoBlock listed writer = .ok () next) :
    next.size = aligned (enterEnd writer.idWidth infoBlockId (UInt64.ofNat initialIdWidth)
      writer.size + listedBits listed initialIdWidth + initialIdWidth) := by
  obtain ⟨_, entered, henter, hrun⟩ := bind_eq_ok_iff.mp hrun
  obtain ⟨_, filled, hfill, hexit⟩ := bind_eq_ok_iff.mp hrun
  have hwidth : entered.idWidth = initialIdWidth := by
    obtain ⟨front, -, -, rfl, -⟩ := enter_answered henter
    rfl
  have hlisted : Spends (listed.forM fun entry => shareAll entry.1 entry.2)
      (listedBits listed) := by
    apply Spends.forM
    intro entry
    exact spends_shareAll entry.1 entry.2
  obtain ⟨hsize, hsame⟩ := hlisted hfill
  rw [size_exitBlock hexit, hsize, hsame, hwidth, size_enterBlock henter]

end Writer

end Bitstream

end Bitcode
