import Bitcode.Proofs.Bitstream.Operations
import Bitcode.Proofs.Bitstream.Sizes

namespace Bitcode.Bitstream

open Format Bits

/-- A computation that succeeds in a state. -/
def SucceedsAt {ε σ α : Type} (computation : EStateM ε σ α) (state : σ) : Prop :=
  ∃ value next, computation state = .ok value next

theorem SucceedsAt.bind {ε σ α β : Type} {first : EStateM ε σ α} {second : α → EStateM ε σ β}
    {state : σ} (hfirst : SucceedsAt first state)
    (hsecond : ∀ value next, first state = .ok value next → SucceedsAt (second value) next) :
    SucceedsAt (first >>= second) state := by
  obtain ⟨value, next, hrun⟩ := hfirst
  obtain ⟨result, final, hfinal⟩ := hsecond value next hrun
  exact ⟨result, final, bind_eq_ok_iff.mpr ⟨value, next, hrun, hfinal⟩⟩

theorem succeeds_onBits {α : Type} {writing : Writing α} (hwriting : Succeeds writing) :
    Succeeds (onBits writing) := by
  intro writer
  obtain ⟨value, bits, hrun⟩ := hwriting writer.bits
  exact ⟨value, { writer with bits }, Writer.onBits_eq_ok_iff.mpr ⟨bits, hrun, rfl⟩⟩

theorem succeeds_composeVbr (value : UInt64) {width : Nat} (hwidth : Vbr.ValidWidth width) :
    Succeeds (liftM (Bits.Writer.emitVbr value width) : Composing Unit) :=
  succeeds_onBits (succeeds_vbr value hwidth)

namespace Writer

open Operation

/-- Abbreviation ids of the width can be written, and the reserved ones fit. -/
def RoomForIds (width : Nat) : Prop :=
  initialIdWidth ≤ width ∧ width < 64

section Success

variable {writer : Writer} {block : OpenBlock} {rest : List OpenBlock}

theorem emitId_succeeds {id : UInt64} (hwidth : RoomForIds writer.idWidth)
    (hid : id.toNat < 2 ^ writer.idWidth) : SucceedsAt (emitId id) writer := by
  have hpositive : 0 < writer.idWidth := Nat.lt_of_lt_of_le (by decide) hwidth.1
  exact succeeds_onBits (succeeds_field hpositive hwidth.2 hid) writer

theorem reserved_succeeds (hwidth : RoomForIds writer.idWidth) (id : ReservedId) :
    SucceedsAt (emitId id.code) writer := by
  have hroom : 2 ^ initialIdWidth ≤ 2 ^ writer.idWidth :=
    Nat.pow_le_pow_right (by decide) hwidth.1
  have hid : id.code.toNat < 2 ^ initialIdWidth := by cases id <;> decide
  exact emitId_succeeds hwidth (by omega)

theorem enterBlock_succeeds (id width : UInt64)
    (hid : SucceedsAt (emitId ReservedId.enterBlock.code) writer) :
    SucceedsAt (enterBlock id width) writer := by
  refine hid.bind fun _ announced _ => ?_
  refine ((succeeds_composeVbr id (by decide)).bind fun _ => ?_) announced
  refine (succeeds_composeVbr width (by decide)).bind fun _ => ?_
  refine (succeeds_onBits (Succeeds.modify Bits.Writer.align32)).bind fun _ => ?_
  refine Succeeds.bind (fun state => ⟨state, state, rfl⟩) fun _ => ?_
  refine (succeeds_onBits (succeeds_field (by decide) (by decide) (by decide))).bind fun _ => ?_
  exact Succeeds.modify _

theorem define_succeeds (shape : Abbrev) (hblocks : writer.blocks = block :: rest)
    (hid : SucceedsAt (emitId ReservedId.defineAbbrev.code) writer) :
    SucceedsAt (define shape) writer := by
  rw [SucceedsAt, define, get_bind_apply, hblocks]
  refine hid.bind fun _ announced _ => ?_
  refine ((succeeds_onBits (Abbrev.succeeds_write shape)).bind fun _ => ?_) announced
  exact (Succeeds.modify _).bind fun _ => Succeeds.pure _

theorem writePlain_succeeds (code : UInt64) (fields : List UInt64)
    (hblocks : writer.blocks = block :: rest)
    (hid : SucceedsAt (emitId ReservedId.plainRecord.code) writer) :
    SucceedsAt (writePlain code fields) writer := by
  rw [SucceedsAt, writePlain, get_bind_apply, hblocks]
  refine hid.bind fun _ announced _ => ?_
  refine ((succeeds_composeVbr code (by decide)).bind fun _ => ?_) announced
  refine (succeeds_composeVbr _ (by decide)).bind fun _ => ?_
  exact Succeeds.forM fun field _ => succeeds_composeVbr field (by decide)

theorem writeAbbreviated_succeeds {id code : UInt64} {fields : List UInt64} {shape : Abbrev}
    (hblocks : writer.blocks = block :: rest) (hshape : abbrevWithId? block.abbrevs id = some shape)
    (hacceptable : shape.isAcceptable) (hencode : shape.canEncode (code :: fields))
    (hid : SucceedsAt (emitId id) writer) : SucceedsAt (writeAbbreviated id code fields) writer := by
  rw [SucceedsAt, writeAbbreviated, get_bind_apply, hblocks]
  simp only [hshape, hencode]
  refine hid.bind fun _ announced _ => ?_
  exact succeeds_onBits (Abbrev.succeeds_writeValues hacceptable hencode) announced

theorem backpatch_succeeds {byte : Nat} (word : UInt32) {bits : Bits.Writer} (hbyte : byte % 4 = 0)
    (hinside : byte + 4 ≤ bits.bytePosition) :
    ∃ changed, Bits.Writer.backpatch byte word bits = .ok () changed := by
  have hvalid : ¬ (byte % 4 ≠ 0 ∨ bits.bytePosition < byte + 4) := by omega
  rw [Bits.Writer.backpatch, if_neg hvalid]
  exact ⟨_, rfl⟩

theorem exitBlock_succeeds (hblocks : writer.blocks = block :: rest)
    (hword : block.lengthAt % 4 = 0) (hinside : 8 * block.lengthAt + 32 ≤ writer.size)
    (hid : SucceedsAt (emitId ReservedId.endBlock.code) writer) :
    SucceedsAt exitBlock writer := by
  rw [SucceedsAt, exitBlock, get_bind_apply, hblocks]
  refine hid.bind fun _ announced hannounced => ?_
  obtain ⟨bits, rfl, -, -⟩ := emitId_sends hannounced
  refine SucceedsAt.bind (succeeds_onBits (Succeeds.modify Bits.Writer.align32) _)
    fun _ aligned haligned => ?_
  have hpadded := align_eq haligned
  subst hpadded
  have hsize := size_append writer bits
  have hle := Reader.le_aligned (writer.append bits).size
  rw [← size_padded] at hle
  -- The word for the length lies before the end of the block, and so among the complete words.
  have hposition : block.lengthAt + 4 ≤ (writer.append bits).padded.bits.bytePosition := by
    change _ ≤ 4 * ((writer.append bits).padded.size / 32)
    omega
  obtain ⟨changed, hpatch⟩ := backpatch_succeeds
    (UInt32.ofNat (((writer.append bits).padded.bits.bytePosition - block.lengthAt - 4) / 4))
    hword hposition
  rw [SucceedsAt, modify_bind_apply, get_bind_apply]
  exact ⟨(), _, onBits_eq_ok_iff.mpr ⟨changed, adaptExcept_eq_ok_iff.mpr hpatch, rfl⟩⟩

end Success

section Sharing

variable {blocks : List OpenBlock} {first second : Composing Unit}
  {added more : List (UInt64 × Abbrev)}

/-- Inside the blocks the computation succeeds. It leaves them open and shares definitions. -/
def Shares (blocks : List OpenBlock) (composing : Composing Unit)
    (added : List (UInt64 × Abbrev)) : Prop :=
  ∀ writer : Writer, writer.blocks = blocks → ∃ next, composing writer = .ok () next ∧
    next.blocks = blocks ∧ next.shared.definitions = writer.shared.definitions ++ added ∧
      writer.size ≤ next.size

theorem Shares.bind (hfirst : Shares blocks first added) (hsecond : Shares blocks second more) :
    Shares blocks (first >>= fun _ => second) (added ++ more) := by
  intro writer hblocks
  obtain ⟨middle, hmiddle, hinside, hadded, hgrows⟩ := hfirst writer hblocks
  obtain ⟨next, hnext, hsame, hmore, hlast⟩ := hsecond middle hinside
  refine ⟨next, bind_eq_ok_iff.mpr ⟨(), middle, hmiddle, hnext⟩, hsame, ?_, by omega⟩
  rw [hmore, hadded, List.append_assoc]

theorem Shares.forM {α : Type} {action : α → Composing PUnit} {adds : α → List (UInt64 × Abbrev)}
    (haction : ∀ item, Shares blocks (action item) (adds item)) (items : List α) :
    Shares blocks (items.forM action) (items.flatMap adds) := by
  induction items with
  | nil => exact fun writer hblocks => ⟨writer, rfl, hblocks, by simp, Nat.le_refl _⟩
  | cons item items ih => exact (haction item).bind ih

variable {block : OpenBlock} {rest : List OpenBlock}

theorem shares_share (target : UInt64) (shape : Abbrev) (hwidth : RoomForIds block.idWidth) :
    Shares (block :: rest) (share target shape) [(target, shape)] := by
  intro writer hblocks
  rw [← idWidth_of_blocks hblocks] at hwidth
  obtain ⟨_, announced, hid⟩ := reserved_succeeds hwidth .defineAbbrev
  obtain ⟨_, written, hshape⟩ := succeeds_onBits (Abbrev.succeeds_write shape) announced
  have hrun : share target shape writer =
      .ok () { written with shared := written.shared.add target shape } :=
    bind_eq_ok_iff.mpr ⟨(), announced, hid, bind_eq_ok_iff.mpr ⟨(), written, hshape, rfl⟩⟩
  obtain ⟨hsize, -⟩ := spends_share target shape hrun
  obtain ⟨bits, rfl, -, -⟩ := emitId_sends hid
  obtain ⟨changed, -, rfl⟩ := onBits_eq_ok_iff.mp hshape
  exact ⟨_, hrun, hblocks, rfl, hsize ▸ Nat.le_add_right _ _⟩

theorem shares_shareAll (target : UInt64) (shapes : List Abbrev)
    (hwidth : RoomForIds block.idWidth) :
    Shares (block :: rest) (shareAll target shapes) (shapes.map (target, ·)) := by
  have hplain : Shares (block :: rest) (writePlain setBlockCode [target]) [] := by
    intro writer hblocks
    obtain ⟨_, next, hrun⟩ := writePlain_succeeds setBlockCode [target] hblocks
      (reserved_succeeds (idWidth_of_blocks hblocks ▸ hwidth) .plainRecord)
    obtain ⟨bits, -, rfl, -⟩ := writePlain_sends hblocks hrun
    exact ⟨_, hrun, hblocks, (List.append_nil _).symm, by simp [size_append]⟩
  cases shapes with
  | nil => exact fun writer hblocks => ⟨writer, rfl, hblocks, by simp, Nat.le_refl _⟩
  | cons shape shapes =>
      rw [List.map_eq_flatMap]
      exact hplain.bind (Shares.forM (fun shape => shares_share target shape hwidth) _)

/-- Block 0 can be written wherever its id can, and it shares exactly what is listed. -/
theorem writeInfoBlock_succeeds {writer : Writer} (listed : List (UInt64 × List Abbrev))
    (hid : SucceedsAt (emitId ReservedId.enterBlock.code) writer) :
    ∃ next, writeInfoBlock listed writer = .ok () next ∧ next.blocks = writer.blocks ∧
      next.shared.definitions = writer.shared.definitions ++ definitions listed ∧
      writer.size ≤ next.size := by
  obtain ⟨_, inside, henter⟩ :=
    enterBlock_succeeds infoBlockId (UInt64.ofNat initialIdWidth) hid
  obtain ⟨front, -, hmod, hinside, -⟩ := enter_answered henter
  have hwidth : RoomForIds (UInt64.ofNat initialIdWidth).toNat := ⟨by decide, by decide⟩
  have hsize : inside.size = writer.size + front.length + 32 := by rw [hinside, size_entered]
  obtain ⟨full, hfull, hsame, hdefinitions, hgrows⟩ := Shares.forM
    (fun entry : UInt64 × List Abbrev => shares_shareAll entry.1 entry.2 hwidth) listed inside
    (by rw [hinside]; rfl)
  obtain ⟨_, next, hexit⟩ := exitBlock_succeeds hsame (by dsimp only; omega)
    (by dsimp only; omega) (reserved_succeeds (idWidth_of_blocks hsame ▸ hwidth) .endBlock)
  obtain ⟨bits, -, -, hnext, -⟩ := exit_answered none hsame hexit
  refine ⟨next, ?_, by rw [hnext], ?_, ?_⟩
  · exact bind_eq_ok_iff.mpr ⟨(), inside, henter, bind_eq_ok_iff.mpr ⟨(), full, hfull, hexit⟩⟩
  · rw [hnext, hdefinitions, hinside]
    rfl
  · have hlast : next.size = full.size + bits.length := by
      rw [hnext, size, size_patch, ← size_append]
      rfl
    omega

end Sharing

end Writer

end Bitcode.Bitstream
