import Bitcode.Bitstream.Writer
import Bitcode.Proofs.Abbrev.Records
import Bitcode.Proofs.Bitstream.Steps

/-!
Steps of a writer and the answers of a reader. Whatever a writer adds to a stream in one step, a
reader in the same context takes in one step, and comes to the context of the writer after it.
-/

namespace Bitcode.Bitstream

open Format Bits

/-- The scope of a reader in a block that is being written. -/
def OpenBlock.scope (block : OpenBlock) : Scope :=
  { block := block.block, idWidth := block.idWidth, abbrevs := block.abbrevs }

/-- What is told of a block that ends after so many bits and whose length stands at a place: how many
words its body has, in a word of 32 bits. -/
def wordsTold (lengthAt size : Nat) : Nat :=
  (UInt32.ofNat ((size / 8 - lengthAt - 4) / 4)).toNat

namespace Writer

/-- How many bits have been written. -/
def size (writer : Writer) : Nat :=
  writer.bits.bits.size

/-- The writer with more bits. -/
def append (writer : Writer) (bits : List Bool) : Writer :=
  { writer with bits := { bits := writer.bits.bits ++ bits } }

/-- The context of a reader that has followed the writer. Inside block 0 it may have chosen a block
that definitions are for. -/
def context (writer : Writer) (target : Option UInt64 := none) : Context where
  scopes :=
    match writer.blocks with
    | [] => []
    | block :: rest => { block.scope with target } :: rest.map OpenBlock.scope
  shared := writer.shared

theorem size_append (writer : Writer) (bits : List Bool) :
    (writer.append bits).size = writer.size + bits.length :=
  size_append_list _ _

theorem append_append (writer : Writer) (first second : List Bool) :
    (writer.append first).append second = writer.append (first ++ second) := by
  simp only [append, append_list_assoc]

theorem idWidth_context (writer : Writer) (target : Option UInt64) :
    (writer.context target).idWidth = writer.idWidth := by
  unfold context Context.idWidth idWidth
  cases writer.blocks <;> rfl

theorem onBits_eq_ok_iff {α : Type} {writing : Writing α} {writer next : Writer} {value : α} :
    onBits writing writer = .ok value next ↔
      ∃ bits, writing writer.bits = .ok value bits ∧ next = { writer with bits } := by
  obtain ⟨bits, blocks, shared⟩ := writer
  simp only [onBits]
  cases writing bits with
  | ok result changed =>
      simp only [EStateM.Result.ok.injEq]
      constructor
      · rintro ⟨rfl, rfl⟩
        exact ⟨changed, ⟨rfl, rfl⟩, rfl⟩
      · rintro ⟨_, ⟨rfl, rfl⟩, rfl⟩
        exact ⟨rfl, rfl⟩
  | error cause changed => simp

theorem onBits_sends {ε α : Type} {writing : Writing Unit} {reading : EStateM ε Cursor α} {value : α}
    {writer next : Writer} (htransmits : Transmits writing reading value)
    (hrun : onBits writing writer = .ok () next) :
    ∃ bits, next = writer.append bits ∧
      ∀ bytes, Holds bytes writer.size bits →
        Reads reading bytes writer.size value (next.size) := by
  obtain ⟨changed, hwrite, rfl⟩ := onBits_eq_ok_iff.mp hrun
  obtain ⟨bits, hbits, hreads⟩ := htransmits _ _ hwrite
  have hnext : { writer with bits := changed } = writer.append bits := by
    rw [append, ← hbits]
  refine ⟨bits, hnext, ?_⟩
  rw [hnext, size_append]
  exact hreads

theorem field_sends {α : Type} {writing : Bits.Writing Unit} {reading : Bits.Reading α} {value : α}
    {writer next : Writer} (htransmits : Transmits writing reading value)
    (hrun : (liftM writing : Composing Unit) writer = .ok () next) :
    ∃ bits, next = writer.append bits ∧
      ∀ bytes, Holds bytes writer.size bits →
        Reads reading bytes writer.size value next.size := by
  refine onBits_sends ?_ hrun
  intro bits changed hwrite
  exact htransmits bits changed (adaptExcept_eq_ok_iff.mp hwrite)

theorem emitId_sends {id : UInt64} {writer next : Writer} (hrun : emitId id writer = .ok () next) :
    ∃ bits, next = writer.append bits ∧ 0 < bits.length ∧
      ∀ bytes, Holds bytes writer.size bits →
        Reads (Cursor.read writer.idWidth) bytes writer.size id next.size := by
  obtain ⟨bits, hnext, hreads⟩ := field_sends (Bits.Writer.transmits_emit id writer.idWidth) hrun
  refine ⟨bits, hnext, ?_, hreads⟩
  obtain ⟨changed, hwrite, hchanged⟩ := onBits_eq_ok_iff.mp hrun
  obtain ⟨⟨hpositive, -, -⟩, rfl⟩ :=
    Bits.Writer.emit_eq_ok_iff.mp (adaptExcept_eq_ok_iff.mp hwrite)
  have hsize : next.size = writer.size + writer.idWidth := by
    rw [hchanged]
    simp [size, Bits.Writer.append]
  rw [hnext, size_append] at hsize
  omega

theorem forM_onBits {α : Type} (items : List α) (writing : α → Writing Unit) (writer : Writer) :
    (items.forM fun item => onBits (writing item)) writer = onBits (items.forM writing) writer := by
  induction items generalizing writer with
  | nil => rfl
  | cons item rest ih =>
      obtain ⟨bits, blocks, shared⟩ := writer
      change EStateM.bind (onBits (writing item)) (fun _ => rest.forM fun item => onBits (writing item))
        ⟨bits, blocks, shared⟩ = onBits (EStateM.bind (writing item) fun _ => rest.forM writing) _
      simp only [EStateM.bind, onBits]
      cases writing item bits with
      | ok value changed => exact ih _
      | error cause changed => rfl

section Answers

variable {writer next : Writer} {block : OpenBlock} {rest : List OpenBlock}

theorem context_of_blocks (hblocks : writer.blocks = block :: rest) (target : Option UInt64) :
    writer.context target =
      ⟨{ block.scope with target } :: rest.map OpenBlock.scope, writer.shared⟩ := by
  rw [context, hblocks]

theorem context_none_scopes (writer : Writer) :
    writer.context = ⟨writer.blocks.map OpenBlock.scope, writer.shared⟩ := by
  unfold context
  cases writer.blocks <;> rfl

theorem idWidth_of_blocks (hblocks : writer.blocks = block :: rest) :
    writer.idWidth = block.idWidth := by
  rw [idWidth, hblocks]

theorem emitId_sends_inside {id : UInt64} (hblocks : writer.blocks = block :: rest)
    (hrun : emitId id writer = .ok () next) :
    ∃ bits, next = writer.append bits ∧ 0 < bits.length ∧
      ∀ bytes, Holds bytes writer.size bits →
        Reads (Cursor.read block.idWidth) bytes writer.size id next.size := by
  have hsends := emitId_sends hrun
  rwa [idWidth_of_blocks hblocks] at hsends

theorem define_answered {shape : Abbrev} {id : Nat} (hshape : shape.isAcceptable)
    (hlength : shape.operators.length < 2 ^ 64) (hblocks : writer.blocks = block :: rest)
    (hblock : block.block ≠ infoBlockId) (hrun : define shape writer = .ok id next) :
    ∃ bits, 0 < bits.length ∧
      next = { writer.append bits with
        blocks := { block with abbrevs := block.abbrevs ++ [shape] } :: rest } ∧
      ∀ bytes, Holds bytes writer.size bits →
        Parses Reader.step bytes writer.size writer.context
          (some (.definition block.block shape true)) next.size next.context := by
  rw [define, get_bind_apply, hblocks] at hrun
  obtain ⟨_, announced, hid, hrun⟩ := bind_eq_ok_iff.mp hrun
  obtain ⟨idBits, rfl, hpositive, hidReads⟩ := emitId_sends_inside hblocks hid
  obtain ⟨_, written, hshapeRun, hrun⟩ := bind_eq_ok_iff.mp hrun
  obtain ⟨shapeBits, rfl, hshapeReads⟩ :=
    onBits_sends (Abbrev.transmits_write hshape hlength) hshapeRun
  rw [modify_bind_apply] at hrun
  obtain ⟨-, rfl⟩ := EStateM.Result.ok.inj hrun
  refine ⟨idBits ++ shapeBits, by simp; omega, by rw [append_append], ?_⟩
  intro bytes hholds
  obtain ⟨hholdsId, hholdsShape⟩ := holds_append.mp hholds
  rw [← size_append] at hholdsShape
  rw [context_of_blocks hblocks]
  exact Reader.parses_define (decide_eq_false hblock) (hidReads bytes hholdsId)
    (hshapeReads bytes hholdsShape)

theorem share_answered {shape : Abbrev} {target : UInt64} (hshape : shape.isAcceptable)
    (hlength : shape.operators.length < 2 ^ 64) (hblocks : writer.blocks = block :: rest)
    (hblock : block.block = infoBlockId) (hrun : share target shape writer = .ok () next) :
    ∃ bits, 0 < bits.length ∧
      next = { writer.append bits with shared := writer.shared.add target shape } ∧
      ∀ bytes, Holds bytes writer.size bits →
        Parses Reader.step bytes writer.size (writer.context (some target))
          (some (.definition target shape false)) next.size (next.context (some target)) := by
  rw [share] at hrun
  obtain ⟨_, announced, hid, hrun⟩ := bind_eq_ok_iff.mp hrun
  obtain ⟨idBits, rfl, hpositive, hidReads⟩ := emitId_sends_inside hblocks hid
  obtain ⟨_, written, hshapeRun, hrun⟩ := bind_eq_ok_iff.mp hrun
  obtain ⟨shapeBits, rfl, hshapeReads⟩ :=
    onBits_sends (Abbrev.transmits_write hshape hlength) hshapeRun
  obtain ⟨-, hnext⟩ := EStateM.Result.ok.inj hrun
  have hafter : next.blocks = block :: rest := by rw [← hnext]; exact hblocks
  have hsize : next.size = ((writer.append idBits).append shapeBits).size := by rw [← hnext]; rfl
  have hshared : next.shared = writer.shared.add target shape := by rw [← hnext]; rfl
  refine ⟨idBits ++ shapeBits, by simp; omega, by rw [append_append] at hnext; exact hnext.symm, ?_⟩
  intro bytes hholds
  obtain ⟨hholdsId, hholdsShape⟩ := holds_append.mp hholds
  rw [← size_append] at hholdsShape
  rw [context_of_blocks hblocks, context_of_blocks hafter, hsize, hshared]
  exact Reader.parses_share (decide_eq_true hblock) rfl (hidReads bytes hholdsId)
    (hshapeReads bytes hholdsShape)

theorem writePlain_sends {code : UInt64} {fields : List UInt64}
    (hblocks : writer.blocks = block :: rest) (hrun : writePlain code fields writer = .ok () next) :
    ∃ bits, 0 < bits.length ∧ next = writer.append bits ∧
      ∀ bytes, Holds bytes writer.size bits → ∃ first second third,
        Reads (Cursor.read block.idWidth) bytes writer.size ReservedId.plainRecord.code first ∧
        Reads (Cursor.readVbr 6) bytes first code second ∧
        Reads (Cursor.readVbr 6) bytes second (UInt64.ofNat fields.length) third ∧
        Reads (Abbrev.readMany (liftM (Cursor.readVbr 6)) fields.length []) bytes third fields
          next.size := by
  rw [writePlain, get_bind_apply, hblocks] at hrun
  obtain ⟨_, announced, hid, hrun⟩ := bind_eq_ok_iff.mp hrun
  obtain ⟨idBits, rfl, hpositive, hidReads⟩ := emitId_sends_inside hblocks hid
  obtain ⟨_, coded, hcode, hrun⟩ := bind_eq_ok_iff.mp hrun
  obtain ⟨codeBits, rfl, hcodeReads⟩ := field_sends (transmits_emitVbr code 6) hcode
  obtain ⟨_, counted, hcount, hrun⟩ := bind_eq_ok_iff.mp hrun
  obtain ⟨countBits, rfl, hcountReads⟩ := field_sends (transmits_emitVbr _ 6) hcount
  have hall : onBits (fields.forM fun field => liftM (Bits.Writer.emitVbr field 6))
      (((writer.append idBits).append codeBits).append countBits) = .ok () next := by
    rw [← forM_onBits]
    exact hrun
  obtain ⟨fieldBits, rfl, hfieldReads⟩ :=
    onBits_sends (Abbrev.transmits_readMany fields [] fun field _ => transmits_vbr field 6) hall
  refine ⟨((idBits ++ codeBits) ++ countBits) ++ fieldBits, by simp; omega,
    by simp only [append_append], ?_⟩
  intro bytes hholds
  obtain ⟨hholds, hholdsFields⟩ := holds_append.mp hholds
  obtain ⟨hholds, hholdsCount⟩ := holds_append.mp hholds
  obtain ⟨hholdsId, hholdsCode⟩ := holds_append.mp hholds
  simp only [append_append, size_append] at hcodeReads hcountReads hfieldReads hidReads ⊢
  exact ⟨_, _, _, hidReads bytes hholdsId, hcodeReads bytes hholdsCode,
    hcountReads bytes hholdsCount, hfieldReads bytes hholdsFields⟩

theorem plain_answered {code : UInt64} {fields : List UInt64} (hlength : fields.length < 2 ^ 64)
    (hblocks : writer.blocks = block :: rest) (hblock : block.block ≠ infoBlockId)
    (hrun : writePlain code fields writer = .ok () next) :
    ∃ bits, 0 < bits.length ∧ next = writer.append bits ∧
      ∀ bytes, Holds bytes writer.size bits →
        Parses Reader.step bytes writer.size writer.context
          (some (.record { id := none, code, fields, bits := next.size - writer.size })) next.size
          next.context := by
  obtain ⟨bits, hpositive, rfl, hsends⟩ := writePlain_sends hblocks hrun
  refine ⟨bits, hpositive, rfl, ?_⟩
  intro bytes hholds
  obtain ⟨first, second, third, hid, hcode, hcount, hfields⟩ := hsends bytes hholds
  have hafter : (writer.append bits).blocks = block :: rest := hblocks
  rw [context_of_blocks hblocks, context_of_blocks hafter]
  exact Reader.parses_plainRecord (decide_eq_false hblock) hlength hid hcode hcount hfields

theorem setBlock_answered {target : UInt64} (before : Option UInt64)
    (hblocks : writer.blocks = block :: rest) (hblock : block.block = infoBlockId)
    (hrun : writePlain setBlockCode [target] writer = .ok () next) :
    ∃ bits, 0 < bits.length ∧ next = writer.append bits ∧
      ∀ bytes, Holds bytes writer.size bits →
        Parses Reader.step bytes writer.size (writer.context before) none next.size
          (next.context (some target)) := by
  obtain ⟨bits, hpositive, rfl, hsends⟩ := writePlain_sends hblocks hrun
  refine ⟨bits, hpositive, rfl, ?_⟩
  intro bytes hholds
  obtain ⟨first, second, third, hid, hcode, hcount, hfields⟩ := hsends bytes hholds
  have hafter : (writer.append bits).blocks = block :: rest := hblocks
  rw [context_of_blocks hblocks, context_of_blocks hafter]
  exact Reader.parses_setBlock (decide_eq_true hblock) hid hcode hcount hfields

theorem writeAbbreviated_eq_ok {id code : UInt64} {fields : List UInt64}
    (hblocks : writer.blocks = block :: rest)
    (hrun : writeAbbreviated id code fields writer = .ok () next) :
    ∃ shape announced, abbrevWithId? block.abbrevs id = some shape ∧
      shape.canEncode (code :: fields) ∧ emitId id writer = .ok () announced ∧
      onBits (shape.writeValues (code :: fields)) announced = .ok () next := by
  rw [writeAbbreviated, get_bind_apply, hblocks] at hrun
  cases hshape : abbrevWithId? block.abbrevs id with
  | none =>
      simp only [hshape] at hrun
      exact absurd hrun (throw_ne_ok _ _ _ _)
  | some shape =>
      cases hencode : shape.canEncode (code :: fields) with
      | false =>
          simp only [hshape, hencode] at hrun
          obtain ⟨_, _, hfail, _⟩ := bind_eq_ok_iff.mp hrun
          exact absurd hfail (throw_ne_ok _ _ _ _)
      | true =>
          simp only [hshape, hencode] at hrun
          obtain ⟨_, announced, hid, hrun⟩ := bind_eq_ok_iff.mp hrun
          exact ⟨shape, announced, rfl, hencode, hid, hrun⟩

theorem abbreviated_answered {id code : UInt64} {fields : List UInt64}
    (hlength : fields.length + 1 < 2 ^ 64) (hblocks : writer.blocks = block :: rest)
    (hblock : block.block ≠ infoBlockId) (hshapes : ∀ shape ∈ block.abbrevs, shape.isAcceptable)
    (hrun : writeAbbreviated id code fields writer = .ok () next) :
    ∃ bits, 0 < bits.length ∧ next = writer.append bits ∧
      ∀ bytes, Holds bytes writer.size bits →
        Parses Reader.step bytes writer.size writer.context
          (some (.record { id := some id, code, fields, bits := next.size - writer.size }))
          next.size next.context := by
  obtain ⟨shape, announced, hshape, -, hid, hvalues⟩ := writeAbbreviated_eq_ok hblocks hrun
  have hacceptable : shape.isAcceptable := hshapes shape (mem_of_abbrevWithId? hshape)
  obtain ⟨idBits, rfl, hpositive, hidReads⟩ := emitId_sends_inside hblocks hid
  obtain ⟨valueBits, rfl, hvalueReads⟩ := onBits_sends
    (Abbrev.transmits_writeValues hacceptable (code :: fields) hlength) hvalues
  refine ⟨idBits ++ valueBits, by simp; omega, by rw [append_append], ?_⟩
  intro bytes hholds
  obtain ⟨hholdsId, hholdsValues⟩ := holds_append.mp hholds
  rw [← size_append] at hholdsValues
  have hafter : ((writer.append idBits).append valueBits).blocks = block :: rest := hblocks
  rw [context_of_blocks hblocks, context_of_blocks hafter]
  exact Reader.parses_abbreviatedRecord (decide_eq_false hblock) hshape
    (hidReads bytes hholdsId) (hvalueReads bytes hholdsValues)

theorem backpatch_eq {byte : Nat} {word : UInt32} {bits changed : Bits.Writer}
    (hrun : Bits.Writer.backpatch byte word bits = .ok () changed) :
    changed = ⟨Bits.Writer.patch bits.bits (8 * byte) (lowBits word.toNat 32)⟩ := by
  unfold Bits.Writer.backpatch at hrun
  split at hrun
  · simp at hrun
  · exact (EStateM.Result.ok.inj hrun).2.symm

/-- The writer with the last word filled up. -/
def padded (writer : Writer) : Writer :=
  writer.append (lowBits 0 ((32 - writer.size % 32) % 32))

theorem align_eq (hrun : onBits (modify Bits.Writer.align32) writer = .ok () next) :
    next = writer.padded :=
  (EStateM.Result.ok.inj hrun).2.symm

theorem size_padded (writer : Writer) : writer.padded.size = Reader.aligned writer.size := by
  rw [padded, size_append, lowBits_length, Reader.aligned]

theorem exists_padding (writer : Writer) (bits : List Bool) :
    ∃ padding, (writer.append bits).padded = writer.append (bits ++ padding) ∧
      writer.size + (bits ++ padding).length = Reader.aligned (writer.append bits).size ∧
      (writer.size + (bits ++ padding).length) % 32 = 0 ∧
      (writer.append (bits ++ padding)).bits.bytePosition =
        (writer.size + (bits ++ padding).length) / 8 := by
  obtain ⟨padding, hpadded⟩ :
      ∃ padding, (writer.append bits).padded = writer.append (bits ++ padding) :=
    ⟨_, append_append writer bits _⟩
  have hsize : writer.size + (bits ++ padding).length =
      Reader.aligned (writer.append bits).size := by
    rw [← size_append, ← hpadded, size_padded]
  have hmod := Reader.aligned_mod (writer.append bits).size
  refine ⟨padding, hpadded, hsize, by omega, ?_⟩
  change 4 * ((writer.append (bits ++ padding)).size / 32) = _
  rw [size_append]
  omega

/-- The writer after the start of a block, whose length is still to be filled in. -/
def entered (writer : Writer) (front : List Bool) (id width : UInt64) : Writer :=
  { writer.append (front ++ lowBits 0 32) with
    blocks := ⟨id, width.toNat, (writer.size + front.length) / 8, writer.shared.forBlock id⟩ ::
      writer.blocks }

/-- The start of a block is read with whatever length stands there in the end, unless its ids are too
wide. -/
theorem enter_answered {id width : UInt64} (hrun : enterBlock id width writer = .ok () next) :
    ∃ front, 0 < front.length ∧ (writer.size + front.length) % 32 = 0 ∧
      next = writer.entered front id width ∧
      ∀ bytes, next.size ≤ 8 * bytes.size → Holds bytes writer.size front →
        (1 ≤ width ∧ width ≤ 32 →
          Parses Reader.step bytes writer.size writer.context
            (if id = infoBlockId then none
              else some (.block id (4 * fieldAt bytes (writer.size + front.length) 32)))
            next.size next.context) ∧
        (32 < width →
          Rejects Reader.step bytes writer.size writer.context
            (.scope (.badIdWidth id width))) := by
  obtain ⟨_, announced, hid, hrun⟩ := bind_eq_ok_iff.mp hrun
  obtain ⟨idBits, rfl, hpositive, hidReads⟩ := emitId_sends hid
  obtain ⟨_, named, hname, hrun⟩ := bind_eq_ok_iff.mp hrun
  obtain ⟨nameBits, rfl, hnameReads⟩ := field_sends (transmits_emitVbr id 8) hname
  obtain ⟨_, sized, hsized, hrun⟩ := bind_eq_ok_iff.mp hrun
  obtain ⟨widthBits, rfl, hwidthReads⟩ := field_sends (transmits_emitVbr width 4) hsized
  obtain ⟨_, aligned, halign, hrun⟩ := bind_eq_ok_iff.mp hrun
  have haligned := align_eq halign
  subst haligned
  rw [get_bind_apply] at hrun
  obtain ⟨_, measured, hzero, hrun⟩ := bind_eq_ok_iff.mp hrun
  obtain ⟨changed, hemit, rfl⟩ := onBits_eq_ok_iff.mp hzero
  obtain ⟨-, rfl⟩ := Bits.Writer.emit_eq_ok_iff.mp (adaptExcept_eq_ok_iff.mp hemit)
  obtain ⟨-, hnext⟩ := EStateM.Result.ok.inj hrun
  let fields := (idBits ++ nameBits) ++ widthBits
  have hfields : ((writer.append idBits).append nameBits).append widthBits =
      writer.append fields := by
    simp only [append_append, fields]
  obtain ⟨padding, hpadded, hsize, hmod, hlengthAt⟩ := exists_padding writer fields
  have hnextSize : next.size = Reader.aligned (writer.append fields).size + 32 := by
    rw [← hnext, hfields, hpadded, ← hsize, ← size_append, ← lowBits_length 0 32, ← size_append]
    rfl
  refine ⟨fields ++ padding, by simp [fields]; omega, hmod, ?_, ?_⟩
  · rw [entered, ← append_append, ← hnext, hfields, hpadded, ← hlengthAt]
    rfl
  · intro bytes hinside hholds
    obtain ⟨hholds, -⟩ := holds_append.mp hholds
    obtain ⟨hholds, hholdsWidth⟩ := holds_append.mp hholds
    obtain ⟨hholdsId, hholdsName⟩ := holds_append.mp hholds
    simp only [append_append, size_append] at hidReads hnameReads hwidthReads
    have hstop : writer.size + (idBits ++ nameBits ++ widthBits).length =
        (writer.append fields).size := (size_append _ _).symm
    rw [hstop] at hwidthReads
    have hafter : next.context = { writer.context with
        scopes := ⟨id, width.toNat, writer.context.shared.forBlock id, none⟩ ::
          writer.context.scopes } := by
      rw [← hnext, context_none_scopes, context_none_scopes]
      rfl
    rw [hafter, hnextSize, hsize]
    rw [hnextSize] at hinside
    rw [← idWidth_context writer none] at hidReads
    exact ⟨fun hwidth => Reader.parses_enterBlock (hidReads bytes hholdsId)
        (hnameReads bytes hholdsName) (hwidthReads bytes hholdsWidth) hwidth hinside,
      fun hwide => Reader.rejects_enterBlock (hidReads bytes hholdsId)
        (hnameReads bytes hholdsName) (hwidthReads bytes hholdsWidth) (.inr hwide)⟩

theorem exit_answered (target : Option UInt64) (hblocks : writer.blocks = block :: rest)
    (hrun : exitBlock writer = .ok () next) :
    ∃ bits, 0 < bits.length ∧ (writer.size + bits.length) % 32 = 0 ∧
      next = ⟨⟨Bits.Writer.patch (writer.append bits).bits.bits (8 * block.lengthAt)
          (lowBits (wordsTold block.lengthAt (writer.size + bits.length)) 32)⟩, rest, writer.shared⟩ ∧
      ∀ bytes, Holds bytes writer.size bits →
        Parses Reader.step bytes writer.size (writer.context target)
          (if block.block = infoBlockId then none else some .endBlock) next.size
          next.context := by
  rw [exitBlock, get_bind_apply, hblocks] at hrun
  obtain ⟨_, announced, hid, hrun⟩ := bind_eq_ok_iff.mp hrun
  obtain ⟨idBits, rfl, hpositive, hidReads⟩ := emitId_sends_inside hblocks hid
  obtain ⟨_, aligned, halign, hrun⟩ := bind_eq_ok_iff.mp hrun
  have haligned := align_eq halign
  subst haligned
  rw [modify_bind_apply, get_bind_apply] at hrun
  obtain ⟨changed, hpatch, hnext⟩ := onBits_eq_ok_iff.mp hrun
  have hchanged := backpatch_eq (adaptExcept_eq_ok_iff.mp hpatch)
  obtain ⟨padding, hpadded, hsize, hmod, hposition⟩ := exists_padding writer idBits
  have hresult : next = ⟨⟨Bits.Writer.patch (writer.append (idBits ++ padding)).bits.bits
      (8 * block.lengthAt)
        (lowBits (wordsTold block.lengthAt (writer.size + (idBits ++ padding).length)) 32)⟩,
      rest, writer.shared⟩ := by
    rw [hnext, hchanged, hpadded, hposition]
    rfl
  refine ⟨idBits ++ padding, by simp; omega, hmod, hresult, ?_⟩
  intro bytes hholds
  obtain ⟨hholdsId, -⟩ := holds_append.mp hholds
  have hnextSize : next.size = Reader.aligned (writer.append idBits).size := by
    rw [hresult, ← hsize, ← size_append, size, size_patch, size]
  have hafter : next.context = ⟨rest.map OpenBlock.scope, writer.shared⟩ := by
    rw [context_none_scopes, hresult]
  rw [context_of_blocks hblocks, hnextSize, hafter]
  have hentry : (if block.block = infoBlockId then none else some Entry.endBlock) =
      if ({ block.scope with target } : Scope).isInfo then none else some Entry.endBlock := by
    by_cases hinfo : block.block = infoBlockId
    · simp [Scope.isInfo, OpenBlock.scope, hinfo]
    · simp [Scope.isInfo, OpenBlock.scope, hinfo]
  rw [hentry]
  exact Reader.parses_exitBlock (hidReads bytes hholdsId)

end Answers

end Writer

end Bitcode.Bitstream
