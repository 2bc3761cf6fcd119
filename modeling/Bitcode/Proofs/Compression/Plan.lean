import Bitcode.Proofs.Bitstream.Success
import Bitcode.Proofs.Bitstream.Wording
import Bitcode.Proofs.Selection.Queues
import Bitcode.Proofs.Widths

/-!
Writing blocks and records by a plan: which abbreviations each block id keeps, and which abbreviation
id each record gets. A plan whose ids fit and whose abbreviations can encode their records is carried
out without a failure, and the operations that carry it out word the tree as the plan says.
-/

namespace Bitcode.Compression

open Format Bitstream
open Bitstream.Writer (RoomForIds)

/-- The abbreviations that every block id keeps, and the abbreviation ids of records. -/
structure Plan where
  kept : UInt64 → List Abbrev
  pick : UInt64 → List UInt64 → Nat

namespace Plan

/-- Write everything without abbreviations. -/
def plain : Plan :=
  { kept := fun _ => [], pick := fun _ _ => plainRow }

/-- The width of abbreviation ids in the blocks with an id. -/
def width (plan : Plan) (block : UInt64) : Nat :=
  idWidthFor (plan.kept block).length

/-- What block 0 has for a block id. The module defines its abbreviations itself. -/
def offered (plan : Plan) (block : UInt64) : List Abbrev :=
  if block = moduleBlockId then [] else plan.kept block

/-- The blocks with an id, with the abbreviations that they see. -/
def place (plan : Plan) (block : UInt64) : Place :=
  { block, abbrevs := plan.kept block }

/-- The abbreviation id of a record, if it is not written plainly. -/
def id? (plan : Plan) (block : UInt64) (values : List UInt64) : Option UInt64 :=
  if plan.pick block values = plainRow then none else some (UInt64.ofNat (plan.pick block values))

/-- How the plan words what stands in a tree. -/
def wording (plan : Plan) : Tree.Mark → Wording
  | .enter id => .enter id
  | .exit id => .exit (plan.place id)
  | .record owner item =>
      .record (plan.place owner) (plan.id? owner item.values) item.code item.fields

theorem content_wording (plan : Plan) (mark : Tree.Mark) :
    (plan.wording mark).content = mark.content := by
  cases mark <;> rfl

/-- The record of a block is written plainly, or with an abbreviation that can encode it. -/
def Encodes (plan : Plan) (block : UInt64) (values : List UInt64) : Prop :=
  plan.pick block values = plainRow ∨
    ∃ place shape, plan.pick block values = firstDefinedId + place ∧
      (plan.kept block)[place]? = some shape ∧ shape.canEncode values

/-- All ids of the plan can be written, and all abbreviations can be read again. -/
structure Sound (plan : Plan) : Prop where
  few : ∀ block, (plan.kept block).length + firstDefinedId < 2 ^ 63
  readable : ∀ block, ∀ shape ∈ plan.kept block, Operation.isReadable shape

/-- A reader accepts the width of the ids in a block that is entered. -/
def Admits (plan : Plan) : Tree.Mark → Prop
  | .enter id => plan.width id ≤ 32
  | _ => True

end Plan

section Widths

variable {plan : Plan}

theorem Plan.Sound.room (hplan : plan.Sound) (block : UInt64) : RoomForIds (plan.width block) := by
  have hwide := (idWidthFor_le_iff (by decide)).mpr (Nat.le_of_lt (hplan.few block))
  exact ⟨initialIdWidth_le_idWidthFor _, Nat.lt_of_le_of_lt hwide (by decide)⟩

theorem Plan.Sound.toNat_width (hplan : plan.Sound) (block : UInt64) :
    (UInt64.ofNat (plan.width block)).toNat = plan.width block :=
  UInt64.toNat_ofNat_of_lt' (Nat.lt_trans (hplan.room block).2 (by decide))

theorem Plan.sound_plain : Plan.plain.Sound := by
  refine ⟨?_, ?_⟩
  · intro block
    change 0 + firstDefinedId < 2 ^ 63
    decide
  · intro block shape hshape
    cases hshape

theorem Plan.admits_plain (mark : Tree.Mark) : Plan.plain.Admits mark := by
  cases mark with
  | enter id =>
      change idWidthFor 0 ≤ 32
      decide
  | exit | record => trivial

end Widths

/-- Operations lead from one writer to another and say the contents. A reader can follow them exactly if
all are valid. -/
def Composes (valid : Prop) (writer next : Writer) (contents : List Content) : Prop :=
  ∃ wordings, Words valid writer next wordings ∧ wordings.map Wording.content = contents

/-- The open blocks are as the plan says. -/
structure Arranged (plan : Plan) (writer : Writer) : Prop where
  sound : writer.Sound
  seen : ∀ block ∈ writer.blocks,
    block.idWidth = plan.width block.block ∧ block.abbrevs = plan.kept block.block

section Operations

variable {plan : Plan} {writer : Writer} {block : OpenBlock} {rest : List OpenBlock}

theorem Arranged.room (harranged : Arranged plan writer) (hplan : plan.Sound) :
    RoomForIds writer.idWidth := by
  cases hblocks : writer.blocks with
  | nil =>
      rw [Writer.idWidth, hblocks]
      exact ⟨Nat.le_refl _, by decide⟩
  | cons block rest =>
      obtain ⟨hwidth, -⟩ := harranged.seen block (hblocks ▸ List.mem_cons_self)
      rw [Writer.idWidth_of_blocks hblocks, hwidth]
      exact hplan.room block.block

theorem Arranged.place?_eq (harranged : Arranged plan writer)
    (hblocks : writer.blocks = block :: rest) : writer.place? = some (plan.place block.block) := by
  obtain ⟨-, habbrevs⟩ := harranged.seen block (hblocks ▸ List.mem_cons_self)
  rw [Writer.place?_of_blocks hblocks, habbrevs]
  rfl

theorem enterBlock_worded {id width : UInt64} (hsound : writer.Sound)
    (hroom : RoomForIds writer.idWidth) (hid : id ≠ infoBlockId) (hwidth : 1 ≤ width) :
    ∃ next place, Writer.enterBlock id width writer = .ok () next ∧
      next.blocks = ⟨id, width.toNat, place, writer.shared.forBlock id⟩ :: writer.blocks ∧
      next.shared = writer.shared ∧ next.Sound ∧ Words (width ≤ 32) writer next [.enter id] := by
  obtain ⟨_, next, hrun⟩ := Writer.enterBlock_succeeds id width
    (Writer.reserved_succeeds hroom .enterBlock)
  obtain ⟨place, -, -, hshared, hblocks, -, -⟩ := Writer.follows_enterBlock hsound.nested hrun
  refine ⟨next, place, hrun, hblocks, hshared, Writer.enter_sound hsound hid hrun,
    Words.single (.enter id width) hrun (decide_eq_true ⟨hid, hwidth⟩) rfl ?_⟩
  rw [Operation.isValid, decide_eq_true_eq, and_iff_right hid, and_iff_right hwidth]

theorem exitBlock_worded (hsound : writer.Sound) (hroom : RoomForIds writer.idWidth)
    (hblocks : writer.blocks = block :: rest) :
    ∃ next, Writer.exitBlock writer = .ok () next ∧ next.blocks = rest ∧
      next.shared = writer.shared ∧ next.Sound ∧
      Words True writer next [.exit ⟨block.block, block.abbrevs⟩] := by
  have hplace : block.lengthAt ∈ writer.lengthsAt := by
    rw [Writer.lengthsAt, hblocks]
    exact List.mem_cons_self
  obtain ⟨_, next, hrun⟩ := Writer.exitBlock_succeeds hblocks (hsound.nested.words _ hplace)
    (hsound.nested.inside _ hplace) (Writer.reserved_succeeds hroom .endBlock)
  obtain ⟨hrest, hshared, -, -, -⟩ := Writer.follows_exitBlock none hsound.nested hblocks hrun
  obtain ⟨hnext, -, -⟩ := Writer.exit_followed hsound hrun
  refine ⟨next, hrun, hrest, hshared, hnext, Words.single .exit hrun rfl ?_ (iff_true_intro rfl)⟩
  rw [Writer.place?_of_blocks hblocks]
  rfl

theorem writePlain_worded (code : UInt64) (fields : List UInt64) (hsound : writer.Sound)
    (hroom : RoomForIds writer.idWidth) (hblocks : writer.blocks = block :: rest)
    (hlength : fields.length + 1 < 2 ^ 64) :
    ∃ next, Writer.writePlain code fields writer = .ok () next ∧ next.blocks = writer.blocks ∧
      next.shared = writer.shared ∧ next.Sound ∧
      Words True writer next [.record ⟨block.block, block.abbrevs⟩ none code fields] := by
  have hordinary := hsound.ordinary block (hblocks ▸ List.mem_cons_self)
  obtain ⟨_, next, hrun⟩ := Writer.writePlain_succeeds code fields hblocks
    (Writer.reserved_succeeds hroom .plainRecord)
  obtain ⟨hnext, -, -⟩ := Writer.plain_followed hsound (by omega) hrun
  have hvalid : (Operation.plain code fields).isValid := decide_eq_true (by omega)
  have hwords : Words True writer next
      [.record ⟨block.block, block.abbrevs⟩ none code fields] := by
    refine Words.single (.plain code fields) hrun hvalid ?_ (iff_true_intro hvalid)
    rw [Writer.place?_of_blocks hblocks]
    rfl
  obtain ⟨bits, -, rfl, -⟩ := Writer.plain_answered (by omega) hblocks hordinary hrun
  exact ⟨_, hrun, rfl, rfl, hnext, hwords⟩

theorem enter_words {id : UInt64} (hplan : plan.Sound) (harranged : Arranged plan writer)
    (hid : id ≠ infoBlockId) :
    ∃ next place, Writer.enterBlock id (UInt64.ofNat (plan.width id)) writer = .ok () next ∧
      next.blocks = ⟨id, plan.width id, place, writer.shared.forBlock id⟩ :: writer.blocks ∧
      next.shared = writer.shared ∧ next.Sound ∧
      Words (plan.width id ≤ 32) writer next [.enter id] := by
  have hpositive : 1 ≤ UInt64.ofNat (plan.width id) := by
    rw [UInt64.le_iff_toNat_le, hplan.toNat_width]
    exact Nat.le_trans (by decide) (hplan.room id).1
  obtain ⟨next, place, hrun, hblocks, hshared, hsound, hwords⟩ :=
    enterBlock_worded harranged.sound (harranged.room hplan) hid hpositive
  rw [hplan.toNat_width] at hblocks
  refine ⟨next, place, hrun, hblocks, hshared, hsound, hwords.congr ?_⟩
  rw [UInt64.le_iff_toNat_le, hplan.toNat_width]
  rfl

theorem exit_words (hplan : plan.Sound) (harranged : Arranged plan writer)
    (hblocks : writer.blocks = block :: rest) :
    ∃ next, Writer.exitBlock writer = .ok () next ∧ next.blocks = rest ∧
      next.shared = writer.shared ∧ Arranged plan next ∧
      Words True writer next [.exit (plan.place block.block)] := by
  obtain ⟨next, hrun, hrest, hshared, hsound, hwords⟩ :=
    exitBlock_worded harranged.sound (harranged.room hplan) hblocks
  obtain ⟨-, habbrevs⟩ := harranged.seen block (hblocks ▸ List.mem_cons_self)
  rw [habbrevs] at hwords
  refine ⟨next, hrun, hrest, hshared, ⟨hsound, ?_⟩, hwords⟩
  intro outer houter
  exact harranged.seen outer (hblocks ▸ List.mem_cons_of_mem _ (hrest ▸ houter))

theorem defines_words {shapes : List Abbrev} (hsound : writer.Sound)
    (hblocks : writer.blocks = block :: rest) (hwidth : RoomForIds block.idWidth)
    (hshapes : ∀ shape ∈ shapes, Operation.isReadable shape) :
    ∃ next, (shapes.forM fun shape => (Operation.define shape).run) writer = .ok () next ∧
      next.blocks = { block with abbrevs := block.abbrevs ++ shapes } :: rest ∧
      next.shared = writer.shared ∧ next.Sound ∧ Words True writer next [] := by
  induction shapes generalizing writer block with
  | nil => exact ⟨writer, rfl, by simpa using hblocks, rfl, hsound, .refl _⟩
  | cons shape shapes ih =>
      have hshape := hshapes shape List.mem_cons_self
      have hordinary := hsound.ordinary block (hblocks ▸ List.mem_cons_self)
      obtain ⟨id, defined, hdefine⟩ := Writer.define_succeeds shape hblocks
        (Writer.reserved_succeeds (Writer.idWidth_of_blocks hblocks ▸ hwidth) .defineAbbrev)
      have hrun : (Operation.define shape).run writer = .ok () defined :=
        bind_eq_ok_iff.mpr ⟨id, defined, hdefine, rfl⟩
      obtain ⟨hdefined, -, -⟩ := Writer.define_followed hsound hshape hdefine
      have hreadable := hshape
      simp only [Operation.isReadable, Bool.and_eq_true, decide_eq_true_eq] at hreadable
      obtain ⟨bits, -, hnext, -⟩ :=
        Writer.define_answered hreadable.1 hreadable.2 hblocks hordinary hdefine
      have hinside : defined.blocks = { block with abbrevs := block.abbrevs ++ [shape] } :: rest := by
        rw [hnext]
      obtain ⟨next, hrest, hlast, hshared, hfinal, hwords⟩ := ih hdefined hinside hwidth
        fun other hother => hshapes other (List.mem_cons_of_mem _ hother)
      refine ⟨next, bind_eq_ok_iff.mpr ⟨(), defined, hrun, hrest⟩, ?_, ?_, hfinal,
        ((Words.silent (.define shape) hrun hshape hshape rfl).trans hwords).congr and_self_iff⟩
      · rw [hlast, List.append_assoc]
        rfl
      · rw [hshared, hnext]
        rfl

theorem Arranged.cons {next : Writer} {id : UInt64} {place : Nat} (harranged : Arranged plan writer)
    (hsound : next.Sound)
    (hblocks : next.blocks = ⟨id, plan.width id, place, plan.kept id⟩ :: writer.blocks) :
    Arranged plan next := by
  refine ⟨hsound, ?_⟩
  intro block hblock
  rw [hblocks] at hblock
  rcases List.mem_cons.mp hblock with rfl | hblock
  · exact ⟨rfl, rfl⟩
  · exact harranged.seen block hblock

theorem module_words (hplan : plan.Sound) (harranged : Arranged plan writer)
    (hshared : writer.shared.forBlock moduleBlockId = []) :
    ∃ entered defined place,
      Writer.enterBlock moduleBlockId (UInt64.ofNat (plan.width moduleBlockId)) writer =
        .ok () entered ∧
      ((plan.kept moduleBlockId).forM fun shape => (Operation.define shape).run) entered =
        .ok () defined ∧
      defined.blocks = ⟨moduleBlockId, plan.width moduleBlockId, place,
        plan.kept moduleBlockId⟩ :: writer.blocks ∧
      defined.shared = writer.shared ∧ Arranged plan defined ∧
      Words (plan.width moduleBlockId ≤ 32) writer defined [.enter moduleBlockId] := by
  obtain ⟨entered, place, henter, hinside, hkept, hsound, hwords⟩ :=
    enter_words hplan harranged (show moduleBlockId ≠ infoBlockId by decide)
  rw [hshared] at hinside
  obtain ⟨defined, hdefine, hblocks, hsame, hdefined, hdefines⟩ := defines_words
    hsound hinside (hplan.room _) (hplan.readable moduleBlockId)
  exact ⟨entered, defined, place, henter, hdefine, hblocks, hsame.trans hkept,
    harranged.cons hdefined hblocks, (hwords.trans hdefines).congr (and_iff_left trivial)⟩

theorem plain_words {code : UInt64} {fields : List UInt64} (hplan : plan.Sound)
    (harranged : Arranged plan writer) (hblocks : writer.blocks = block :: rest)
    (hlength : fields.length + 1 < 2 ^ 64) :
    ∃ next, Writer.writePlain code fields writer = .ok () next ∧ next.blocks = writer.blocks ∧
      next.shared = writer.shared ∧ Arranged plan next ∧
      Words True writer next [.record (plan.place block.block) none code fields] := by
  obtain ⟨next, hrun, hsame, hshared, hsound, hwords⟩ :=
    writePlain_worded code fields harranged.sound (harranged.room hplan) hblocks hlength
  obtain ⟨-, habbrevs⟩ := harranged.seen block (hblocks ▸ List.mem_cons_self)
  rw [habbrevs] at hwords
  exact ⟨next, hrun, hsame, hshared, ⟨hsound, hsame ▸ harranged.seen⟩, hwords⟩

/-- The id of an abbreviation that the plan keeps names this abbreviation. -/
theorem abbrevWithId?_of_place {kept : List Abbrev} {place : Nat} {shape : Abbrev}
    (hfew : kept.length + firstDefinedId < 2 ^ 63) (hshape : kept[place]? = some shape) :
    (UInt64.ofNat (firstDefinedId + place)).toNat = firstDefinedId + place ∧
      abbrevWithId? kept (UInt64.ofNat (firstDefinedId + place)) = some shape := by
  obtain ⟨hplace, -⟩ := List.getElem?_eq_some_iff.mp hshape
  have hid : (UInt64.ofNat (firstDefinedId + place)).toNat = firstDefinedId + place :=
    UInt64.toNat_ofNat_of_lt'
      (Nat.lt_of_lt_of_le (show firstDefinedId + place < 2 ^ 63 by omega) (by decide))
  refine ⟨hid, ?_⟩
  rw [abbrevWithId?, hid, if_neg (by omega), Nat.add_sub_cancel_left]
  exact hshape

theorem abbreviated_words {code : UInt64} {fields : List UInt64} {place : Nat} {shape : Abbrev}
    (hplan : plan.Sound) (harranged : Arranged plan writer)
    (hblocks : writer.blocks = block :: rest) (hlength : fields.length + 1 < 2 ^ 64)
    (hshape : (plan.kept block.block)[place]? = some shape)
    (hencode : shape.canEncode (code :: fields)) :
    ∃ next,
      Writer.writeAbbreviated (UInt64.ofNat (firstDefinedId + place)) code fields writer =
        .ok () next ∧
      next.blocks = writer.blocks ∧ next.shared = writer.shared ∧ Arranged plan next ∧
      Words True writer next [.record (plan.place block.block)
        (some (UInt64.ofNat (firstDefinedId + place))) code fields] := by
  have hmem : block ∈ writer.blocks := hblocks ▸ List.mem_cons_self
  obtain ⟨hwidth, habbrevs⟩ := harranged.seen block hmem
  have hacceptable := harranged.sound.seen block hmem shape
    (habbrevs ▸ List.mem_of_getElem? hshape)
  obtain ⟨hid, hnamed⟩ := abbrevWithId?_of_place (hplan.few block.block) hshape
  obtain ⟨hplace, -⟩ := List.getElem?_eq_some_iff.mp hshape
  have hfits : (UInt64.ofNat (firstDefinedId + place)).toNat < 2 ^ writer.idWidth := by
    rw [hid, Writer.idWidth_of_blocks hblocks, hwidth]
    exact id_lt_of_place_lt hplace
  obtain ⟨_, next, hrun⟩ := Writer.writeAbbreviated_succeeds hblocks (habbrevs ▸ hnamed)
    hacceptable hencode (Writer.emitId_succeeds (harranged.room hplan) hfits)
  obtain ⟨hsound, -, -⟩ := Writer.abbreviated_followed harranged.sound hlength hrun
  have hwords : Words True writer next [.record (plan.place block.block)
      (some (UInt64.ofNat (firstDefinedId + place))) code fields] := by
    refine Words.single (.abbreviated _ code fields) hrun (decide_eq_true hlength) ?_
      (iff_true_intro (decide_eq_true hlength))
    rw [harranged.place?_eq hblocks]
    rfl
  obtain ⟨bits, -, rfl, -⟩ := Writer.abbreviated_answered hlength hblocks
    (harranged.sound.ordinary block hmem) (harranged.sound.seen block hmem) hrun
  exact ⟨_, hrun, rfl, rfl, ⟨hsound, harranged.seen⟩, hwords⟩

theorem info_words {listed : List (UInt64 × List Abbrev)} (hplan : plan.Sound)
    (harranged : Arranged plan writer)
    (hlisted : ∀ entry ∈ listed, ∀ shape ∈ entry.2, Operation.isReadable shape) :
    ∃ next, Writer.writeInfoBlock listed writer = .ok () next ∧ next.blocks = writer.blocks ∧
      next.shared.definitions = writer.shared.definitions ++ Operation.definitions listed ∧
      Arranged plan next ∧ Words True writer next [] := by
  obtain ⟨next, hrun, hblocks, hshared, -⟩ := Writer.writeInfoBlock_succeeds listed
    (Writer.reserved_succeeds (harranged.room hplan) .enterBlock)
  obtain ⟨hsound, -, -⟩ := Writer.share_followed harranged.sound hlisted hrun
  have hvalid : (Operation.share listed).isValid := by
    simp only [Operation.isValid, List.all_eq_true]
    exact hlisted
  exact ⟨next, hrun, hblocks, hshared, ⟨hsound, hblocks ▸ harranged.seen⟩,
    Words.silent (.share listed) hrun hvalid hvalid rfl⟩

end Operations

end Bitcode.Compression
