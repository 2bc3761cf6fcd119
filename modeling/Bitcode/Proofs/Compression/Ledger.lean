import Bitcode.Proofs.Bitstream.Sizes
import Bitcode.Proofs.Compression.File

/-!
The size of what is written by a plan, without writing it: where every record, block and file ends,
told by the abbreviations that are kept and by the tree.
-/

namespace Bitcode.Compression

open Format Bitstream
open Bitcode.Tree (Body Block)
open Bitstream.Reader (aligned)

namespace Plan

/-- The abbreviation that a record is written with. -/
def shape? (plan : Plan) (block : UInt64) (values : List UInt64) : Option Abbrev :=
  if plan.pick block values = plainRow then none
  else (plan.kept block)[plan.pick block values - firstDefinedId]?

def recordEnd (plan : Plan) (block : UInt64) (values : List UInt64) (position : Nat) : Nat :=
  match plan.shape? block values with
  | none => position + plan.width block + Selection.plainBits values
  | some shape => shape.valuesEnd values (position + plan.width block)

/-- The definitions that a block starts with. Only the module has its own. -/
def ownBits (plan : Plan) (id : UInt64) : Nat :=
  if id = moduleBlockId then Writer.definitionsBits (plan.kept id) (plan.width id) else 0

def enterEnd (plan : Plan) (outer : Nat) (id : UInt64) (position : Nat) : Nat :=
  Writer.enterEnd outer id (UInt64.ofNat (plan.width id)) position + plan.ownBits id

def exitEnd (plan : Plan) (id : UInt64) (position : Nat) : Nat :=
  aligned (position + plan.width id)

def bodyEnd (plan : Plan) (block : UInt64) : Body → Nat → Nat
  | .empty, position => position
  | .record item rest, position =>
      plan.bodyEnd block rest (plan.recordEnd block item.values position)
  | .block id _ body rest, position =>
      plan.bodyEnd block rest
        (plan.exitEnd id (plan.bodyEnd id body (plan.enterEnd (plan.width block) id position)))

/-- Where block 0 ends, if there is anything to list in it. -/
def infoEnd (listed : List (UInt64 × List Abbrev)) (outer position : Nat) : Nat :=
  if listed.isEmpty then position
  else
    aligned (Writer.enterEnd outer infoBlockId (UInt64.ofNat initialIdWidth) position +
      Writer.listedBits listed initialIdWidth + initialIdWidth)

/-- Where a block at the top ends that block 0 goes with: into the module, and before any other. -/
def blockEnd (plan : Plan) (listed : List (UInt64 × List Abbrev)) (block : Block)
    (position : Nat) : Nat :=
  let start :=
    if block.id = moduleBlockId then
      infoEnd listed (plan.width block.id) (plan.enterEnd initialIdWidth block.id position)
    else plan.enterEnd initialIdWidth block.id (infoEnd listed initialIdWidth position)
  plan.exitEnd block.id (plan.bodyEnd block.id block.body start)

/-- Where the blocks of a file end. Block 0 goes with the first of them. -/
def blocksEnd (plan : Plan) : List (UInt64 × List Abbrev) → List Block → Nat → Nat
  | _, [], position => position
  | listed, block :: rest, position =>
      plan.blocksEnd [] rest (plan.blockEnd listed block position)

end Plan

namespace Output

theorem onWriter_eq_ok_iff {α : Type} {composing : Composing α} {value : α} {output next : Output} :
    onWriter composing output = .ok value next ↔
      ∃ writer, composing output.writer = .ok value writer ∧ next = { output with writer } := by
  obtain ⟨writer, selection, wroteInfo⟩ := output
  simp only [onWriter]
  cases composing writer with
  | ok result changed =>
      simp only [EStateM.Result.ok.injEq]
      constructor
      · rintro ⟨rfl, rfl⟩
        exact ⟨changed, ⟨rfl, rfl⟩, rfl⟩
      · rintro ⟨_, ⟨rfl, rfl⟩, rfl⟩
        exact ⟨rfl, rfl⟩
  | error cause changed => simp

section Steps

variable {plan : Plan} {todo : UInt64 → List (List UInt64)} {output next : Output}
  {block : OpenBlock} {rest : List OpenBlock}

theorem Inside.idWidth (hinside : Inside plan todo output)
    (hblocks : output.writer.blocks = block :: rest) :
    output.writer.idWidth = plan.width block.block := by
  rw [Writer.idWidth_of_blocks hblocks]
  exact (hinside.arranged.seen block (hblocks ▸ List.mem_cons_self)).1

theorem writeRecord_size {item : Tree.Record} (after : UInt64 → List (List UInt64))
    (hinside : Inside plan todo output) (hblocks : output.writer.blocks = block :: rest)
    (hplan : plan.Sound)
    (hnext : todo block.block = item.values :: after block.block)
    (hothers : ∀ other, other ≠ block.block → todo other = after other)
    (hencodes : plan.Encodes block.block item.values)
    (hrun : writeRecord block.block item output = .ok () next) :
    next.writer.size = plan.recordEnd block.block item.values output.writer.size := by
  obtain ⟨middle, htake, hwriter, -, -⟩ := nextId_eq item.code hinside.serves hnext hothers
  have hmem : block ∈ output.writer.blocks := hblocks ▸ List.mem_cons_self
  rw [writeRecord, bind_apply_of_ok htake] at hrun
  rcases hencodes with hplain | ⟨place, shape, hpick, hshape, -⟩
  · rw [if_pos hplain] at hrun
    obtain ⟨writer, hwrite, rfl⟩ := onWriter_eq_ok_iff.mp hrun
    obtain ⟨hsize, -⟩ := Writer.spends_writePlain _ _ hwrite
    have hshape : plan.shape? block.block item.values = none := if_pos hplain
    simp only [Plan.recordEnd, hshape]
    rw [hsize, hwriter, hinside.idWidth hblocks, ← Nat.add_assoc]
    rfl
  · have hdefined : plan.pick block.block item.values ≠ plainRow := by
      rw [hpick, plainRow, firstDefinedId]
      omega
    have hpicked : plan.shape? block.block item.values = some shape := by
      rw [Plan.shape?, if_neg hdefined, hpick, Nat.add_sub_cancel_left, hshape]
    rw [if_neg hdefined, hpick] at hrun
    obtain ⟨writer, hwrite, rfl⟩ := onWriter_eq_ok_iff.mp hrun
    rw [hwriter] at hwrite
    obtain ⟨-, hkept⟩ := hinside.arranged.seen block hmem
    have hnamed := (abbrevWithId?_of_place (hplan.few block.block) hshape).2
    have hacceptable := hinside.arranged.sound.seen block hmem shape
      (hkept ▸ List.mem_of_getElem? hshape)
    simp only [Plan.recordEnd, hpicked]
    rw [Writer.size_writeAbbreviated hblocks (hkept ▸ hnamed) hacceptable hwrite,
      hinside.idWidth hblocks]
    rfl

theorem exitBlock_size (hinside : Inside plan todo output)
    (hblocks : output.writer.blocks = block :: rest)
    (hrun : onWriter Writer.exitBlock output = .ok () next) :
    next.writer.size = plan.exitEnd block.block output.writer.size := by
  obtain ⟨writer, hexit, rfl⟩ := onWriter_eq_ok_iff.mp hrun
  rw [Writer.size_exitBlock hexit, hinside.idWidth hblocks, Plan.exitEnd]

theorem of_defines {shapes : List Abbrev}
    (hrun : (shapes.forM fun shape => discard (onWriter (Writer.define shape)) : Writes Unit)
      output = .ok () next) :
    next.writer.size = output.writer.size +
        Writer.definitionsBits shapes output.writer.idWidth ∧
      next.writer.idWidth = output.writer.idWidth ∧ next.selection = output.selection ∧
      next.wroteInfo = output.wroteInfo := by
  induction shapes generalizing output with
  | nil =>
      obtain ⟨-, rfl⟩ := EStateM.Result.ok.inj hrun
      exact ⟨rfl, rfl, rfl, rfl⟩
  | cons shape shapes ih =>
      obtain ⟨_, middle, hfirst, hrest⟩ := bind_eq_ok_iff.mp hrun
      obtain ⟨id, defined, hdefine, hreturn⟩ := bind_eq_ok_iff.mp hfirst
      obtain ⟨-, rfl⟩ := EStateM.Result.ok.inj hreturn
      obtain ⟨writer, hwrite, rfl⟩ := onWriter_eq_ok_iff.mp hdefine
      obtain ⟨hsize, hwidth⟩ := Writer.spends_define shape hwrite
      obtain ⟨hlast, hsame, hselection, hinfo⟩ := ih hrest
      dsimp only at hsize hwidth hlast hsame
      rw [hwidth] at hlast hsame
      refine ⟨?_, hsame, hselection, hinfo⟩
      rw [hlast, hsize, Writer.definitionsBits, Writer.definitionsBits, List.foldr_cons]
      omega

/-- What block 0 is still to list. -/
def pending (output : Output) : List (UInt64 × List Abbrev) :=
  if output.wroteInfo then [] else output.shared

theorem Inside.pending_eq (hinside : Inside plan todo output) : output.pending = [] :=
  if_pos hinside.informed

theorem writeInfo_size (hrun : writeInfo output = .ok () next) :
    next.writer.size =
      Plan.infoEnd output.pending output.writer.idWidth output.writer.size := by
  rw [writeInfo, get_bind_apply] at hrun
  unfold pending
  cases hinformed : output.wroteInfo with
  | true =>
      rw [hinformed] at hrun
      obtain ⟨-, rfl⟩ := EStateM.Result.ok.inj hrun
      rfl
  | false =>
      have hshared : ({ output with wroteInfo := true } : Output).shared = output.shared :=
        shared_of_selection_eq rfl
      simp only [hinformed, Bool.false_eq_true, if_false] at hrun ⊢
      rw [modify_bind_apply, get_bind_apply, hshared] at hrun
      unfold Plan.infoEnd
      split_ifs at hrun ⊢
      · obtain ⟨-, rfl⟩ := EStateM.Result.ok.inj hrun
        rfl
      · obtain ⟨writer, hwrite, rfl⟩ := onWriter_eq_ok_iff.mp hrun
        exact Writer.size_writeInfoBlock hwrite

/-- A block starts with the definitions of its own, and in the module block 0 follows. -/
theorem enterBlock_size {id : UInt64} (hplan : plan.Sound) (hserves : Serves plan todo output)
    (hrun : enterBlock id output = .ok () next) :
    next.writer.size =
      if id = moduleBlockId then
        Plan.infoEnd output.pending (plan.width id)
          (plan.enterEnd output.writer.idWidth id output.writer.size)
      else plan.enterEnd output.writer.idWidth id output.writer.size := by
  rw [enterBlock, get_bind_apply, get_bind_apply, hserves.idWidth_eq, hserves.kept_eq] at hrun
  obtain ⟨_, entered, henter, hrun⟩ := bind_eq_ok_iff.mp hrun
  obtain ⟨writer, hwrite, rfl⟩ := onWriter_eq_ok_iff.mp henter
  have hsize := Writer.size_enterBlock hwrite
  have hwidth : writer.idWidth = plan.width id := by
    obtain ⟨front, -, -, rfl, -⟩ := Writer.enter_answered hwrite
    exact hplan.toNat_width id
  unfold Plan.enterEnd Plan.ownBits
  by_cases hmodule : id = moduleBlockId
  · rw [if_pos hmodule] at hrun
    obtain ⟨_, defined, hdefine, hinfo⟩ := bind_eq_ok_iff.mp hrun
    obtain ⟨hdefined, hsame, hselection, hinformed⟩ := of_defines hdefine
    have hpending : defined.pending = output.pending := by
      rw [pending, pending, hinformed, shared_of_selection_eq hselection]
      rfl
    rw [if_pos hmodule, if_pos hmodule, writeInfo_size hinfo, hpending, hsame, hdefined]
    dsimp only
    rw [hwidth, hsize]
  · rw [if_neg hmodule] at hrun
    obtain ⟨-, rfl⟩ := EStateM.Result.ok.inj hrun
    rw [if_neg hmodule, if_neg hmodule, Nat.add_zero]
    exact hsize

theorem Inside.enterBlock_size {id : UInt64} (hplan : plan.Sound)
    (hinside : Inside plan todo output) (hrun : enterBlock id output = .ok () next) :
    next.writer.size = plan.enterEnd output.writer.idWidth id output.writer.size := by
  rw [Output.enterBlock_size hplan hinside.serves hrun, hinside.pending_eq]
  split_ifs <;> rfl

end Steps

theorem writeBody_size {plan : Plan} {later : UInt64 → List (List UInt64)} {output next : Output}
    {block : OpenBlock} {rest : List OpenBlock} (hplan : plan.Sound) (body : Body)
    (hinside : Inside plan (fun target => body.valuesIn target block.block ++ later target) output)
    (hblocks : output.writer.blocks = block :: rest)
    (hencodes : ∀ target, ∀ values ∈ body.valuesIn target block.block, plan.Encodes target values)
    (hwritable : ∀ content ∈ body.contents, Writable content)
    (hrun : writeBody block.block body output = .ok () next) :
    next.writer.size = plan.bodyEnd block.block body output.writer.size := by
  -- The steps of the run are those that the words of the body are known for, so the invariant
  -- between them is at hand, and only the positions are left to be compared.
  induction body generalizing later output block rest next with
  | empty =>
      obtain ⟨-, rfl⟩ := EStateM.Result.ok.inj hrun
      rfl
  | record item body ih =>
      have hfirst : item.values ∈ (Body.record item body).valuesIn block.block block.block := by
        simp [Body.valuesIn]
      have hnext : (Body.record item body).valuesIn block.block block.block ++ later block.block =
          item.values :: (body.valuesIn block.block block.block ++ later block.block) := by
        simp [Body.valuesIn]
      have hothers : ∀ other, other ≠ block.block →
          (Body.record item body).valuesIn other block.block ++ later other =
            body.valuesIn other block.block ++ later other :=
        fun other hother => by simp [Body.valuesIn, Ne.symm hother]
      obtain ⟨middle, hrecord, hsame, hmiddle, -⟩ := writeRecord_words
        (fun target => body.valuesIn target block.block ++ later target) hplan hinside hblocks
        hnext hothers (hencodes _ _ hfirst) (hwritable _ List.mem_cons_self)
      have hsize := writeRecord_size
        (fun target => body.valuesIn target block.block ++ later target)
        hinside hblocks hplan hnext hothers (hencodes _ _ hfirst) hrecord
      rw [writeBody, bind_apply_of_ok hrecord] at hrun
      rw [ih hmiddle (hsame.trans hblocks) _ _ hrun, hsize, Plan.bodyEnd]
      · intro target values hvalues
        apply hencodes target values
        simp only [Body.valuesIn]
        split
        · exact List.mem_cons_of_mem _ hvalues
        · exact hvalues
      · intro content hcontent
        exact hwritable content (List.mem_cons_of_mem _ hcontent)
  | block id bits inner body ihInner ihBody =>
      have htodo : (fun target =>
          (Body.block id bits inner body).valuesIn target block.block ++ later target) =
          fun target => inner.valuesIn target id ++
            (body.valuesIn target block.block ++ later target) := by
        funext target
        rw [Body.valuesIn, List.append_assoc]
      have hinner : ∀ target, ∀ values ∈ inner.valuesIn target id, plan.Encodes target values :=
        fun target values hvalues => hencodes target values (List.mem_append_left _ hvalues)
      have hwritten : ∀ content ∈ inner.contents, Writable content := fun content hcontent =>
        hwritable content (List.mem_cons_of_mem _ (List.mem_append_left _ hcontent))
      rw [htodo] at hinside
      obtain ⟨entered, place, henter, hopened, hentered, -⟩ :=
        enterBlock_words hplan hinside (hwritable _ List.mem_cons_self)
      obtain ⟨filled, hfill, hfilledBlocks, hfilled, -⟩ :=
        writeBody_words hplan inner hentered hopened hinner hwritten
      obtain ⟨left, hexit, hleftBlocks, hleft, -⟩ :=
        exitBlock_words hplan hfilled (hfilledBlocks.trans hopened)
      rw [writeBody, bind_apply_of_ok henter, bind_apply_of_ok hfill,
        bind_apply_of_ok hexit] at hrun
      rw [ihBody hleft (hleftBlocks.trans hblocks) _ _ hrun,
        exitBlock_size hfilled (hfilledBlocks.trans hopened) hexit,
        ihInner hentered hopened hinner hwritten hfill, hinside.enterBlock_size hplan henter,
        hinside.idWidth hblocks, Plan.bodyEnd]
      · exact fun target values hvalues => hencodes target values (List.mem_append_right _ hvalues)
      · exact fun content hcontent => hwritable content
          (List.mem_cons_of_mem _ (List.mem_append_right _ (List.mem_cons_of_mem _ hcontent)))

section Blocks

variable {plan : Plan} {output next : Output}

theorem finishBlock_size {later : UInt64 → List (List UInt64)} {entered : Output} {place : Nat}
    (hplan : plan.Sound) {block : Block}
    (hopened : entered.writer.blocks =
      ⟨block.id, plan.width block.id, place, plan.kept block.id⟩ :: output.writer.blocks)
    (hinside : Inside plan (fun target => block.body.valuesIn target block.id ++ later target)
      entered)
    (hencodes : ∀ target, ∀ values ∈ block.body.valuesIn target block.id,
      plan.Encodes target values)
    (hwritable : ∀ content ∈ block.contents, Writable content)
    (hrun : (do writeBody block.id block.body
                onWriter Writer.exitBlock : Writes Unit) entered = .ok () next) :
    next.writer.size =
      plan.exitEnd block.id (plan.bodyEnd block.id block.body entered.writer.size) := by
  have hbody : ∀ content ∈ block.body.contents, Writable content := fun content hcontent =>
    hwritable content (List.mem_cons_of_mem _ (List.mem_append_left _ hcontent))
  obtain ⟨filled, hfill, hsame, hfilled, -⟩ :=
    writeBody_words hplan block.body hinside hopened hencodes hbody
  rw [bind_apply_of_ok hfill] at hrun
  rw [exitBlock_size hfilled (hsame.trans hopened) hrun,
    writeBody_size hplan block.body hinside hopened hencodes hbody hfill]

theorem writeBlock_size {later : UInt64 → List (List UInt64)} (hplan : plan.Sound)
    (block : Block)
    (houtput : Outside plan (fun target => block.body.valuesIn target block.id ++ later target)
        output ∨
      Inside plan (fun target => block.body.valuesIn target block.id ++ later target) output)
    (hclosed : output.writer.blocks = [])
    (hencodes : ∀ target, ∀ values ∈ block.body.valuesIn target block.id,
      plan.Encodes target values)
    (hwritable : ∀ content ∈ block.contents, Writable content)
    (hrun : writeBlock block output = .ok () next) :
    next.writer.size = plan.blockEnd output.pending block output.writer.size := by
  have hid : block.id ≠ infoBlockId := hwritable _ List.mem_cons_self
  have hwidth : output.writer.idWidth = initialIdWidth := by rw [Writer.idWidth, hclosed]
  have hserves : Serves plan
      (fun target => block.body.valuesIn target block.id ++ later target) output :=
    houtput.elim (·.serves) (·.serves)
  unfold Plan.blockEnd
  unfold writeBlock at hrun
  by_cases hmodule : block.id = moduleBlockId
  · obtain ⟨entered, place, henter, hopened, hinside, -⟩ := enterModule_words hplan houtput
    rw [← hmodule] at henter hopened
    rw [if_neg (not_not_intro hmodule)] at hrun
    change (enterBlock block.id >>= fun _ => _) output = _ at hrun
    rw [bind_apply_of_ok henter] at hrun
    rw [finishBlock_size hplan hopened hinside hencodes hwritable hrun,
      enterBlock_size hplan hserves henter, hwidth, if_pos hmodule, if_pos hmodule]
  · obtain ⟨informed, hinfo, hsame, hinformed, -⟩ := writeInfo_inside hplan houtput
    obtain ⟨entered, place, henter, hopened, hinside, -⟩ := enterBlock_words hplan hinformed hid
    have hsize := writeInfo_size hinfo
    have houter : informed.writer.idWidth = initialIdWidth := by
      rw [Writer.idWidth, hsame, hclosed]
    rw [if_pos hmodule, bind_apply_of_ok hinfo] at hrun
    change (enterBlock block.id >>= fun _ => _) informed = _ at hrun
    rw [bind_apply_of_ok henter] at hrun
    rw [finishBlock_size hplan hopened hinside hencodes hwritable hrun,
      hinformed.enterBlock_size hplan henter, houter, hsize, hwidth, if_neg hmodule]

theorem writeBlocks_size (hplan : plan.Sound) (blocks : List Block)
    (houtput : Outside plan (Tree.valuesIn blocks) output ∨
      Inside plan (Tree.valuesIn blocks) output)
    (hclosed : output.writer.blocks = [])
    (hencodes : ∀ target, ∀ values ∈ Tree.valuesIn blocks target, plan.Encodes target values)
    (hwritable : ∀ content ∈ blocks.flatMap Block.contents, Writable content)
    (hrun : blocks.forM writeBlock output = .ok () next) :
    next.writer.size = plan.blocksEnd output.pending blocks output.writer.size := by
  induction blocks generalizing output with
  | nil =>
      obtain ⟨-, rfl⟩ := EStateM.Result.ok.inj hrun
      rfl
  | cons block blocks ih =>
      have htodo : Tree.valuesIn (block :: blocks) =
          fun target => block.body.valuesIn target block.id ++ Tree.valuesIn blocks target := by
        funext target
        exact Tree.valuesIn_cons block blocks target
      rw [htodo] at houtput hencodes
      have hfirstEncodes : ∀ target, ∀ values ∈ block.body.valuesIn target block.id,
          plan.Encodes target values :=
        fun target values hvalues => hencodes target values (List.mem_append_left _ hvalues)
      have hfirstWritable : ∀ content ∈ block.contents, Writable content :=
        fun content hcontent => hwritable content
          (List.mem_flatMap.mpr ⟨block, List.mem_cons_self, hcontent⟩)
      obtain ⟨middle, hfirst, hsame, hmiddle, -⟩ :=
        writeBlock_words hplan block houtput hfirstEncodes hfirstWritable
      have hsize := writeBlock_size hplan block houtput hclosed hfirstEncodes hfirstWritable hfirst
      change (writeBlock block >>= fun _ => blocks.forM writeBlock) output = _ at hrun
      rw [bind_apply_of_ok hfirst] at hrun
      rw [ih (.inr hmiddle) (hsame.trans hclosed) _ _ hrun, hmiddle.pending_eq, hsize,
        Plan.blocksEnd]
      · exact fun target values hvalues => hencodes target values (List.mem_append_right _ hvalues)
      · intro content hcontent
        rw [List.flatMap_cons] at hwritable
        exact hwritable content (List.mem_append_right _ hcontent)

end Blocks

end Output

theorem writeFile_size {plan : Plan} {selection : Option Selection} {file : Tree.File}
    (hplan : plan.Governs selection file) :
    ∃ output : Output,
      Output.writeFile file { selection } = .ok output.writer.bits.toBytes output ∧
      8 * output.writer.bits.toBytes.size = plan.blocksEnd (Output.shared { selection }) file.blocks
        (8 * file.header.raw.size) := by
  obtain ⟨output, hblocks, hclosed, hworded⟩ := Output.writeBlocks_words hplan.sound file.blocks
    (.inl hplan.outside) hplan.encodes hplan.writable
  have hsize := Output.writeBlocks_size hplan.sound file.blocks (.inl hplan.outside) rfl
    hplan.encodes hplan.writable hblocks
  refine ⟨output, writeFile_eq_ok hplan.words hblocks hclosed, ?_⟩
  have hcomplete := (hworded.kept (sound_headed hplan.words)).1.nested.complete hclosed
  rw [Writer.size_toBytes hcomplete, hsize, ← size_headed]
  rfl

section Compress

variable {bytes : Array UInt8} {file : Tree.File}

/-- The plan that a file is compressed by. -/
def planOf (bytes : Array UInt8) (file : Tree.File) : Plan :=
  .ofTables (selectionTables bytes file) file.blocks

/-- What block 0 lists in a compressed file. -/
def listedOf (bytes : Array UInt8) (file : Tree.File) : List (UInt64 × List Abbrev) :=
  Output.shared { selection := some (Selection.choose (selectionTables bytes file) file.blocks) }

theorem compress_size (hsize : 8 * bytes.size < 2 ^ 64)
    (hresult : (Tree.unroll bytes).result = .ok file) :
    ∃ normal, compress bytes false = .ok normal ∧
      8 * normal.size = (planOf bytes file).blocksEnd (listedOf bytes file) file.blocks
        (8 * file.header.raw.size) := by
  obtain ⟨output, hwrite, hbits⟩ :=
    writeFile_size (governs_ofTables (sound_selectionTables hresult) hsize hresult)
  refine ⟨_, ?_, hbits⟩
  rw [compress, hresult]
  change (encodeWith (Selection.choose (selectionTables bytes file) file.blocks) file).1 = _
  rw [encodeWith, hwrite]

theorem compress_plain_size (hsize : 8 * bytes.size < 2 ^ 64)
    (hresult : (Tree.unroll bytes).result = .ok file) :
    ∃ plain, compress bytes true = .ok plain ∧
      8 * plain.size = Plan.plain.blocksEnd [] file.blocks (8 * file.header.raw.size) := by
  obtain ⟨output, hwrite, hbits⟩ := writeFile_size (governs_plain hsize hresult)
  refine ⟨_, ?_, hbits⟩
  rw [compress, hresult]
  change encodePlain file = _
  rw [encodePlain, hwrite]

end Compress

end Bitcode.Compression
