import Bitcode.Proofs.Bitstream.Placement

namespace Bitcode.Bitstream

open Format Bits

/-- An operation of a writer. -/
inductive Operation where
  | enter (block width : UInt64)
  | exit
  | define (shape : Abbrev)
  /-- A whole block 0 with the abbreviations of each listed block. -/
  | share (listed : List (UInt64 × List Abbrev))
  | plain (code : UInt64) (fields : List UInt64)
  | abbreviated (id code : UInt64) (fields : List UInt64)
  deriving DecidableEq

namespace Operation

/-- What the operation does to a writer. -/
def run : Operation → Composing Unit
  | enter block width => Writer.enterBlock block width
  | exit => Writer.exitBlock
  | define shape => do
      let _ ← Writer.define shape
      return ()
  | share listed => Writer.writeInfoBlock listed
  | plain code fields => Writer.writePlain code fields
  | abbreviated id code fields => Writer.writeAbbreviated id code fields

/-- The abbreviation can be read again. The count of its operators is a machine word. -/
def isReadable (shape : Abbrev) : Bool :=
  shape.isAcceptable && decide (shape.operators.length < 2 ^ 64)

/-- The operation is one that a reader can follow: blocks have an id other than 0 and a width of ids
from 1 to 32, abbreviations can be read again, and counts of values are machine words. -/
def isValid : Operation → Bool
  | enter block width => decide (block ≠ infoBlockId ∧ 1 ≤ width ∧ width ≤ 32)
  | exit => true
  | define shape => isReadable shape
  | share listed => listed.all fun entry => entry.2.all isReadable
  | plain _ fields => decide (fields.length < 2 ^ 64)
  | abbreviated _ _ fields => decide (fields.length + 1 < 2 ^ 64)

/-- The operation is valid, except that ids may be wider. -/
def isOrdinary : Operation → Bool
  | enter block width => decide (block ≠ infoBlockId ∧ 1 ≤ width)
  | operation => operation.isValid

theorem isOrdinary_of_isValid {operation : Operation} (hvalid : operation.isValid) :
    operation.isOrdinary := by
  cases operation with
  | enter block width =>
      obtain ⟨hblock, hpositive, -⟩ := of_decide_eq_true hvalid
      exact decide_eq_true ⟨hblock, hpositive⟩
  | exit | define | share | plain | abbreviated => exact hvalid

theorem isOrdinary_of_forall_isValid {operations : List Operation}
    (hvalid : ∀ operation ∈ operations, operation.isValid) :
    ∀ operation ∈ operations, operation.isOrdinary :=
  fun operation hoperation => isOrdinary_of_isValid (hvalid operation hoperation)

/-- The definitions that block 0 lists. -/
def definitions (listed : List (UInt64 × List Abbrev)) : List (UInt64 × Abbrev) :=
  listed.flatMap fun entry => entry.2.map fun shape => (entry.1, shape)

/-- What a reader finds of the operation, between two states of the writer. A block has a body of
the given size. -/
def entries (operation : Operation) (writer next : Writer) (size : Nat) : List Entry :=
  match operation with
  | enter block _ => [.block block size]
  | exit => [.endBlock]
  | define shape => writer.blocks.head?.toList.map fun block => .definition block.block shape true
  | share listed => (definitions listed).map fun (block, shape) => .definition block shape false
  | plain code fields =>
      [.record { id := none, code, fields, bits := next.size - writer.size }]
  | abbreviated id code fields =>
      [.record { id := some id, code, fields, bits := next.size - writer.size }]

end Operation

namespace Writer

open Operation

/-- No open block is block 0, and all abbreviations can be read. -/
structure Sound (writer : Writer) : Prop where
  nested : writer.Nested
  ordinary : ∀ block ∈ writer.blocks, block.block ≠ infoBlockId
  seen : ∀ block ∈ writer.blocks, ∀ shape ∈ block.abbrevs, shape.isAcceptable
  known : ∀ definition ∈ writer.shared.definitions, definition.2.isAcceptable

/-- What an operation may do to the lengths of the open blocks: leave them alone, open one more, or
settle the innermost one. -/
inductive Changes (writer next : Writer) : Prop where
  | same (hlengths : next.lengthsAt = writer.lengthsAt)
  | opened (place : Nat) (hplace : 8 * place + 32 = next.size) (hsize : next.size % 32 = 0)
      (hlengths : next.lengthsAt = place :: writer.lengthsAt)
  | settled (place : Nat) (hsize : next.size % 32 = 0)
      (hlengths : writer.lengthsAt = place :: next.lengthsAt)
      (htold : ∀ bytes, Keeps bytes next →
        fieldAt bytes (8 * place) 32 = wordsTold place next.size)

section Info

variable {writer next : Writer} {block : OpenBlock} {rest : List OpenBlock}

theorem follows_shares {target : UInt64} {shapes : List Abbrev} (hnested : writer.Nested)
    (hshapes : ∀ shape ∈ shapes, isReadable shape) (hblocks : writer.blocks = block :: rest)
    (hblock : block.block = infoBlockId) (hrun : shapes.forM (share target) writer = .ok () next) :
    next.blocks = writer.blocks ∧
      next.shared.definitions = writer.shared.definitions ++ shapes.map (target, ·) ∧
      Follows writer next (writer.context (some target)) (next.context (some target)) fun _ =>
        shapes.map fun shape => .definition target shape false := by
  induction shapes generalizing writer with
  | nil =>
      obtain ⟨-, rfl⟩ := EStateM.Result.ok.inj hrun
      exact ⟨rfl, by simp, Follows.refl hnested _⟩
  | cons shape shapes ih =>
      obtain ⟨_, middle, hfirst, hothers⟩ := bind_eq_ok_iff.mp hrun
      have hreadable := hshapes shape List.mem_cons_self
      simp only [isReadable, Bool.and_eq_true, decide_eq_true_eq] at hreadable
      obtain ⟨bits, hpositive, hmiddle, hparses⟩ :=
        share_answered hreadable.1 hreadable.2 hblocks hblock hfirst
      have hsame : middle.blocks = writer.blocks := by rw [hmiddle]; rfl
      have hstep : Follows writer middle (writer.context (some target))
          (middle.context (some target)) fun _ => [.definition target shape false] :=
        follows_of_append hnested (by simp [hblocks]) hpositive (by rw [hmiddle])
          (by rw [lengthsAt, hsame, ← lengthsAt]) hparses
      obtain ⟨hlast, hshared, hrest⟩ := ih hstep.nested
        (fun other hother => hshapes other (List.mem_cons_of_mem _ hother)) (hsame.trans hblocks)
        hothers
      refine ⟨hlast.trans hsame, ?_, hstep.trans hrest⟩
      rw [hshared, hmiddle]
      simp [Shared.add]

theorem follows_shareAll {target : UInt64} {shapes : List Abbrev} (before : Option UInt64)
    (hnested : writer.Nested) (hshapes : ∀ shape ∈ shapes, isReadable shape)
    (hblocks : writer.blocks = block :: rest) (hblock : block.block = infoBlockId)
    (hrun : shareAll target shapes writer = .ok () next) :
    next.blocks = writer.blocks ∧
      next.shared.definitions = writer.shared.definitions ++ shapes.map (target, ·) ∧
      ∃ after, Follows writer next (writer.context before) (next.context after) fun _ =>
        shapes.map fun shape => .definition target shape false := by
  unfold shareAll at hrun
  cases shapes with
  | nil =>
      obtain ⟨-, rfl⟩ := EStateM.Result.ok.inj hrun
      exact ⟨rfl, by simp, before, Follows.refl hnested _⟩
  | cons shape shapes =>
      obtain ⟨_, middle, hfirst, hothers⟩ := bind_eq_ok_iff.mp hrun
      obtain ⟨bits, hpositive, hmiddle, hparses⟩ := setBlock_answered before hblocks hblock hfirst
      have hsame : middle.blocks = writer.blocks := by rw [hmiddle]; rfl
      have hstep : Follows writer middle (writer.context before) (middle.context (some target))
          fun _ => [] :=
        follows_of_append hnested (by simp [hblocks]) hpositive (by rw [hmiddle])
          (by rw [lengthsAt, hsame, ← lengthsAt]) hparses
      obtain ⟨hlast, hshared, hrest⟩ :=
        follows_shares hstep.nested hshapes (hsame.trans hblocks) hblock hothers
      refine ⟨hlast.trans hsame, ?_, some target, hstep.trans hrest⟩
      rw [hshared, hmiddle]
      rfl

theorem follows_listed {listed : List (UInt64 × List Abbrev)} (before : Option UInt64)
    (hnested : writer.Nested) (hlisted : ∀ entry ∈ listed, ∀ shape ∈ entry.2, isReadable shape)
    (hblocks : writer.blocks = block :: rest) (hblock : block.block = infoBlockId)
    (hrun : (listed.forM fun (target, shapes) => shareAll target shapes) writer = .ok () next) :
    next.blocks = writer.blocks ∧
      next.shared.definitions = writer.shared.definitions ++ definitions listed ∧
      ∃ after, Follows writer next (writer.context before) (next.context after) fun _ =>
        (definitions listed).map fun (target, shape) => .definition target shape false := by
  induction listed generalizing writer before with
  | nil =>
      obtain ⟨-, rfl⟩ := EStateM.Result.ok.inj hrun
      exact ⟨rfl, by simp [definitions], before, Follows.refl hnested _⟩
  | cons entry listed ih =>
      obtain ⟨_, middle, hfirst, hothers⟩ := bind_eq_ok_iff.mp hrun
      obtain ⟨hsame, hadded, between, hstep⟩ := follows_shareAll before hnested
        (hlisted entry List.mem_cons_self) hblocks hblock hfirst
      obtain ⟨hlast, hshared, after, hrest⟩ := ih between hstep.nested
        (fun other hother => hlisted other (List.mem_cons_of_mem _ hother)) (hsame.trans hblocks)
        hothers
      have hdefinitions : definitions (entry :: listed) =
          entry.2.map (entry.1, ·) ++ definitions listed := by
        rw [definitions, List.flatMap_cons, ← definitions]
      refine ⟨hlast.trans hsame, ?_, after, ?_⟩
      · rw [hshared, hadded, hdefinitions, List.append_assoc]
      · rw [hdefinitions, List.map_append, List.map_map]
        exact hstep.trans hrest

theorem follows_writeInfoBlock {listed : List (UInt64 × List Abbrev)} (hnested : writer.Nested)
    (hlisted : ∀ entry ∈ listed, ∀ shape ∈ entry.2, isReadable shape)
    (hrun : writeInfoBlock listed writer = .ok () next) :
    next.blocks = writer.blocks ∧
      next.shared.definitions = writer.shared.definitions ++ definitions listed ∧
      Follows writer next writer.context next.context fun _ =>
        (definitions listed).map fun (target, shape) => .definition target shape false := by
  obtain ⟨_, inside, henter, hrun⟩ := bind_eq_ok_iff.mp hrun
  obtain ⟨place, -, -, hshared, hblocks, -, -, hparsed⟩ := follows_enterBlock hnested henter
  have hentered := hparsed (by decide)
  obtain ⟨_, full, hfill, hexit⟩ := bind_eq_ok_iff.mp hrun
  obtain ⟨hsame, hfilled, after, hlists⟩ :=
    follows_listed none hentered.nested hlisted hblocks rfl hfill
  obtain ⟨hrest, hkept, -, -, hexited⟩ :=
    follows_exitBlock after hlists.nested (hsame.trans hblocks) hexit
  refine ⟨hrest, by rw [hkept, hfilled, hshared], ?_⟩
  have hall := (hentered.trans hlists).trans hexited
  simpa using hall

end Info

section Steps

variable {writer next : Writer}

theorem sound_of_blocks_eq_nil (hblocks : writer.blocks = []) (hsize : writer.size % 32 = 0)
    (hshared : writer.shared.definitions = []) : writer.Sound := by
  refine ⟨nested_of_blocks_eq_nil hblocks hsize, ?_, ?_, ?_⟩
  · simp [hblocks]
  · simp [hblocks]
  · simp [hshared]

theorem Sound.acceptable_of_mem_forBlock (hsound : writer.Sound) {block : UInt64} {shape : Abbrev}
    (hshape : shape ∈ writer.shared.forBlock block) : shape.isAcceptable := by
  rw [Shared.forBlock, List.mem_map] at hshape
  obtain ⟨definition, hdefinition, rfl⟩ := hshape
  exact hsound.known definition (List.mem_filter.mp hdefinition).1

theorem enter_sound {id width : UInt64} (hsound : writer.Sound) (hid : id ≠ infoBlockId)
    (hrun : enterBlock id width writer = .ok () next) : next.Sound := by
  obtain ⟨place, -, -, hshared, hblocks, hnested, -⟩ := follows_enterBlock hsound.nested hrun
  refine ⟨hnested, ?_, ?_, by rw [hshared]; exact hsound.known⟩
  · intro block hblock
    rw [hblocks] at hblock
    rcases List.mem_cons.mp hblock with rfl | hblock
    · exact hid
    · exact hsound.ordinary block hblock
  · intro block hblock shape hshape
    rw [hblocks] at hblock
    rcases List.mem_cons.mp hblock with rfl | hblock
    · exact hsound.acceptable_of_mem_forBlock hshape
    · exact hsound.seen block hblock shape hshape

theorem enter_followed {id width : UInt64} (hsound : writer.Sound) (hid : id ≠ infoBlockId)
    (hwidth : 1 ≤ width ∧ width ≤ 32) (hrun : enterBlock id width writer = .ok () next) :
    next.Sound ∧ Changes writer next ∧
      Follows writer next writer.context next.context fun bytes =>
        [.block id (4 * fieldAt bytes (next.size - 32) 32)] := by
  obtain ⟨place, hplace, hsize, -, hblocks, -, -, hparsed⟩ := follows_enterBlock hsound.nested hrun
  have hfollows := hparsed hwidth
  have hlengths : next.lengthsAt = place :: writer.lengthsAt := by
    rw [lengthsAt, hblocks, List.map_cons, ← lengthsAt]
  have hfront : next.size - 32 = 8 * place := by omega
  simp only [if_neg hid, Option.toList_some] at hfollows
  rw [hfront]
  exact ⟨enter_sound hsound hid hrun, .opened place hplace hsize hlengths, hfollows⟩

theorem exit_followed (hsound : writer.Sound) (hrun : exitBlock writer = .ok () next) :
    next.Sound ∧ Changes writer next ∧
      Follows writer next writer.context next.context fun _ => [.endBlock] := by
  cases hblocks : writer.blocks with
  | nil =>
      rw [exitBlock, get_bind_apply, hblocks] at hrun
      exact absurd hrun (throw_ne_ok _ _ _ _)
  | cons block rest =>
      obtain ⟨hrest, hshared, hsize, htold, hfollows⟩ :=
        follows_exitBlock none hsound.nested hblocks hrun
      have hordinary : block.block ≠ infoBlockId :=
        hsound.ordinary block (by rw [hblocks]; exact List.mem_cons_self)
      have hlengths : writer.lengthsAt = block.lengthAt :: next.lengthsAt := by
        rw [lengthsAt, hblocks, List.map_cons, ← hrest, ← lengthsAt]
      have houter : ∀ outer ∈ next.blocks, outer ∈ writer.blocks := by
        intro outer houter
        rw [hblocks, ← hrest]
        exact List.mem_cons_of_mem _ houter
      simp only [if_neg hordinary, Option.toList_some] at hfollows
      refine ⟨⟨hfollows.nested, ?_, ?_, by rw [hshared]; exact hsound.known⟩,
        .settled block.lengthAt hsize hlengths htold, hfollows⟩
      · exact fun outer hmem => hsound.ordinary outer (houter outer hmem)
      · exact fun outer hmem => hsound.seen outer (houter outer hmem)

theorem define_followed {shape : Abbrev} {id : Nat} (hsound : writer.Sound)
    (hshape : isReadable shape) (hrun : define shape writer = .ok id next) :
    next.Sound ∧ Changes writer next ∧
      Follows writer next writer.context next.context fun _ =>
        writer.blocks.head?.toList.map fun block => .definition block.block shape true := by
  simp only [isReadable, Bool.and_eq_true, decide_eq_true_eq] at hshape
  cases hblocks : writer.blocks with
  | nil =>
      rw [define, get_bind_apply, hblocks] at hrun
      exact absurd hrun (throw_ne_ok _ _ _ _)
  | cons block rest =>
      have hmem : block ∈ writer.blocks := by rw [hblocks]; exact List.mem_cons_self
      obtain ⟨bits, hpositive, hnext, hparses⟩ := define_answered hshape.1 hshape.2 hblocks
        (hsound.ordinary block hmem) hrun
      have hafter : next.blocks = { block with abbrevs := block.abbrevs ++ [shape] } :: rest := by
        rw [hnext]
      have hlengths : next.lengthsAt = writer.lengthsAt := by
        rw [lengthsAt, lengthsAt, hafter, hblocks]
        rfl
      have hfollows := follows_of_append hsound.nested (by simp [hblocks]) hpositive
        (by rw [hnext]) hlengths hparses
      have hrest : ∀ outer ∈ rest, outer ∈ writer.blocks := by
        intro outer houter
        rw [hblocks]
        exact List.mem_cons_of_mem _ houter
      refine ⟨⟨hfollows.nested, ?_, ?_, by rw [hnext]; exact hsound.known⟩, .same hlengths, hfollows⟩
      · intro other hother
        rw [hafter] at hother
        rcases List.mem_cons.mp hother with rfl | hother
        · exact hsound.ordinary block hmem
        · exact hsound.ordinary other (hrest other hother)
      · intro other hother
        rw [hafter] at hother
        rcases List.mem_cons.mp hother with rfl | hother
        · intro seen hseen
          rcases List.mem_append.mp hseen with hseen | hseen
          · exact hsound.seen block hmem seen hseen
          · rw [List.mem_singleton.mp hseen]
            exact hshape.1
        · exact hsound.seen other (hrest other hother)

theorem share_followed {listed : List (UInt64 × List Abbrev)} (hsound : writer.Sound)
    (hlisted : ∀ entry ∈ listed, ∀ shape ∈ entry.2, isReadable shape)
    (hrun : writeInfoBlock listed writer = .ok () next) :
    next.Sound ∧ Changes writer next ∧
      Follows writer next writer.context next.context fun _ =>
        (definitions listed).map fun (target, shape) => .definition target shape false := by
  obtain ⟨hblocks, hshared, hfollows⟩ := follows_writeInfoBlock hsound.nested hlisted hrun
  refine ⟨⟨hfollows.nested, by rw [hblocks]; exact hsound.ordinary,
    by rw [hblocks]; exact hsound.seen, ?_⟩, .same (by rw [lengthsAt, hblocks, ← lengthsAt]), hfollows⟩
  intro definition hdefinition
  rw [hshared] at hdefinition
  rcases List.mem_append.mp hdefinition with hbefore | hadded
  · exact hsound.known definition hbefore
  · obtain ⟨entry, hentry, hmem⟩ := List.mem_flatMap.mp hadded
    obtain ⟨shape, hshape, rfl⟩ := List.mem_map.mp hmem
    have hreadable := hlisted entry hentry shape hshape
    rw [isReadable, Bool.and_eq_true] at hreadable
    exact hreadable.1

theorem record_followed {bits : List Bool} {record : Record} (hsound : writer.Sound)
    (hinside : writer.blocks ≠ []) (hpositive : 0 < bits.length) (hnext : next = writer.append bits)
    (hparses : ∀ bytes, Holds bytes writer.size bits →
      Parses Reader.step bytes writer.size writer.context (some (.record record)) next.size
        next.context) :
    next.Sound ∧ Changes writer next ∧
      Follows writer next writer.context next.context fun _ => [.record record] := by
  have hblocks : next.blocks = writer.blocks := by rw [hnext]; rfl
  have hlengths : next.lengthsAt = writer.lengthsAt := by rw [lengthsAt, hblocks, ← lengthsAt]
  have hfollows := follows_of_append hsound.nested hinside hpositive (by rw [hnext]) hlengths hparses
  refine ⟨⟨hfollows.nested, by rw [hblocks]; exact hsound.ordinary,
    by rw [hblocks]; exact hsound.seen, by rw [hnext]; exact hsound.known⟩, .same hlengths, hfollows⟩

theorem plain_followed {code : UInt64} {fields : List UInt64} (hsound : writer.Sound)
    (hlength : fields.length < 2 ^ 64) (hrun : writePlain code fields writer = .ok () next) :
    next.Sound ∧ Changes writer next ∧
      Follows writer next writer.context next.context fun _ =>
        [.record { id := none, code, fields, bits := next.size - writer.size }] := by
  cases hblocks : writer.blocks with
  | nil =>
      rw [writePlain, get_bind_apply, hblocks] at hrun
      exact absurd hrun (throw_ne_ok _ _ _ _)
  | cons block rest =>
      have hmem : block ∈ writer.blocks := by rw [hblocks]; exact List.mem_cons_self
      obtain ⟨bits, hpositive, hnext, hparses⟩ :=
        plain_answered hlength hblocks (hsound.ordinary block hmem) hrun
      exact record_followed hsound (by simp [hblocks]) hpositive hnext hparses

theorem abbreviated_followed {id code : UInt64} {fields : List UInt64} (hsound : writer.Sound)
    (hlength : fields.length + 1 < 2 ^ 64)
    (hrun : writeAbbreviated id code fields writer = .ok () next) :
    next.Sound ∧ Changes writer next ∧
      Follows writer next writer.context next.context fun _ =>
        [.record { id := some id, code, fields, bits := next.size - writer.size }] := by
  cases hblocks : writer.blocks with
  | nil =>
      rw [writeAbbreviated, get_bind_apply, hblocks] at hrun
      exact absurd hrun (throw_ne_ok _ _ _ _)
  | cons block rest =>
      have hmem : block ∈ writer.blocks := by rw [hblocks]; exact List.mem_cons_self
      obtain ⟨bits, hpositive, hnext, hparses⟩ := abbreviated_answered hlength hblocks
        (hsound.ordinary block hmem) (hsound.seen block hmem) hrun
      exact record_followed hsound (by simp [hblocks]) hpositive hnext hparses

/-- One operation: the writer stays sound, and a reader follows it. -/
theorem operation_followed {operation : Operation} (hsound : writer.Sound)
    (hvalid : operation.isValid) (hrun : operation.run writer = .ok () next) :
    next.Sound ∧ Changes writer next ∧
      Follows writer next writer.context next.context fun bytes =>
        operation.entries writer next (4 * fieldAt bytes (next.size - 32) 32) := by
  cases operation with
  | enter block width =>
      obtain ⟨hblock, hwidth⟩ := of_decide_eq_true hvalid
      exact enter_followed hsound hblock hwidth hrun
  | exit => exact exit_followed hsound hrun
  | define shape =>
      obtain ⟨id, middle, hdefine, hreturn⟩ := bind_eq_ok_iff.mp hrun
      obtain ⟨-, rfl⟩ := EStateM.Result.ok.inj hreturn
      exact define_followed hsound hvalid hdefine
  | share listed =>
      simp only [isValid, List.all_eq_true] at hvalid
      exact share_followed hsound hvalid hrun
  | plain code fields => exact plain_followed hsound (of_decide_eq_true hvalid) hrun
  | abbreviated id code fields => exact abbreviated_followed hsound (of_decide_eq_true hvalid) hrun

theorem operation_kept {operation : Operation} (hsound : writer.Sound)
    (hordinary : operation.isOrdinary) (hrun : operation.run writer = .ok () next) :
    next.Sound ∧ ∀ bytes, Keeps bytes next → Keeps bytes writer := by
  cases operation with
  | enter block width =>
      obtain ⟨-, -, -, -, -, -, hkeeps, -⟩ := follows_enterBlock hsound.nested hrun
      exact ⟨enter_sound hsound (of_decide_eq_true hordinary).1 hrun, hkeeps⟩
  | exit | define | share | plain | abbreviated =>
      have hfollowed := fun hvalid => operation_followed hsound hvalid hrun
      obtain ⟨hnext, -, hfollows⟩ := hfollowed hordinary
      exact ⟨hnext, hfollows.keeps⟩

end Steps

end Writer

end Bitcode.Bitstream
