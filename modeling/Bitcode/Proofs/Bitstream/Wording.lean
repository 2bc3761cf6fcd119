import Bitcode.Proofs.Bitstream.Outline
import Bitcode.Proofs.Tree.Unrolling

/-!
The wording of a stream: what it says, and with which abbreviations. Operations of a writer word it, and
a reader of the bytes finds their wordings, up to a block whose ids are too wide for it.
-/

namespace Bitcode.Bitstream

open Format Bits

/-- What a stream says, with the block that a record or the end of a block stands in, the abbreviations
that are seen there, and the abbreviation id of a record. -/
inductive Wording where
  | enter (id : UInt64)
  | exit (place : Place)
  | record (place : Place) (id : Option UInt64) (code : UInt64) (fields : List UInt64)
  deriving DecidableEq, Repr

/-- What a wording says. -/
def Wording.content : Wording → Content
  | .enter id => .enter id
  | .exit _ => .exit
  | .record _ _ code fields => .record code fields

/-- The wording of an entry in the innermost open block. -/
def Entry.wording? (entry : Entry) (place? : Option Place) : Option Wording :=
  match entry with
  | .block id _ => some (.enter id)
  | .endBlock => place?.map .exit
  | .record item => place?.map fun place => .record place item.id item.code item.fields
  | .definition _ _ _ => none

/-- The wording of an operation in the innermost open block. -/
def Operation.wording? (operation : Operation) (place? : Option Place) : Option Wording :=
  match operation with
  | .enter block _ => some (.enter block)
  | .exit => place?.map .exit
  | .plain code fields => place?.map fun place => .record place none code fields
  | .abbreviated id code fields => place?.map fun place => .record place (some id) code fields
  | .define _ => none
  | .share _ => none

/-- The wordings of entries, from an outline on. -/
def Outline.wordings (outline : Outline) (entries : List Entry) : List Wording :=
  (outline.along entries).filterMap fun found => found.1.wording? found.2

/-- The wordings of a file, as far as it can be read. -/
def File.wordings (file : File) : List Wording :=
  file.placed.filterMap fun found => found.1.wording? found.2

namespace Outline

theorem wordings_cons (outline : Outline) (entry : Entry) (entries : List Entry) :
    outline.wordings (entry :: entries) =
      (entry.wording? outline.blocks.head?).toList ++ (outline.step entry).wordings entries := by
  cases hwording : entry.wording? outline.blocks.head? <;> simp [wordings, along, hwording]

theorem wordings_append (outline : Outline) (first second : List Entry) :
    outline.wordings (first ++ second) =
      outline.wordings first ++ (outline.after first).wordings second := by
  induction first generalizing outline with
  | nil => rfl
  | cons entry first ih =>
      rw [List.cons_append, wordings_cons, wordings_cons, ih, List.append_assoc]
      rfl

theorem wordings_eq_nil {outline : Outline} {entries : List Entry}
    (hentries : ∀ entry ∈ entries, entry.content? = none) : outline.wordings entries = [] := by
  induction entries generalizing outline with
  | nil => rfl
  | cons entry entries ih =>
      obtain ⟨hentry, hothers⟩ := List.forall_mem_cons.mp hentries
      rw [wordings_cons, ih hothers]
      cases entry with
      | definition => rfl
      | block | endBlock | record => cases hentry

theorem map_content_wordings {outline : Outline} {entries : List Entry}
    (haccepts : outline.Accepts entries) :
    (outline.wordings entries).map Wording.content = entries.filterMap Entry.content? := by
  induction entries generalizing outline with
  | nil => rfl
  | cons entry entries ih =>
      obtain ⟨hadmits, haccepts⟩ := haccepts
      rw [wordings_cons, List.map_append, ih haccepts]
      cases entry with
      | block | definition => rfl
      | endBlock =>
          obtain ⟨place, rest, hplaces⟩ := hadmits
          simp [Entry.wording?, hplaces, Wording.content, Entry.content?]
      | record item =>
          obtain ⟨place, rest, hplaces, -⟩ := hadmits
          simp [Entry.wording?, hplaces, Wording.content, Entry.content?]

end Outline

theorem Parsed.outline_after {bytes : Array UInt8} {start stop : Nat} {before after : Context}
    {entries : List Entry} (hparsed : Parsed bytes start before entries stop after)
    (hstart : ∃ cursor : Cursor, cursor.StandsAt bytes start) :
    (∃ cursor : Cursor, cursor.StandsAt bytes stop) ∧
      after.outline = before.outline.after entries := by
  induction hparsed with
  | refl => exact ⟨hstart, rfl⟩
  | @step start middle stop before between after found? entries _ _ hstep _ ih =>
      obtain ⟨cursor, hcursor⟩ := hstart
      obtain ⟨next, hrun, hnext⟩ := hstep cursor hcursor
      have htransition : Transition before found? between := Reader.step_transition hrun
      obtain ⟨hstop, hafter⟩ := ih ⟨next, hnext⟩
      refine ⟨hstop, ?_⟩
      cases found? with
      | none => rw [hafter, htransition.outline_eq, Option.toList_none, List.nil_append]
      | some entry => rw [hafter, htransition.outline_step.2]; rfl

namespace Writer

/-- The innermost open block, with the abbreviations that it sees. -/
def place? (writer : Writer) : Option Place :=
  writer.blocks.head?.map fun block => ⟨block.block, block.abbrevs⟩

variable {writer next : Writer} {operation : Operation}

theorem place?_of_blocks {block : OpenBlock} {rest : List OpenBlock}
    (hblocks : writer.blocks = block :: rest) :
    writer.place? = some ⟨block.block, block.abbrevs⟩ := by
  rw [place?, hblocks]
  rfl

theorem head?_outline (hsound : writer.Sound) :
    writer.context.outline.blocks.head? = writer.place? := by
  cases hblocks : writer.blocks with
  | nil => simp [place?, Context.outline, context, hblocks]
  | cons block rest =>
      have hordinary := hsound.ordinary block (hblocks ▸ List.mem_cons_self)
      simp [place?, Context.outline, context, hblocks, Scope.isInfo, OpenBlock.scope, hordinary]

theorem wordings_entries (hsound : writer.Sound) (operation : Operation) (next : Writer)
    (size : Nat) :
    writer.context.outline.wordings (operation.entries writer next size) =
      (operation.wording? writer.place?).toList := by
  cases operation with
  | enter | exit | plain | abbreviated =>
      simp only [Operation.entries, Outline.wordings_cons, head?_outline hsound]
      exact List.append_nil _
  | define shape =>
      apply Outline.wordings_eq_nil
      intro entry hentry
      obtain ⟨block, -, rfl⟩ := List.mem_map.mp hentry
      rfl
  | share listed =>
      apply Outline.wordings_eq_nil
      intro entry hentry
      obtain ⟨definition, -, rfl⟩ := List.mem_map.mp hentry
      rfl

end Writer

/-- Operations lead from one writer to another and have the wordings. A reader can follow them exactly
if all are valid. -/
inductive Words : Prop → Writer → Writer → List Wording → Prop where
  | refl (writer : Writer) : Words True writer writer []
  | step {valid : Prop} {writer next final : Writer} {wordings : List Wording}
      (operation : Operation) (hrun : operation.run writer = .ok () next)
      (hordinary : operation.isOrdinary) (hrest : Words valid next final wordings) :
      Words (operation.isValid ∧ valid) writer final
        ((operation.wording? writer.place?).toList ++ wordings)

section Words

variable {valid other : Prop} {writer middle next : Writer} {wordings : List Wording}

theorem Words.congr (hwords : Words valid writer next wordings) (hiff : valid ↔ other) :
    Words other writer next wordings :=
  propext hiff ▸ hwords

theorem Words.trans {first second : List Wording} (hfirst : Words valid writer middle first)
    (hsecond : Words other middle next second) :
    Words (valid ∧ other) writer next (first ++ second) := by
  induction hfirst with
  | refl => exact hsecond.congr (and_iff_right trivial).symm
  | step operation hrun hordinary _ ih =>
      rw [List.append_assoc]
      exact (Words.step operation hrun hordinary (ih hsecond)).congr and_assoc.symm

theorem Words.single {wording : Wording} (operation : Operation)
    (hrun : operation.run writer = .ok () next) (hordinary : operation.isOrdinary)
    (hwording : operation.wording? writer.place? = some wording) (hvalid : operation.isValid ↔ valid) :
    Words valid writer next [wording] := by
  have hstep := Words.step operation hrun hordinary (.refl next)
  rw [hwording, List.append_nil] at hstep
  exact hstep.congr ((and_iff_left trivial).trans hvalid)

theorem Words.silent (operation : Operation) (hrun : operation.run writer = .ok () next)
    (hordinary : operation.isOrdinary) (hvalid : operation.isValid)
    (hwording : operation.wording? writer.place? = none) : Words True writer next [] := by
  have hstep := Words.step operation hrun hordinary (.refl next)
  rw [hwording, List.append_nil] at hstep
  exact hstep.congr (iff_true_intro ⟨hvalid, trivial⟩)

theorem Words.kept (hwords : Words valid writer next wordings) (hsound : writer.Sound) :
    next.Sound ∧ ∀ bytes, Writer.Keeps bytes next → Writer.Keeps bytes writer := by
  induction hwords with
  | refl => exact ⟨hsound, fun _ hkeeps => hkeeps⟩
  | step operation hrun hordinary _ ih =>
      obtain ⟨hmiddle, hback⟩ := Writer.operation_kept hsound hordinary hrun
      obtain ⟨hnext, hkept⟩ := ih hmiddle
      exact ⟨hnext, fun bytes hkeeps => hback bytes (hkept bytes hkeeps)⟩

/-- A reader finds all wordings if all operations are valid, and else those before a block whose ids are
too wide. -/
theorem Words.parsed {bytes : Array UInt8} (hwords : Words valid writer next wordings)
    (hsound : writer.Sound) (hkeeps : Writer.Keeps bytes next)
    (hstart : ∃ cursor : Cursor, cursor.StandsAt bytes writer.size) :
    ∃ entries,
      valid ∧ Parsed bytes writer.size writer.context entries next.size next.context ∧
          writer.context.outline.wordings entries = wordings ∨
        ¬ valid ∧ ∃ position context block width, 32 < width ∧
          writer.context.outline.wordings entries ++ [.enter block] <+: wordings ∧
          Parsed bytes writer.size writer.context entries position context ∧
          Reader.Ends bytes position context (.scope (.badIdWidth block width)) := by
  induction hwords with
  | refl writer => exact ⟨[], .inl ⟨trivial, .refl _ _, rfl⟩⟩
  | @step valid writer middle next wordings operation hrun hordinary hrest ih =>
      obtain ⟨hmiddle, -⟩ := Writer.operation_kept hsound hordinary hrun
      have hbetween := (hrest.kept hmiddle).2 bytes hkeeps
      by_cases hvalid : operation.isValid
      · obtain ⟨-, -, hfollows⟩ := Writer.operation_followed hsound hvalid hrun
        have hstep := hfollows.parsed bytes hbetween
        obtain ⟨hstands, houtline⟩ := hstep.outline_after hstart
        obtain ⟨entries, hread⟩ := ih hmiddle hkeeps hstands
        refine ⟨operation.entries writer middle (4 * fieldAt bytes (middle.size - 32) 32) ++ entries,
          ?_⟩
        rw [Outline.wordings_append, Writer.wordings_entries hsound, ← houtline]
        rcases hread with ⟨hall, hparsed, rfl⟩ |
          ⟨hwide, position, context, block, width, hwidth, hsaid, hparsed, hends⟩
        · exact .inl ⟨⟨hvalid, hall⟩, hstep.trans hparsed, rfl⟩
        · refine .inr ⟨fun hall => hwide hall.2, position, context, block, width, hwidth, ?_,
            hstep.trans hparsed, hends⟩
          rw [List.append_assoc]
          exact (List.prefix_append_right_inj _).mpr hsaid
      · -- Only the width of ids can be wrong.
        cases operation with
        | enter block width =>
            obtain ⟨hblock, hpositive⟩ := of_decide_eq_true hordinary
            have hwide : 32 < width := by
              rw [← UInt64.not_le]
              exact fun hle => hvalid (decide_eq_true ⟨hblock, hpositive, hle⟩)
            obtain ⟨hinside, hrejects⟩ :=
              Writer.rejects_of_enterBlock hsound.nested hrun hwide hbetween
            exact ⟨[], .inr ⟨fun hall => hvalid hall.1, _, _, block, width, hwide,
              List.prefix_append _ _, .refl _ _, Reader.ends_of_rejects hinside hrejects⟩⟩
        | exit | define | share | plain | abbreviated => exact absurd hordinary hvalid

end Words

section File

variable {bytes : Array UInt8} {file : File}

theorem File.wordings_eq (hopen : ofBytes bytes = .ok file) :
    file.wordings = Outline.wordings {} file.entries.1 := by
  rw [wordings, (outline_entries hopen).2.1, Outline.wordings]

theorem File.map_content_wordings (hopen : ofBytes bytes = .ok file) :
    file.wordings.map Wording.content = file.contents := by
  rw [wordings_eq hopen, contents]
  exact Outline.map_content_wordings (outline_entries hopen).1

end File

/-- How a record is worded: its block, with the abbreviations seen there, its abbreviation id, its code
and its fields. -/
abbrev RecordWording := Place × Option UInt64 × UInt64 × List UInt64

/-- The wording of a record. -/
def recordWording? : Wording → Option RecordWording
  | .record place id code fields => some (place, id, code, fields)
  | _ => none

/-- How a record is worded that was read. -/
def readWording (found : Place × Bitstream.Record) : RecordWording :=
  (found.1, found.2.id, found.2.code, found.2.fields)

theorem map_readWording (file : Bitstream.File) :
    file.records.map readWording = file.wordings.filterMap recordWording? := by
  rw [File.records, File.wordings, List.map_filterMap, List.filterMap_filterMap]
  congr 1
  funext found
  obtain ⟨entry, place?⟩ := found
  cases entry <;> cases place? <;> rfl

end Bitcode.Bitstream
