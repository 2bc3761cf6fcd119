import Bitcode.Compression.Output
import Bitcode.Proofs.Compression.Plan

namespace Bitcode.Compression

open Format Bitstream
open Bitcode.Tree (Body Block)

/-- What can be written: blocks other than block 0, and records whose values can be counted. -/
def Writable : Content → Prop
  | .enter id => id ≠ infoBlockId
  | .exit => True
  | .record _ fields => fields.length + 1 < 2 ^ 64

theorem next?_eq {selection : Selection} {block : UInt64} {id : Nat} {rest : List Nat}
    (hqueue : (selection.entryOf block).queue.toList.drop (selection.entryOf block).taken =
      id :: rest) :
    selection.next? block = some (id, selection.update block fun _ =>
      { selection.entryOf block with taken := (selection.entryOf block).taken + 1 }) := by
  cases hselected : selection.get? block with
  | none => simp [Selection.entryOf, hselected] at hqueue
  | some selected =>
      have hentry : selection.entryOf block = selected := by rw [Selection.entryOf, hselected]; rfl
      rw [hentry] at hqueue ⊢
      have hid : selected.queue[selected.taken]? = some id := by
        have hfirst := congrArg (·[0]?) hqueue
        simpa using hfirst
      simp [Selection.next?, hselected, Selection.Selected.next?, hid]

namespace Output

/-- The ids that are left in the output's selection are those of the records that are left. -/
def Serves (plan : Plan) (todo : UInt64 → List (List UInt64)) (output : Output) : Prop :=
  match output.selection with
  | none => plan = .plain
  | some selection => ∀ block,
      (selection.entryOf block).kept = plan.kept block ∧
      (selection.entryOf block).queue.toList.drop (selection.entryOf block).taken =
        (todo block).map (plan.pick block)

section Serves

variable {plan : Plan} {todo : UInt64 → List (List UInt64)} {output : Output}

theorem Serves.kept_eq (hserves : Serves plan todo output) (block : UInt64) :
    output.kept block = plan.kept block := by
  unfold Serves at hserves
  unfold Output.kept
  cases hselection : output.selection with
  | none =>
      simp only [hselection] at hserves ⊢
      rw [hserves]
      rfl
  | some selection =>
      simp only [hselection] at hserves ⊢
      rw [Selection.kept_eq, (hserves block).1]

theorem Serves.idWidth_eq (hserves : Serves plan todo output) (block : UInt64) :
    output.idWidth block = plan.width block := by
  have hkept := hserves.kept_eq block
  unfold Output.idWidth
  cases hselection : output.selection with
  | none =>
      simp only [Serves, hselection] at hserves
      have hwidth : idWidthFor 0 = initialIdWidth := by decide
      rw [hserves]
      exact hwidth.symm
  | some selection =>
      simp only [hkept]
      rfl

theorem Serves.of_selection_eq {other : Output} (hserves : Serves plan todo output)
    (hselection : other.selection = output.selection) : Serves plan todo other := by
  rw [Serves, hselection]
  exact hserves

theorem nextId_eq {block : UInt64} (code : UInt64) {values : List UInt64}
    {after : UInt64 → List (List UInt64)} (hserves : Serves plan todo output)
    (hnext : todo block = values :: after block)
    (hothers : ∀ other, other ≠ block → todo other = after other) :
    ∃ next, nextId block code output = .ok (plan.pick block values) next ∧
      next.writer = output.writer ∧ next.wroteInfo = output.wroteInfo ∧ Serves plan after next := by
  rw [nextId, get_bind_apply]
  cases hselection : output.selection with
  | none =>
      simp only [Serves, hselection] at hserves
      refine ⟨output, ?_, rfl, rfl, ?_⟩
      · rw [hserves]
        rfl
      · simpa only [Serves, hselection] using hserves
  | some selection =>
      simp only [Serves, hselection] at hserves
      have hqueue := (hserves block).2
      rw [hnext, List.map_cons] at hqueue
      simp only [next?_eq hqueue]
      refine ⟨_, rfl, rfl, rfl, ?_⟩
      intro other
      rw [Selection.entryOf_update]
      by_cases hother : other = block
      · subst hother
        rw [if_pos rfl]
        refine ⟨(hserves other).1, ?_⟩
        rw [← List.drop_drop, hqueue]
        rfl
      · rw [if_neg hother, ← hothers other hother]
        exact hserves other

end Serves

/-- Block 0 has been written, and everything is as the plan says. -/
structure Inside (plan : Plan) (todo : UInt64 → List (List UInt64)) (output : Output) : Prop where
  informed : output.wroteInfo = true
  arranged : Arranged plan output.writer
  offered : ∀ id, output.writer.shared.forBlock id = plan.offered id
  serves : Serves plan todo output

theorem onWriter_eq_ok {α : Type} {composing : Composing α} {value : α} {output : Output}
    {writer : Writer} (hrun : composing output.writer = .ok value writer) :
    onWriter composing output = .ok value { output with writer } := by
  simp only [onWriter, hrun]

section Steps

variable {plan : Plan} {todo : UInt64 → List (List UInt64)} {output : Output}
  {block : OpenBlock} {rest : List OpenBlock}

theorem defines_eq_ok {shapes : List Abbrev} {writer : Writer}
    (hrun : (shapes.forM fun shape => (Operation.define shape).run) output.writer =
      .ok () writer) :
    (shapes.forM fun shape => discard (onWriter (Writer.define shape)) : Writes Unit) output =
      .ok () { output with writer } := by
  induction shapes generalizing output with
  | nil =>
      obtain ⟨-, rfl⟩ := EStateM.Result.ok.inj hrun
      rfl
  | cons shape shapes ih =>
      obtain ⟨_, middle, hfirst, hrest⟩ := bind_eq_ok_iff.mp hrun
      obtain ⟨id, defined, hdefine, hreturn⟩ := bind_eq_ok_iff.mp hfirst
      obtain ⟨-, rfl⟩ := EStateM.Result.ok.inj hreturn
      exact bind_eq_ok_iff.mpr ⟨(), { output with writer := defined },
        discard_eq_ok (onWriter_eq_ok hdefine), ih hrest⟩

theorem enterBlock_of_ne {id : UInt64} {writer : Writer} (hserves : Serves plan todo output)
    (hid : id ≠ moduleBlockId)
    (hrun : Writer.enterBlock id (UInt64.ofNat (plan.width id)) output.writer = .ok () writer) :
    enterBlock id output = .ok () { output with writer } := by
  rw [enterBlock, get_bind_apply, get_bind_apply, hserves.idWidth_eq]
  refine bind_eq_ok_iff.mpr ⟨(), _, onWriter_eq_ok hrun, ?_⟩
  rw [if_neg hid]
  rfl

theorem enterBlock_module {entered defined : Writer} {next : Output}
    (hserves : Serves plan todo output)
    (hrun : Writer.enterBlock moduleBlockId (UInt64.ofNat (plan.width moduleBlockId))
      output.writer = .ok () entered)
    (hdefine : ((plan.kept moduleBlockId).forM fun shape => (Operation.define shape).run) entered =
      .ok () defined)
    (hinfo : writeInfo { output with writer := defined } = .ok () next) :
    enterBlock moduleBlockId output = .ok () next := by
  rw [enterBlock, get_bind_apply, get_bind_apply, hserves.idWidth_eq, hserves.kept_eq]
  refine bind_eq_ok_iff.mpr ⟨(), _, onWriter_eq_ok hrun, ?_⟩
  rw [if_pos rfl]
  exact bind_eq_ok_iff.mpr ⟨(), { output with writer := defined }, defines_eq_ok hdefine, hinfo⟩

theorem writeInfo_of_wroteInfo (hinformed : output.wroteInfo = true) :
    writeInfo output = .ok () output := by
  rw [writeInfo, get_bind_apply, if_pos hinformed]
  rfl

/-- A block is entered once block 0 has been written. -/
theorem enterBlock_words {id : UInt64} (hplan : plan.Sound) (hinside : Inside plan todo output)
    (hid : id ≠ infoBlockId) :
    ∃ next place, enterBlock id output = .ok () next ∧
      next.writer.blocks =
        ⟨id, plan.width id, place, plan.kept id⟩ :: output.writer.blocks ∧
      Inside plan todo next ∧ Words (plan.width id ≤ 32) output.writer next.writer [.enter id] := by
  by_cases hmodule : id = moduleBlockId
  · subst hmodule
    obtain ⟨entered, defined, place, henter, hdefine, hblocks, hshared, harranged, hwords⟩ :=
      module_words hplan hinside.arranged (hinside.offered moduleBlockId)
    refine ⟨{ output with writer := defined }, place, ?_, hblocks,
      ⟨hinside.informed, harranged, ?_, hinside.serves.of_selection_eq rfl⟩, hwords⟩
    · exact enterBlock_module hinside.serves henter hdefine
        (writeInfo_of_wroteInfo hinside.informed)
    · intro other
      rw [hshared]
      exact hinside.offered other
  · obtain ⟨entered, place, henter, hblocks, hshared, hsound, hwords⟩ :=
      enter_words hplan hinside.arranged hid
    rw [hinside.offered, Plan.offered, if_neg hmodule] at hblocks
    refine ⟨{ output with writer := entered }, place, enterBlock_of_ne hinside.serves hmodule henter,
      hblocks, ⟨hinside.informed, hinside.arranged.cons hsound hblocks, ?_,
        hinside.serves.of_selection_eq rfl⟩, hwords⟩
    intro other
    rw [hshared]
    exact hinside.offered other

theorem exitBlock_words (hplan : plan.Sound) (hinside : Inside plan todo output)
    (hblocks : output.writer.blocks = block :: rest) :
    ∃ next, onWriter Writer.exitBlock output = .ok () next ∧ next.writer.blocks = rest ∧
      Inside plan todo next ∧
      Words True output.writer next.writer [.exit (plan.place block.block)] := by
  obtain ⟨writer, hrun, hrest, hshared, harranged, hwords⟩ :=
    exit_words hplan hinside.arranged hblocks
  refine ⟨{ output with writer }, onWriter_eq_ok hrun, hrest,
    ⟨hinside.informed, harranged, ?_, hinside.serves.of_selection_eq rfl⟩, hwords⟩
  intro other
  rw [hshared]
  exact hinside.offered other

theorem writeRecord_words {item : Tree.Record} (after : UInt64 → List (List UInt64))
    (hplan : plan.Sound) (hinside : Inside plan todo output)
    (hblocks : output.writer.blocks = block :: rest)
    (hnext : todo block.block = item.values :: after block.block)
    (hothers : ∀ other, other ≠ block.block → todo other = after other)
    (hencodes : plan.Encodes block.block item.values) (hlength : item.fields.length + 1 < 2 ^ 64) :
    ∃ next, writeRecord block.block item output = .ok () next ∧
      next.writer.blocks = output.writer.blocks ∧ Inside plan after next ∧
      Words True output.writer next.writer [plan.wording (.record block.block item)] := by
  obtain ⟨middle, htake, hwriter, hinformed, hserves⟩ :=
    nextId_eq item.code hinside.serves hnext hothers
  have hresult : ∀ writer, writer.shared = output.writer.shared → Arranged plan writer →
      Inside plan after { middle with writer } := by
    intro writer hshared harranged
    refine ⟨hinformed.trans hinside.informed, harranged, ?_, hserves.of_selection_eq rfl⟩
    intro other
    simp only [hshared]
    exact hinside.offered other
  rcases hencodes with hplain | ⟨place, shape, hpick, hshape, hencode⟩
  · obtain ⟨writer, hrun, hsame, hshared, harranged, hwords⟩ :=
      plain_words hplan hinside.arranged hblocks hlength
    refine ⟨{ middle with writer }, bind_eq_ok_iff.mpr ⟨_, middle, htake, ?_⟩, hsame,
      hresult writer hshared harranged, ?_⟩
    · rw [if_pos hplain]
      exact onWriter_eq_ok (hwriter ▸ hrun)
    · rw [Plan.wording, Plan.id?, if_pos hplain]
      exact hwords
  · obtain ⟨writer, hrun, hsame, hshared, harranged, hwords⟩ :=
      abbreviated_words hplan hinside.arranged hblocks hlength hshape hencode
    have hdefined : plan.pick block.block item.values ≠ plainRow := by
      rw [hpick, plainRow, firstDefinedId]
      omega
    refine ⟨{ middle with writer }, bind_eq_ok_iff.mpr ⟨_, middle, htake, ?_⟩, hsame,
      hresult writer hshared harranged, ?_⟩
    · rw [if_neg hdefined, hpick]
      exact onWriter_eq_ok (hwriter ▸ hrun)
    · rw [Plan.wording, Plan.id?, if_neg hdefined, hpick]
      exact hwords

end Steps

theorem writeBody_words {plan : Plan} {later : UInt64 → List (List UInt64)} {output : Output}
    {block : OpenBlock} {rest : List OpenBlock} (hplan : plan.Sound) (body : Body)
    (hinside : Inside plan (fun target => body.valuesIn target block.block ++ later target) output)
    (hblocks : output.writer.blocks = block :: rest)
    (hencodes : ∀ target, ∀ values ∈ body.valuesIn target block.block, plan.Encodes target values)
    (hwritable : ∀ content ∈ body.contents, Writable content) :
    ∃ next, writeBody block.block body output = .ok () next ∧
      next.writer.blocks = output.writer.blocks ∧ Inside plan later next ∧
      Words (∀ mark ∈ body.marks block.block, plan.Admits mark) output.writer next.writer
        ((body.marks block.block).map plan.wording) := by
  induction body generalizing later output block rest with
  | empty =>
      exact ⟨output, rfl, rfl, hinside, (Words.refl _).congr (by simp [Body.marks])⟩
  | record item body ih =>
      have hfirst : item.values ∈ (Body.record item body).valuesIn block.block block.block := by
        simp [Body.valuesIn]
      obtain ⟨middle, hrecord, hsame, hmiddle, htells⟩ := writeRecord_words
        (fun target => body.valuesIn target block.block ++ later target) hplan hinside hblocks
        (by simp [Body.valuesIn]) (fun other hother => by simp [Body.valuesIn, Ne.symm hother])
        (hencodes _ _ hfirst) (hwritable _ List.mem_cons_self)
      obtain ⟨next, hrest, hkept, hnext, hmore⟩ := ih hmiddle (hsame.trans hblocks)
        (fun target values hvalues => hencodes target values (by
          simp only [Body.valuesIn]
          split
          · exact List.mem_cons_of_mem _ hvalues
          · exact hvalues))
        fun content hcontent => hwritable content (List.mem_cons_of_mem _ hcontent)
      refine ⟨next, bind_eq_ok_iff.mpr ⟨(), middle, hrecord, hrest⟩, hkept.trans hsame, hnext,
        (htells.trans hmore).congr ?_⟩
      rw [Body.marks, List.forall_mem_cons]
      rfl
  | block id bits inner body ihInner ihBody =>
      have htodo : (fun target =>
          (Body.block id bits inner body).valuesIn target block.block ++ later target) =
          fun target => inner.valuesIn target id ++
            (body.valuesIn target block.block ++ later target) := by
        funext target
        rw [Body.valuesIn, List.append_assoc]
      rw [htodo] at hinside
      obtain ⟨entered, place, henter, hopened, hentered, hstarts⟩ :=
        enterBlock_words hplan hinside (hwritable _ List.mem_cons_self)
      obtain ⟨filled, hfill, hfilledBlocks, hfilled, htells⟩ := ihInner hentered hopened
        (fun target values hvalues => hencodes target values (List.mem_append_left _ hvalues))
        fun content hcontent =>
          hwritable content (List.mem_cons_of_mem _ (List.mem_append_left _ hcontent))
      obtain ⟨left, hexit, hleftBlocks, hleft, hends⟩ :=
        exitBlock_words hplan hfilled (hfilledBlocks.trans hopened)
      obtain ⟨next, hrest, hkept, hnext, hmore⟩ := ihBody hleft (hleftBlocks.trans hblocks)
        (fun target values hvalues => hencodes target values (List.mem_append_right _ hvalues))
        fun content hcontent => hwritable content
          (List.mem_cons_of_mem _ (List.mem_append_right _ (List.mem_cons_of_mem _ hcontent)))
      refine ⟨next, ?_, hkept.trans hleftBlocks, hnext, ?_⟩
      · refine bind_eq_ok_iff.mpr ⟨(), entered, henter, ?_⟩
        refine bind_eq_ok_iff.mpr ⟨(), filled, hfill, ?_⟩
        exact bind_eq_ok_iff.mpr ⟨(), left, hexit, hrest⟩
      · rw [Body.marks, List.map_cons, List.map_append]
        refine (hstarts.trans (htells.trans (hends.trans hmore))).congr ?_
        rw [List.forall_mem_cons, List.forall_mem_append, List.forall_mem_cons]
        rfl

/-- Block 0 has not been written, and would offer what the plan says. -/
structure Outside (plan : Plan) (todo : UInt64 → List (List UInt64)) (output : Output) : Prop where
  uninformed : output.wroteInfo = false
  arranged : Arranged plan output.writer
  undefined : output.writer.shared.definitions = []
  offers : ∀ id, Shared.forBlock ⟨Operation.definitions output.shared⟩ id = plan.offered id
  readable : ∀ entry ∈ output.shared, ∀ shape ∈ entry.2, Operation.isReadable shape
  serves : Serves plan todo output

section Blocks

variable {plan : Plan} {todo : UInt64 → List (List UInt64)} {output : Output}

theorem shared_of_selection_eq {other : Output} (hselection : other.selection = output.selection) :
    other.shared = output.shared := by
  rw [shared, shared, hselection]

theorem writeInfo_words (hplan : plan.Sound) (houtside : Outside plan todo output) :
    ∃ next, writeInfo output = .ok () next ∧ next.writer.blocks = output.writer.blocks ∧
      Inside plan todo next ∧ Words True output.writer next.writer [] := by
  have hshared : ({ output with wroteInfo := true } : Output).shared = output.shared :=
    shared_of_selection_eq rfl
  rw [writeInfo, get_bind_apply]
  simp only [houtside.uninformed, Bool.false_eq_true, if_false]
  rw [modify_bind_apply, get_bind_apply, hshared]
  by_cases hempty : output.shared.isEmpty
  · refine ⟨{ output with wroteInfo := true }, by rw [if_pos hempty]; rfl, rfl,
      ⟨rfl, houtside.arranged, ?_, houtside.serves.of_selection_eq rfl⟩, .refl _⟩
    intro id
    have hoffers := houtside.offers id
    rw [List.isEmpty_iff.mp hempty] at hoffers
    rw [Shared.forBlock, houtside.undefined]
    exact hoffers
  · obtain ⟨writer, hrun, hblocks, hdefined, harranged, hwords⟩ :=
      info_words hplan houtside.arranged houtside.readable
    refine ⟨{ output with writer, wroteInfo := true }, ?_, hblocks,
      ⟨rfl, harranged, ?_, houtside.serves.of_selection_eq rfl⟩, hwords⟩
    · rw [if_neg hempty]
      exact onWriter_eq_ok hrun
    · intro id
      rw [houtside.undefined, List.nil_append] at hdefined
      rw [Shared.forBlock, hdefined]
      exact houtside.offers id

theorem writeInfo_inside (hplan : plan.Sound)
    (houtput : Outside plan todo output ∨ Inside plan todo output) :
    ∃ next, writeInfo output = .ok () next ∧ next.writer.blocks = output.writer.blocks ∧
      Inside plan todo next ∧ Words True output.writer next.writer [] := by
  rcases houtput with houtside | hinside
  · exact writeInfo_words hplan houtside
  · exact ⟨output, writeInfo_of_wroteInfo hinside.informed, rfl, hinside, .refl _⟩

theorem enterModule_words (hplan : plan.Sound)
    (houtput : Outside plan todo output ∨ Inside plan todo output) :
    ∃ next place, enterBlock moduleBlockId output = .ok () next ∧
      next.writer.blocks = ⟨moduleBlockId, plan.width moduleBlockId, place,
        plan.kept moduleBlockId⟩ :: output.writer.blocks ∧
      Inside plan todo next ∧
      Words (plan.width moduleBlockId ≤ 32) output.writer next.writer [.enter moduleBlockId] := by
  rcases houtput with houtside | hinside
  · obtain ⟨entered, defined, place, henter, hdefine, hblocks, hshared, harranged, hwords⟩ :=
      module_words hplan houtside.arranged (by rw [Shared.forBlock, houtside.undefined]; rfl)
    have hdefined : Outside plan todo { output with writer := defined } :=
      ⟨houtside.uninformed, harranged, by rw [hshared]; exact houtside.undefined,
        houtside.offers, houtside.readable, houtside.serves.of_selection_eq rfl⟩
    obtain ⟨next, hinfo, hsame, hinside, hsilent⟩ := writeInfo_words hplan hdefined
    exact ⟨next, place, enterBlock_module houtside.serves henter hdefine hinfo,
      hsame.trans hblocks, hinside, (hwords.trans hsilent).congr (and_iff_left trivial)⟩
  · exact enterBlock_words hplan hinside (by decide)

theorem finishBlock_words {later : UInt64 → List (List UInt64)} {entered : Output} {place : Nat}
    (hplan : plan.Sound) {block : Block}
    (hopened : entered.writer.blocks =
      ⟨block.id, plan.width block.id, place, plan.kept block.id⟩ :: output.writer.blocks)
    (hinside : Inside plan (fun target => block.body.valuesIn target block.id ++ later target)
      entered)
    (hencodes : ∀ target, ∀ values ∈ block.body.valuesIn target block.id,
      plan.Encodes target values)
    (hwritable : ∀ content ∈ block.contents, Writable content)
    (hstarts : Words (plan.width block.id ≤ 32) output.writer entered.writer [.enter block.id]) :
    ∃ next, (do writeBody block.id block.body
                onWriter Writer.exitBlock : Writes Unit) entered = .ok () next ∧
      next.writer.blocks = output.writer.blocks ∧ Inside plan later next ∧
      Words (∀ mark ∈ block.marks, plan.Admits mark) output.writer next.writer
        (block.marks.map plan.wording) := by
  obtain ⟨filled, hfill, hsame, hfilled, htells⟩ := writeBody_words hplan block.body hinside
    hopened hencodes fun content hcontent =>
      hwritable content (List.mem_cons_of_mem _ (List.mem_append_left _ hcontent))
  obtain ⟨next, hexit, hleft, hnext, hends⟩ :=
    exitBlock_words hplan hfilled (hsame.trans hopened)
  refine ⟨next, bind_eq_ok_iff.mpr ⟨(), filled, hfill, hexit⟩, hleft, hnext, ?_⟩
  rw [Block.marks, List.map_cons, List.map_append]
  refine (hstarts.trans (htells.trans hends)).congr ?_
  rw [List.forall_mem_cons, List.forall_mem_append, List.forall_mem_singleton]
  rfl

theorem writeBlock_words {later : UInt64 → List (List UInt64)} (hplan : plan.Sound)
    (block : Block)
    (houtput : Outside plan (fun target => block.body.valuesIn target block.id ++ later target)
        output ∨
      Inside plan (fun target => block.body.valuesIn target block.id ++ later target) output)
    (hencodes : ∀ target, ∀ values ∈ block.body.valuesIn target block.id,
      plan.Encodes target values)
    (hwritable : ∀ content ∈ block.contents, Writable content) :
    ∃ next, writeBlock block output = .ok () next ∧
      next.writer.blocks = output.writer.blocks ∧ Inside plan later next ∧
      Words (∀ mark ∈ block.marks, plan.Admits mark) output.writer next.writer
        (block.marks.map plan.wording) := by
  have hid : block.id ≠ infoBlockId := hwritable _ List.mem_cons_self
  unfold writeBlock
  by_cases hmodule : block.id = moduleBlockId
  · obtain ⟨entered, place, henter, hopened, hinside, hstarts⟩ := enterModule_words hplan houtput
    rw [← hmodule] at henter hopened hstarts
    obtain ⟨next, hrest, hresult⟩ :=
      finishBlock_words hplan hopened hinside hencodes hwritable hstarts
    refine ⟨next, ?_, hresult⟩
    rw [if_neg (not_not_intro hmodule)]
    exact bind_eq_ok_iff.mpr ⟨(), entered, henter, hrest⟩
  · obtain ⟨informed, hinfo, hsame, hinformed, hsilent⟩ := writeInfo_inside hplan houtput
    obtain ⟨entered, place, henter, hopened, hinside, hstarts⟩ :=
      enterBlock_words hplan hinformed hid
    rw [hsame] at hopened
    obtain ⟨next, hrest, hresult⟩ := finishBlock_words hplan hopened hinside hencodes hwritable
      ((hsilent.trans hstarts).congr (and_iff_right trivial))
    refine ⟨next, ?_, hresult⟩
    rw [if_pos hmodule]
    refine bind_eq_ok_iff.mpr ⟨(), informed, hinfo, ?_⟩
    exact bind_eq_ok_iff.mpr ⟨(), entered, henter, hrest⟩

theorem writeBlocks_words (hplan : plan.Sound) (blocks : List Block)
    (houtput : Outside plan (Tree.valuesIn blocks) output ∨
      Inside plan (Tree.valuesIn blocks) output)
    (hencodes : ∀ target, ∀ values ∈ Tree.valuesIn blocks target, plan.Encodes target values)
    (hwritable : ∀ content ∈ blocks.flatMap Block.contents, Writable content) :
    ∃ next, blocks.forM writeBlock output = .ok () next ∧
      next.writer.blocks = output.writer.blocks ∧
      Words (∀ mark ∈ blocks.flatMap Block.marks, plan.Admits mark) output.writer next.writer
        ((blocks.flatMap Block.marks).map plan.wording) := by
  induction blocks generalizing output with
  | nil => exact ⟨output, rfl, rfl, (Words.refl _).congr (by simp)⟩
  | cons block blocks ih =>
      have htodo : Tree.valuesIn (block :: blocks) =
          fun target => block.body.valuesIn target block.id ++ Tree.valuesIn blocks target := by
        funext target
        exact Tree.valuesIn_cons block blocks target
      rw [htodo] at houtput hencodes
      obtain ⟨middle, hfirst, hsame, hmiddle, htells⟩ := writeBlock_words hplan block houtput
        (fun target values hvalues => hencodes target values (List.mem_append_left _ hvalues))
        fun content hcontent => hwritable content
          (List.mem_flatMap.mpr ⟨block, List.mem_cons_self, hcontent⟩)
      obtain ⟨next, hrest, hkept, hmore⟩ := ih (.inr hmiddle)
        (fun target values hvalues => hencodes target values (List.mem_append_right _ hvalues))
        fun content hcontent => hwritable content (by
          rw [List.flatMap_cons]
          exact List.mem_append_right _ hcontent)
      refine ⟨next, bind_eq_ok_iff.mpr ⟨(), middle, hfirst, hrest⟩, hkept.trans hsame, ?_⟩
      rw [List.flatMap_cons, List.map_append]
      exact (htells.trans hmore).congr List.forall_mem_append.symm

end Blocks

end Output

end Bitcode.Compression
