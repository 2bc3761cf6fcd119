import Bitcode.Proofs.Bitstream.File
import Bitcode.Proofs.Table
import Bitcode.Tree.Unroll

/-!
What unrolling keeps. The tree of a file has the blocks and records of its entries in their order,
and the tables get only acceptable abbreviations.
-/

namespace Bitcode

open Format Bits

/-- What a stream says, apart from how it is encoded. -/
inductive Content where
  | enter (id : UInt64)
  | exit
  | record (code : UInt64) (fields : List UInt64)
  deriving DecidableEq, Repr

/-- The content is a record. -/
def Content.isRecord : Content → Bool
  | record _ _ => true
  | _ => false

/-- What a stream of so many bits can say: no block has id 0, and a record has no more values than
there are bits after the header. -/
def Content.Bounded (bits : Nat) : Content → Prop
  | enter id => id ≠ infoBlockId
  | exit => True
  | record _ fields => fields.length + 1 + Bitstream.firstBit ≤ bits

/-- What an entry says. Definitions of abbreviations say nothing. -/
def Bitstream.Entry.content? : Entry → Option Content
  | .endBlock => some .exit
  | .block id _ => some (.enter id)
  | .record item => some (.record item.code item.fields)
  | .definition _ _ _ => none

/-- What a file says, as far as it can be read. -/
def Bitstream.File.contents (file : File) : List Content :=
  file.entries.1.filterMap Entry.content?

namespace Tree

/-- What stands in a body. -/
def Body.contents : Body → List Content
  | .empty => []
  | .record item rest => .record item.code item.fields :: rest.contents
  | .block id _ body rest => .enter id :: (body.contents ++ .exit :: rest.contents)

/-- What a block says. -/
def Block.contents (block : Block) : List Content :=
  .enter block.id :: (block.body.contents ++ [.exit])

/-- What a file says. -/
def File.contents (file : File) : List Content :=
  file.blocks.flatMap Block.contents

/-- What stands in a tree: a record with the id of its block, or where a block starts or ends. -/
inductive Mark where
  | enter (id : UInt64)
  | exit (id : UInt64)
  | record (owner : UInt64) (item : Record)

/-- What a mark says. -/
def Mark.content : Mark → Content
  | .enter id => .enter id
  | .exit _ => .exit
  | .record _ item => .record item.code item.fields

/-- The marks of a body, in a block with an id. -/
def Body.marks (owner : UInt64) : Body → List Mark
  | .empty => []
  | .record item rest => .record owner item :: rest.marks owner
  | .block id _ body rest => .enter id :: (body.marks id ++ .exit id :: rest.marks owner)

/-- The marks of a block. -/
def Block.marks (block : Block) : List Mark :=
  .enter block.id :: (block.body.marks block.id ++ [.exit block.id])

/-- The marks of a file. -/
def File.marks (file : File) : List Mark :=
  file.blocks.flatMap Block.marks

/-- The record that a mark stands for, with the id of its block. -/
def Mark.owned? : Mark → Option (UInt64 × Record)
  | .record owner item => some (owner, item)
  | _ => none

/-- The records of a file in their order, each with the id of its block. -/
def File.owned (file : File) : List (UInt64 × Record) :=
  file.marks.filterMap Mark.owned?

theorem Body.map_content_marks (owner : UInt64) (body : Body) :
    (body.marks owner).map Mark.content = body.contents := by
  induction body generalizing owner with
  | empty => rfl
  | record item rest ih => simp [marks, contents, Mark.content, ih]
  | block id bits body rest ihBody ihRest =>
      simp [marks, contents, Mark.content, ihBody, ihRest]

theorem Block.map_content_marks (block : Block) :
    block.marks.map Mark.content = block.contents := by
  simp [marks, contents, Mark.content, Body.map_content_marks]

theorem map_content_flatMap_marks (blocks : List Block) :
    (blocks.flatMap Block.marks).map Mark.content = blocks.flatMap Block.contents := by
  rw [List.map_flatMap]
  congr 1
  funext block
  exact block.map_content_marks

theorem Body.marks_reverseOnto (owner : UInt64) (body others : Body) :
    (body.reverseOnto others).marks owner = body.reverse.marks owner ++ others.marks owner := by
  induction body generalizing others with
  | empty => rfl
  | record item rest ih =>
      change (rest.reverseOnto _).marks owner =
        (rest.reverseOnto (.record item .empty)).marks owner ++ _
      rw [ih, ih]
      simp [marks]
  | block id bits body rest _ ih =>
      change (rest.reverseOnto _).marks owner =
        (rest.reverseOnto (.block id bits body .empty)).marks owner ++ _
      rw [ih, ih]
      simp [marks]

theorem Body.marks_reverse_record (owner : UInt64) (item : Record) (body : Body) :
    (Body.record item body).reverse.marks owner =
      body.reverse.marks owner ++ [.record owner item] :=
  marks_reverseOnto owner body (.record item .empty)

theorem Body.marks_reverse_block (owner id : UInt64) (bits : Nat) (inner body : Body) :
    (Body.block id bits inner body).reverse.marks owner =
      body.reverse.marks owner ++ .enter id :: (inner.marks id ++ [.exit id]) :=
  marks_reverseOnto owner body (.block id bits inner .empty)

namespace Unrolling

/-- What an open block has said so far. -/
def openContents (block : OpenBlock) : List Content :=
  .enter block.id :: block.reversed.reverse.contents

/-- What has been read so far. -/
def contents (state : Unrolling) : List Content :=
  state.reversed.reverse.flatMap Block.contents ++ state.blocks.reverse.flatMap openContents

/-- The marks of an open block so far. -/
def openMarks (block : OpenBlock) : List Mark :=
  .enter block.id :: block.reversed.reverse.marks block.id

/-- The marks so far. -/
def marks (state : Unrolling) : List Mark :=
  state.reversed.reverse.flatMap Block.marks ++ state.blocks.reverse.flatMap openMarks

/-- The mark that an entry adds. -/
def mark? (state : Unrolling) : Bitstream.Entry → Option Mark
  | .endBlock => state.blocks.head?.map fun inner => .exit inner.id
  | .block id _ => some (.enter id)
  | .record item => do
      let inner ← state.blocks.head?
      let row ← state.rowOf inner item.id
      return .record inner.id { code := item.code, fields := item.fields, row, bits := item.bits }
  | .definition _ _ _ => none

theorem contents_eq (state : Unrolling) : state.contents = state.marks.map Mark.content := by
  have hopen : openContents = fun block => (openMarks block).map Mark.content := by
    funext block
    simp [openContents, openMarks, Mark.content, Body.map_content_marks]
  rw [contents, marks, List.map_append, map_content_flatMap_marks, List.map_flatMap, hopen]

section Step

variable {state next : Unrolling} {entry : Bitstream.Entry}

theorem marks_of_eq (hblocks : next.blocks = state.blocks)
    (hreversed : next.reversed = state.reversed) : next.marks = state.marks := by
  rw [marks, marks, hblocks, hreversed]

theorem marks_innermost {inner changed : OpenBlock} {outer : List OpenBlock} {added : List Mark}
    (hblocks : state.blocks = inner :: outer) (hnext : next.blocks = changed :: outer)
    (hreversed : next.reversed = state.reversed)
    (hchanged : openMarks changed = openMarks inner ++ added) :
    next.marks = state.marks ++ added := by
  simp [marks, hblocks, hnext, hreversed, hchanged]

theorem marks_enter (state : Unrolling) (id : UInt64) (size : Nat) :
    (state.enter id size).marks = state.marks ++ [.enter id] := by
  simp [marks, enter, openMarks, Body.reverse, Body.reverseOnto, Body.marks]

theorem marks_finish {inner : OpenBlock} (hblocks : state.blocks = [inner])
    (hnext : next.blocks = [])
    (hreversed : next.reversed =
      ⟨inner.id, inner.bits, inner.reversed.reverse⟩ :: state.reversed) :
    next.marks = state.marks ++ [.exit inner.id] := by
  simp [marks, hblocks, hnext, hreversed, Block.marks, openMarks]

theorem marks_step (hstep : state.step entry = .ok next) :
    next.marks = state.marks ++ (state.mark? entry).toList := by
  cases hblocks : state.blocks with
  | nil =>
      cases entry with
      | block id size =>
          simp only [step, hblocks] at hstep
          obtain rfl := Except.ok.inj hstep
          exact marks_enter state id size
      | definition block shape isLocal =>
          cases isLocal with
          | true => simp [step, hblocks] at hstep
          | false =>
              simp only [step, hblocks] at hstep
              obtain rfl := Except.ok.inj hstep
              exact (marks_of_eq rfl rfl).trans (List.append_nil _).symm
      | record | endBlock => simp [step, hblocks] at hstep
  | cons inner outer =>
      cases entry with
      | block id size =>
          simp only [step, hblocks] at hstep
          obtain rfl := Except.ok.inj hstep
          exact marks_enter state id size
      | definition block shape isLocal =>
          cases isLocal with
          | true =>
              simp only [step, hblocks] at hstep
              obtain rfl := Except.ok.inj hstep
              exact marks_innermost hblocks rfl rfl (List.append_nil _).symm
          | false =>
              simp only [step, hblocks] at hstep
              obtain rfl := Except.ok.inj hstep
              exact (marks_of_eq rfl rfl).trans (List.append_nil _).symm
      | record item =>
          simp only [step, hblocks] at hstep
          split at hstep
          · simp at hstep
          · rename_i row hrow
            obtain rfl := Except.ok.inj hstep
            refine marks_innermost hblocks rfl rfl ?_
            rw [openMarks, Body.marks_reverse_record]
            simp [mark?, hblocks, hrow, openMarks]
      | endBlock =>
          cases outer with
          | nil =>
              simp only [step, hblocks] at hstep
              obtain rfl := Except.ok.inj hstep
              simpa [mark?, hblocks] using marks_finish hblocks rfl rfl
          | cons next outer =>
              simp only [step, hblocks] at hstep
              obtain rfl := Except.ok.inj hstep
              simp [marks, hblocks, openMarks, Body.marks_reverse_block, mark?]

theorem map_content_mark? (hstep : state.step entry = .ok next) :
    (state.mark? entry).map Mark.content = entry.content? := by
  cases hblocks : state.blocks with
  | nil =>
      cases entry with
      | block | definition => rfl
      | record | endBlock => simp [step, hblocks] at hstep
  | cons inner outer =>
      cases entry with
      | block | definition => rfl
      | record item =>
          simp only [step, hblocks] at hstep
          split at hstep
          · simp at hstep
          · rename_i row hrow
            simp [mark?, hblocks, hrow, Mark.content, Bitstream.Entry.content?]
      | endBlock => simp [mark?, hblocks, Mark.content, Bitstream.Entry.content?]

theorem contents_step (hstep : state.step entry = .ok next) :
    next.contents = state.contents ++ entry.content?.toList := by
  rw [contents_eq, contents_eq, marks_step hstep, List.map_append, ← map_content_mark? hstep,
    Option.toList_map]

theorem sound_addAbbrev {block : UInt64} {shape : Abbrev} (htables : state.tables.Sound)
    (hshape : shape.isAcceptable) : (state.addAbbrev block shape).1.tables.Sound :=
  htables.add (Abbrev.isAcceptable_simplify hshape)

theorem sound_addShared {block : UInt64} {shape : Abbrev} (htables : state.tables.Sound)
    (hshape : shape.isAcceptable) : (state.addShared block shape).tables.Sound :=
  (sound_addAbbrev htables hshape).update fun _ htable => htable

theorem tables_step (hstep : state.step entry = .ok next) :
    next.tables = state.tables ∨ (∃ id, next.tables = state.tables.touch id) ∨
      ∃ block shape isLocal, entry = .definition block shape isLocal ∧
        (next.tables = (state.addAbbrev block shape).1.tables ∨
          next.tables = (state.addShared block shape).tables) := by
  unfold step at hstep
  split at hstep
  · obtain rfl := Except.ok.inj hstep
    exact .inr (.inl ⟨_, rfl⟩)
  · obtain rfl := Except.ok.inj hstep
    exact .inr (.inr ⟨_, _, _, rfl, .inr rfl⟩)
  · cases hstep
  · obtain rfl := Except.ok.inj hstep
    exact .inr (.inl ⟨_, rfl⟩)
  · obtain rfl := Except.ok.inj hstep
    exact .inr (.inr ⟨_, _, _, rfl, .inr rfl⟩)
  · obtain rfl := Except.ok.inj hstep
    exact .inr (.inr ⟨_, _, _, rfl, .inl rfl⟩)
  · split at hstep
    · cases hstep
    · obtain rfl := Except.ok.inj hstep
      exact .inl rfl
  · obtain rfl := Except.ok.inj hstep
    exact .inl rfl
  · obtain rfl := Except.ok.inj hstep
    exact .inl rfl

theorem sound_step {start position : Nat} (htables : state.tables.Sound)
    (hentry : entry.Bounded start position) (hstep : state.step entry = .ok next) :
    next.tables.Sound := by
  rcases tables_step hstep with hsame | ⟨id, htouch⟩ | ⟨block, shape, isLocal, rfl, hown | hshared⟩
  · rw [hsame]
    exact htables
  · rw [htouch]
    exact htables.touch id
  · rw [hown]
    exact sound_addAbbrev htables hentry
  · rw [hshared]
    exact sound_addShared htables hentry

/-- All entries that are taken go into the tree, in their order. -/
theorem run_keeps {start position : Nat} {final : Unrolling} {entries : List Bitstream.Entry}
    (htables : state.tables.Sound) (hentries : ∀ entry ∈ entries, entry.Bounded start position)
    (hrun : state.run entries = (final, none)) :
    final.tables.Sound ∧
      final.contents = state.contents ++ entries.filterMap Bitstream.Entry.content? := by
  induction entries generalizing state with
  | nil =>
      obtain ⟨rfl, -⟩ := Prod.mk.inj hrun
      exact ⟨htables, by simp⟩
  | cons entry entries ih =>
      unfold run at hrun
      cases hstep : state.step entry with
      | error cause => simp [hstep] at hrun
      | ok next =>
          simp only [hstep] at hrun
          obtain ⟨hfinal, hcontents⟩ := ih
            (sound_step htables (hentries entry List.mem_cons_self) hstep)
            (fun other hother => hentries other (List.mem_cons_of_mem _ hother)) hrun
          refine ⟨hfinal, ?_⟩
          rw [hcontents, contents_step hstep, List.append_assoc]
          cases hcontent : entry.content? <;> simp [hcontent]

end Step

end Unrolling

theorem unroll_eq_ok {bytes : Array UInt8} {file : File}
    (hresult : (unroll bytes).result = .ok file) :
    ∃ source, Bitstream.File.ofBytes bytes = .ok source ∧ source.entries.2 = none ∧
      source.header = file.header ∧
      source.contents = file.contents ∧
      (unroll bytes).tables.Sound := by
  unfold unroll at hresult ⊢
  by_cases hsize : bytes.size % 4 ≠ 0
  · simp [hsize] at hresult
  cases hopen : Bitstream.File.ofBytes bytes with
  | error cause => simp [hsize, hopen] at hresult
  | ok source =>
      simp only [hsize, hopen, if_false] at hresult ⊢
      cases hrun : Unrolling.run {} source.entries.1 with
      | mk final failed =>
          simp only [hrun] at hresult ⊢
          split at hresult
          · simp at hresult
          · rename_i hfailure
            rw [Option.or_eq_none_iff, Option.or_eq_none_iff, Option.map_eq_none_iff] at hfailure
            obtain ⟨⟨rfl, hending⟩, hclosed⟩ := hfailure
            obtain rfl := Except.ok.inj hresult
            obtain ⟨htables, hcontents⟩ := Unrolling.run_keeps Tables.sound_empty
              (Bitstream.File.entries_bounded hopen).1 hrun
            refine ⟨source, rfl, hending, rfl, ?_, htables⟩
            have hblocks : final.blocks = [] := by
              simpa [endFailure] using hclosed
            simpa [Unrolling.contents, hblocks, File.contents, Bitstream.File.contents]
              using hcontents.symm

theorem two_mul_records_le (entries : List Bitstream.Entry) :
    2 * (entries.filterMap Bitstream.Entry.content?).countP Content.isRecord ≤
      (entries.map Bitstream.Entry.leastBits).sum := by
  induction entries with
  | nil => simp
  | cons entry entries ih =>
      rw [List.filterMap_cons, List.map_cons, List.sum_cons]
      cases entry with
      | endBlock | block =>
          simp only [Bitstream.Entry.content?, Bitstream.Entry.leastBits, List.countP_cons,
            Content.isRecord, Bool.false_eq_true, if_false]
          omega
      | definition =>
          simp only [Bitstream.Entry.content?, Bitstream.Entry.leastBits]
          omega
      | record item =>
          simp only [Bitstream.Entry.content?, Bitstream.Entry.leastBits, List.countP_cons,
            Content.isRecord, if_true]
          omega

theorem contents_bounded {bytes : Array UInt8} {file : File}
    (hresult : (unroll bytes).result = .ok file) :
    (∀ content ∈ file.contents, content.Bounded (8 * bytes.size)) ∧
      2 * file.contents.countP Content.isRecord ≤ 8 * bytes.size := by
  obtain ⟨source, hopen, -, -, hcontents, -⟩ := unroll_eq_ok hresult
  obtain ⟨hbounded, hsum⟩ := Bitstream.File.entries_bounded hopen
  rw [← hcontents, Bitstream.File.contents]
  constructor
  · intro content hcontent
    obtain ⟨entry, hentry, htells⟩ := List.mem_filterMap.mp hcontent
    have hentry := hbounded entry hentry
    cases entry with
    | endBlock =>
        obtain rfl := Option.some.inj htells
        trivial
    | block id size =>
        obtain rfl := Option.some.inj htells
        exact hentry
    | record item =>
        obtain rfl := Option.some.inj htells
        exact hentry
    | definition => simp [Bitstream.Entry.content?] at htells
  · have hrecords := two_mul_records_le source.entries.1
    omega

end Tree

end Bitcode
