import Bitcode.Proofs.Bitstream.File
import Bitcode.Proofs.Bitstream.Transitions

namespace Bitcode.Bitstream

open Format Bits

/-- An open block, with the abbreviations that it sees. -/
structure Place where
  block : UInt64
  abbrevs : List Abbrev
  deriving DecidableEq, Repr

/-- The open blocks other than block 0, innermost first, and the shared abbreviations. -/
structure Outline where
  blocks : List Place := []
  shared : Shared := {}

namespace Outline

/-- The outline after an entry. -/
def step (outline : Outline) : Entry → Outline
  | .endBlock => { outline with blocks := outline.blocks.tail }
  | .block id _ => { outline with blocks := ⟨id, outline.shared.forBlock id⟩ :: outline.blocks }
  | .record _ => outline
  | .definition _ shape true =>
      { outline with blocks := outline.blocks.modifyHead fun place =>
          { place with abbrevs := place.abbrevs ++ [shape] } }
  | .definition block shape false => { outline with shared := outline.shared.add block shape }

/-- The entry can come next. -/
def Admits (outline : Outline) : Entry → Prop
  | .endBlock => ∃ place rest, outline.blocks = place :: rest
  | .block id _ => id ≠ infoBlockId
  | .record item => ∃ place rest, outline.blocks = place :: rest ∧ item.ReadWith place.abbrevs
  | .definition block _ true => ∃ place rest, outline.blocks = place :: rest ∧ place.block = block
  | .definition _ _ false => True

/-- Each entry can come after those before it. -/
def Accepts : Outline → List Entry → Prop
  | _, [] => True
  | outline, entry :: rest => outline.Admits entry ∧ (outline.step entry).Accepts rest

/-- The outline after some entries. -/
def after (outline : Outline) (entries : List Entry) : Outline :=
  entries.foldl step outline

/-- The entries, each with the innermost block that is open before it. -/
def along : Outline → List Entry → List (Entry × Option Place)
  | _, [] => []
  | outline, entry :: rest => (entry, outline.blocks.head?) :: (outline.step entry).along rest

end Outline

/-- The outline of what a reader knows. -/
def Context.outline (context : Context) : Outline :=
  { blocks := (context.scopes.filter (!·.isInfo)).map fun scope => ⟨scope.block, scope.abbrevs⟩
    shared := context.shared }

section Transition

variable {before after : Context} {entry : Entry}

theorem Context.outline_info {scope : Scope} (hinfo : scope.isInfo = true) (rest : List Scope)
    (shared : Shared) :
    Context.outline ⟨scope :: rest, shared⟩ = Context.outline ⟨rest, shared⟩ := by
  simp [outline, hinfo]

theorem Context.outline_ordinary {scope : Scope} (hinfo : scope.isInfo = false) (rest : List Scope)
    (shared : Shared) :
    Context.outline ⟨scope :: rest, shared⟩ =
      { Context.outline ⟨rest, shared⟩ with
        blocks := ⟨scope.block, scope.abbrevs⟩ :: (Context.outline ⟨rest, shared⟩).blocks } := by
  simp [outline, hinfo]

theorem Transition.outline_eq (htransition : Transition before none after) :
    after.outline = before.outline := by
  cases htransition with
  | enterInfo scopes shared idWidth => exact Context.outline_info rfl scopes shared
  | exitInfo scope rest shared hinfo => exact (Context.outline_info hinfo rest shared).symm
  | inform scope rest shared target hinfo =>
      have hstill : Scope.isInfo { scope with target } = true := hinfo
      rw [Context.outline_info hinfo, Context.outline_info hstill]

theorem Transition.outline_step (htransition : Transition before (some entry) after) :
    before.outline.Admits entry ∧ after.outline = before.outline.step entry := by
  cases htransition with
  | enter scopes shared block idWidth size hblock =>
      have hordinary : Scope.isInfo { block, idWidth, abbrevs := shared.forBlock block } = false :=
        decide_eq_false hblock
      rw [Context.outline_ordinary hordinary]
      exact ⟨hblock, rfl⟩
  | exit scope rest shared hinfo =>
      rw [Context.outline_ordinary hinfo]
      exact ⟨⟨_, _, rfl⟩, rfl⟩
  | share scope rest shared block shape hinfo =>
      rw [Context.outline_info hinfo, Context.outline_info hinfo]
      exact ⟨trivial, rfl⟩
  | define scope rest shared shape hinfo =>
      have hordinary : Scope.isInfo { scope with abbrevs := scope.abbrevs ++ [shape] } = false := hinfo
      rw [Context.outline_ordinary hinfo, Context.outline_ordinary hordinary]
      exact ⟨⟨_, _, rfl, rfl⟩, rfl⟩
  | record scope rest shared item hinfo hitem =>
      rw [Context.outline_ordinary hinfo]
      exact ⟨⟨_, _, rfl, hitem⟩, rfl⟩

end Transition

namespace Reader

/-- The innermost open block other than block 0, with the abbreviations that it sees. -/
def place? (reader : Reader) : Option Place :=
  (reader.scopes.find? (!·.isInfo)).map fun scope => ⟨scope.block, scope.abbrevs⟩

/-- Read entries until one fails, at most the given number, each with the innermost open block that
it comes in. -/
def placedWithin : Nat → Reader → List (Entry × Option Place)
  | 0, _ => []
  | count + 1, reader =>
      match advance reader with
      | .ok entry next => (entry, reader.place?) :: placedWithin count next
      | .error _ _ => []

/-- All entries up to the first failure, each with the innermost open block that it comes in. -/
def placed (reader : Reader) : List (Entry × Option Place) :=
  reader.placedWithin (reader.bitsLeft + 1)

section Outline

variable {start size : Nat} {reader next : Reader} {entry : Entry}

theorem place?_eq (reader : Reader) : reader.place? = reader.context.outline.blocks.head? := by
  simp [place?, context, Context.outline, List.head?_filter]

theorem advanceWithin_outline {steps : Nat} (hrun : advanceWithin steps reader = .ok entry next) :
    reader.context.outline.Admits entry ∧
      next.context.outline = reader.context.outline.step entry := by
  apply advanceWithin_induction _ _ hrun
  · intro reader hstep
    exact (step_transition hstep).outline_step
  · intro reader middle hstep ih
    rwa [← (step_transition hstep).outline_eq]

theorem bitsLeft_lt {later : Reader} (hreader : reader.cursor.Within size)
    (hlater : later.cursor.Within size)
    (hforward : reader.cursor.position < later.cursor.position) :
    later.bitsLeft < reader.bitsLeft := by
  have hend := hlater.position_le_size
  simp only [bitsLeft, Cursor.bitLength, hreader.size_eq, hlater.size_eq]
  omega

theorem advanceWithin_exhausted {steps : Nat} {final : Reader} (hreader : reader.Informed start size)
    (hstart : start ≤ reader.cursor.position) (hsteps : reader.bitsLeft < steps)
    (hrun : advanceWithin steps reader = .error .exhausted final) :
    final.scopes = [] ∧ final.context.outline = reader.context.outline := by
  -- Each step that gives no entry takes a bit, so the steps do not run out before the bits.
  induction steps generalizing reader with
  | zero => exact absurd hsteps (Nat.not_lt_zero _)
  | succ steps ih =>
      cases hbits : reader.cursor.exhausted with
      | true =>
          change (if reader.cursor.exhausted then _ else _ : Parsing Entry) reader = _ at hrun
          rw [hbits] at hrun
          change (if reader.depth = 0 then _ else _ : Parsing Entry) reader = _ at hrun
          split at hrun
          · rename_i hdepth
            obtain ⟨-, rfl⟩ := EStateM.Result.error.inj hrun
            exact ⟨List.eq_nil_of_length_eq_zero hdepth, rfl⟩
          · cases hrun
      | false =>
          cases hstep : step reader with
          | error cause middle =>
              change (if reader.cursor.exhausted then _ else _ : Parsing Entry) reader = _ at hrun
              rw [hbits] at hrun
              change EStateM.bind step _ reader = _ at hrun
              rw [EStateM.bind, hstep] at hrun
              obtain ⟨rfl, rfl⟩ := EStateM.Result.error.inj hrun
              exact absurd hstep (neverExhausted_step _ _)
          | ok found? middle =>
              rw [advanceWithin_of_step hbits hstep] at hrun
              cases found? with
              | some found => cases hrun
              | none =>
                  obtain ⟨hmiddle, hforward, -⟩ := step_advances hreader hstart hstep
                  have hfewer := bitsLeft_lt hreader.within hmiddle.within hforward
                  rw [← (step_transition hstep).outline_eq]
                  exact ih hmiddle (by omega) (by omega) hrun

theorem collectWithin_fst (count : Nat) (reversed : List Entry) (reader : Reader) :
    (collectWithin count reversed reader).1 =
      reversed.reverse ++ (placedWithin count reader).map (·.1) := by
  induction count generalizing reversed reader with
  | zero => simp [collectWithin, placedWithin]
  | succ count ih =>
      rw [collectWithin, placedWithin]
      cases advance reader with
      | error cause final => simp
      | ok entry next =>
          simp only [ih, List.reverse_cons, List.map_cons, List.append_assoc, List.singleton_append]

theorem collect_fst (reader : Reader) : reader.collect.1 = reader.placed.map (·.1) := by
  rw [collect, collectWithin_fst, List.reverse_nil, List.nil_append, placed]

theorem placedWithin_along (count : Nat) (reader : Reader) :
    reader.context.outline.Accepts ((placedWithin count reader).map (·.1)) ∧
      placedWithin count reader =
        reader.context.outline.along ((placedWithin count reader).map (·.1)) := by
  induction count generalizing reader with
  | zero => exact ⟨trivial, rfl⟩
  | succ count ih =>
      rw [placedWithin]
      cases hadvance : advance reader with
      | error cause final => exact ⟨trivial, rfl⟩
      | ok entry next =>
          obtain ⟨hadmits, hnext⟩ := advanceWithin_outline hadvance
          obtain ⟨haccepts, halong⟩ := ih next
          rw [hnext] at haccepts halong
          refine ⟨⟨hadmits, haccepts⟩, ?_⟩
          simp only [List.map_cons, Outline.along, place?_eq, ← halong]

theorem collectWithin_exhausted {count : Nat} {reversed : List Entry}
    (hreader : reader.Informed start size) (hstart : start ≤ reader.cursor.position)
    (hcount : reader.bitsLeft < count)
    (hend : (collectWithin count reversed reader).2 = .exhausted) :
    (reader.context.outline.after ((placedWithin count reader).map (·.1))).blocks = [] := by
  induction count generalizing reversed reader with
  | zero => exact absurd hcount (Nat.not_lt_zero _)
  | succ count ih =>
      rw [collectWithin] at hend
      rw [placedWithin]
      cases hadvance : advance reader with
      | error cause final =>
          rw [hadvance] at hend
          obtain rfl : cause = .exhausted := hend
          obtain ⟨hscopes, houtline⟩ :=
            advanceWithin_exhausted hreader hstart (Nat.lt_succ_self _) hadvance
          rw [← houtline]
          simp [Outline.after, context, Context.outline, hscopes]
      | ok entry next =>
          rw [hadvance] at hend
          obtain ⟨hnext, -, hbits⟩ := advanceWithin_advances hreader hstart hadvance
          have hpositive : 0 < entry.leastBits := by cases entry <;> simp [Entry.leastBits]
          have hfewer := bitsLeft_lt hreader.within hnext.within (by omega)
          have hrest := ih hnext (by omega) (by omega) hend
          rw [(advanceWithin_outline hadvance).2] at hrest
          exact hrest

end Outline

end Reader

namespace File

variable {bytes : Array UInt8} {file : File}

/-- All entries of a file that can be read, each with the innermost open block that it comes in. -/
def placed (file : File) : List (Entry × Option Place) :=
  file.reader.placed

/-- The record of an entry, with the block that it comes in. -/
def recordIn? : Entry × Option Place → Option (Place × Record)
  | (.record item, some place) => some (place, item)
  | _ => none

/-- The records that are read from a file in their order, each with the block that it comes in. -/
def records (file : File) : List (Place × Record) :=
  file.placed.filterMap recordIn?

theorem entries_eq_map_placed (file : File) : file.entries.1 = file.placed.map (·.1) :=
  (entries_fst file).trans (Reader.collect_fst file.reader)

theorem entries_snd_eq_none_iff (file : File) :
    file.entries.2 = none ↔ file.reader.collect.2 = .exhausted := by
  unfold entries
  split
  · rename_i hcollect
    simp [hcollect]
  · rename_i hother hcollect
    simp only [hcollect, reduceCtorEq, false_iff]
    exact fun hcause => hother hcause

/-- The entries of a file start outside of all blocks. If they are complete they end there. -/
theorem outline_entries (hopen : ofBytes bytes = .ok file) :
    Outline.Accepts {} file.entries.1 ∧ file.placed = Outline.along {} file.entries.1 ∧
      (file.entries.2 = none → (Outline.after {} file.entries.1).blocks = []) := by
  obtain ⟨-, -, -, hreader⟩ := ofBytes_eq_ok_iff.mp hopen
  obtain ⟨hinformed, hstart⟩ := informed_reader hopen
  have houtline : file.reader.context.outline = {} := by rw [hreader]; rfl
  obtain ⟨haccepts, halong⟩ := file.reader.placedWithin_along (file.reader.bitsLeft + 1)
  rw [houtline] at haccepts halong
  rw [entries_eq_map_placed]
  refine ⟨haccepts, halong, fun hend => ?_⟩
  rw [← houtline]
  exact Reader.collectWithin_exhausted hinformed hstart (Nat.lt_succ_self _)
    ((entries_snd_eq_none_iff file).mp hend)

end File

end Bitcode.Bitstream
