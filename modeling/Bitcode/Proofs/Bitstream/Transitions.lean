import Bitcode.Proofs.Bitstream.Progress

namespace Bitcode.Bitstream

open Format Bits

/-- The record was read without an abbreviation, or with the one that has its id. -/
def Record.ReadWith (abbrevs : List Abbrev) (record : Record) : Prop :=
  ∀ id, record.id = some id → ∃ shape, abbrevWithId? abbrevs id = some shape ∧
    ∃ cursor final, shape.readValues cursor = .ok record.values final

/-- What a reader knows apart from its place in the bytes. -/
def Reader.context (reader : Reader) : Context :=
  { scopes := reader.scopes, shared := reader.shared }

/-- A step of a reader between two contexts, with its entry. -/
inductive Transition : Context → Option Entry → Context → Prop where
  | enterInfo (scopes : List Scope) (shared : Shared) (idWidth : Nat) :
      Transition ⟨scopes, shared⟩ none
        ⟨{ block := infoBlockId, idWidth, abbrevs := shared.forBlock infoBlockId } :: scopes, shared⟩
  | enter (scopes : List Scope) (shared : Shared) (block : UInt64) (idWidth size : Nat)
      (hblock : block ≠ infoBlockId) :
      Transition ⟨scopes, shared⟩ (some (.block block size))
        ⟨{ block, idWidth, abbrevs := shared.forBlock block } :: scopes, shared⟩
  | exitInfo (scope : Scope) (rest : List Scope) (shared : Shared) (hinfo : scope.isInfo = true) :
      Transition ⟨scope :: rest, shared⟩ none ⟨rest, shared⟩
  | exit (scope : Scope) (rest : List Scope) (shared : Shared) (hinfo : scope.isInfo = false) :
      Transition ⟨scope :: rest, shared⟩ (some .endBlock) ⟨rest, shared⟩
  | share (scope : Scope) (rest : List Scope) (shared : Shared) (block : UInt64) (shape : Abbrev)
      (hinfo : scope.isInfo = true) :
      Transition ⟨scope :: rest, shared⟩ (some (.definition block shape false))
        ⟨scope :: rest, shared.add block shape⟩
  | define (scope : Scope) (rest : List Scope) (shared : Shared) (shape : Abbrev)
      (hinfo : scope.isInfo = false) :
      Transition ⟨scope :: rest, shared⟩ (some (.definition scope.block shape true))
        ⟨{ scope with abbrevs := scope.abbrevs ++ [shape] } :: rest, shared⟩
  | inform (scope : Scope) (rest : List Scope) (shared : Shared) (target : Option UInt64)
      (hinfo : scope.isInfo = true) :
      Transition ⟨scope :: rest, shared⟩ none ⟨{ scope with target } :: rest, shared⟩
  | record (scope : Scope) (rest : List Scope) (shared : Shared) (item : Record)
      (hinfo : scope.isInfo = false) (hitem : item.ReadWith scope.abbrevs) :
      Transition ⟨scope :: rest, shared⟩ (some (.record item)) ⟨scope :: rest, shared⟩

namespace Reader

section Transitions

variable {reader next : Reader} {found? : Option Entry}

theorem context_of_onCursor {α : Type} {reading : Reading α} {value : α}
    (hrun : onCursor reading reader = .ok value next) : next.context = reader.context := by
  obtain ⟨cursor, -, rfl⟩ := onCursor_eq_ok_iff.mp hrun
  rfl

theorem context_eq_cons {scope : Scope} {rest : List Scope} (hopen : reader.scopes = scope :: rest) :
    reader.context = ⟨scope :: rest, reader.shared⟩ := by
  rw [context, hopen]

theorem exitBlock_transition (hrun : exitBlock reader = .ok found? next) :
    Transition reader.context found? next.context := by
  obtain ⟨_, aligned, halign, hrun⟩ := bind_eq_ok_iff.mp hrun
  rw [← context_of_onCursor halign]
  rw [get_bind_apply] at hrun
  cases hopen : aligned.scopes with
  | nil => exact absurd hrun (by simp only [hopen]; exact throw_ne_ok _ _ _ _)
  | cons scope rest =>
      simp only [hopen] at hrun
      rw [modify_bind_apply] at hrun
      obtain ⟨rfl, rfl⟩ := EStateM.Result.ok.inj hrun
      rw [context_eq_cons hopen]
      cases hinfo : scope.isInfo with
      | true => exact .exitInfo scope rest aligned.shared hinfo
      | false => exact .exit scope rest aligned.shared hinfo

theorem enterBlock_transition (hrun : enterBlock reader = .ok found? next) :
    Transition reader.context found? next.context := by
  obtain ⟨block, first, hfirst, hrun⟩ := bind_eq_ok_iff.mp hrun
  obtain ⟨width, second, hsecond, hrun⟩ := bind_eq_ok_iff.mp hrun
  obtain ⟨_, aligned, halign, hrun⟩ := bind_eq_ok_iff.mp hrun
  rw [← context_of_onCursor hfirst, ← context_of_onCursor hsecond, ← context_of_onCursor halign]
  split at hrun
  · obtain ⟨_, _, hthrow, -⟩ := bind_eq_ok_iff.mp hrun
    exact absurd hthrow (throw_ne_ok _ _ _ _)
  · obtain ⟨words, third, hthird, hrun⟩ := bind_eq_ok_iff.mp hrun
    rw [← context_of_onCursor hthird]
    rw [modify_bind_apply] at hrun
    obtain ⟨rfl, rfl⟩ := EStateM.Result.ok.inj hrun
    by_cases hblock : block = infoBlockId
    · subst hblock
      exact .enterInfo third.scopes third.shared width.toNat
    · rw [if_neg hblock]
      exact .enter third.scopes third.shared block width.toNat (4 * words.toNat) hblock

theorem define_transition {entry : Entry} (hrun : define reader = .ok entry next) :
    Transition reader.context (some entry) next.context := by
  obtain ⟨shape, defined, hshape, hrun⟩ := bind_eq_ok_iff.mp hrun
  rw [← context_of_onCursor hshape]
  rw [get_bind_apply] at hrun
  cases hopen : defined.scopes with
  | nil => exact absurd hrun (by simp only [hopen]; exact throw_ne_ok _ _ _ _)
  | cons scope rest =>
      simp only [hopen] at hrun
      rw [context_eq_cons hopen]
      cases hinfo : scope.isInfo with
      | true =>
          simp only [hinfo, if_true] at hrun
          cases htarget : scope.target with
          | none => exact absurd hrun (by simp only [htarget]; exact throw_ne_ok _ _ _ _)
          | some block =>
              simp only [htarget] at hrun
              rw [modify_bind_apply] at hrun
              obtain ⟨rfl, rfl⟩ := EStateM.Result.ok.inj hrun
              rw [context, hopen]
              exact .share scope rest defined.shared block shape hinfo
      | false =>
          simp only [hinfo] at hrun
          obtain ⟨rfl, rfl⟩ := EStateM.Result.ok.inj hrun
          exact .define scope rest defined.shared shape hinfo

theorem interpret_transition {code : UInt64} {fields : List UInt64} {scope : Scope}
    {rest : List Scope} (hopen : reader.scopes = scope :: rest) (hinfo : scope.isInfo = true)
    (hrun : interpret code fields reader = .ok () next) :
    Transition reader.context none next.context := by
  unfold interpret at hrun
  rw [context_eq_cons hopen]
  cases hcode : InfoCode.ofCode? code with
  | none => exact absurd hrun (by simp only [hcode]; exact throw_ne_ok _ _ _ _)
  | some info =>
      simp only [hcode] at hrun
      cases info with
      | blockName | recordName =>
          obtain ⟨-, rfl⟩ := EStateM.Result.ok.inj hrun
          rw [context_eq_cons hopen]
          exact .inform scope rest reader.shared scope.target hinfo
      | setBlock =>
          cases fields with
          | nil => exact absurd hrun (throw_ne_ok _ _ _ _)
          | cons block fields =>
              obtain ⟨-, rfl⟩ := EStateM.Result.ok.inj hrun
              simp only [hopen]
              exact .inform scope rest reader.shared (some block) hinfo

theorem plainRecord_transition {begin : Nat} (hrun : plainRecord begin reader = .ok found? next) :
    Transition reader.context found? next.context := by
  rw [plainRecord, get_bind_apply] at hrun
  cases hopen : reader.scopes with
  | nil => exact absurd hrun (by simp only [hopen]; exact throw_ne_ok _ _ _ _)
  | cons scope rest =>
      simp only [hopen] at hrun
      obtain ⟨code, first, hfirst, hrun⟩ := bind_eq_ok_iff.mp hrun
      obtain ⟨count, second, hsecond, hrun⟩ := bind_eq_ok_iff.mp hrun
      obtain ⟨fields, third, hthird, hrun⟩ := bind_eq_ok_iff.mp hrun
      have hcontext : third.context = reader.context := by
        rw [context_of_onCursor hthird, context_of_onCursor hsecond, context_of_onCursor hfirst]
      rw [← hcontext]
      have hscopes : third.scopes = scope :: rest := (congrArg Context.scopes hcontext).trans hopen
      cases hinfo : scope.isInfo with
      | true =>
          simp only [hinfo, if_true] at hrun
          obtain ⟨_, last, hlast, hrun⟩ := bind_eq_ok_iff.mp hrun
          obtain ⟨rfl, rfl⟩ := EStateM.Result.ok.inj hrun
          exact interpret_transition hscopes hinfo hlast
      | false =>
          simp only [hinfo] at hrun
          obtain ⟨rfl, rfl⟩ := EStateM.Result.ok.inj hrun
          rw [context_eq_cons hscopes]
          refine .record scope rest third.shared _ hinfo ?_
          rintro id ⟨⟩

theorem abbreviatedRecord_transition {id : UInt64} {begin : Nat}
    (hrun : abbreviatedRecord id begin reader = .ok found? next) :
    Transition reader.context found? next.context := by
  rw [abbreviatedRecord, get_bind_apply] at hrun
  cases hopen : reader.scopes with
  | nil => exact absurd hrun (by simp only [hopen]; exact throw_ne_ok _ _ _ _)
  | cons scope rest =>
      simp only [hopen] at hrun
      cases hshape : abbrevWithId? scope.abbrevs id with
      | none => exact absurd hrun (by simp only [hshape]; exact throw_ne_ok _ _ _ _)
      | some shape =>
          simp only [hshape] at hrun
          obtain ⟨values, read, hread, hrun⟩ := bind_eq_ok_iff.mp hrun
          have hcontext := context_of_onCursor hread
          rw [← hcontext]
          have hscopes : read.scopes = scope :: rest :=
            (congrArg Context.scopes hcontext).trans hopen
          rw [context_eq_cons hscopes]
          cases hinfo : scope.isInfo with
          | true =>
              simp only [hinfo, if_true] at hrun
              obtain ⟨rfl, rfl⟩ := EStateM.Result.ok.inj hrun
              rw [context_eq_cons hscopes]
              exact .inform scope rest read.shared scope.target hinfo
          | false =>
              simp only [hinfo] at hrun
              cases values with
              | nil => exact absurd hrun (throw_ne_ok _ _ _ _)
              | cons code fields =>
                  obtain ⟨rfl, rfl⟩ := EStateM.Result.ok.inj hrun
                  rw [context_eq_cons hscopes]
                  refine .record scope rest read.shared _ hinfo ?_
                  rintro other ⟨⟩
                  obtain ⟨cursor, hcursor, -⟩ := onCursor_eq_ok_iff.mp hread
                  exact ⟨shape, hshape, reader.cursor, cursor, hcursor⟩

/-- Whatever a step reads, it is one of the transitions. -/
theorem step_transition (hrun : step reader = .ok found? next) :
    Transition reader.context found? next.context := by
  rw [step, get_bind_apply] at hrun
  obtain ⟨code, announced, hannounced, hrun⟩ := bind_eq_ok_iff.mp hrun
  rw [← context_of_onCursor hannounced]
  cases hid : AbbrevId.ofCode code with
  | reserved id =>
      simp only [hid] at hrun
      cases id with
      | endBlock => exact exitBlock_transition hrun
      | enterBlock => exact enterBlock_transition hrun
      | defineAbbrev =>
          obtain ⟨entry, defined, hdefine, hrun⟩ := bind_eq_ok_iff.mp hrun
          obtain ⟨rfl, rfl⟩ := EStateM.Result.ok.inj hrun
          exact define_transition hdefine
      | plainRecord => exact plainRecord_transition hrun
  | defined id =>
      simp only [hid] at hrun
      exact abbreviatedRecord_transition hrun

end Transitions

end Reader

/-- The computation never reports that the stream is exhausted. -/
def NeverExhausted {σ α : Type} (computation : EStateM Error σ α) : Prop :=
  ∀ state final, computation state ≠ .error .exhausted final

namespace NeverExhausted

variable {σ α β : Type}

theorem pure (value : α) : NeverExhausted (Pure.pure value : EStateM Error σ α) := by
  rintro state final ⟨⟩

theorem throw {cause : Error} (hcause : cause ≠ .exhausted) :
    NeverExhausted (MonadExcept.throw cause : EStateM Error σ α) := by
  rintro state final ⟨⟩
  exact hcause rfl

theorem state : NeverExhausted (MonadState.get : EStateM Error σ σ) := by
  rintro before after ⟨⟩

theorem modify (change : σ → σ) :
    NeverExhausted (MonadState.modifyGet fun state => ((), change state) : EStateM Error σ Unit) := by
  rintro before after ⟨⟩

theorem bind {first : EStateM Error σ α} {second : α → EStateM Error σ β}
    (hfirst : NeverExhausted first) (hsecond : ∀ value, NeverExhausted (second value)) :
    NeverExhausted (first >>= second) := by
  intro state final hrun
  change EStateM.bind first second state = _ at hrun
  unfold EStateM.bind at hrun
  split at hrun
  · exact hsecond _ _ final hrun
  · rename_i cause middle hcause
    obtain ⟨rfl, rfl⟩ := EStateM.Result.error.inj hrun
    exact hfirst state _ hcause

theorem field (reading : EStateM Bits.Error σ α) :
    NeverExhausted (liftM reading : EStateM Error σ α) := by
  intro state final hrun
  change EStateM.adaptExcept Error.field reading state = _ at hrun
  unfold EStateM.adaptExcept at hrun
  split at hrun
  · simp at hrun
  · simp at hrun

theorem atCursor {reading : Reading α} (hreading : NeverExhausted reading) :
    NeverExhausted (onCursor reading) := by
  intro state final hrun
  unfold Bitstream.onCursor at hrun
  split at hrun
  · simp at hrun
  · rename_i cause cursor hcause
    obtain ⟨rfl, -⟩ := EStateM.Result.error.inj hrun
    exact hreading _ _ hcause

theorem ite {condition : Prop} [Decidable condition] {first second : EStateM Error σ α}
    (hfirst : NeverExhausted first) (hsecond : NeverExhausted second) :
    NeverExhausted (if condition then first else second) := by
  split
  · exact hfirst
  · exact hsecond

end NeverExhausted

section NeverExhausted

open NeverExhausted

theorem neverExhausted_readMany {readOne : Reading UInt64} (hone : NeverExhausted readOne)
    (count : Nat) (before : List UInt64) : NeverExhausted (Abbrev.readMany readOne count before) := by
  induction count generalizing before with
  | zero => exact pure _
  | succ count ih => exact hone.bind fun value => ih (value :: before)

theorem neverExhausted_readScalar (operator : Operator) : NeverExhausted operator.readScalar := by
  cases operator with
  | literal value => exact pure _
  | fixed width => exact ite (pure _) (field _)
  | vbr width => exact ite (pure _) (field _)
  | char6 => exact (field _).bind fun _ => pure _
  | array | blob => exact throw (by simp)

theorem neverExhausted_readOperatorValues (operators : List Operator) :
    NeverExhausted (Abbrev.readOperatorValues operators) := by
  fun_induction Abbrev.readOperatorValues operators with
  | case1 => exact pure _
  | case2 => exact throw (by simp)
  | case3 element rest ih =>
      refine (field _).bind fun count => ?_
      refine (neverExhausted_readMany (neverExhausted_readScalar element) _ _).bind fun _ => ?_
      exact ih.bind fun _ => pure _
  | case4 rest ih =>
      have hblob : NeverExhausted Abbrev.readBlob :=
        (field _).bind fun _ => (modify _).bind fun _ =>
          (neverExhausted_readMany (field _) _ _).bind fun _ => (modify _).bind fun _ => pure _
      exact hblob.bind fun _ => ih.bind fun _ => pure _
  | case5 operator rest _ _ _ ih =>
      exact (neverExhausted_readScalar operator).bind fun _ => ih.bind fun _ => pure _

theorem neverExhausted_readOperator : NeverExhausted Operator.read := by
  refine (field _).bind fun mark => ite ((field _).bind fun _ => pure _) ?_
  refine (field _).bind fun code => ?_
  cases Encoding.ofCode? code with
  | none => exact throw (by simp)
  | some encoding =>
      cases encoding with
      | fixed =>
          refine (field _).bind fun width => ite (pure _) ?_
          exact ite ((throw (by simp)).bind fun _ => pure _) (pure _)
      | vbr =>
          refine (field _).bind fun width => ite (pure _) ?_
          exact ite ((throw (by simp)).bind fun _ => pure _) (pure _)
      | array | char6 | blob => exact pure _

theorem neverExhausted_readOperators (remaining : Nat) (afterArray : Bool) :
    NeverExhausted (Abbrev.readOperators remaining afterArray) := by
  induction remaining generalizing afterArray with
  | zero => exact pure _
  | succ remaining ih =>
      refine neverExhausted_readOperator.bind fun operator => ?_
      cases operator.misplaced? remaining afterArray with
      | some cause => exact throw (by simp)
      | none => exact (ih _).bind fun _ => pure _

theorem neverExhausted_readAbbrev : NeverExhausted Abbrev.read := by
  refine (field _).bind fun count => ite ((throw (by simp)).bind fun _ => ?_) ?_
  · exact (neverExhausted_readOperators _ _).bind fun _ => pure _
  · exact (neverExhausted_readOperators _ _).bind fun _ => pure _

namespace Reader

theorem neverExhausted_exitBlock : NeverExhausted exitBlock := by
  refine (atCursor (modify _)).bind fun _ => state.bind fun reader => ?_
  cases reader.scopes with
  | nil => exact throw (by simp)
  | cons scope rest => exact (modify _).bind fun _ => pure _

theorem neverExhausted_enterBlock : NeverExhausted enterBlock := by
  refine (atCursor (field _)).bind fun block => (atCursor (field _)).bind fun width => ?_
  refine (atCursor (modify _)).bind fun _ => ?_
  refine NeverExhausted.ite ((throw (by simp)).bind fun _ => ?_) ?_
  · exact (atCursor (field _)).bind fun words => (modify _).bind fun _ => pure _
  · exact (atCursor (field _)).bind fun words => (modify _).bind fun _ => pure _

theorem neverExhausted_define : NeverExhausted define := by
  refine (atCursor neverExhausted_readAbbrev).bind fun shape => state.bind fun reader => ?_
  cases reader.scopes with
  | nil => exact throw (by simp)
  | cons scope rest =>
      apply NeverExhausted.ite
      · cases scope.target with
        | none => exact throw (by simp)
        | some block => exact (modify _).bind fun _ => pure _
      · exact (modify _).bind fun _ => pure _

theorem neverExhausted_interpret (code : UInt64) (fields : List UInt64) :
    NeverExhausted (interpret code fields) := by
  unfold interpret
  cases InfoCode.ofCode? code with
  | none => exact throw (by simp)
  | some info =>
      cases info with
      | blockName | recordName => exact pure _
      | setBlock =>
          cases fields with
          | nil => exact throw (by simp)
          | cons block fields => exact modify _

theorem neverExhausted_plainRecord (begin : Nat) : NeverExhausted (plainRecord begin) := by
  refine state.bind fun reader => ?_
  cases reader.scopes with
  | nil => exact throw (by simp)
  | cons scope rest =>
      refine (atCursor (field _)).bind fun code => (atCursor (field _)).bind fun count => ?_
      refine (atCursor (neverExhausted_readMany (field _) _ _)).bind fun fields => ite ?_ ?_
      · exact (neverExhausted_interpret code fields).bind fun _ => pure _
      · exact state.bind fun _ => pure _

theorem neverExhausted_abbreviatedRecord (id : UInt64) (begin : Nat) :
    NeverExhausted (abbreviatedRecord id begin) := by
  refine state.bind fun reader => ?_
  cases reader.scopes with
  | nil => exact throw (by simp)
  | cons scope rest =>
      dsimp only
      cases abbrevWithId? scope.abbrevs id with
      | none => exact throw (by simp)
      | some shape =>
          refine (atCursor (neverExhausted_readOperatorValues _)).bind fun values => ite (pure _) ?_
          cases values with
          | nil => exact throw (by simp)
          | cons code fields => exact state.bind fun _ => pure _

theorem neverExhausted_step : NeverExhausted step := by
  refine state.bind fun reader => (atCursor (field _)).bind fun code => ?_
  cases AbbrevId.ofCode code with
  | reserved id =>
      cases id with
      | endBlock => exact neverExhausted_exitBlock
      | enterBlock => exact neverExhausted_enterBlock
      | defineAbbrev => exact neverExhausted_define.bind fun _ => pure _
      | plainRecord => exact neverExhausted_plainRecord _
  | defined id => exact neverExhausted_abbreviatedRecord id _

end Reader

end NeverExhausted

end Bitcode.Bitstream
