import Bitcode.Bitstream.Reader
import Bitcode.Proofs.Bits.Transmission

namespace Bitcode.Bitstream

open Format Bits

/-- What a reader knows apart from its place in the bytes. -/
structure Context where
  scopes : List Scope := []
  shared : Shared := {}

/-- The reader in a context with a cursor. -/
def Context.reader (context : Context) (cursor : Cursor) : Reader :=
  { cursor, scopes := context.scopes, shared := context.shared }

/-- A parsing computation gives a value between two positions of the bytes, and leads from one
context to another. -/
def Parses {α : Type} (parsing : Parsing α) (bytes : Array UInt8) (start : Nat) (before : Context)
    (value : α) (stop : Nat) (after : Context) : Prop :=
  ∀ cursor, cursor.StandsAt bytes start →
    ∃ next, parsing (before.reader cursor) = .ok value (after.reader next) ∧
      next.StandsAt bytes stop

section Parses

variable {α β : Type} {bytes : Array UInt8} {start middle stop : Nat}
  {before between after : Context}

theorem Parses.pure (value : α) :
    Parses (Pure.pure value) bytes start before value start before :=
  fun cursor hcursor => ⟨cursor, rfl, hcursor⟩

theorem Parses.bind {first : Parsing α} {second : α → Parsing β} {a : α} {b : β}
    (hfirst : Parses first bytes start before a middle between)
    (hsecond : Parses (second a) bytes middle between b stop after) :
    Parses (first >>= second) bytes start before b stop after := by
  intro cursor hcursor
  obtain ⟨halfway, hparse, hhalfway⟩ := hfirst cursor hcursor
  obtain ⟨next, hnext, hstands⟩ := hsecond halfway hhalfway
  exact ⟨next, bind_eq_ok_iff.mpr ⟨a, _, hparse, hnext⟩, hstands⟩

theorem Parses.get {second : Reader → Parsing β} {b : β}
    (hsecond : ∀ cursor : Cursor, cursor.position = start →
      Parses (second (before.reader cursor)) bytes start before b stop after) :
    Parses (MonadState.get >>= second) bytes start before b stop after := by
  intro cursor hcursor
  obtain ⟨next, hnext, hstands⟩ := hsecond cursor hcursor.position_eq cursor hcursor
  exact ⟨next, bind_eq_ok_iff.mpr ⟨_, _, rfl, hnext⟩, hstands⟩

theorem Parses.modify (result : Context) {change : Reader → Reader}
    (hchange : ∀ cursor, change (before.reader cursor) = result.reader cursor) :
    Parses (MonadState.modifyGet fun reader => ((), change reader)) bytes start before () start
      result := by
  intro cursor hcursor
  refine ⟨cursor, ?_, hcursor⟩
  rw [← hchange]
  rfl

theorem Parses.onCursor {reading : Reading α} {value : α}
    (hreads : Reads reading bytes start value stop) :
    Parses (onCursor reading) bytes start before value stop before := by
  intro cursor hcursor
  obtain ⟨next, hread, hstands⟩ := hreads cursor hcursor
  refine ⟨next, ?_, hstands⟩
  simp only [Bitstream.onCursor, Context.reader, hread]

/-- A field of the stream is read in any context. -/
theorem Parses.field {reading : Bits.Reading α} {value : α}
    (hreads : Reads reading bytes start value stop) :
    Parses (liftM reading : Parsing α) bytes start before value stop before :=
  Parses.onCursor (hreads.adaptExcept Error.field)

end Parses

/-- A parsing computation fails at a position of the bytes in a context. -/
def Rejects {α : Type} (parsing : Parsing α) (bytes : Array UInt8) (start : Nat) (before : Context)
    (cause : Error) : Prop :=
  ∀ cursor, cursor.StandsAt bytes start →
    ∃ final, parsing (before.reader cursor) = .error cause final

section Rejects

variable {α β : Type} {bytes : Array UInt8} {start middle : Nat} {before between : Context}
  {cause : Error}

theorem Rejects.throw_bind (cause : Error) (second : α → Parsing β) :
    Rejects (MonadExcept.throw cause >>= second) bytes start before cause :=
  fun cursor _ => ⟨before.reader cursor, rfl⟩

theorem Parses.rejects {first : Parsing α} {second : α → Parsing β} {a : α}
    (hfirst : Parses first bytes start before a middle between)
    (hsecond : Rejects (second a) bytes middle between cause) :
    Rejects (first >>= second) bytes start before cause := by
  intro cursor hcursor
  obtain ⟨halfway, hparse, hhalfway⟩ := hfirst cursor hcursor
  obtain ⟨final, hfinal⟩ := hsecond halfway hhalfway
  refine ⟨final, ?_⟩
  change EStateM.bind first second (before.reader cursor) = _
  rw [EStateM.bind, hparse]
  exact hfinal

theorem Rejects.get {second : Reader → Parsing β}
    (hsecond : ∀ cursor, Rejects (second (before.reader cursor)) bytes start before cause) :
    Rejects (MonadState.get >>= second) bytes start before cause :=
  fun cursor hcursor => hsecond cursor cursor hcursor

end Rejects

/-- Steps of a reader between two positions of the bytes, with their entries. Each step goes
forward. -/
inductive Parsed (bytes : Array UInt8) : Nat → Context → List Entry → Nat → Context → Prop where
  | refl (position : Nat) (context : Context) : Parsed bytes position context [] position context
  | step {start middle stop : Nat} {before between after : Context} {found? : Option Entry}
      {entries : List Entry} (hforward : start < middle) (hinside : middle ≤ 8 * bytes.size)
      (hstep : Parses Reader.step bytes start before found? middle between)
      (hrest : Parsed bytes middle between entries stop after) :
      Parsed bytes start before (found?.toList ++ entries) stop after

section Parsed

variable {bytes : Array UInt8} {start middle stop : Nat} {before between after : Context}

theorem Parsed.trans {first second : List Entry}
    (hfirst : Parsed bytes start before first middle between)
    (hsecond : Parsed bytes middle between second stop after) :
    Parsed bytes start before (first ++ second) stop after := by
  induction hfirst with
  | refl => exact hsecond
  | step hforward hinside hstep _ ih =>
      rw [List.append_assoc]
      exact .step hforward hinside hstep (ih hsecond)

theorem Parsed.single {found? : Option Entry} (hforward : start < stop)
    (hinside : stop ≤ 8 * bytes.size)
    (hstep : Parses Reader.step bytes start before found? stop after) :
    Parsed bytes start before found?.toList stop after := by
  simpa using Parsed.step hforward hinside hstep (.refl stop after)

end Parsed

theorem exhausted_eq_false {cursor : Cursor} {bytes : Array UInt8} {position : Nat}
    (hcursor : cursor.StandsAt bytes position) (hinside : position < 8 * bytes.size) :
    cursor.exhausted = false := by
  obtain ⟨hexact, rfl, -, -⟩ := hcursor
  rw [← Bool.not_eq_true, hexact.exhausted_iff]
  omega

theorem exhausted_eq_true {cursor : Cursor} {bytes : Array UInt8}
    (hcursor : cursor.StandsAt bytes (8 * bytes.size)) : cursor.exhausted = true :=
  hcursor.exact.exhausted_iff.mpr hcursor.position_eq

theorem bitsLeft_reader {cursor : Cursor} {bytes : Array UInt8} {position : Nat}
    (hcursor : cursor.StandsAt bytes position) (context : Context) :
    (context.reader cursor).bitsLeft = 8 * bytes.size - position := by
  simp only [Reader.bitsLeft, Context.reader, Cursor.bitLength, hcursor.size_eq,
    hcursor.position_eq]

namespace Reader

theorem advanceWithin_of_step {steps : Nat} {reader next : Reader} {found? : Option Entry}
    (hbits : reader.cursor.exhausted = false) (hstep : step reader = .ok found? next) :
    advanceWithin (steps + 1) reader =
      found?.elim (advanceWithin steps next) fun entry => .ok entry next := by
  change (if reader.cursor.exhausted then _ else _ : Parsing Entry) reader = _
  rw [hbits]
  change EStateM.bind step _ reader = _
  unfold EStateM.bind
  simp only [hstep]
  cases found? <;> rfl

/-- At a position of the bytes a reader fails for a cause, however many steps it may take. -/
def Ends (bytes : Array UInt8) (position : Nat) (context : Context) (cause : Error) : Prop :=
  ∀ steps, Rejects (advanceWithin (steps + 1)) bytes position context cause

theorem ends_of_scopes_eq_nil {bytes : Array UInt8} {context : Context}
    (hscopes : context.scopes = []) : Ends bytes (8 * bytes.size) context .exhausted := by
  intro steps cursor hcursor
  have hbits : (context.reader cursor).cursor.exhausted = true := exhausted_eq_true hcursor
  refine ⟨context.reader cursor, ?_⟩
  change (if (context.reader cursor).cursor.exhausted then _ else _ : Parsing Entry) _ = _
  rw [hbits]
  change (if (context.reader cursor).depth = 0 then _ else _ : Parsing Entry) _ = _
  rw [if_pos (by simp [depth, Context.reader, hscopes])]
  rfl

theorem ends_of_rejects {bytes : Array UInt8} {position : Nat} {context : Context} {cause : Error}
    (hinside : position < 8 * bytes.size) (hrejects : Rejects step bytes position context cause) :
    Ends bytes position context cause := by
  intro steps cursor hcursor
  have hbits : (context.reader cursor).cursor.exhausted = false :=
    exhausted_eq_false hcursor hinside
  obtain ⟨final, hstep⟩ := hrejects cursor hcursor
  refine ⟨final, ?_⟩
  change (if (context.reader cursor).cursor.exhausted then _ else _ : Parsing Entry) _ = _
  rw [hbits]
  change EStateM.bind step _ (context.reader cursor) = _
  rw [EStateM.bind, hstep]

theorem advanceWithin_eq_ok {bytes : Array UInt8} {start stop : Nat} {before after : Context}
    {entry : Entry} {entries all : List Entry} (hparsed : Parsed bytes start before all stop after)
    (hall : all = entry :: entries) (steps : Nat) (hsteps : 8 * bytes.size - start < steps)
    (cursor : Cursor) (hcursor : cursor.StandsAt bytes start) :
    ∃ middle between next,
      advanceWithin steps (before.reader cursor) = .ok entry (Context.reader between next) ∧
        next.StandsAt bytes middle ∧ start < middle ∧ middle ≤ 8 * bytes.size ∧
        Parsed bytes middle between entries stop after := by
  induction hparsed generalizing steps cursor with
  | refl => simp at hall
  | @step start middle stop before between after found? others hforward hinside hstep hrest ih =>
      obtain ⟨next, hnext, hstands⟩ := hstep cursor hcursor
      have hbits : (before.reader cursor).cursor.exhausted = false :=
        exhausted_eq_false hcursor (by omega)
      obtain ⟨steps, rfl⟩ : ∃ fewer, steps = fewer + 1 := ⟨steps - 1, by omega⟩
      rw [advanceWithin_of_step hbits hnext]
      cases found? with
      | some first =>
          obtain ⟨rfl, rfl⟩ := List.cons.inj (show first :: others = entry :: entries from hall)
          exact ⟨middle, between, next, rfl, hstands, hforward, hinside, hrest⟩
      | none =>
          obtain ⟨later, known, final, hadvance, hfinal, hlater, hinsideLater, hremaining⟩ :=
            ih hall steps (by omega) next hstands
          exact ⟨later, known, final, hadvance, hfinal, by omega, hinsideLater, hremaining⟩

theorem advanceWithin_eq_error {bytes : Array UInt8} {start stop : Nat}
    {before after : Context} {entries : List Entry} {cause : Error}
    (hparsed : Parsed bytes start before entries stop after) (hnone : entries = [])
    (hends : Ends bytes stop after cause) (steps : Nat) (hsteps : 8 * bytes.size - start < steps)
    (cursor : Cursor) (hcursor : cursor.StandsAt bytes start) :
    ∃ final, advanceWithin steps (before.reader cursor) = .error cause final := by
  induction hparsed generalizing steps cursor with
  | refl position context =>
      obtain ⟨steps, rfl⟩ : ∃ fewer, steps = fewer + 1 := ⟨steps - 1, by omega⟩
      exact hends steps cursor hcursor
  | @step start middle stop before between after found? others hforward hinside hstep hrest ih =>
      obtain ⟨next, hnext, hstands⟩ := hstep cursor hcursor
      have hbits : (before.reader cursor).cursor.exhausted = false :=
        exhausted_eq_false hcursor (by omega)
      obtain ⟨steps, rfl⟩ : ∃ fewer, steps = fewer + 1 := ⟨steps - 1, by omega⟩
      rw [advanceWithin_of_step hbits hnext]
      cases found? with
      | some first => simp at hnone
      | none => exact ih hnone hends steps (by omega) next hstands

theorem advance_eq_ok {bytes : Array UInt8} {start stop : Nat} {before after : Context}
    {entry : Entry} {entries : List Entry}
    (hparsed : Parsed bytes start before (entry :: entries) stop after) (cursor : Cursor)
    (hcursor : cursor.StandsAt bytes start) :
    ∃ middle between next,
      advance (before.reader cursor) = .ok entry (Context.reader between next) ∧
        next.StandsAt bytes middle ∧ start < middle ∧ middle ≤ 8 * bytes.size ∧
        Parsed bytes middle between entries stop after := by
  apply advanceWithin_eq_ok hparsed rfl _ _ cursor hcursor
  rw [bitsLeft_reader hcursor before]
  omega

theorem advance_eq_error {bytes : Array UInt8} {start stop : Nat} {before after : Context}
    {cause : Error} (hparsed : Parsed bytes start before [] stop after)
    (hends : Ends bytes stop after cause) (cursor : Cursor) (hcursor : cursor.StandsAt bytes start) :
    ∃ final, advance (before.reader cursor) = .error cause final := by
  apply advanceWithin_eq_error hparsed rfl hends _ _ cursor hcursor
  rw [bitsLeft_reader hcursor before]
  omega

/-- The entries that `advance` gives one after the other, from one reader to another. -/
def Yields : List Entry → Reader → Reader → Prop
  | [], reader, final => reader = final
  | entry :: entries, reader, final =>
      ∃ next, advance reader = .ok entry next ∧ Yields entries next final

theorem yields_of_parsed {bytes : Array UInt8} {start stop : Nat} {before after : Context}
    {entries : List Entry} {cause : Error} (hparsed : Parsed bytes start before entries stop after)
    (hends : Ends bytes stop after cause) (cursor : Cursor) (hcursor : cursor.StandsAt bytes start) :
    ∃ last final, Yields entries (before.reader cursor) last ∧
      advance last = .error cause final := by
  induction entries generalizing start before cursor with
  | nil =>
      obtain ⟨final, hadvance⟩ := advance_eq_error hparsed hends cursor hcursor
      exact ⟨_, final, rfl, hadvance⟩
  | cons entry entries ih =>
      obtain ⟨middle, between, next, hadvance, hnext, -, -, hrest⟩ :=
        advance_eq_ok hparsed cursor hcursor
      obtain ⟨last, final, hyields, hend⟩ := ih hrest next hnext
      exact ⟨last, final, ⟨_, hadvance, hyields⟩, hend⟩

theorem collectWithin_of_parsed {bytes : Array UInt8} {start stop : Nat} {before after : Context}
    {entries : List Entry} {cause : Error} (hparsed : Parsed bytes start before entries stop after)
    (hends : Ends bytes stop after cause) (reversed : List Entry) (count : Nat)
    (hcount : 8 * bytes.size - start < count) (cursor : Cursor)
    (hcursor : cursor.StandsAt bytes start) :
    collectWithin count reversed (before.reader cursor) = (reversed.reverse ++ entries, cause) := by
  induction entries generalizing start before cursor reversed count with
  | nil =>
      obtain ⟨final, hadvance⟩ := advance_eq_error hparsed hends cursor hcursor
      obtain ⟨count, rfl⟩ : ∃ fewer, count = fewer + 1 := ⟨count - 1, by omega⟩
      rw [collectWithin, hadvance]
      simp
  | cons entry entries ih =>
      obtain ⟨middle, between, next, hadvance, hnext, hforward, hinside, hrest⟩ :=
        advance_eq_ok hparsed cursor hcursor
      obtain ⟨count, rfl⟩ : ∃ fewer, count = fewer + 1 := ⟨count - 1, by omega⟩
      rw [collectWithin, hadvance]
      have hcollect := ih hrest (entry :: reversed) count (by omega) next hnext
      simpa using hcollect

theorem collect_of_parsed {bytes : Array UInt8} {start stop : Nat} {before after : Context}
    {entries : List Entry} {cause : Error} (hparsed : Parsed bytes start before entries stop after)
    (hends : Ends bytes stop after cause) (cursor : Cursor) (hcursor : cursor.StandsAt bytes start) :
    (before.reader cursor).collect = (entries, cause) := by
  have hcollect := collectWithin_of_parsed hparsed hends []
    ((before.reader cursor).bitsLeft + 1) (by rw [bitsLeft_reader hcursor before]; omega) cursor
    hcursor
  simpa [collect] using hcollect

end Reader

end Bitcode.Bitstream
