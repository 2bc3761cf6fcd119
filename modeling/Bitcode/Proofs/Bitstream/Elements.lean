import Mathlib
import Bitcode.Proofs.Bitstream.Outline
import Bitcode.Proofs.Bitstream.Steps

/-!
Streams as lists of elements, which are told apart from the bits that spell them. What a reader
makes of an element hangs on its context alone, so the same elements give the same entries wherever
they stand in a stream and however they are spelled there.
-/

namespace Bitcode.Bitstream

open Format Bits
open Reader (aligned)

/-- What a stream is made of. -/
inductive Element where
  | enter (block width : UInt64)
  | exit
  | define (shape : Abbrev)
  /-- A record without an abbreviation. -/
  | plain (code : UInt64) (fields : List UInt64)
  /-- A record with an abbreviation id, and the abbreviation that its values are spelled with. -/
  | abbreviated (id : UInt64) (shape : Abbrev) (values : List UInt64)
  deriving DecidableEq, Repr

/-- The entry without the number of its bits and the length of its block. -/
def Entry.gist : Entry → Entry
  | .block id _ => .block id 0
  | .record found => .record { found with bits := 0 }
  | entry => entry

/-- The block after one of its records, if block 0 has a use for such a record. -/
def Scope.heed (scope : Scope) (code : UInt64) (fields : List UInt64) : Option Scope :=
  match InfoCode.ofCode? code with
  | none => none
  | some .setBlock =>
      match fields with
      | [] => none
      | block :: _ => some { scope with target := some block }
  | some _ => some scope

theorem Scope.heed_eq {scope next : Scope} {code : UInt64} {fields : List UInt64}
    (hheed : scope.heed code fields = some next) : ∃ target, next = { scope with target } := by
  unfold heed at hheed
  split at hheed
  · simp at hheed
  · split at hheed
    · simp at hheed
    · obtain rfl := Option.some.inj hheed
      exact ⟨_, rfl⟩
  · obtain rfl := Option.some.inj hheed
    exact ⟨_, rfl⟩

namespace Element

/-- What a reader makes of an element: an entry if there is one, and the context after it. Some
elements are refused. -/
def act (context : Context) : Element → Option (Option Entry × Context)
  | .enter block width =>
      if width < 1 ∨ 32 < width then none
      else
        some (if block = infoBlockId then none else some (.block block 0),
          { context with
            scopes :=
              { block, idWidth := width.toNat, abbrevs := context.shared.forBlock block } ::
                context.scopes })
  | .exit =>
      match context.scopes with
      | [] => none
      | scope :: rest =>
          some (if scope.isInfo then none else some .endBlock, { context with scopes := rest })
  | .define shape =>
      match context.scopes with
      | [] => none
      | scope :: rest =>
          if scope.isInfo then
            scope.target.map fun block =>
              (some (.definition block shape false),
                { context with shared := context.shared.add block shape })
          else
            some (some (.definition scope.block shape true),
              { context with scopes := { scope with abbrevs := scope.abbrevs ++ [shape] } :: rest })
  | .plain code fields =>
      match context.scopes with
      | [] => none
      | scope :: rest =>
          if scope.isInfo then
            (scope.heed code fields).map fun next =>
              (none, { context with scopes := next :: rest })
          else some (some (.record { id := none, code, fields }), context)
  | .abbreviated id _ values =>
      match context.scopes with
      | [] => none
      | scope :: _ =>
          if scope.isInfo then some (none, context)
          else (Record.ofValues? id values).map fun record => (some (.record record), context)

/-- The abbreviation of an abbreviated record is the one that the block sees under the id. -/
def Fits (context : Context) : Element → Prop
  | .abbreviated id shape _ =>
      ∀ scope ∈ context.scopes.head?, abbrevWithId? scope.abbrevs id = some shape
  | _ => True

/-- The entries that a reader makes of elements, and the context after them if none is refused. -/
def tell (context : Context) : List Element → List Entry × Option Context
  | [] => ([], some context)
  | element :: rest =>
      match element.act context with
      | none => ([], none)
      | some (found?, next) => (found?.toList ++ (tell next rest).1, (tell next rest).2)

section Tell

variable {context next : Context} {element : Element} {rest : List Element} {found? : Option Entry}

theorem tell_cons_none (hact : element.act context = none) :
    tell context (element :: rest) = ([], none) := by
  rw [tell, hact]

theorem tell_cons_some (hact : element.act context = some (found?, next)) :
    tell context (element :: rest) = (found?.toList ++ (tell next rest).1, (tell next rest).2) := by
  rw [tell, hact]

end Tell

/-- All elements fit, up to the first that is refused. -/
def Understood (context : Context) : List Element → Prop
  | [] => True
  | element :: rest =>
      element.Fits context ∧
        ∀ found? next, element.act context = some (found?, next) → Understood next rest

/-- What a reader can make of an element, by the block that it stands in. -/
inductive Acts : Context → Element → Option Entry → Context → Prop
  | enter (block : UInt64) {width : UInt64} (scopes : List Scope) (shared : Shared)
      (hwidth : 1 ≤ width ∧ width ≤ 32) :
      Acts { scopes, shared } (.enter block width)
        (if block = infoBlockId then none else some (.block block 0))
        { scopes :=
            { block, idWidth := width.toNat, abbrevs := shared.forBlock block } :: scopes
          shared }
  | exit (scope : Scope) (rest : List Scope) (shared : Shared) :
      Acts { scopes := scope :: rest, shared } .exit
        (if scope.isInfo then none else some .endBlock) { scopes := rest, shared }
  | share {scope : Scope} {block : UInt64} (rest : List Scope) (shared : Shared) (shape : Abbrev)
      (hinfo : scope.isInfo = true) (htarget : scope.target = some block) :
      Acts { scopes := scope :: rest, shared } (.define shape)
        (some (.definition block shape false))
        { scopes := scope :: rest, shared := shared.add block shape }
  | define {scope : Scope} (rest : List Scope) (shared : Shared) (shape : Abbrev)
      (hinfo : scope.isInfo = false) :
      Acts { scopes := scope :: rest, shared } (.define shape)
        (some (.definition scope.block shape true))
        { scopes := { scope with abbrevs := scope.abbrevs ++ [shape] } :: rest, shared }
  | inform {scope next : Scope} {code : UInt64} {fields : List UInt64} (rest : List Scope)
      (shared : Shared) (hinfo : scope.isInfo = true) (hheed : scope.heed code fields = some next) :
      Acts { scopes := scope :: rest, shared } (.plain code fields) none
        { scopes := next :: rest, shared }
  | plain {scope : Scope} (code : UInt64) (fields : List UInt64) (rest : List Scope)
      (shared : Shared) (hinfo : scope.isInfo = false) :
      Acts { scopes := scope :: rest, shared } (.plain code fields)
        (some (.record { id := none, code, fields })) { scopes := scope :: rest, shared }
  | pass {scope : Scope} (id : UInt64) (shape : Abbrev) (values : List UInt64) (rest : List Scope)
      (shared : Shared) (hinfo : scope.isInfo = true) :
      Acts { scopes := scope :: rest, shared } (.abbreviated id shape values) none
        { scopes := scope :: rest, shared }
  | abbreviated {scope : Scope} (id : UInt64) (shape : Abbrev) (code : UInt64)
      (fields : List UInt64) (rest : List Scope) (shared : Shared) (hinfo : scope.isInfo = false) :
      Acts { scopes := scope :: rest, shared } (.abbreviated id shape (code :: fields))
        (some (.record { id := some id, code, fields })) { scopes := scope :: rest, shared }

theorem acts_of_act {context next : Context} {element : Element} {found? : Option Entry}
    (hact : element.act context = some (found?, next)) : Acts context element found? next := by
  obtain ⟨scopes, shared⟩ := context
  cases element with
  | enter block width =>
      rw [act] at hact
      split_ifs at hact with hbad hinfo
      all_goals
        obtain ⟨rfl, rfl⟩ := Prod.mk.inj (Option.some.inj hact)
        rw [not_or, UInt64.not_lt, UInt64.not_lt] at hbad
        simpa [hinfo] using Acts.enter block scopes shared hbad
  | exit =>
      cases scopes with
      | nil => simp [act] at hact
      | cons scope rest =>
          obtain ⟨rfl, rfl⟩ := Prod.mk.inj (Option.some.inj hact)
          exact .exit scope rest shared
  | define shape =>
      cases scopes with
      | nil => simp [act] at hact
      | cons scope rest =>
          simp only [act] at hact
          split_ifs at hact with hinfo
          · obtain ⟨block, htarget, hpair⟩ := Option.map_eq_some_iff.mp hact
            obtain ⟨rfl, rfl⟩ := Prod.mk.inj hpair
            exact .share rest shared shape hinfo htarget
          · obtain ⟨rfl, rfl⟩ := Prod.mk.inj (Option.some.inj hact)
            exact .define rest shared shape (Bool.eq_false_of_not_eq_true hinfo)
  | plain code fields =>
      cases scopes with
      | nil => simp [act] at hact
      | cons scope rest =>
          simp only [act] at hact
          split_ifs at hact with hinfo
          · obtain ⟨after, hheed, hpair⟩ := Option.map_eq_some_iff.mp hact
            obtain ⟨rfl, rfl⟩ := Prod.mk.inj hpair
            exact .inform rest shared hinfo hheed
          · obtain ⟨rfl, rfl⟩ := Prod.mk.inj (Option.some.inj hact)
            exact .plain code fields rest shared (Bool.eq_false_of_not_eq_true hinfo)
  | abbreviated id shape values =>
      cases scopes with
      | nil => simp [act] at hact
      | cons scope rest =>
          simp only [act] at hact
          split_ifs at hact with hinfo
          · obtain ⟨rfl, rfl⟩ := Prod.mk.inj (Option.some.inj hact)
            exact .pass id shape values rest shared hinfo
          · cases values with
            | nil => simp [Record.ofValues?] at hact
            | cons code fields =>
                obtain ⟨rfl, rfl⟩ := Prod.mk.inj (Option.some.inj hact)
                exact .abbreviated id shape code fields rest shared
                  (Bool.eq_false_of_not_eq_true hinfo)

theorem Acts.act_eq {context next : Context} {element : Element} {found? : Option Entry}
    (hacts : Acts context element found? next) : element.act context = some (found?, next) := by
  cases hacts with
  | @enter block width scopes shared hwidth =>
      have hgood : ¬ (width < 1 ∨ 32 < width) := by
        rw [not_or, UInt64.not_lt, UInt64.not_lt]
        exact hwidth
      rw [act, if_neg hgood]
  | exit => rfl
  | share rest shared shape hinfo htarget => simp [act, hinfo, htarget]
  | define rest shared shape hinfo => simp [act, hinfo]
  | inform rest shared hinfo hheed => simp [act, hinfo, hheed]
  | plain code fields rest shared hinfo => simp [act, hinfo]
  | pass id shape values rest shared hinfo => simp [act, hinfo]
  | abbreviated id shape code fields rest shared hinfo => simp [act, hinfo, Record.ofValues?]

end Element

/-- Bits of a stream spell an element, where abbreviation ids have a width. -/
inductive Spells (bytes : Array UInt8) (idWidth start : Nat) : Element → Nat → Prop
  | enter {block width : UInt64} {first second third : Nat}
      (hid : Reads (Cursor.read idWidth) bytes start ReservedId.enterBlock.code first)
      (hblock : Reads (Cursor.readVbr 8) bytes first block second)
      (hwidth : Reads (Cursor.readVbr 4) bytes second width third)
      (hinside : aligned third + 32 ≤ 8 * bytes.size) :
      Spells bytes idWidth start (.enter block width) (aligned third + 32)
  | exit {first : Nat}
      (hid : Reads (Cursor.read idWidth) bytes start ReservedId.endBlock.code first) :
      Spells bytes idWidth start .exit (aligned first)
  | define {shape : Abbrev} {first stop : Nat}
      (hid : Reads (Cursor.read idWidth) bytes start ReservedId.defineAbbrev.code first)
      (hshape : Reads Abbrev.read bytes first shape stop) :
      Spells bytes idWidth start (.define shape) stop
  | plain {code : UInt64} {fields : List UInt64} {first second third stop : Nat}
      (hcount : fields.length < 2 ^ 64)
      (hid : Reads (Cursor.read idWidth) bytes start ReservedId.plainRecord.code first)
      (hcode : Reads (Cursor.readVbr 6) bytes first code second)
      (hlength : Reads (Cursor.readVbr 6) bytes second (UInt64.ofNat fields.length) third)
      (hfields : Reads (Abbrev.readMany (liftM (Cursor.readVbr 6)) fields.length []) bytes third
        fields stop) :
      Spells bytes idWidth start (.plain code fields) stop
  | abbreviated {id : UInt64} {shape : Abbrev} {values : List UInt64} {first stop : Nat}
      (hdefined : AbbrevId.ofCode id = .defined id)
      (hid : Reads (Cursor.read idWidth) bytes start id first)
      (hvalues : Reads shape.readValues bytes first values stop) :
      Spells bytes idWidth start (.abbreviated id shape values) stop

section Steps

variable {bytes : Array UInt8} {start first second third stop : Nat} {scope next : Scope}
  {rest : List Scope} {shared : Shared} {code id : UInt64} {fields values : List UInt64}
  {shape : Abbrev}

theorem Rejects.throw {α : Type} {before : Context} (cause : Error) :
    Rejects (MonadExcept.throw cause : Parsing α) bytes start before cause :=
  fun cursor _ => ⟨before.reader cursor, rfl⟩

theorem Rejects.bind {α β : Type} {before : Context} {cause : Error} {parsing : Parsing α}
    {second : α → Parsing β} (hrejects : Rejects parsing bytes start before cause) :
    Rejects (parsing >>= second) bytes start before cause := by
  intro cursor hcursor
  obtain ⟨final, hfinal⟩ := hrejects cursor hcursor
  exact ⟨final, bind_apply_of_error hfinal⟩

theorem rejects_exitOutside
    (hid : Reads (Cursor.read initialIdWidth) bytes start ReservedId.endBlock.code first) :
    Rejects Reader.step bytes start { scopes := [], shared } (.scope .endOutside) := by
  refine Rejects.get fun cursor => (Parses.field hid).rejects ?_
  refine (Parses.onCursor (Cursor.reads_align32 bytes first)).rejects ?_
  exact Rejects.get fun _ => Rejects.throw _

theorem rejects_defineOutside
    (hid : Reads (Cursor.read initialIdWidth) bytes start ReservedId.defineAbbrev.code first)
    (hshape : Reads Abbrev.read bytes first shape stop) :
    Rejects Reader.step bytes start { scopes := [], shared } (.content .definitionOutside) := by
  refine Rejects.get fun cursor => (Parses.field hid).rejects (Rejects.bind ?_)
  refine (Parses.onCursor hshape).rejects ?_
  exact Rejects.get fun _ => Rejects.throw _

theorem rejects_share (hinfo : scope.isInfo = true) (htarget : scope.target = none)
    (hid : Reads (Cursor.read scope.idWidth) bytes start ReservedId.defineAbbrev.code first)
    (hshape : Reads Abbrev.read bytes first shape stop) :
    Rejects Reader.step bytes start { scopes := scope :: rest, shared }
      (.content .definitionWithoutBlock) := by
  refine Rejects.get fun cursor => (Parses.field hid).rejects (Rejects.bind ?_)
  refine (Parses.onCursor hshape).rejects ?_
  refine Rejects.get fun _ => ?_
  simp only [Context.reader, hinfo, if_true, htarget]
  exact Rejects.throw _

theorem rejects_recordOutside
    (hid : Reads (Cursor.read initialIdWidth) bytes start ReservedId.plainRecord.code first) :
    Rejects Reader.step bytes start { scopes := [], shared } (.content .recordOutside) := by
  refine Rejects.get fun cursor => (Parses.field hid).rejects ?_
  exact Rejects.get fun _ => Rejects.throw _

theorem rejects_abbreviatedOutside (hdefined : AbbrevId.ofCode id = .defined id)
    (hid : Reads (Cursor.read initialIdWidth) bytes start id first) :
    Rejects Reader.step bytes start { scopes := [], shared } (.scope .abbrevOutside) := by
  refine Rejects.get fun cursor => (Parses.field hid).rejects ?_
  rw [hdefined]
  exact Rejects.get fun _ => Rejects.throw _

theorem rejects_codeless (hinfo : scope.isInfo = false)
    (hshape : abbrevWithId? scope.abbrevs id = some shape)
    (hid : Reads (Cursor.read scope.idWidth) bytes start id first)
    (hvalues : Reads shape.readValues bytes first [] stop) :
    Rejects Reader.step bytes start { scopes := scope :: rest, shared }
      (.content (.missingCode id)) := by
  have hdefined := ofCode_eq_defined hshape
  refine Rejects.get fun cursor => (Parses.field hid).rejects ?_
  rw [hdefined]
  refine Rejects.get fun _ => ?_
  simp only [Context.reader, hshape]
  refine (Parses.onCursor hvalues).rejects ?_
  simp only [hinfo]
  exact Rejects.throw _

theorem parses_interpret (hheed : scope.heed code fields = some next) :
    Parses (Reader.interpret code fields) bytes start { scopes := scope :: rest, shared } () start
      { scopes := next :: rest, shared } := by
  unfold Scope.heed at hheed
  unfold Reader.interpret
  cases hcode : InfoCode.ofCode? code with
  | none => simp [hcode] at hheed
  | some info =>
      rw [hcode] at hheed
      cases info with
      | blockName | recordName =>
          obtain rfl := Option.some.inj hheed
          exact Parses.pure _
      | setBlock =>
          cases fields with
          | nil => simp at hheed
          | cons block fields =>
              obtain rfl := Option.some.inj hheed
              exact Parses.modify ⟨{ scope with target := some block } :: rest, shared⟩ fun _ => rfl

theorem rejects_interpret {before : Context} (hheed : scope.heed code fields = none) :
    ∃ cause, Rejects (Reader.interpret code fields) bytes start before cause := by
  unfold Scope.heed at hheed
  unfold Reader.interpret
  cases hcode : InfoCode.ofCode? code with
  | none => exact ⟨_, Rejects.throw _⟩
  | some info =>
      rw [hcode] at hheed
      cases info with
      | blockName | recordName => simp at hheed
      | setBlock =>
          cases fields with
          | nil => exact ⟨_, Rejects.throw _⟩
          | cons block fields => simp at hheed

theorem parses_infoRecord (hinfo : scope.isInfo = true) (hheed : scope.heed code fields = some next)
    (hcount : fields.length < 2 ^ 64)
    (hid : Reads (Cursor.read scope.idWidth) bytes start ReservedId.plainRecord.code first)
    (hcode : Reads (Cursor.readVbr 6) bytes first code second)
    (hlength : Reads (Cursor.readVbr 6) bytes second (UInt64.ofNat fields.length) third)
    (hfields : Reads (Abbrev.readMany (liftM (Cursor.readVbr 6)) fields.length []) bytes third
      fields stop) :
    Parses Reader.step bytes start { scopes := scope :: rest, shared } none stop
      { scopes := next :: rest, shared } := by
  refine Parses.get fun cursor hposition => ?_
  refine (Parses.field hid).bind ?_
  refine Parses.get fun _ _ => ?_
  refine (Parses.field hcode).bind ?_
  refine (Parses.field hlength).bind ?_
  rw [UInt64.toNat_ofNat_of_lt' hcount]
  refine (Parses.onCursor hfields).bind ?_
  simp only [hinfo, if_true]
  exact (parses_interpret hheed).bind (Parses.pure _)

theorem rejects_infoRecord (hinfo : scope.isInfo = true) (hheed : scope.heed code fields = none)
    (hcount : fields.length < 2 ^ 64)
    (hid : Reads (Cursor.read scope.idWidth) bytes start ReservedId.plainRecord.code first)
    (hcode : Reads (Cursor.readVbr 6) bytes first code second)
    (hlength : Reads (Cursor.readVbr 6) bytes second (UInt64.ofNat fields.length) third)
    (hfields : Reads (Abbrev.readMany (liftM (Cursor.readVbr 6)) fields.length []) bytes third
      fields stop) :
    ∃ cause, Rejects Reader.step bytes start { scopes := scope :: rest, shared } cause := by
  obtain ⟨cause, hrejects⟩ := rejects_interpret hheed
  refine ⟨cause, Rejects.get fun cursor => ?_⟩
  refine (Parses.field hid).rejects ?_
  refine Rejects.get fun _ => ?_
  refine (Parses.field hcode).rejects ?_
  refine (Parses.field hlength).rejects ?_
  rw [UInt64.toNat_ofNat_of_lt' hcount]
  refine (Parses.onCursor hfields).rejects ?_
  simp only [hinfo, if_true]
  exact hrejects.bind

theorem parses_infoAbbreviated (hinfo : scope.isInfo = true)
    (hshape : abbrevWithId? scope.abbrevs id = some shape)
    (hid : Reads (Cursor.read scope.idWidth) bytes start id first)
    (hvalues : Reads shape.readValues bytes first values stop) :
    Parses Reader.step bytes start { scopes := scope :: rest, shared } none stop
      { scopes := scope :: rest, shared } := by
  have hdefined := ofCode_eq_defined hshape
  refine Parses.get fun cursor hposition => ?_
  refine (Parses.field hid).bind ?_
  rw [hdefined]
  refine Parses.get fun _ _ => ?_
  simp only [Context.reader, hshape]
  refine (Parses.onCursor hvalues).bind ?_
  simp only [hinfo, if_true]
  exact Parses.pure _

end Steps

section Spells

variable {bytes : Array UInt8} {start stop : Nat} {element : Element} {context next : Context}
  {found? : Option Entry}

theorem Spells.parses (hspells : Spells bytes context.idWidth start element stop)
    (hfits : element.Fits context) (hact : element.act context = some (found?, next)) :
    ∃ given?, given?.map Entry.gist = found? ∧
      Parses Reader.step bytes start context given? stop next := by
  cases Element.acts_of_act hact with
  | @enter block width scopes shared hvalid =>
      cases hspells with
      | enter hid hblock hwidth hinside =>
          refine ⟨_, ?_, Reader.parses_enterBlock hid hblock hwidth hvalid hinside⟩
          split_ifs <;> rfl
  | exit scope rest shared =>
      cases hspells with
      | exit hid =>
          refine ⟨_, ?_, Reader.parses_exitBlock hid⟩
          split_ifs <;> rfl
  | share rest shared shape hinfo htarget =>
      cases hspells with
      | define hid hshape => exact ⟨_, rfl, Reader.parses_share hinfo htarget hid hshape⟩
  | define rest shared shape hinfo =>
      cases hspells with
      | define hid hshape => exact ⟨_, rfl, Reader.parses_define hinfo hid hshape⟩
  | inform rest shared hinfo hheed =>
      cases hspells with
      | plain hcount hid hcode hlength hfields =>
          exact ⟨_, rfl, parses_infoRecord hinfo hheed hcount hid hcode hlength hfields⟩
  | plain code fields rest shared hinfo =>
      cases hspells with
      | plain hcount hid hcode hlength hfields =>
          exact ⟨_, rfl, Reader.parses_plainRecord hinfo hcount hid hcode hlength hfields⟩
  | @pass scope id shape values rest shared hinfo =>
      cases hspells with
      | abbreviated hdefined hid hvalues =>
          exact ⟨_, rfl, parses_infoAbbreviated hinfo (hfits scope rfl) hid hvalues⟩
  | @abbreviated scope id shape code fields rest shared hinfo =>
      cases hspells with
      | abbreviated hdefined hid hvalues =>
          exact ⟨_, rfl, Reader.parses_abbreviatedRecord hinfo (hfits scope rfl) hid hvalues⟩

theorem Spells.rejects (hspells : Spells bytes context.idWidth start element stop)
    (hfits : element.Fits context) (hact : element.act context = none) :
    ∃ cause, Rejects Reader.step bytes start context cause := by
  obtain ⟨scopes, shared⟩ := context
  cases hspells with
  | @enter block width first second third hid hblock hwidth hinside =>
      have hbad : width < 1 ∨ 32 < width := by
        by_contra hgood
        rw [Element.act, if_neg hgood] at hact
        cases hact
      exact ⟨_, Reader.rejects_enterBlock hid hblock hwidth hbad⟩
  | exit hid =>
      cases scopes with
      | nil => exact ⟨_, rejects_exitOutside hid⟩
      | cons scope rest => cases hact
  | define hid hshape =>
      cases scopes with
      | nil => exact ⟨_, rejects_defineOutside hid hshape⟩
      | cons scope rest =>
          simp only [Element.act] at hact
          split_ifs at hact with hinfo
          exact ⟨_, rejects_share hinfo (Option.map_eq_none_iff.mp hact) hid hshape⟩
  | plain hcount hid hcode hlength hfields =>
      cases scopes with
      | nil => exact ⟨_, rejects_recordOutside hid⟩
      | cons scope rest =>
          simp only [Element.act] at hact
          split_ifs at hact with hinfo
          exact rejects_infoRecord hinfo (Option.map_eq_none_iff.mp hact) hcount hid hcode hlength
            hfields
  | @abbreviated id shape values first stop hdefined hid hvalues =>
      cases scopes with
      | nil => exact ⟨_, rejects_abbreviatedOutside hdefined hid⟩
      | cons scope rest =>
          simp only [Element.act] at hact
          split_ifs at hact with hinfo
          cases values with
          | nil =>
              exact ⟨_, rejects_codeless (Bool.eq_false_of_not_eq_true hinfo) (hfits scope rfl) hid
                hvalues⟩
          | cons code fields => cases hact

end Spells

/-- The widths of abbreviation ids in the open blocks after an element. -/
def Element.nest (widths : List Nat) : Element → List Nat
  | .enter _ width => width.toNat :: widths
  | .exit => widths.tail
  | _ => widths

/-- The widths of abbreviation ids in the open blocks. -/
def Context.widths (context : Context) : List Nat :=
  context.scopes.map Scope.idWidth

/-- Bits of a stream spell elements one after the other. Each of them takes some bits. -/
inductive Spelled (bytes : Array UInt8) : List Nat → Nat → List Element → Nat → Prop
  | nil (widths : List Nat) (position : Nat) : Spelled bytes widths position [] position
  | cons {widths : List Nat} {start middle stop : Nat} {element : Element} {rest : List Element}
      (hforward : start < middle) (hinside : middle ≤ 8 * bytes.size)
      (hspells : Spells bytes (widths.headD initialIdWidth) start element middle)
      (hrest : Spelled bytes (element.nest widths) middle rest stop) :
      Spelled bytes widths start (element :: rest) stop

/-- A reader fails at the position in any context. -/
def Dead (bytes : Array UInt8) (position : Nat) : Prop :=
  ∀ context, ∃ cause, Reader.Ends bytes position context cause

theorem Context.headD_widths (context : Context) :
    context.widths.headD initialIdWidth = context.idWidth := by
  obtain ⟨scopes, shared⟩ := context
  cases scopes <;> rfl

theorem Element.widths_act {context next : Context} {element : Element} {found? : Option Entry}
    (hact : element.act context = some (found?, next)) :
    next.widths = element.nest context.widths := by
  cases acts_of_act hact with
  | inform rest shared hinfo hheed =>
      obtain ⟨target, rfl⟩ := Scope.heed_eq hheed
      rfl
  | enter | exit | share | define | plain | pass | abbreviated => rfl

section Spelled

variable {bytes : Array UInt8} {start stop : Nat} {context : Context} {elements : List Element}

theorem Spelled.parsed (hspelled : Spelled bytes context.widths start elements stop)
    (hunderstood : Element.Understood context elements) :
    ∃ entries middle after, Parsed bytes start context entries middle after ∧
      entries.map Entry.gist = (Element.tell context elements).1 ∧
      ((Element.tell context elements).2 = some after ∧ middle = stop ∨
        (Element.tell context elements).2 = none ∧
          ∃ cause, Reader.Ends bytes middle after cause) := by
  induction elements generalizing context start with
  | nil =>
      cases hspelled
      exact ⟨[], _, context, .refl _ _, rfl, .inl ⟨rfl, rfl⟩⟩
  | cons element rest ih =>
      cases hspelled with
      | @cons _ _ middle _ _ _ hforward hinside hspells hrest =>
          rw [context.headD_widths] at hspells
          obtain ⟨hfits, hothers⟩ := hunderstood
          cases hact : element.act context with
          | none =>
              obtain ⟨cause, hrejects⟩ := hspells.rejects hfits hact
              rw [Element.tell_cons_none hact]
              refine ⟨[], start, context, .refl _ _, rfl, .inr ⟨rfl, cause, ?_⟩⟩
              exact Reader.ends_of_rejects (by omega) hrejects
          | some made =>
              obtain ⟨found?, next⟩ := made
              obtain ⟨given?, hgist, hstep⟩ := hspells.parses hfits hact
              rw [← Element.widths_act hact] at hrest
              obtain ⟨entries, last, after, hparsed, hmap, hend⟩ :=
                ih hrest (hothers found? next hact)
              rw [Element.tell_cons_some hact]
              refine ⟨_, last, after, .step hforward hinside hstep hparsed, ?_, hend⟩
              rw [List.map_append, hmap, ← hgist]
              cases given? <;> rfl

theorem Reader.collectWithin_append {entries : List Entry} {after : Context}
    (hparsed : Parsed bytes start context entries stop after) (reversed : List Entry) (count : Nat)
    (hcount : 8 * bytes.size - start < count) (cursor : Cursor)
    (hcursor : cursor.StandsAt bytes start) :
    ∃ more, (Reader.collectWithin count reversed (context.reader cursor)).1 =
      reversed.reverse ++ entries ++ more := by
  induction entries generalizing start context cursor reversed count with
  | nil =>
      rw [Reader.collectWithin_fst, List.append_nil]
      exact ⟨_, rfl⟩
  | cons entry entries ih =>
      obtain ⟨middle, between, next, hadvance, hnext, hforward, hinside, hrest⟩ :=
        Reader.advance_eq_ok hparsed cursor hcursor
      obtain ⟨count, rfl⟩ : ∃ fewer, count = fewer + 1 := ⟨count - 1, by omega⟩
      obtain ⟨more, hmore⟩ := ih hrest (entry :: reversed) count (by omega) next hnext
      refine ⟨more, ?_⟩
      rw [Reader.collectWithin, hadvance, hmore]
      simp

/-- The entries of a stream begin with what its elements tell. -/
theorem Spelled.collect (hspelled : Spelled bytes context.widths start elements stop)
    (hunderstood : Element.Understood context elements) {cursor : Cursor}
    (hcursor : cursor.StandsAt bytes start) :
    ∃ more, (context.reader cursor).collect.1.map Entry.gist =
        (Element.tell context elements).1 ++ more ∧
      ((Element.tell context elements).2 = none → more = []) ∧ (Dead bytes stop → more = []) := by
  obtain ⟨entries, middle, after, hparsed, hmap, hend⟩ := hspelled.parsed hunderstood
  by_cases hends : ∃ cause, Reader.Ends bytes middle after cause
  · obtain ⟨cause, hends⟩ := hends
    refine ⟨[], ?_, fun _ => rfl, fun _ => rfl⟩
    rw [Reader.collect_of_parsed hparsed hends cursor hcursor, hmap, List.append_nil]
  · obtain ⟨more, hmore⟩ := Reader.collectWithin_append hparsed []
      ((context.reader cursor).bitsLeft + 1)
      (by rw [bitsLeft_reader hcursor context]; omega) cursor hcursor
    refine ⟨more.map Entry.gist, ?_, fun hnone => ?_, fun hdead => ?_⟩
    · rw [Reader.collect, hmore, ← hmap]
      simp
    · rcases hend with ⟨hsome, -⟩ | ⟨-, hcause⟩
      · rw [hnone] at hsome
        cases hsome
      · exact absurd hcause hends
    · rcases hend with ⟨-, rfl⟩ | ⟨-, hcause⟩
      · exact absurd (hdead after) hends
      · exact absurd hcause hends

theorem dead_size (bytes : Array UInt8) : Dead bytes (8 * bytes.size) := by
  intro context
  by_cases hscopes : context.scopes = []
  · exact ⟨_, Reader.ends_of_scopes_eq_nil hscopes⟩
  · refine ⟨.scope (.openAtEnd context.scopes.length), fun steps cursor hcursor => ?_⟩
    have hbits : (context.reader cursor).cursor.exhausted = true := exhausted_eq_true hcursor
    refine ⟨context.reader cursor, ?_⟩
    change (if (context.reader cursor).cursor.exhausted then _ else _ : Parsing Entry) _ = _
    rw [hbits]
    change (if (context.reader cursor).depth = 0 then _ else _ : Parsing Entry) _ = _
    rw [if_neg (by simpa [Reader.depth, Context.reader] using hscopes)]
    rfl

end Spelled

namespace Element

variable {context next : Context} {front back : List Element}

theorem tell_append (hfront : (tell context front).2 = some next) :
    tell context (front ++ back) =
      ((tell context front).1 ++ (tell next back).1, (tell next back).2) := by
  induction front generalizing context with
  | nil =>
      obtain rfl := Option.some.inj hfront
      rfl
  | cons element front ih =>
      cases hact : element.act context with
      | none => simp [tell_cons_none hact] at hfront
      | some made =>
          rw [tell_cons_some hact] at hfront
          rw [List.cons_append, tell_cons_some hact, tell_cons_some hact, ih hfront,
            List.append_assoc]

theorem understood_cons {element : Element} {rest : List Element} {found? : Option Entry}
    (hact : element.act context = some (found?, next)) :
    Understood context (element :: rest) ↔ element.Fits context ∧ Understood next rest := by
  constructor
  · rintro ⟨hfits, hrest⟩
    exact ⟨hfits, hrest found? next hact⟩
  · rintro ⟨hfits, hrest⟩
    refine ⟨hfits, fun other last hother => ?_⟩
    obtain ⟨-, rfl⟩ := Prod.mk.inj (Option.some.inj (hact.symm.trans hother))
    exact hrest

theorem understood_append (hfront : (tell context front).2 = some next) :
    Understood context (front ++ back) ↔ Understood context front ∧ Understood next back := by
  induction front generalizing context with
  | nil =>
      obtain rfl := Option.some.inj hfront
      exact (and_iff_right trivial).symm
  | cons element front ih =>
      cases hact : element.act context with
      | none => simp [tell_cons_none hact] at hfront
      | some made =>
          rw [tell_cons_some hact] at hfront
          rw [List.cons_append, understood_cons hact, understood_cons hact, ih hfront, and_assoc]

end Element

theorem Spelled.of_append {bytes : Array UInt8} {widths : List Nat} {start stop : Nat}
    {front back : List Element} (hspelled : Spelled bytes widths start (front ++ back) stop) :
    ∃ middle, Spelled bytes widths start front middle ∧ (back = [] → middle = stop) := by
  induction front generalizing widths start with
  | nil =>
      refine ⟨start, .nil widths start, fun hback => ?_⟩
      subst hback
      cases hspelled
      rfl
  | cons element front ih =>
      cases hspelled with
      | cons hforward hinside hspells hrest =>
          obtain ⟨middle, hfront, hend⟩ := ih hrest
          exact ⟨middle, .cons hforward hinside hspells hfront, hend⟩

/-- The cursor stands before elements, and nothing can be read after them. -/
def Before (cursor : Cursor) (elements : List Element) : Prop :=
  ∃ bytes start stop, cursor.StandsAt bytes start ∧ Spelled bytes [] start elements stop ∧
    Dead bytes stop

/-- The entries that a reader finds from a cursor on, without bits and lengths. -/
def Reader.gists (cursor : Cursor) : List Entry :=
  (Reader.ofCursor cursor).collect.1.map Entry.gist

section Before

variable {cursor other : Cursor} {front back seen unseen : List Element} {element : Element}
  {context next : Context} {told : List Entry}

theorem Before.gists_eq (hcursor : Before cursor (seen ++ unseen))
    (hseen : Element.Understood {} seen) :
    ∃ more, Reader.gists cursor = (Element.tell {} seen).1 ++ more ∧
      ((Element.tell {} seen).2 = none → more = []) ∧ (unseen = [] → more = []) := by
  obtain ⟨bytes, start, stop, hstands, hspelled, hdead⟩ := hcursor
  obtain ⟨middle, hfirst, hend⟩ := hspelled.of_append
  change Spelled bytes ({} : Context).widths start seen middle at hfirst
  obtain ⟨more, hentries, hrefused, hmore⟩ := hfirst.collect hseen hstands
  refine ⟨more, hentries, hrefused, fun hunseen => hmore ?_⟩
  rw [hend hunseen]
  exact hdead

theorem Before.gists_after (hcursor : Before cursor (front ++ element :: (seen ++ unseen)))
    (hfront : Element.tell {} front = (told, some context)) (hbefore : Element.Understood {} front)
    (hact : element.act context = some (none, next)) (hfits : element.Fits context)
    (hseen : Element.Understood next seen) :
    ∃ more, Reader.gists cursor = told ++ (Element.tell next seen).1 ++ more ∧
      ((Element.tell next seen).2 = none → more = []) ∧ (unseen = [] → more = []) := by
  have hcontext : (Element.tell {} front).2 = some context := by rw [hfront]
  have hall : Element.Understood {} (front ++ element :: seen) := by
    rw [Element.understood_append hcontext, Element.understood_cons hact]
    exact ⟨hbefore, hfits, hseen⟩
  have htell : Element.tell {} (front ++ element :: seen) =
      (told ++ (Element.tell next seen).1, (Element.tell next seen).2) := by
    rw [Element.tell_append hcontext, Element.tell_cons_some hact, hfront]
    rfl
  rw [← List.cons_append, ← List.append_assoc] at hcursor
  obtain ⟨more, hgists, hrefused, hend⟩ := hcursor.gists_eq hall
  rw [htell] at hgists hrefused
  exact ⟨more, hgists, hrefused, hend⟩

theorem Before.gists_all (hcursor : Before cursor (front ++ element :: back))
    (hfront : Element.tell {} front = (told, some context)) (hbefore : Element.Understood {} front)
    (hact : element.act context = some (none, next)) (hfits : element.Fits context)
    (hback : Element.Understood next back) :
    Reader.gists cursor = told ++ (Element.tell next back).1 := by
  rw [← List.append_nil back] at hcursor
  obtain ⟨more, hgists, -, hmore⟩ := hcursor.gists_after hfront hbefore hact hfits hback
  rw [hgists, hmore rfl, List.append_nil]

theorem Before.gists_refused (hcursor : Before cursor (front ++ element :: back))
    (hfront : Element.tell {} front = (told, some context)) (hbefore : Element.Understood {} front)
    (hact : element.act context = none) (hfits : element.Fits context) :
    Reader.gists cursor = told := by
  have hcontext : (Element.tell {} front).2 = some context := by rw [hfront]
  have hall : Element.Understood {} (front ++ [element]) := by
    rw [Element.understood_append hcontext]
    refine ⟨hbefore, hfits, fun found? next hnext => ?_⟩
    rw [hact] at hnext
    cases hnext
  have htell : Element.tell {} (front ++ [element]) = (told, none) := by
    rw [Element.tell_append hcontext, Element.tell_cons_none hact, hfront, List.append_nil]
  rw [List.append_cons] at hcursor
  obtain ⟨more, hgists, hrefused, -⟩ := hcursor.gists_eq hall
  rw [htell] at hgists hrefused
  rw [hgists, hrefused rfl, List.append_nil]

end Before

end Bitcode.Bitstream
