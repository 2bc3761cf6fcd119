import Mathlib
import Bitcode.Proofs.Bitstream.Spelling

namespace Bitcode.Bitstream

open Format Bits

theorem Scope.heed_name {scope next : Scope} {code : UInt64} {fields : List UInt64}
    (hcode : InfoCode.ofCode? code ≠ some .setBlock) (hheed : scope.heed code fields = some next)
    (other : Scope) : other.heed code fields = some other ∧ next = scope := by
  unfold heed at hheed ⊢
  cases hinfo : InfoCode.ofCode? code with
  | none => simp [hinfo] at hheed
  | some info =>
      rw [hinfo] at hheed
      cases info with
      | setBlock => exact absurd hinfo hcode
      | blockName | recordName => exact ⟨rfl, (Option.some.inj hheed).symm⟩

theorem Scope.heed_setBlock (scope : Scope) {code : UInt64} (fields : List UInt64)
    (target : Option UInt64) (hcode : InfoCode.ofCode? code = some .setBlock) :
    { scope with target }.heed code fields = scope.heed code fields := by
  unfold heed
  rw [hcode]

namespace Element

/-- In block 0, the element makes use of the target or does away with it. -/
def decides : Element → Bool
  | .define _ => true
  | .exit => true
  | .plain code _ => InfoCode.ofCode? code = some .setBlock
  | _ => false

/-- The element defines an abbreviation. -/
def isDefinition : Element → Bool
  | .define _ => true
  | _ => false

/-- The block 0 inside so many blocks defines an abbreviation before it chooses a target or ends. -/
def definesNext (depth : Nat) (context : Context) : List Element → Bool
  | [] => false
  | element :: rest =>
      if context.scopes.length = depth + 1 ∧ element.decides then element.isDefinition
      else
        match element.act context with
        | none => false
        | some (_, next) => definesNext depth next rest

section Frame

variable {scope : Scope} {rest : List Scope} {shared : Shared} {element : Element}
  {found? : Option Entry} {next : Context}

theorem Acts.frame (hacts : Acts { scopes := scope :: rest, shared } element found? next) :
    ∃ top after, next = { scopes := top ++ rest, shared := after } ∧
      ∀ others, Acts { scopes := scope :: others, shared } element found?
        { scopes := top ++ others, shared := after } := by
  cases hacts with
  | @enter block width _ _ hwidth =>
      exact ⟨[_, scope], shared, rfl, fun others => .enter block (scope :: others) shared hwidth⟩
  | exit => exact ⟨[], shared, rfl, fun others => .exit scope others shared⟩
  | @share _ block _ _ shape hinfo htarget =>
      exact ⟨[scope], _, rfl, fun others => .share others shared shape hinfo htarget⟩
  | define _ _ shape hinfo =>
      exact ⟨[_], shared, rfl, fun others => .define others shared shape hinfo⟩
  | inform _ _ hinfo hheed =>
      exact ⟨[_], shared, rfl, fun others => .inform others shared hinfo hheed⟩
  | plain code fields _ _ hinfo =>
      exact ⟨[scope], shared, rfl, fun others => .plain code fields others shared hinfo⟩
  | pass id shape values _ _ hinfo =>
      exact ⟨[scope], shared, rfl, fun others => .pass id shape values others shared hinfo⟩
  | abbreviated id shape code fields _ _ hinfo =>
      exact ⟨[scope], shared, rfl,
        fun others => .abbreviated id shape code fields others shared hinfo⟩

theorem Acts.retarget (hacts : Acts { scopes := scope :: rest, shared } element found? next)
    (hinfo : scope.isInfo = true) (hdecides : element.decides = false) :
    ∃ top, next = { scopes := top ++ scope :: rest, shared } ∧
      ∀ target, Acts { scopes := { scope with target } :: rest, shared } element found?
        { scopes := top ++ { scope with target } :: rest, shared } := by
  cases hacts with
  | @enter block width _ _ hwidth =>
      exact ⟨[_], rfl, fun target => .enter block _ shared hwidth⟩
  | exit => simp [decides] at hdecides
  | share => simp [decides] at hdecides
  | define _ _ _ hother => simp [hinfo] at hother
  | @inform _ _ code fields _ _ _ hheed =>
      have hname : InfoCode.ofCode? code ≠ some .setBlock := of_decide_eq_false hdecides
      obtain ⟨-, rfl⟩ := Scope.heed_name hname hheed scope
      exact ⟨[], rfl, fun target => .inform rest shared hinfo (Scope.heed_name hname hheed _).1⟩
  | plain _ _ _ _ hother => simp [hinfo] at hother
  | pass id shape values _ _ _ =>
      exact ⟨[], rfl, fun target => .pass id shape values rest shared hinfo⟩
  | abbreviated _ _ _ _ _ _ hother => simp [hinfo] at hother

end Frame

/-- Two contexts that differ at most in the target of a block 0 inside so many blocks. -/
inductive Retargeted (depth : Nat) (here there : Option UInt64) : Context → Context → Prop
  | intro (inner : List Scope) (scope : Scope) (outer : List Scope) (shared : Shared)
      (hinfo : scope.isInfo = true) (hdepth : outer.length = depth) :
      Retargeted depth here there
        { scopes := inner ++ { scope with target := here } :: outer, shared }
        { scopes := inner ++ { scope with target := there } :: outer, shared }

namespace Retargeted

variable {depth : Nat} {here there : Option UInt64} {first second next : Context}
  {element : Element} {elements : List Element} {found? : Option Entry}

theorem symm (hretargeted : Retargeted depth here there first second) :
    Retargeted depth there here second first := by
  cases hretargeted with
  | intro inner scope outer shared hinfo hdepth =>
      exact .intro inner scope outer shared hinfo hdepth

theorem length_eq (hretargeted : Retargeted depth here there first second) :
    first.scopes.length = second.scopes.length := by
  cases hretargeted
  simp

theorem fits (hretargeted : Retargeted depth here there first second)
    (hfits : element.Fits first) : element.Fits second := by
  cases hretargeted with
  | intro inner scope outer shared hinfo hdepth =>
      cases element with
      | abbreviated id shape values =>
          cases inner with
          | nil =>
              intro top htop
              obtain rfl := Option.some.inj htop
              exact hfits { scope with target := here } rfl
          | cons innermost inner => exact hfits
      | enter | exit | define | plain => trivial

theorem acts (hretargeted : Retargeted depth here there first second)
    (hsafe : ¬ (first.scopes.length = depth + 1 ∧ element.decides))
    (hacts : Acts first element found? next) :
    ∃ other, Acts second element found? other ∧ Retargeted depth here there next other := by
  cases hretargeted with
  | intro inner scope outer shared hinfo hdepth =>
      -- The block 0 is the innermost block and the element does not need its target, or it lies
      -- below the block that the element is for.
      cases inner with
      | nil =>
          have hdecides : element.decides = false := by
            simpa [hdepth] using hsafe
          obtain ⟨top, rfl, hothers⟩ := hacts.retarget hinfo hdecides
          exact ⟨_, hothers there, .intro top scope outer shared hinfo hdepth⟩
      | cons innermost inner =>
          rw [List.cons_append] at hacts
          obtain ⟨top, after, rfl, hothers⟩ := hacts.frame
          refine ⟨_, hothers (inner ++ { scope with target := there } :: outer), ?_⟩
          rw [← List.append_assoc, ← List.append_assoc]
          exact .intro (top ++ inner) scope outer after hinfo hdepth

theorem act_eq_none (hretargeted : Retargeted depth here there first second)
    (hsafe : ¬ (first.scopes.length = depth + 1 ∧ element.decides))
    (hact : element.act first = none) : element.act second = none := by
  cases hsecond : element.act second with
  | none => rfl
  | some made =>
      obtain ⟨found?, next⟩ := made
      rw [hretargeted.length_eq] at hsafe
      obtain ⟨other, hacts, -⟩ := hretargeted.symm.acts hsafe (acts_of_act hsecond)
      rw [hacts.act_eq] at hact
      cases hact

theorem inner_eq_nil {inner outer : List Scope} {scope : Scope} (hdepth : outer.length = depth)
    (hlength : (inner ++ scope :: outer).length = depth + 1) : inner = [] := by
  apply List.eq_nil_of_length_eq_zero
  simp only [List.length_append, List.length_cons] at hlength
  omega

/-- Where the target is done away with, nothing is left of the difference. -/
theorem act_eq (hretargeted : Retargeted depth here there first second)
    (hlength : first.scopes.length = depth + 1) (hdecides : element.decides)
    (hdefinition : element.isDefinition = false) : element.act first = element.act second := by
  cases hretargeted with
  | intro inner scope outer shared hinfo hdepth =>
      obtain rfl := inner_eq_nil hdepth hlength
      cases element with
      | exit => rfl
      | plain code fields =>
          have hcode := of_decide_eq_true hdecides
          have hboth : ∀ target, { scope with target }.isInfo = true := fun _ => hinfo
          simp only [List.nil_append, act, hboth, Scope.heed_setBlock scope fields _ hcode, if_true]
      | define shape => simp [isDefinition] at hdefinition
      | enter | abbreviated => simp [decides] at hdecides

theorem tell_eq (hretargeted : Retargeted depth here there first second)
    (hnone : definesNext depth first elements = false) :
    (tell first elements).1 = (tell second elements).1 := by
  induction elements generalizing first second with
  | nil => rfl
  | cons element rest ih =>
      rw [definesNext] at hnone
      split_ifs at hnone with hsafe
      · rw [tell, tell, hretargeted.act_eq hsafe.1 hsafe.2 hnone]
      · cases hact : element.act first with
        | none => rw [tell_cons_none hact, tell_cons_none (hretargeted.act_eq_none hsafe hact)]
        | some made =>
            obtain ⟨found?, next⟩ := made
            rw [hact] at hnone
            obtain ⟨other, hacts, hnext⟩ := hretargeted.acts hsafe (acts_of_act hact)
            rw [tell_cons_some hact, tell_cons_some hacts.act_eq, ih hnext hnone]

theorem understood (hretargeted : Retargeted depth here there first second)
    (hnone : definesNext depth first elements = false) (hunderstood : Understood first elements) :
    Understood second elements := by
  induction elements generalizing first second with
  | nil => trivial
  | cons element rest ih =>
      obtain ⟨hfits, hrest⟩ := hunderstood
      refine ⟨hretargeted.fits hfits, fun found? other hother => ?_⟩
      rw [definesNext] at hnone
      split_ifs at hnone with hsafe
      · rw [← hretargeted.act_eq hsafe.1 hsafe.2 hnone] at hother
        exact hrest found? other hother
      · cases hact : element.act first with
        | none =>
            rw [hretargeted.act_eq_none hsafe hact] at hother
            cases hother
        | some made =>
            obtain ⟨found?, next⟩ := made
            rw [hact] at hnone
            obtain ⟨last, hacts, hnext⟩ := hretargeted.acts hsafe (acts_of_act hact)
            obtain ⟨-, rfl⟩ := Prod.mk.inj (Option.some.inj (hacts.act_eq.symm.trans hother))
            exact ih hnext hnone (hrest found? next hact)

theorem act_define (scope : Scope) (hinfo : scope.isInfo = true) (outer : List Scope)
    (shared : Shared) (shape : Abbrev) :
    (Element.define shape).act { scopes := scope :: outer, shared } =
      scope.target.map fun block => (some (.definition block shape false),
        { scopes := scope :: outer, shared := shared.add block shape }) := by
  simp only [act, hinfo, if_true]

theorem tell_define_ne {scope : Scope} {outer : List Scope} {shared : Shared} {block : UInt64}
    {shape : Abbrev} {rest : List Element} {more : List Entry} (hinfo : scope.isInfo = true)
    (hthere : there ≠ some block)
    (hmore : (tell { scopes := { scope with target := there } :: outer, shared }
      [.define shape]).2 = none → more = []) :
    (tell { scopes := { scope with target := some block } :: outer, shared }
        (.define shape :: rest)).1 ≠
      (tell { scopes := { scope with target := there } :: outer, shared }
        [.define shape]).1 ++ more := by
  have hfirst := act_define { scope with target := some block } hinfo outer shared shape
  have hsecond := act_define { scope with target := there } hinfo outer shared shape
  rw [tell_cons_some hfirst]
  cases there with
  | none =>
      rw [tell_cons_none hsecond] at hmore ⊢
      simp [hmore rfl]
  | some other =>
      rw [tell_cons_some hsecond]
      intro heq
      obtain ⟨hhead, -⟩ := List.cons.inj heq
      exact hthere (congrArg some (Entry.definition.inj hhead).1.symm)

theorem tell_ne {block : UInt64} (hretargeted : Retargeted depth (some block) there first second)
    (hthere : there ≠ some block) (hdefines : definesNext depth first elements = true)
    (hunderstood : Understood first elements) :
    ∃ seen unseen, elements = seen ++ unseen ∧ Understood second seen ∧
      ∀ more, ((tell second seen).2 = none → more = []) →
        (tell first elements).1 ≠ (tell second seen).1 ++ more := by
  induction elements generalizing first second with
  | nil => simp [definesNext] at hdefines
  | cons element rest ih =>
      rw [definesNext] at hdefines
      split_ifs at hdefines with hsafe
      · cases hretargeted with
        | intro inner scope outer shared hinfo hdepth =>
            obtain rfl := inner_eq_nil hdepth hsafe.1
            cases element with
            | enter | exit | plain | abbreviated => simp [isDefinition] at hdefines
            | define shape =>
                -- Nothing after the definition is looked at: with another target in force, later
                -- elements may be spelled with abbreviations that no block sees.
                refine ⟨[.define shape], rest, rfl, ⟨trivial, fun _ _ _ => trivial⟩, ?_⟩
                exact fun more hmore => tell_define_ne hinfo hthere hmore
      · cases hact : element.act first with
        | none => simp [hact] at hdefines
        | some made =>
            obtain ⟨found?, next⟩ := made
            rw [hact] at hdefines
            rw [understood_cons hact] at hunderstood
            obtain ⟨hfits, hrest⟩ := hunderstood
            obtain ⟨other, hacts, hnext⟩ := hretargeted.acts hsafe (acts_of_act hact)
            obtain ⟨seen, unseen, rfl, hseen, hne⟩ := ih hnext hdefines hrest
            refine ⟨element :: seen, unseen, rfl, ?_, fun more hmore => ?_⟩
            · exact (understood_cons hacts.act_eq).mpr ⟨hretargeted.fits hfits, hseen⟩
            · rw [tell_cons_some hacts.act_eq] at hmore ⊢
              rw [tell_cons_some hact, List.append_assoc]
              intro heq
              exact hne more hmore (List.append_cancel_left heq)

end Retargeted

theorem retargeted_of_heed {scope next : Scope} {code : UInt64} {fields : List UInt64}
    (hinfo : scope.isInfo = true) (hheed : scope.heed code fields = some next) (outer : List Scope)
    (shared : Shared) :
    Retargeted outer.length next.target scope.target { scopes := next :: outer, shared }
      { scopes := scope :: outer, shared } := by
  obtain ⟨target, rfl⟩ := Scope.heed_eq hheed
  exact .intro [] scope outer shared hinfo rfl

end Element

theorem Scope.heed_target {scope next : Scope} {code : UInt64} {fields : List UInt64}
    (hheed : scope.heed code fields = some next) :
    next = scope ∨ ∃ block, next = { scope with target := some block } := by
  by_cases hcode : InfoCode.ofCode? code = some .setBlock
  · right
    unfold heed at hheed
    rw [hcode] at hheed
    cases fields with
    | nil => cases hheed
    | cons block fields => exact ⟨block, (Option.some.inj hheed).symm⟩
  · left
    exact (heed_name hcode hheed scope).2

namespace InfoSample

/-- A choice of a target, abbreviated. -/
def choice : Abbrev :=
  ⟨[.literal 1, .vbr 6]⟩

/-- A record with one field. -/
def value : Abbrev :=
  ⟨[.literal 7, .fixed 4]⟩

/-- A block 0 that defines the choice for itself, and the beginning of another. -/
def front : List (Element × UInt64) :=
  [(.enter 0 3, 2), (.plain 1 [0], 0), (.define choice, 0), (.exit, 0), (.enter 0 3, 2)]

/-- A definition, and a block 8 with a record that needs it. -/
def back : List (Element × UInt64) :=
  [(.define value, 0), (.exit, 0), (.enter 8 3, 1), (.abbreviated 4 value [7, 9], 0), (.exit, 0)]

/-- The bytes with the target 8 chosen between the two. -/
def plain : Array UInt8 :=
  #[0x01, 0x0c, 0, 0, 2, 0, 0, 0, 0x0b, 0x02, 0x40, 0x62, 0x00, 0x19, 0, 0, 0x01, 0x0c, 0, 0,
    2, 0, 0, 0, 0x0b, 0x02, 0x44, 0xe2, 0x81, 0x10, 0, 0, 0x21, 0x0c, 0, 0, 1, 0, 0, 0,
    0x4c, 0, 0, 0]

/-- The bytes with the same choice, abbreviated. -/
def abbreviated : Array UInt8 :=
  #[0x01, 0x0c, 0, 0, 2, 0, 0, 0, 0x0b, 0x02, 0x40, 0x62, 0x00, 0x19, 0, 0, 0x01, 0x0c, 0, 0,
    2, 0, 0, 0, 0x44, 0x24, 0x1e, 0x08, 0x01, 0, 0, 0, 0x21, 0x0c, 0, 0, 1, 0, 0, 0,
    0x4c, 0, 0, 0]

/-- The block 0 where the target is chosen. -/
def scope : Scope :=
  { block := 0, idWidth := 3, abbrevs := [choice] }

def shared : Shared :=
  ({} : Shared).add 0 choice

theorem stream?_plain :
    Element.stream? (front ++ (.plain 1 [8], 0) :: back) = some plain := by
  decide +kernel

theorem stream?_abbreviated :
    Element.stream? (front ++ (.abbreviated 4 choice [1, 8], 0) :: back) = some abbreviated := by
  decide +kernel

theorem tell_front :
    Element.tell {} (front.map (·.1)) =
      ([.definition 0 choice false], some { scopes := [scope], shared }) := by
  rfl

theorem understood_front : Element.Understood {} (front.map (·.1)) := by
  simp [front, Element.Understood, Element.Fits]

theorem understood_back :
    Element.Understood { scopes := [{ scope with target := some 8 }], shared }
      (back.map (·.1)) := by
  simp only [back, List.map_cons, List.map_nil, Element.Understood, Element.Fits, true_and,
    implies_true, and_true]
  rintro _ _ ⟨⟩ _ _ ⟨⟩ _ _ ⟨⟩ _ ⟨⟩
  rfl

end InfoSample

section Replacement

variable {cursor other : Cursor} {front back : List Element} {told : List Entry} {scope : Scope}
  {outer : List Scope} {shared : Shared} {code id : UInt64} {fields : List UInt64} {shape : Abbrev}

/-- A record of block 0 goes over to an abbreviation. If the reader heeds the record, the entries
stay as they are exactly if the target does, or if nothing is defined for it. If the reader refuses
the record, its abbreviated form lets the reader go on to the elements after it. -/
theorem gists_infoRecord_eq_iff
    (hfront : Element.tell {} front = (told, some { scopes := scope :: outer, shared }))
    (hinfo : scope.isInfo = true) (hshape : abbrevWithId? scope.abbrevs id = some shape)
    (hcursor : Before cursor (front ++ .plain code fields :: back))
    (hother : Before other (front ++ .abbreviated id shape (code :: fields) :: back))
    (hbefore : Element.Understood {} front)
    (hafter : Element.Understood
      { scopes := (scope.heed code fields).getD scope :: outer, shared } back) :
    (∀ next, scope.heed code fields = some next →
      (Reader.gists cursor = Reader.gists other ↔
        next.target = scope.target ∨
          Element.definesNext outer.length { scopes := next :: outer, shared } back = false)) ∧
    (scope.heed code fields = none →
      Reader.gists cursor = told ∧
        Reader.gists other =
          told ++ (Element.tell { scopes := scope :: outer, shared } back).1) := by
  have hpass := (Element.Acts.pass id shape (code :: fields) outer shared hinfo).act_eq
  have hfits : (Element.abbreviated id shape (code :: fields)).Fits
      { scopes := scope :: outer, shared } := by
    rintro _ ⟨⟩
    exact hshape
  refine ⟨fun next hheed => ?_, fun hheed => ?_⟩
  · rw [hheed, Option.getD_some] at hafter
    have hinform := (Element.Acts.inform outer shared hinfo hheed).act_eq
    rw [hcursor.gists_all hfront hbefore hinform trivial hafter]
    have hretargeted := Element.retargeted_of_heed hinfo hheed outer shared
    constructor
    · intro heq
      by_contra hneither
      obtain ⟨htarget, hdefines⟩ := not_or.mp hneither
      rw [Bool.not_eq_false] at hdefines
      obtain rfl | ⟨block, rfl⟩ := Scope.heed_target hheed
      · exact htarget rfl
      · obtain ⟨seen, unseen, rfl, hseen, hne⟩ :=
          hretargeted.tell_ne (Ne.symm htarget) hdefines hafter
        obtain ⟨more, hgists, hrefused, -⟩ :=
          hother.gists_after hfront hbefore hpass hfits hseen
        rw [hgists, List.append_assoc] at heq
        exact hne more hrefused (List.append_cancel_left heq)
    · rintro (htarget | hnone)
      · obtain ⟨target, rfl⟩ := Scope.heed_eq hheed
        obtain rfl : target = scope.target := htarget
        exact (hother.gists_all hfront hbefore hpass hfits hafter).symm
      · rw [hretargeted.tell_eq hnone,
          hother.gists_all hfront hbefore hpass hfits (hretargeted.understood hnone hafter)]
  · rw [hheed, Option.getD_none] at hafter
    have hrefused :
        (Element.plain code fields).act { scopes := scope :: outer, shared } = none := by
      simp [Element.act, hinfo, hheed]
    exact ⟨hcursor.gists_refused hfront hbefore hrefused trivial,
      hother.gists_all hfront hbefore hpass hfits hafter⟩

end Replacement

theorem gists_infoRecord_eq_iff_choice :
    Reader.gists (Cursor.ofBytes InfoSample.plain) ≠
        Reader.gists (Cursor.ofBytes InfoSample.abbreviated) ∧
      ∃ bytes others,
        Element.stream? (InfoSample.front ++ (.plain 1 [9], 0) :: (.plain 1 [8], 0) ::
          InfoSample.back) = some bytes ∧
        Element.stream? (InfoSample.front ++ (.abbreviated 4 InfoSample.choice [1, 9], 0) ::
          (.plain 1 [8], 0) :: InfoSample.back) = some others ∧
        Reader.gists (Cursor.ofBytes bytes) = Reader.gists (Cursor.ofBytes others) := by
  constructor
  · have hplain := Element.before_stream InfoSample.stream?_plain
    have habbreviated := Element.before_stream InfoSample.stream?_abbreviated
    rw [List.map_append, List.map_cons] at hplain habbreviated
    have hiff := (gists_infoRecord_eq_iff InfoSample.tell_front rfl rfl hplain habbreviated
      InfoSample.understood_front InfoSample.understood_back).1 _ rfl
    exact fun hsame => absurd (hiff.mp hsame) (by decide)
  · obtain ⟨bytes, hbytes⟩ := Option.isSome_iff_exists.mp (show (Element.stream?
      (InfoSample.front ++ (.plain 1 [9], 0) :: (.plain 1 [8], 0) :: InfoSample.back)).isSome by
        decide +kernel)
    obtain ⟨others, hothers⟩ := Option.isSome_iff_exists.mp (show (Element.stream?
      (InfoSample.front ++ (.abbreviated 4 InfoSample.choice [1, 9], 0) :: (.plain 1 [8], 0) ::
        InfoSample.back)).isSome by decide +kernel)
    have hplain := Element.before_stream hbytes
    have habbreviated := Element.before_stream hothers
    rw [List.map_append, List.map_cons] at hplain habbreviated
    refine ⟨bytes, others, hbytes, hothers, ?_⟩
    refine ((gists_infoRecord_eq_iff InfoSample.tell_front rfl rfl hplain habbreviated
      InfoSample.understood_front ?_).1 _ rfl).mpr (.inr rfl)
    exact ⟨trivial, fun _ _ hact => by cases hact; exact InfoSample.understood_back⟩

/-- An abbreviated choice of a target is passed over, and the definition after it is lost. -/
theorem gists_infoRecord_ne :
    Element.stream? (InfoSample.front ++ (.plain 1 [8], 0) :: InfoSample.back) =
        some InfoSample.plain ∧
      Element.stream? (InfoSample.front ++ (.abbreviated 4 InfoSample.choice [1, 8], 0) ::
        InfoSample.back) = some InfoSample.abbreviated ∧
      Reader.gists (Cursor.ofBytes InfoSample.plain) =
        [.definition 0 InfoSample.choice false, .definition 8 InfoSample.value false, .block 8 0,
          .record { id := some 4, code := 7, fields := [9] }, .endBlock] ∧
      Reader.gists (Cursor.ofBytes InfoSample.abbreviated) =
        [.definition 0 InfoSample.choice false] :=
  ⟨InfoSample.stream?_plain, InfoSample.stream?_abbreviated, by decide +kernel, by decide +kernel⟩

end Bitcode.Bitstream
