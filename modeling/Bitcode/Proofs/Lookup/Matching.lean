import Bitcode.Proofs.Lookup.Closure

namespace Bitcode.Lookup

namespace Forest

/-- The positions along every path ascend, from a position on. -/
def From (start : Nat) : Forest → Prop
  | .nil => True
  | .edge position _ _ below others =>
      start ≤ position ∧ below.From (position + 1) ∧ others.From start

/-- The rows of every node below have a property. -/
def Every (property : List Nat → Prop) : Forest → Prop
  | .nil => True
  | .edge _ _ rows below others => property rows ∧ below.Every property ∧ others.Every property

/-- No row has been recorded. -/
def Bare : Forest → Prop
  | .nil => True
  | .edge _ _ rows below others => rows = [] ∧ below.Bare ∧ others.Bare

theorem from_path {start : Nat} {literals : List (Nat × UInt64)}
    (hascending : literals.Pairwise fun first second => first.1 < second.1)
    (hstart : ∀ literal ∈ literals, start ≤ literal.1) : (path literals).From start := by
  induction literals generalizing start with
  | nil => trivial
  | cons literal rest ih =>
      obtain ⟨hfirst, hrest⟩ := List.pairwise_cons.mp hascending
      exact ⟨hstart literal List.mem_cons_self, ih hrest hfirst, trivial⟩

theorem bare_path (literals : List (Nat × UInt64)) : (path literals).Bare := by
  induction literals with
  | nil => trivial
  | cons literal rest ih => exact ⟨rfl, ih, trivial⟩

theorem From.add {start : Nat} {forest : Forest} {literals : List (Nat × UInt64)}
    (hforest : forest.From start)
    (hascending : literals.Pairwise fun first second => first.1 < second.1)
    (hstart : ∀ literal ∈ literals, start ≤ literal.1) : (forest.add literals).From start := by
  fun_induction Forest.add forest literals generalizing start with
  | case1 forest => exact hforest
  | case2 literals => exact from_path hascending hstart
  | case3 position value rows below others next constant rest hbefore ihbelow ihothers =>
      obtain ⟨hposition, hbelow, hothers⟩ := hforest
      refine ⟨hposition, ihbelow hbelow hascending ?_, ihothers hothers hascending hstart⟩
      intro literal hliteral
      rcases List.mem_cons.mp hliteral with rfl | hliteral
      · exact hbefore
      · have hlater := (List.pairwise_cons.mp hascending).1 literal hliteral
        exact Nat.lt_trans hbefore hlater
  | case4 position value rows below others next constant rest hbefore hsame ih =>
      obtain ⟨hposition, hbelow, hothers⟩ := hforest
      obtain ⟨hfirst, hrest⟩ := List.pairwise_cons.mp hascending
      refine ⟨hposition, ih hbelow hrest ?_, hothers⟩
      intro literal hliteral
      rw [hsame.1]
      exact hfirst literal hliteral
  | case5 position value rows below others next constant rest hbefore hsame hsmaller ih =>
      obtain ⟨hposition, hbelow, hothers⟩ := hforest
      exact ⟨hposition, hbelow, ih hothers hascending hstart⟩
  | case6 position value rows below others next constant rest hbefore hsame hsmaller =>
      obtain ⟨hfirst, hrest⟩ := List.pairwise_cons.mp hascending
      exact ⟨hstart _ List.mem_cons_self, from_path hrest hfirst, hforest⟩

theorem Bare.add {forest : Forest} (hforest : forest.Bare) (literals : List (Nat × UInt64)) :
    (forest.add literals).Bare := by
  fun_induction Forest.add forest literals with
  | case1 forest => exact hforest
  | case2 literals => exact bare_path literals
  | case3 position value rows below others next constant rest hbefore ihbelow ihothers =>
      obtain ⟨hrows, hbelow, hothers⟩ := hforest
      exact ⟨hrows, ihbelow hbelow, ihothers hothers⟩
  | case4 position value rows below others next constant rest hbefore hsame ih =>
      obtain ⟨hrows, hbelow, hothers⟩ := hforest
      exact ⟨hrows, ih hbelow, hothers⟩
  | case5 position value rows below others next constant rest hbefore hsame hsmaller ih =>
      obtain ⟨hrows, hbelow, hothers⟩ := hforest
      exact ⟨hrows, hbelow, ih hothers⟩
  | case6 position value rows below others next constant rest hbefore hsame hsmaller =>
      exact ⟨rfl, bare_path rest, hforest⟩

theorem Bare.every {property : List Nat → Prop} {forest : Forest} (hforest : forest.Bare)
    (hempty : property []) : forest.Every property := by
  induction forest with
  | nil => trivial
  | edge position value rows below others ihbelow ihothers =>
      obtain ⟨rfl, hbelow, hothers⟩ := hforest
      exact ⟨hempty, ihbelow hbelow, ihothers hothers⟩

theorem Every.rows_follow {property : List Nat → Prop} {forest : Forest}
    (hforest : forest.Every property) (values : List UInt64) {here : Trie}
    (hhere : property here.rows) : property (forest.follow values here).rows := by
  induction forest generalizing here with
  | nil => exact hhere
  | edge position value rows below others ihbelow ihothers =>
      obtain ⟨hrows, hbelow, hothers⟩ := hforest
      rw [follow]
      split
      · exact hhere
      · split
        · exact ihbelow hbelow hrows
        · exact ihothers hothers hhere

theorem Bare.rows_follow {forest : Forest} (hforest : forest.Bare) (values : List UInt64)
    {here : Trie} (hhere : here.rows = []) : (forest.follow values here).rows = [] := by
  have hevery : forest.Every (· = []) := hforest.every rfl
  exact hevery.rows_follow values hhere

/-- The rows of a node after a row was recorded there, unless its records leave along an edge. -/
def recorded (leaves : Bool) (row : Nat) (rows : List Nat) : List Nat :=
  if leaves then rows else rows ++ [row]

section Insert

variable {row : Nat} {shape : Abbrev} {position : Nat} {value : UInt64} {rows : List Nat}
  {below others : Forest}

theorem insert_same (hdemand : demand shape position = .constant value) :
    (edge position value rows below others).insert row shape =
      (.edge position value (recorded (below.insert row shape).2 row rows)
        (below.insert row shape).1 others, true) := by
  rw [insert, hdemand]
  simp only [if_true]
  rfl

theorem insert_other {constant : UInt64} (hdemand : demand shape position = .constant constant)
    (hvalue : value ≠ constant) :
    (edge position value rows below others).insert row shape =
      (.edge position value rows below (others.insert row shape).1,
        (others.insert row shape).2) := by
  rw [insert, hdemand]
  simp only [if_neg hvalue]

theorem insert_any (hdemand : demand shape position = .any) :
    (edge position value rows below others).insert row shape =
      (.edge position value (recorded (below.insert row shape).2 row rows)
        (below.insert row shape).1 (others.insert row shape).1, (others.insert row shape).2) := by
  rw [insert, hdemand]
  rfl

theorem insert_absent (hdemand : demand shape position = .absent) :
    (edge position value rows below others).insert row shape =
      (.edge position value rows below (others.insert row shape).1,
        (others.insert row shape).2) := by
  rw [insert, hdemand]

end Insert

/-- The nodes of two tries are the same, whatever rows they hold. -/
def Alike : Forest → Forest → Prop
  | .nil, .nil => True
  | .edge position value _ below others, .edge position' value' _ below' others' =>
      position = position' ∧ value = value' ∧ below.Alike below' ∧ others.Alike others'
  | _, _ => False

theorem Alike.refl (forest : Forest) : forest.Alike forest := by
  induction forest with
  | nil => trivial
  | edge position value rows below others ihbelow ihothers => exact ⟨rfl, rfl, ihbelow, ihothers⟩

theorem alike_insert (row : Nat) (shape : Abbrev) (forest : Forest) :
    forest.Alike (forest.insert row shape).1 := by
  induction forest with
  | nil => trivial
  | edge position value rows below others ihbelow ihothers =>
      cases hdemand : demand shape position with
      | constant constant =>
          by_cases hvalue : value = constant
          · subst hvalue
            rw [insert_same hdemand]
            exact ⟨rfl, rfl, ihbelow, Alike.refl _⟩
          · rw [insert_other hdemand hvalue]
            exact ⟨rfl, rfl, Alike.refl _, ihothers⟩
      | any =>
          rw [insert_any hdemand]
          exact ⟨rfl, rfl, ihbelow, ihothers⟩
      | absent =>
          rw [insert_absent hdemand]
          exact ⟨rfl, rfl, Alike.refl _, ihothers⟩

theorem Alike.closed {first second : Forest} {literals : List (Nat × UInt64)}
    (halike : first.Alike second) (hclosed : first.Closed literals) : second.Closed literals := by
  induction first generalizing second literals with
  | nil =>
      cases second with
      | nil => exact hclosed
      | edge => exact halike.elim
  | edge position value rows below others ihbelow ihothers =>
      cases second with
      | nil => exact halike.elim
      | edge position' value' rows' below' others' =>
          obtain ⟨rfl, rfl, hbelow, hothers⟩ := halike
          obtain _ | ⟨⟨next, constant⟩, rest⟩ := literals
          · exact closed_nil _
          rcases edge_cases position next value constant with
            hbefore | ⟨rfl, rfl⟩ | ⟨rfl, hsmaller⟩ | hafter
          · rw [closed_before hbefore] at hclosed ⊢
            exact ⟨ihbelow hbelow hclosed.1, ihothers hothers hclosed.2⟩
          · rw [closed_same] at hclosed ⊢
            exact ihbelow hbelow hclosed
          · rw [closed_smaller hsmaller] at hclosed ⊢
            exact ihothers hothers hclosed
          · exact absurd hclosed (not_closed_after hafter)

theorem Alike.starts {first second : Forest} {start : Nat} (halike : first.Alike second)
    (hfrom : first.From start) : second.From start := by
  induction first generalizing second start with
  | nil =>
      cases second with
      | nil => trivial
      | edge => exact halike.elim
  | edge position value rows below others ihbelow ihothers =>
      cases second with
      | nil => exact halike.elim
      | edge position' value' rows' below' others' =>
          obtain ⟨rfl, rfl, hbelow, hothers⟩ := halike
          obtain ⟨hposition, hfromBelow, hfromOthers⟩ := hfrom
          exact ⟨hposition, ihbelow hbelow hfromBelow, ihothers hothers hfromOthers⟩

section Follow

variable {values : List UInt64} {row : Nat} {shape : Abbrev}

/-- The node that a record leads to holds what is recorded there or at the start. -/
theorem mem_rows_follow_congr {other : Nat} {first second : Trie}
    (hrows : other ∈ first.rows ↔ other ∈ second.rows) (forest : Forest) :
    other ∈ (forest.follow values first).rows ↔ other ∈ (forest.follow values second).rows := by
  induction forest with
  | nil => exact hrows
  | edge position value rows below others ihbelow ihothers =>
      simp only [follow]
      split
      · exact hrows
      · split
        · exact Iff.rfl
        · exact ihothers

theorem mem_recorded {other : Nat} {leaves : Bool} {rows : List Nat} (hother : other ≠ row) :
    other ∈ recorded leaves row rows ↔ other ∈ rows := by
  unfold recorded
  split
  · exact Iff.rfl
  · simp [hother]

theorem mem_rows_follow_insert_of_ne {other : Nat} (hother : other ≠ row) {here there : Trie}
    (hrows : other ∈ there.rows ↔ other ∈ here.rows) (forest : Forest) :
    other ∈ ((forest.insert row shape).1.follow values there).rows ↔
      other ∈ (forest.follow values here).rows := by
  induction forest generalizing here there with
  | nil => exact hrows
  | edge position value rows below others ihbelow ihothers =>
      have hdeeper : ∀ first : Trie, first.rows = recorded (below.insert row shape).2 row rows →
          (other ∈ ((below.insert row shape).1.follow values first).rows ↔
            other ∈ (below.follow values { rows, edges := below }).rows) := by
        intro first hfirst
        apply ihbelow
        rw [hfirst, mem_recorded hother]
      cases hdemand : demand shape position with
      | constant constant =>
          by_cases hvalue : value = constant
          · subst hvalue
            rw [insert_same hdemand]
            simp only [follow]
            split
            · exact hrows
            · split
              · exact hdeeper _ rfl
              · exact mem_rows_follow_congr hrows others
          · rw [insert_other hdemand hvalue]
            simp only [follow]
            split
            · exact hrows
            · split
              · exact Iff.rfl
              · exact ihothers hrows
      | any =>
          rw [insert_any hdemand]
          simp only [follow]
          split
          · exact hrows
          · split
            · exact hdeeper _ rfl
            · exact ihothers hrows
      | absent =>
          rw [insert_absent hdemand]
          simp only [follow]
          split
          · exact hrows
          · split
            · exact Iff.rfl
            · exact ihothers hrows

theorem leaves_insert_eq_false {start : Nat} {forest : Forest} (hfrom : forest.From start)
    (hnone : ∀ position, start ≤ position → ∀ constant,
      demand shape position ≠ .constant constant) : (forest.insert row shape).2 = false := by
  induction forest with
  | nil => rfl
  | edge position value rows below others ihbelow ihothers =>
      obtain ⟨hposition, -, hothers⟩ := hfrom
      cases hdemand : demand shape position with
      | constant constant => exact absurd hdemand (hnone position hposition constant)
      | any =>
          rw [insert_any hdemand]
          exact ihothers hothers
      | absent =>
          rw [insert_absent hdemand]
          exact ihothers hothers

end Follow

end Forest

/-- A record has values at the constants of the abbreviation, and none where the abbreviation has
none. -/
structure Fits (shape : Abbrev) (values : List UInt64) : Prop where
  constant : ∀ position value, demand shape position = .constant value → position < values.length
  absent : ∀ position, demand shape position = .absent → values[position]? = none

/-- The constants are those of the abbreviation from a position on. -/
structure Lists (shape : Abbrev) (start : Nat) (literals : List (Nat × UInt64)) : Prop where
  ascending : literals.Pairwise fun first second => first.1 < second.1
  starts : ∀ literal ∈ literals, start ≤ literal.1
  demand_iff : ∀ position, start ≤ position → ∀ value,
    demand shape position = .constant value ↔ (position, value) ∈ literals

section Lists

variable {shape : Abbrev} {start next : Nat} {constant : UInt64} {rest : List (Nat × UInt64)}

theorem Lists.mono {later : Nat} {literals : List (Nat × UInt64)}
    (hlists : Lists shape start literals) (hlater : start ≤ later)
    (hstarts : ∀ literal ∈ literals, later ≤ literal.1) : Lists shape later literals :=
  ⟨hlists.ascending, hstarts, fun position hposition =>
    hlists.demand_iff position (Nat.le_trans hlater hposition)⟩

theorem Lists.after_edge {position : Nat}
    (hlists : Lists shape start ((next, constant) :: rest)) (hstart : start ≤ position)
    (hbefore : position < next) : Lists shape (position + 1) ((next, constant) :: rest) := by
  refine hlists.mono (by omega) ?_
  intro literal hliteral
  rcases List.mem_cons.mp hliteral with rfl | hliteral
  · exact hbefore
  · exact Nat.lt_trans hbefore ((List.pairwise_cons.mp hlists.ascending).1 literal hliteral)

theorem Lists.tail (hlists : Lists shape start ((next, constant) :: rest)) :
    Lists shape (next + 1) rest := by
  obtain ⟨hfirst, hrest⟩ := List.pairwise_cons.mp hlists.ascending
  refine ⟨hrest, hfirst, ?_⟩
  intro position hposition value
  have hstart := hlists.starts _ List.mem_cons_self
  have hne : (position, value) ≠ (next, constant) := by
    rintro ⟨⟩
    omega
  rw [hlists.demand_iff position (Nat.le_trans hstart (by omega)), List.mem_cons, or_iff_right hne]

theorem Lists.demand_head (hlists : Lists shape start ((next, constant) :: rest)) :
    demand shape next = .constant constant :=
  (hlists.demand_iff next (hlists.starts _ List.mem_cons_self) constant).mpr List.mem_cons_self

theorem Lists.demand_before {position : Nat}
    (hlists : Lists shape start ((next, constant) :: rest)) (hstart : start ≤ position)
    (hbefore : position < next) (value : UInt64) : demand shape position ≠ .constant value := by
  intro hdemand
  have hmem := (hlists.demand_iff position hstart value).mp hdemand
  have hstarts := (hlists.after_edge hstart hbefore).starts _ hmem
  exact Nat.lt_irrefl _ hstarts

end Lists

namespace Forest

section Edge

variable {values : List UInt64} {position : Nat} {value found : UInt64} {rows : List Nat}
  {below others : Forest} {here : Trie}

theorem follow_here (hnone : values[position]? = none) :
    (edge position value rows below others).follow values here = here := by
  rw [follow, hnone]

theorem follow_below (hfound : values[position]? = some value) :
    (edge position value rows below others).follow values here =
      below.follow values { rows, edges := below } := by
  rw [follow, hfound]
  simp only [if_true]

theorem follow_others (hfound : values[position]? = some found) (hne : found ≠ value) :
    (edge position value rows below others).follow values here = others.follow values here := by
  rw [follow, hfound]
  simp only [if_neg hne]

end Edge

/-- Following a record finds a row after it was recorded if it was there before, or if the record
has what is demanded. -/
def RecordedIff (row : Nat) (shape : Abbrev) (values : List UInt64) (forest : Forest)
    (demanded : Prop) : Prop :=
  ∀ here there : Trie, there.rows = recorded (forest.insert row shape).2 row here.rows →
    (row ∈ ((forest.insert row shape).1.follow values there).rows ↔
      row ∈ (forest.follow values here).rows ∨ demanded)

section RecordedIff

variable {row : Nat} {shape : Abbrev} {values : List UInt64} {position : Nat} {value found : UInt64}
  {rows : List Nat} {below others : Forest} {demanded : Prop}

theorem recordedIff_pass (hfits : Fits shape values)
    (hdemand : ∀ constant, demand shape position ≠ .constant constant)
    (hfound : values[position]? = some found) (hbelow : RecordedIff row shape values below demanded)
    (hothers : RecordedIff row shape values others demanded) :
    RecordedIff row shape values (.edge position value rows below others) demanded := by
  intro here there hrows
  cases hwanted : demand shape position with
  | constant constant => exact absurd hwanted (hdemand constant)
  | any =>
      rw [insert_any hwanted] at hrows ⊢
      by_cases hvalue : found = value
      · subst hvalue
        rw [follow_below hfound, follow_below hfound]
        exact hbelow _ _ rfl
      · rw [follow_others hfound hvalue, follow_others hfound hvalue]
        exact hothers _ _ hrows
  | absent =>
      rw [hfits.absent position hwanted] at hfound
      simp at hfound

theorem recordedIff_take (hdemand : demand shape position = .constant value)
    (hfound : values[position]? = some found)
    (hbelow : RecordedIff row shape values below demanded) :
    RecordedIff row shape values (.edge position value rows below others)
      (found = value ∧ demanded) := by
  intro here there hrows
  rw [insert_same hdemand] at hrows ⊢
  by_cases hvalue : found = value
  · subst hvalue
    rw [follow_below hfound, follow_below hfound]
    simpa using hbelow _ _ rfl
  · rw [follow_others hfound hvalue, follow_others hfound hvalue]
    have hsame : there.rows = here.rows := hrows
    simp only [hvalue, false_and, or_false]
    exact mem_rows_follow_congr (by rw [hsame]) others

theorem recordedIff_skip {constant : UInt64} (hdemand : demand shape position = .constant constant)
    (hvalue : value ≠ constant) (hfound : values[position]? = some found)
    (hneeds : demanded → found = constant)
    (hothers : RecordedIff row shape values others demanded) :
    RecordedIff row shape values (.edge position value rows below others) demanded := by
  intro here there hrows
  rw [insert_other hdemand hvalue] at hrows ⊢
  by_cases hsame : found = value
  · subst hsame
    rw [follow_below hfound, follow_below hfound]
    exact ⟨.inl, fun hmem => hmem.resolve_right fun hdemanded => hvalue (hneeds hdemanded)⟩
  · rw [follow_others hfound hsame, follow_others hfound hsame]
    exact hothers _ _ hrows

end RecordedIff

theorem recordedIff_of_closed {shape : Abbrev} {values : List UInt64} {row start : Nat}
    {literals : List (Nat × UInt64)} {forest : Forest} (hfits : Fits shape values)
    (hfrom : forest.From start) (hclosed : forest.Closed literals)
    (hlists : Lists shape start literals) :
    RecordedIff row shape values forest
      (∀ literal ∈ literals, values[literal.1]? = some literal.2) := by
  induction forest generalizing start literals with
  | nil =>
      cases literals with
      | nil =>
          intro here there hrows
          rw [insert, follow, follow, hrows]
          simp [insert, recorded]
      | cons literal rest => exact hclosed.elim
  | edge position value rows below others ihbelow ihothers =>
      have hall := hfrom
      obtain ⟨hposition, hfromBelow, hfromOthers⟩ := hfrom
      obtain _ | ⟨⟨next, constant⟩, rest⟩ := literals
      · have hnone : ∀ place, start ≤ place → ∀ constant, demand shape place ≠ .constant constant := by
          intro place hplace constant hdemand
          simpa using (hlists.demand_iff place hplace constant).mp hdemand
        have hbelow := ihbelow hfromBelow (closed_nil _) (hlists.mono (by omega) (by simp))
        have hothers := ihothers hfromOthers (closed_nil _) hlists
        cases hfound : values[position]? with
        | some found => exact recordedIff_pass hfits (hnone position hposition) hfound hbelow hothers
        | none =>
            -- The record ends before this edge, and so do all records of the abbreviation.
            intro here there hrows
            rw [leaves_insert_eq_false hall hnone] at hrows
            have hstays : (((edge position value rows below others).insert row shape).1.follow values
                there) = there := by
              cases hdemand : demand shape position with
              | constant constant => exact absurd hdemand (hnone position hposition constant)
              | any => rw [insert_any hdemand, follow_here hfound]
              | absent => rw [insert_absent hdemand, follow_here hfound]
            rw [hstays, follow_here hfound, hrows]
            simp [recorded]
      · have hnext := hlists.demand_head
        have hlong := hfits.constant next constant hnext
        rcases edge_cases position next value constant with
          hbefore | ⟨rfl, rfl⟩ | ⟨rfl, hsmaller⟩ | hafter
        · rw [closed_before hbefore] at hclosed
          have hfound : values[position]? = some values[position] := List.getElem?_eq_getElem (by omega)
          exact recordedIff_pass hfits (hlists.demand_before hposition hbefore) hfound
            (ihbelow hfromBelow hclosed.1 (hlists.after_edge hposition hbefore))
            (ihothers hfromOthers hclosed.2 hlists)
        · rw [closed_same] at hclosed
          have hfound : values[position]? = some values[position] := List.getElem?_eq_getElem hlong
          have htake : RecordedIff row shape values (.edge position value rows below others)
              (values[position] = value ∧
                ∀ literal ∈ rest, values[literal.1]? = some literal.2) :=
            recordedIff_take hnext hfound (ihbelow hfromBelow hclosed hlists.tail)
          simpa [hfound] using htake
        · rw [closed_smaller hsmaller] at hclosed
          have hfound : values[position]? = some values[position] := List.getElem?_eq_getElem hlong
          refine recordedIff_skip hnext (UInt64.ne_of_lt hsmaller) hfound ?_
            (ihothers hfromOthers hclosed hlists)
          intro hdemanded
          have hvalue := hdemanded (position, constant) List.mem_cons_self
          rw [hfound] at hvalue
          exact Option.some.inj hvalue
        · exact absurd hclosed (not_closed_after hafter)

end Forest

end Bitcode.Lookup
