import Bitcode.Proofs.Streaming.Assignment

namespace Bitcode.Streaming

/-- A claim that was granted. -/
structure Grant where
  function : Nat
  chunk : Nat
  /-- The answer: the first function after the chunk. -/
  past : Nat
  deriving DecidableEq, Repr

namespace Grant

/-- The functions that the claim asked for. -/
def asked (grant : Grant) : Finset Nat :=
  Finset.Ico grant.function (grant.function + grant.chunk)

/-- The functions that the counter moved over. -/
def given (grant : Grant) : Finset Nat :=
  Finset.Ico (grant.past - grant.chunk) grant.past

/-- The answer is the function after those that the claim asked for. -/
def Apt (grant : Grant) : Prop :=
  grant.past = grant.function + grant.chunk

instance (grant : Grant) : Decidable grant.Apt :=
  inferInstanceAs (Decidable (_ = _))

/-- How many functions some claims have been granted. -/
def total (grants : List Grant) : Nat :=
  (grants.map (·.chunk)).sum

theorem total_append (first second : List Grant) :
    total (first ++ second) = total first + total second := by
  simp [total]

end Grant

/-- A claim under way: the counter has been loaded, and is to be exchanged. -/
structure Call where
  function : Nat
  chunk : Nat
  observed : Nat
  deriving DecidableEq, Repr

/-- An atomic step of a thread. -/
inductive Move (θ : Type) where
  /-- Begin a claim: load the counter, and see whether the function has been claimed. -/
  | look (thread : θ) (function chunk : Nat)
  /-- Finish the claim that the thread has under way. -/
  | take (thread : θ)
  deriving DecidableEq, Repr

/-- Some threads at one assignment, with the claims granted so far. -/
structure Desk (θ : Type) where
  assignment : Assignment
  calls : θ → Option Call := fun _ => none
  granted : List Grant := []

namespace Desk

variable {θ : Type} [DecidableEq θ]

def step (desk : Desk θ) : Move θ → Desk θ
  | .look thread function chunk =>
      match desk.calls thread, desk.assignment.observe function with
      | none, .ok observed =>
          { desk with
            calls := Function.update desk.calls thread (some ⟨function, chunk, observed⟩) }
      | _, _ => desk
  | .take thread =>
      match desk.calls thread with
      | none => desk
      | some call =>
          match Assignment.exchange call.observed call.chunk desk.assignment with
          | .ok past assignment =>
              { assignment
                calls := Function.update desk.calls thread none
                granted := desk.granted ++ [⟨call.function, call.chunk, past⟩] }
          | .error _ assignment =>
              { desk with assignment, calls := Function.update desk.calls thread none }

/-- The desk after steps of the threads in some order. The functions and chunks of the claims are
arbitrary, so they may depend on what the threads were answered before. -/
def after (assignment : Assignment) (moves : List (Move θ)) : Desk θ :=
  moves.foldl step { assignment }

omit [DecidableEq θ] in
/-- The claims are what they asked for, and no two of them asked for the same function. -/
def AsAsked (desk : Desk θ) : Prop :=
  (∀ grant ∈ desk.granted, grant.Apt) ∧
    desk.granted.Pairwise fun earlier later => Disjoint earlier.asked later.asked

/-- All that a step can do. -/
inductive Transition (desk : Desk θ) : Desk θ → Prop where
  | rest : Transition desk desk
  | look (thread : θ) (function chunk : Nat) (hfree : desk.assignment.unclaimed ≤ function) :
      Transition desk { desk with
        calls := Function.update desk.calls thread
          (some ⟨function, chunk, desk.assignment.unclaimed⟩) }
  | refuse (thread : θ) :
      Transition desk { desk with calls := Function.update desk.calls thread none }
  | grant (thread : θ) (call : Call) (hcall : desk.calls thread = some call)
      (hstill : desk.assignment.unclaimed = call.observed) :
      Transition desk
        { assignment :=
            { desk.assignment with unclaimed := (call.observed + call.chunk) % UInt64.size }
          calls := Function.update desk.calls thread none
          granted := desk.granted ++
            [⟨call.function, call.chunk, (call.observed + call.chunk) % UInt64.size⟩] }

theorem step_transition (desk : Desk θ) (move : Move θ) : Transition desk (desk.step move) := by
  cases move with
  | look thread function chunk =>
      by_cases hgone : function < desk.assignment.unclaimed
      · simp only [step, Assignment.observe, if_pos hgone]
        cases desk.calls thread <;> exact .rest
      · simp only [step, Assignment.observe, if_neg hgone]
        cases desk.calls thread with
        | some call => exact .rest
        | none => exact .look thread function chunk (Nat.le_of_not_lt hgone)
  | take thread =>
      cases hcall : desk.calls thread with
      | none =>
          simp only [step, hcall]
          exact .rest
      | some call =>
          simp only [step, hcall, Assignment.exchange_eq]
          by_cases hstill : desk.assignment.unclaimed = call.observed
          · simp only [if_pos hstill]
            exact .grant thread call hcall hstill
          · simp only [if_neg hstill]
            exact .refuse thread

omit [DecidableEq θ] in
/-- What holds after every step. The counter goes round after as many functions as a word can name.
A claim begins where it stands, which is not behind the function that it asked for. -/
structure Sound (desk : Desk θ) : Prop where
  unclaimed_eq : desk.assignment.unclaimed = Grant.total desk.granted % UInt64.size
  observed_le : ∀ thread, ∀ call ∈ desk.calls thread, call.observed ≤ call.function
  laid : ∀ before grant later, desk.granted = before ++ grant :: later →
    grant.past = (Grant.total before + grant.chunk) % UInt64.size ∧
      Grant.total before % UInt64.size ≤ grant.function

theorem observed_le_update {calls : θ → Option Call} {changed : Option Call}
    (hcalls : ∀ thread, ∀ call ∈ calls thread, call.observed ≤ call.function)
    (hchanged : ∀ call ∈ changed, call.observed ≤ call.function) (turn : θ) :
    ∀ thread, ∀ call ∈ Function.update calls turn changed thread,
      call.observed ≤ call.function := by
  intro thread
  by_cases hturn : thread = turn
  · subst hturn
    rwa [Function.update_self]
  · rw [Function.update_of_ne hturn]
    exact hcalls thread

theorem Transition.sound {desk next : Desk θ} (htransition : Transition desk next)
    (hsound : desk.Sound) : next.Sound := by
  obtain ⟨hunclaimed, hobserved, hlaid⟩ := hsound
  cases htransition with
  | rest => exact ⟨hunclaimed, hobserved, hlaid⟩
  | look thread function chunk hfree =>
      exact ⟨hunclaimed, observed_le_update hobserved (by rintro call ⟨⟩; exact hfree) thread, hlaid⟩
  | refuse thread =>
      exact ⟨hunclaimed, observed_le_update hobserved (by rintro call ⟨⟩) thread, hlaid⟩
  | grant thread call hcall hstill =>
      have hstart : call.observed = Grant.total desk.granted % UInt64.size := hstill ▸ hunclaimed
      have hnext : (call.observed + call.chunk) % UInt64.size =
          (Grant.total desk.granted + call.chunk) % UInt64.size := by
        rw [hstart, Nat.mod_add_mod]
      have hasked := hobserved thread call hcall
      refine ⟨?_, observed_le_update hobserved (by rintro call ⟨⟩) thread, ?_⟩
      · rw [Grant.total_append, hnext]
        rfl
      · intro before grant later hsplit
        -- The claim is the new one, or one of those before it.
        rcases List.eq_nil_or_concat later with rfl | ⟨front, last, rfl⟩
        · obtain ⟨rfl, hlast⟩ := List.append_inj' hsplit rfl
          obtain rfl := List.singleton_inj.mp hlast
          exact ⟨hnext, hstart ▸ hasked⟩
        · rw [List.concat_eq_append, ← List.cons_append, ← List.append_assoc] at hsplit
          exact hlaid before grant front (List.append_inj' hsplit rfl).1

theorem sound_after {assignment : Assignment} (hfresh : assignment.unclaimed = 0)
    (moves : List (Move θ)) : (after assignment moves).Sound := by
  induction moves using List.reverseRecOn with
  | nil =>
      refine ⟨by rw [after, List.foldl_nil, hfresh]; rfl, ?_, ?_⟩
      · rintro thread call ⟨⟩
      · intro before grant later hsplit
        simp [after] at hsplit
  | append_singleton moves move ih =>
      rw [after, List.foldl_append]
      exact (step_transition _ move).sound ih

end Desk

theorem pairwise_of_splits {α : Type} {relation : α → α → Prop} {items : List α}
    (hitems : ∀ before first between second later,
      items = before ++ first :: (between ++ second :: later) → relation first second) :
    items.Pairwise relation := by
  induction items with
  | nil => exact .nil
  | cons item items ih =>
      refine List.pairwise_cons.mpr ⟨?_, ?_⟩
      · intro second hsecond
        obtain ⟨between, later, rfl⟩ := List.append_of_mem hsecond
        exact hitems [] item between second later rfl
      · apply ih
        rintro before first between second later rfl
        exact hitems (item :: before) first between second later rfl

namespace Desk

variable {θ : Type} {desk : Desk θ}

theorem total_le_of_split {before later : List Grant} {grant : Grant}
    (hsplit : desk.granted = before ++ grant :: later) :
    Grant.total before + grant.chunk ≤ Grant.total desk.granted := by
  rw [hsplit, Grant.total_append]
  exact Nat.add_le_add_left (Nat.le_add_right _ _) _

theorem Sound.apt_iff (hsound : desk.Sound) {before later : List Grant} {grant : Grant}
    (hsplit : desk.granted = before ++ grant :: later) :
    grant.Apt ↔ grant.function = Grant.total before % UInt64.size ∧
      grant.function + grant.chunk < UInt64.size := by
  obtain ⟨hpast, hasked⟩ := hsound.laid before grant later hsplit
  rw [Grant.Apt, hpast]
  unfold UInt64.size at hasked ⊢
  omega

theorem Sound.laid_of_lt (hsound : desk.Sound) (hbound : Grant.total desk.granted < UInt64.size)
    {before later : List Grant} {grant : Grant}
    (hsplit : desk.granted = before ++ grant :: later) :
    grant.past = Grant.total before + grant.chunk ∧ Grant.total before ≤ grant.function := by
  have hle := total_le_of_split hsplit
  obtain ⟨hpast, hasked⟩ := hsound.laid before grant later hsplit
  rw [Nat.mod_eq_of_lt (by omega)] at hpast hasked
  exact ⟨hpast, hasked⟩

theorem Sound.past_le (hsound : desk.Sound) (hbound : Grant.total desk.granted < UInt64.size)
    {before between later : List Grant} {first second : Grant}
    (hsplit : desk.granted = before ++ first :: (between ++ second :: later)) :
    first.past + second.chunk ≤ second.past ∧
      second.past ≤ second.function + second.chunk := by
  have hfirst := (hsound.laid_of_lt hbound hsplit).1
  rw [← List.cons_append, ← List.append_assoc] at hsplit
  obtain ⟨hsecond, hasked⟩ := hsound.laid_of_lt hbound hsplit
  have htotal : Grant.total (before ++ first :: between) =
      Grant.total before + (first.chunk + Grant.total between) := by
    rw [Grant.total_append]
    rfl
  omega

theorem Sound.pairwise_given (hsound : desk.Sound)
    (hbound : Grant.total desk.granted < UInt64.size) :
    desk.granted.Pairwise fun earlier later => Disjoint earlier.given later.given := by
  apply pairwise_of_splits
  intro before first between second later hsplit
  have hle := (hsound.past_le hbound hsplit).1
  rw [Finset.disjoint_left]
  intro function hfirst hsecond
  rw [Grant.given, Finset.mem_Ico] at hfirst hsecond
  omega

theorem Sound.pairwise_asked (hsound : desk.Sound)
    (hbound : Grant.total desk.granted < UInt64.size) :
    desk.granted.Pairwise fun earlier later =>
      earlier.Apt → Disjoint earlier.asked later.asked := by
  apply pairwise_of_splits
  intro before first between second later hsplit hapt
  obtain ⟨hle, hasked⟩ := hsound.past_le hbound hsplit
  rw [Grant.Apt] at hapt
  rw [Finset.disjoint_left]
  intro function hfirst hsecond
  rw [Grant.asked, Finset.mem_Ico] at hfirst hsecond
  omega

theorem Sound.total_lt_of_apt (hsound : desk.Sound) (hapt : ∀ grant ∈ desk.granted, grant.Apt)
    (before later : List Grant) (hsplit : desk.granted = before ++ later) :
    Grant.total before < UInt64.size := by
  induction before using List.reverseRecOn generalizing later with
  | nil => decide
  | append_singleton before grant ih =>
      rw [List.append_assoc, List.singleton_append] at hsplit
      have hfirst := ih _ hsplit
      obtain ⟨hfunction, hend⟩ := (hsound.apt_iff hsplit).mp (hapt grant (by simp [hsplit]))
      rw [Nat.mod_eq_of_lt hfirst] at hfunction
      rw [Grant.total_append, ← hfunction]
      exact hend

theorem Sound.asAsked_iff (hsound : desk.Sound) :
    desk.AsAsked ↔ Grant.total desk.granted < UInt64.size ∧
      ∀ before grant later, desk.granted = before ++ grant :: later →
        grant.function = Grant.total before := by
  constructor
  · rintro ⟨hapt, -⟩
    have hbound := hsound.total_lt_of_apt hapt
    refine ⟨hbound desk.granted [] (List.append_nil _).symm, ?_⟩
    intro before grant later hsplit
    have hfunction := ((hsound.apt_iff hsplit).mp (hapt grant (by simp [hsplit]))).1
    rwa [Nat.mod_eq_of_lt (hbound before _ hsplit)] at hfunction
  · rintro ⟨hbound, hcounter⟩
    have hapt : ∀ grant ∈ desk.granted, grant.Apt := by
      intro grant hgrant
      obtain ⟨before, later, hsplit⟩ := List.append_of_mem hgrant
      have hle := total_le_of_split hsplit
      have hfunction := hcounter before grant later hsplit
      refine (hsound.apt_iff hsplit).mpr ⟨?_, by omega⟩
      rw [Nat.mod_eq_of_lt (by omega), hfunction]
    refine ⟨hapt, (hsound.pairwise_asked hbound).imp_of_mem ?_⟩
    intro earlier later hearlier _ hdisjoint
    exact hdisjoint (hapt earlier hearlier)

variable [DecidableEq θ]

/-- The counter is the number of functions granted, as a word of 64 bits, and each claim moves it over
its chunk, from where it stands. As long as it has not gone round, what the claims are given never
overlaps, but it is what they asked for only as far as they ask for the function that the counter
stands at: a claim that asks for a later one may share what it asked for with any claim after it. So
the claims are what they ask for exactly if the counter never goes round and each of them asks for the
function that it stands at. -/
theorem grants_asAsked_iff {functions threads : Nat} {assignment : Assignment}
    (hcounts : Assignment.ofCounts functions threads = .ok assignment) (moves : List (Move θ)) :
    (after assignment moves).assignment.unclaimed =
      Grant.total (after assignment moves).granted % UInt64.size ∧
    (∀ before grant later, (after assignment moves).granted = before ++ grant :: later →
      grant.past = (Grant.total before + grant.chunk) % UInt64.size ∧
        Grant.total before % UInt64.size ≤ grant.function ∧
        (grant.Apt ↔ grant.function = Grant.total before % UInt64.size ∧
          grant.function + grant.chunk < UInt64.size)) ∧
    (Grant.total (after assignment moves).granted < UInt64.size →
      (after assignment moves).granted.Pairwise fun earlier later =>
        Disjoint earlier.given later.given ∧
          (earlier.Apt → Disjoint earlier.asked later.asked)) ∧
    ((after assignment moves).AsAsked ↔
      Grant.total (after assignment moves).granted < UInt64.size ∧
        ∀ before grant later, (after assignment moves).granted = before ++ grant :: later →
          grant.function = Grant.total before) := by
  have hsound := sound_after (Assignment.functions_of_ofCounts hcounts).2 moves
  refine ⟨hsound.unclaimed_eq, ?_, ?_, hsound.asAsked_iff⟩
  · intro before grant later hsplit
    obtain ⟨hpast, hasked⟩ := hsound.laid before grant later hsplit
    exact ⟨hpast, hasked, hsound.apt_iff hsplit⟩
  · exact fun hbound => (hsound.pairwise_given hbound).and (hsound.pairwise_asked hbound)

-- A claim that brings the counter round is granted the functions before the second one.
example : Assignment.claim 0xffffffffffffffff 2 ⟨100, 2, 0xffffffffffffffff⟩ =
    .ok 1 ⟨100, 2, 1⟩ := rfl

theorem grants_asAsked_racing :
    Assignment.ofCounts 100 2 = .ok ⟨100, 2, 0⟩ ∧
    ∃ desk : Desk (Fin 2),
      desk = after ⟨100, 2, 0⟩
        [.look 0 0 4, .look 1 0 2, .take 1, .take 0, .look 0 2 4, .take 0] ∧
      desk.granted = [⟨0, 2, 2⟩, ⟨2, 4, 6⟩] ∧ desk.assignment.unclaimed = 6 ∧ desk.AsAsked := by
  have hcounts : Assignment.ofCounts 100 2 = .ok ⟨100, 2, 0⟩ := by decide
  obtain ⟨hunclaimed, -, -, hasked⟩ := grants_asAsked_iff hcounts
    ([.look 0 0 4, .look 1 0 2, .take 1, .take 0, .look 0 2 4, .take 0] : List (Move (Fin 2)))
  have hgranted : (after ⟨100, 2, 0⟩ ([.look 0 0 4, .look 1 0 2, .take 1, .take 0, .look 0 2 4,
      .take 0] : List (Move (Fin 2)))).granted = [⟨0, 2, 2⟩, ⟨2, 4, 6⟩] := by decide +kernel
  refine ⟨hcounts, _, rfl, hgranted, by rw [hunclaimed, hgranted]; rfl, hasked.mpr ?_⟩
  refine ⟨by rw [hgranted]; decide, ?_⟩
  intro before grant later hsplit
  rw [hgranted] at hsplit
  rcases before with _ | ⟨first, _ | ⟨second, before⟩⟩
  · obtain ⟨rfl, -⟩ := List.cons.inj hsplit
    rfl
  · obtain ⟨rfl, hrest⟩ := List.cons.inj hsplit
    obtain ⟨rfl, -⟩ := List.cons.inj hrest
    rfl
  · simp at hsplit

/-- Two claims for the same function, ahead of all that have been claimed, are both granted. They
are told the functions up to the fourth and up to the eighth. -/
theorem grants_not_asAsked_ahead :
    Assignment.ofCounts 100 2 = .ok ⟨100, 2, 0⟩ ∧
    Assignment.claim 10 4 ⟨100, 2, 0⟩ = .ok 4 ⟨100, 2, 4⟩ ∧
    Assignment.claim 10 4 ⟨100, 2, 4⟩ = .ok 8 ⟨100, 2, 8⟩ ∧
    ∃ desk : Desk (Fin 2),
      desk = after ⟨100, 2, 0⟩ [.look 0 10 4, .take 0, .look 1 10 4, .take 1] ∧
      desk.granted = [⟨10, 4, 4⟩, ⟨10, 4, 8⟩] ∧ ¬ desk.AsAsked ∧
      (¬ ∀ grant ∈ desk.granted, grant.past = grant.function + grant.chunk) ∧
      ¬ desk.granted.Pairwise fun earlier later => Disjoint earlier.asked later.asked := by
  have hgranted : (after ⟨100, 2, 0⟩ ([.look 0 10 4, .take 0, .look 1 10 4, .take 1] :
      List (Move (Fin 2)))).granted = [⟨10, 4, 4⟩, ⟨10, 4, 8⟩] := by decide +kernel
  have hends : ¬ ∀ grant ∈ ([⟨10, 4, 4⟩, ⟨10, 4, 8⟩] : List Grant),
      grant.past = grant.function + grant.chunk := by decide
  have hshared : ¬ ([⟨10, 4, 4⟩, ⟨10, 4, 8⟩] : List Grant).Pairwise fun earlier later =>
      Disjoint earlier.asked later.asked := by decide
  refine ⟨by decide, rfl, rfl, _, rfl, hgranted, ?_, hgranted ▸ hends, hgranted ▸ hshared⟩
  intro hasked
  exact hends (hgranted ▸ hasked.1)

end Desk

end Bitcode.Streaming
