import Mathlib
import Bitcode.Streaming.Assignment

namespace Bitcode.Streaming

namespace Assignment

theorem functions_of_ofCounts {functions threads : Nat} {assignment : Assignment}
    (hcounts : ofCounts functions threads = .ok assignment) :
    assignment.functions = functions ∧ assignment.unclaimed = 0 := by
  unfold ofCounts at hcounts
  split at hcounts
  · cases hcounts
  · obtain rfl := Except.ok.inj hcounts
    exact ⟨rfl, rfl⟩

theorem one_le_chunkSize (assignment : Assignment) : 1 ≤ assignment.chunkSize := by
  simp only [chunkSize]
  omega

theorem unclaimed_add_chunkSize_le {assignment : Assignment}
    (hleft : assignment.unclaimed < assignment.functions) :
    assignment.unclaimed + assignment.chunkSize ≤ assignment.functions := by
  have hshare := Nat.div_le_self (max (assignment.functions - assignment.unclaimed) 1)
    (assignment.threads * 4)
  simp only [chunkSize]
  omega

/-- The second half of a claim, on a counter that does not wrap around. -/
def commit (observed chunk : Nat) : EStateM Nat Assignment Nat := do
  let assignment ← get
  if assignment.unclaimed = observed then
    set { assignment with unclaimed := observed + chunk }
    return observed + chunk
  else throw assignment.unclaimed

theorem commit_eq (observed chunk : Nat) (assignment : Assignment) :
    commit observed chunk assignment =
      if assignment.unclaimed = observed then
        .ok (observed + chunk) { assignment with unclaimed := observed + chunk }
      else .error assignment.unclaimed assignment := by
  by_cases hobserved : assignment.unclaimed = observed
  · simp [commit, hobserved, bind, EStateM.bind, get, getThe, MonadStateOf.get, EStateM.get, set,
      EStateM.set, pure, EStateM.pure]
  · simp [commit, hobserved, bind, EStateM.bind, get, getThe, MonadStateOf.get, EStateM.get, throw,
      throwThe, MonadExceptOf.throw, EStateM.throw]

theorem exchange_eq (observed chunk : Nat) (assignment : Assignment) :
    exchange observed chunk assignment =
      if assignment.unclaimed = observed then
        .ok ((observed + chunk) % UInt64.size)
          { assignment with unclaimed := (observed + chunk) % UInt64.size }
      else .error assignment.unclaimed assignment := by
  by_cases hobserved : assignment.unclaimed = observed
  · simp [exchange, hobserved, bind, EStateM.bind, get, getThe, MonadStateOf.get, EStateM.get, set,
      EStateM.set, pure, EStateM.pure]
  · simp [exchange, hobserved, bind, EStateM.bind, get, getThe, MonadStateOf.get, EStateM.get, throw,
      throwThe, MonadExceptOf.throw, EStateM.throw]

theorem exchange_eq_commit {observed chunk : Nat} {assignment : Assignment}
    (hbound : assignment.unclaimed = observed → observed + chunk < UInt64.size) :
    exchange observed chunk assignment = commit observed chunk assignment := by
  rw [exchange_eq, commit_eq]
  split
  · rename_i hstill
    rw [Nat.mod_eq_of_lt (hbound hstill)]
  · rfl

end Assignment

/-- What a worker is about to do at its index. -/
inductive Activity where
  /-- Decide from what it knows, and load the counter for a chunk size if it has to claim. -/
  | deciding
  /-- Load the counter to see whether the index has been claimed. -/
  | sized (chunk : Nat)
  /-- Take the chunk, if the counter is still what it was. -/
  | observed (chunk unclaimed : Nat)
  deriving DecidableEq, Repr

/-- A worker that walks over the functions in their order. -/
structure Worker where
  index : Nat := 0
  /-- The first function after its last chunk. -/
  claimed : Nat := 0
  /-- It was told that all functions before this one have been claimed. -/
  taken : Nat := 0
  processed : List Nat := []
  activity : Activity := .deciding
  deriving DecidableEq, Repr

namespace Worker

/-- Go on to the next index. -/
def skip (worker : Worker) : Worker :=
  { worker with index := worker.index + 1, activity := .deciding }

def process (worker : Worker) : Worker :=
  { worker.skip with processed := worker.processed ++ [worker.index] }

/-- One atomic step of a worker. -/
def step (assignment : Assignment) (worker : Worker) : Assignment × Worker :=
  match worker.activity with
  | .deciding =>
      if assignment.functions ≤ worker.index then (assignment, worker)
      else if worker.index < worker.claimed then (assignment, worker.process)
      else if worker.index < worker.taken then (assignment, worker.skip)
      else (assignment, { worker with activity := .sized assignment.chunkSize })
  | .sized chunk =>
      match assignment.observe worker.index with
      | .error next => (assignment, { worker.skip with taken := next })
      | .ok unclaimed => (assignment, { worker with activity := .observed chunk unclaimed })
  | .observed chunk unclaimed =>
      match Assignment.commit unclaimed chunk assignment with
      | .error next assignment => (assignment, { worker.skip with taken := next })
      | .ok past assignment => (assignment, { worker.process with claimed := past, taken := past })

/-- The worker has walked over all functions. -/
def Finished (assignment : Assignment) (worker : Worker) : Prop :=
  worker.activity = .deciding ∧ assignment.functions ≤ worker.index

instance (assignment : Assignment) (worker : Worker) : Decidable (worker.Finished assignment) :=
  inferInstanceAs (Decidable (_ ∧ _))

end Worker

/-- Some workers with the assignment that they share. -/
structure Crew (size : Nat) where
  assignment : Assignment
  workers : Fin size → Worker := fun _ => {}

namespace Crew

variable {size : Nat}

/-- Let one of the workers make a step. -/
def step (crew : Crew size) (turn : Fin size) : Crew size :=
  let next := (crew.workers turn).step crew.assignment
  ⟨next.1, Function.update crew.workers turn next.2⟩

/-- The crew of an assignment after the workers have had their turns in some order. -/
def after (assignment : Assignment) (turns : List (Fin size)) : Crew size :=
  turns.foldl step { assignment }

/-- How often a function has been processed, by all workers together. -/
def timesProcessed (crew : Crew size) (function : Nat) : Nat :=
  ∑ worker, (crew.workers worker).processed.count function

end Crew

namespace Worker

/-- A worker that is about to claim has been told of everything before its index. If nobody has
claimed its index, its chunk ends before the functions do. -/
def Claims (assignment : Assignment) (worker : Worker) (chunk : Nat) : Prop :=
  worker.index = worker.taken ∧ worker.index < assignment.functions ∧ 1 ≤ chunk ∧
    (assignment.unclaimed = worker.index → worker.index + chunk ≤ assignment.functions)

/-- What ties a worker's place to the shared counter. -/
structure Sound (assignment : Assignment) (worker : Worker) : Prop where
  claimed_le : worker.claimed ≤ worker.taken
  index_le : worker.index ≤ worker.taken
  taken_le : worker.taken ≤ assignment.unclaimed
  sized : ∀ chunk, worker.activity = .sized chunk → worker.Claims assignment chunk
  observed : ∀ chunk unclaimed, worker.activity = .observed chunk unclaimed →
    worker.Claims assignment chunk ∧ unclaimed = worker.index

/-- All that a step of a sound worker can do. -/
inductive Transition (assignment : Assignment) (worker : Worker) : Assignment → Worker → Prop where
  | rest (hfinished : worker.Finished assignment) : Transition assignment worker assignment worker
  | work (hindex : worker.index < assignment.functions) (hmine : worker.index < worker.claimed) :
      Transition assignment worker assignment worker.process
  | pass (next : Nat) (hindex : worker.index < assignment.functions)
      (hothers : worker.claimed ≤ worker.index) (hnext : worker.index < next)
      (htold : next ≤ assignment.unclaimed) :
      Transition assignment worker assignment { worker.skip with taken := next }
  | size (chunk : Nat) (hactivity : worker.activity = .deciding)
      (hclaims : worker.Claims assignment chunk) :
      Transition assignment worker assignment { worker with activity := .sized chunk }
  | see (chunk : Nat) (hactivity : worker.activity = .sized chunk)
      (hclaims : worker.Claims assignment chunk) :
      Transition assignment worker assignment
        { worker with activity := .observed chunk worker.index }
  | claim (chunk : Nat) (hfree : assignment.unclaimed = worker.index)
      (hothers : worker.claimed ≤ worker.index) (hclaims : worker.Claims assignment chunk) :
      Transition assignment worker { assignment with unclaimed := worker.index + chunk }
        { worker.process with claimed := worker.index + chunk, taken := worker.index + chunk }

section Step

variable {assignment next : Assignment} {worker changed : Worker}

theorem step_transition (hsound : worker.Sound assignment) :
    Transition assignment worker (worker.step assignment).1 (worker.step assignment).2 := by
  obtain ⟨hclaimed, hindex, htaken, hsized, hobserved⟩ := hsound
  unfold step
  cases hactivity : worker.activity with
  | deciding =>
      dsimp only
      split
      · rename_i hend
        exact .rest ⟨hactivity, hend⟩
      rename_i hinside
      split
      · rename_i hmine
        exact .work (by omega) hmine
      rename_i hothers
      split
      · rename_i htold
        have hpass := Transition.pass worker.taken (by omega) (by omega) htold htaken
        exact hpass
      · rename_i hfresh
        refine .size _ hactivity ⟨by omega, by omega, assignment.one_le_chunkSize, fun hfree => ?_⟩
        rw [← hfree]
        exact Assignment.unclaimed_add_chunkSize_le (by omega)
  | sized chunk =>
      have hclaims := hsized chunk hactivity
      have htold := hclaims.1
      have hinside := hclaims.2.1
      by_cases hgone : worker.index < assignment.unclaimed
      · simp only [Assignment.observe, if_pos hgone]
        exact .pass _ hinside (by omega) hgone (Nat.le_refl _)
      · -- The counter has been told to be at the index at least, so it stands there.
        have hfree : assignment.unclaimed = worker.index := by omega
        simp only [Assignment.observe, hfree, Nat.lt_irrefl, if_false]
        exact .see chunk hactivity hclaims
  | observed chunk unclaimed =>
      obtain ⟨hclaims, rfl⟩ := hobserved chunk unclaimed hactivity
      have htold := hclaims.1
      have hinside := hclaims.2.1
      simp only [Assignment.commit_eq]
      by_cases hfree : assignment.unclaimed = worker.index
      · simp only [if_pos hfree]
        exact .claim chunk hfree (by omega) hclaims
      · simp only [if_neg hfree]
        exact .pass _ hinside (by omega) (by omega) (Nat.le_refl _)

theorem Transition.functions_eq (htransition : Transition assignment worker next changed) :
    next.functions = assignment.functions := by
  cases htransition <;> rfl

theorem Transition.unclaimed_le (htransition : Transition assignment worker next changed) :
    assignment.unclaimed ≤ next.unclaimed := by
  cases htransition with
  | claim chunk hfree => exact Nat.le_trans (Nat.le_of_eq hfree) (Nat.le_add_right _ _)
  | rest | work | pass | size | see => exact Nat.le_refl _

theorem Transition.unclaimed_bounded (htransition : Transition assignment worker next changed)
    (hbounded : assignment.unclaimed ≤ assignment.functions) : next.unclaimed ≤ next.functions := by
  cases htransition with
  | claim chunk hfree hothers hclaims => exact hclaims.2.2.2 hfree
  | rest | work | pass | size | see => exact hbounded

theorem Claims.mono {chunk : Nat} (hclaims : worker.Claims assignment chunk)
    (htaken : worker.taken ≤ assignment.unclaimed)
    (hfunctions : next.functions = assignment.functions)
    (hunclaimed : assignment.unclaimed ≤ next.unclaimed) : worker.Claims next chunk := by
  obtain ⟨htold, hinside, hchunk, hend⟩ := hclaims
  refine ⟨htold, hfunctions ▸ hinside, hchunk, fun hfree => ?_⟩
  rw [hfunctions]
  exact hend (by omega)

theorem Sound.mono (hsound : worker.Sound assignment)
    (hfunctions : next.functions = assignment.functions)
    (hunclaimed : assignment.unclaimed ≤ next.unclaimed) : worker.Sound next where
  claimed_le := hsound.claimed_le
  index_le := hsound.index_le
  taken_le := hsound.taken_le.trans hunclaimed
  sized chunk hactivity :=
    (hsound.sized chunk hactivity).mono hsound.taken_le hfunctions hunclaimed
  observed chunk unclaimed hactivity :=
    ⟨(hsound.observed chunk unclaimed hactivity).1.mono hsound.taken_le hfunctions hunclaimed,
      (hsound.observed chunk unclaimed hactivity).2⟩

theorem Transition.sound (htransition : Transition assignment worker next changed)
    (hsound : worker.Sound assignment) : changed.Sound next := by
  obtain ⟨hclaimed, hindex, htaken, hsized, hobserved⟩ := hsound
  cases htransition with
  | rest => exact ⟨hclaimed, hindex, htaken, hsized, hobserved⟩
  | work hinside hmine =>
      exact ⟨hclaimed, Nat.le_trans hmine hclaimed, htaken, by rintro _ ⟨⟩, by rintro _ _ ⟨⟩⟩
  | pass told hinside hothers hnext htold =>
      exact ⟨hothers.trans hnext.le, hnext, htold, by rintro _ ⟨⟩, by rintro _ _ ⟨⟩⟩
  | size chunk hactivity hclaims =>
      exact ⟨hclaimed, hindex, htaken, by rintro _ ⟨⟩; exact hclaims, by rintro _ _ ⟨⟩⟩
  | see chunk hactivity hclaims =>
      exact ⟨hclaimed, hindex, htaken, by rintro _ ⟨⟩, by rintro _ _ ⟨⟩; exact ⟨hclaims, rfl⟩⟩
  | claim chunk hfree hothers hclaims =>
      exact ⟨Nat.le_refl _, Nat.add_le_add_left hclaims.2.2.1 _, Nat.le_refl _, by rintro _ ⟨⟩,
        by rintro _ _ ⟨⟩⟩

/-- How often a worker has processed a function, or is going to, since the function belongs to its
last chunk. -/
def share (worker : Worker) (function : Nat) : Nat :=
  worker.processed.count function +
    if worker.index ≤ function ∧ function < worker.claimed then 1 else 0

theorem Transition.share_add (htransition : Transition assignment worker next changed)
    (function : Nat) :
    changed.share function + (if function < assignment.unclaimed then 1 else 0) =
      worker.share function + if function < next.unclaimed then 1 else 0 := by
  cases htransition with
  | rest | size | see => rfl
  | work hinside hmine =>
      simp only [share, process, skip, List.count_append, List.count_singleton, beq_iff_eq]
      grind
  | pass told hinside hothers hnext htold =>
      simp only [share, skip]
      grind
  | claim chunk hfree hothers hclaims =>
      have hchunk := hclaims.2.2.1
      simp only [share, process, skip, List.count_append, List.count_singleton, beq_iff_eq]
      grind

/-- How many turns a worker takes at most until it has finished. -/
def turnsLeft (assignment : Assignment) (worker : Worker) : Nat :=
  3 * (assignment.functions - worker.index) -
    match worker.activity with
    | .deciding => 0
    | .sized _ => 1
    | .observed _ _ => 2

theorem Transition.turnsLeft_le (htransition : Transition assignment worker next changed) :
    changed.turnsLeft next ≤ worker.turnsLeft assignment - 1 := by
  have hfunctions := htransition.functions_eq
  unfold turnsLeft
  cases htransition with
  | rest hfinished =>
      have hend := hfinished.2
      omega
  | work hinside hmine =>
      simp only [process, skip]
      split <;> omega
  | pass told hinside hothers hnext htold =>
      simp only [skip]
      split <;> omega
  | size chunk hactivity hclaims =>
      have hinside := hclaims.2.1
      simp only [hactivity]
      omega
  | see chunk hactivity hclaims =>
      have hinside := hclaims.2.1
      simp only [hactivity]
      omega
  | claim chunk hfree hothers hclaims =>
      have hinside := hclaims.2.1
      simp only [process, skip]
      split <;> omega

theorem Sound.finished_of_turnsLeft (hsound : worker.Sound assignment)
    (hturns : worker.turnsLeft assignment = 0) : worker.Finished assignment := by
  unfold turnsLeft at hturns
  cases hactivity : worker.activity with
  | deciding =>
      simp only [hactivity] at hturns
      exact ⟨hactivity, by omega⟩
  | sized chunk =>
      have hinside := (hsound.sized chunk hactivity).2.1
      simp only [hactivity] at hturns
      omega
  | observed chunk unclaimed =>
      have hinside := (hsound.observed chunk unclaimed hactivity).1.2.1
      simp only [hactivity] at hturns
      omega

end Step

end Worker

namespace Crew

variable {size functions : Nat} {crew : Crew size}

/-- What holds for a crew after every step. The shares of the workers are the claimed functions,
each of them once. -/
structure Sound (functions : Nat) (crew : Crew size) : Prop where
  functions_eq : crew.assignment.functions = functions
  bounded : crew.assignment.unclaimed ≤ crew.assignment.functions
  worker : ∀ worker, (crew.workers worker).Sound crew.assignment
  shares : ∀ function, ∑ worker, (crew.workers worker).share function =
    if function < crew.assignment.unclaimed then 1 else 0

theorem sum_update (workers : Fin size → Worker) (turn : Fin size) (changed : Worker)
    (measure : Worker → Nat) :
    (∑ worker, measure (Function.update workers turn changed worker)) + measure (workers turn) =
      (∑ worker, measure (workers worker)) + measure changed := by
  simp only [Function.apply_update (fun _ => measure)]
  rw [Finset.sum_update_of_mem (Finset.mem_univ turn),
    Finset.sum_eq_add_sum_sdiff_singleton_of_mem (Finset.mem_univ turn)
      (fun worker => measure (workers worker))]
  omega

theorem Sound.step (hsound : crew.Sound functions) (turn : Fin size) :
    (crew.step turn).Sound functions := by
  have htransition := Worker.step_transition (hsound.worker turn)
  refine ⟨htransition.functions_eq.trans hsound.functions_eq,
    htransition.unclaimed_bounded hsound.bounded, ?_, ?_⟩
  · intro worker
    by_cases hturn : worker = turn
    · subst hturn
      simpa [Crew.step] using htransition.sound (hsound.worker worker)
    · simpa [Crew.step, hturn] using
        (hsound.worker worker).mono htransition.functions_eq htransition.unclaimed_le
  · intro function
    have hall := hsound.shares function
    have hshare := htransition.share_add function
    have hsum := sum_update crew.workers turn ((crew.workers turn).step crew.assignment).2
      (·.share function)
    beta_reduce at hsum
    change _ = if function < ((crew.workers turn).step crew.assignment).1.unclaimed then 1 else 0
    dsimp only [Crew.step]
    omega

theorem sound_start {assignment : Assignment} (hfresh : assignment.unclaimed = 0) :
    Sound assignment.functions ({ assignment } : Crew size) := by
  refine ⟨rfl, by simp [hfresh], ?_, ?_⟩
  · intro worker
    exact ⟨Nat.le_refl _, Nat.le_refl _, Nat.zero_le _, by rintro _ ⟨⟩, by rintro _ _ ⟨⟩⟩
  · intro function
    simp [hfresh, Worker.share]

theorem after_concat (assignment : Assignment) (turns : List (Fin size)) (turn : Fin size) :
    after assignment (turns ++ [turn]) = (after assignment turns).step turn := by
  simp [after]

theorem sound_after {assignment : Assignment} (hfresh : assignment.unclaimed = 0)
    (turns : List (Fin size)) : (after assignment turns).Sound assignment.functions := by
  induction turns using List.reverseRecOn with
  | nil => exact sound_start hfresh
  | append_singleton turns turn ih =>
      rw [after_concat]
      exact ih.step turn

theorem turnsLeft_after {assignment : Assignment} (hfresh : assignment.unclaimed = 0)
    (turns : List (Fin size)) (worker : Fin size) :
    ((after assignment turns).workers worker).turnsLeft (after assignment turns).assignment ≤
      3 * assignment.functions - turns.count worker := by
  induction turns using List.reverseRecOn with
  | nil => exact Nat.le_refl _
  | append_singleton turns turn ih =>
      have hsound := (sound_after hfresh turns).worker turn
      have htransition := Worker.step_transition hsound
      rw [after_concat, List.count_append, List.count_singleton]
      by_cases hturn : turn = worker
      · subst hturn
        have hturns := htransition.turnsLeft_le
        simp only [Crew.step, Function.update_self, beq_self_eq_true, if_true]
        omega
      · have hsame : (turn == worker) = false := by simpa using hturn
        simp only [Crew.step, Function.update_of_ne (Ne.symm hturn), hsame, Bool.false_eq_true,
          if_false, Nat.add_zero]
        rw [Worker.turnsLeft, htransition.functions_eq]
        exact ih

theorem Sound.timesProcessed_le (hsound : crew.Sound functions) (function : Nat) :
    crew.timesProcessed function ≤ 1 := by
  have hshares := hsound.shares function
  have hparts : crew.timesProcessed function ≤ ∑ worker, (crew.workers worker).share function :=
    Finset.sum_le_sum fun worker _ => Nat.le_add_right _ _
  split at hshares <;> omega

theorem Sound.timesProcessed_eq (hsound : crew.Sound functions)
    (hfinished : ∀ worker, (crew.workers worker).Finished crew.assignment) (worker : Fin size)
    {function : Nat} (hfunction : function < functions) : crew.timesProcessed function = 1 := by
  have hclaimed : function < crew.assignment.unclaimed := by
    have hindex := (hfinished worker).2
    have htold := (hsound.worker worker).index_le.trans (hsound.worker worker).taken_le
    have hfunctions := hsound.functions_eq
    omega
  have hshares := hsound.shares function
  rw [if_pos hclaimed] at hshares
  rw [← hshares]
  refine Finset.sum_congr rfl fun other _ => ?_
  have hindex := (hfinished other).2
  have hpassed : ¬ ((crew.workers other).index ≤ function ∧
      function < (crew.workers other).claimed) := by
    have hfunctions := hsound.functions_eq
    omega
  rw [Worker.share, if_neg hpassed, Nat.add_zero]

theorem Sound.exchange_eq_commit (hsound : crew.Sound functions) (hfunctions : functions < UInt64.size)
    {worker : Fin size} {chunk unclaimed : Nat}
    (hactivity : (crew.workers worker).activity = .observed chunk unclaimed) :
    Assignment.exchange unclaimed chunk crew.assignment =
      Assignment.commit unclaimed chunk crew.assignment := by
  obtain ⟨hclaims, rfl⟩ := (hsound.worker worker).observed chunk unclaimed hactivity
  refine Assignment.exchange_eq_commit fun hfree => ?_
  have hend := hclaims.2.2.2 hfree
  rw [hsound.functions_eq] at hend
  exact Nat.lt_of_le_of_lt hend hfunctions

/-- No function is ever processed by two workers or twice by one, and once all workers have
finished, every function has been processed. No worker takes more than three turns at an index, and
no sum on the way goes past the number of functions: with a number that fits a word, all claims are the
same on a counter of 64 bits. -/
theorem processed_once {functions threads size : Nat} {assignment : Assignment}
    (hcounts : Assignment.ofCounts functions threads = .ok assignment) (turns : List (Fin size)) :
    (∀ function, (after assignment turns).timesProcessed function ≤ 1) ∧
    (0 < size →
      (∀ worker, ((after assignment turns).workers worker).Finished
        (after assignment turns).assignment) →
      ∀ function < functions, (after assignment turns).timesProcessed function = 1) ∧
    (∀ worker, 3 * functions ≤ turns.count worker →
      ((after assignment turns).workers worker).Finished (after assignment turns).assignment) ∧
    (after assignment turns).assignment.unclaimed ≤ functions ∧
    (functions < UInt64.size → ∀ worker chunk unclaimed,
      ((after assignment turns).workers worker).activity = .observed chunk unclaimed →
      Assignment.exchange unclaimed chunk (after assignment turns).assignment =
        Assignment.commit unclaimed chunk (after assignment turns).assignment) := by
  obtain ⟨rfl, hfresh⟩ := Assignment.functions_of_ofCounts hcounts
  have hsound := sound_after hfresh turns
  refine ⟨hsound.timesProcessed_le, ?_, ?_, ?_,
    fun hfunctions _ _ _ => hsound.exchange_eq_commit hfunctions⟩
  · intro hsize hfinished function hfunction
    exact hsound.timesProcessed_eq hfinished ⟨0, hsize⟩ hfunction
  · intro worker hcount
    have hturns := turnsLeft_after hfresh turns worker
    exact (hsound.worker worker).finished_of_turnsLeft (by omega)
  · exact hsound.functions_eq ▸ hsound.bounded

theorem processed_once_racing :
    Assignment.ofCounts 8 1 = .ok ⟨8, 1, 0⟩ ∧
    ∃ crew : Crew 2,
      crew = after ⟨8, 1, 0⟩ ([0, 1, 0, 1, 1, 0] ++ List.replicate 24 0 ++ List.replicate 24 1) ∧
      (crew.workers 0).processed = [2, 3, 4, 5, 6, 7] ∧ (crew.workers 1).processed = [0, 1] ∧
      (∀ worker, (crew.workers worker).Finished crew.assignment) ∧
      (∀ function, crew.timesProcessed function ≤ 1) ∧
      ∀ function < 8, crew.timesProcessed function = 1 := by
  have hcounts : Assignment.ofCounts 8 1 = .ok ⟨8, 1, 0⟩ := by decide
  obtain ⟨honce, hall, hfinish, -⟩ := processed_once hcounts
    ([0, 1, 0, 1, 1, 0] ++ List.replicate 24 0 ++ List.replicate 24 1 : List (Fin 2))
  have hfinished := fun worker => hfinish worker (by revert worker; decide)
  exact ⟨hcounts, _, rfl, by decide +kernel, by decide +kernel, hfinished, honce,
    hall (by decide) hfinished⟩

end Crew

end Bitcode.Streaming
