import Bitcode.Command.Directory
import Bitcode.Proofs.Header
import Bitcode.Proofs.Keyed

/-!
What the command does to a directory. It changes nothing but the file at the path of its output, and
that only at the very end, when nothing can go wrong any more.
-/

namespace Bitcode.Command

open Header (except_bind_eq_ok_iff)

namespace Directory

variable {directory after : Directory} {path : String} {bytes : Array UInt8}

theorem node?_insert_self {place : Place} (hplace : place.names ≠ []) (node : Node) :
    (directory.insert place node).node? place = some node := by
  rw [node?, if_neg hplace, insert, Keyed.lookup_update, if_pos rfl]

theorem node?_insert_of_ne {place other : Place} (hne : other ≠ place) (node : Node) :
    (directory.insert place node).node? other = directory.node? other := by
  rw [node?, node?, insert, Keyed.lookup_update, if_neg hne]

theorem node?_of_enter {place next : Place} {name : String}
    (henter : directory.enter place name = .ok next) :
    directory.node? place = some .directory := by
  unfold enter at henter
  split at henter
  · cases henter
  · cases henter
  · assumption

theorem enter_insert {place target next : Place} {name : String} (node : Node)
    (htarget : directory.node? target ≠ some .directory)
    (henter : directory.enter place name = .ok next) :
    (directory.insert target node).enter place name = .ok next := by
  have hnode := node?_of_enter henter
  have hne : place ≠ target := by
    rintro rfl
    exact htarget hnode
  rw [enter, node?_insert_of_ne hne]
  exact henter

theorem foldlM_enter_insert {names : List String} {start target finish : Place} (node : Node)
    (htarget : directory.node? target ≠ some .directory)
    (hwalk : names.foldlM directory.enter start = .ok finish) :
    names.foldlM (directory.insert target node).enter start = .ok finish := by
  induction names generalizing start with
  | nil => exact hwalk
  | cons name names ih =>
      rw [List.foldlM_cons] at hwalk ⊢
      cases henter : directory.enter start name with
      | error cause =>
          rw [henter] at hwalk
          cases hwalk
      | ok next =>
          rw [henter] at hwalk
          rw [enter_insert node htarget henter]
          exact ih hwalk

theorem resolve_insert {target : Place} (node : Node)
    (htarget : directory.node? target ≠ some .directory)
    (hresolve : directory.resolve path = .ok target) :
    (directory.insert target node).resolve path = .ok target := by
  rw [resolve, walk] at hresolve ⊢
  split at hresolve
  · cases hresolve
  · rename_i hshort
    rw [if_neg hshort]
    exact foldlM_enter_insert node htarget hresolve

theorem resolve_of_walk {names : List String} {place target : Place} {name : String}
    (hnames : Path.names path = names ++ [name])
    (hwalk : directory.walk path (names ++ ["."]) = .ok place)
    (henter : directory.enter place name = .ok target) :
    directory.resolve path = .ok target := by
  rw [resolve, hnames]
  unfold walk at hwalk ⊢
  split at hwalk
  · cases hwalk
  · rename_i hshort
    rw [if_neg hshort]
    rw [List.foldlM_append, except_bind_eq_ok_iff] at hwalk ⊢
    obtain ⟨before, hbefore, hidle⟩ := hwalk
    simp only [List.foldlM_cons, List.foldlM_nil, bind_pure] at hidle ⊢
    have hnode := node?_of_enter hidle
    rw [enter, hnode] at hidle
    obtain rfl : before = place := Except.ok.inj hidle
    exact ⟨before, hbefore, henter⟩

theorem dropWhile_eq_self {names : List String} {condition : String → Bool}
    (hlength : ¬ (names.dropWhile condition).length < names.length) :
    names.dropWhile condition = names :=
  (List.dropWhile_suffix condition).eq_of_length_le (Nat.le_of_not_lt hlength)

theorem replace_eq_ok (hreplace : directory.replace path bytes = .ok after) :
    ∃ target, directory.resolve path = .ok target ∧ target.names ≠ [] ∧
      directory.node? target ≠ some .directory ∧ after = directory.insert target (.file bytes) := by
  unfold replace at hreplace
  obtain ⟨place, hwalk, hreplace⟩ := except_bind_eq_ok_iff.mp hreplace
  dsimp only at hreplace
  split at hreplace
  · cases hreplace
  · rename_i hname
    obtain ⟨target, henter, hreplace⟩ := except_bind_eq_ok_iff.mp hreplace
    split at hreplace
    · cases hreplace
    · rename_i hends
      split at hreplace
      · cases hreplace
      · rename_i hnode
        obtain rfl := Except.ok.inj hreplace
        rw [dropWhile_eq_self hends] at hwalk henter hname
        have hnode : directory.node? target ≠ some .directory := hnode
        refine ⟨target, ?_, ?_, hnode, rfl⟩
        · cases hnames : (Path.names path).reverse with
          | nil => simp [hnames, Path.idle] at hname
          | cons name names =>
              rw [hnames] at hwalk henter
              refine resolve_of_walk ?_ hwalk henter
              exact List.reverse_eq_cons_iff.mp hnames
        · intro hnone
          exact hnode (by rw [node?, if_pos hnone])

theorem read_replace (hreplace : directory.replace path bytes = .ok after) :
    after.read path = .ok bytes ∧ ∃ target, directory.resolve path = .ok target ∧
      ∀ place, place ≠ target → after.node? place = directory.node? place := by
  obtain ⟨target, hresolve, hnames, hnode, rfl⟩ := replace_eq_ok hreplace
  refine ⟨?_, target, hresolve, fun place hne => node?_insert_of_ne hne _⟩
  rw [read, resolve_insert _ hnode hresolve]
  simp only [bind, Except.bind, node?_insert_self hnames]
  rfl

/-- What the command reads at a path. -/
def input (directory : Directory) (path : String) : Except FileError (Array UInt8) :=
  if path = standardPath then .ok directory.stdin else directory.read path

end Directory

section Steps

section Runs

variable {ε σ α β : Type} {state : σ}

theorem run_bind {action : StateM σ α} {rest : α → StateM σ β} {value : α} {next : σ}
    (haction : action.run state = (value, next)) :
    (action >>= rest).run state = (rest value).run next := by
  change (rest (action.run state).1).run (action.run state).2 = _
  rw [haction]

theorem run_bind_ok {action : ExceptT ε (StateM σ) α} {rest : α → ExceptT ε (StateM σ) β}
    (value : α) (next : σ) (haction : action.run.run state = (.ok value, next)) :
    (action >>= rest).run.run state = (rest value).run.run next := by
  rw [ExceptT.run_bind, run_bind haction]

theorem run_bind_error {action : ExceptT ε (StateM σ) α} {rest : α → ExceptT ε (StateM σ) β}
    {cause : ε} {next : σ} (haction : action.run.run state = (.error cause, next)) :
    (action >>= rest).run.run state = (.error cause, next) := by
  rw [ExceptT.run_bind, run_bind haction]
  rfl

theorem run_lift {action : StateM σ α} {value : α} {next : σ}
    (haction : action.run state = (value, next)) :
    (liftM action : ExceptT ε (StateM σ) α).run.run state = (.ok value, next) := by
  change (Except.ok (action.run state).1, (action.run state).2) = _
  rw [haction]

theorem get_run (state : σ) : (get : StateM σ σ).run state = (state, state) :=
  rfl

end Runs

variable (directory : Directory) (path : String)

theorem readInput_run :
    (readInput path : ExceptT Failure (StateM Directory) _).run.run directory =
      ((directory.input path).mapError (.input path), directory) := by
  unfold readInput Directory.input
  split
  · rfl
  · refine (run_bind_ok (directory.read path) directory rfl).trans ?_
    cases directory.read path <;> rfl

theorem stageOutput_run :
    ∃ staged, (stageOutput path : ExceptT Failure (StateM Directory) _).run.run directory =
      (staged, directory) := by
  unfold stageOutput
  split
  · exact ⟨_, rfl⟩
  · refine ⟨(directory.stage path).mapError (.noPlace path), ?_⟩
    refine (run_bind_ok (directory.stage path) directory rfl).trans ?_
    cases directory.stage path <;> rfl

theorem prepare_run (options : Options) :
    ∃ prepared, (prepare options : ExceptT Failure (StateM Directory) _).run.run directory =
        (prepared, directory) ∧
      ∀ bytes, prepared = .ok bytes → directory.input options.inputPath = .ok bytes := by
  have hread := readInput_run directory options.inputPath
  cases hinput : directory.input options.inputPath with
  | error cause =>
      rw [hinput] at hread
      exact ⟨_, run_bind_error hread, fun _ hok => by cases hok⟩
  | ok bytes =>
      rw [hinput] at hread
      obtain ⟨staged, hstage⟩ := stageOutput_run directory options.outputPath
      cases staged with
      | error failure =>
          refine ⟨_, (run_bind_ok bytes directory hread).trans (run_bind_error hstage), ?_⟩
          intro _ hok
          cases hok
      | ok _ =>
          refine ⟨.ok bytes, (run_bind_ok bytes directory hread).trans
            (run_bind_ok () directory hstage), ?_⟩
          rintro _ ⟨⟩
          rfl

theorem replaceFile_run (bytes : Array UInt8) :
    (Host.replaceFile path bytes : StateM Directory _).run directory =
      ((directory.replace path bytes).map fun _ => (),
        (directory.replace path bytes).toOption.getD directory) := by
  refine (run_bind (get_run directory)).trans ?_
  cases directory.replace path bytes <;> rfl

theorem writeOutput_run (bytes : Array UInt8) :
    (∃ cause, (writeOutput path bytes : ExceptT Failure (StateM Directory) _).run.run directory =
        (.error (.output path cause), directory)) ∨
      path = standardPath ∧
        (writeOutput path bytes : ExceptT Failure (StateM Directory) _).run.run directory =
          (.ok bytes, directory) ∨
      path ≠ standardPath ∧ ∃ after, directory.replace path bytes = .ok after ∧
        (writeOutput path bytes : ExceptT Failure (StateM Directory) _).run.run directory =
          (.ok #[], after) := by
  unfold writeOutput
  split
  · rename_i hpath
    exact .inr (.inl ⟨hpath, rfl⟩)
  · rename_i hpath
    have hrun := replaceFile_run directory path bytes
    cases hreplace : directory.replace path bytes with
    | error cause =>
        rw [hreplace] at hrun
        exact .inl ⟨cause, (run_bind_ok (.error cause) directory (run_lift hrun)).trans rfl⟩
    | ok after =>
        rw [hreplace] at hrun
        exact .inr (.inr
          ⟨hpath, after, rfl, (run_bind_ok (.ok ()) after (run_lift hrun)).trans rfl⟩)

theorem execute_run (options : Options) :
    (∃ stderr, (execute options : StateM Directory Outcome).run directory =
        ({ code := 1, stderr }, directory)) ∨
      ∃ bytes result, directory.input options.inputPath = .ok bytes ∧
        work options bytes = .ok result ∧
        (options.outputPath = standardPath ∧
            (execute options : StateM Directory Outcome).run directory =
              ({ stdout := result, stderr := traceText options bytes }, directory) ∨
          options.outputPath ≠ standardPath ∧
            ∃ after, directory.replace options.outputPath result = .ok after ∧
              (execute options : StateM Directory Outcome).run directory =
                ({ stderr := traceText options bytes }, after)) := by
  obtain ⟨prepared, hprepare, hinput⟩ := prepare_run directory options
  unfold execute
  rw [run_bind hprepare]
  cases prepared with
  | error failure => exact .inl ⟨_, rfl⟩
  | ok bytes =>
      dsimp only
      have hresult : ∀ result : Except Failure (Array UInt8),
          (MonadExcept.ofExcept result : ExceptT Failure (StateM Directory) _).run.run directory =
            (result, directory) := by
        intro result
        cases result <;> rfl
      cases hwork : work options bytes with
      | error failure =>
          rw [run_bind (run_bind_error (hresult (.error failure)))]
          exact .inl ⟨_, rfl⟩
      | ok result =>
          have hbegun : (MonadExcept.ofExcept (.ok result) >>= writeOutput options.outputPath :
              ExceptT Failure (StateM Directory) _).run.run directory = _ :=
            run_bind_ok result directory (hresult (.ok result))
          rcases writeOutput_run directory options.outputPath result with
            ⟨cause, hfailed⟩ | ⟨hpath, hprinted⟩ | ⟨hpath, after, hreplace, hwritten⟩
          · rw [run_bind (hbegun.trans hfailed)]
            exact .inl ⟨_, rfl⟩
          · rw [run_bind (hbegun.trans hprinted)]
            exact .inr ⟨bytes, result, hinput bytes rfl, hwork, .inl ⟨hpath, rfl⟩⟩
          · rw [run_bind (hbegun.trans hwritten)]
            exact .inr ⟨bytes, result, hinput bytes rfl, hwork, .inr ⟨hpath, after, hreplace, rfl⟩⟩

end Steps

/-- A command that fails leaves its directory as it is. One that succeeds has the result of its work at
the path of its output, and nothing else in the directory is changed. -/
theorem runIn_safe (directory : Directory) (arguments : List String) :
    ((runIn directory arguments).1.code ≠ 0 → (runIn directory arguments).2 = directory) ∧
      ∀ options, Invocation.ofArguments arguments = .run options →
        (runIn directory arguments).1.code = 0 →
        ∃ bytes result, directory.input options.inputPath = .ok bytes ∧
          work options bytes = .ok result ∧
          (options.outputPath = standardPath → (runIn directory arguments).1.stdout = result ∧
            (runIn directory arguments).2 = directory) ∧
          (options.outputPath ≠ standardPath → (runIn directory arguments).1.stdout = #[] ∧
            (runIn directory arguments).2.read options.outputPath = .ok result ∧
            ∃ target, directory.resolve options.outputPath = .ok target ∧
              ∀ place, place ≠ target →
                (runIn directory arguments).2.node? place = directory.node? place) := by
  rw [runIn, run]
  cases hinvocation : Invocation.ofArguments arguments with
  | version | help | misuse => exact ⟨fun _ => rfl, fun _ hrun => by cases hrun⟩
  | run options =>
      dsimp only
      rcases execute_run directory options with ⟨stderr, hfailed⟩ |
        ⟨bytes, result, hinput, hwork, ⟨hpath, hprinted⟩ | ⟨hpath, after, hreplace, hwritten⟩⟩
      · rw [hfailed]
        exact ⟨fun _ => rfl, fun _ _ hcode => by cases hcode⟩
      · rw [hprinted]
        refine ⟨fun _ => rfl, ?_⟩
        rintro _ ⟨⟩ -
        exact ⟨bytes, result, hinput, hwork, fun _ => ⟨rfl, rfl⟩, fun hother => absurd hpath hother⟩
      · rw [hwritten]
        refine ⟨fun hcode => absurd rfl hcode, ?_⟩
        rintro _ ⟨⟩ -
        obtain ⟨hread, hframe⟩ := Directory.read_replace hreplace
        exact ⟨bytes, result, hinput, hwork, fun hother => absurd hother hpath,
          fun _ => ⟨rfl, hread, hframe⟩⟩

end Bitcode.Command
