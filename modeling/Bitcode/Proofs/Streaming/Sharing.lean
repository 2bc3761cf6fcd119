import Bitcode.Proofs.Streaming.Cache

namespace Bitcode.Streaming

/-- What a cache answers without its memory. -/
def Cache.answer? (cache : Cache) : Request → Option Response
  | .read address length =>
      if length = 0 ∨ addressLimit ≤ address + length then some (.bytes #[])
      else if cache.covers address (address + length) then
        some (.bytes (cache.serve address (address + length)))
      else none
  | .isValid address => if address < cache.minObjectSize then some (.truth true) else none
  | _ => none

theorem Window.answer_of_answer? {σ : Type} [Source σ] {window : Window σ} {request : Request}
    {response : Response} (hanswer : window.cache.answer? request = some response) :
    Window.answer request window = .ok response window := by
  cases request with
  | read address length =>
      simp only [Cache.answer?] at hanswer
      split_ifs at hanswer with houtside hcovers
      · obtain rfl := Option.some.inj hanswer
        rw [Window.answer, Window.read]
        dsimp only
        rw [if_pos houtside]
        rfl
      · obtain rfl := Option.some.inj hanswer
        rw [Window.answer, Window.read]
        dsimp only
        rw [if_neg houtside, bind_assoc, get_bind_apply, if_pos hcovers]
        rfl
  | isValid address =>
      simp only [Cache.answer?] at hanswer
      split_ifs at hanswer with hknown
      obtain rfl := Option.some.inj hanswer
      rw [Window.answer, Window.isValid, bind_assoc, get_bind_apply, if_pos hknown]
      rfl
  | isEnd address => cases hanswer
  | drop count => cases hanswer
  | setSize size => cases hanswer
  | extent => cases hanswer

/-- A call that has returned. -/
structure Answered where
  request : Request
  outcome : Except Error Response

/-- Where a client is in a call. -/
inductive Stage where
  | idle
  | waiting (request : Request)
  /-- The memory has been left with an answer, and with what the cache is going to be. -/
  | leaving (answered : Answered) (cache : Cache)

/-- One of those who share a memory. -/
structure Client where
  cache : Cache := .empty
  stage : Stage := .idle
  answered : List Answered := []

namespace Client

/-- A step of a client, with the request that it makes if it is idle. -/
def step {σ : Type} [Source σ] (memory : Memory σ) (client : Client) (request : Request) :
    Memory σ × Client :=
  match client.stage with
  | .idle =>
      match client.cache.answer? request with
      | some response =>
          (memory, { client with answered := client.answered ++ [⟨request, .ok response⟩] })
      | none => (memory, { client with stage := .waiting request })
  | .waiting request =>
      match Window.answer request ⟨memory, client.cache⟩ with
      | .ok response window =>
          (window.memory, { client with stage := .leaving ⟨request, .ok response⟩ window.cache })
      | .error cause window =>
          (window.memory, { client with stage := .leaving ⟨request, .error cause⟩ window.cache })
  | .leaving answered cache => (memory, { cache, answered := client.answered ++ [answered] })

end Client

/-- A memory with its clients. -/
structure Sharing (σ : Type) (size : Nat) where
  memory : Memory σ
  clients : Fin size → Client := fun _ => {}

namespace Sharing

variable {σ : Type} [Source σ] {size : Nat}

/-- Let one of the clients make a step. -/
def step (sharing : Sharing σ size) (turn : Fin size × Request) : Sharing σ size :=
  let next := (sharing.clients turn.1).step sharing.memory turn.2
  ⟨next.1, Function.update sharing.clients turn.1 next.2⟩

/-- The clients of a memory on a source after they have had their turns in some order. -/
def after (source : σ) (turns : List (Fin size × Request)) : Sharing σ size :=
  turns.foldl step { memory := { source } }

end Sharing

section Client

variable {σ : Type} [Source σ] {stream : Array UInt8} {memory : Memory σ} {client : Client}
  {request : Request}

def Answered.Truthful (stream : Array UInt8) (answered : Answered) : Prop :=
  ∃ response, answered.outcome = .ok response ∧ response.Truthful stream answered.request

/-- A client asks only what it may, and leaves the memory with a true answer. -/
def Stage.Sound (stream : Array UInt8) (cache : Cache) : Stage → Prop
  | .idle => True
  | .waiting request => request.IsQuery
  | .leaving answered next => answered.Truthful stream ∧ next.Holds stream ∧
      cache.minObjectSize ≤ next.minObjectSize

namespace Client

structure Sound (stream : Array UInt8) (client : Client) : Prop where
  cache : client.cache.Holds stream
  stage : client.stage.Sound stream client.cache
  answered : ∀ answered ∈ client.answered, answered.Truthful stream

theorem Sound.truthful_concat (hclient : client.Sound stream) {last : Answered}
    (hlast : last.Truthful stream) :
    ∀ answered ∈ client.answered ++ [last], answered.Truthful stream := by
  rw [List.forall_mem_append, List.forall_mem_singleton]
  exact ⟨hclient.answered, hlast⟩

/-- What a step of a client leaves behind. -/
structure Continues (stream : Array UInt8) (before : Client) (next : Memory σ × Client) : Prop where
  memory : next.1.Views stream
  undropped : next.1.dropped = 0
  client : next.2.Sound stream
  minObjectSize_le : before.cache.minObjectSize ≤ next.2.cache.minObjectSize

theorem Sound.step (hclient : client.Sound stream) (hmemory : memory.Views stream)
    (hundropped : memory.dropped = 0) (hsize : stream.size + Cache.lineSize ≤ addressLimit)
    (hquery : request.IsQuery) : Continues stream client (client.step memory request) := by
  have hwindow : Window.Views stream ⟨memory, client.cache⟩ := ⟨hmemory, hundropped, hclient.cache⟩
  have hstage := hclient.stage
  unfold Client.step
  cases hat : client.stage with
  | idle =>
      cases hown : client.cache.answer? request with
      | some response =>
          -- The memory as it is would have given the same answer.
          obtain ⟨_, _, hanswer, htrue, -⟩ := hwindow.answer hsize hquery
          rw [Window.answer_of_answer? hown] at hanswer
          cases hanswer
          exact ⟨hmemory, hundropped, ⟨hclient.cache, trivial,
            hclient.truthful_concat ⟨response, rfl, htrue⟩⟩, Nat.le_refl _⟩
      | none =>
          exact ⟨hmemory, hundropped, ⟨hclient.cache, hquery, hclient.answered⟩, Nat.le_refl _⟩
  | waiting request =>
      rw [hat] at hstage
      obtain ⟨response, next, hanswer, htrue, hviews, hle⟩ := hwindow.answer hsize hstage
      simp only [hanswer]
      exact ⟨hviews.memory, hviews.undropped, ⟨hclient.cache,
        ⟨⟨response, rfl, htrue⟩, hviews.cache, hle⟩, hclient.answered⟩, Nat.le_refl _⟩
  | leaving answered cache =>
      rw [hat] at hstage
      obtain ⟨htrue, hholds, hle⟩ := hstage
      exact ⟨hmemory, hundropped, ⟨hholds, trivial, hclient.truthful_concat htrue⟩, hle⟩

/-- How many turns a client may have taken: three for each call, and those of a call under way. -/
def effort (client : Client) : Nat :=
  3 * client.answered.length +
    match client.stage with
    | .idle => 0
    | .waiting _ => 1
    | .leaving _ _ => 2

theorem effort_le (client : Client) : client.effort ≤ 3 * client.answered.length + 2 := by
  unfold effort
  split <;> omega

theorem effort_lt_step (memory : Memory σ) (client : Client) (request : Request) :
    client.effort < (client.step memory request).2.effort := by
  unfold Client.step
  cases hat : client.stage with
  | idle => cases client.cache.answer? request <;> simp [effort, hat]
  | waiting request =>
      dsimp only
      split <;> simp [effort, hat]
  | leaving answered cache =>
      simp only [effort, hat, List.length_append, List.length_singleton]
      omega

end Client

end Client

namespace Sharing

variable {σ : Type} [Source σ] {stream : Array UInt8} {size : Nat} {sharing : Sharing σ size}

/-- What holds between any two steps of the clients. -/
structure Sound (stream : Array UInt8) (sharing : Sharing σ size) : Prop where
  memory : sharing.memory.Views stream
  undropped : sharing.memory.dropped = 0
  clients : ∀ index, (sharing.clients index).Sound stream

theorem Sound.step (hsharing : sharing.Sound stream)
    (hsize : stream.size + Cache.lineSize ≤ addressLimit) {turn : Fin size × Request}
    (hquery : turn.2.IsQuery) :
    (sharing.step turn).Sound stream ∧ ∀ index, (sharing.clients index).cache.minObjectSize ≤
      ((sharing.step turn).clients index).cache.minObjectSize := by
  have hnext := (hsharing.clients turn.1).step hsharing.memory hsharing.undropped hsize hquery
  refine ⟨⟨hnext.memory, hnext.undropped, fun index => ?_⟩, fun index => ?_⟩
  · simp only [Sharing.step, Function.update_apply]
    split_ifs
    · exact hnext.client
    · exact hsharing.clients index
  · simp only [Sharing.step, Function.update_apply]
    split_ifs with hindex
    · rw [hindex]
      exact hnext.minObjectSize_le
    · exact Nat.le_refl _

theorem Sound.run (hsharing : sharing.Sound stream)
    (hsize : stream.size + Cache.lineSize ≤ addressLimit) {turns : List (Fin size × Request)}
    (hturns : ∀ turn ∈ turns, turn.2.IsQuery) :
    (turns.foldl Sharing.step sharing).Sound stream ∧
      ∀ index, (sharing.clients index).cache.minObjectSize ≤
        ((turns.foldl Sharing.step sharing).clients index).cache.minObjectSize := by
  induction turns generalizing sharing with
  | nil => exact ⟨hsharing, fun _ => Nat.le_refl _⟩
  | cons turn turns ih =>
      rw [List.forall_mem_cons] at hturns
      obtain ⟨hnext, hraised⟩ := hsharing.step hsize hturns.1
      obtain ⟨hsound, hgrown⟩ := ih hnext hturns.2
      exact ⟨hsound, fun index => (hraised index).trans (hgrown index)⟩

theorem sound_start {source : σ} (hsource : Delivers stream source 0) :
    Sound stream ({ memory := { source } } : Sharing σ size) :=
  ⟨Memory.views_start hsource, rfl, fun _ => ⟨Cache.holds_empty stream, trivial, nofun⟩⟩

theorem sound_after {source : σ} (hsource : Delivers stream source 0)
    (hsize : stream.size + Cache.lineSize ≤ addressLimit) {turns : List (Fin size × Request)}
    (hturns : ∀ turn ∈ turns, turn.2.IsQuery) : (after source turns).Sound stream :=
  ((sound_start hsource).run hsize hturns).1

theorem countP_le_effort (source : σ) (turns : List (Fin size × Request)) (index : Fin size) :
    turns.countP (·.1 = index) ≤ ((after source turns).clients index).effort := by
  induction turns using List.reverseRecOn with
  | nil => exact Nat.zero_le _
  | append_singleton turns turn ih =>
      have heffort := Client.effort_lt_step (after source turns).memory
        ((after source turns).clients turn.1) turn.2
      rw [after, List.foldl_concat, ← after, List.countP_append, List.countP_singleton]
      by_cases hturn : turn.1 = index
      · subst hturn
        simp only [step, Function.update_self, decide_true, if_true]
        omega
      · simp only [step, Function.update_of_ne (Ne.symm hturn), hturn, decide_false,
          Bool.false_eq_true, if_false, Nat.add_zero]
        exact ih

/-- Clients that share a memory over a source that delivers a stream get true answers, however
their calls interleave. No call fails, and none takes more than three turns. A read returns the
bytes that the stream has at its addresses, and an address is valid if the stream reaches beyond it.
What a client takes for the least size of the object is never too large and never falls. The line of
a client always holds what the stream has from an aligned address on. -/
theorem answers_truthful {source : σ} (hsource : Delivers stream source 0)
    (hsize : stream.size + Cache.lineSize ≤ addressLimit)
    {turns : List (Fin size × Request)} (hturns : ∀ turn ∈ turns, turn.2.IsQuery)
    (index : Fin size) :
    let client := (after source turns).clients index
    (∀ answered ∈ client.answered, ∃ response,
        answered.outcome = .ok response ∧ response.Truthful stream answered.request) ∧
      turns.countP (·.1 = index) ≤ 3 * client.answered.length + 2 ∧
      (client.cache.minObjectSize ≤ stream.size ∧
        ∀ before later, turns = before ++ later →
          ((after source before).clients index).cache.minObjectSize ≤
            client.cache.minObjectSize) ∧
      ∀ base, client.cache.base = some base → 16384 ∣ base ∧
        client.cache.valid = min 16384 (stream.size - base) ∧
        client.cache.line.extract 0 client.cache.valid =
          stream.extract base (base + client.cache.valid) := by
  have hsound := sound_after hsource hsize hturns
  obtain ⟨hcache, -, hanswered⟩ := hsound.clients index
  refine ⟨hanswered, (countP_le_effort source turns index).trans (Client.effort_le _),
    ⟨hcache.minObjectSize_le, ?_⟩, fun base hbase => ?_⟩
  · rintro before later rfl
    rw [List.forall_mem_append] at hturns
    have hgrown := ((sound_after hsource hsize hturns.1).run hsize hturns.2).2 index
    rwa [after, ← List.foldl_append] at hgrown
  · exact ⟨hcache.aligned base hbase, hcache.valid base hbase, hcache.line base hbase⟩

/-- A reader that is interrupted once and then hands out three bytes in two pieces. -/
def sampleReader : Reader :=
  { bytes := #[7, 8, 9], script := [.interrupted, .piece (some 2)] }

theorem steady_sampleReader : sampleReader.Steady where
  script := by simp [sampleReader, Reply.Gives]
  limit := by decide
  position_le := by decide

/-- The calls of two clients that overlap. -/
def sampleTurns : List (Fin 2 × Request) :=
  [(0, .isValid 2), (1, .read 1 2), (1, .isEnd 0), (0, .isEnd 3), (0, .isValid 1), (1, .isEnd 3),
    (0, .isValid 1)]

theorem answers_truthful_sampleTurns :
    (∀ index, ∀ answered ∈ ((after sampleReader sampleTurns).clients index).answered, ∃ response,
        answered.outcome = .ok response ∧ response.Truthful #[7, 8, 9] answered.request) ∧
      ((after sampleReader sampleTurns).clients 0).answered.map (·.request) =
        [.isValid 2, .isValid 1] ∧
      ((after sampleReader sampleTurns).clients 1).answered.map (·.request) = [.read 1 2] := by
  refine ⟨fun index => (answers_truthful steady_sampleReader.delivers ?_ ?_ index).1, ?_, ?_⟩
  · decide
  · decide
  · decide +kernel
  · decide +kernel

end Sharing

end Bitcode.Streaming
