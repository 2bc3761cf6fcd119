import Bitcode.Proofs.Streaming.Source
import Bitcode.Streaming.Queue

namespace Bitcode.Streaming

namespace Queue

variable {queue next : Queue}

/-- The taken bytes are stored ones, no more bytes wait than may, and as many may as in 64, 128 or
256 KiB. -/
structure Sound (queue : Queue) : Prop where
  start_le : queue.start ≤ queue.stored.size
  size_le : queue.size ≤ queue.capacity
  capacity_mem : queue.capacity ∈ [65536, 131072, 262144]

@[simp] theorem length_contents (queue : Queue) : queue.contents.length = queue.size := by
  simp [contents, size]

theorem grownCapacity_mem (waiting wanted doublings : Nat) {capacity : Nat}
    (hcapacity : capacity ∈ [65536, 131072, 262144]) :
    grownCapacity waiting wanted doublings capacity ∈ [65536, 131072, 262144] ∧
      capacity ≤ grownCapacity waiting wanted doublings capacity := by
  induction doublings generalizing capacity with
  | zero => exact ⟨hcapacity, Nat.le_refl _⟩
  | succ doublings ih =>
      unfold grownCapacity
      split_ifs with hgrow
      · have hdouble : 2 * capacity ∈ [65536, 131072, 262144] := by
          simp only [List.mem_cons, List.not_mem_nil, or_false, maxCapacity] at hcapacity hgrow ⊢
          omega
        obtain ⟨hmem, hle⟩ := ih hdouble
        exact ⟨hmem, by omega⟩
      · exact ⟨hcapacity, Nat.le_refl _⟩

theorem Sound.grow (hqueue : queue.Sound) (wanted : Nat) : (queue.grow wanted).Sound where
  start_le := hqueue.start_le
  size_le := hqueue.size_le.trans (grownCapacity_mem _ _ _ hqueue.capacity_mem).2
  capacity_mem := (grownCapacity_mem _ _ _ hqueue.capacity_mem).1

theorem Sound.contents_append (hqueue : queue.Sound) (bytes : Array UInt8) :
    (queue.append bytes).contents = queue.contents ++ bytes.toList := by
  have hstart : queue.start ≤ queue.stored.toList.length := hqueue.start_le
  simp only [append, contents, Array.toList_append]
  exact List.drop_append_of_le_length hstart

theorem Sound.append (hqueue : queue.Sound) {bytes : Array UInt8}
    (hfits : bytes.size ≤ queue.space) : (queue.append bytes).Sound where
  start_le := by
    have := hqueue.start_le
    simp only [Queue.append, Array.size_append]
    omega
  size_le := by
    have := hqueue.size_le
    rw [← length_contents, hqueue.contents_append, List.length_append, length_contents,
      Array.length_toList]
    simp only [space, Queue.append] at hfits ⊢
    omega
  capacity_mem := hqueue.capacity_mem

theorem toList_take (queue : Queue) (count : Nat) :
    (queue.take count).1.toList = queue.contents.take count := by
  simp only [take, contents, Array.toList_extract, List.extract_eq_take_drop,
    List.take_eq_take_iff, List.length_drop, Array.length_toList]
  omega

theorem contents_take (queue : Queue) (count : Nat) :
    (queue.take count).2.contents = queue.contents.drop count := by
  simp only [take, contents]
  split_ifs with hall
  · have hlength : queue.stored.toList.length ≤ queue.start + count := by
      rw [Array.length_toList]
      omega
    rw [List.drop_drop, List.drop_of_length_le hlength]
    rfl
  · rw [List.drop_drop, Nat.min_eq_left (by omega)]

theorem Sound.take (hqueue : queue.Sound) (count : Nat) : (queue.take count).2.Sound := by
  obtain ⟨hstart, hsize, hcapacity⟩ := hqueue
  simp only [size] at hsize
  simp only [Queue.take]
  split_ifs with hall
  · exact ⟨Nat.le_refl _, Nat.zero_le _, hcapacity⟩
  · refine ⟨Nat.min_le_right _ _, ?_, hcapacity⟩
    simp only [size]
    omega

theorem closed_take (queue : Queue) (count : Nat) :
    (queue.take count).2.closed = queue.closed := by
  simp only [take]
  split_ifs <;> rfl

theorem Sound.put (hqueue : queue.Sound) {bytes : Array UInt8} {unsent : Unsent}
    (hput : queue.put bytes = (unsent, next)) :
    next.Sound ∧ next.closed = queue.closed ∧
      next.contents ++ unsent.toList.flatMap Array.toList = queue.contents ++ bytes.toList ∧
        (unsent ≠ none → next.size = next.capacity) := by
  have hgrown := hqueue.grow bytes.size
  simp only [Queue.put] at hput
  split_ifs at hput with hfits
  · obtain ⟨rfl, rfl⟩ := Prod.mk.inj hput
    refine ⟨hgrown.append hfits, rfl, ?_, fun h => absurd rfl h⟩
    rw [hgrown.contents_append]
    simp [Queue.grow, contents]
  · obtain ⟨rfl, rfl⟩ := Prod.mk.inj hput
    refine ⟨hgrown.append (by simp), rfl, ?_, fun _ => ?_⟩
    · rw [hgrown.contents_append, List.append_assoc]
      congr 1
      have hrest : bytes.size - (queue.grow bytes.size).space =
          (bytes.toList.drop (queue.grow bytes.size).space).length := by simp
      simp [List.extract_eq_take_drop, hrest, -List.length_drop]
    · rw [← length_contents, hgrown.contents_append, List.length_append, length_contents]
      have := hgrown.size_le
      simp only [space, Queue.append, Array.length_toList, Array.size_extract] at hfits ⊢
      omega

/-- A section of a get takes the first bytes, and waits if there are too few and more may come. -/
theorem Sound.get (hqueue : queue.Sound) {wanted : Nat} {taken : Taken}
    (hget : queue.get wanted = (taken, next)) :
    next.Sound ∧ next.closed = queue.closed ∧ taken.bytes.toList = queue.contents.take wanted ∧
      next.contents = queue.contents.drop wanted ∧
        (taken.waits ↔ queue.closed = false ∧ queue.size < wanted) := by
  obtain ⟨rfl, rfl⟩ := Prod.mk.inj hget
  refine ⟨hqueue.take wanted, queue.closed_take wanted, queue.toList_take wanted,
    queue.contents_take wanted, ?_⟩
  simp

theorem size_of_get {wanted : Nat} {taken : Taken} (hget : queue.get wanted = (taken, next)) :
    taken.bytes.size = min wanted queue.size := by
  obtain ⟨rfl, -⟩ := Prod.mk.inj hget
  have hsize := congrArg List.length (queue.toList_take wanted)
  rwa [Array.length_toList, List.length_take, length_contents] at hsize

end Queue

namespace Feed

variable {feed : Feed}

/-- The queue is sound, and is closed only when nothing is left to be put. -/
structure Sound (feed : Feed) : Prop where
  queue : feed.queue.Sound
  closed : feed.queue.closed = true → feed.pending = []

/-- What the producer has still to put. -/
def unput (feed : Feed) : List UInt8 :=
  feed.pending.flatMap Array.toList

/-- What the consumer has still to get. -/
def total (feed : Feed) : List UInt8 :=
  feed.queue.contents ++ feed.unput

theorem produce_of_nil (hpending : feed.pending = []) :
    feed.produce = { feed with queue := feed.queue.close } := by
  simp only [produce, hpending]

theorem produce_of_cons {piece : Array UInt8} {rest : List (Array UInt8)} {unsent : Queue.Unsent}
    {next : Queue} (hpending : feed.pending = piece :: rest)
    (hput : feed.queue.put piece = (unsent, next)) :
    feed.produce = { queue := next, pending := unsent.toList ++ rest } := by
  simp only [produce, hpending, hput]

theorem Sound.produce (hfeed : feed.Sound) :
    feed.produce.Sound ∧ feed.produce.total = feed.total := by
  obtain ⟨hstart, hsize, hcapacity⟩ := hfeed.queue
  cases hpending : feed.pending with
  | nil =>
      rw [produce_of_nil hpending]
      exact ⟨⟨⟨hstart, hsize, hcapacity⟩, fun _ => hpending⟩, rfl⟩
  | cons piece rest =>
      cases hput : feed.queue.put piece with
      | mk unsent next =>
          obtain ⟨hnext, hclosed, hbytes, -⟩ := hfeed.queue.put hput
          rw [produce_of_cons hpending hput]
          constructor
          · refine ⟨hnext, fun h => ?_⟩
            have hnil := hfeed.closed (hclosed ▸ h)
            rw [hpending] at hnil
            cases hnil
          · simp only [total, unput, hpending, List.flatMap_append, List.flatMap_cons]
            rw [← List.append_assoc, hbytes, List.append_assoc]

/-- A section of the consumer keeps all bytes in order. -/
theorem Sound.get (hfeed : feed.Sound) {wanted : Nat} {taken : Queue.Taken} {next : Queue}
    (hget : feed.queue.get wanted = (taken, next)) :
    Sound { feed with queue := next } ∧
      taken.bytes.toList ++ total { feed with queue := next } = feed.total := by
  obtain ⟨hnext, hclosed, htaken, hrest, -⟩ := hfeed.queue.get hget
  refine ⟨⟨hnext, fun h => hfeed.closed (hclosed ▸ h)⟩, ?_⟩
  change taken.bytes.toList ++ (next.contents ++ feed.unput) = _
  rw [htaken, hrest, ← List.append_assoc, List.take_append_drop, total]

/-- How much the producer has still to do: bytes to put, pieces to finish, the queue to close. -/
def work (feed : Feed) : Nat :=
  feed.unput.length + feed.pending.length + if feed.queue.closed then 0 else 1

theorem Sound.work_produce (hfeed : feed.Sound) (hempty : feed.queue.contents = [])
    (hopen : feed.queue.closed = false) : feed.produce.work < feed.work := by
  cases hpending : feed.pending with
  | nil =>
      rw [produce_of_nil hpending]
      simp [work, unput, Queue.close, hpending, hopen]
  | cons piece rest =>
      cases hput : feed.queue.put piece with
      | mk unsent next =>
          have htotal := congrArg List.length hfeed.produce.2
          obtain ⟨hnext, hclosed, -, hfull⟩ := hfeed.queue.put hput
          have hcapacity := hnext.capacity_mem
          rw [produce_of_cons hpending hput] at htotal ⊢
          simp only [total, hempty, List.length_append, List.nil_append, Queue.length_contents]
            at htotal
          simp only [work, hpending, hclosed, hopen, List.length_append, List.length_cons]
          simp only [List.mem_cons, List.not_mem_nil, or_false] at hcapacity
          cases unsent with
          | none =>
              simp only [Option.toList_none, List.length_nil, List.nil_append] at htotal ⊢
              omega
          | some left =>
              have := hfull (by simp)
              simp only [Option.toList_some, List.length_cons, List.length_nil] at htotal ⊢
              omega

theorem Sound.work_get (hfeed : feed.Sound) {wanted : Nat} {taken : Queue.Taken} {next : Queue}
    (hget : feed.queue.get wanted = (taken, next)) :
    work { feed with queue := next } = feed.work := by
  obtain ⟨-, hclosed, -⟩ := hfeed.queue.get hget
  simp only [work, unput, hclosed]

theorem collect_succ {turns wanted : Nat} {collected : Array UInt8} {taken : Queue.Taken}
    {next : Queue} (hget : feed.queue.get wanted = (taken, next)) :
    Feed.collect (turns + 1) wanted collected feed =
      if taken.waits then
        Feed.collect turns (wanted - taken.bytes.size) (collected ++ taken.bytes)
          ({ feed with queue := next } : Feed).produce
      else .ok (collected ++ taken.bytes) { feed with queue := next } := by
  rw [Feed.collect, get_bind_apply]
  simp only [hget]
  split_ifs <;> rfl

theorem Sound.collect (hfeed : feed.Sound) {turns : Nat} (hturns : feed.work < turns)
    (wanted : Nat) (collected : Array UInt8) :
    ∃ next : Feed, Feed.collect turns wanted collected feed =
        .ok (collected ++ (feed.total.take wanted).toArray) next ∧
      next.Sound ∧ next.total = feed.total.drop wanted := by
  induction turns generalizing feed wanted collected with
  | zero => omega
  | succ turns ih =>
      cases hget : feed.queue.get wanted with
      | mk taken queue =>
          obtain ⟨-, hclosed, htaken, hrest, hwaits⟩ := hfeed.queue.get hget
          have hafter := (hfeed.get hget).1
          have hbytes : taken.bytes = (feed.queue.contents.take wanted).toArray := by
            rw [← htaken]
          rw [collect_succ hget]
          split_ifs with hwait
          · -- All that was there has been taken, so the producer can get on.
            obtain ⟨hopen, hsize⟩ := hwaits.mp hwait
            have hlength : feed.queue.contents.length ≤ wanted := by simp; omega
            rw [List.drop_of_length_le hlength] at hrest
            rw [List.take_of_length_le hlength] at hbytes
            have hwork := hafter.work_produce hrest (hclosed.trans hopen)
            have hsame := hfeed.work_get hget
            obtain ⟨hproduce, htotal⟩ := hafter.produce
            obtain ⟨next, hnext, hsound, hleft⟩ :=
              ih hproduce (by omega) (wanted - taken.bytes.size) (collected ++ taken.bytes)
            have hunput : total { feed with queue } = feed.unput := by
              simp only [total, hrest, List.nil_append, unput]
            rw [htotal, hunput] at hnext hleft
            refine ⟨next, ?_, hsound, ?_⟩
            · rw [hnext, total, List.take_append, List.take_of_length_le hlength, hbytes]
              simp
            · rw [hleft, total, List.drop_append, List.drop_of_length_le hlength, hbytes]
              simp
          · have hunput : feed.unput = [] ∨ wanted ≤ feed.queue.size := by
              by_cases hopen : feed.queue.closed = false
              · exact Or.inr (Nat.le_of_not_lt fun h => hwait (hwaits.mpr ⟨hopen, h⟩))
              · simp only [Bool.not_eq_false] at hopen
                exact Or.inl (by simp [unput, hfeed.closed hopen])
            refine ⟨_, ?_, hafter, ?_⟩
            · rw [total, List.take_append, hbytes]
              rcases hunput with h | h <;> simp [h]
            · change queue.contents ++ feed.unput = _
              rw [total, List.drop_append, hrest]
              rcases hunput with h | h <;> simp [h]

theorem remaining_eq (feed : Feed) : feed.remaining = feed.total.length := by
  have hpending : ∀ pieces : List (Array UInt8),
      pieces.foldr (fun piece count => piece.size + count) 0 =
        (pieces.flatMap Array.toList).length := by
    intro pieces
    induction pieces with
    | nil => rfl
    | cons piece rest ih => simp [ih]
  rw [remaining, hpending, total, List.length_append, Queue.length_contents, unput]

theorem Sound.delivers (hfeed : feed.Sound) : Delivers feed.total.toArray feed 0 := by
  refine ⟨fun source position => source.Sound ∧ source.total = feed.total.drop position,
    ⟨hfeed, rfl⟩, ?_⟩
  rintro source position ⟨hsource, htotal⟩
  constructor
  · change _ ≤ source.remaining
    simp [remaining_eq, htotal]
  · intro wanted
    have hturns : source.work < source.remaining + source.pending.length + 2 := by
      simp only [work, remaining_eq, total, List.length_append]
      split_ifs <;> omega
    obtain ⟨next, hpull, hnext, hleft⟩ := hsource.collect hturns wanted #[]
    refine ⟨next, ?_, hnext, ?_⟩
    · rw [Array.empty_append, htotal] at hpull
      simp only [List.extract_toArray, List.extract_eq_take_drop, Nat.add_sub_cancel_left]
      exact hpull
    · rw [hleft, htotal, List.drop_drop, List.drop_eq_drop_iff, List.size_toArray]
      omega

end Feed

/-- A call of the consumer that has returned. -/
structure Delivery where
  wanted : Nat
  bytes : Array UInt8
  deriving DecidableEq, Repr

/-- A producer and a consumer at work on one queue. -/
structure Exchange where
  feed : Feed
  producerAsleep : Bool := false
  /-- How many bytes are wanted by the calls from which the consumer has not returned. -/
  calls : List Nat
  /-- What the first of these calls has taken. -/
  collected : Array UInt8 := #[]
  consumerAsleep : Bool := false
  returned : List Delivery := []
  deriving DecidableEq, Repr

/-- What happens next: a section of one side, or one side wakes up for no reason. -/
inductive Turn where
  | produce
  | consume
  | wakeProducer
  | wakeConsumer
  deriving DecidableEq, Repr

/-- The producer's next section leaves bytes that did not fit, and so ends in waiting. -/
def Feed.blocks (feed : Feed) : Bool :=
  feed.pending.head?.any fun piece => (feed.queue.put piece).1.isSome

namespace Exchange

/-- A section of the producer, unless it sleeps or has closed the queue. It wakes the consumer. -/
def produce (exchange : Exchange) : Exchange :=
  if exchange.producerAsleep || exchange.feed.queue.closed then exchange
  else
    { exchange with
      feed := exchange.feed.produce
      producerAsleep := exchange.feed.blocks
      consumerAsleep := false }

/-- A section of the consumer, unless it sleeps or has made all its calls. It wakes the producer. -/
def consume (exchange : Exchange) : Exchange :=
  match exchange.calls with
  | [] => exchange
  | wanted :: later =>
      if exchange.consumerAsleep then exchange
      else
        let (taken, queue) := exchange.feed.queue.get (wanted - exchange.collected.size)
        let collected := exchange.collected ++ taken.bytes
        if taken.waits then
          { exchange with
            feed := { exchange.feed with queue }
            producerAsleep := false
            collected
            consumerAsleep := true }
        else
          { exchange with
            feed := { exchange.feed with queue }
            producerAsleep := false
            calls := later
            collected := #[]
            returned := exchange.returned ++ [⟨wanted, collected⟩] }

def step (exchange : Exchange) : Turn → Exchange
  | .produce => exchange.produce
  | .consume => exchange.consume
  | .wakeProducer => { exchange with producerAsleep := false }
  | .wakeConsumer => { exchange with consumerAsleep := false }

/-- The state after some turns of a producer with these puts and a consumer with these gets. -/
def after (puts : List (Array UInt8)) (gets : List Nat) (turns : List Turn) : Exchange :=
  turns.foldl step { feed := { pending := puts }, calls := gets }

/-- All that the consumer has got, also in the call that it has not returned from. -/
def delivered (exchange : Exchange) : List UInt8 :=
  exchange.returned.flatMap (·.bytes.toList) ++ exchange.collected.toList

/-- A call has got what it wanted, or all that there was. -/
def Completes (queue : Queue) (call : Delivery) : Prop :=
  call.bytes.size ≤ call.wanted ∧
    (call.bytes.size < call.wanted → queue.closed = true ∧ queue.contents = [])

/-- What holds of a producer and a consumer between any two sections. -/
structure Sound (puts : List (Array UInt8)) (gets : List Nat) (exchange : Exchange) : Prop where
  feed : exchange.feed.Sound
  conserved : exchange.delivered ++ exchange.feed.total = puts.flatMap Array.toList
  calls : exchange.returned.map (·.wanted) ++ exchange.calls = gets
  collected_le : exchange.collected.size ≤ exchange.calls.headD 0
  completes : ∀ call ∈ exchange.returned, Completes exchange.feed.queue call
  awake : exchange.consumerAsleep = true → exchange.producerAsleep = false ∧
    exchange.feed.queue.closed = false ∧ exchange.feed.queue.contents = []

section Sound

variable {puts : List (Array UInt8)} {gets : List Nat} {exchange : Exchange}

theorem Sound.produce (hsound : exchange.Sound puts gets) : exchange.produce.Sound puts gets := by
  unfold Exchange.produce
  split_ifs with hidle
  · exact hsound
  · simp only [Bool.or_eq_true, not_or, Bool.not_eq_true] at hidle
    obtain ⟨hfeed, htotal⟩ := hsound.feed.produce
    refine ⟨hfeed, ?_, hsound.calls, hsound.collected_le, ?_, nofun⟩
    · exact htotal ▸ hsound.conserved
    · intro call hcall
      obtain ⟨hle, hshort⟩ := hsound.completes call hcall
      refine ⟨hle, fun h => ?_⟩
      rw [hidle.2] at hshort
      cases (hshort h).1

theorem Completes.get {queue next : Queue} {call : Delivery} (hcall : Completes queue call)
    {wanted : Nat} (hclosed : next.closed = queue.closed)
    (hrest : next.contents = queue.contents.drop wanted) : Completes next call := by
  refine ⟨hcall.1, fun hshort => ?_⟩
  obtain ⟨hdone, hempty⟩ := hcall.2 hshort
  exact ⟨hclosed.trans hdone, by rw [hrest, hempty, List.drop_nil]⟩

theorem completes_of_get {queue next : Queue} {taken : Queue.Taken} {wanted : Nat}
    {collected : Array UInt8} (hqueue : queue.Sound) (hcollected : collected.size ≤ wanted)
    (hget : queue.get (wanted - collected.size) = (taken, next)) (hreturns : ¬taken.waits) :
    Completes next ⟨wanted, collected ++ taken.bytes⟩ := by
  obtain ⟨-, hclosed, -, hrest, hwaits⟩ := hqueue.get hget
  have hsize := Queue.size_of_get hget
  simp only [Completes, Array.size_append]
  refine ⟨by omega, fun hshort => ?_⟩
  have hless : queue.size < wanted - collected.size := by omega
  constructor
  · rw [hclosed, ← Bool.not_eq_false]
    exact fun hopen => hreturns (hwaits.mpr ⟨hopen, hless⟩)
  · rw [hrest]
    exact List.drop_of_length_le (by rw [Queue.length_contents]; omega)

theorem consume_eq {wanted : Nat} {later : List Nat} {taken : Queue.Taken} {queue : Queue}
    (hcalls : exchange.calls = wanted :: later) (hawake : exchange.consumerAsleep = false)
    (hget : exchange.feed.queue.get (wanted - exchange.collected.size) = (taken, queue)) :
    exchange.consume =
      if taken.waits then
        { exchange with
          feed := { exchange.feed with queue }
          producerAsleep := false
          collected := exchange.collected ++ taken.bytes
          consumerAsleep := true }
      else
        { exchange with
          feed := { exchange.feed with queue }
          producerAsleep := false
          calls := later
          collected := #[]
          returned := exchange.returned ++ [⟨wanted, exchange.collected ++ taken.bytes⟩] } := by
  simp only [Exchange.consume, hcalls, hawake, hget, Bool.false_eq_true, if_false]

theorem consume_of_asleep (hasleep : exchange.consumerAsleep = true) :
    exchange.consume = exchange := by
  unfold Exchange.consume
  split
  · rfl
  · rw [if_pos hasleep]

theorem Sound.consume (hsound : exchange.Sound puts gets) : exchange.consume.Sound puts gets := by
  by_cases hasleep : exchange.consumerAsleep = true
  · rw [consume_of_asleep hasleep]
    exact hsound
  rw [Bool.not_eq_true] at hasleep
  cases hcall : exchange.calls with
  | nil =>
      simp only [Exchange.consume, hcall]
      exact hsound
  | cons wanted later =>
      obtain ⟨hfeed, hconserved, hcalls, hcollected, hcompletes, -⟩ := hsound
      rw [hcall, List.headD_cons] at hcollected
      cases hget : exchange.feed.queue.get (wanted - exchange.collected.size) with
      | mk taken queue =>
          obtain ⟨-, hclosed, -, hrest, hwaits⟩ := hfeed.queue.get hget
          obtain ⟨hafter, hbytes⟩ := hfeed.get hget
          have hsize := Queue.size_of_get hget
          have hold : ∀ call ∈ exchange.returned, Completes queue call :=
            fun call hmem => (hcompletes call hmem).get hclosed hrest
          rw [consume_eq hcall hasleep hget]
          split_ifs with hwait
          · obtain ⟨hopen, hless⟩ := hwaits.mp hwait
            refine ⟨hafter, ?_, hcalls, ?_, hold, fun _ => ⟨rfl, hclosed.trans hopen, ?_⟩⟩
            · rw [← hconserved, ← hbytes]
              simp [delivered]
            · rw [hcall, List.headD_cons, Array.size_append]
              omega
            · rw [hrest]
              exact List.drop_of_length_le (by rw [Queue.length_contents]; omega)
          · refine ⟨hafter, ?_, ?_, ?_, ?_, ?_⟩
            · rw [← hconserved, ← hbytes]
              simp [delivered]
            · simp [← hcalls, hcall]
            · exact Nat.zero_le _
            · rw [List.forall_mem_append, List.forall_mem_singleton]
              exact ⟨hold, completes_of_get hfeed.queue hcollected hget hwait⟩
            · simp [hasleep]

theorem Sound.step (hsound : exchange.Sound puts gets) (turn : Turn) :
    (exchange.step turn).Sound puts gets := by
  cases turn with
  | produce => exact hsound.produce
  | consume => exact hsound.consume
  | wakeProducer => exact { hsound with awake := fun h => ⟨rfl, (hsound.awake h).2⟩ }
  | wakeConsumer => exact { hsound with awake := nofun }

/-- How many turns the consumer may need until it has returned from all its calls. -/
def turnsLeft (exchange : Exchange) : Nat :=
  2 * exchange.feed.work + exchange.calls.length + if exchange.consumerAsleep then 0 else 1

theorem Sound.exists_turn (hsound : exchange.Sound puts gets) (hcalls : exchange.calls ≠ []) :
    ∃ turn, (turn = .produce ∨ turn = .consume) ∧
      (exchange.step turn).turnsLeft < exchange.turnsLeft := by
  by_cases hasleep : exchange.consumerAsleep = true
  · obtain ⟨hproducer, hopen, hempty⟩ := hsound.awake hasleep
    have hwork := hsound.feed.work_produce hempty hopen
    refine ⟨.produce, Or.inl rfl, ?_⟩
    simp only [Exchange.step, Exchange.produce, turnsLeft, hproducer, hopen, hasleep, Bool.or_self,
      Bool.false_eq_true, if_false, if_true]
    omega
  · rw [Bool.not_eq_true] at hasleep
    obtain ⟨wanted, later, hcall⟩ := List.exists_cons_of_ne_nil hcalls
    refine ⟨.consume, Or.inr rfl, ?_⟩
    cases hget : exchange.feed.queue.get (wanted - exchange.collected.size) with
    | mk taken queue =>
        have hwork := hsound.feed.work_get hget
        simp only [Exchange.step, consume_eq hcall hasleep hget]
        split_ifs with hwait
        · simp [turnsLeft, hwork, hasleep]
        · simp [turnsLeft, hwork, hasleep, hcall]

theorem Sound.exists_turns (hsound : exchange.Sound puts gets) :
    ∃ later : List Turn, (∀ turn ∈ later, turn = .produce ∨ turn = .consume) ∧
      (later.foldl Exchange.step exchange).calls = [] := by
  induction hleft : exchange.turnsLeft using Nat.strongRecOn generalizing exchange with
  | ind left ih =>
      by_cases hcalls : exchange.calls = []
      · exact ⟨[], nofun, hcalls⟩
      · obtain ⟨turn, hturn, hless⟩ := hsound.exists_turn hcalls
        obtain ⟨later, hlater, hdone⟩ := ih _ (hleft ▸ hless) (hsound.step turn) rfl
        exact ⟨turn :: later, List.forall_mem_cons.mpr ⟨hturn, hlater⟩, hdone⟩

end Sound

theorem sound_after (puts : List (Array UInt8)) (gets : List Nat) (turns : List Turn) :
    (after puts gets turns).Sound puts gets := by
  induction turns using List.reverseRecOn with
  | nil =>
      refine ⟨⟨⟨Nat.le_refl _, Nat.zero_le _, ?_⟩, nofun⟩, rfl, rfl, Nat.zero_le _, nofun, nofun⟩
      exact List.mem_cons_self
  | append_singleton turns turn ih =>
      rw [after, List.foldl_concat]
      exact ih.step turn

/-- Nothing is lost, doubled or reordered between a producer and a consumer, however their sections
and wake-ups interleave. What the consumer has got, what waits and what has still to be put are
together what is put. The queue keeps within its capacity of 64, 128 or 256 KiB, and a call takes no
more than it wants. A call that returns with less has met the end. The two never sleep at the same
time, and their sections can always bring the consumer's calls to an end. -/
theorem delivered_in_order (puts : List (Array UInt8)) (gets : List Nat) (turns : List Turn) :
    let exchange := after puts gets turns
    let queue := exchange.feed.queue
    exchange.delivered ++ queue.contents ++ exchange.feed.unput = puts.flatMap Array.toList ∧
      (queue.start ≤ queue.stored.size ∧ queue.size ≤ queue.capacity ∧
        queue.capacity ∈ [65536, 131072, 262144]) ∧
      (exchange.returned.map (·.wanted) ++ exchange.calls = gets ∧
        exchange.collected.size ≤ exchange.calls.headD 0) ∧
      (∀ call ∈ exchange.returned, call.bytes.size ≤ call.wanted ∧
        (call.bytes.size < call.wanted → queue.closed = true ∧ queue.contents = [])) ∧
      ¬(exchange.producerAsleep = true ∧ exchange.consumerAsleep = true) ∧
      ∃ later : List Turn, (∀ turn ∈ later, turn = .produce ∨ turn = .consume) ∧
        (after puts gets (turns ++ later)).calls = [] := by
  intro exchange queue
  have hsound := sound_after puts gets turns
  have hqueue := hsound.feed.queue
  refine ⟨?_, ⟨hqueue.start_le, hqueue.size_le, hqueue.capacity_mem⟩,
    ⟨hsound.calls, hsound.collected_le⟩, hsound.completes, ?_, ?_⟩
  · rw [List.append_assoc]
    exact hsound.conserved
  · rintro ⟨hproducer, hconsumer⟩
    rw [(hsound.awake hconsumer).1] at hproducer
    cases hproducer
  · obtain ⟨later, hlater, hdone⟩ := hsound.exists_turns
    refine ⟨later, hlater, ?_⟩
    rwa [after, List.foldl_append]

-- The consumer waits twice, first for anything and then for the end.
example : (after [#[1, 2, 3]] [2, 2]
    [.consume, .produce, .consume, .consume, .produce, .consume]).returned =
      [⟨2, #[1, 2]⟩, ⟨2, #[3]⟩] := by
  decide +kernel

end Exchange

end Bitcode.Streaming
