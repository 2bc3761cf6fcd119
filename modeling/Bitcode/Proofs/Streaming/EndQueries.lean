import Bitcode.Proofs.Streaming.Lines

namespace Bitcode.Streaming

namespace Memory

variable {σ : Type} [Source σ] {memory next last : Memory σ} {address : Nat}

/-- What holds of a memory after any requests. -/
structure Sane (memory : Memory σ) : Prop where
  open_of_unknown : memory.objectSize = none → memory.ended = false

theorem Sane.fetchChunk (hmemory : memory.Sane) (hchunk : Memory.fetchChunk memory = .ok () next) :
    next.Sane ∧ memory.bytesRead ≤ next.bytesRead ∧
      (next.ended = true ∨ memory.bytesRead < next.bytesRead) ∧
      (next.objectSize = memory.objectSize ∨
        memory.objectSize = none ∧ next.ended = true ∧ next.objectSize = some next.bytesRead) := by
  -- A chunk brings bytes or meets the end, and changes the size only if that was unknown.
  obtain ⟨hopen⟩ := hmemory
  unfold Memory.fetchChunk at hchunk
  cases hpull : (Source.pull chunkSize : EStateM Error σ _) memory.source with
  | error cause source =>
      rw [hpull] at hchunk
      cases hchunk
  | ok chunk source =>
      rw [hpull] at hchunk
      obtain ⟨-, rfl⟩ := EStateM.Result.ok.inj hchunk
      unfold absorb
      split_ifs with hshort
      · refine ⟨⟨fun hunknown => by cases hunknown⟩, ?_, Or.inl rfl, ?_⟩
        · exact Nat.le_add_right memory.bytesRead chunk.size
        · cases hsize : memory.objectSize with
          | none => exact Or.inr ⟨rfl, rfl, rfl⟩
          | some size => exact Or.inl rfl
      · have hsome : 0 < chunk.size := Nat.lt_of_lt_of_le (by decide) (Nat.le_of_not_lt hshort)
        refine ⟨⟨hopen⟩, ?_, Or.inr ?_, Or.inl rfl⟩
        · exact Nat.le_add_right memory.bytesRead chunk.size
        · exact Nat.lt_add_of_pos_right hsome

/-- So many chunks are enough to fetch an address. -/
def Enough (memory : Memory σ) (address chunks : Nat) : Prop :=
  1 ≤ chunks ∧ (memory.ended = true ∨ address + 2 ≤ memory.bytesRead + chunks)

theorem Sane.fetchWithin_congr (hmemory : memory.Sane) {chunks others : Nat}
    (hchunks : memory.Enough address chunks) (hothers : memory.Enough address others) :
    Memory.fetchWithin address chunks memory = Memory.fetchWithin address others memory := by
  induction chunks generalizing memory others with
  | zero => exact absurd hchunks.1 (by decide)
  | succ chunks ih =>
      cases others with
      | zero => exact absurd hothers.1 (by decide)
      | succ others =>
          rw [Memory.fetchWithin, Memory.fetchWithin, get_bind_apply, get_bind_apply]
          split_ifs with haddress hended
          · rfl
          · rfl
          · cases hchunk : Memory.fetchChunk memory with
            | error cause between =>
                rw [bind_apply_of_error hchunk, bind_apply_of_error hchunk]
            | ok value between =>
                rw [bind_apply_of_ok hchunk, bind_apply_of_ok hchunk]
                obtain ⟨hbetween, -, hprogress, -⟩ := hmemory.fetchChunk hchunk
                have hless : ∀ count, memory.Enough address (count + 1) →
                    between.Enough address count := by
                  rintro count ⟨-, hcount⟩
                  have hreach := hcount.resolve_left hended
                  exact ⟨by omega, hprogress.imp_right fun hmore => by omega⟩
                exact ih hbetween (hless _ hchunks) (hless _ hothers)

theorem fetchTo_of_le (haddress : memory.bytesRead ≤ address) (hopen : memory.ended = false) :
    Memory.fetchTo address memory =
      (Memory.fetchChunk >>= fun _ => Memory.fetchWithin address (address + 1)) memory := by
  rw [Memory.fetchTo, Memory.fetchWithin, get_bind_apply, if_neg (Nat.not_lt_of_le haddress),
    if_neg (by simp [hopen])]

theorem Sane.fetchTo_of_chunk (hmemory : memory.Sane) (haddress : memory.bytesRead ≤ address)
    (hopen : memory.ended = false) (hchunk : Memory.fetchChunk memory = .ok () next) :
    Memory.fetchTo address memory = Memory.fetchTo address next := by
  obtain ⟨hnext, -, hprogress, -⟩ := hmemory.fetchChunk hchunk
  rw [fetchTo_of_le haddress hopen, bind_apply_of_ok hchunk]
  apply hnext.fetchWithin_congr
  · exact ⟨by omega, hprogress.imp_right fun hmore => by omega⟩
  · exact ⟨by omega, Or.inr (by omega)⟩

/-- What is answered to the question whether an address is the end of the object. -/
def toldEnd (address : Nat) (memory : Memory σ) : Except Error Response :=
  ((Request.isEnd address).noted Memory.answer memory).2.outcome

theorem toldEnd_of_ok {value : Bool} (hend : Memory.isEnd address memory = .ok value next) :
    memory.toldEnd address = .ok (.truth value) := by
  rw [toldEnd, Request.noted_of_ok .truth rfl hend]

theorem toldEnd_of_error {cause : Error} (hend : Memory.isEnd address memory = .error cause next) :
    memory.toldEnd address = .error cause := by
  rw [toldEnd, Request.noted_of_error .truth rfl hend]

theorem toldEnd_of_known {size : Nat} (hsize : memory.objectSize = some size) :
    memory.toldEnd address = .ok (.truth (address == size)) := by
  refine toldEnd_of_ok (?_ : Memory.isEnd address memory = .ok _ memory)
  rw [Memory.isEnd, get_bind_apply, hsize]
  rfl

theorem isEnd_of_unknown (hsize : memory.objectSize = none) :
    Memory.isEnd address memory =
      (discard (Memory.fetchTo address) >>= fun _ => do
        return (← get).objectSize == some address && address != 0) memory := by
  rw [Memory.isEnd, get_bind_apply, hsize]

theorem toldEnd_of_lt (hsize : memory.objectSize = none) (haddress : address < memory.bytesRead) :
    memory.toldEnd address = .ok (.truth false) := by
  have hfetch : Memory.fetchTo address memory = .ok (memory.within address) memory := by
    rw [Memory.fetchTo, Memory.fetchWithin, get_bind_apply, if_pos haddress]
    rfl
  refine toldEnd_of_ok (?_ : Memory.isEnd address memory = .ok _ memory)
  rw [isEnd_of_unknown hsize, bind_apply_of_ok (discard_eq_ok hfetch), get_bind_apply, hsize]
  rfl

theorem Sane.toldEnd_of_failure (hmemory : memory.Sane) {cause : Error}
    (hsize : memory.objectSize = none) (haddress : memory.bytesRead ≤ address)
    (hchunk : Memory.fetchChunk memory = .error cause next) :
    memory.toldEnd address = .error cause := by
  have hfetch : Memory.fetchTo address memory = .error cause next := by
    rw [fetchTo_of_le haddress (hmemory.open_of_unknown hsize), bind_apply_of_error hchunk]
  refine toldEnd_of_error (?_ : Memory.isEnd address memory = .error _ next)
  rw [isEnd_of_unknown hsize, bind_apply_of_error (discard_eq_error hfetch)]

theorem Sane.toldEnd_of_chunk (hmemory : memory.Sane) (hsize : memory.objectSize = none)
    (haddress : memory.bytesRead ≤ address) (hchunk : Memory.fetchChunk memory = .ok () next)
    (hnext : next.objectSize = none) : next.toldEnd address = memory.toldEnd address := by
  have hfetch := hmemory.fetchTo_of_chunk haddress (hmemory.open_of_unknown hsize) hchunk
  have hsame : Memory.isEnd address memory = Memory.isEnd address next := by
    rw [isEnd_of_unknown hsize, isEnd_of_unknown hnext]
    cases hreach : Memory.fetchTo address next with
    | ok value reached =>
        rw [bind_apply_of_ok (discard_eq_ok hreach),
          bind_apply_of_ok (discard_eq_ok (hfetch.trans hreach))]
    | error cause reached =>
        rw [bind_apply_of_error (discard_eq_error hreach),
          bind_apply_of_error (discard_eq_error (hfetch.trans hreach))]
  cases hend : Memory.isEnd address next with
  | ok value reached => rw [toldEnd_of_ok hend, toldEnd_of_ok (hsame.trans hend)]
  | error cause reached => rw [toldEnd_of_error hend, toldEnd_of_error (hsame.trans hend)]

theorem Sane.toldEnd_of_lastChunk (hmemory : memory.Sane) (hsize : memory.objectSize = none)
    (haddress : memory.bytesRead ≤ address) (hchunk : Memory.fetchChunk memory = .ok () next)
    (hended : next.ended = true) :
    memory.toldEnd address = .ok (.truth (next.objectSize == some address && address != 0)) := by
  obtain ⟨value, hreach⟩ : ∃ value, Memory.fetchTo address next = .ok value next := by
    rw [Memory.fetchTo, Memory.fetchWithin, get_bind_apply, if_pos hended]
    split_ifs
    · exact ⟨_, rfl⟩
    · exact ⟨_, rfl⟩
  have hfetch := hmemory.fetchTo_of_chunk haddress (hmemory.open_of_unknown hsize) hchunk
  refine toldEnd_of_ok (?_ : Memory.isEnd address memory = .ok _ next)
  rw [isEnd_of_unknown hsize, bind_apply_of_ok (discard_eq_ok (hfetch.trans hreach)),
    get_bind_apply]
  rfl

/-- It becomes known that the object is empty. -/
def Empties (memory next : Memory σ) : Prop :=
  memory.objectSize = none ∧ next.objectSize = some 0

/-- What a question for the end is answered later on, compared with now. -/
structure Continues (address : Nat) (memory next : Memory σ) : Prop where
  sane : next.Sane
  known : memory.objectSize = none ∨ next.objectSize = memory.objectSize
  same : ¬ (address = 0 ∧ memory.Empties next) → next.toldEnd address = memory.toldEnd address
  differs : address = 0 → memory.Empties next →
    memory.toldEnd address = .ok (.truth false) ∧ next.toldEnd address = .ok (.truth true)

theorem Sane.continues (hmemory : memory.Sane) (address : Nat) : Continues address memory memory where
  sane := hmemory
  known := Or.inr rfl
  same _ := rfl
  differs _ hempties := by
    rw [Empties, hempties.1] at hempties
    cases hempties.2

theorem Continues.trans (hnext : Continues address memory next)
    (hlast : Continues address next last) : Continues address memory last := by
  cases hsize : next.objectSize with
  | none =>
      -- The object turns out to be empty in the second part, if at all.
      have hmemory : memory.objectSize = none :=
        hnext.known.elim id fun hsame => hsame.symm.trans hsize
      have hbefore : next.toldEnd address = memory.toldEnd address := by
        apply hnext.same
        rintro ⟨-, -, hempty⟩
        rw [hsize] at hempty
        cases hempty
      refine ⟨hlast.sane, Or.inl hmemory, fun hnot => ?_, fun hzero hempties => ?_⟩
      · rw [← hbefore]
        exact hlast.same fun hempties => hnot ⟨hempties.1, hmemory, hempties.2.2⟩
      · rw [← hbefore]
        exact hlast.differs hzero ⟨hsize, hempties.2⟩
  | some size =>
      have hfinal : last.objectSize = some size :=
        (hlast.known.resolve_left (by simp [hsize])).trans hsize
      have hafter : last.toldEnd address = next.toldEnd address := by
        apply hlast.same
        rintro ⟨-, hnone, -⟩
        rw [hsize] at hnone
        cases hnone
      refine ⟨hlast.sane, ?_, fun hnot => ?_, fun hzero hempties => ?_⟩
      · rw [hfinal, ← hsize]
        exact hnext.known
      · rw [hafter]
        refine hnext.same fun hempties => hnot ⟨hempties.1, hempties.2.1, ?_⟩
        rw [hfinal, ← hsize]
        exact hempties.2.2
      · rw [hafter]
        refine hnext.differs hzero ⟨hempties.1, ?_⟩
        rw [hsize, ← hfinal]
        exact hempties.2

theorem Sane.continues_behind (hmemory : memory.Sane) (hsize : memory.objectSize = none)
    (hread : address < memory.bytesRead) (hchunk : Memory.fetchChunk memory = .ok () next) :
    Continues address memory next := by
  obtain ⟨hnext, hmore, -, hsizes⟩ := hmemory.fetchChunk hchunk
  have hnow := toldEnd_of_lt hsize hread
  have hlater : next.toldEnd address = .ok (.truth false) := by
    rcases hsizes with hsame | ⟨-, -, hlast⟩
    · exact toldEnd_of_lt (hsame.trans hsize) (Nat.lt_of_lt_of_le hread hmore)
    · rw [toldEnd_of_known hlast, beq_false_of_ne (by omega)]
  refine ⟨hnext, Or.inl hsize, fun _ => hlater.trans hnow.symm, ?_⟩
  rintro rfl ⟨-, hempty⟩
  rcases hsizes with hsame | ⟨-, -, hlast⟩
  · rw [hsame, hsize] at hempty
    cases hempty
  · rw [hlast] at hempty
    have := Option.some.inj hempty
    omega

theorem Sane.continues_lastChunk (hmemory : memory.Sane) (hsize : memory.objectSize = none)
    (hahead : memory.bytesRead ≤ address) (hchunk : Memory.fetchChunk memory = .ok () next)
    (hended : next.ended = true) (hlast : next.objectSize = some next.bytesRead) :
    Continues address memory next := by
  have hnow := hmemory.toldEnd_of_lastChunk hsize hahead hchunk hended
  have hlater : next.toldEnd address = _ := toldEnd_of_known hlast
  rw [hlast] at hnow
  refine ⟨(hmemory.fetchChunk hchunk).1, Or.inl hsize, fun hnot => ?_, ?_⟩
  · rw [hnow, hlater]
    by_cases hzero : address = 0
    · have hsome : next.bytesRead ≠ 0 := fun hnone =>
        hnot ⟨hzero, hsize, hlast.trans (congrArg some hnone)⟩
      simp [hzero, Ne.symm hsome]
    · have hpositive : (address != 0) = true := bne_iff_ne.mpr hzero
      rw [hpositive, Bool.and_true, Option.some_beq_some, BEq.comm]
  · rintro rfl ⟨-, hempty⟩
    have hread : next.bytesRead = 0 := Option.some.inj (hlast.symm.trans hempty)
    rw [hnow, hlater, hread]
    exact ⟨rfl, rfl⟩

theorem Sane.continues_fetchChunk (hmemory : memory.Sane) (address : Nat)
    (hchunk : Memory.fetchChunk memory = .ok () next) : Continues address memory next := by
  obtain ⟨hnext, -, -, hsizes⟩ := hmemory.fetchChunk hchunk
  cases hsize : memory.objectSize with
  | some size =>
      have hsame : next.objectSize = some size := by
        rcases hsizes with hsame | ⟨hnone, -, -⟩
        · rw [hsame, hsize]
        · rw [hsize] at hnone
          cases hnone
      refine ⟨hnext, Or.inr (hsame.trans hsize.symm), fun _ => ?_, fun _ hempties => ?_⟩
      · rw [toldEnd_of_known hsame, toldEnd_of_known hsize]
      · rw [Empties, hsize] at hempties
        cases hempties.1
  | none =>
      rcases Nat.lt_or_ge address memory.bytesRead with hread | hahead
      · exact hmemory.continues_behind hsize hread hchunk
      rcases hsizes with hsame | ⟨-, hended, hlast⟩
      · have hunknown := hsame.trans hsize
        refine ⟨hnext, Or.inl hsize,
          fun _ => hmemory.toldEnd_of_chunk hsize hahead hchunk hunknown, fun _ hempties => ?_⟩
        rw [Empties, hunknown] at hempties
        cases hempties.2
      · exact hmemory.continues_lastChunk hsize hahead hchunk hended hlast

theorem Sane.continues_fetches (hmemory : memory.Sane) (address : Nat)
    (hfetches : Fetches memory next) : Continues address memory next := by
  induction hfetches with
  | refl => exact hmemory.continues address
  | chunk hchunk _ ih =>
      have hbetween := hmemory.continues_fetchChunk address hchunk
      exact hbetween.trans (ih hbetween.sane)

theorem Sane.continues_breaks (hmemory : memory.Sane) {cause : Error}
    (htold : (memory.toldEnd address).isOk = true) (hbreaks : Breaks memory cause next) :
    Continues address memory next := by
  obtain ⟨last, hfetches, hchunk⟩ := hbreaks
  have hlast := hmemory.continues_fetches address hfetches
  have hstill : (last.toldEnd address).isOk = true := by
    by_cases hempties : address = 0 ∧ memory.Empties last
    · rw [(hlast.differs hempties.1 hempties.2).2]
      rfl
    · rwa [hlast.same hempties]
  obtain ⟨source, -, rfl⟩ := fetchChunk_eq_error hchunk
  apply hlast.trans
  refine ⟨⟨hlast.sane.open_of_unknown⟩, Or.inr rfl, fun _ => ?_, ?_⟩
  · rcases Option.eq_none_or_eq_some last.objectSize with hsize | ⟨size, hsize⟩
    · rcases Nat.lt_or_ge address last.bytesRead with hread | hahead
      · rw [toldEnd_of_lt hsize hread]
        exact toldEnd_of_lt hsize hread
      · rw [hlast.sane.toldEnd_of_failure hsize hahead hchunk] at hstill
        cases hstill
    · rw [toldEnd_of_known hsize]
      exact toldEnd_of_known hsize
  · rintro - ⟨hnone, hempty⟩
    rw [show last.objectSize = some 0 from hempty] at hnone
    cases hnone

end Memory

/-- A request that changes neither the addresses nor the size of the object. -/
def Request.Asks (request : Request) : Prop :=
  request.LeavesSize ∧ request.KeepsAddresses

instance (request : Request) : Decidable request.Asks :=
  inferInstanceAs (Decidable (_ ∧ _))

/-- A request for which a memory looks for an address. A read of nothing does not make it look. -/
def Request.Looks : Request → Prop
  | .read address length => length ≠ 0 ∧ address + length < addressLimit
  | _ => True

namespace Memory

variable {σ : Type} [Source σ] {memory next : Memory σ} {address : Nat} {request : Request}
  {queries : List Request}

theorem onlyFetches_answer (hasks : request.Asks) :
    OnlyFetches (Memory.answer request : Fetching σ Response) := by
  cases request with
  | read address length => exact (OnlyFetches.read address length).bind fun _ => .pure _
  | isValid address => exact (OnlyFetches.isValid address).bind fun _ => .pure _
  | isEnd address => exact (OnlyFetches.isEnd address).bind fun _ => .pure _
  | extent => exact OnlyFetches.extent.bind fun _ => .pure _
  | drop count => exact hasks.2.elim
  | setSize size => exact hasks.1.elim

theorem noted_of_asks (hasks : request.Asks) (memory : Memory σ) :
    (request.noted Memory.answer memory).2.outcome.isOk = true ∧
        Fetches memory (request.noted Memory.answer memory).1 ∨
      (request.noted Memory.answer memory).2.outcome.isOk = false ∧
        ∃ cause, Breaks memory cause (request.noted Memory.answer memory).1 := by
  unfold Request.noted
  cases hanswer : Memory.answer request memory with
  | ok response next => exact Or.inl ⟨rfl, (onlyFetches_answer hasks).ok hanswer⟩
  | error cause next => exact Or.inr ⟨rfl, cause, (onlyFetches_answer hasks).error hanswer⟩

theorem Sane.continues_session (hmemory : memory.Sane) (hqueries : ∀ query ∈ queries, query.Asks)
    (htold : (∀ answered ∈ (session Memory.answer memory queries).2,
        answered.outcome.isOk = true) ∨ (memory.toldEnd address).isOk = true) :
    Continues address memory (session Memory.answer memory queries).1 := by
  induction queries generalizing memory with
  | nil => exact hmemory.continues address
  | cons query rest ih =>
      rw [List.forall_mem_cons] at hqueries
      have hnext : Continues address memory (query.noted Memory.answer memory).1 := by
        rcases noted_of_asks hqueries.1 memory with ⟨-, hfetches⟩ | ⟨hfails, cause, hbreaks⟩
        · exact hmemory.continues_fetches address hfetches
        · refine hmemory.continues_breaks (htold.resolve_left fun hall => ?_) hbreaks
          have hanswered := hall _ List.mem_cons_self
          rw [hfails] at hanswered
          cases hanswered
      refine hnext.trans (ih hnext.sane hqueries.2 (htold.imp ?_ ?_))
      · exact fun hall answered hanswered => hall answered (List.mem_cons_of_mem _ hanswered)
      · intro hanswered
        by_cases hempties : address = 0 ∧ memory.Empties (query.noted Memory.answer memory).1
        · rw [(hnext.differs hempties.1 hempties.2).2]
          rfl
        · rwa [hnext.same hempties]

theorem Sane.noted (hmemory : memory.Sane) (request : Request) :
    (request.noted Memory.answer memory).1.Sane := by
  by_cases hasks : request.Asks
  · rcases noted_of_asks hasks memory with ⟨-, hfetches⟩ | ⟨-, cause, last, hfetches, hchunk⟩
    · exact (hmemory.continues_fetches 0 hfetches).sane
    · have hlast := (hmemory.continues_fetches 0 hfetches).sane
      obtain ⟨source, -, hnext⟩ := fetchChunk_eq_error hchunk
      rw [hnext]
      exact ⟨hlast.open_of_unknown⟩
  · cases request with
    | read | isValid | isEnd | extent => exact absurd ⟨trivial, trivial⟩ hasks
    | setSize size => exact ⟨nofun⟩
    | drop count =>
        by_cases hcount : memory.bytesRead < count
        · have hdrop : Memory.drop count memory = .error _ memory := dif_pos hcount
          rw [Request.noted_of_error (fun _ => .done) rfl hdrop]
          exact hmemory
        · have hdrop : Memory.drop count memory = .ok () _ := dif_neg hcount
          rw [Request.noted_of_ok (fun _ => .done) rfl hdrop]
          refine ⟨fun hnone => hmemory.open_of_unknown ?_⟩
          exact Option.map_eq_none_iff.mp hnone

theorem Sane.session (hmemory : memory.Sane) (requests : List Request) :
    (session Memory.answer memory requests).1.Sane := by
  induction requests generalizing memory with
  | nil => exact hmemory
  | cons request rest ih => exact ih (hmemory.noted request)

section Shows

variable {stream : Array UInt8} {dropped : Nat}

/-- The end of the object is told apart from all other addresses, but for an empty object whose size
is not known. -/
theorem Shows.toldEnd (hmemory : memory.Shows stream dropped) (address : Nat) :
    memory.toldEnd address =
      .ok (.truth (decide (address = stream.size - dropped) && (address != 0 || memory.ended))) := by
  obtain ⟨hviews, -, rfl⟩ := hmemory
  have hsize := hviews.objectSize
  split_ifs at hsize with hended
  · rw [toldEnd_of_known hsize, hended, Bool.or_true, Bool.and_true]
    rfl
  · obtain ⟨next, hfetch, hnext, hreached⟩ := hviews.fetchTo address
    have hread := hnext.views.bytesRead_le
    have hknown := hnext.views.objectSize
    rw [hnext.objectEnd, objectEnd] at hread
    rw [hnext.dropped] at hknown
    have htold : (next.objectSize == some address) =
        decide (address = stream.size - memory.dropped) := by
      rw [hknown]
      split_ifs with hover
      · rw [Option.some_beq_some, BEq.comm]
        rfl
      · have hbefore := hreached.resolve_right hover
        rw [decide_eq_false (by omega)]
        rfl
    refine toldEnd_of_ok (?_ : Memory.isEnd address memory = .ok _ next)
    rw [isEnd_of_unknown hsize, bind_apply_of_ok (discard_eq_ok hfetch), get_bind_apply, htold]
    simp [hended, pure, EStateM.pure]

theorem Shows.noted_asks (hmemory : memory.Shows stream dropped) (hasks : request.Asks) :
    (request.noted Memory.answer memory).1.Shows stream dropped := by
  have hnone : (request.noted Memory.answer memory).2.dropped = 0 := by
    rw [Answered.dropped, Request.request_noted]
    cases request with
    | drop count => exact hasks.2.elim
    | read | isValid | isEnd | setSize | extent => rfl
  have hnext := hmemory.noted hasks.1
  rwa [hnone, Nat.add_zero] at hnext

theorem Shows.objectSize_of_dropped (hmemory : memory.Shows stream stream.size) :
    memory.objectSize = if memory.ended = true then some 0 else none := by
  have hsize := hmemory.views.objectSize
  rwa [hmemory.dropped, Nat.sub_self] at hsize

theorem Shows.objectEnd_of_dropped (hmemory : memory.Shows stream stream.size) :
    memory.objectEnd stream = 0 := by
  rw [objectEnd, hmemory.dropped, Nat.sub_self]

theorem Shows.fetchTo_of_dropped (hmemory : memory.Shows stream stream.size) (address : Nat) :
    ∃ value next, Memory.fetchTo address memory = .ok value next ∧ next.ended = true := by
  obtain ⟨next, hfetch, hnext, hreached⟩ := hmemory.views.fetchTo address
  refine ⟨_, next, hfetch, hreached.resolve_left ?_⟩
  have hread := hnext.views.bytesRead_le
  rw [hnext.objectEnd, hmemory.objectEnd_of_dropped] at hread
  omega

theorem Shows.ended_read (hmemory : memory.Shows stream stream.size) (address length : Nat) :
    ((Request.read address length).noted Memory.answer memory).1.ended = true ↔
      memory.ended = true ∨ (Request.read address length).Looks := by
  by_cases hlooks : (Request.read address length).Looks
  · obtain ⟨value, next, hfetch, hended⟩ := hmemory.fetchTo_of_dropped (address + length - 1)
    have hread : ∃ found, Memory.read address length memory = .ok found next := by
      have hlimit : ¬ (length = 0 ∨ addressLimit ≤ address + length) := by
        rintro (hzero | hfar)
        · exact hlooks.1 hzero
        · exact absurd hlooks.2 (Nat.not_lt_of_le hfar)
      rw [Memory.read, if_neg hlimit, bind_apply_of_ok (discard_eq_ok hfetch), get_bind_apply]
      exact ⟨_, rfl⟩
    obtain ⟨found, hread⟩ := hread
    rw [Request.noted_of_ok .bytes rfl hread]
    exact ⟨fun _ => Or.inr hlooks, fun _ => hended⟩
  · have hread : Memory.read address length memory = .ok #[] memory := by
      have hlimit : length = 0 ∨ addressLimit ≤ address + length := by
        by_contra hneither
        rw [not_or, Nat.not_le] at hneither
        exact hlooks hneither
      rw [Memory.read, if_pos hlimit]
      rfl
    rw [Request.noted_of_ok .bytes rfl hread]
    exact ⟨Or.inl, fun hended => hended.resolve_right hlooks⟩

theorem Shows.ended_isValid (hmemory : memory.Shows stream stream.size) (address : Nat) :
    ((Request.isValid address).noted Memory.answer memory).1.ended = true := by
  obtain ⟨value, next, hfetch, hended⟩ := hmemory.fetchTo_of_dropped address
  have hvalid : Memory.isValid address memory = .ok value next := by
    have hnot : ¬ memory.objectSize.any (address < ·) = true := by
      rw [hmemory.objectSize_of_dropped]
      split_ifs <;> simp
    rw [Memory.isValid, get_bind_apply, if_neg hnot]
    exact hfetch
  rw [Request.noted_of_ok .truth rfl hvalid]
  exact hended

theorem Shows.ended_isEnd (hmemory : memory.Shows stream stream.size) (address : Nat) :
    ((Request.isEnd address).noted Memory.answer memory).1.ended = true := by
  have hsize := hmemory.objectSize_of_dropped
  split_ifs at hsize with hended
  · have hend : Memory.isEnd address memory = .ok (address == 0) memory := by
      rw [Memory.isEnd, get_bind_apply, hsize]
      rfl
    rw [Request.noted_of_ok .truth rfl hend]
    exact hended
  · obtain ⟨value, next, hfetch, hover⟩ := hmemory.fetchTo_of_dropped address
    have hend : ∃ told, Memory.isEnd address memory = .ok told next := by
      rw [isEnd_of_unknown hsize, bind_apply_of_ok (discard_eq_ok hfetch), get_bind_apply]
      exact ⟨_, rfl⟩
    obtain ⟨told, hend⟩ := hend
    rw [Request.noted_of_ok .truth rfl hend]
    exact hover

theorem Shows.ended_extent (hmemory : memory.Shows stream stream.size) :
    (Request.extent.noted Memory.answer memory).1.ended = true := by
  have hsize := hmemory.objectSize_of_dropped
  split_ifs at hsize with hended
  · have hextent : Memory.extent memory = .ok 0 memory := by
      rw [Memory.extent, get_bind_apply, hsize]
      rfl
    rw [Request.noted_of_ok .size rfl hextent]
    exact hended
  · have henough : 1 ≤ Source.remaining memory.source + 1 ∧ memory.objectEnd stream <
        memory.bytesRead + chunkSize + (Source.remaining memory.source + 1) :=
      ⟨by omega, by rw [hmemory.objectEnd_of_dropped]; omega⟩
    obtain ⟨next, hfetch, -, hover⟩ := hmemory.views.fetchAll _ henough
    have hextent : ∃ size, Memory.extent memory = .ok size next := by
      rw [Memory.extent, get_bind_apply, hsize]
      dsimp only
      rw [bind_apply_of_ok hfetch, get_bind_apply]
      exact ⟨_, rfl⟩
    obtain ⟨size, hextent⟩ := hextent
    rw [Request.noted_of_ok .size rfl hextent]
    exact hover

theorem Shows.ended_noted (hmemory : memory.Shows stream stream.size) (hasks : request.Asks) :
    (request.noted Memory.answer memory).1.ended = true ↔ memory.ended = true ∨ request.Looks := by
  cases request with
  | drop count => exact hasks.2.elim
  | setSize size => exact hasks.1.elim
  | read address length => exact hmemory.ended_read address length
  | isValid address => exact iff_of_true (hmemory.ended_isValid address) (Or.inr trivial)
  | isEnd address => exact iff_of_true (hmemory.ended_isEnd address) (Or.inr trivial)
  | extent => exact iff_of_true hmemory.ended_extent (Or.inr trivial)

theorem Shows.session_asks (hmemory : memory.Shows stream dropped)
    (hqueries : ∀ query ∈ queries, query.Asks) :
    (Streaming.session Memory.answer memory queries).1.Shows stream dropped ∧
      (dropped = stream.size →
        ((Streaming.session Memory.answer memory queries).1.ended = true ↔
          memory.ended = true ∨ ∃ query ∈ queries, query.Looks)) := by
  induction queries generalizing memory with
  | nil => exact ⟨hmemory, fun _ => by simp [Streaming.session]⟩
  | cons query rest ih =>
      rw [List.forall_mem_cons] at hqueries
      obtain ⟨hlast, hended⟩ := ih (hmemory.noted_asks hqueries.1) hqueries.2
      refine ⟨hlast, ?_⟩
      rintro rfl
      rw [List.exists_mem_cons_iff, ← or_assoc, ← hmemory.ended_noted hqueries.1]
      exact hended rfl

theorem Shows.toldEnd_session_iff (hmemory : memory.Shows stream dropped)
    (hqueries : ∀ query ∈ queries, query.Asks) (address : Nat) :
    (Streaming.session Memory.answer memory queries).1.toldEnd address = memory.toldEnd address ↔
      ¬ (address = 0 ∧ dropped = stream.size ∧ memory.ended = false ∧
        ∃ query ∈ queries, query.Looks) := by
  obtain ⟨hlater, hended⟩ := hmemory.session_asks hqueries
  have hle : dropped ≤ stream.size := by
    rw [← hmemory.dropped]
    exact memory.dropped_le.trans hmemory.views.size_le
  rw [hlater.toldEnd, hmemory.toldEnd, Except.ok.injEq, Response.truth.injEq]
  by_cases hempty : address = 0 ∧ dropped = stream.size
  · obtain ⟨rfl, rfl⟩ := hempty
    have hover := hended rfl
    rw [Nat.sub_self]
    cases hbefore : memory.ended with
    | true =>
        rw [hover.mpr (Or.inl hbefore)]
        simp
    | false =>
        rw [hbefore] at hover
        simp only [Bool.false_eq_true, false_or] at hover
        rw [← hover]
        simp
  · refine iff_of_true ?_ fun hdiffers => hempty ⟨hdiffers.1, hdiffers.2.1⟩
    by_cases hzero : address = 0
    · have hsome : address ≠ stream.size - dropped := by
        have hleft : dropped ≠ stream.size := fun hall => hempty ⟨hzero, hall⟩
        omega
      rw [decide_eq_false hsome, Bool.false_and, Bool.false_and]
    · have hpositive : (address != 0) = true := bne_iff_ne.mpr hzero
      rw [hpositive, Bool.true_or, Bool.true_or]

end Shows

/-- After any requests, and whatever the source does, a question for the end of the object is
answered as it would have been before other questions, if it could be answered then or none of the
others failed. The only exception is address zero of an object that the other questions find to be
empty: that was not the end before, and is now.

Over a source that delivers a stream, an address is told to be the end if all bytes that have not
been dropped lie before it, and it is not zero or the end of the stream has been met. So questions
make a difference exactly if all bytes have been dropped, the end has not been met, and one of the
questions looks for an address. -/
theorem toldEnd_undisturbed_iff (source : σ) (requests : List Request) {queries : List Request}
    (hqueries : ∀ query ∈ queries, query.Asks) (address : Nat) :
    let memory := (session Memory.answer ({ source } : Memory σ) requests).1
    let later := (session Memory.answer memory queries).1
    ((∀ answered ∈ (session Memory.answer memory queries).2, answered.outcome.isOk = true) ∨
        (memory.toldEnd address).isOk = true →
      (later.toldEnd address = memory.toldEnd address ↔
        ¬ (address = 0 ∧ memory.objectSize = none ∧ later.objectSize = some 0))) ∧
    ∀ stream, Delivers stream source 0 → (∀ request ∈ requests, request.LeavesSize) →
      memory.toldEnd address = .ok (.truth
        (decide (address = stream.size - memory.dropped) && (address != 0 || memory.ended))) ∧
      (later.toldEnd address = memory.toldEnd address ↔
        ¬ (address = 0 ∧ memory.dropped = stream.size ∧ memory.ended = false ∧
          ∃ query ∈ queries, query.Looks)) := by
  intro memory later
  refine ⟨fun htold => ?_, fun stream hsource hrequests => ?_⟩
  · have hstart : Sane ({ source } : Memory σ) := ⟨fun _ => rfl⟩
    have hcontinues := (hstart.session requests).continues_session hqueries htold
    constructor
    · rintro hsame ⟨hzero, hempties⟩
      obtain ⟨hnow, hlater⟩ := hcontinues.differs hzero hempties
      rw [hsame.symm.trans hlater] at hnow
      cases hnow
    · exact hcontinues.same
  · have hmemory := (shows_start hsource).session hrequests
    rw [Nat.zero_add, ← hmemory.dropped] at hmemory
    exact ⟨hmemory.toldEnd address, hmemory.toldEnd_session_iff hqueries address⟩

theorem toldEnd_undisturbed_sampleReader :
    (∀ query ∈ [Request.isValid 5, .extent], query.Asks) ∧
    ∃ memory later : Memory Reader,
      (session Memory.answer ({ source := Sharing.sampleReader } : Memory Reader)
        [.drop 1]).1 = memory ∧
      (session Memory.answer memory [.isValid 5, .extent]).1 = later ∧
      memory.objectSize = none ∧ later.objectSize = some 3 ∧
      memory.toldEnd 3 = .ok (.truth true) ∧ later.toldEnd 3 = memory.toldEnd 3 := by
  have hqueries : ∀ query ∈ [Request.isValid 5, .extent], query.Asks := by decide
  obtain ⟨-, hstream⟩ := toldEnd_undisturbed_iff Sharing.sampleReader [.drop 1] hqueries 3
  obtain ⟨htold, hsame⟩ := hstream _ Sharing.steady_sampleReader.delivers (by decide)
  refine ⟨hqueries, _, _, rfl, rfl, rfl, by decide +kernel, htold, hsame.mpr ?_⟩
  exact fun hdiffers => absurd hdiffers.1 (by decide)

/-- Address zero of an empty stream is not the end when this is asked for the first time, and is the
end when it is asked again. -/
theorem toldEnd_disturbed_empty :
    (∀ query ∈ [Request.isEnd 0], query.Asks) ∧
    ∃ memory later : Memory Reader,
      (session Memory.answer ({ source := { bytes := #[] } } : Memory Reader) []).1 = memory ∧
      (session Memory.answer memory [.isEnd 0]).1 = later ∧
      memory.toldEnd 0 = .ok (.truth false) ∧ later.toldEnd 0 = .ok (.truth true) ∧
      later.toldEnd 0 ≠ memory.toldEnd 0 := by
  have hnow : ({ source := { bytes := #[] } } : Memory Reader).toldEnd 0 = .ok (.truth false) := by
    rfl
  have hlater : (session Memory.answer ({ source := { bytes := #[] } } : Memory Reader)
      [.isEnd 0]).1.toldEnd 0 = .ok (.truth true) := by
    rfl
  refine ⟨by decide, _, _, rfl, rfl, hnow, hlater, ?_⟩
  intro hsame
  cases hlater.symm.trans (hsame.trans hnow)

end Memory

end Bitcode.Streaming
