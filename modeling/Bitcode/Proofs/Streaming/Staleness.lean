import Bitcode.Proofs.Streaming.Laziness

namespace Bitcode.Streaming

/-- A request reads from one line, asks for an address or drops bytes. -/
def Request.IsUse : Request → Prop
  | .drop _ => True
  | request => request.IsQuery

instance (request : Request) : Decidable request.IsUse :=
  match request with
  | .drop _ => .isTrue trivial
  | .read address length => inferInstanceAs (Decidable (Request.read address length).IsQuery)
  | .isValid _ | .isEnd _ => .isTrue trivial
  | .setSize _ | .extent => .isFalse id

/-- A call was a drop, and has failed. -/
def Answered.failsDrop (answered : Answered) : Bool :=
  match answered.request, answered.outcome with
  | .drop _, .error _ => true
  | _, _ => false

/-- Two readers have had the same answer, if the question was for bytes or for a valid address. -/
def Answered.Agrees (cached direct : Answered) : Prop :=
  match cached.request with
  | .read _ _ | .isValid _ => cached = direct
  | _ => True

theorem Answered.agrees_read_iff {address length : Nat} {found other : Array UInt8} :
    Agrees ⟨.read address length, .ok (.bytes found)⟩ ⟨.read address length, .ok (.bytes other)⟩ ↔
      found = other := by
  simp [Agrees]

theorem Answered.agrees_isValid_iff {address : Nat} {value other : Bool} :
    Agrees ⟨.isValid address, .ok (.truth value)⟩ ⟨.isValid address, .ok (.truth other)⟩ ↔
      value = other := by
  simp [Agrees]

namespace Window

section Timely

variable {σ : Type}

/-- How many bytes had been dropped when the line was fetched that the cache has after a
request. -/
def originAfter (window : Window σ) (origin : Nat) : Request → Nat
  | .read address length =>
      if length = 0 ∨ addressLimit ≤ address + length ∨
        window.cache.covers address (address + length) then origin
      else window.memory.dropped
  | _ => origin

/-- A request gets no answer from the cache that a drop has made wrong: the bytes in the line are
those that the stream has there now, and an address below the bound is still one of the object. -/
def Current (stream : Array UInt8) (origin : Nat) (window : Window σ) : Request → Prop
  | .read address length => window.cache.covers address (address + length) →
      addressLimit ≤ address + length ∨
        stream.extract (origin + address) (origin + address + length) =
          stream.extract (window.memory.dropped + address)
            (window.memory.dropped + address + length)
  | .isValid address =>
      address < window.cache.minObjectSize → address < window.memory.objectEnd stream
  | _ => True

instance (stream : Array UInt8) (origin : Nat) (window : Window σ) (request : Request) :
    Decidable (window.Current stream origin request) :=
  match request with
  | .read _ _ => inferInstanceAs (Decidable (_ → _ ∨ _))
  | .isValid _ => inferInstanceAs (Decidable (_ → _))
  | .isEnd _ | .drop _ | .setSize _ | .extent => .isTrue trivial

theorem current_read_iff {stream : Array UInt8} {origin : Nat} {window : Window σ}
    {address length : Nat} :
    window.Current stream origin (.read address length) ↔
      addressLimit ≤ address + length ∨
        stream.extract (window.originAfter origin (.read address length) + address)
            (window.originAfter origin (.read address length) + address + length) =
          stream.extract (window.memory.dropped + address)
            (window.memory.dropped + address + length) := by
  simp only [Current, originAfter]
  split_ifs with hspared
  · constructor
    · intro hcurrent
      rcases hspared with rfl | hlimit | hcovers
      · right
        rw [Array.extract_eq_empty_of_le (by omega), Array.extract_eq_empty_of_le (by omega)]
      · exact Or.inl hlimit
      · exact hcurrent hcovers
    · intro hsame _
      exact hsame
  · constructor
    · intro _
      exact Or.inr rfl
    · intro _ hcovers
      exact (hspared (Or.inr (Or.inr hcovers))).elim

variable [Source σ]

/-- Every request of a sequence comes while what the cache has for it is current. -/
def Timely (stream : Array UInt8) (window : Window σ) (origin : Nat) : List Request → Prop
  | [] => True
  | request :: rest =>
      window.Current stream origin request ∧
        Timely stream (request.noted Window.answer window).1
          (window.originAfter origin request) rest

instance decidableTimely (stream : Array UInt8) (window : Window σ) (origin : Nat) :
    (requests : List Request) → Decidable (window.Timely stream origin requests)
  | [] => .isTrue trivial
  | request :: rest =>
      have := decidableTimely stream (request.noted Window.answer window).1
        (window.originAfter origin request) rest
      inferInstanceAs (Decidable (_ ∧ _))

end Timely

variable {σ : Type} [Source σ] {stream : Array UInt8} {origin : Nat} {window next : Window σ}

/-- A memory that shows a stream, behind a cache with a line of what the stream was like when only
`origin` bytes had been dropped. -/
structure Remembers (stream : Array UInt8) (origin : Nat) (window : Window σ) : Prop where
  memory : window.memory.Views stream
  cache : window.cache.Recalls (stream.extract origin stream.size)

/-- Of the memory of a window, only more has been fetched. -/
structure Keeps (stream : Array UInt8) (origin : Nat) (window next : Window σ) : Prop where
  remembers : next.Remembers stream origin
  dropped : next.memory.dropped = window.memory.dropped

theorem remembers_start {source : σ} (hsource : Delivers stream source 0) :
    Remembers stream 0 ({ memory := { source } } : Window σ) :=
  ⟨Memory.views_start hsource, Cache.recalls_empty _⟩

theorem Remembers.keeps (hwindow : window.Remembers stream origin) :
    Keeps stream origin window window :=
  ⟨hwindow, rfl⟩

theorem Remembers.fetched (hwindow : window.Remembers stream origin) {memory : Memory σ}
    (hmemory : Memory.Fetched stream window.memory memory) :
    Keeps stream origin window { window with memory } :=
  ⟨⟨hmemory.views, hwindow.cache⟩, hmemory.dropped⟩

theorem extract_extract_size (stream : Array UInt8) (origin start stop : Nat) :
    (stream.extract origin stream.size).extract start stop =
      stream.extract (origin + start) (origin + stop) := by
  rw [Array.extract_extract, Array.extract_eq_extract_right]
  omega

theorem Remembers.fetchLine (hwindow : window.Remembers stream origin)
    (hsize : stream.size < addressLimit) (address : Nat) :
    ∃ next, Window.fetchLine address window = .ok () next ∧
      Keeps stream window.memory.dropped window next ∧
      next.cache.base = some (Cache.lineStart address) := by
  obtain ⟨bytes, size, memory, hbytes, hfetch, -, hmemory⟩ :=
    fetchLine_eq hwindow.memory hsize address
  refine ⟨_, hfetch, ⟨⟨hmemory.views, Cache.Recalls.raise ?_ size⟩, hmemory.dropped⟩, rfl⟩
  apply Cache.recalls_load hwindow.cache.size (Nat.dvd_mul_left _ (address / Cache.lineSize))
  rw [hbytes, Cache.lineStart, extract_extract_size, Array.size_extract, Nat.min_self,
    Memory.objectEnd, Nat.add_assoc]

theorem Remembers.read (hwindow : window.Remembers stream origin)
    (hsize : stream.size < addressLimit) {address length : Nat}
    (hline : length = 0 ∨ Cache.lineStart address = Cache.lineStart (address + length - 1)) :
    ∃ next, Window.read address length window =
        .ok (if addressLimit ≤ address + length then #[]
          else stream.extract (window.originAfter origin (.read address length) + address)
            (window.originAfter origin (.read address length) + address + length)) next ∧
      Keeps stream (window.originAfter origin (.read address length)) window next := by
  have hbefore := Cache.lt_lineStart_add address
  have hstart := Cache.lineStart_le address
  have hlast := Cache.lt_lineStart_add (address + length - 1)
  rw [Window.read]
  dsimp only
  by_cases houtside : length = 0 ∨ addressLimit ≤ address + length
  · have horigin : window.originAfter origin (.read address length) = origin :=
      if_pos (houtside.imp_right Or.inl)
    rw [horigin, if_pos houtside]
    refine ⟨window, ?_, hwindow.keeps⟩
    split_ifs
    · rfl
    · rw [Array.extract_eq_empty_of_le (by omega)]
      rfl
  · rw [if_neg houtside, get_bind_apply, if_neg fun hlimit => houtside (Or.inr hlimit)]
    by_cases hcovers : window.cache.covers address (address + length) = true
    · have horigin : window.originAfter origin (.read address length) = origin :=
        if_pos (Or.inr (Or.inr hcovers))
      refine ⟨window, ?_, horigin.symm ▸ hwindow.keeps⟩
      rw [if_pos hcovers, horigin, Nat.add_assoc, ← extract_extract_size,
        ← hwindow.cache.serve hcovers]
      rfl
    · have horigin : window.originAfter origin (.read address length) = window.memory.dropped :=
        if_neg fun hspared => hspared.elim (houtside ∘ Or.inl)
          fun hspared => hspared.elim (houtside ∘ Or.inr) hcovers
      obtain ⟨next, hfetch, hnext, hbase⟩ := hwindow.fetchLine hsize address
      have hloaded : next.cache.covers address (address + length) = true := by
        simp only [Cache.covers, hbase, Option.any_some, decide_eq_true_eq]
        omega
      refine ⟨next, ?_, horigin.symm ▸ hnext⟩
      rw [if_neg hcovers, if_neg (by omega), bind_apply_of_ok hfetch, get_bind_apply, horigin,
        Nat.add_assoc, ← extract_extract_size, ← hnext.remembers.cache.serve hloaded]
      rfl

theorem Remembers.isValid (hwindow : window.Remembers stream origin) (address : Nat) :
    ∃ next, Window.isValid address window =
        .ok (decide (address < window.cache.minObjectSize ∨
          address < window.memory.objectEnd stream)) next ∧ Keeps stream origin window next := by
  obtain ⟨memory, hvalid, hmemory⟩ := hwindow.memory.isValid address
  have hnext := hwindow.fetched hmemory
  rw [Window.isValid, get_bind_apply]
  split_ifs with hknown
  · refine ⟨window, ?_, hwindow.keeps⟩
    rw [decide_eq_true (Or.inl hknown)]
    rfl
  · rw [bind_apply_of_ok (onMemory_of_ok hvalid)]
    by_cases hinside : address < window.memory.objectEnd stream
    · rw [decide_eq_true hinside, decide_eq_true (Or.inr hinside)]
      exact ⟨_, rfl, ⟨hnext.remembers.memory, hwindow.cache.raise _⟩, hnext.dropped⟩
    · rw [decide_eq_false hinside, decide_eq_false (not_or.mpr ⟨hknown, hinside⟩)]
      exact ⟨_, rfl, hnext⟩

theorem Remembers.isEnd (hwindow : window.Remembers stream origin) (address : Nat) :
    ∃ value next, Window.isEnd address window = .ok value next ∧
      Keeps stream origin window next := by
  obtain ⟨value, memory, hend, hmemory⟩ := hwindow.memory.isEnd address
  exact ⟨value, _, onMemory_of_ok hend, hwindow.fetched hmemory⟩

theorem Remembers.drop (hwindow : window.Remembers stream origin) (count : Nat) :
    (∃ cause, Window.drop count window = .error cause window) ∨
      ∃ next, Window.drop count window = .ok () next ∧ next.Remembers stream origin ∧
        next.memory.dropped = window.memory.dropped + count := by
  by_cases hcount : window.memory.bytesRead < count
  · refine Or.inl ⟨.dropPastRead count window.memory.bytesRead, ?_⟩
    rw [Window.drop, onMemory, Memory.drop, dif_pos hcount]
  -- The line outlasts the drop, with the origin that it has.
  · refine Or.inr ⟨_, onMemory_of_ok (dif_neg hcount), ⟨?_, hwindow.cache⟩, rfl⟩
    exact hwindow.memory.drop (Nat.le_of_not_lt hcount)

section Agreement

variable {τ : Type} [Source τ] {memory : Memory τ} {request : Request}

theorem Remembers.noted (hwindow : window.Remembers stream origin)
    (hmemory : memory.Shows stream window.memory.dropped) (hsize : stream.size < addressLimit)
    (huse : request.IsUse)
    (hcached : (request.noted Window.answer window).2.failsDrop = false)
    (hdirect : (request.noted Memory.answer memory).2.failsDrop = false) :
    ((request.noted Window.answer window).2.Agrees (request.noted Memory.answer memory).2 ↔
        window.Current stream origin request) ∧
      (request.noted Window.answer window).1.Remembers stream (window.originAfter origin request) ∧
      (request.noted Memory.answer memory).1.Shows stream
        (request.noted Window.answer window).1.memory.dropped := by
  cases request with
  | read address length =>
      obtain ⟨next, hread, hnext⟩ := hwindow.read hsize huse
      obtain ⟨after, hfound, hafter, -⟩ := hmemory.read address length
      rw [Request.noted_of_ok .bytes rfl hread, Request.noted_of_ok .bytes rfl hfound]
      refine ⟨?_, hnext.remembers, hnext.dropped ▸ hafter⟩
      rw [Answered.agrees_read_iff, current_read_iff]
      split_ifs with hlimit
      · exact iff_of_true rfl (Or.inl hlimit)
      · have hfound : stream.extract (window.memory.dropped + address)
            (min (window.memory.dropped + address + length) stream.size) =
              stream.extract (window.memory.dropped + address)
                (window.memory.dropped + address + length) :=
          Array.extract_eq_extract_right.mpr (by omega)
        rw [or_iff_right hlimit, hfound]
  | isValid address =>
      obtain ⟨next, hvalid, hnext⟩ := hwindow.isValid address
      obtain ⟨after, hfound, hafter, -⟩ := hmemory.isValid address
      rw [Request.noted_of_ok .truth rfl hvalid, Request.noted_of_ok .truth rfl hfound]
      refine ⟨?_, hnext.remembers, hnext.dropped ▸ hafter⟩
      rw [Answered.agrees_isValid_iff, ← Memory.objectEnd, decide_eq_decide, or_iff_right_iff_imp]
      exact Iff.rfl
  | isEnd address =>
      obtain ⟨value, next, hend, hnext⟩ := hwindow.isEnd address
      obtain ⟨other, after, hfound, hafter⟩ := hmemory.isEnd address
      rw [Request.noted_of_ok .truth rfl hend, Request.noted_of_ok .truth rfl hfound]
      exact ⟨Iff.rfl, hnext.remembers, hnext.dropped ▸ hafter⟩
  | drop count =>
      rcases hwindow.drop count with ⟨cause, hfails⟩ | ⟨next, hdrop, hnext, hdropped⟩
      · rw [Request.noted_of_error (fun _ => .done) rfl hfails] at hcached
        cases hcached
      rcases hmemory.drop count with ⟨-, hfails⟩ | ⟨-, after, hfound, hafter⟩
      · rw [Request.noted_of_error (fun _ => .done) rfl hfails] at hdirect
        cases hdirect
      rw [Request.noted_of_ok (fun _ => .done) rfl hdrop,
        Request.noted_of_ok (fun _ => .done) rfl hfound]
      exact ⟨Iff.rfl, hnext, hdropped ▸ hafter⟩
  | setSize size => exact huse.elim
  | extent => exact huse.elim

theorem Remembers.session (hwindow : window.Remembers stream origin)
    (hmemory : memory.Shows stream window.memory.dropped) (hsize : stream.size < addressLimit)
    {requests : List Request} (huse : ∀ request ∈ requests, request.IsUse)
    (hcached : ∀ answered ∈ (session Window.answer window requests).2, answered.failsDrop = false)
    (hdirect : ∀ answered ∈ (session Memory.answer memory requests).2,
      answered.failsDrop = false) :
    List.Forall₂ Answered.Agrees (session Window.answer window requests).2
        (session Memory.answer memory requests).2 ↔
      window.Timely stream origin requests := by
  -- The origin changes with every line fetched, the number of dropped bytes with every drop.
  induction requests generalizing window memory origin with
  | nil => exact iff_of_true List.Forall₂.nil trivial
  | cons request rest ih =>
      simp only [Streaming.session, List.forall_mem_cons] at huse hcached hdirect
      obtain ⟨hagrees, hnext, hafter⟩ := hwindow.noted hmemory hsize huse.1 hcached.1 hdirect.1
      simp only [Streaming.session, List.forall₂_cons, Timely]
      rw [hagrees, ih hnext hafter huse.2 hcached.2 hdirect.2]

/-- Whoever reads through a cache of their own gets the bytes and the answers on addresses that they
would get without it, over any sequence with drops that succeed, exactly if the requests are timely.
A drop leaves the line and the bound of the cache as they were. -/
theorem session_agrees_iff {source : σ} {other : τ} (hsource : Delivers stream source 0)
    (hother : Delivers stream other 0) (hsize : stream.size < addressLimit)
    {requests : List Request} (huse : ∀ request ∈ requests, request.IsUse)
    (hcached : ∀ answered ∈ (Streaming.session Window.answer { memory := { source } } requests).2,
      answered.failsDrop = false)
    (hdirect : ∀ answered ∈ (Streaming.session Memory.answer { source := other } requests).2,
      answered.failsDrop = false) :
    List.Forall₂ Answered.Agrees
        (Streaming.session Window.answer { memory := { source } } requests).2
        (Streaming.session Memory.answer { source := other } requests).2 ↔
      Timely stream ({ memory := { source } } : Window σ) 0 requests :=
  (remembers_start hsource).session (Memory.shows_start hother) hsize huse hcached hdirect

def sampleMemory : Memory Reader := { source := Sharing.sampleReader }

def sampleWindow : Window Reader := { memory := sampleMemory }

theorem session_agrees_sampleReader :
    Timely #[7, 8, 9] sampleWindow 0 [.isEnd 3, .drop 1, .read 0 2, .drop 1, .isValid 0] ∧
      List.Forall₂ Answered.Agrees
        (Streaming.session Window.answer sampleWindow
          [.isEnd 3, .drop 1, .read 0 2, .drop 1, .isValid 0]).2
        (Streaming.session Memory.answer sampleMemory
          [.isEnd 3, .drop 1, .read 0 2, .drop 1, .isValid 0]).2 := by
  have hdelivers := Sharing.steady_sampleReader.delivers
  have htimely : Timely #[7, 8, 9] sampleWindow 0
      [.isEnd 3, .drop 1, .read 0 2, .drop 1, .isValid 0] := by decide +kernel
  refine ⟨htimely, (session_agrees_iff hdelivers hdelivers ?_ ?_ ?_ ?_).mpr htimely⟩
  · decide
  · decide
  · decide +kernel
  · decide +kernel

/-- One byte of three is dropped, and the first address is read before and after. The cache gives
the same byte twice. -/
theorem session_disagrees_sampleReader :
    (∀ answered ∈ (Streaming.session Window.answer sampleWindow
        [.read 0 1, .drop 1, .read 0 1]).2, answered.failsDrop = false) ∧
    (∀ answered ∈ (Streaming.session Memory.answer sampleMemory
        [.read 0 1, .drop 1, .read 0 1]).2, answered.failsDrop = false) ∧
    ¬ List.Forall₂ Answered.Agrees
      (Streaming.session Window.answer sampleWindow [.read 0 1, .drop 1, .read 0 1]).2
      (Streaming.session Memory.answer sampleMemory [.read 0 1, .drop 1, .read 0 1]).2 := by
  have hdelivers := Sharing.steady_sampleReader.delivers
  have hcached : ∀ answered ∈ (Streaming.session Window.answer sampleWindow
      [.read 0 1, .drop 1, .read 0 1]).2, answered.failsDrop = false := by decide +kernel
  have hdirect : ∀ answered ∈ (Streaming.session Memory.answer sampleMemory
      [.read 0 1, .drop 1, .read 0 1]).2, answered.failsDrop = false := by decide +kernel
  have hlate : ¬ Timely #[7, 8, 9] sampleWindow 0 [.read 0 1, .drop 1, .read 0 1] := by
    decide +kernel
  -- The answers are not compared themselves: their bytes would be read out of a whole line.
  refine ⟨hcached, hdirect, fun hagrees => hlate ?_⟩
  exact ((remembers_start hdelivers).session (Memory.shows_start hdelivers) (by decide)
    (by decide) hcached hdirect).mp hagrees

end Agreement

end Window

end Bitcode.Streaming
