import Bitcode.Proofs.Streaming.Laziness

namespace Bitcode.Streaming

/-- What has been stated about a stream. -/
structure Terms where
  /-- The size that was stated last, less what has been dropped since. -/
  stated : Option Nat := none
  /-- How much of the stream was there when a stated size put an end to fetching. -/
  frozen : Option Nat := none
  deriving DecidableEq

namespace Terms

variable {σ : Type}

/-- What has been stated after a request. -/
def after (terms : Terms) (memory : Memory σ) : Request → Terms
  | .setSize size =>
      { stated := some size
        frozen := if size ≤ memory.bytesRead then some (terms.frozen.getD memory.bytes.size)
          else terms.frozen }
  | .drop count =>
      if count ≤ memory.bytesRead then { terms with stated := terms.stated.map (· - count) }
      else terms
  | _ => terms

/-- How many bytes can be read, if so many have been dropped. -/
def readable (terms : Terms) (stream : Array UInt8) (dropped : Nat) : Nat :=
  terms.frozen.getD stream.size - dropped

/-- How many addresses are valid, if so many bytes have been dropped. -/
def announced (terms : Terms) (stream : Array UInt8) (dropped : Nat) : Nat :=
  terms.stated.getD (stream.size - dropped)

end Terms

namespace Memory

variable {σ : Type} [Source σ] {stream : Array UInt8} {terms : Terms} {dropped : Nat}
  {memory next : Memory σ}

/-- What has been stated after requests. -/
def termsIn (terms : Terms) (memory : Memory σ) : List Request → Terms
  | [] => terms
  | request :: rest =>
      termsIn (terms.after memory request) (request.noted Memory.answer memory).1 rest

/-- A memory holds the first bytes of a stream, and more can be fetched until all of it is there or
what has been stated puts an end to fetching. -/
structure Bounded (stream : Array UInt8) (terms : Terms) (dropped : Nat) (memory : Memory σ) :
    Prop where
  bytes : memory.bytes = stream.extract 0 memory.bytes.size
  dropped : memory.dropped = dropped
  source : memory.ended = false → Delivers stream memory.source memory.bytes.size
  thawed : memory.ended = false → terms.frozen = none
  ended : memory.ended = true → memory.bytes.size = terms.frozen.getD stream.size
  objectSize : memory.objectSize =
    terms.stated.or (if memory.ended then some (stream.size - memory.dropped) else none)
  unstated : terms.stated = none → terms.frozen = none

theorem bounded_start {source : σ} (hsource : Delivers stream source 0) :
    Bounded stream {} 0 ({ source } : Memory σ) where
  bytes := by simp
  dropped := rfl
  source _ := hsource
  thawed _ := rfl
  ended hended := by cases hended
  objectSize := rfl
  unstated _ := rfl

omit [Source σ] in
theorem absorb_unsized (memory : Memory σ) (chunk : Array UInt8) :
    ∃ next, absorb { memory with objectSize := none } chunk = next ∧
      memory.absorb chunk = { next with objectSize := memory.objectSize.or next.objectSize } := by
  refine ⟨_, rfl, ?_⟩
  unfold absorb extend
  cases memory.objectSize with
  | none => split_ifs <;> rfl
  | some size => split_ifs <;> rfl

theorem fetchChunk_of_unsized
    (hchunk : fetchChunk { memory with objectSize := none } = .ok () next) :
    fetchChunk memory =
      .ok () { next with objectSize := memory.objectSize.or next.objectSize } := by
  unfold fetchChunk at hchunk ⊢
  dsimp only at hchunk
  cases hpull : (Source.pull chunkSize : EStateM Error σ _) memory.source with
  | error cause source =>
      rw [hpull] at hchunk
      cases hchunk
  | ok chunk source =>
      rw [hpull] at hchunk
      obtain ⟨last, hlast, habsorb⟩ := absorb_unsized { memory with source } chunk
      obtain rfl : last = next := hlast.symm.trans (EStateM.Result.ok.inj hchunk).2
      dsimp only
      rw [habsorb]

section Bounded

theorem Bounded.fetchChunk (hmemory : memory.Bounded stream terms dropped)
    (hopen : memory.ended = false) :
    ∃ next, Memory.fetchChunk memory = .ok () next ∧ next.Bounded stream terms dropped ∧
      (next.ended = true ∨ memory.bytes.size < next.bytes.size) := by
  have hobject := hmemory.objectSize
  rw [hopen] at hobject
  have hunsized : Views stream { memory with objectSize := none } := by
    refine ⟨hmemory.bytes, fun hended => ?_, hmemory.source, ?_⟩
    · rw [hopen] at hended
      cases hended
    · rw [hopen]
      rfl
  obtain ⟨next, hchunk, hnext, hprogress⟩ := hunsized.fetchChunk hopen
  refine ⟨_, fetchChunk_of_unsized hchunk, ?_, hprogress⟩
  have hviews := hnext.views
  have hthawed := hmemory.thawed hopen
  refine ⟨hviews.bytes, hnext.dropped.trans hmemory.dropped, hviews.source,
    fun _ => hthawed, ?_, ?_, hmemory.unstated⟩
  · intro hended
    rw [hthawed]
    exact hviews.ended hended
  · dsimp only
    rw [hobject, hviews.objectSize]
    cases terms.stated <;> rfl

theorem Bounded.size_le (hmemory : memory.Bounded stream terms dropped) :
    memory.bytes.size ≤ terms.frozen.getD stream.size ∧
      terms.frozen.getD stream.size ≤ stream.size := by
  have hsize := congrArg Array.size hmemory.bytes
  rw [Array.size_extract] at hsize
  cases hended : memory.ended with
  | true =>
      have hall := hmemory.ended hended
      omega
  | false =>
      rw [hmemory.thawed hended, Option.getD_none]
      omega

theorem Bounded.fetchWithin {address : Nat} (chunks : Nat)
    (hmemory : memory.Bounded stream terms dropped)
    (hchunks : 1 ≤ chunks ∧ (memory.ended = true ∨ address + 2 ≤ memory.bytesRead + chunks)) :
    ∃ next, Memory.fetchWithin address chunks memory =
        .ok (decide (address < next.bytesRead) && next.within address) next ∧
      next.Bounded stream terms dropped ∧ (address < next.bytesRead ∨ next.ended = true) := by
  induction chunks generalizing memory with
  | zero => omega
  | succ chunks ih =>
      rw [Memory.fetchWithin, get_bind_apply]
      split_ifs with haddress hended
      · refine ⟨memory, ?_, hmemory, Or.inl haddress⟩
        rw [decide_eq_true haddress]
        rfl
      · refine ⟨memory, ?_, hmemory, Or.inr hended⟩
        rw [decide_eq_false haddress]
        rfl
      · rw [Bool.not_eq_true] at hended
        obtain ⟨between, hfetch, hbetween, hprogress⟩ := hmemory.fetchChunk hended
        have hmore : 1 ≤ chunks ∧
            (between.ended = true ∨ address + 2 ≤ between.bytesRead + chunks) := by
          have hle := memory.dropped_le
          simp only [hended, Bool.false_eq_true, false_or, bytesRead_eq] at hchunks haddress
          refine ⟨by omega, hprogress.imp_right fun hgrown => ?_⟩
          rw [bytesRead_eq, hbetween.dropped, ← hmemory.dropped]
          omega
        obtain ⟨next, hnext, hbounded, hreached⟩ := ih hbetween hmore
        exact ⟨next, (bind_apply_of_ok hfetch).trans hnext, hbounded, hreached⟩

theorem Bounded.fetchTo (hmemory : memory.Bounded stream terms dropped) (address : Nat) :
    ∃ next, Memory.fetchTo address memory =
        .ok (decide (address < next.bytesRead) && next.within address) next ∧
      next.Bounded stream terms dropped ∧ (address < next.bytesRead ∨ next.ended = true) :=
  hmemory.fetchWithin (address + 2) ⟨by omega, Or.inr (by omega)⟩

/-- A read asks neither for the size that was stated nor for the one that was found. -/
theorem Bounded.read (hmemory : memory.Bounded stream terms dropped) (address length : Nat) :
    ∃ next, Memory.read address length memory =
        .ok (if addressLimit ≤ address + length then #[]
          else stream.extract (dropped + address)
            (dropped + min (address + length) (terms.readable stream dropped))) next ∧
      next.Bounded stream terms dropped := by
  by_cases hlimit : addressLimit ≤ address + length
  · refine ⟨memory, ?_, hmemory⟩
    rw [Memory.read, if_pos (Or.inr hlimit), if_pos hlimit]
    rfl
  rw [if_neg hlimit]
  by_cases hlength : length = 0
  · refine ⟨memory, ?_, hmemory⟩
    rw [Memory.read, if_pos (Or.inl hlength), Array.extract_eq_empty_of_le (by omega)]
    rfl
  obtain ⟨next, hfetch, hnext, hreached⟩ := hmemory.fetchTo (address + length - 1)
  refine ⟨next, ?_, hnext⟩
  rw [Memory.read, if_neg (by omega), bind_apply_of_ok (discard_eq_ok hfetch), get_bind_apply]
  have hfound : next.bytes.extract (next.dropped + address)
      (next.dropped + min (address + length) next.bytesRead) =
        stream.extract (dropped + address)
          (dropped + min (address + length) (terms.readable stream dropped)) := by
    obtain ⟨hheld, hreadable⟩ := hnext.size_le
    have hle := next.dropped_le
    have hended := hnext.ended
    rw [hnext.bytes, Array.extract_extract, Nat.zero_add, ← hnext.dropped,
      Array.extract_eq_extract_right]
    simp only [bytesRead_eq, Terms.readable] at hreached ⊢
    rcases hreached with hreached | hreached
    · omega
    · have hall := hended hreached
      omega
  rw [hfound]
  rfl

theorem Bounded.isValid (hmemory : memory.Bounded stream terms dropped) (address : Nat) :
    ∃ next, Memory.isValid address memory =
        .ok (decide (address < terms.announced stream dropped)) next ∧
      next.Bounded stream terms dropped := by
  obtain ⟨next, hfetch, hnext, hreached⟩ := hmemory.fetchTo address
  have hobject := hmemory.objectSize
  have hnextObject := hnext.objectSize
  rw [Memory.isValid, get_bind_apply, Terms.announced]
  cases hstated : terms.stated with
  | some size =>
      rw [hstated, Option.some_or] at hobject hnextObject
      rw [hobject, Option.any_some]
      split_ifs with hknown
      · refine ⟨memory, ?_, hmemory⟩
        rw [Option.getD_some, hknown]
        rfl
      · refine ⟨next, ?_, hnext⟩
        rw [hfetch, Memory.within, hnextObject, Option.all_some, Option.getD_some,
          Bool.eq_false_of_not_eq_true hknown, Bool.and_false]
  | none =>
      -- Nothing was stated, so only the end of the stream ends fetching.
      have hfrozen := hmemory.unstated hstated
      obtain ⟨hheld, -⟩ := hnext.size_le
      have hended := hnext.ended
      have hdropped := hnext.dropped
      rw [hfrozen, Option.getD_none] at hheld hended
      rw [hstated, Option.none_or] at hobject hnextObject
      rw [hmemory.dropped] at hobject
      rw [hdropped] at hnextObject
      rw [Option.getD_none]
      by_cases hknown : memory.objectSize.any (address < ·) = true
      · rw [if_pos hknown]
        refine ⟨memory, ?_, hmemory⟩
        rw [hobject] at hknown
        split_ifs at hknown
        · rw [Option.any_some] at hknown
          rw [hknown]
          rfl
        · cases hknown
      · rw [if_neg hknown]
        refine ⟨next, ?_, hnext⟩
        rw [hfetch, Memory.within, hnextObject]
        simp only [bytesRead_eq, hdropped] at hreached ⊢
        rcases hreached with hreached | hreached
        · rw [decide_eq_true hreached, decide_eq_true (by omega)]
          split_ifs
          · rw [Option.all_some, decide_eq_true (by omega)]
            rfl
          · rfl
        · rw [if_pos hreached, Option.all_some, hended hreached, Bool.and_self]

theorem Bounded.isEnd (hmemory : memory.Bounded stream terms dropped) (address : Nat) :
    ∃ value next, Memory.isEnd address memory = .ok value next ∧
      next.Bounded stream terms dropped := by
  obtain ⟨next, hfetch, hnext, -⟩ := hmemory.fetchTo address
  rw [Memory.isEnd, get_bind_apply]
  cases memory.objectSize with
  | some size => exact ⟨_, memory, rfl, hmemory⟩
  | none =>
      refine ⟨next.objectSize == some address && address != 0, next, ?_, hnext⟩
      dsimp only
      rw [bind_apply_of_ok (discard_eq_ok hfetch), get_bind_apply]
      rfl

theorem Bounded.fetchAll (chunks address : Nat) (hmemory : memory.Bounded stream terms dropped) :
    ∃ next, Memory.fetchAll chunks address memory = .ok () next ∧
      next.Bounded stream terms dropped := by
  induction chunks generalizing memory address with
  | zero => exact ⟨memory, rfl, hmemory⟩
  | succ chunks ih =>
      obtain ⟨between, hfetch, hbetween, -⟩ := hmemory.fetchTo address
      rw [Memory.fetchAll, bind_apply_of_ok hfetch]
      split_ifs
      · exact ih _ hbetween
      · exact ⟨between, rfl, hbetween⟩

theorem Bounded.extent (hmemory : memory.Bounded stream terms dropped) :
    ∃ value next, Memory.extent memory = .ok value next ∧ next.Bounded stream terms dropped := by
  rw [Memory.extent, get_bind_apply]
  cases memory.objectSize with
  | some size => exact ⟨size, memory, rfl, hmemory⟩
  | none =>
      obtain ⟨next, hfetch, hnext⟩ := hmemory.fetchAll _ _
      exact ⟨_, next, bind_apply_of_ok hfetch, hnext⟩

theorem Bounded.drop (hmemory : memory.Bounded stream terms dropped) {count : Nat}
    (hcount : count ≤ memory.bytesRead) :
    Bounded stream { terms with stated := terms.stated.map (· - count) } (dropped + count)
      (memory.advance count hcount) where
  bytes := hmemory.bytes
  dropped := congrArg (· + count) hmemory.dropped
  source := hmemory.source
  thawed := hmemory.thawed
  ended := hmemory.ended
  objectSize := by
    simp only [advance, hmemory.objectSize, Option.map_or]
    cases memory.ended with
    | true => simp only [if_true, Option.map_some, Nat.sub_sub]
    | false => rfl
  unstated hstated := hmemory.unstated (Option.map_eq_none_iff.mp hstated)

theorem Bounded.setSize (hmemory : memory.Bounded stream terms dropped) (size : Nat) :
    (memory.setSize size).Bounded stream (terms.after memory (.setSize size)) dropped where
  bytes := hmemory.bytes
  dropped := hmemory.dropped
  source hopen := hmemory.source (Bool.or_eq_false_iff.mp hopen).1
  thawed hopen := by
    obtain ⟨hopen, hmore⟩ := Bool.or_eq_false_iff.mp hopen
    rw [Terms.after, if_neg (of_decide_eq_false hmore)]
    exact hmemory.thawed hopen
  ended hended := by
    change memory.bytes.size = _
    rw [Terms.after]
    cases hbefore : memory.ended with
    | true =>
        have hall := hmemory.ended hbefore
        split_ifs
        · rw [Option.getD_some, hall]
          cases terms.frozen <;> rfl
        · exact hall
    | false =>
        have hless : size ≤ memory.bytesRead := by
          rw [Memory.setSize, hbefore] at hended
          exact of_decide_eq_true hended
        rw [if_pos hless, hmemory.thawed hbefore]
        rfl
  objectSize := rfl
  unstated hstated := by cases hstated

theorem Bounded.noted (hmemory : memory.Bounded stream terms dropped) (request : Request) :
    (request.noted Memory.answer memory).1.Bounded stream (terms.after memory request)
      (dropped + (request.noted Memory.answer memory).2.dropped) := by
  cases request with
  | read address length =>
      obtain ⟨next, hread, hnext⟩ := hmemory.read address length
      rw [Request.noted_of_ok .bytes rfl hread]
      exact hnext
  | isValid address =>
      obtain ⟨next, hvalid, hnext⟩ := hmemory.isValid address
      rw [Request.noted_of_ok .truth rfl hvalid]
      exact hnext
  | isEnd address =>
      obtain ⟨value, next, hend, hnext⟩ := hmemory.isEnd address
      rw [Request.noted_of_ok .truth rfl hend]
      exact hnext
  | extent =>
      obtain ⟨value, next, hextent, hnext⟩ := hmemory.extent
      rw [Request.noted_of_ok .size rfl hextent]
      exact hnext
  | setSize size => exact hmemory.setSize size
  | drop count =>
      rw [Terms.after]
      split_ifs with hcount
      · have hdrop : Memory.drop count memory = .ok () _ := dif_neg (Nat.not_lt.mpr hcount)
        rw [Request.noted_of_ok (fun _ => .done) rfl hdrop]
        exact hmemory.drop hcount
      · have hdrop : Memory.drop count memory = .error _ memory := dif_pos (Nat.lt_of_not_le hcount)
        rw [Request.noted_of_error (fun _ => .done) rfl hdrop]
        exact hmemory

theorem Bounded.session (hmemory : memory.Bounded stream terms dropped) (requests : List Request) :
    (session Memory.answer memory requests).1.Bounded stream (termsIn terms memory requests)
      (dropped + droppedIn (session Memory.answer memory requests).2) := by
  induction requests generalizing memory terms dropped with
  | nil => exact hmemory
  | cons request rest ih =>
      have hrest := ih (hmemory.noted request)
      rw [Nat.add_assoc] at hrest
      exact hrest

theorem Bounded.size_found (hmemory : memory.Bounded stream terms dropped) (address length : Nat) :
    (stream.extract (dropped + address)
        (dropped + min (address + length) (terms.readable stream dropped))).size =
      min (address + length) (terms.readable stream dropped) - address := by
  obtain ⟨hheld, hreadable⟩ := hmemory.size_le
  have hle := memory.dropped_le
  rw [hmemory.dropped] at hle
  rw [Array.size_extract, Terms.readable]
  omega

theorem Bounded.agrees_iff (hmemory : memory.Bounded stream terms dropped)
    (hreadable : terms.readable stream dropped < addressLimit)
    (hannounced : terms.announced stream dropped < addressLimit) :
    (∀ address length, length ≠ 0 → address + length < addressLimit →
      ∃ found next last, Memory.read address length memory = .ok found next ∧
        Memory.isValid address memory = .ok (decide (found.size ≠ 0)) last) ↔
      terms.readable stream dropped = terms.announced stream dropped := by
  have hboth : ∀ address length, length ≠ 0 → address + length < addressLimit →
      ((∃ found next last, Memory.read address length memory = .ok found next ∧
          Memory.isValid address memory = .ok (decide (found.size ≠ 0)) last) ↔
        (address < terms.readable stream dropped ↔ address < terms.announced stream dropped)) := by
    intro address length hlength hlimit
    obtain ⟨next, hread, -⟩ := hmemory.read address length
    obtain ⟨last, hvalid, -⟩ := hmemory.isValid address
    have hsize := hmemory.size_found address length
    rw [if_neg (Nat.not_le.mpr hlimit)] at hread
    have hfound : (stream.extract (dropped + address)
        (dropped + min (address + length) (terms.readable stream dropped))).size ≠ 0 ↔
          address < terms.readable stream dropped := by
      rw [hsize]
      omega
    constructor
    · rintro ⟨found, other, final, hother, hfinal⟩
      obtain ⟨rfl, -⟩ := EStateM.Result.ok.inj (hread.symm.trans hother)
      have hsame := (EStateM.Result.ok.inj (hvalid.symm.trans hfinal)).1
      rw [decide_eq_decide, hfound] at hsame
      exact hsame.symm
    · intro hsame
      refine ⟨_, next, last, hread, ?_⟩
      rw [hvalid, decide_eq_decide.mpr (hsame.symm.trans hfound.symm)]
  constructor
  · -- At the smaller of the two numbers, one of them speaks for a byte and the other does not.
    intro hagrees
    by_contra hne
    have hmin := hagrees (min (terms.readable stream dropped) (terms.announced stream dropped)) 1
      (by decide) (by omega)
    rw [hboth _ 1 (by decide) (by omega)] at hmin
    omega
  · intro hsame address length hlength hlimit
    rw [hboth address length hlength hlimit, hsame]

theorem Bounded.inside_iff (hmemory : memory.Bounded stream terms dropped)
    (hreadable : terms.readable stream dropped < addressLimit) :
    (∀ address length found next, Memory.read address length memory = .ok found next →
      found.size ≠ 0 → address + found.size ≤ terms.announced stream dropped) ↔
      terms.readable stream dropped ≤ terms.announced stream dropped := by
  constructor
  · intro hinside
    by_contra hless
    obtain ⟨next, hread, -⟩ := hmemory.read (terms.announced stream dropped) 1
    have hsize := hmemory.size_found (terms.announced stream dropped) 1
    rw [if_neg (by omega)] at hread
    have hpast := hinside _ _ _ _ hread (by rw [hsize]; omega)
    rw [hsize] at hpast
    omega
  · intro hle address length found last hfound hsome
    obtain ⟨next, hread, -⟩ := hmemory.read address length
    have hsize := hmemory.size_found address length
    obtain ⟨rfl, -⟩ := EStateM.Result.ok.inj (hread.symm.trans hfound)
    split_ifs at hsome ⊢
    · exact absurd rfl hsome
    · rw [hsize] at hsome ⊢
      omega

end Bounded

end Memory

/-- All that was stated is right. -/
structure Terms.Right (stream : Array UInt8) (dropped : Nat) (terms : Terms) : Prop where
  stated : ∀ size, terms.stated = some size → size = stream.size - dropped
  frozen : ∀ count, terms.frozen = some count → count = stream.size

theorem Terms.Right.readable_eq {stream : Array UInt8} {dropped : Nat} {terms : Terms}
    (hterms : terms.Right stream dropped) :
    terms.readable stream dropped = terms.announced stream dropped := by
  have hfrozen : terms.frozen.getD stream.size = stream.size := by
    cases hcount : terms.frozen with
    | none => rfl
    | some count => exact hterms.frozen count hcount
  have hstated : terms.stated.getD (stream.size - dropped) = stream.size - dropped := by
    cases hsize : terms.stated with
    | none => rfl
    | some size => exact hterms.stated size hsize
  rw [readable, announced, hfrozen, hstated]

namespace Memory

variable {σ : Type} [Source σ] {stream : Array UInt8} {terms : Terms} {dropped : Nat}
  {memory : Memory σ}

/-- Every size that is stated is the number of bytes that have not been dropped. -/
def Accurate (stream : Array UInt8) (memory : Memory σ) : List Request → Prop
  | [] => True
  | request :: rest =>
      (∀ size, request = .setSize size → size = stream.size - memory.dropped) ∧
        Accurate stream (request.noted Memory.answer memory).1 rest

omit [Source σ] in
theorem dropped_noted {answer : Request → EStateM Error σ Response} {state : σ} {request : Request}
    (hrequest : ∀ count, request ≠ .drop count) : (request.noted answer state).2.dropped = 0 := by
  unfold Request.noted
  cases request with
  | drop count => exact absurd rfl (hrequest count)
  | read | isValid | isEnd | setSize | extent => split <;> rfl

theorem Bounded.right_after (hmemory : memory.Bounded stream terms dropped)
    (hterms : terms.Right stream dropped) {request : Request}
    (hrequest : ∀ size, request = .setSize size → size = stream.size - memory.dropped) :
    (terms.after memory request).Right stream
      (dropped + (request.noted Memory.answer memory).2.dropped) := by
  cases request with
  | read | isValid | isEnd | extent =>
      rw [dropped_noted (by simp)]
      exact hterms
  | setSize size =>
      rw [dropped_noted (by simp)]
      have hsize := hrequest size rfl
      rw [hmemory.dropped] at hsize
      refine ⟨fun other hother => (Option.some.inj hother).symm.trans hsize, fun count hcount => ?_⟩
      rw [Terms.after] at hcount
      split_ifs at hcount with hread
      · obtain rfl := Option.some.inj hcount
        cases hfrozen : terms.frozen with
        | some count => exact hterms.frozen count hfrozen
        | none =>
            -- All that is left has been read, so all of the stream is there.
            obtain ⟨hheld, hall⟩ := hmemory.size_le
            have hle := memory.dropped_le
            rw [bytesRead_eq, hmemory.dropped] at hread
            rw [hmemory.dropped] at hle
            rw [Option.getD_none]
            omega
      · exact hterms.frozen count hcount
  | drop count =>
      rw [Terms.after]
      split_ifs with hcount
      · have hdrop : Memory.drop count memory = .ok () _ := dif_neg (Nat.not_lt.mpr hcount)
        rw [Request.noted_of_ok (fun _ => .done) rfl hdrop]
        refine ⟨fun size hsize => ?_, hterms.frozen⟩
        obtain ⟨before, hbefore, rfl⟩ := Option.map_eq_some_iff.mp hsize
        rw [hterms.stated before hbefore, Nat.sub_sub]
        rfl
      · have hdrop : Memory.drop count memory = .error _ memory := dif_pos (Nat.lt_of_not_le hcount)
        rw [Request.noted_of_error (fun _ => .done) rfl hdrop]
        exact hterms

theorem Bounded.right_session (hmemory : memory.Bounded stream terms dropped)
    (hterms : terms.Right stream dropped) {requests : List Request}
    (hrequests : Accurate stream memory requests) :
    (termsIn terms memory requests).Right stream
      (dropped + droppedIn (Streaming.session Memory.answer memory requests).2) := by
  induction requests generalizing memory terms dropped with
  | nil => exact hterms
  | cons request rest ih =>
      have hrest := ih (hmemory.noted request) (hmemory.right_after hterms hrequests.1) hrequests.2
      rw [Nat.add_assoc] at hrest
      exact hrest

theorem stated_termsIn_lt (memory : Memory σ) {requests : List Request}
    (hsizes : ∀ size, .setSize size ∈ requests → size < addressLimit)
    (hterms : ∀ size, terms.stated = some size → size < addressLimit) :
    ∀ size, (termsIn terms memory requests).stated = some size → size < addressLimit := by
  induction requests generalizing memory terms with
  | nil => exact hterms
  | cons request rest ih =>
      refine ih _ (fun size hsize => hsizes size (List.mem_cons_of_mem _ hsize)) ?_
      intro size hsize
      cases request with
      | read | isValid | isEnd | extent => exact hterms size hsize
      | setSize other =>
          obtain rfl := Option.some.inj hsize
          exact hsizes other List.mem_cons_self
      | drop count =>
          rw [Terms.after] at hsize
          split_ifs at hsize
          · obtain ⟨before, hbefore, rfl⟩ := Option.map_eq_some_iff.mp hsize
            exact Nat.lt_of_le_of_lt (Nat.sub_le _ _) (hterms before hbefore)
          · exact hterms size hsize

/-- What a memory reads and which addresses it calls valid after any requests, with sizes stated
among them. A read finds the bytes of the stream, up to where a stated size has put an end to
fetching, and an address is valid if it lies before the size that was stated last. So the two agree
if and only if they come to the same number, and a read stays within the object if and only if the
former is not larger. They agree if every size that is stated is right. -/
theorem session_known_size {reader : Reader} (hreader : reader.Steady)
    (hstart : reader.position = 0) (hstream : reader.bytes.size < addressLimit)
    {requests : List Request}
    (hsizes : ∀ size, .setSize size ∈ requests → size < addressLimit) :
    let stream := reader.bytes
    let memory := (Streaming.session Memory.answer { source := reader } requests).1
    let dropped := droppedIn (Streaming.session Memory.answer { source := reader } requests).2
    let terms := termsIn {} ({ source := reader } : Memory Reader) requests
    let readable := terms.readable stream dropped
    let announced := terms.announced stream dropped
    (∀ address length, ∃ next, Memory.read address length memory =
        .ok (if addressLimit ≤ address + length then #[]
          else stream.extract (dropped + address) (dropped + min (address + length) readable))
          next) ∧
      (∀ address, ∃ next, Memory.isValid address memory =
        .ok (decide (address < announced)) next) ∧
      ((∀ address length, length ≠ 0 → address + length < addressLimit →
        ∃ found next last, Memory.read address length memory = .ok found next ∧
          Memory.isValid address memory = .ok (decide (found.size ≠ 0)) last) ↔
        readable = announced) ∧
      ((∀ address length found next, Memory.read address length memory = .ok found next →
        found.size ≠ 0 → address + found.size ≤ announced) ↔ readable ≤ announced) ∧
      (Accurate stream ({ source := reader } : Memory Reader) requests → readable = announced) := by
  intro stream memory dropped terms readable announced
  have hsource := hreader.delivers
  rw [hstart] at hsource
  have hbegin := bounded_start hsource
  have hmemory : memory.Bounded stream terms dropped := by
    have hsession := hbegin.session requests
    rwa [Nat.zero_add] at hsession
  have hreadable : readable < addressLimit := by
    obtain ⟨-, hall⟩ := hmemory.size_le
    exact Nat.lt_of_le_of_lt ((Nat.sub_le _ _).trans hall) hstream
  have hannounced : announced < addressLimit := by
    have hstated := stated_termsIn_lt ({ source := reader } : Memory Reader) hsizes
      (show ∀ size, ({} : Terms).stated = some size → size < addressLimit by simp)
    change terms.stated.getD (stream.size - dropped) < addressLimit
    cases hsize : terms.stated with
    | some size => exact hstated size hsize
    | none => exact Nat.lt_of_le_of_lt (Nat.sub_le _ _) hstream
  refine ⟨?_, ?_, hmemory.agrees_iff hreadable hannounced, hmemory.inside_iff hreadable, ?_⟩
  · intro address length
    obtain ⟨next, hread, -⟩ := hmemory.read address length
    exact ⟨next, hread⟩
  · intro address
    obtain ⟨next, hvalid, -⟩ := hmemory.isValid address
    exact ⟨next, hvalid⟩
  · intro haccurate
    have hright := hbegin.right_session ⟨by simp, by simp⟩ haccurate
    rw [Nat.zero_add] at hright
    exact hright.readable_eq

theorem session_known_size_sampleReader :
    Sharing.sampleReader.Steady ∧ Sharing.sampleReader.bytes.size < addressLimit ∧
      ∃ memory : Memory Reader,
        (Streaming.session Memory.answer { source := Sharing.sampleReader }
          [.setSize 0, .setSize 3]).1 = memory ∧
        (∃ next, Memory.read 0 3 memory = .ok #[] next) ∧
        (∃ next, Memory.isValid 2 memory = .ok true next) ∧
        ∀ address length found next, Memory.read address length memory = .ok found next →
          found.size ≠ 0 → address + found.size ≤ 3 := by
  have hstream : Sharing.sampleReader.bytes.size < addressLimit := by decide
  have hsizes : ∀ size, .setSize size ∈ [Request.setSize 0, .setSize 3] → size < addressLimit := by
    intro size hsize
    simp only [List.mem_cons, Request.setSize.injEq, List.not_mem_nil, or_false] at hsize
    rcases hsize with rfl | rfl
    · decide
    · decide
  obtain ⟨hread, hvalid, -, hinside, -⟩ :=
    session_known_size Sharing.steady_sampleReader rfl hstream hsizes
  exact ⟨Sharing.steady_sampleReader, hstream, _, rfl, hread 0 3, hvalid 2,
    hinside.mpr (by decide +kernel)⟩

/-- An object of three bytes is stated to have one. A second byte is read at an address that is not
valid. -/
theorem session_known_size_overrun :
    ∃ memory : Memory Reader,
      (Streaming.session Memory.answer { source := Sharing.sampleReader } [.setSize 1]).1 = memory ∧
      (∃ next, Memory.isValid 1 memory = .ok false next) ∧
      ∃ next, Memory.read 1 1 memory = .ok #[8] next := by
  have hbegin : Bounded #[7, 8, 9] {} 0 ({ source := Sharing.sampleReader } : Memory Reader) :=
    bounded_start Sharing.steady_sampleReader.delivers
  have hmemory := hbegin.session [.setSize 1]
  obtain ⟨asked, hvalid, -⟩ := hmemory.isValid 1
  obtain ⟨next, hread, -⟩ := hmemory.read 1 1
  exact ⟨_, rfl, ⟨asked, hvalid⟩, next, hread⟩

end Memory

end Bitcode.Streaming
