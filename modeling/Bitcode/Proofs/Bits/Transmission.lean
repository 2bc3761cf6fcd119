import Bitcode.Bits.Writer
import Bitcode.Proofs.Bits.Block

/-!
Reading what was written. A writing and a reading computation transmit a value if the reading one
finds it in any bytes that hold the bits of the writing one at their positions. Transmission is kept
by sequencing, so whole formats are transmitted once their fields are.
-/

namespace Bitcode

theorem bind_eq_ok_iff {ε σ α β : Type} {first : EStateM ε σ α} {second : α → EStateM ε σ β}
    {state final : σ} {value : β} :
    (first >>= second) state = .ok value final ↔
      ∃ middle between, first state = .ok middle between ∧
        second middle between = .ok value final := by
  change EStateM.bind first second state = .ok value final ↔ _
  unfold EStateM.bind
  constructor
  · intro h
    split at h
    · rename_i middle between heq
      exact ⟨middle, between, heq, h⟩
    · simp at h
  · rintro ⟨middle, between, hfirst, hsecond⟩
    rw [hfirst]
    exact hsecond

section Bind

variable {ε σ α β : Type} {first : EStateM ε σ α} {second : α → EStateM ε σ β} {state next : σ}

theorem bind_apply_of_ok {value : α} (hfirst : first state = .ok value next) :
    (first >>= second) state = second value next := by
  simp only [Bind.bind, EStateM.bind, hfirst]

theorem bind_apply_of_error {cause : ε} (hfirst : first state = .error cause next) :
    (first >>= second) state = .error cause next := by
  simp only [Bind.bind, EStateM.bind, hfirst]

end Bind

theorem adaptExcept_eq_ok_iff {ε δ σ α : Type} {convert : ε → δ} {computation : EStateM ε σ α}
    {state final : σ} {value : α} :
    EStateM.adaptExcept convert computation state = .ok value final ↔
      computation state = .ok value final := by
  unfold EStateM.adaptExcept
  cases computation state <;> simp

theorem discard_eq_ok {ε σ α : Type} {computation : EStateM ε σ α} {state next : σ} {value : α}
    (hrun : computation state = .ok value next) : discard computation state = .ok () next := by
  change EStateM.map _ computation state = _
  rw [EStateM.map, hrun]

theorem discard_eq_error {ε σ α : Type} {computation : EStateM ε σ α} {state next : σ} {cause : ε}
    (hrun : computation state = .error cause next) :
    discard computation state = .error cause next := by
  change EStateM.map _ computation state = _
  rw [EStateM.map, hrun]

theorem get_bind_apply {ε σ β : Type} (second : σ → EStateM ε σ β) (state : σ) :
    (MonadState.get >>= second) state = second state state :=
  rfl

theorem modify_bind_apply {ε σ β : Type} (change : σ → σ) (second : Unit → EStateM ε σ β)
    (state : σ) : ((modify change : EStateM ε σ Unit) >>= second) state = second () (change state) :=
  rfl

theorem throw_ne_ok {ε σ α : Type} (cause : ε) (state next : σ) (value : α) :
    (throw cause : EStateM ε σ α) state ≠ .ok value next := by
  simp [throw, throwThe, MonadExceptOf.throw, EStateM.throw]

/-- A computation that succeeds in every state. -/
def Succeeds {ε σ α : Type} (computation : EStateM ε σ α) : Prop :=
  ∀ state, ∃ value next, computation state = .ok value next

section Succeeds

variable {ε δ σ α β : Type}

theorem Succeeds.pure (value : α) : Succeeds (Pure.pure value : EStateM ε σ α) :=
  fun state => ⟨value, state, rfl⟩

theorem Succeeds.modify (change : σ → σ) :
    Succeeds (MonadState.modifyGet fun state => ((), change state) : EStateM ε σ Unit) :=
  fun state => ⟨(), change state, rfl⟩

theorem Succeeds.bind {first : EStateM ε σ α} {second : α → EStateM ε σ β}
    (hfirst : Succeeds first) (hsecond : ∀ value, Succeeds (second value)) :
    Succeeds (first >>= second) := by
  intro state
  obtain ⟨middle, between, hmiddle⟩ := hfirst state
  obtain ⟨value, next, hvalue⟩ := hsecond middle between
  exact ⟨value, next, bind_eq_ok_iff.mpr ⟨middle, between, hmiddle, hvalue⟩⟩

theorem Succeeds.adaptExcept {computation : EStateM ε σ α} (convert : ε → δ)
    (hsucceeds : Succeeds computation) : Succeeds (EStateM.adaptExcept convert computation) := by
  intro state
  obtain ⟨value, next, hvalue⟩ := hsucceeds state
  exact ⟨value, next, adaptExcept_eq_ok_iff.mpr hvalue⟩

theorem Succeeds.forM {items : List α} {action : α → EStateM ε σ PUnit}
    (haction : ∀ item ∈ items, Succeeds (action item)) : Succeeds (items.forM action) := by
  induction items with
  | nil => exact Succeeds.pure _
  | cons item rest ih =>
      change Succeeds (action item >>= fun _ => rest.forM action)
      refine (haction item (by simp)).bind fun _ => ih ?_
      intro other hother
      exact haction other (by simp [hother])

end Succeeds

namespace Bits

/-- Bytes that hold the given bits from a position on. -/
structure Holds (bytes : Array UInt8) (position : Nat) (bits : List Bool) : Prop where
  length_le : position + bits.length ≤ 8 * bytes.size
  bit_eq : ∀ index (hindex : index < bits.length), bitAt bytes (position + index) = bits[index]

theorem holds_append {bytes : Array UInt8} {position : Nat} {first second : List Bool} :
    Holds bytes position (first ++ second) ↔
      Holds bytes position first ∧ Holds bytes (position + first.length) second := by
  constructor
  · rintro ⟨hlength, hbits⟩
    rw [List.length_append] at hlength
    refine ⟨⟨by omega, ?_⟩, ⟨by omega, ?_⟩⟩
    · intro index hindex
      have hbit := hbits index (by simp; omega)
      rwa [List.getElem_append_left hindex] at hbit
    · intro index hindex
      have hbit := hbits (first.length + index) (by simp; omega)
      rw [List.getElem_append_right (by omega)] at hbit
      simpa [Nat.add_assoc] using hbit
  · rintro ⟨⟨hfirstLength, hfirst⟩, ⟨hsecondLength, hsecond⟩⟩
    refine ⟨by simp; omega, ?_⟩
    intro index hindex
    by_cases hplace : index < first.length
    · rw [List.getElem_append_left hplace]
      exact hfirst index hplace
    · rw [List.getElem_append_right (by omega)]
      have hbit := hsecond (index - first.length) (by simp at hindex; omega)
      have hposition : position + first.length + (index - first.length) = position + index := by
        omega
      rwa [hposition] at hbit

theorem Holds.fieldAt_eq {bytes : Array UInt8} {position value count : Nat}
    (hholds : Holds bytes position (lowBits value count)) (hvalue : value < 2 ^ count) :
    fieldAt bytes position count = value := by
  apply spell_eq_of_testBit hvalue
  intro index hindex
  rw [hholds.bit_eq index (by simpa using hindex), getElem_lowBits]

section Patch

theorem size_patch (bits : Array Bool) (position : Nat) (word : List Bool) :
    (Writer.patch bits position word).size = bits.size := by
  induction word generalizing bits position with
  | nil => rfl
  | cons bit rest ih =>
      rw [Writer.patch, ih]
      exact Array.size_setIfInBounds

theorem getD_patch_outside (bits : Array Bool) (position : Nat) (word : List Bool) {index : Nat}
    (houtside : index < position ∨ position + word.length ≤ index) :
    (Writer.patch bits position word).getD index false = bits.getD index false := by
  induction word generalizing bits position with
  | nil => rfl
  | cons bit rest ih =>
      simp only [List.length_cons] at houtside
      rw [Writer.patch, ih _ _ (by omega), Array.getD_eq_getD_getElem?,
        Array.getElem?_setIfInBounds_ne (by omega), ← Array.getD_eq_getD_getElem?]

theorem getD_patch_inside (bits : Array Bool) (position : Nat) (word : List Bool)
    (hinside : position + word.length ≤ bits.size) {index : Nat} (hindex : index < word.length) :
    (Writer.patch bits position word).getD (position + index) false = word[index] := by
  induction word generalizing bits position index with
  | nil => simp at hindex
  | cons bit rest ih =>
      rw [List.length_cons] at hinside hindex
      rw [Writer.patch]
      cases index with
      | zero =>
          rw [getD_patch_outside _ _ _ (by omega), Nat.add_zero, Array.getD_eq_getD_getElem?,
            Array.getElem?_setIfInBounds_self_of_lt (by omega)]
          rfl
      | succ index =>
          have hplace : position + (index + 1) = position + 1 + index := by omega
          rw [hplace, ih _ _ (by rw [Array.size_setIfInBounds]; omega) (by omega)]
          rfl

end Patch

/-- The cursor stands at a position of whole words, and has loaded whole words. -/
structure Cursor.StandsAt (cursor : Cursor) (bytes : Array UInt8) (position : Nat) : Prop where
  exact : cursor.Exact bytes bytes.size
  position_eq : cursor.position = position
  loaded_words : cursor.loaded % 4 = 0
  words : bytes.size % 4 = 0

theorem Cursor.StandsAt.size_eq {cursor : Cursor} {bytes : Array UInt8} {position : Nat}
    (hcursor : cursor.StandsAt bytes position) : cursor.size = bytes.size :=
  hcursor.exact.size_eq

/-- A computation reads a value between two positions of the bytes. -/
def Reads {ε α : Type} (reading : EStateM ε Cursor α) (bytes : Array UInt8) (start : Nat)
    (value : α) (stop : Nat) : Prop :=
  ∀ cursor, cursor.StandsAt bytes start →
    ∃ next, reading cursor = .ok value next ∧ next.StandsAt bytes stop

section Reads

variable {ε δ α β : Type} {bytes : Array UInt8} {start middle stop : Nat}

theorem Reads.pure (value : α) :
    Reads (Pure.pure value : EStateM ε Cursor α) bytes start value start :=
  fun cursor hcursor => ⟨cursor, rfl, hcursor⟩

theorem Reads.bind {first : EStateM ε Cursor α} {second : α → EStateM ε Cursor β} {a : α} {b : β}
    (hfirst : Reads first bytes start a middle) (hsecond : Reads (second a) bytes middle b stop) :
    Reads (first >>= second) bytes start b stop := by
  intro cursor hcursor
  obtain ⟨between, hread, hbetween⟩ := hfirst cursor hcursor
  obtain ⟨next, hnext, hstands⟩ := hsecond between hbetween
  exact ⟨next, bind_eq_ok_iff.mpr ⟨a, between, hread, hnext⟩, hstands⟩

theorem Reads.adaptExcept {reading : EStateM ε Cursor α} {value : α} (convert : ε → δ)
    (hreads : Reads reading bytes start value stop) :
    Reads (EStateM.adaptExcept convert reading) bytes start value stop := by
  intro cursor hcursor
  obtain ⟨next, hread, hstands⟩ := hreads cursor hcursor
  exact ⟨next, adaptExcept_eq_ok_iff.mpr hread, hstands⟩

end Reads

namespace Cursor

theorem reads_read {bytes : Array UInt8} {start count : Nat} (hpositive : 0 < count)
    (hcount : count < 64) (hstop : start + count ≤ 8 * bytes.size) :
    Reads (read count) bytes start (UInt64.ofNat (fieldAt bytes start count)) (start + count) := by
  rintro cursor ⟨hexact, rfl, hwords, hall⟩
  obtain ⟨next, hread, hnext, hposition, windows, hloaded⟩ :=
    hexact.read_of_le hpositive hcount hstop
  refine ⟨next, hread, hnext, hposition, ?_, hall⟩
  have hsize := hexact.size_eq
  rw [windowSize] at hloaded
  omega

theorem align32_standsAt {cursor : Cursor} {bytes : Array UInt8} {position : Nat}
    (hcursor : cursor.StandsAt bytes position) :
    cursor.align32.StandsAt bytes (position + (32 - position % 32) % 32) := by
  obtain ⟨hexact, rfl, hwords, hall⟩ := hcursor
  unfold align32
  by_cases haligned : cursor.position % 32 = 0
  · have hstay : cursor.position + (32 - cursor.position % 32) % 32 = cursor.position := by omega
    rw [if_pos haligned, hstay]
    exact ⟨hexact, rfl, hwords, hall⟩
  · -- The loaded bytes end at a word boundary, so the next one is not past them.
    have hplace := hexact.position_add_pending
    have hpending : 32 - cursor.position % 32 ≤ cursor.pending := by omega
    have hdistance : (32 - cursor.position % 32) % 32 = 32 - cursor.position % 32 := by omega
    rw [if_neg haligned, if_pos hpending, hdistance]
    exact ⟨hexact.skip (by omega) hpending, position_skip hpending hexact.pending_le, hwords, hall⟩

theorem reads_align32 {ε : Type} (bytes : Array UInt8) (start : Nat) :
    Reads (modify align32 : EStateM ε Cursor Unit) bytes start ()
      (start + (32 - start % 32) % 32) :=
  fun cursor hcursor => ⟨cursor.align32, rfl, align32_standsAt hcursor⟩

end Cursor

/-- A reading computation finds a value wherever the bits of a writing one are held. -/
def Transmits {δ ε α : Type} (writing : EStateM δ Writer Unit) (reading : EStateM ε Cursor α)
    (value : α) : Prop :=
  ∀ writer next, writing writer = .ok () next →
    ∃ bits : List Bool, next.bits = writer.bits ++ bits ∧
      ∀ bytes, Holds bytes writer.bits.size bits →
        Reads reading bytes writer.bits.size value (writer.bits.size + bits.length)

section Transmits

variable {δ ε α β : Type}

theorem Transmits.pure (value : α) :
    Transmits (Pure.pure () : EStateM δ Writer Unit) (Pure.pure value : EStateM ε Cursor α)
      value := by
  intro writer next hwrite
  have hsame : writer = next := by
    simpa [Pure.pure, EStateM.pure] using hwrite
  subst hsame
  exact ⟨[], by simp, fun bytes _ => Reads.pure value⟩

theorem Transmits.throw (cause : δ) (reading : EStateM ε Cursor α) (value : α) :
    Transmits (MonadExcept.throw cause : EStateM δ Writer Unit) reading value :=
  fun writer next hwrite => absurd hwrite (throw_ne_ok cause writer next ())

/-- Sequences transmit what the second reading computation makes of the first value. -/
theorem Transmits.bind {firstWrite secondWrite : EStateM δ Writer Unit}
    {firstRead : EStateM ε Cursor α} {secondRead : α → EStateM ε Cursor β} {a : α} {b : β}
    (hfirst : Transmits firstWrite firstRead a) (hsecond : Transmits secondWrite (secondRead a) b) :
    Transmits (firstWrite >>= fun _ => secondWrite) (firstRead >>= secondRead) b := by
  intro writer next hwrite
  obtain ⟨_, between, hfirstWrite, hsecondWrite⟩ := bind_eq_ok_iff.mp hwrite
  obtain ⟨firstBits, hbetween, hfirstReads⟩ := hfirst writer between hfirstWrite
  obtain ⟨secondBits, hnext, hsecondReads⟩ := hsecond between next hsecondWrite
  have hsize : between.bits.size = writer.bits.size + firstBits.length := by
    rw [hbetween, size_append_list]
  refine ⟨firstBits ++ secondBits, by rw [hnext, hbetween, append_list_assoc], ?_⟩
  intro bytes hholds
  obtain ⟨hholdsFirst, hholdsSecond⟩ := holds_append.mp hholds
  rw [← hsize] at hholdsSecond
  have hreads := (hfirstReads bytes hholdsFirst).bind
    (hsize ▸ hsecondReads bytes hholdsSecond)
  rwa [Nat.add_assoc, ← List.length_append] at hreads

theorem Transmits.finish {writing : EStateM δ Writer Unit} {reading : EStateM ε Cursor α}
    {second : α → EStateM ε Cursor β} {value : α} {result : β}
    (htransmits : Transmits writing reading value) (hsecond : second value = Pure.pure result) :
    Transmits writing (reading >>= second) result := by
  intro writer next hwrite
  obtain ⟨bits, hnext, hreads⟩ := htransmits writer next hwrite
  refine ⟨bits, hnext, fun bytes hholds => (hreads bytes hholds).bind ?_⟩
  rw [hsecond]
  exact Reads.pure result

theorem Transmits.adaptExcept {γ ζ : Type} {writing : EStateM δ Writer Unit}
    {reading : EStateM ε Cursor α} {value : α} (forWriting : δ → γ) (forReading : ε → ζ)
    (htransmits : Transmits writing reading value) :
    Transmits (EStateM.adaptExcept forWriting writing) (EStateM.adaptExcept forReading reading)
      value := by
  intro writer next hwrite
  obtain ⟨bits, hnext, hreads⟩ := htransmits writer next (adaptExcept_eq_ok_iff.mp hwrite)
  exact ⟨bits, hnext, fun bytes hholds => (hreads bytes hholds).adaptExcept forReading⟩

end Transmits

namespace Writer

theorem emit_eq_ok_iff {value : UInt64} {width : Nat} {writer next : Writer} :
    emit value width writer = .ok () next ↔
      (0 < width ∧ width < 64 ∧ value.toNat < 2 ^ width) ∧
        next = writer.append value.toNat width := by
  unfold emit
  split
  · rename_i hwidth
    simp only [maxWidth] at hwidth
    simp only [reduceCtorEq, false_iff]
    omega
  · rename_i hwidth
    simp only [maxWidth] at hwidth
    split
    · simp only [reduceCtorEq, false_iff]
      omega
    · simp only [EStateM.Result.ok.injEq, true_and]
      constructor
      · rintro rfl
        exact ⟨⟨by omega, by omega, by omega⟩, rfl⟩
      · rintro ⟨-, rfl⟩
        rfl

theorem transmits_emit (value : UInt64) (width : Nat) :
    Transmits (emit value width) (Cursor.read width) value := by
  intro writer next hwrite
  obtain ⟨⟨hpositive, hwidth, hvalue⟩, rfl⟩ := emit_eq_ok_iff.mp hwrite
  refine ⟨lowBits value.toNat width, rfl, ?_⟩
  intro bytes hholds
  have hstop := hholds.length_le
  rw [lowBits_length] at hstop ⊢
  have hreads := Cursor.reads_read hpositive hwidth hstop
  rwa [hholds.fieldAt_eq hvalue, UInt64.ofNat_toNat] at hreads

theorem transmits_align32 {δ ε : Type} :
    Transmits (modify align32 : EStateM δ Writer Unit) (modify Cursor.align32 : EStateM ε Cursor Unit)
      () := by
  intro writer next hwrite
  have hnext : writer.align32 = next := by
    simpa [modify, modifyGet, MonadStateOf.modifyGet, EStateM.modifyGet] using hwrite
  subst hnext
  refine ⟨lowBits 0 ((32 - writer.bits.size % 32) % 32), rfl, ?_⟩
  intro bytes _
  rw [lowBits_length]
  exact Cursor.reads_align32 bytes writer.bits.size

end Writer

end Bits

end Bitcode
