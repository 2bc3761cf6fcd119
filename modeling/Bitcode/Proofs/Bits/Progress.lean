import Bitcode.Proofs.Bits.Transmission

namespace Bitcode.Bits

/-- The cursor stands inside `size` bytes, has loaded no more than these, and what is pending of them
lies between its position and their end. -/
structure Cursor.Within (cursor : Cursor) (size : Nat) : Prop where
  size_eq : cursor.size = size
  pending_between : cursor.position + cursor.pending ≤ 8 * cursor.loaded
  loaded_le : cursor.loaded ≤ size

theorem Cursor.within_iff {cursor : Cursor} {size : Nat} :
    cursor.Within size ↔
      cursor.size = size ∧ cursor.pending ≤ 8 * cursor.loaded ∧ cursor.loaded ≤ size := by
  constructor
  · rintro ⟨hsize, hpending, hloaded⟩
    rw [position] at hpending
    exact ⟨hsize, by omega, hloaded⟩
  · rintro ⟨hsize, hpending, hloaded⟩
    refine ⟨hsize, ?_, hloaded⟩
    rw [position]
    omega

theorem Cursor.Within.position_le_size {cursor : Cursor} {size : Nat}
    (hcursor : cursor.Within size) : cursor.position ≤ 8 * size := by
  have hloaded := hcursor.loaded_le
  rw [Cursor.position]
  omega

/-- Every success of a computation moves the cursor forward, and a postcondition holds of the value
and of the number of bits taken. -/
def Moves {ε α : Type} (reading : EStateM ε Cursor α) (post : α → Nat → Prop) : Prop :=
  ∀ ⦃cursor next : Cursor⦄ ⦃size : Nat⦄ ⦃value : α⦄, cursor.Within size →
    reading cursor = .ok value next →
      next.Within size ∧ ∃ taken, next.position = cursor.position + taken ∧ post value taken

section Moves

variable {ε δ α β : Type}

theorem Moves.pure {post : α → Nat → Prop} {value : α} (hpost : post value 0) :
    Moves (Pure.pure value : EStateM ε Cursor α) post := by
  intro cursor next size result hcursor hread
  obtain ⟨rfl, rfl⟩ := EStateM.Result.ok.inj hread
  exact ⟨hcursor, 0, rfl, hpost⟩

theorem Moves.throw {post : α → Nat → Prop} (cause : ε) :
    Moves (MonadExcept.throw cause : EStateM ε Cursor α) post := by
  intro cursor next size value hcursor hread
  exact absurd hread (throw_ne_ok _ _ _ _)

theorem Moves.bind {first : EStateM ε Cursor α} {second : α → EStateM ε Cursor β}
    {between : α → Nat → Prop} {post : β → Nat → Prop} (hfirst : Moves first between)
    (hsecond : ∀ value taken, between value taken →
      Moves (second value) fun result more => post result (taken + more)) :
    Moves (first >>= second) post := by
  intro cursor next size result hcursor hread
  obtain ⟨value, middle, hmiddle, hnext⟩ := bind_eq_ok_iff.mp hread
  obtain ⟨hwithin, taken, hposition, hbetween⟩ := hfirst hcursor hmiddle
  obtain ⟨hfinal, more, hmore, hpost⟩ := hsecond value taken hbetween hwithin hnext
  exact ⟨hfinal, taken + more, by omega, hpost⟩

theorem Moves.throw_bind {second : α → EStateM ε Cursor β} {post : β → Nat → Prop} (cause : ε) :
    Moves ((MonadExcept.throw cause : EStateM ε Cursor α) >>= second) post :=
  (Moves.throw cause : Moves _ fun _ _ => False).bind fun _ _ hfalse => hfalse.elim

theorem Moves.mono {reading : EStateM ε Cursor α} {strong weak : α → Nat → Prop}
    (hreading : Moves reading strong) (hweaker : ∀ value taken, strong value taken → weak value taken) :
    Moves reading weak := by
  intro cursor next size value hcursor hread
  obtain ⟨hwithin, taken, hposition, hstrong⟩ := hreading hcursor hread
  exact ⟨hwithin, taken, hposition, hweaker value taken hstrong⟩

theorem Moves.adaptExcept {reading : EStateM ε Cursor α} {post : α → Nat → Prop} (convert : ε → δ)
    (hreading : Moves reading post) : Moves (EStateM.adaptExcept convert reading) post :=
  fun _ _ _ _ hcursor hread => hreading hcursor (adaptExcept_eq_ok_iff.mp hread)

theorem Moves.of_if {condition : Prop} [Decidable condition] {first second : EStateM ε Cursor α}
    {post : α → Nat → Prop} (hfirst : condition → Moves first post)
    (hsecond : ¬ condition → Moves second post) :
    Moves (if condition then first else second) post := by
  split
  · exact hfirst ‹_›
  · exact hsecond ‹_›

end Moves

namespace Cursor

theorem moves_read (count : Nat) :
    Moves (read count) fun value taken =>
      taken = count ∧ 0 < count ∧ value.toNat < 2 ^ count := by
  intro cursor next size value hcursor hread
  obtain ⟨hsize, hpendingLe, hloaded⟩ := within_iff.mp hcursor
  have hvalue := toNat_lt_of_read hread
  by_cases hbad : count = 0 ∨ 64 ≤ count
  · rw [read_badWidth cursor hbad] at hread
    cases hread
  obtain ⟨hpending, hrun⟩ | ⟨-, -, hrun⟩ | ⟨window, hpending, hwindow, ⟨hrest, hrun⟩ | ⟨-, hrun⟩⟩ :=
    read_cases cursor (show 0 < count by omega) (show count < 64 by omega)
  · obtain ⟨-, rfl⟩ := EStateM.Result.ok.inj (hrun.symm.trans hread)
    exact ⟨within_iff.mpr ⟨hsize, Nat.le_trans (Nat.sub_le _ _) hpendingLe, hloaded⟩, count,
      position_skip hpending hpendingLe, rfl, by omega, hvalue⟩
  · cases hrun.symm.trans hread
  · obtain ⟨-, rfl⟩ := EStateM.Result.ok.inj (hrun.symm.trans hread)
    obtain ⟨-, hwindowSize, hstart, hend, hlength, hmore, -⟩ := nextWindow_eq_some hwindow
    rw [windowSize] at hend
    have hwindowLe : window.pending ≤ 8 * window.loaded := by omega
    refine ⟨within_iff.mpr ⟨hwindowSize.trans hsize, Nat.le_trans (Nat.sub_le _ _) hwindowLe, ?_⟩,
      count, ?_, rfl, by omega, hvalue⟩
    · change window.loaded ≤ size
      omega
    · rw [position_skip hrest hwindowLe, hstart, position]
      omega
  · cases hrun.symm.trans hread

theorem moves_readChunks (width remaining shift : Nat) (value : UInt64) :
    Moves (readChunks width remaining shift value) fun _ taken => 0 < taken ∧ width ≤ taken := by
  induction remaining generalizing shift value with
  | zero => exact Moves.throw _
  | succ remaining ih =>
      refine (moves_read width).bind fun chunk taken htaken => ?_
      obtain ⟨htaken, hpositive, -⟩ := htaken
      cases Vbr.join? value (Vbr.payload width chunk) shift with
      | none => exact Moves.throw _
      | some joined =>
          refine Moves.of_if (fun _ => ?_) fun _ => Moves.pure (by omega)
          exact (ih _ _).mono fun _ _ _ => by omega

/-- A variable-width integer takes at least one chunk. -/
theorem moves_readVbr (width : Nat) :
    Moves (readVbr width) fun _ taken => 0 < taken ∧ width ≤ taken := by
  unfold readVbr
  exact Moves.of_if (fun _ => moves_readChunks width _ _ _) fun _ => Moves.throw _

theorem moves_align32 {ε : Type} :
    Moves (modify align32 : EStateM ε Cursor Unit) fun _ _ => True := by
  intro cursor next size value hcursor hread
  obtain ⟨hsize, hpendingLe, hloaded⟩ := within_iff.mp hcursor
  obtain ⟨-, rfl⟩ := EStateM.Result.ok.inj hread
  by_cases haligned : cursor.position % 32 = 0
  · simp only [align32, haligned, if_true]
    exact ⟨hcursor, 0, rfl, trivial⟩
  by_cases hpending : 32 - cursor.position % 32 ≤ cursor.pending
  · simp only [align32, haligned, hpending, if_true, if_false]
    exact ⟨within_iff.mpr ⟨hsize, Nat.le_trans (Nat.sub_le _ _) hpendingLe, hloaded⟩, _,
      position_skip hpending hpendingLe, trivial⟩
  · simp only [align32, haligned, hpending, if_false]
    refine ⟨within_iff.mpr ⟨hsize, Nat.zero_le _, hloaded⟩, cursor.pending, ?_, trivial⟩
    rw [position_drain, position]
    omega

end Cursor

end Bitcode.Bits
