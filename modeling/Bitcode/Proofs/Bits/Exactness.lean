import Bitcode.Proofs.Bits.Transmission

namespace Bitcode.Bits.Cursor

/-- The cursor that a computation leaves behind, whether it succeeds or fails. -/
def endOf {ε α : Type} (reading : EStateM ε Cursor α) (cursor : Cursor) : Cursor :=
  match reading cursor with
  | .ok _ next => next
  | .error _ next => next

/-- The calls that move a cursor. -/
inductive Call where
  | read (count : Nat)
  | readVbr (width : Nat)
  | align
  | seekBit (target : Nat)
  | seek (anchor : Anchor) (offset : Int)
  deriving DecidableEq, Repr

def Call.run (call : Call) (cursor : Cursor) : Cursor :=
  match call with
  | .read count => endOf (Cursor.read count) cursor
  | .readVbr width => endOf (Cursor.readVbr width) cursor
  | .align => cursor.align32
  | .seekBit target => endOf (Cursor.seekBit target) cursor
  | .seek anchor offset => (cursor.seek anchor offset).getD cursor

/-- The byte that a call makes the cursor load from, if it is a seek that is let through. -/
def Call.byte? (call : Call) (cursor : Cursor) : Option Nat :=
  match call with
  | .seekBit target =>
      if cursor.size < windowSize * (target / 64) then none else some (windowSize * (target / 64))
  | .seek anchor offset => cursor.seekTarget anchor offset
  | _ => none

def after : Cursor → List Call → Cursor
  | cursor, [] => cursor
  | cursor, call :: rest => after (call.run cursor) rest

/-- A new cursor over all the bytes, or over the first ones. -/
def Opens (start : Cursor) (bytes : Array UInt8) : Prop :=
  start = ofBytes bytes ∨ ∃ size, ofFirstBytes bytes size = .ok start

section Ends

variable {ε α β : Type} {reading : EStateM ε Cursor α} {cursor next : Cursor}

theorem endOf_of_ok {value : α} (hrun : reading cursor = .ok value next) :
    endOf reading cursor = next := by
  rw [endOf, hrun]

theorem endOf_of_error {cause : ε} (hrun : reading cursor = .error cause next) :
    endOf reading cursor = next := by
  rw [endOf, hrun]

theorem endOf_discard : endOf (discard reading) cursor = endOf reading cursor := by
  cases hrun : reading cursor with
  | ok value next => rw [endOf_of_ok (discard_eq_ok hrun), endOf_of_ok hrun]
  | error cause next => rw [endOf_of_error (discard_eq_error hrun), endOf_of_error hrun]

theorem endOf_bind_of_ok {second : α → EStateM ε Cursor β} {value : α}
    (hrun : reading cursor = .ok value next) :
    endOf (reading >>= second) cursor = endOf (second value) next := by
  rw [endOf, endOf, bind_apply_of_ok hrun]

/-- A computation keeps a property of cursors, also where it fails. -/
def Keeps (reading : EStateM ε Cursor α) (kept : Cursor → Prop) : Prop :=
  ∀ ⦃cursor⦄, kept cursor → kept (endOf reading cursor)

theorem Keeps.bind {second : α → EStateM ε Cursor β} {kept : Cursor → Prop}
    (hfirst : Keeps reading kept) (hsecond : ∀ value, Keeps (second value) kept) :
    Keeps (reading >>= second) kept := by
  intro cursor hcursor
  have hmiddle := hfirst hcursor
  cases hrun : reading cursor with
  | ok value next =>
      rw [endOf_of_ok hrun] at hmiddle
      rw [endOf_bind_of_ok hrun]
      exact hsecond value hmiddle
  | error cause next =>
      rw [endOf_of_error hrun] at hmiddle
      rwa [endOf_of_error (bind_apply_of_error hrun)]

theorem Keeps.pure {kept : Cursor → Prop} (value : α) :
    Keeps (Pure.pure value : EStateM ε Cursor α) kept :=
  fun _ hcursor => hcursor

theorem Keeps.throw {kept : Cursor → Prop} (cause : ε) :
    Keeps (MonadExcept.throw cause : EStateM ε Cursor α) kept :=
  fun _ hcursor => hcursor

end Ends

section Exact

variable {cursor origin : Cursor} {bytes : Array UInt8} {size : Nat}

/-- The cursor is exact, and its windows are counted on from those of `origin`. -/
def Onward (origin : Cursor) (bytes : Array UInt8) (size : Nat) (cursor : Cursor) : Prop :=
  cursor.Exact bytes size ∧ cursor.Along origin

theorem Exact.onward (hcursor : cursor.Exact bytes size) : cursor.Onward bytes size cursor :=
  ⟨hcursor, hcursor.along_of_loaded_eq rfl⟩

theorem keeps_read (horigin : origin.size = size) (count : Nat) :
    Keeps (read count) (origin.Onward bytes size) := by
  rintro cursor ⟨hcursor, halong⟩
  have hsize : cursor.size = origin.size := hcursor.size_eq.trans horigin.symm
  by_cases hbad : count = 0 ∨ 64 ≤ count
  · rw [endOf_of_error (read_badWidth cursor hbad)]
    exact ⟨hcursor, halong⟩
  by_cases hstop : cursor.position + count ≤ 8 * size
  · obtain ⟨next, hread, hnext, -, hfollows⟩ :=
      hcursor.read_of_le (by omega) (by omega) hstop
    rw [endOf_of_ok hread]
    exact ⟨hnext, hfollows.trans halong hsize⟩
  · obtain ⟨cause, next, hread, hnext, -, hfollows⟩ :=
      hcursor.read_of_lt (by omega) (by omega) (Nat.lt_of_not_le hstop)
    rw [endOf_of_error hread]
    exact ⟨hnext, hfollows.trans halong hsize⟩

theorem keeps_readVbr (horigin : origin.size = size) (width : Nat) :
    Keeps (readVbr width) (origin.Onward bytes size) := by
  have hchunks : ∀ remaining shift value,
      Keeps (readChunks width remaining shift value) (origin.Onward bytes size) := by
    intro remaining
    induction remaining with
    | zero => exact fun _ _ => Keeps.throw _
    | succ remaining ih =>
        intro shift value
        refine (keeps_read horigin width).bind fun chunk => ?_
        cases Vbr.join? value (Vbr.payload width chunk) shift with
        | none => exact Keeps.throw _
        | some joined =>
            cases Vbr.continues width chunk with
            | true => exact ih _ _
            | false => exact Keeps.pure _
  unfold readVbr
  split
  · exact hchunks _ _ _
  · exact Keeps.throw _

theorem Exact.align32 (hcursor : cursor.Exact bytes size) :
    cursor.align32.Exact bytes size ∧ cursor.align32.loaded = cursor.loaded := by
  unfold Cursor.align32
  by_cases haligned : cursor.position % 32 = 0
  · rw [if_pos haligned]
    exact ⟨hcursor, rfl⟩
  · rw [if_neg haligned]
    split
    · exact ⟨hcursor.skip (by omega) ‹_›, rfl⟩
    · exact ⟨hcursor.drain, rfl⟩

theorem seekBit_of_lt {target : Nat} (houtside : cursor.size < windowSize * (target / 64)) :
    seekBit target cursor = .error .endOfData cursor := by
  simp only [seekBit, get_bind_apply]
  rw [if_pos houtside]
  rfl

theorem seekBit_of_le {target : Nat} (hinside : windowSize * (target / 64) ≤ cursor.size) :
    seekBit target cursor =
      (if target % 64 ≠ 0 then discard (read (target % 64)) else Pure.pure () : Reading Unit)
        (cursor.restart (windowSize * (target / 64))) := by
  simp only [seekBit, get_bind_apply]
  rw [if_neg (Nat.not_lt.mpr hinside)]
  rfl

theorem Exact.seekBit_of_le (hcursor : cursor.Exact bytes size) {target : Nat}
    (htarget : target ≤ 8 * size) :
    ∃ next, seekBit target cursor = .ok () next ∧ next.position = target ∧
      (cursor.restart (windowSize * (target / 64))).Onward bytes size next := by
  have hsize := hcursor.size_eq
  have hinside : windowSize * (target / 64) ≤ cursor.size := by
    rw [windowSize]
    omega
  have hstart := hcursor.restart (hsize ▸ hinside)
  rw [Cursor.seekBit_of_le hinside]
  by_cases hgroup : target % 64 = 0
  · rw [if_neg (not_not_intro hgroup)]
    refine ⟨_, rfl, ?_, hstart.onward⟩
    rw [position_restart, windowSize]
    omega
  · rw [if_pos hgroup]
    obtain ⟨next, hread, hnext, hposition, halong⟩ :=
      hstart.read_of_le (Nat.pos_of_ne_zero hgroup) (Nat.mod_lt _ (by decide)) (by
        rw [position_restart, windowSize]
        omega)
    refine ⟨next, discard_eq_ok hread, ?_, hnext, halong⟩
    rw [hposition, position_restart, windowSize]
    omega

theorem Exact.seekBit_of_lt (hcursor : cursor.Exact bytes size) {target : Nat}
    (htarget : 8 * size < target) : ∃ cause next, seekBit target cursor = .error cause next := by
  have hsize := hcursor.size_eq
  by_cases hinside : windowSize * (target / 64) ≤ cursor.size
  · have hstart := hcursor.restart (hsize ▸ hinside)
    rw [Cursor.seekBit_of_le hinside]
    rw [windowSize] at hinside
    have hgroup : target % 64 ≠ 0 := by omega
    rw [if_pos hgroup]
    obtain ⟨cause, next, hread, -⟩ :=
      hstart.read_of_lt (Nat.pos_of_ne_zero hgroup) (Nat.mod_lt _ (by decide)) (by
        rw [position_restart, windowSize]
        omega)
    exact ⟨cause, next, discard_eq_error hread⟩
  · exact ⟨_, _, Cursor.seekBit_of_lt (Nat.lt_of_not_le hinside)⟩

theorem seekTarget_le {anchor : Anchor} {offset : Int} {byte : Nat}
    (htarget : cursor.seekTarget anchor offset = some byte) : byte ≤ cursor.size := by
  unfold seekTarget at htarget
  obtain ⟨target, -, htarget⟩ := Option.bind_eq_some_iff.mp htarget
  split at htarget
  · obtain rfl := Option.some.inj htarget
    omega
  · simp at htarget

theorem Exact.run (hcursor : cursor.Exact bytes size) (call : Call) :
    (call.run cursor).Exact bytes size ∧
      ∃ windows, (call.run cursor).loaded =
        min ((call.byte? cursor).getD cursor.loaded + windowSize * windows) size := by
  have hsize := hcursor.size_eq
  cases call with
  | read count => exact hsize ▸ keeps_read hsize count hcursor.onward
  | readVbr width => exact hsize ▸ keeps_readVbr hsize width hcursor.onward
  | align =>
      have halong := hcursor.along_of_loaded_eq hcursor.align32.2
      exact ⟨hcursor.align32.1, hsize ▸ halong⟩
  | seekBit target =>
      by_cases hinside : windowSize * (target / 64) ≤ cursor.size
      · have hstart := hcursor.restart (hsize ▸ hinside)
        rw [Call.byte?, if_neg (Nat.not_lt.mpr hinside), Call.run, endOf,
          Cursor.seekBit_of_le hinside, ← endOf]
        split
        · rw [endOf_discard]
          exact hsize ▸ keeps_read hstart.size_eq (target % 64) hstart.onward
        · exact hsize ▸ hstart.onward
      · rw [Call.byte?, if_pos (Nat.lt_of_not_le hinside), Call.run,
          endOf_of_error (Cursor.seekBit_of_lt (Nat.lt_of_not_le hinside))]
        exact hsize ▸ hcursor.onward
  | seek anchor offset =>
      rw [Call.byte?, Call.run, seek]
      cases htarget : cursor.seekTarget anchor offset with
      | none => exact hsize ▸ hcursor.onward
      | some byte =>
          have hbyte := seekTarget_le htarget
          exact hsize ▸ (hcursor.restart (hsize ▸ hbyte)).onward

theorem Exact.after (hcursor : cursor.Exact bytes size) (calls : List Call) :
    (cursor.after calls).Exact bytes size := by
  induction calls generalizing cursor with
  | nil => exact hcursor
  | cons call rest ih =>
      exact ih (hcursor.run call).1

theorem Opens.eq_new (hstart : cursor.Opens bytes) :
    ∃ size ≤ bytes.size, cursor = { bytes, size } := by
  obtain rfl | ⟨size, hopen⟩ := hstart
  · exact ⟨bytes.size, Nat.le_refl _, rfl⟩
  · unfold ofFirstBytes at hopen
    split at hopen
    · cases hopen
    · exact ⟨size, Nat.not_lt.mp ‹_›, (Except.ok.inj hopen).symm⟩

theorem Opens.exact (hstart : cursor.Opens bytes) : cursor.Exact bytes cursor.size := by
  obtain ⟨size, hsize, rfl⟩ := hstart.eq_new
  exact ⟨rfl, rfl, hsize, Nat.zero_le _, Nat.zero_le _, rfl⟩

end Exact

/-- Whatever calls a new cursor has served, failed ones included, it is a view of the bits of its bytes:
it stands inside of them, it is exhausted at their end only, it reads a field of 1 to 63 bits exactly
if they hold all of it, least significant bit first, and it can seek each of their bits and their
end. -/
theorem exact_view {bytes : Array UInt8} {start cursor : Cursor} (hstart : start.Opens bytes)
    (calls : List Call) (hcursor : start.after calls = cursor) :
    cursor.bitLength = start.bitLength ∧ cursor.position ≤ cursor.bitLength ∧
      (cursor.exhausted = true ↔ cursor.position = cursor.bitLength) ∧
      (∀ count, 1 ≤ count → count ≤ 63 →
        ((∃ value next, read count cursor = .ok value next) ↔
          cursor.position + count ≤ cursor.bitLength) ∧
        ∀ value next, read count cursor = .ok value next →
          value.toNat < 2 ^ count ∧
            (∀ index < count,
              value.toNat.testBit index = bitAt bytes (cursor.position + index)) ∧
            next.position = cursor.position + count) ∧
      ∀ target,
        ((∃ next, seekBit target cursor = .ok () next) ↔ target ≤ cursor.bitLength) ∧
          ∀ next, seekBit target cursor = .ok () next → next.position = target := by
  subst hcursor
  have hexact := hstart.exact.after calls
  rw [hexact.bitLength_eq]
  refine ⟨rfl, hexact.position_le, hexact.exhausted_iff, ?_, ?_⟩
  · intro count hpositive hcount
    by_cases hstop : (start.after calls).position + count ≤ 8 * start.size
    · obtain ⟨next, hread, -, hposition, -⟩ := hexact.read_of_le hpositive (by omega) hstop
      refine ⟨iff_of_true ⟨_, next, hread⟩ hstop, ?_⟩
      intro value other hother
      obtain ⟨rfl, rfl⟩ := EStateM.Result.ok.inj (hread.symm.trans hother)
      refine ⟨toNat_lt_of_read hread, ?_, hposition⟩
      intro index hindex
      rw [toNat_ofNat_fieldAt (by omega), testBit_fieldAt bytes _ hindex]
    · obtain ⟨cause, next, hread, -⟩ :=
        hexact.read_of_lt hpositive (by omega) (Nat.lt_of_not_le hstop)
      refine ⟨iff_of_false ?_ hstop, ?_⟩
      · rintro ⟨value, other, hother⟩
        cases hread.symm.trans hother
      · intro value other hother
        cases hread.symm.trans hother
  · intro target
    by_cases htarget : target ≤ 8 * start.size
    · obtain ⟨next, hseek, hposition, -⟩ := hexact.seekBit_of_le htarget
      refine ⟨iff_of_true ⟨next, hseek⟩ htarget, ?_⟩
      intro other hother
      obtain ⟨-, rfl⟩ := EStateM.Result.ok.inj (hseek.symm.trans hother)
      exact hposition
    · obtain ⟨cause, next, hseek⟩ := hexact.seekBit_of_lt (Nat.lt_of_not_le htarget)
      refine ⟨iff_of_false ?_ htarget, ?_⟩
      · rintro ⟨other, hother⟩
        cases hseek.symm.trans hother
      · intro other hother
        cases hseek.symm.trans hother

/-- Three words, so the second window is half as long as the first. -/
def threeWords : Array UInt8 :=
  #[0x01, 0x23, 0x45, 0x67, 0x89, 0xab, 0xcd, 0xef, 0xfe, 0xdc, 0xba, 0x98]

/-- A field across two windows, a read and a bit seek that the last window is too short for, and a
field after a bit seek. -/
def wearingCalls : List Call :=
  [.seek .start 3, .read 60, .readVbr 6, .read 63, .align, .seekBit 97, .seekBit 70, .read 5]

theorem exact_view_threeWords :
    ∃ cursor, (ofBytes threeWords).Opens threeWords ∧
      (ofBytes threeWords).after wearingCalls = cursor ∧ cursor.position = 75 ∧
      cursor.bitLength = 96 ∧
      (∃ value next, read 21 cursor = .ok value next ∧ next.position = 96 ∧
        value.toNat.testBit 20 = bitAt threeWords 95) ∧
      (¬ ∃ value next, read 22 cursor = .ok value next) ∧
      (∃ next, seekBit 96 cursor = .ok () next ∧ next.position = 96) ∧
      ¬ ∃ next, seekBit 97 cursor = .ok () next := by
  obtain ⟨hlength, -, -, hread, hseek⟩ :=
    exact_view (show (ofBytes threeWords).Opens threeWords from .inl rfl) wearingCalls rfl
  have hposition : ((ofBytes threeWords).after wearingCalls).position = 75 := by decide +kernel
  have hbits : ((ofBytes threeWords).after wearingCalls).bitLength = 96 := hlength
  obtain ⟨hinside, hvalue⟩ := hread 21 (by decide) (by decide)
  obtain ⟨houtside, -⟩ := hread 22 (by decide) (by decide)
  rw [hposition, hbits] at hinside houtside
  rw [hposition] at hvalue
  obtain ⟨value, next, hrun⟩ := hinside.mpr (by decide)
  obtain ⟨-, htest, hnext⟩ := hvalue value next hrun
  obtain ⟨sought, hsought⟩ := (hseek 96).1.mpr (by rw [hbits])
  refine ⟨_, .inl rfl, rfl, hposition, hbits, ⟨value, next, hrun, hnext, htest 20 (by decide)⟩, ?_,
    ⟨sought, hsought, (hseek 96).2 sought hsought⟩, ?_⟩
  · exact mt houtside.mp (by decide)
  · exact mt (hseek 97).1.mp (by rw [hbits]; decide)

end Bitcode.Bits.Cursor
