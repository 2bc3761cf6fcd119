import Bitcode.Bits.Cursor
import Bitcode.Proofs.Bits.Field

namespace Bitcode.Bits

section Words

theorem toNat_shiftAmount {count : Nat} (hcount : count < 64) :
    (UInt64.ofNat count).toNat % 64 = count := by
  rw [UInt64.toNat_ofNat']
  omega

theorem toNat_one_shiftLeft {count : Nat} (hcount : count < 64) :
    ((1 : UInt64) <<< UInt64.ofNat count).toNat = 2 ^ count := by
  rw [UInt64.toNat_shiftLeft, toNat_shiftAmount hcount, UInt64.toNat_one, Nat.one_shiftLeft]
  exact Nat.mod_eq_of_lt (Nat.pow_lt_pow_right (by decide) hcount)

theorem toNat_shiftRight_ofNat (word : UInt64) {count : Nat} (hcount : count < 64) :
    (word >>> UInt64.ofNat count).toNat = word.toNat / 2 ^ count := by
  rw [UInt64.toNat_shiftRight, toNat_shiftAmount hcount, Nat.shiftRight_eq_div_pow]

theorem add_mul_two_pow_lt {low high lowBits highBits : Nat} (hlow : low < 2 ^ lowBits)
    (hhigh : high < 2 ^ highBits) : low + high * 2 ^ lowBits < 2 ^ (lowBits + highBits) := by
  have hscaled := Nat.mul_le_mul_right (2 ^ lowBits) (Nat.succ_le_of_lt hhigh)
  rw [Nat.succ_mul, ← Nat.pow_add, Nat.add_comm highBits] at hscaled
  omega

theorem toNat_or_shiftLeft {low high : UInt64} {count : Nat} (hcount : count < 64)
    (hlow : low.toNat < 2 ^ count) (hfits : high.toNat * 2 ^ count < 2 ^ 64) :
    (low ||| high <<< UInt64.ofNat count).toNat = low.toNat + high.toNat * 2 ^ count := by
  have hhigh : (high <<< UInt64.ofNat count).toNat = 2 ^ count * high.toNat := by
    rw [UInt64.toNat_shiftLeft, toNat_shiftAmount hcount, Nat.shiftLeft_eq, Nat.mod_eq_of_lt hfits,
      Nat.mul_comm]
  rw [UInt64.toNat_or, hhigh, Nat.or_comm, ← Nat.two_pow_add_eq_or_of_lt hlow]
  ring

theorem testBit_joinBytes (bytes : List UInt8) {index : Nat} (hindex : index < 64) :
    (joinBytes bytes).toNat.testBit index = (bytes.getD (index / 8) 0).toNat.testBit (index % 8) := by
  induction bytes generalizing index with
  | nil => simp [joinBytes]
  | cons byte rest ih =>
      have hshift : (joinBytes rest <<< 8).toNat = (joinBytes rest).toNat <<< 8 % 2 ^ 64 :=
        UInt64.toNat_shiftLeft _ _
      rw [joinBytes, UInt64.toNat_or, UInt8.toNat_toUInt64, hshift, Nat.testBit_or,
        Nat.testBit_mod_two_pow, Nat.testBit_shiftLeft]
      by_cases hbyte : index < 8
      · have hdiv : index / 8 = 0 := by omega
        have hmod : index % 8 = index := by omega
        simp [hdiv, hmod, hbyte]
      · have hhigh : byte.toNat.testBit index = false :=
          Nat.testBit_lt_two_pow (Nat.lt_of_lt_of_le byte.toNat_lt
            (Nat.pow_le_pow_right (by decide) (by omega)))
        have hdiv : index / 8 = (index - 8) / 8 + 1 := by omega
        have hmod : (index - 8) % 8 = index % 8 := by omega
        rw [hhigh, ih (by omega), hdiv, hmod, List.getD_cons_succ]
        simp [hindex, Nat.not_lt.mp hbyte]

theorem joinBytes_lt (bytes : List UInt8) : (joinBytes bytes).toNat < 2 ^ (8 * bytes.length) := by
  apply Nat.lt_pow_two_of_testBit
  intro index hlarge
  by_cases hindex : index < 64
  · rw [testBit_joinBytes bytes hindex, List.getD_eq_default _ _ (by omega)]
    exact Nat.zero_testBit _
  · exact Nat.testBit_lt_two_pow (Nat.lt_of_lt_of_le (joinBytes bytes).toNat_lt
      (Nat.pow_le_pow_right (by decide) (by omega)))

end Words

section Fields

variable {bytes : Array UInt8} {position count : Nat}

theorem fieldAt_lt (bytes : Array UInt8) (position count : Nat) :
    fieldAt bytes position count < 2 ^ count :=
  spell_lt_two_pow _ _ _

theorem testBit_fieldAt (bytes : Array UInt8) (position : Nat) {count index : Nat}
    (hindex : index < count) :
    (fieldAt bytes position count).testBit index = bitAt bytes (position + index) := by
  rw [fieldAt, testBit_spell]
  simp [hindex]

theorem toNat_ofNat_fieldAt (hcount : count ≤ 64) :
    (UInt64.ofNat (fieldAt bytes position count)).toNat = fieldAt bytes position count :=
  UInt64.toNat_ofNat_of_lt' (Nat.lt_of_lt_of_le (fieldAt_lt bytes position count)
    (Nat.pow_le_pow_right (by decide) hcount))

theorem fieldAt_mod {more : Nat} (hcount : count ≤ more) :
    fieldAt bytes position more % 2 ^ count = fieldAt bytes position count := by
  symm
  apply spell_eq_of_testBit (Nat.mod_lt _ (Nat.two_pow_pos _))
  intro index hindex
  rw [Nat.testBit_mod_two_pow, testBit_fieldAt _ _ (by omega)]
  simp [hindex]

theorem fieldAt_div (more : Nat) :
    fieldAt bytes position (count + more) / 2 ^ count = fieldAt bytes (position + count) more := by
  symm
  apply spell_eq_of_testBit
  · rw [Nat.div_lt_iff_lt_mul (Nat.two_pow_pos _), ← Nat.pow_add, Nat.add_comm more]
    exact fieldAt_lt _ _ _
  · intro index hindex
    rw [Nat.testBit_div_two_pow, Nat.add_assoc, Nat.add_comm index,
      testBit_fieldAt _ _ (by omega)]

theorem fieldAt_add (more : Nat) :
    fieldAt bytes position (count + more) =
      fieldAt bytes position count + fieldAt bytes (position + count) more * 2 ^ count := by
  have hsplit := Nat.mod_add_div (fieldAt bytes position (count + more)) (2 ^ count)
  rw [fieldAt_mod (Nat.le_add_right _ _), fieldAt_div, Nat.mul_comm] at hsplit
  exact hsplit.symm

theorem toNat_joinBytes_extract {first last : Nat} (hlast : last ≤ bytes.size)
    (hwindow : last - first ≤ 8) :
    (joinBytes (bytes.extract first last).toList).toNat =
      fieldAt bytes (8 * first) (8 * (last - first)) := by
  have hlength : (bytes.extract first last).toList.length = last - first := by
    rw [Array.length_toList, Array.size_extract, Nat.min_eq_left hlast]
  symm
  apply spell_eq_of_testBit
  · rw [← hlength]
    exact joinBytes_lt _
  · intro index hindex
    have hdiv : (8 * first + index) / 8 = first + index / 8 := by omega
    have hmod : (8 * first + index) % 8 = index % 8 := by omega
    have hplace : index / 8 < (bytes.extract first last).toList.length := by omega
    have hinside : first + index / 8 < bytes.size := by omega
    rw [testBit_joinBytes _ (by omega), bitAt, hdiv, hmod, List.getD_eq_getElem _ _ hplace]
    simp [Array.getD, hinside]

end Fields

namespace Cursor

/-- The cursor sees the first `size` of the bytes, and its block holds their bits from the position to
the end of what is loaded. -/
structure Exact (cursor : Cursor) (bytes : Array UInt8) (size : Nat) : Prop where
  bytes_eq : cursor.bytes = bytes
  size_eq : cursor.size = size
  size_le : size ≤ bytes.size
  loaded_le : cursor.loaded ≤ size
  pending_le : cursor.pending ≤ 8 * cursor.loaded
  block_eq : cursor.block.toNat = fieldAt bytes cursor.position cursor.pending

@[simp] theorem position_drain (cursor : Cursor) : cursor.drain.position = 8 * cursor.loaded :=
  rfl

@[simp] theorem position_restart (cursor : Cursor) (byte : Nat) :
    (cursor.restart byte).position = 8 * byte :=
  rfl

theorem position_skip {cursor : Cursor} {count : Nat} (hcount : count ≤ cursor.pending)
    (hpending : cursor.pending ≤ 8 * cursor.loaded) :
    (cursor.skip count).position = cursor.position + count := by
  simp only [position, skip]
  omega

theorem toNat_front (cursor : Cursor) {count : Nat} (hcount : count < 64) :
    (cursor.front count).toNat = cursor.block.toNat % 2 ^ count := by
  have hpower := toNat_one_shiftLeft hcount
  have hmask : ((1 : UInt64) <<< UInt64.ofNat count - 1).toNat = 2 ^ count - 1 := by
    rw [UInt64.toNat_sub_of_le, hpower, UInt64.toNat_one]
    rw [UInt64.le_iff_toNat_le, hpower, UInt64.toNat_one]
    exact Nat.one_le_two_pow
  rw [front, UInt64.toNat_and, hmask, Nat.and_two_pow_sub_one_eq_mod]

theorem nextWindow_eq_some {cursor window : Cursor} (hwindow : cursor.nextWindow = some window) :
    window.bytes = cursor.bytes ∧ window.size = cursor.size ∧
      window.position = 8 * cursor.loaded ∧
      window.loaded = min (cursor.loaded + windowSize) cursor.size ∧
      window.pending = 8 * (window.loaded - cursor.loaded) ∧ cursor.loaded < cursor.size ∧
      window.block = joinBytes (window.bytes.extract cursor.loaded window.loaded).toList := by
  unfold nextWindow at hwindow
  split at hwindow
  · simp at hwindow
  · obtain rfl := Option.some.inj hwindow
    refine ⟨rfl, rfl, ?_, rfl, rfl, by omega, rfl⟩
    simp only [position]
    omega

theorem not_badWidth {count : Nat} (hpositive : 0 < count) (hcount : count < 64) :
    ¬ (count = 0 ∨ 64 ≤ count) := by
  omega

theorem read_cases (cursor : Cursor) {count : Nat} (hpositive : 0 < count) (hcount : count < 64) :
    (count ≤ cursor.pending ∧
        read count cursor = .ok (cursor.front count) (cursor.skip count)) ∨
      (cursor.pending < count ∧ cursor.size ≤ cursor.loaded ∧
        read count cursor = .error .endOfData cursor.drain) ∨
      ∃ window, cursor.pending < count ∧ cursor.nextWindow = some window ∧
        ((count - cursor.pending ≤ window.pending ∧
            read count cursor = .ok
              (cursor.front cursor.pending |||
                window.front (count - cursor.pending) <<< UInt64.ofNat cursor.pending)
              (window.skip (count - cursor.pending))) ∨
          (window.pending < count - cursor.pending ∧
            read count cursor = .error .tooShort window)) := by
  have hvalid := not_badWidth hpositive hcount
  by_cases hpending : count ≤ cursor.pending
  · exact .inl ⟨hpending, by simp only [read, hvalid, hpending, if_true, if_false]⟩
  · cases hwindow : cursor.nextWindow with
    | none =>
        have hend : cursor.size ≤ cursor.loaded := by
          by_contra hmore
          simp [nextWindow, hmore] at hwindow
        refine .inr (.inl ⟨by omega, hend, ?_⟩)
        simp only [read, hvalid, hpending, hwindow, if_false]
    | some window =>
        refine .inr (.inr ⟨window, by omega, rfl, ?_⟩)
        by_cases hrest : count - cursor.pending ≤ window.pending
        · exact .inl ⟨hrest, by simp only [read, hvalid, hpending, hwindow, hrest, if_true, if_false]⟩
        · exact .inr ⟨by omega, by simp only [read, hvalid, hpending, hwindow, hrest, if_false]⟩

theorem read_badWidth (cursor : Cursor) {count : Nat} (hbad : count = 0 ∨ 64 ≤ count) :
    read count cursor = .error (.badWidth count) cursor := by
  simp only [read, hbad, if_true]

theorem toNat_lt_of_read {cursor next : Cursor} {count : Nat} {value : UInt64}
    (hread : read count cursor = .ok value next) : value.toNat < 2 ^ count := by
  by_cases hbad : count = 0 ∨ 64 ≤ count
  · rw [read_badWidth cursor hbad] at hread
    cases hread
  have hfront : ∀ (other : Cursor) (bits : Nat), bits < 64 → (other.front bits).toNat < 2 ^ bits := by
    intro other bits hbits
    rw [toNat_front other hbits]
    exact Nat.mod_lt _ (Nat.two_pow_pos _)
  obtain ⟨hpending, hrun⟩ | ⟨-, -, hrun⟩ | ⟨window, hpending, -, ⟨-, hrun⟩ | ⟨-, hrun⟩⟩ :=
    read_cases cursor (show 0 < count by omega) (show count < 64 by omega)
  · obtain ⟨rfl, -⟩ := EStateM.Result.ok.inj (hrun.symm.trans hread)
    exact hfront cursor count (by omega)
  · cases hrun.symm.trans hread
  · obtain ⟨rfl, -⟩ := EStateM.Result.ok.inj (hrun.symm.trans hread)
    have hlow := hfront cursor cursor.pending (by omega)
    have hhigh := hfront window (count - cursor.pending) (by omega)
    have hsum := add_mul_two_pow_lt hlow hhigh
    rw [Nat.add_sub_cancel' (by omega)] at hsum
    have hword : 2 ^ count ≤ 2 ^ 64 := Nat.pow_le_pow_right (by decide) (by omega)
    rwa [toNat_or_shiftLeft (by omega) hlow (by omega)]
  · cases hrun.symm.trans hread

section Exact

variable {cursor : Cursor} {bytes : Array UInt8} {size : Nat}

theorem Exact.position_le (hcursor : cursor.Exact bytes size) : cursor.position ≤ 8 * size := by
  have hloaded := hcursor.loaded_le
  rw [position]
  omega

theorem Exact.bitLength_eq (hcursor : cursor.Exact bytes size) : cursor.bitLength = 8 * size := by
  rw [bitLength, hcursor.size_eq]

theorem Exact.position_add_pending (hcursor : cursor.Exact bytes size) :
    cursor.position + cursor.pending = 8 * cursor.loaded := by
  have hpending := hcursor.pending_le
  rw [position]
  omega

theorem Exact.exhausted_iff (hcursor : cursor.Exact bytes size) :
    cursor.exhausted = true ↔ cursor.position = 8 * size := by
  have hplace := hcursor.position_add_pending
  have hsize := hcursor.size_eq
  have hloaded := hcursor.loaded_le
  simp only [exhausted, Bool.and_eq_true, beq_iff_eq, decide_eq_true_eq]
  omega

theorem exact_ofBytes (bytes : Array UInt8) : (ofBytes bytes).Exact bytes bytes.size :=
  ⟨rfl, rfl, Nat.le_refl _, Nat.zero_le _, Nat.zero_le _, rfl⟩

/-- Nothing is pending after a move to the start of a byte. -/
theorem Exact.restart (hcursor : cursor.Exact bytes size) {byte : Nat} (hbyte : byte ≤ size) :
    (cursor.restart byte).Exact bytes size :=
  ⟨hcursor.bytes_eq, hcursor.size_eq, hcursor.size_le, hbyte, Nat.zero_le _, rfl⟩

theorem Exact.drain (hcursor : cursor.Exact bytes size) : cursor.drain.Exact bytes size :=
  hcursor.restart hcursor.loaded_le

theorem Exact.skip (hcursor : cursor.Exact bytes size) {count : Nat} (hcount : count < 64)
    (hpending : count ≤ cursor.pending) : (cursor.skip count).Exact bytes size := by
  refine ⟨hcursor.bytes_eq, hcursor.size_eq, hcursor.size_le, hcursor.loaded_le, ?_, ?_⟩
  · exact Nat.le_trans (Nat.sub_le _ _) hcursor.pending_le
  · have hsplit : cursor.pending = count + (cursor.skip count).pending := by
      simp only [Cursor.skip]
      omega
    have hblock : (cursor.skip count).block.toNat = cursor.block.toNat / 2 ^ count :=
      toNat_shiftRight_ofNat _ hcount
    rw [hblock, hcursor.block_eq, position_skip hpending hcursor.pending_le, hsplit, fieldAt_div]

theorem Exact.front_eq (hcursor : cursor.Exact bytes size) {count : Nat} (hcount : count < 64)
    (hpending : count ≤ cursor.pending) :
    (cursor.front count).toNat = fieldAt bytes cursor.position count := by
  rw [toNat_front cursor hcount, hcursor.block_eq, fieldAt_mod hpending]

theorem Exact.nextWindow {window : Cursor} (hcursor : cursor.Exact bytes size)
    (hwindow : cursor.nextWindow = some window) : window.Exact bytes size := by
  obtain ⟨hbytes, hsize, hstart, hend, hpending, hmore, hblock⟩ := nextWindow_eq_some hwindow
  have hcursorSize := hcursor.size_eq
  have hle := hcursor.size_le
  rw [windowSize] at hend
  refine ⟨hbytes.trans hcursor.bytes_eq, hsize.trans hcursorSize, hle, by omega, by omega, ?_⟩
  rw [hblock, hbytes, hcursor.bytes_eq, hstart, hpending]
  exact toNat_joinBytes_extract (by omega) (by omega)

theorem Exact.joined_eq {window : Cursor} (hcursor : cursor.Exact bytes size)
    (hwindow : window.Exact bytes size) (hstart : window.position = 8 * cursor.loaded)
    {rest : Nat} (hpending : rest ≤ window.pending) (hcount : cursor.pending + rest < 64) :
    (cursor.front cursor.pending ||| window.front rest <<< UInt64.ofNat cursor.pending).toNat =
      fieldAt bytes cursor.position (cursor.pending + rest) := by
  have hlow := hcursor.front_eq (show cursor.pending < 64 by omega) (Nat.le_refl _)
  have hhigh := hwindow.front_eq (show rest < 64 by omega) hpending
  have hbound : fieldAt bytes window.position rest * 2 ^ cursor.pending < 2 ^ 64 := by
    calc fieldAt bytes window.position rest * 2 ^ cursor.pending
        < 2 ^ rest * 2 ^ cursor.pending :=
          Nat.mul_lt_mul_of_pos_right (fieldAt_lt _ _ _) (Nat.two_pow_pos _)
      _ = 2 ^ (rest + cursor.pending) := (Nat.pow_add _ _ _).symm
      _ ≤ 2 ^ 64 := Nat.pow_le_pow_right (by decide) (by omega)
  rw [toNat_or_shiftLeft (by omega) (hlow ▸ fieldAt_lt _ _ _) (hhigh ▸ hbound), hlow, hhigh,
    fieldAt_add, hcursor.position_add_pending, hstart]

/-- The cursor has loaded some windows more than another one. -/
def Along (next cursor : Cursor) : Prop :=
  ∃ windows, next.loaded = min (cursor.loaded + windowSize * windows) cursor.size

theorem Exact.along_of_loaded_eq {next : Cursor} (hcursor : cursor.Exact bytes size)
    (hloaded : next.loaded = cursor.loaded) : next.Along cursor := by
  have hsize := hcursor.size_eq
  have hinside := hcursor.loaded_le
  exact ⟨0, by omega⟩

theorem Along.trans {last next : Cursor} (hlast : last.Along next) (hnext : next.Along cursor)
    (hsize : next.size = cursor.size) : last.Along cursor := by
  obtain ⟨more, hmore⟩ := hlast
  obtain ⟨windows, hwindows⟩ := hnext
  refine ⟨windows + more, ?_⟩
  rw [windowSize] at *
  omega

theorem Exact.read_of_le (hcursor : cursor.Exact bytes size) {count : Nat} (hpositive : 0 < count)
    (hcount : count < 64) (hstop : cursor.position + count ≤ 8 * size) :
    ∃ next, read count cursor = .ok (UInt64.ofNat (fieldAt bytes cursor.position count)) next ∧
      next.Exact bytes size ∧ next.position = cursor.position + count ∧ next.Along cursor := by
  have hplace := hcursor.position_add_pending
  have hsize := hcursor.size_eq
  obtain ⟨hpending, hrun⟩ | ⟨hpending, hend, -⟩ | ⟨window, hpending, hwindow, hrest⟩ :=
    read_cases cursor hpositive hcount
  · have hvalue : cursor.front count = UInt64.ofNat (fieldAt bytes cursor.position count) := by
      rw [← hcursor.front_eq hcount hpending, UInt64.ofNat_toNat]
    exact ⟨_, hvalue ▸ hrun, hcursor.skip hcount hpending,
      position_skip hpending hcursor.pending_le, hcursor.along_of_loaded_eq rfl⟩
  · omega
  · obtain ⟨-, -, hstart, hloaded, hlength, hmore, -⟩ := nextWindow_eq_some hwindow
    have hexact := hcursor.nextWindow hwindow
    have hsplit : cursor.pending + (count - cursor.pending) = count := by omega
    obtain ⟨hlong, hrun⟩ | ⟨hshort, -⟩ := hrest
    · have hvalue := hcursor.joined_eq hexact hstart hlong (by omega)
      rw [hsplit] at hvalue
      refine ⟨_, ?_, hexact.skip (by omega) hlong, ?_, 1, hloaded⟩
      · rw [hrun, ← hvalue, UInt64.ofNat_toNat]
      · rw [position_skip hlong hexact.pending_le, hstart]
        omega
    · rw [windowSize] at hloaded
      omega

theorem Exact.read_of_lt (hcursor : cursor.Exact bytes size) {count : Nat} (hpositive : 0 < count)
    (hcount : count < 64) (hstop : 8 * size < cursor.position + count) :
    ∃ cause next, read count cursor = .error cause next ∧ next.Exact bytes size ∧
      next.position = 8 * cursor.loaded ∧ next.Along cursor := by
  have hplace := hcursor.position_add_pending
  have hsize := hcursor.size_eq
  have hinside := hcursor.loaded_le
  obtain ⟨hpending, -⟩ | ⟨-, -, hrun⟩ | ⟨window, hpending, hwindow, hrest⟩ :=
    read_cases cursor hpositive hcount
  · omega
  · exact ⟨_, _, hrun, hcursor.drain, rfl, hcursor.along_of_loaded_eq rfl⟩
  · obtain ⟨-, -, hstart, hloaded, hlength, hmore, -⟩ := nextWindow_eq_some hwindow
    obtain ⟨hlong, -⟩ | ⟨-, hrun⟩ := hrest
    · have hwindowSize := (hcursor.nextWindow hwindow).loaded_le
      omega
    · exact ⟨_, _, hrun, hcursor.nextWindow hwindow, hstart, 1, hloaded⟩

end Exact

end Cursor

end Bitcode.Bits
