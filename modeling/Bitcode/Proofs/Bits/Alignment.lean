import Bitcode.Proofs.Bits.Exactness

namespace Bitcode.Bits.Cursor

/-- The byte that windows are counted from after calls: that of the last seek that was let through,
and `byte` where there was none. -/
def origin : Cursor → Nat → List Call → Nat
  | _, byte, [] => byte
  | cursor, byte, call :: rest => origin (call.run cursor) ((call.byte? cursor).getD byte) rest

section Exact

variable {cursor : Cursor} {bytes : Array UInt8} {size : Nat}

theorem Exact.loaded_after (hcursor : cursor.Exact bytes size) {byte : Nat}
    (hloaded : ∃ windows, cursor.loaded = min (byte + windowSize * windows) size)
    (calls : List Call) :
    ∃ windows, (cursor.after calls).loaded =
      min (cursor.origin byte calls + windowSize * windows) size := by
  induction calls generalizing cursor byte with
  | nil => exact hloaded
  | cons call rest ih =>
      obtain ⟨hnext, more, hmore⟩ := hcursor.run call
      apply ih hnext
      cases hbyte : call.byte? cursor with
      | none =>
          rw [hbyte, Option.getD_none] at hmore
          obtain ⟨windows, hwindows⟩ := hloaded
          refine ⟨windows + more, ?_⟩
          rw [Option.getD_none, hmore, hwindows, windowSize]
          omega
      | some target =>
          rw [hbyte, Option.getD_some] at hmore
          exact ⟨more, hmore⟩

theorem Exact.position_align32 (hcursor : cursor.Exact bytes size) {boundary : Nat}
    (hboundary : IsLeast {bit | 32 ∣ bit ∧ cursor.position ≤ bit} boundary) :
    cursor.align32.position = min boundary (8 * cursor.loaded) := by
  obtain ⟨⟨hword, hforward⟩, hleast⟩ := hboundary
  have hplace := hcursor.position_add_pending
  have hnearest : boundary < cursor.position + 32 := by
    by_contra hfar
    have hearlier : boundary ≤ boundary - 32 := hleast ⟨by omega, by omega⟩
    omega
  unfold Cursor.align32
  by_cases haligned : cursor.position % 32 = 0
  · rw [if_pos haligned]
    omega
  · rw [if_neg haligned]
    split
    · rename_i hpending
      rw [position_skip hpending hcursor.pending_le]
      omega
    · rw [position_drain]
      omega

end Exact

/-- Whatever calls a new cursor has served, it has loaded some windows from the byte of the last seek
on. An alignment changes nothing at a word boundary, and reaches the next one, or the end of the bytes
if that comes first, exactly if the loaded bytes do, which is always so if the last seek went to the
start of a word. -/
theorem align32_reaches_iff {bytes : Array UInt8} {start cursor : Cursor} {boundary : Nat}
    (hstart : start.Opens bytes) (calls : List Call) (hcursor : start.after calls = cursor)
    (hboundary : IsLeast {bit | 32 ∣ bit ∧ cursor.position ≤ bit} boundary) :
    (∃ windows, cursor.loaded = min (start.origin 0 calls + windowSize * windows) cursor.size) ∧
      cursor.align32.position = min boundary (8 * cursor.loaded) ∧
      (32 ∣ cursor.position → cursor.align32 = cursor) ∧
      (cursor.align32.position = min boundary cursor.bitLength ↔
        min boundary cursor.bitLength ≤ 8 * cursor.loaded) ∧
      (4 ∣ start.origin 0 calls → cursor.align32.position = min boundary cursor.bitLength) := by
  subst hcursor
  have hexact := hstart.exact.after calls
  have hinside := hexact.loaded_le
  have hplace := hexact.position_add_pending
  have hnew : start.loaded = min (0 + windowSize * 0) start.size := by
    obtain ⟨size, -, rfl⟩ := hstart.eq_new
    exact (Nat.zero_min size).symm
  obtain ⟨windows, hloaded⟩ := hstart.exact.loaded_after ⟨0, hnew⟩ calls
  rw [hexact.bitLength_eq, hexact.size_eq, hexact.position_align32 hboundary]
  refine ⟨⟨windows, hloaded⟩, rfl, ?_, by omega, ?_⟩
  · intro haligned
    rw [align32]
    exact if_pos (Nat.mod_eq_zero_of_dvd haligned)
  · intro hword
    -- All windows but the last end at a word boundary, and none of these comes before the least.
    by_cases hlast : (start.after calls).loaded = start.size
    · rw [hlast]
    · rw [windowSize] at hloaded
      have hnearest : boundary ≤ 8 * (start.after calls).loaded :=
        hboundary.2 ⟨by omega, by omega⟩
      omega

/-- Four words of zeros. -/
def fourWords : Array UInt8 :=
  Array.replicate 16 0

/-- The seek to byte 4 makes up for the one to byte 1. -/
def straighteningCalls : List Call :=
  [.seek .start 1, .read 60, .seek .current (-4), .read 3]

theorem align32_reaches_fourWords :
    ∃ cursor, (ofBytes fourWords).Opens fourWords ∧
      (ofBytes fourWords).after straighteningCalls = cursor ∧ cursor.position = 35 ∧
      IsLeast {bit | 32 ∣ bit ∧ cursor.position ≤ bit} 64 ∧
      4 ∣ (ofBytes fourWords).origin 0 straighteningCalls ∧ cursor.align32.position = 64 := by
  have hopens : (ofBytes fourWords).Opens fourWords := .inl rfl
  have hposition : ((ofBytes fourWords).after straighteningCalls).position = 35 := by decide +kernel
  have hboundary :
      IsLeast {bit | 32 ∣ bit ∧ ((ofBytes fourWords).after straighteningCalls).position ≤ bit}
        64 := by
    rw [hposition]
    refine ⟨⟨by decide, by decide⟩, ?_⟩
    rintro bit ⟨hword, hforward⟩
    omega
  have hword : 4 ∣ (ofBytes fourWords).origin 0 straighteningCalls := by decide +kernel
  obtain ⟨-, -, -, -, hreaches⟩ := align32_reaches_iff hopens straighteningCalls rfl hboundary
  have hlength : ((ofBytes fourWords).after straighteningCalls).bitLength = 128 := by decide +kernel
  rw [hlength] at hreaches
  exact ⟨_, hopens, rfl, hposition, hboundary, hword, hreaches hword⟩

/-- After a seek to a byte inside a word, an alignment stops at the end of a window. -/
theorem align32_stops_fourWords :
    ((ofBytes fourWords).after [.seek .start 1, .read 60]).position = 68 ∧
      IsLeast {bit | 32 ∣ bit ∧ 68 ≤ bit} 96 ∧ (ofBytes fourWords).bitLength = 128 ∧
      ((ofBytes fourWords).after [.seek .start 1, .read 60]).align32.position = 72 := by
  refine ⟨by decide +kernel, ⟨⟨by decide, by decide⟩, ?_⟩, by decide, by decide +kernel⟩
  rintro bit ⟨hword, hforward⟩
  omega

end Bitcode.Bits.Cursor
