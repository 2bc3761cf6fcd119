import Bitcode.Proofs.Bits.Outcome

namespace Bitcode.Bits

namespace Vbr

/-- The chunks up to number `last` are read as one integer: all but the last have marks, and the
payloads fit below the 64th bit at their places. -/
structure Accepts (width : Nat) (chunk : Nat → Nat) (last : Nat) : Prop where
  marked : ∀ index < last, 2 ^ (width - 1) ≤ chunk index
  unmarked : chunk last < 2 ^ (width - 1)
  place_lt : last * (width - 1) < 64
  fits : ∀ index ≤ last,
    chunk index % 2 ^ (width - 1) * 2 ^ (index * (width - 1)) < 2 ^ 64

/-- What the payloads of the first chunks add up to at their places. -/
def total (width : Nat) (chunk : Nat → Nat) (count : Nat) : Nat :=
  ∑ index ∈ Finset.range count, chunk index % 2 ^ (width - 1) * 2 ^ (index * (width - 1))

theorem total_succ (width : Nat) (chunk : Nat → Nat) (count : Nat) :
    total width chunk (count + 1) = total width chunk count +
      chunk count % 2 ^ (width - 1) * 2 ^ (count * (width - 1)) :=
  Finset.sum_range_succ _ _

theorem total_lt (width : Nat) (chunk : Nat → Nat) (count : Nat) :
    total width chunk count < 2 ^ (count * (width - 1)) := by
  induction count with
  | zero => simp [total]
  | succ count ih =>
      rw [total_succ, Nat.succ_mul]
      exact add_mul_two_pow_lt ih (Nat.mod_lt _ (Nat.two_pow_pos _))

theorem add_payload_lt_word {low payload shift : Nat} (hlow : low < 2 ^ shift) (hshift : shift < 64)
    (hfits : payload * 2 ^ shift < 2 ^ 64) : low + payload * 2 ^ shift < 2 ^ 64 := by
  have hplaces : shift + (64 - shift) = 64 := by omega
  have hpayload : payload < 2 ^ (64 - shift) := by
    rw [← hplaces, Nat.pow_add, Nat.mul_comm] at hfits
    exact Nat.lt_of_mul_lt_mul_left hfits
  have hsum := add_mul_two_pow_lt hlow hpayload
  rwa [hplaces] at hsum

theorem total_succ_lt_word {width count : Nat} {chunk : Nat → Nat}
    (hplace : count * (width - 1) < 64)
    (hfits : chunk count % 2 ^ (width - 1) * 2 ^ (count * (width - 1)) < 2 ^ 64) :
    total width chunk (count + 1) < 2 ^ 64 := by
  rw [total_succ]
  exact add_payload_lt_word (total_lt width chunk count) hplace hfits

theorem moreBits_le {width : Nat} (hwidth : ValidWidth width) (count steps : Nat) (left : UInt64)
    (hleft : left.toNat < 2 ^ (count * (width - 1))) :
    moreBits width steps left ≤ count * width := by
  induction count generalizing steps left with
  | zero =>
      have hzero : left = 0 := by
        rw [← UInt64.toNat_inj, UInt64.toNat_zero]
        simpa using hleft
      subst hzero
      cases steps with
      | zero => exact Nat.zero_le _
      | succ steps => simp [moreBits]
  | succ count ih =>
      cases steps with
      | zero => exact Nat.zero_le _
      | succ steps =>
          rw [moreBits]
          split
          · exact Nat.zero_le _
          · have hnext : (left >>> UInt64.ofNat (width - 1)).toNat < 2 ^ (count * (width - 1)) := by
              rw [toNat_shiftRight_half hwidth, Nat.div_lt_iff_lt_mul (Nat.two_pow_pos _),
                ← Nat.pow_add, ← Nat.succ_mul]
              exact hleft
            have hrest := ih steps _ hnext
            rw [Nat.succ_mul]
            omega

theorem bitSize_le {width : Nat} (hwidth : ValidWidth width) (last : Nat) (value : UInt64)
    (hvalue : value.toNat < 2 ^ ((last + 1) * (width - 1))) :
    bitSize value width ≤ (last + 1) * width := by
  have hleft : (value >>> UInt64.ofNat (width - 1)).toNat < 2 ^ (last * (width - 1)) := by
    rw [toNat_shiftRight_half hwidth, Nat.div_lt_iff_lt_mul (Nat.two_pow_pos _), ← Nat.pow_add,
      ← Nat.succ_mul]
    exact hvalue
  have hmore := moreBits_le hwidth last 64 _ hleft
  rw [bitSize, Nat.succ_mul]
  omega

end Vbr

namespace Cursor

section Chunks

variable {width : Nat} {bytes : Array UInt8} {size start : Nat} {chunk : Nat → Nat}

/-- The cursor has read the first chunks, and holds their total. -/
structure HasRead (cursor : Cursor) (bytes : Array UInt8) (size start width : Nat)
    (chunk : Nat → Nat) (count : Nat) (value : UInt64) : Prop where
  exact : cursor.Exact bytes size
  position_eq : cursor.position = start + count * width
  chunk_eq : ∀ index, chunk index = fieldAt bytes (start + index * width) width
  value_eq : value.toNat = Vbr.total width chunk count
  marked : ∀ index < count, 2 ^ (width - 1) ≤ chunk index
  fits : ∀ index < count, chunk index % 2 ^ (width - 1) * 2 ^ (index * (width - 1)) < 2 ^ 64

variable {cursor : Cursor} {count : Nat} {value : UInt64}

theorem HasRead.value_lt (hcursor : cursor.HasRead bytes size start width chunk count value) :
    value.toNat < 2 ^ (count * (width - 1)) := by
  rw [hcursor.value_eq]
  exact Vbr.total_lt width chunk count

/-- The next chunk is read if the bytes hold it. -/
theorem HasRead.read (hcursor : cursor.HasRead bytes size start width chunk count value)
    (hwidth : Vbr.ValidWidth width) (hstop : start + (count + 1) * width ≤ 8 * size) :
    ∃ found next, Cursor.read width cursor = .ok found next ∧ found.toNat = chunk count ∧
      next.Exact bytes size ∧ next.position = start + (count + 1) * width := by
  have hposition := hcursor.position_eq
  rw [Nat.succ_mul] at hstop ⊢
  obtain ⟨next, hread, hnext, hmoved, -⟩ :=
    hcursor.exact.read_of_le hwidth.pos hwidth.lt_word (by omega)
  refine ⟨_, next, hread, ?_, hnext, by omega⟩
  rw [toNat_ofNat_fieldAt (Nat.le_of_lt hwidth.lt_word), hposition, hcursor.chunk_eq]

theorem HasRead.fits_le (hcursor : cursor.HasRead bytes size start width chunk count value)
    (hfits : chunk count % 2 ^ (width - 1) * 2 ^ (count * (width - 1)) < 2 ^ 64) {index : Nat}
    (hindex : index ≤ count) :
    chunk index % 2 ^ (width - 1) * 2 ^ (index * (width - 1)) < 2 ^ 64 := by
  obtain hearlier | rfl := Nat.lt_or_eq_of_le hindex
  · exact hcursor.fits index hearlier
  · exact hfits

theorem HasRead.step (hcursor : cursor.HasRead bytes size start width chunk count value)
    {next : Cursor} (hnext : next.Exact bytes size)
    (hposition : next.position = start + (count + 1) * width)
    (hmarked : 2 ^ (width - 1) ≤ chunk count) (hplace : count * (width - 1) < 64)
    (hfits : chunk count % 2 ^ (width - 1) * 2 ^ (count * (width - 1)) < 2 ^ 64) :
    next.HasRead bytes size start width chunk (count + 1)
      (UInt64.ofNat (Vbr.total width chunk (count + 1))) := by
  refine ⟨hnext, hposition, hcursor.chunk_eq, ?_, ?_, ?_⟩
  · exact UInt64.toNat_ofNat_of_lt' (Vbr.total_succ_lt_word hplace hfits)
  · intro index hindex
    obtain hearlier | rfl := Nat.lt_succ_iff_lt_or_eq.mp hindex
    · exact hcursor.marked index hearlier
    · exact hmarked
  · intro index hindex
    exact hcursor.fits_le hfits (Nat.le_of_lt_succ hindex)

theorem HasRead.readChunks_eq (hcursor : cursor.HasRead bytes size start width chunk count value)
    (hwidth : Vbr.ValidWidth width) {remaining : Nat} {found : UInt64} {next : Cursor}
    (hread : Cursor.read width cursor = .ok found next) (hfound : found.toNat = chunk count) :
    readChunks width (remaining + 1) (count * (width - 1)) value cursor =
      if 64 ≤ count * (width - 1) ∨
          2 ^ 64 ≤ chunk count % 2 ^ (width - 1) * 2 ^ (count * (width - 1)) then
        .error .vbrOverflow next
      else if 2 ^ (width - 1) ≤ chunk count then
        readChunks width remaining ((count + 1) * (width - 1))
          (UInt64.ofNat (Vbr.total width chunk (count + 1))) next
      else .ok (UInt64.ofNat (Vbr.total width chunk (count + 1))) next := by
  rw [readChunks_of_read hwidth hcursor.value_lt hread, hfound, hcursor.value_eq, Vbr.total_succ,
    Nat.succ_mul]

theorem HasRead.accepts (hwidth : Vbr.ValidWidth width) (remaining : Nat)
    (hcursor : cursor.HasRead bytes size start width chunk count value) {result : UInt64}
    {final : Cursor}
    (hrun : readChunks width remaining (count * (width - 1)) value cursor = .ok result final) :
    ∃ last, Vbr.Accepts width chunk last ∧ start + (last + 1) * width ≤ 8 * size ∧
      result.toNat = Vbr.total width chunk (last + 1) ∧
      final.position = start + (last + 1) * width := by
  induction remaining generalizing cursor count value with
  | zero => exact absurd hrun (throw_ne_ok _ _ _ _)
  | succ remaining ih =>
      by_cases hstop : start + (count + 1) * width ≤ 8 * size
      · obtain ⟨found, next, hread, hfound, hnext, hposition⟩ := hcursor.read hwidth hstop
        rw [hcursor.readChunks_eq hwidth hread hfound] at hrun
        split at hrun
        · cases hrun
        · rename_i hsmall
          rw [not_or, Nat.not_le, Nat.not_le] at hsmall
          obtain ⟨hplace, hfits⟩ := hsmall
          split at hrun
          · exact ih (hcursor.step hnext hposition ‹_› hplace hfits) hrun
          · obtain ⟨rfl, rfl⟩ := EStateM.Result.ok.inj hrun
            have haccepts : Vbr.Accepts width chunk count :=
              ⟨hcursor.marked, Nat.lt_of_not_le ‹_›, hplace, fun _ => hcursor.fits_le hfits⟩
            refine ⟨count, haccepts, hstop, ?_, hposition⟩
            exact UInt64.toNat_ofNat_of_lt' (Vbr.total_succ_lt_word hplace hfits)
      · have hposition := hcursor.position_eq
        rw [Nat.succ_mul] at hstop
        obtain ⟨cause, next, hread, -⟩ :=
          hcursor.exact.read_of_lt hwidth.pos hwidth.lt_word (by omega)
        rw [readChunks, bind_apply_of_error hread] at hrun
        cases hrun

theorem HasRead.readChunks_of_accepts (hwidth : Vbr.ValidWidth width) (remaining : Nat)
    (hcursor : cursor.HasRead bytes size start width chunk count value) {last : Nat}
    (haccepts : Vbr.Accepts width chunk last) (hcount : count ≤ last)
    (hremaining : last < count + remaining) (hstop : start + (last + 1) * width ≤ 8 * size) :
    ∃ final, readChunks width remaining (count * (width - 1)) value cursor =
        .ok (UInt64.ofNat (Vbr.total width chunk (last + 1))) final ∧
      final.position = start + (last + 1) * width := by
  induction remaining generalizing cursor count value with
  | zero => omega
  | succ remaining ih =>
      have hnear : (count + 1) * width ≤ (last + 1) * width := Nat.mul_le_mul_right _ (by omega)
      have hplace : count * (width - 1) < 64 :=
        Nat.lt_of_le_of_lt (Nat.mul_le_mul_right _ hcount) haccepts.place_lt
      have hfits := haccepts.fits count hcount
      obtain ⟨found, next, hread, hfound, hnext, hposition⟩ := hcursor.read hwidth (by omega)
      rw [hcursor.readChunks_eq hwidth hread hfound, if_neg (by omega)]
      obtain hearlier | rfl := Nat.lt_or_eq_of_le hcount
      · have hmarked := haccepts.marked count hearlier
        rw [if_pos hmarked]
        exact ih (hcursor.step hnext hposition hmarked hplace hfits) hearlier (by omega)
      · rw [if_neg (Nat.not_le.mpr haccepts.unmarked)]
        exact ⟨next, rfl, hposition⟩

end Chunks

section Allowance

variable {width : Nat}

theorem readChunks_succ_congr {remaining others shift : Nat} (value : UInt64)
    (hrest : shift < 64 → ∀ joined, readChunks width remaining (shift + (width - 1)) joined =
      readChunks width others (shift + (width - 1)) joined) :
    readChunks width (remaining + 1) shift value = readChunks width (others + 1) shift value := by
  rw [readChunks, readChunks]
  apply congrArg (read width >>= ·)
  funext chunk
  cases hjoin : Vbr.join? value (Vbr.payload width chunk) shift with
  | none => rfl
  | some joined =>
      have hshift : shift < 64 := by
        by_contra hlarge
        simp [Vbr.join?, Nat.not_lt.mp hlarge] at hjoin
      simp only [hrest hshift]

theorem readChunks_add (hwidth : Vbr.ValidWidth width) (remaining more shift : Nat) (value : UInt64)
    (henough : 64 ≤ remaining + shift) :
    readChunks width (remaining + more + 1) shift value =
      readChunks width (remaining + 1) shift value := by
  induction remaining generalizing shift value with
  | zero => exact readChunks_succ_congr value fun hshift => by omega
  | succ remaining ih =>
      apply readChunks_succ_congr
      intro _ joined
      obtain ⟨hleast, -⟩ := hwidth
      rw [Nat.add_right_comm remaining 1 more]
      exact ih _ joined (by omega)

theorem Exact.position_endOf_readChunks {bytes : Array UInt8} {size : Nat} {cursor : Cursor}
    (hwidth : Vbr.ValidWidth width) (remaining shift : Nat) (value : UInt64)
    (hcursor : cursor.Exact bytes size) :
    (endOf (readChunks width remaining shift value) cursor).position ≤
      cursor.position + remaining * width := by
  induction remaining generalizing cursor shift value with
  | zero => exact Nat.le_add_right _ _
  | succ remaining ih =>
      rw [Nat.succ_mul, readChunks]
      by_cases hstop : cursor.position + width ≤ 8 * size
      · obtain ⟨next, hread, hnext, hposition, -⟩ :=
          hcursor.read_of_le hwidth.pos hwidth.lt_word hstop
        rw [endOf_bind_of_ok hread]
        cases Vbr.join? value (Vbr.payload width _) shift with
        | none =>
            change next.position ≤ _
            omega
        | some joined =>
            cases Vbr.continues width _ with
            | true =>
                have hrest := ih (shift + (width - 1)) joined hnext
                simp only [if_true]
                omega
            | false =>
                change next.position ≤ _
                omega
      · obtain ⟨cause, next, hread, hnext, -⟩ :=
          hcursor.read_of_lt hwidth.pos hwidth.lt_word (Nat.lt_of_not_le hstop)
        have hinside := hnext.position_le
        rw [endOf_of_error (bind_apply_of_error hread)]
        omega

end Allowance

section Integers

variable {width : Nat} {bytes : Array UInt8} {size : Nat} {cursor : Cursor}

theorem readVbr_eq (hwidth : Vbr.ValidWidth width) :
    readVbr width = readChunks width 65 (0 * (width - 1)) 0 := by
  rw [Nat.zero_mul]
  exact if_pos hwidth

theorem Exact.hasRead_zero (hcursor : cursor.Exact bytes size) (width : Nat) :
    cursor.HasRead bytes size cursor.position width
      (fun index => fieldAt bytes (cursor.position + index * width) width) 0 0 :=
  ⟨hcursor, by omega, fun _ => rfl, by simp [Vbr.total], by simp, by simp⟩

theorem Exact.readVbr_eq_ok_iff (hcursor : cursor.Exact bytes size) (hwidth : Vbr.ValidWidth width)
    (value : UInt64) (stop : Nat) :
    (∃ next, readVbr width cursor = .ok value next ∧ next.position = stop) ↔
      ∃ last,
        Vbr.Accepts width (fun index => fieldAt bytes (cursor.position + index * width) width) last ∧
        cursor.position + (last + 1) * width ≤ 8 * size ∧
        value.toNat = Vbr.total width
          (fun index => fieldAt bytes (cursor.position + index * width) width) (last + 1) ∧
        stop = cursor.position + (last + 1) * width := by
  have hnew := hcursor.hasRead_zero width
  rw [readVbr_eq hwidth]
  constructor
  · rintro ⟨next, hrun, rfl⟩
    exact hnew.accepts hwidth 65 hrun
  · rintro ⟨last, haccepts, hstop, hvalue, rfl⟩
    -- Every chunk takes a place of its own below the 64th, so the allowance is enough.
    have hplace := haccepts.place_lt
    have hleast := hwidth.1
    have hlast : last ≤ last * (width - 1) := Nat.le_mul_of_pos_right _ (by omega)
    obtain ⟨final, hrun, hposition⟩ :=
      hnew.readChunks_of_accepts hwidth 65 haccepts (Nat.zero_le _) (by omega) hstop
    refine ⟨final, ?_, hposition⟩
    rw [hrun, ← hvalue, UInt64.ofNat_toNat]

theorem Exact.bitSize_le_of_readVbr (hcursor : cursor.Exact bytes size)
    (hwidth : Vbr.ValidWidth width) {value : UInt64} {next : Cursor}
    (hread : readVbr width cursor = .ok value next) :
    cursor.position + Vbr.bitSize value width ≤ next.position := by
  obtain ⟨last, -, -, hvalue, hposition⟩ :=
    (hcursor.readVbr_eq_ok_iff hwidth value next.position).mp ⟨next, hread, rfl⟩
  have hsize := Vbr.bitSize_le hwidth last value (hvalue ▸ Vbr.total_lt _ _ _)
  omega

end Integers

end Cursor

theorem Writer.readVbr_of_emitVbr {width : Nat} {value : UInt64} {writer next final : Writer}
    {more : List Bool} (hwrite : emitVbr value width writer = .ok () next)
    (hfinal : final.bits = next.bits ++ more) :
    ∃ sought stopped,
      Cursor.seekBit writer.bitPosition (Cursor.ofBytes final.toBytes) = .ok () sought ∧
        Cursor.readVbr width sought = .ok value stopped ∧ stopped.position = next.bitPosition := by
  obtain ⟨bits, hnext, hreads⟩ := transmits_emitVbr value width writer next hwrite
  rw [hnext, append_list_assoc] at hfinal
  have hholds := holds_toBytes hfinal
  have hinside := hholds.length_le
  obtain ⟨sought, hseek, hsought⟩ := Cursor.standsAt_seekBit (size_toBytes_mod final)
    (show writer.bits.size ≤ 8 * final.toBytes.size by omega)
  obtain ⟨stopped, hread, hstopped⟩ := hreads _ (holds_append.mp hholds).1 sought hsought
  refine ⟨sought, stopped, hseek, hread, ?_⟩
  rw [hstopped.position_eq, bitPosition, hnext, size_append_list]

open Cursor in
/-- A variable-width integer of any cursor state is read exactly if the bytes hold its chunks, its
places are below the 64th bit and its payloads fit there. Then the result is the sum of the payloads at
their places, and the cursor has moved over the chunks. No run gets past 65 chunks. Every value can be
written, takes as many bits as its size says, is read back, and is not read from fewer bits. -/
theorem readVbr_exact {width : Nat} (hwidth : Vbr.ValidWidth width) :
    (∀ (bytes : Array UInt8) (start cursor : Cursor) (calls : List Call),
      start.Opens bytes → start.after calls = cursor →
        (∀ value stop,
          (∃ next, readVbr width cursor = .ok value next ∧ next.position = stop) ↔
            ∃ last,
              Vbr.Accepts width
                (fun index => fieldAt bytes (cursor.position + index * width) width) last ∧
              cursor.position + (last + 1) * width ≤ cursor.bitLength ∧
              value.toNat = ∑ index ∈ Finset.range (last + 1),
                fieldAt bytes (cursor.position + index * width) width % 2 ^ (width - 1) *
                  2 ^ (index * (width - 1)) ∧
              stop = cursor.position + (last + 1) * width) ∧
        (∀ more, readChunks width (65 + more) 0 0 cursor = readVbr width cursor) ∧
        (endOf (readVbr width) cursor).position ≤ cursor.position + 65 * width ∧
        ∀ value next, readVbr width cursor = .ok value next →
          cursor.position + Vbr.bitSize value width ≤ next.position) ∧
      ∀ (value : UInt64) (writer : Writer),
        ∃ next, Writer.emitVbr value width writer = .ok () next ∧
          next.bitPosition = writer.bitPosition + Vbr.bitSize value width ∧
          ∀ (final : Writer) (more : List Bool), final.bits = next.bits ++ more →
            ∃ sought stopped,
              seekBit writer.bitPosition (ofBytes final.toBytes) = .ok () sought ∧
                readVbr width sought = .ok value stopped ∧
                stopped.position = next.bitPosition := by
  constructor
  · rintro bytes start cursor calls hstart rfl
    have hexact := hstart.exact.after calls
    rw [hexact.bitLength_eq]
    refine ⟨hexact.readVbr_eq_ok_iff hwidth, ?_, ?_, ?_⟩
    · intro more
      have hallowance : 65 + more = 64 + more + 1 := by omega
      rw [readVbr_eq hwidth, Nat.zero_mul, hallowance, readChunks_add hwidth 64 more 0 0 (by decide)]
    · rw [readVbr_eq hwidth]
      exact hexact.position_endOf_readChunks hwidth 65 _ 0
    · intro value next hread
      exact hexact.bitSize_le_of_readVbr hwidth hread
  · intro value writer
    obtain ⟨_, next, hwrite⟩ := Writer.succeeds_emitVbr value hwidth writer
    obtain ⟨bits, hbits, hlength⟩ := Writer.appends_emitVbr value width hwrite
    refine ⟨next, hwrite, ?_, fun final more hfinal => Writer.readVbr_of_emitVbr hwrite hfinal⟩
    rw [Writer.bitPosition, hbits, size_append_list, hlength]
    rfl

/-- Two marked chunks of ones, and a last one at place 62. -/
def fullChunks (last : UInt8) : Array UInt8 :=
  #[0xff, 0xff, 0xff, 0xff, 0xff, 0xff, 0xff, 0xff, last, 0, 0, 0]

open Cursor in
theorem readVbr_exact_fullChunks :
    Vbr.ValidWidth 32 ∧ (ofBytes (fullChunks 3)).Opens (fullChunks 3) ∧
      (ofBytes (fullChunks 4)).Opens (fullChunks 4) ∧
      (∃ next, readVbr 32 (ofBytes (fullChunks 3)) = .ok 0xffffffffffffffff next ∧
        next.position = 96) ∧
      ¬ ∃ value next, readVbr 32 (ofBytes (fullChunks 4)) = .ok value next := by
  have hwidth : Vbr.ValidWidth 32 := by decide
  have hthree : (ofBytes (fullChunks 3)).Opens (fullChunks 3) := .inl rfl
  have hfour : (ofBytes (fullChunks 4)).Opens (fullChunks 4) := .inl rfl
  obtain ⟨hreads, -⟩ := readVbr_exact hwidth
  refine ⟨hwidth, hthree, hfour, ?_, ?_⟩
  · refine ((hreads _ _ _ [] hthree rfl).1 0xffffffffffffffff 96).mpr
      ⟨2, ⟨?_, ?_, ?_, ?_⟩, ?_, ?_, rfl⟩
    all_goals decide +kernel
  · rintro ⟨value, next, hread⟩
    obtain ⟨last, haccepts, -⟩ :=
      ((hreads _ _ _ [] hfour rfl).1 value next.position).mp ⟨next, hread, rfl⟩
    -- Only the third chunk has no mark, and its payload is the 64th bit at its place.
    obtain hfirst | rfl | hlater := Nat.lt_trichotomy last 2
    · interval_cases last
      · exact absurd haccepts.unmarked (by decide +kernel)
      · exact absurd haccepts.unmarked (by decide +kernel)
    · exact absurd (haccepts.fits 2 (Nat.le_refl _)) (by decide +kernel)
    · exact absurd (haccepts.marked 2 hlater) (by decide +kernel)

end Bitcode.Bits
