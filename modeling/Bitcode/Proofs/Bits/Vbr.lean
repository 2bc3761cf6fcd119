import Bitcode.Proofs.Bits.Transmission

namespace Bitcode.Bits

namespace Vbr

theorem ValidWidth.pos {width : Nat} (hwidth : ValidWidth width) : 0 < width := by
  obtain ⟨hleast, -⟩ := hwidth
  omega

theorem ValidWidth.lt_word {width : Nat} (hwidth : ValidWidth width) : width < 64 :=
  Nat.lt_of_le_of_lt hwidth.2 (by decide)

theorem cut_lt {half : Nat} (hhalf : 0 < half) (steps value chunk : Nat)
    (hvalue : value < half ^ (steps + 1)) (hchunk : chunk ∈ cut half steps value) :
    chunk < 2 * half := by
  induction steps generalizing value with
  | zero =>
      have hlast : chunk = value := by simpa [cut] using hchunk
      have hsmall : value < half := by simpa using hvalue
      omega
  | succ steps ih =>
      rw [cut] at hchunk
      split at hchunk
      · have hlast : chunk = value := by simpa using hchunk
        omega
      · rcases List.mem_cons.mp hchunk with hfirst | hrest
        · have hremainder := Nat.mod_lt value hhalf
          omega
        · refine ih (value / half) ?_ hrest
          rw [Nat.div_lt_iff_lt_mul hhalf]
          simpa [Nat.pow_succ] using hvalue

theorem toNat_lt_half_pow {width : Nat} (hwidth : ValidWidth width) (value : UInt64) :
    value.toNat < (2 ^ (width - 1)) ^ (64 + 1) := by
  obtain ⟨hleast, -⟩ := hwidth
  have hbase : 2 ≤ 2 ^ (width - 1) := by
    calc 2 = 2 ^ 1 := rfl
      _ ≤ 2 ^ (width - 1) := Nat.pow_le_pow_right (by omega) (by omega)
  calc value.toNat < 2 ^ 64 := value.toNat_lt
    _ ≤ 2 ^ (64 + 1) := Nat.pow_le_pow_right (by omega) (by omega)
    _ ≤ (2 ^ (width - 1)) ^ (64 + 1) := Nat.pow_le_pow_left hbase _

theorem two_mul_half {width : Nat} (hwidth : ValidWidth width) :
    2 * 2 ^ (width - 1) = 2 ^ width := by
  obtain ⟨hleast, -⟩ := hwidth
  rw [Nat.mul_comm, ← Nat.pow_succ]
  congr 1
  omega

theorem chunks_eq (width : Nat) (value : UInt64) :
    chunks width value = cut (2 ^ (width - 1)) 64 value.toNat := by
  rw [chunks, Nat.one_shiftLeft]

section Words

variable {width : Nat} {chunk : UInt64}

theorem toNat_mark (hwidth : ValidWidth width) : (mark width).toNat = 2 ^ (width - 1) := by
  have hword := hwidth.lt_word
  exact toNat_one_shiftLeft (by omega)

theorem testBit_mark (hwidth : ValidWidth width) (index : Nat) :
    (mark width).toNat.testBit index = decide (width - 1 = index) := by
  rw [toNat_mark hwidth, Nat.testBit_two_pow]

theorem continues_iff (hwidth : ValidWidth width) (hchunk : chunk.toNat < 2 ^ width) :
    continues width chunk = true ↔ 2 ^ (width - 1) ≤ chunk.toNat := by
  have hdouble := two_mul_half hwidth
  have htop : chunk.toNat.testBit (width - 1) = decide (2 ^ (width - 1) ≤ chunk.toNat) := by
    by_cases hmarked : 2 ^ (width - 1) ≤ chunk.toNat
    · rw [Nat.testBit_of_two_pow_le_and_two_pow_add_one_gt hmarked]
      · simp [hmarked]
      · rw [Nat.pow_succ]
        omega
    · rw [Nat.testBit_lt_two_pow (by omega)]
      simp [hmarked]
  have hzero : chunk &&& mark width = 0 ↔ chunk.toNat.testBit (width - 1) = false := by
    rw [← UInt64.toNat_inj, UInt64.toNat_and, toNat_mark hwidth, Nat.and_two_pow, UInt64.toNat_zero]
    cases chunk.toNat.testBit (width - 1) <;> simp
  rw [continues, bne_iff_ne, ne_eq, hzero, htop]
  simp

theorem toNat_payload (hwidth : ValidWidth width) (hchunk : chunk.toNat < 2 ^ width) :
    (payload width chunk).toNat = chunk.toNat % 2 ^ (width - 1) := by
  apply Nat.eq_of_testBit_eq
  intro index
  have hmark : (mark width).toNat < 2 ^ 64 := (mark width).toNat_lt
  have hnot : (~~~mark width).toNat = 2 ^ 64 - ((mark width).toNat + 1) := by
    rw [UInt64.toNat_not, UInt64.size]
    omega
  rw [payload, UInt64.toNat_and, Nat.testBit_and, hnot, Nat.testBit_two_pow_sub_succ hmark,
    testBit_mark hwidth, Nat.testBit_mod_two_pow]
  -- Above the mark a chunk has no bits, and the mark is taken away.
  by_cases hhigh : width ≤ index
  · have hnone : chunk.toNat.testBit index = false :=
      Nat.testBit_lt_two_pow (Nat.lt_of_lt_of_le hchunk (Nat.pow_le_pow_right (by decide) hhigh))
    simp [hnone]
  · have hpositive := hwidth.pos
    have hbound := hwidth.lt_word
    have hword : index < 64 := by omega
    have hplace : index < width - 1 ↔ ¬ width - 1 = index := by omega
    simp only [hword, hplace, decide_true, Bool.true_and, decide_not]
    exact Bool.and_comm _ _

theorem leadingZeros_lt_iff (word : UInt64) {shift : Nat} (hpositive : 0 < shift)
    (hshift : shift < 64) : leadingZeros word < shift ↔ 2 ^ 64 ≤ word.toNat * 2 ^ shift := by
  have hpower : 2 ^ 64 = 2 ^ (64 - shift) * 2 ^ shift := by
    rw [← Nat.pow_add, Nat.sub_add_cancel (by omega)]
  rw [hpower, Nat.mul_le_mul_right_iff (Nat.two_pow_pos _), leadingZeros]
  split
  · rename_i hzero
    subst hzero
    have hsome := Nat.two_pow_pos (64 - shift)
    rw [UInt64.toNat_zero]
    omega
  · rename_i hnonzero
    have hword : word.toNat ≠ 0 := fun hzero => hnonzero (UInt64.toNat_inj.mp hzero)
    have hlog : word.toNat.log2 < 64 := (Nat.log2_lt hword).mpr word.toNat_lt
    rw [← Nat.le_log2 hword]
    omega

theorem join?_eq {value payload : UInt64} {shift : Nat} (hvalue : value.toNat < 2 ^ shift) :
    join? value payload shift =
      if 64 ≤ shift ∨ 2 ^ 64 ≤ payload.toNat * 2 ^ shift then none
      else some (UInt64.ofNat (value.toNat + payload.toNat * 2 ^ shift)) := by
  have hpayload := payload.toNat_lt
  have htest : (64 ≤ shift ∨ 0 < shift ∧ leadingZeros payload < shift) ↔
      (64 ≤ shift ∨ 2 ^ 64 ≤ payload.toNat * 2 ^ shift) := by
    by_cases hlarge : 64 ≤ shift
    · simp [hlarge]
    · by_cases hzero : shift = 0
      · subst hzero
        simpa using hpayload
      · rw [leadingZeros_lt_iff payload (by omega) (by omega)]
        simp [Nat.pos_of_ne_zero hzero]
  simp only [join?, htest]
  split
  · rfl
  · rename_i hfits
    rw [not_or, Nat.not_le, Nat.not_le] at hfits
    rw [← toNat_or_shiftLeft hfits.1 hvalue hfits.2, UInt64.ofNat_toNat]

end Words

section Sizes

variable {width : Nat}

theorem toNat_shiftRight_half (hwidth : ValidWidth width) (value : UInt64) :
    (value >>> UInt64.ofNat (width - 1)).toNat = value.toNat / 2 ^ (width - 1) := by
  have hword := hwidth.lt_word
  exact toNat_shiftRight_ofNat value (by omega)

theorem shiftRight_half_eq_zero_iff (hwidth : ValidWidth width) (value : UInt64) :
    value >>> UInt64.ofNat (width - 1) = 0 ↔ value.toNat < 2 ^ (width - 1) := by
  rw [← UInt64.toNat_inj, toNat_shiftRight_half hwidth, UInt64.toNat_zero,
    Nat.div_eq_zero_iff_lt (Nat.two_pow_pos _)]

theorem mul_length_cut (hwidth : ValidWidth width) (steps : Nat) (value : UInt64) :
    width * (cut (2 ^ (width - 1)) steps value.toNat).length =
      width + moreBits width steps (value >>> UInt64.ofNat (width - 1)) := by
  induction steps generalizing value with
  | zero => simp [cut, moreBits]
  | succ steps ih =>
      have hleft := toNat_shiftRight_half hwidth value
      rw [cut, moreBits]
      by_cases hsmall : value.toNat < 2 ^ (width - 1)
      · rw [if_pos hsmall, if_pos ((shiftRight_half_eq_zero_iff hwidth value).mpr hsmall)]
        simp
      · rw [if_neg hsmall, if_neg (mt (shiftRight_half_eq_zero_iff hwidth value).mp hsmall),
          List.length_cons, Nat.mul_succ, ← hleft, ih, Nat.add_comm]

theorem mul_length_chunks (hwidth : ValidWidth width) (value : UInt64) :
    width * (chunks width value).length = bitSize value width := by
  rw [chunks_eq]
  exact mul_length_cut hwidth 64 value

end Sizes

theorem toNat_chunk_lt {width : Nat} (hwidth : ValidWidth width) {value : UInt64} {chunk : Nat}
    (hchunk : chunk ∈ chunks width value) : (UInt64.ofNat chunk).toNat < 2 ^ width := by
  rw [chunks_eq] at hchunk
  have hlt := cut_lt (Nat.two_pow_pos _) 64 value.toNat chunk (toNat_lt_half_pow hwidth value) hchunk
  rw [two_mul_half hwidth] at hlt
  rw [UInt64.toNat_ofNat']
  exact Nat.lt_of_le_of_lt (Nat.mod_le _ _) hlt

end Vbr

namespace Writer

theorem succeeds_emit {value : UInt64} {width : Nat} (hpositive : 0 < width) (hwidth : width < 64)
    (hvalue : value.toNat < 2 ^ width) : Succeeds (emit value width) :=
  fun _ => ⟨(), _, emit_eq_ok_iff.mpr ⟨⟨hpositive, hwidth, hvalue⟩, rfl⟩⟩

theorem succeeds_emitVbr (value : UInt64) {width : Nat} (hwidth : Vbr.ValidWidth width) :
    Succeeds (emitVbr value width) := by
  rw [emitVbr, if_pos hwidth]
  exact Succeeds.forM fun chunk hchunk =>
    succeeds_emit hwidth.pos hwidth.lt_word (Vbr.toNat_chunk_lt hwidth hchunk)

end Writer

theorem toNat_chunk {width : Nat} (hwidth : Vbr.ValidWidth width) (chunk : Nat)
    (hchunk : chunk < 2 ^ width) : (UInt64.ofNat chunk).toNat = chunk := by
  have hbound : 2 ^ width ≤ 2 ^ 32 := Nat.pow_le_pow_right (by omega) hwidth.2
  rw [UInt64.toNat_ofNat', Nat.mod_eq_of_lt]
  omega

namespace Cursor

theorem readChunks_of_read {width : Nat} (hwidth : Vbr.ValidWidth width) {remaining shift : Nat}
    {value chunk : UInt64} {cursor next : Cursor} (hvalue : value.toNat < 2 ^ shift)
    (hread : read width cursor = .ok chunk next) :
    readChunks width (remaining + 1) shift value cursor =
      if 64 ≤ shift ∨ 2 ^ 64 ≤ chunk.toNat % 2 ^ (width - 1) * 2 ^ shift then
        .error .vbrOverflow next
      else if 2 ^ (width - 1) ≤ chunk.toNat then
        readChunks width remaining (shift + (width - 1))
          (UInt64.ofNat (value.toNat + chunk.toNat % 2 ^ (width - 1) * 2 ^ shift)) next
      else .ok (UInt64.ofNat (value.toNat + chunk.toNat % 2 ^ (width - 1) * 2 ^ shift)) next := by
  have hchunk := toNat_lt_of_read hread
  rw [readChunks, bind_apply_of_ok hread, Vbr.join?_eq hvalue, Vbr.toNat_payload hwidth hchunk]
  by_cases hlarge : 64 ≤ shift ∨ 2 ^ 64 ≤ chunk.toNat % 2 ^ (width - 1) * 2 ^ shift
  · rw [if_pos hlarge, if_pos hlarge]
    rfl
  · rw [if_neg hlarge, if_neg hlarge]
    by_cases hmarked : 2 ^ (width - 1) ≤ chunk.toNat
    · simp only [(Vbr.continues_iff hwidth hchunk).mpr hmarked, hmarked, if_true]
    · have hlast : Vbr.continues width chunk = false := by
        rw [← Bool.not_eq_true, Vbr.continues_iff hwidth hchunk]
        exact hmarked
      simp only [hlast, hmarked, if_false, Bool.false_eq_true]
      rfl

end Cursor

theorem transmits_lastChunk {width : Nat} (hwidth : Vbr.ValidWidth width)
    (remaining value shift : Nat) (sum : UInt64) (hsum : sum.toNat < 2 ^ shift)
    (hvalue : value < 2 ^ (width - 1)) (hshift : shift < 64) (hplace : value * 2 ^ shift < 2 ^ 64) :
    Transmits (Writer.emit (UInt64.ofNat value) width)
      (Cursor.readChunks width (remaining + 1) shift sum)
      (UInt64.ofNat (sum.toNat + value * 2 ^ shift)) := by
  have hchunk : (UInt64.ofNat value).toNat = value := by
    have hdouble := Vbr.two_mul_half hwidth
    exact toNat_chunk hwidth value (by omega)
  intro writer next hwrite
  obtain ⟨bits, hnext, hreads⟩ := Writer.transmits_emit _ _ writer next hwrite
  refine ⟨bits, hnext, fun bytes hholds cursor hcursor => ?_⟩
  obtain ⟨after, hread, hafter⟩ := hreads bytes hholds cursor hcursor
  refine ⟨after, ?_, hafter⟩
  rw [Cursor.readChunks_of_read hwidth hsum hread, hchunk, Nat.mod_eq_of_lt hvalue,
    if_neg (by omega), if_neg (by omega)]

theorem transmits_chunks {width : Nat} (hwidth : Vbr.ValidWidth width) (steps value shift : Nat)
    (sum : UInt64) (hsum : sum.toNat < 2 ^ shift) (hvalue : value < (2 ^ (width - 1)) ^ (steps + 1))
    (hshift : shift < 64) (hplace : value * 2 ^ shift < 2 ^ 64) :
    Transmits
      ((Vbr.cut (2 ^ (width - 1)) steps value).forM fun chunk =>
        Writer.emit (UInt64.ofNat chunk) width)
      (Cursor.readChunks width (steps + 1) shift sum)
      (UInt64.ofNat (sum.toNat + value * 2 ^ shift)) := by
  induction steps generalizing value shift sum with
  | zero =>
      have hsmall : value < 2 ^ (width - 1) := by simpa using hvalue
      have hlast := transmits_lastChunk hwidth 0 value shift sum hsum hsmall hshift hplace
      simpa [Vbr.cut] using hlast
  | succ steps ih =>
      by_cases hsmall : value < 2 ^ (width - 1)
      · have hlast :=
          transmits_lastChunk hwidth (steps + 1) value shift sum hsum hsmall hshift hplace
        simpa [Vbr.cut, hsmall] using hlast
      · have hhalf : 0 < 2 ^ (width - 1) := Nat.two_pow_pos _
        have hremainder := Nat.mod_lt value hhalf
        have hdouble := Vbr.two_mul_half hwidth
        have hchunk := toNat_chunk hwidth (value % 2 ^ (width - 1) + 2 ^ (width - 1)) (by omega)
        have hpayload : value % 2 ^ (width - 1) * 2 ^ shift ≤ value * 2 ^ shift :=
          Nat.mul_le_mul_right _ (Nat.mod_le _ _)
        -- What is left stands `width - 1` bits higher.
        have hsplit : value * 2 ^ shift = value % 2 ^ (width - 1) * 2 ^ shift +
            value / 2 ^ (width - 1) * 2 ^ (shift + (width - 1)) := by
          have hdivision := Nat.mod_add_div value (2 ^ (width - 1))
          calc value * 2 ^ shift =
              (value % 2 ^ (width - 1) + 2 ^ (width - 1) * (value / 2 ^ (width - 1))) *
                2 ^ shift := by rw [hdivision]
            _ = _ := by rw [Nat.add_mul, Nat.pow_add]; ac_rfl
        have hleft : value / 2 ^ (width - 1) < (2 ^ (width - 1)) ^ (steps + 1) := by
          rw [Nat.div_lt_iff_lt_mul hhalf, ← Nat.pow_succ]
          exact hvalue
        have hsome : 1 ≤ value / 2 ^ (width - 1) := by
          rw [Nat.le_div_iff_mul_le hhalf]
          omega
        have hpower : 2 ^ (shift + (width - 1)) ≤
            value / 2 ^ (width - 1) * 2 ^ (shift + (width - 1)) :=
          Nat.le_mul_of_pos_left _ hsome
        have hnextShift : shift + (width - 1) < 64 :=
          (Nat.pow_lt_pow_iff_right (by omega)).mp
            (show 2 ^ (shift + (width - 1)) < 2 ^ 64 by omega)
        have hnextSum := add_mul_two_pow_lt hsum hremainder
        have hjoined : (UInt64.ofNat (sum.toNat + value % 2 ^ (width - 1) * 2 ^ shift)).toNat =
            sum.toNat + value % 2 ^ (width - 1) * 2 ^ shift :=
          UInt64.toNat_ofNat_of_lt' (show _ < 2 ^ 64 by omega)
        have hrest := ih (value / 2 ^ (width - 1)) (shift + (width - 1)) _
          (hjoined ▸ hnextSum) hleft hnextShift (by omega)
        rw [hjoined, Nat.add_assoc, ← hsplit] at hrest
        have hcontinues : Vbr.continues width
            (UInt64.ofNat (value % 2 ^ (width - 1) + 2 ^ (width - 1))) = true :=
          (Vbr.continues_iff hwidth (by omega)).mpr (by omega)
        have hjoin : Vbr.join? sum (Vbr.payload width
            (UInt64.ofNat (value % 2 ^ (width - 1) + 2 ^ (width - 1)))) shift =
            some (UInt64.ofNat (sum.toNat + value % 2 ^ (width - 1) * 2 ^ shift)) := by
          rw [Vbr.join?_eq hsum, Vbr.toNat_payload hwidth (by omega), hchunk, Nat.add_mod_right,
            Nat.mod_mod, if_neg (by omega)]
        rw [Vbr.cut, if_neg hsmall, Cursor.readChunks]
        refine (Writer.transmits_emit _ width).bind ?_
        simp only [hjoin, hcontinues, if_true]
        exact hrest

/-- A variable-width integer is read as it was written. -/
theorem transmits_emitVbr (value : UInt64) (width : Nat) :
    Transmits (Writer.emitVbr value width) (Cursor.readVbr width) value := by
  by_cases hwidth : Vbr.ValidWidth width
  · have hchunks := transmits_chunks hwidth 64 value.toNat 0 0 (by simp)
      (Vbr.toNat_lt_half_pow hwidth value) (by omega) (by simpa using value.toNat_lt)
    rw [Writer.emitVbr, Cursor.readVbr, if_pos hwidth, if_pos hwidth]
    simpa [Vbr.chunks_eq] using hchunks
  · rw [Writer.emitVbr, if_neg hwidth]
    exact Transmits.throw _ _ _

end Bitcode.Bits
