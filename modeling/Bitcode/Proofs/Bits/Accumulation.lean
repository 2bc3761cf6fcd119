import Bitcode.Bits.Accumulator
import Bitcode.Proofs.Bits.Outcome

namespace Bitcode.Bits

theorem lowBits_add (value first second : Nat) :
    lowBits value (first + second) = lowBits value first ++ lowBits (value >>> first) second := by
  apply List.ext_getElem
  · simp
  · intro index hindex hsplit
    rw [getElem_lowBits]
    by_cases hfirst : index < first
    · rw [List.getElem_append_left (by simpa using hfirst), getElem_lowBits]
    · rw [List.getElem_append_right (by simpa using hfirst), getElem_lowBits, lowBits_length,
        Nat.testBit_shiftRight, Nat.add_sub_cancel' (Nat.le_of_not_lt hfirst)]

theorem lowBits_congr {value other count : Nat}
    (hbits : ∀ index < count, value.testBit index = other.testBit index) :
    lowBits value count = lowBits other count := by
  apply List.ext_getElem
  · simp
  · intro index hindex _
    rw [getElem_lowBits, getElem_lowBits]
    exact hbits index (by simpa using hindex)

theorem bitAt_append_left {first second : Array UInt8} {position : Nat}
    (hposition : position < 8 * first.size) :
    bitAt (first ++ second) position = bitAt first position := by
  have hbyte : position / 8 < first.size := by omega
  have hall : position / 8 < first.size + second.size := by omega
  simp [bitAt, Array.getD, hbyte, hall]

theorem bitAt_append_right {first second : Array UInt8} {position : Nat}
    (hposition : 8 * first.size ≤ position) :
    bitAt (first ++ second) position = bitAt second (position - 8 * first.size) := by
  have hbyte : ¬ position / 8 < first.size := by omega
  have hdiv : (position - 8 * first.size) / 8 = position / 8 - first.size := by omega
  have hmod : (position - 8 * first.size) % 8 = position % 8 := by omega
  rw [bitAt, bitAt, hdiv, hmod]
  congr 2
  by_cases hinside : position / 8 < first.size + second.size
  · have hsecond : position / 8 - first.size < second.size := by omega
    simp [Array.getD, hinside, hsecond, Array.getElem_append, hbyte]
  · have hsecond : ¬ position / 8 - first.size < second.size := by omega
    simp [Array.getD, hinside, hsecond]

theorem unpackBytes_append (first second : Array UInt8) :
    unpackBytes (first ++ second) = unpackBytes first ++ unpackBytes second := by
  apply Array.ext
  · simp only [unpackBytes_size, Array.size_append]
    omega
  · intro position hposition _
    rw [getElem_unpackBytes, Array.getElem_append]
    split
    · rename_i hfirst
      rw [getElem_unpackBytes]
      exact bitAt_append_left (by simpa using hfirst)
    · rename_i hsecond
      rw [unpackBytes_size, Nat.not_lt] at hsecond
      simp only [getElem_unpackBytes, unpackBytes_size]
      exact bitAt_append_right hsecond

theorem getD_append_zeros (bits : Array Bool) (count position : Nat) :
    (bits ++ lowBits 0 count).getD position false = bits.getD position false := by
  rw [Array.getD_eq_getD_getElem?, Array.getD_eq_getD_getElem?, ← Array.getElem?_toList,
    ← Array.getElem?_toList, Array.toList_appendList]
  by_cases hold : position < bits.toList.length
  · rw [List.getElem?_append_left hold]
  · rw [List.getElem?_append_right (Nat.le_of_not_lt hold),
      List.getElem?_eq_none (Nat.le_of_not_lt hold)]
    by_cases hnew : position - bits.toList.length < (lowBits 0 count).length
    · rw [List.getElem?_eq_getElem hnew, getElem_lowBits]
      simp
    · rw [List.getElem?_eq_none (Nat.le_of_not_lt hnew)]

namespace Accumulator

@[simp] theorem size_wordBytes (word : UInt32) : (wordBytes word).size = 4 :=
  rfl

theorem bitAt_wordBytes (word : UInt32) {position : Nat} (hposition : position < 32) :
    bitAt (wordBytes word) position = word.toNat.testBit position := by
  have hbit : position % 8 < 8 := Nat.mod_lt _ (by decide)
  have hplace : position = 8 * (position / 8) + position % 8 := by omega
  have hbyte : position / 8 = 0 ∨ position / 8 = 1 ∨ position / 8 = 2 ∨ position / 8 = 3 := by omega
  rw [bitAt]
  rcases hbyte with hbyte | hbyte | hbyte | hbyte <;> rw [hbyte] at hplace ⊢ <;>
    conv_rhs => rw [hplace]
  all_goals
    simp [wordBytes, Nat.testBit_mod_two_pow (j := 8), hbit, Nat.testBit_shiftRight,
      UInt32.toNat_shiftRight]

theorem unpackBytes_wordBytes (word : UInt32) :
    unpackBytes (wordBytes word) = (lowBits word.toNat 32).toArray := by
  apply Array.ext
  · simp
  · intro position hposition _
    rw [unpackBytes_size, size_wordBytes] at hposition
    rw [getElem_unpackBytes, List.getElem_toArray, getElem_lowBits]
    exact bitAt_wordBytes word hposition

/-- A word that goes to the buffer stays where it was among the bits. -/
theorem view_flush {accumulator : Accumulator} (hwhole : 32 ≤ accumulator.pendingBits) :
    ({ buffer := accumulator.buffer ++
          wordBytes (UInt32.ofBitVec (accumulator.pending.setWidth 32))
       pending := accumulator.pending >>> 32
       pendingBits := accumulator.pendingBits - 32 } : Accumulator).view = accumulator.view := by
  obtain ⟨more, hmore⟩ := Nat.exists_eq_add_of_le hwhole
  have hlow : lowBits (UInt32.ofBitVec (accumulator.pending.setWidth 32)).toNat 32 =
      lowBits accumulator.pending.toNat 32 := by
    apply lowBits_congr
    intro index hindex
    have hword : (UInt32.ofBitVec (accumulator.pending.setWidth 32)).toNat =
        accumulator.pending.toNat % 2 ^ 32 := by simp
    rw [hword, Nat.testBit_mod_two_pow]
    simp [hindex]
  simp only [view, Writer.mk.injEq, unpackBytes_append, unpackBytes_wordBytes, hlow,
    BitVec.toNat_ushiftRight, hmore, Nat.add_sub_cancel_left, lowBits_add]
  apply Array.ext'
  simp

/-- What holds between the calls of a writer. -/
structure Sound (accumulator : Accumulator) : Prop where
  pendingBits_lt : accumulator.pendingBits < 32
  pending_lt : accumulator.pending.toNat < 2 ^ accumulator.pendingBits
  words : accumulator.buffer.size % 4 = 0

theorem sound_empty : ({} : Accumulator).Sound :=
  ⟨by decide, by decide, rfl⟩

theorem flushWords_spec (accumulator : Accumulator)
    (hpending : accumulator.pending.toNat < 2 ^ accumulator.pendingBits)
    (hwords : accumulator.buffer.size % 4 = 0) :
    accumulator.flushWords.Sound ∧ accumulator.flushWords.view = accumulator.view := by
  fun_induction flushWords accumulator with
  | case1 accumulator hwhole ih =>
      rw [← view_flush hwhole]
      apply ih
      · rw [BitVec.toNat_ushiftRight, Nat.shiftRight_eq_div_pow]
        apply Nat.div_lt_of_lt_mul
        rwa [← Nat.pow_add, Nat.add_sub_cancel' hwhole]
      · simp only [Array.size_append, size_wordBytes]
        omega
  | case2 accumulator hpart => exact ⟨⟨Nat.lt_of_not_le hpart, hpending, hwords⟩, rfl⟩

theorem size_view (accumulator : Accumulator) :
    accumulator.view.bits.size = accumulator.bitPosition := by
  simp [view, bitPosition]

theorem toNat_shiftLeft_pending {value : UInt64} {shift : Nat} (hshift : shift < 32) :
    (value.toBitVec.setWidth 128 <<< shift).toNat = value.toNat <<< shift := by
  rw [BitVec.toNat_shiftLeft, BitVec.toNat_setWidth_of_le (by decide), UInt64.toNat_toBitVec]
  apply Nat.mod_eq_of_lt
  rw [Nat.shiftLeft_eq]
  calc value.toNat * 2 ^ shift
      < 2 ^ 64 * 2 ^ shift := Nat.mul_lt_mul_of_pos_right value.toNat_lt (Nat.two_pow_pos _)
    _ = 2 ^ (64 + shift) := (Nat.pow_add ..).symm
    _ ≤ 2 ^ 128 := Nat.pow_le_pow_right (by decide) (by omega)

theorem lowBits_or_shiftLeft {low lowCount : Nat} (hlow : low < 2 ^ lowCount)
    (high highCount : Nat) :
    lowBits (low ||| high <<< lowCount) (lowCount + highCount) =
      lowBits low lowCount ++ lowBits high highCount := by
  rw [lowBits_add]
  congr 1
  · apply lowBits_congr
    intro index hindex
    simp [Nat.testBit_shiftLeft, hindex]
  · apply lowBits_congr
    intro index _
    have hzero : low.testBit (lowCount + index) = false :=
      Nat.testBit_lt_two_pow (Nat.lt_of_lt_of_le hlow (Nat.pow_le_pow_right (by decide) (by omega)))
    simp [Nat.testBit_shiftRight, Nat.testBit_shiftLeft, hzero]

section Steps

variable {accumulator : Accumulator}

theorem Sound.push (hsound : accumulator.Sound) {value : UInt64} {width : Nat}
    (hvalue : value.toNat < 2 ^ width) :
    (accumulator.push value width).Sound ∧
      (accumulator.push value width).view = accumulator.view.append value.toNat width := by
  obtain ⟨hbits, hpending, hwords⟩ := hsound
  have hsum : (accumulator.pending |||
      value.toBitVec.setWidth 128 <<< accumulator.pendingBits).toNat =
        accumulator.pending.toNat ||| value.toNat <<< accumulator.pendingBits := by
    rw [BitVec.toNat_or, toNat_shiftLeft_pending hbits]
  have hroom : accumulator.pending.toNat ||| value.toNat <<< accumulator.pendingBits <
      2 ^ (accumulator.pendingBits + width) := by
    apply Nat.or_lt_two_pow
    · exact Nat.lt_of_lt_of_le hpending (Nat.pow_le_pow_right (by decide) (by omega))
    · rw [Nat.shiftLeft_eq, Nat.pow_add, Nat.mul_comm (2 ^ _)]
      exact Nat.mul_lt_mul_of_pos_right hvalue (Nat.two_pow_pos _)
  obtain ⟨hnext, hview⟩ := flushWords_spec
    { accumulator with
      pending := accumulator.pending ||| value.toBitVec.setWidth 128 <<< accumulator.pendingBits
      pendingBits := accumulator.pendingBits + width } (hsum ▸ hroom) hwords
  refine ⟨hnext, hview.trans ?_⟩
  simp only [view, Writer.append, hsum, lowBits_or_shiftLeft hpending, append_list_assoc]

theorem Sound.align32 (hsound : accumulator.Sound) :
    accumulator.align32.Sound ∧ accumulator.align32.view = accumulator.view.align32 := by
  obtain ⟨hbits, hpending, hwords⟩ := hsound
  have hsize : accumulator.view.bits.size % 32 = accumulator.pendingBits := by
    rw [size_view, bitPosition]
    omega
  unfold Accumulator.align32
  split
  · rename_i hpart
    have hroom : accumulator.pending.toNat < 2 ^ 32 :=
      Nat.lt_of_lt_of_le hpending (Nat.pow_le_pow_right (by decide) (by omega))
    obtain ⟨hnext, hview⟩ := flushWords_spec { accumulator with pendingBits := 32 } hroom hwords
    refine ⟨hnext, hview.trans ?_⟩
    obtain ⟨gap, hgap⟩ := Nat.exists_eq_add_of_lt hbits
    have hfill : (32 - accumulator.pendingBits) % 32 = gap + 1 := by omega
    have hzeros := lowBits_or_shiftLeft hpending 0 (gap + 1)
    rw [Nat.zero_shiftLeft, Nat.or_zero, ← Nat.add_assoc, ← hgap] at hzeros
    rw [Writer.align32, hsize, hfill]
    simp only [view, Writer.append, hzeros, append_list_assoc]
  · rename_i hwhole
    have hnone : accumulator.pendingBits = 0 := by omega
    refine ⟨⟨hbits, hpending, hwords⟩, ?_⟩
    rw [Writer.align32, hsize, hnone]
    simp [Writer.append, lowBits]

theorem Sound.pendingBits_align32 (hsound : accumulator.Sound) :
    accumulator.align32.pendingBits = 0 := by
  obtain ⟨hnext, hview⟩ := hsound.align32
  have hsize := congrArg (fun writer => writer.bits.size) hview
  simp only [size_view, Writer.align32, Writer.append, size_append_list, lowBits_length,
    bitPosition] at hsize
  have hless := hnext.pendingBits_lt
  have hwords := hnext.words
  have hbefore := hsound.words
  omega

theorem Sound.toBytes_eq (hsound : accumulator.Sound) :
    accumulator.toBytes = accumulator.view.toBytes := by
  have hview := hsound.align32.2
  have hbits : accumulator.align32.view.bits = unpackBytes accumulator.toBytes := by
    rw [view, hsound.pendingBits_align32]
    exact Array.ext' (by simp [lowBits, toBytes])
  rw [hview] at hbits
  have hsize := congrArg Array.size hbits
  simp only [Writer.align32, Writer.append, size_append_list, lowBits_length, unpackBytes_size]
    at hsize
  have hbytes : accumulator.toBytes.size = accumulator.view.toBytes.size := by
    rw [Writer.toBytes, packBytes_size]
    omega
  refine bytes_ext hbytes fun position hposition => ?_
  have hpacked : position < 8 * (4 * ((accumulator.view.bits.size + 31) / 32)) := by omega
  calc bitAt accumulator.toBytes position
      = (unpackBytes accumulator.toBytes).getD position false :=
        (getD_unpackBytes hposition).symm
    _ = accumulator.view.align32.bits.getD position false := by rw [hbits]
    _ = accumulator.view.bits.getD position false := getD_append_zeros ..
    _ = bitAt accumulator.view.toBytes position := (bitAt_packBytes _ _ _ hpacked).symm

end Steps

/-- What an outcome says about the bits that have been written. -/
def viewed {α : Type} : EStateM.Result Error Accumulator α → EStateM.Result Error Writer α
  | .ok value next => .ok value next.view
  | .error cause next => .error cause next.view

/-- The accumulator after a success or a failure. -/
def final {α : Type} : EStateM.Result Error Accumulator α → Accumulator
  | .ok _ next => next
  | .error _ next => next

/-- Writing by way of an accumulator does what writing bit by bit does, step for step. -/
def Refines {α : Type} (accumulating : Accumulating α) (writing : Writing α) : Prop :=
  ∀ accumulator : Accumulator, accumulator.Sound →
    (final (accumulating accumulator)).Sound ∧
      writing accumulator.view = viewed (accumulating accumulator)

section Refines

variable {α β : Type}

theorem Refines.pure (value : α) : Refines (Pure.pure value) (Pure.pure value) :=
  fun _ hsound => ⟨hsound, rfl⟩

theorem Refines.throw (cause : Error) :
    Refines (MonadExcept.throw cause : Accumulating α) (MonadExcept.throw cause) :=
  fun _ hsound => ⟨hsound, rfl⟩

theorem Refines.bind {first : Accumulating α} {second : α → Accumulating β} {write : Writing α}
    {following : α → Writing β} (hfirst : Refines first write)
    (hsecond : ∀ value, Refines (second value) (following value)) :
    Refines (first >>= second) (write >>= following) := by
  intro accumulator hsound
  obtain ⟨hmiddle, hwrite⟩ := hfirst accumulator hsound
  cases hrun : first accumulator with
  | ok value middle =>
      rw [hrun] at hmiddle hwrite
      rw [bind_apply_of_ok hrun, bind_apply_of_ok hwrite]
      exact hsecond value middle hmiddle
  | error cause middle =>
      rw [hrun] at hmiddle hwrite
      rw [bind_apply_of_error hrun, bind_apply_of_error hwrite]
      exact ⟨hmiddle, rfl⟩

theorem Refines.forM {items : List α} {action : α → Accumulating PUnit} {write : α → Writing PUnit}
    (haction : ∀ item, Refines (action item) (write item)) :
    Refines (items.forM action) (items.forM write) := by
  induction items with
  | nil => exact Refines.pure _
  | cons item rest ih => exact (haction item).bind fun _ => ih

end Refines

theorem shiftRight_ne_zero_iff (value : UInt64) {width : Nat} (hwidth : width < 64) :
    value >>> UInt64.ofNat width ≠ 0 ↔ 2 ^ width ≤ value.toNat := by
  rw [ne_eq, ← UInt64.toNat_inj, toNat_shiftRight_ofNat _ hwidth, UInt64.toNat_zero,
    Nat.div_eq_zero_iff_lt (Nat.two_pow_pos _), Nat.not_lt]

theorem refines_emit (value : UInt64) (width : Nat) :
    Refines (emit value width) (Writer.emit value width) := by
  intro accumulator hsound
  unfold emit Writer.emit
  by_cases hwidth : width = 0 ∨ Writer.maxWidth < width
  · simp only [if_pos hwidth]
    exact ⟨hsound, rfl⟩
  have hword : width < 64 := by
    rw [Writer.maxWidth] at hwidth
    omega
  simp only [if_neg hwidth, shiftRight_ne_zero_iff value hword, Nat.one_shiftLeft]
  by_cases hvalue : 2 ^ width ≤ value.toNat
  · simp only [if_pos hvalue]
    exact ⟨hsound, rfl⟩
  · obtain ⟨hnext, hview⟩ := hsound.push (Nat.lt_of_not_le hvalue)
    simp only [if_neg hvalue]
    exact ⟨hnext, by rw [viewed, hview]⟩

theorem refines_emitVbr (value : UInt64) (width : Nat) :
    Refines (emitVbr value width) (Writer.emitVbr value width) := by
  unfold emitVbr Writer.emitVbr
  split
  · exact Refines.forM fun chunk => refines_emit (UInt64.ofNat chunk) width
  · exact Refines.throw _

theorem succeeds_emit {value : UInt64} {width : Nat} (hpositive : 0 < width) (hwidth : width < 64)
    (hvalue : value.toNat < 2 ^ width) : Succeeds (emit value width) := by
  intro accumulator
  have hgood : ¬ (width = 0 ∨ Writer.maxWidth < width) := by
    rw [Writer.maxWidth]
    omega
  refine ⟨(), accumulator.push value width, ?_⟩
  rw [emit, if_neg hgood, if_neg]
  rw [shiftRight_ne_zero_iff value hwidth]
  exact Nat.not_le.mpr hvalue

theorem succeeds_emitVbr (value : UInt64) {width : Nat} (hwidth : Vbr.ValidWidth width) :
    Succeeds (emitVbr value width) := by
  rw [emitVbr, if_pos hwidth]
  exact Succeeds.forM fun chunk hchunk =>
    succeeds_emit hwidth.pos hwidth.lt_word (Vbr.toNat_chunk_lt hwidth hchunk)

theorem refines_align32 : Refines (modify align32) (modify Writer.align32) := by
  intro accumulator hsound
  obtain ⟨hnext, hview⟩ := hsound.align32
  exact ⟨hnext, congrArg (EStateM.Result.ok ()) hview.symm⟩

theorem refines_emitWords (bytes : Array UInt8) :
    Refines (emitWords bytes) (Writer.emitWords bytes) := by
  intro accumulator hsound
  obtain ⟨hbits, hpending, hwords⟩ := hsound
  have haligned : accumulator.view.bits.size % 32 = accumulator.pendingBits := by
    rw [size_view, bitPosition]
    omega
  unfold emitWords Writer.emitWords
  rw [haligned]
  by_cases hbad : accumulator.pendingBits ≠ 0 ∨ bytes.size % 4 ≠ 0
  · simp only [if_pos hbad]
    exact ⟨⟨hbits, hpending, hwords⟩, rfl⟩
  · simp only [if_neg hbad]
    refine ⟨⟨hbits, hpending, ?_⟩, ?_⟩
    · change (accumulator.buffer ++ bytes).size % 4 = 0
      rw [Array.size_append]
      omega
    · have hnone : accumulator.pendingBits = 0 := by omega
      simp only [viewed, view, unpackBytes_append, hnone]
      exact congrArg (fun bits => EStateM.Result.ok () (Writer.mk bits)) (Array.ext' (by simp [lowBits]))

theorem getD_view_of_lt {accumulator : Accumulator} {position : Nat}
    (hposition : position < 8 * accumulator.buffer.size) :
    accumulator.view.bits.getD position false = bitAt accumulator.buffer position := by
  have hunpacked : position < (unpackBytes accumulator.buffer).toList.length := by simpa using hposition
  rw [← getD_unpackBytes hposition, view, Array.getD_eq_getD_getElem?, Array.getD_eq_getD_getElem?,
    ← Array.getElem?_toList, ← Array.getElem?_toList, Array.toList_appendList,
    List.getElem?_append_left hunpacked]

theorem getD_view_of_le {accumulator : Accumulator} {position : Nat}
    (hposition : 8 * accumulator.buffer.size ≤ position) :
    accumulator.view.bits.getD position false =
      (lowBits accumulator.pending.toNat accumulator.pendingBits).getD
        (position - 8 * accumulator.buffer.size) false := by
  have hpassed : (unpackBytes accumulator.buffer).toList.length ≤ position := by
    simpa using hposition
  rw [view, Array.getD_eq_getD_getElem?, ← Array.getElem?_toList, Array.toList_appendList,
    List.getElem?_append_right hpassed, Array.length_toList, unpackBytes_size,
    List.getD_eq_getElem?_getD]

theorem bits_ext {first second : Array Bool} (hsize : first.size = second.size)
    (hbits : ∀ position < first.size, first.getD position false = second.getD position false) :
    first = second := by
  apply Array.ext hsize
  intro position hfirst hsecond
  simpa [Array.getD, hfirst, hsecond] using hbits position hfirst

section Patch

variable {buffer : Array UInt8} {byte position : Nat} (word : UInt32)

theorem size_patched (hbyte : byte + 4 ≤ buffer.size) :
    (patched buffer byte word).size = buffer.size := by
  simp only [patched, Array.size_append, Array.size_extract, size_wordBytes]
  omega

theorem bitAt_patched_inside (hbyte : byte + 4 ≤ buffer.size) {index : Nat} (hindex : index < 32) :
    bitAt (patched buffer byte word) (8 * byte + index) = word.toNat.testBit index := by
  have hfront : (buffer.extract 0 byte).size = byte := by
    rw [Array.size_extract]
    omega
  rw [patched, bitAt_append_left (by rw [Array.size_append, hfront, size_wordBytes]; omega),
    bitAt_append_right (by rw [hfront]; omega), hfront, Nat.add_sub_cancel_left,
    bitAt_wordBytes word hindex]

theorem bitAt_patched_outside (hbyte : byte + 4 ≤ buffer.size) (hinside : position < 8 * buffer.size)
    (houtside : position < 8 * byte ∨ 8 * byte + 32 ≤ position) :
    bitAt (patched buffer byte word) position = bitAt buffer position := by
  have hfront : (buffer.extract 0 byte).size = byte := by
    rw [Array.size_extract]
    omega
  rcases houtside with hbefore | hafter
  · rw [patched, bitAt_append_left (by rw [Array.size_append, hfront, size_wordBytes]; omega),
      bitAt_append_left (by rw [hfront]; omega)]
    have hlow : position / 8 < byte := by omega
    have hboth : position / 8 < min byte buffer.size := by omega
    have hall : position / 8 < buffer.size := by omega
    simp [bitAt, Array.getD, hboth, hall]
  · rw [patched, bitAt_append_right (by rw [Array.size_append, hfront, size_wordBytes]; omega)]
    simp only [Array.size_append, hfront, size_wordBytes]
    have hdiv : (position - 8 * (byte + 4)) / 8 = position / 8 - (byte + 4) := by omega
    have hmod : (position - 8 * (byte + 4)) % 8 = position % 8 := by omega
    have hback : position / 8 - (byte + 4) < buffer.size - (byte + 4) := by omega
    have hplace : byte + 4 + (position / 8 - (byte + 4)) = position / 8 := by omega
    have hall : position / 8 < buffer.size := by omega
    simp [bitAt, Array.getD, hdiv, hmod, hback, hplace, hall]

end Patch

theorem refines_backpatch (byte : Nat) (word : UInt32) :
    Refines (backpatch byte word) (Writer.backpatch byte word) := by
  intro accumulator hsound
  have hwords := hsound.words
  have hcomplete : accumulator.view.bytePosition = accumulator.buffer.size := by
    have hless := hsound.pendingBits_lt
    rw [Writer.bytePosition, size_view, bitPosition]
    omega
  unfold backpatch Writer.backpatch
  rw [hcomplete]
  by_cases hbad : byte % 4 ≠ 0 ∨ accumulator.buffer.size < byte + 4
  · simp only [if_pos hbad]
    exact ⟨hsound, rfl⟩
  · have hbyte : byte + 4 ≤ accumulator.buffer.size := by omega
    have hsize := size_patched word hbyte
    simp only [if_neg hbad]
    refine ⟨⟨hsound.pendingBits_lt, hsound.pending_lt, hsize.symm ▸ hwords⟩, ?_⟩
    refine congrArg (fun bits => EStateM.Result.ok () (Writer.mk bits)) (bits_ext ?_ ?_)
    · change _ = Array.size (view { accumulator with buffer := patched _ _ _ }).bits
      rw [size_patch, size_view, size_view, bitPosition, bitPosition, hsize]
    · intro position hposition
      change _ = Array.getD (view { accumulator with buffer := patched _ _ _ }).bits position false
      rw [size_patch, size_view, bitPosition] at hposition
      by_cases hpending : 8 * accumulator.buffer.size ≤ position
      · rw [getD_patch_outside _ _ _ (by rw [lowBits_length]; omega), getD_view_of_le hpending,
          getD_view_of_le (by rw [hsize]; exact hpending), hsize]
      · rw [getD_view_of_lt (by rw [hsize]; omega)]
        by_cases hword : position < 8 * byte ∨ 8 * byte + 32 ≤ position
        · rw [getD_patch_outside _ _ _ (by rw [lowBits_length]; exact hword),
            getD_view_of_lt (by omega), bitAt_patched_outside word hbyte (by omega) hword]
        · obtain ⟨index, rfl⟩ := Nat.exists_eq_add_of_le (show 8 * byte ≤ position by omega)
          have hindex : index < 32 := by omega
          rw [bitAt_patched_inside word hbyte hindex, getD_patch_inside _ _ _ ?_ ?_, getElem_lowBits]
          · rw [lowBits_length, size_view, bitPosition]
            omega
          · rwa [lowBits_length]

theorem Refines.bitPosition {β : Type} {second : Nat → Accumulating β} {following : Nat → Writing β}
    (hsecond : ∀ position, Refines (second position) (following position)) :
    Refines (do second (← get).bitPosition) (do following (← get).bitPosition) := by
  intro accumulator hsound
  rw [get_bind_apply, get_bind_apply, Writer.bitPosition, size_view]
  exact hsecond _ accumulator hsound

end Accumulator

end Bitcode.Bits
