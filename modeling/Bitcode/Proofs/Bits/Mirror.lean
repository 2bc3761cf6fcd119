import Bitcode.Proofs.Bits.Accumulation

/-!
A cursor undoes a writer. Fields, chunked integers, alignments and words may be written in any
order: who reads the finished bytes in the same order finds what was written, and stands after every
step where the writer stood. A step that fails has written nothing.
-/

namespace Bitcode.Bits

/-- One step of writing bits. -/
inductive Emission where
  | field (value : UInt64) (width : Nat)
  | chunked (value : UInt64) (width : Nat)
  | align
  | words (bytes : Array UInt8)
  deriving DecidableEq, Repr

namespace Emission

def write : Emission → Writing Unit
  | .field value width => Writer.emit value width
  | .chunked value width => Writer.emitVbr value width
  | .align => modify Writer.align32
  | .words bytes => Writer.emitWords bytes

/-- The reading of a step. It knows the widths, and of words how many bytes they have. -/
def read : Emission → Reading (List UInt64)
  | .field _ width => do return [← Cursor.read width]
  | .chunked _ width => do return [← Cursor.readVbr width]
  | .align => do
      modify Cursor.align32
      return []
  | .words bytes => (List.replicate bytes.size 8).mapM Cursor.read

/-- What a step writes. -/
def values : Emission → List UInt64
  | .field value _ => [value]
  | .chunked value _ => [value]
  | .align => []
  | .words bytes => bytes.toList.map (·.toUInt64)

/-- Write one step after the other, and note what each has written and where the writer stands after
it. -/
def writeAll : List Emission → Writing (List (List UInt64 × Nat))
  | [] => return []
  | emission :: rest => do
      emission.write
      let position := (← get).bitPosition
      return (emission.values, position) :: (← writeAll rest)

/-- The same by way of an accumulator. -/
def accumulate : Emission → Accumulating Unit
  | .field value width => Accumulator.emit value width
  | .chunked value width => Accumulator.emitVbr value width
  | .align => modify Accumulator.align32
  | .words bytes => Accumulator.emitWords bytes

def accumulateAll : List Emission → Accumulating (List (List UInt64 × Nat))
  | [] => return []
  | emission :: rest => do
      emission.accumulate
      let position := (← get).bitPosition
      return (emission.values, position) :: (← accumulateAll rest)

/-- Read one step after the other, and note what is found and where the cursor stands after it. -/
def readAll : List Emission → Reading (List (List UInt64 × Nat))
  | [] => return []
  | emission :: rest => do
      let found ← emission.read
      let position := (← get).position
      return (found, position) :: (← readAll rest)

end Emission

section Words

variable {bytes : Array UInt8} {start : Nat}

theorem Holds.fieldAt_byte {written : Array UInt8}
    (hholds : Holds bytes start (unpackBytes written).toList) {index : Nat}
    (hindex : index < written.size) :
    fieldAt bytes (start + 8 * index) 8 = (written[index]).toNat := by
  apply spell_eq_of_testBit (written[index]).toNat_lt
  intro bit hbit
  have hplace : 8 * index + bit < (unpackBytes written).toList.length := by
    rw [Array.length_toList, unpackBytes_size]
    omega
  have hdiv : (8 * index + bit) / 8 = index := by omega
  have hmod : (8 * index + bit) % 8 = bit := by omega
  rw [Nat.add_assoc, hholds.bit_eq _ hplace, Array.getElem_toList, getElem_unpackBytes, bitAt, hdiv,
    hmod]
  simp [Array.getD, hindex]

theorem reads_bytes (written : List UInt8) (hstop : start + 8 * written.length ≤ 8 * bytes.size)
    (hfields : ∀ index (hindex : index < written.length),
      fieldAt bytes (start + 8 * index) 8 = (written[index]).toNat) :
    Reads ((List.replicate written.length 8).mapM Cursor.read) bytes start
      (written.map (·.toUInt64)) (start + 8 * written.length) := by
  induction written generalizing start with
  | nil => exact Reads.pure _
  | cons byte rest ih =>
      rw [List.length_cons] at hstop
      have hbyte := hfields 0 (Nat.succ_pos _)
      have hread := Cursor.reads_read (show 0 < 8 by decide) (show 8 < 64 by decide)
        (show start + 8 ≤ 8 * bytes.size by omega)
      rw [Nat.mul_zero, Nat.add_zero, List.getElem_cons_zero] at hbyte
      rw [hbyte, UInt64.ofNat_uInt8ToNat] at hread
      have hfieldsRest : ∀ index (hindex : index < rest.length),
          fieldAt bytes (start + 8 + 8 * index) 8 = (rest[index]).toNat := by
        intro index hindex
        have hfield := hfields (index + 1) (Nat.succ_lt_succ hindex)
        rwa [Nat.mul_succ, Nat.add_comm (8 * index), ← Nat.add_assoc] at hfield
      have hrest := ih (by omega) hfieldsRest
      have hend : start + 8 * (byte :: rest).length = start + 8 + 8 * rest.length := by
        rw [List.length_cons]
        omega
      rw [hend, List.length_cons, List.replicate_succ, List.mapM_cons]
      exact hread.bind (hrest.bind (Reads.pure _))

end Words

namespace Writer

theorem emitWords_eq_ok_iff {bytes : Array UInt8} {writer next : Writer} :
    emitWords bytes writer = .ok () next ↔
      (writer.bits.size % 32 = 0 ∧ bytes.size % 4 = 0) ∧
        next = { bits := writer.bits ++ unpackBytes bytes } := by
  unfold emitWords
  split_ifs with hbad
  · simp only [false_iff]
    omega
  · simp only [EStateM.Result.ok.injEq, true_and]
    constructor
    · rintro rfl
      exact ⟨by omega, rfl⟩
    · rintro ⟨-, rfl⟩
      rfl

theorem transmits_emitWords (bytes : Array UInt8) :
    Transmits (emitWords bytes) ((List.replicate bytes.size 8).mapM Cursor.read)
      (bytes.toList.map (·.toUInt64)) := by
  intro writer next hwrite
  obtain ⟨-, rfl⟩ := emitWords_eq_ok_iff.mp hwrite
  refine ⟨(unpackBytes bytes).toList, Array.ext' (by simp), ?_⟩
  intro finished hholds
  have hstop := hholds.length_le
  rw [Array.length_toList, unpackBytes_size] at hstop ⊢
  exact reads_bytes bytes.toList hstop fun index hindex => hholds.fieldAt_byte hindex

end Writer

namespace Emission

theorem transmits (emission : Emission) :
    Transmits emission.write emission.read emission.values := by
  cases emission with
  | field value width => exact (Writer.transmits_emit value width).finish rfl
  | chunked value width => exact (transmits_emitVbr value width).finish rfl
  | align => exact Writer.transmits_align32.finish rfl
  | words bytes => exact Writer.transmits_emitWords bytes

theorem reads_of_writeAll (emissions : List Emission) {writer next : Writer}
    {log : List (List UInt64 × Nat)} (hwrite : writeAll emissions writer = .ok log next) :
    ∃ bits : List Bool, next.bits = writer.bits ++ bits ∧
      ∀ bytes, Holds bytes writer.bits.size bits →
        Reads (readAll emissions) bytes writer.bits.size log (writer.bits.size + bits.length) := by
  induction emissions generalizing writer log with
  | nil =>
      obtain ⟨rfl, rfl⟩ := EStateM.Result.ok.inj hwrite
      exact ⟨[], by simp, fun bytes _ => Reads.pure _⟩
  | cons emission rest ih =>
      obtain ⟨_, between, hfirst, hrest⟩ := bind_eq_ok_iff.mp hwrite
      rw [get_bind_apply] at hrest
      obtain ⟨later, _, hlater, hreturn⟩ := bind_eq_ok_iff.mp hrest
      obtain ⟨rfl, rfl⟩ := EStateM.Result.ok.inj hreturn
      obtain ⟨firstBits, hbetween, hreads⟩ := emission.transmits writer between hfirst
      obtain ⟨restBits, hnext, hreadsRest⟩ := ih hlater
      have hsize : between.bits.size = writer.bits.size + firstBits.length := by
        rw [hbetween, size_append_list]
      refine ⟨firstBits ++ restBits, by rw [hnext, hbetween, append_list_assoc], ?_⟩
      intro bytes hholds cursor hcursor
      obtain ⟨hholdsFirst, hholdsRest⟩ := holds_append.mp hholds
      rw [← hsize] at hholdsRest
      obtain ⟨middle, hread, hmiddle⟩ := hreads bytes hholdsFirst cursor hcursor
      rw [← hsize] at hmiddle
      obtain ⟨last, hreadRest, hlast⟩ := hreadsRest bytes hholdsRest middle hmiddle
      refine ⟨last, ?_, ?_⟩
      · rw [readAll, bind_apply_of_ok hread, get_bind_apply, bind_apply_of_ok hreadRest,
          hmiddle.position_eq]
        rfl
      · rwa [List.length_append, ← Nat.add_assoc, ← hsize]

theorem refines_accumulate (emission : Emission) :
    Accumulator.Refines emission.accumulate emission.write := by
  cases emission with
  | field value width => exact Accumulator.refines_emit value width
  | chunked value width => exact Accumulator.refines_emitVbr value width
  | align => exact Accumulator.refines_align32
  | words bytes => exact Accumulator.refines_emitWords bytes

theorem refines_accumulateAll (emissions : List Emission) :
    Accumulator.Refines (accumulateAll emissions) (writeAll emissions) := by
  induction emissions with
  | nil => exact Accumulator.Refines.pure []
  | cons emission rest ih =>
      refine (refines_accumulate emission).bind fun _ => @Accumulator.Refines.bitPosition _
        (fun position => do return (emission.values, position) :: (← accumulateAll rest))
        (fun position => do return (emission.values, position) :: (← writeAll rest)) fun _ => ?_
      exact ih.bind fun _ => Accumulator.Refines.pure _

theorem accumulate_eq_error {emission : Emission} {accumulator next : Accumulator} {cause : Error}
    (hfails : emission.accumulate accumulator = .error cause next) : next = accumulator := by
  cases emission with
  | field value width =>
      simp only [accumulate, Accumulator.emit] at hfails
      split_ifs at hfails
      · exact (EStateM.Result.error.inj hfails).2.symm
      · exact (EStateM.Result.error.inj hfails).2.symm
  | chunked value width =>
      by_cases hwidth : Vbr.ValidWidth width
      · obtain ⟨_, _, hsuccess⟩ := Accumulator.succeeds_emitVbr value hwidth accumulator
        rw [accumulate, hsuccess] at hfails
        cases hfails
      · rw [accumulate, Accumulator.emitVbr, if_neg hwidth] at hfails
        exact (EStateM.Result.error.inj hfails).2.symm
  | align => cases hfails
  | words bytes =>
      simp only [accumulate, Accumulator.emitWords] at hfails
      split_ifs at hfails
      exact (EStateM.Result.error.inj hfails).2.symm

end Emission

theorem Accumulator.backpatch_eq_error {byte : Nat} {word : UInt32} {accumulator next : Accumulator}
    {cause : Error} (hfails : backpatch byte word accumulator = .error cause next) :
    next = accumulator := by
  unfold backpatch at hfails
  split_ifs at hfails
  exact (EStateM.Result.error.inj hfails).2.symm

theorem Cursor.standsAt_ofBytes {bytes : Array UInt8} (hwords : bytes.size % 4 = 0) :
    (ofBytes bytes).StandsAt bytes 0 :=
  ⟨exact_ofBytes bytes, rfl, rfl, hwords⟩

/-- Whatever steps have been made with a new accumulator, a cursor over the finished bytes makes them
again, finds what each of them wrote, and stands after each where the accumulator stood. A step that
fails, or a word that cannot be patched, leaves the accumulator as it was. Every step, and a patch too,
does to the bits behind an accumulator what writing bit by bit does, up to the finished bytes. -/
theorem Emission.readAll_of_accumulateAll (emissions : List Emission) :
    (∀ log accumulator, accumulateAll emissions {} = .ok log accumulator →
      ∃ cursor, readAll emissions (Cursor.ofBytes accumulator.toBytes) = .ok log cursor) ∧
      (∀ (emission : Emission) accumulator next cause,
        emission.accumulate accumulator = .error cause next → next = accumulator) ∧
      (∀ byte word accumulator next cause,
        Accumulator.backpatch byte word accumulator = .error cause next → next = accumulator) ∧
      (∀ emission : Emission, Accumulator.Refines emission.accumulate emission.write) ∧
      (∀ byte word,
        Accumulator.Refines (Accumulator.backpatch byte word) (Writer.backpatch byte word)) ∧
      ∀ accumulator : Accumulator, accumulator.Sound →
        accumulator.toBytes = accumulator.view.toBytes := by
  refine ⟨?_, fun _ _ _ _ => accumulate_eq_error,
    fun _ _ _ _ _ => Accumulator.backpatch_eq_error, refines_accumulate,
    Accumulator.refines_backpatch, fun _ hsound => hsound.toBytes_eq⟩
  intro log accumulator haccumulate
  obtain ⟨hfinal, hwrite⟩ := refines_accumulateAll emissions {} Accumulator.sound_empty
  rw [haccumulate] at hfinal hwrite
  have hsound : accumulator.Sound := hfinal
  obtain ⟨bits, hbits, hreads⟩ := reads_of_writeAll emissions hwrite
  obtain ⟨cursor, hread, -⟩ := hreads _ (Writer.holds_toBytes hbits) _
    (Cursor.standsAt_ofBytes (Writer.size_toBytes_mod accumulator.view))
  rw [← hsound.toBytes_eq] at hread
  exact ⟨cursor, hread⟩

/-- Fields of 63 bits across words, a chunked integer of 64 bits, and words after an alignment. -/
def Emission.sample : List Emission :=
  [.field 5 3, .field 0x7ffffffffffffffe 63, .chunked 0xffffffffffffffff 7, .field 1 1, .align,
    .words #[1, 2, 3, 255], .chunked 33 6]

theorem Emission.readAll_sample :
    ∃ log accumulator cursor, accumulateAll sample {} = .ok log accumulator ∧
      readAll sample (Cursor.ofBytes accumulator.toBytes) = .ok log cursor ∧
      log = [([5], 3), ([0x7ffffffffffffffe], 66), ([0xffffffffffffffff], 143), ([1], 144),
        ([], 160), ([1, 2, 3, 255], 192), ([33], 204)] ∧
      (∃ next, (field 4 2).accumulate accumulator = .error (.valueTooWide 4 2) next ∧
        next = accumulator) ∧
      ∃ next, Accumulator.backpatch 2 7 accumulator = .error (.badBackpatch 2) next ∧
        next = accumulator := by
  have hlog : (accumulateAll sample).run' {} = some [([5], 3), ([0x7ffffffffffffffe], 66),
      ([0xffffffffffffffff], 143), ([1], 144), ([], 160), ([1, 2, 3, 255], 192), ([33], 204)] := by
    decide +kernel
  obtain ⟨hreads, hkept, hunpatched, -⟩ := readAll_of_accumulateAll sample
  cases hwrite : accumulateAll sample {} with
  | error cause accumulator =>
      rw [EStateM.run', EStateM.run, hwrite] at hlog
      cases hlog
  | ok log accumulator =>
      rw [EStateM.run', EStateM.run, hwrite] at hlog
      obtain ⟨cursor, hread⟩ := hreads log accumulator hwrite
      exact ⟨log, accumulator, cursor, rfl, hread, Option.some.inj hlog,
        ⟨accumulator, rfl, hkept (field 4 2) _ _ _ rfl⟩, accumulator, rfl,
        hunpatched 2 7 _ _ _ rfl⟩

end Bitcode.Bits
