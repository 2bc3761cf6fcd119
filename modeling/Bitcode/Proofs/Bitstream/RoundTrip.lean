import Bitcode.Proofs.Bitstream.Success

/-!
Reading a stream undoes writing it. Whatever sequence of valid operations has written a stream, a
reader of its bytes finds the entries of the operations in order, and then the stream is exhausted.
The sizes of blocks come back modulo 16 GiB.
-/

namespace Bitcode.Bitstream

open Format Bits

namespace Operation

/-- Where a block ends that lies inside so many others, in bytes: after the first operation that
leaves no more blocks open than these. -/
def endOf (depth : Nat) : List Operation → Writer → Nat
  | [], writer => writer.bits.bytePosition
  | operation :: rest, writer =>
      match operation.run writer with
      | .error _ _ => writer.bits.bytePosition
      | .ok _ next =>
          if next.blocks.length ≤ depth then next.bits.bytePosition else endOf depth rest next

/-- The entries of operations on a writer. The body of a block reaches from the end of its start to
the end of the operation that exits it. -/
def entriesOf : List Operation → Writer → List Entry
  | [], _ => []
  | operation :: rest, writer =>
      match operation.run writer with
      | .error _ _ => []
      | .ok _ next =>
          operation.entries writer next
            (endOf writer.blocks.length rest next - next.bits.bytePosition) ++ entriesOf rest next

end Operation

/-- The entry as a stream tells it: the size of a block is a word of 32 bits that counts words. -/
def Entry.told : Entry → Entry
  | .block id size => .block id (4 * (size / 4 % 2 ^ 32))
  | entry => entry

namespace Writer

open Operation

section Run

variable {writer next final : Writer} {operation : Operation} {operations : List Operation}

theorem run_cons (hrun : (operation :: operations).forM run writer = .ok () final) :
    ∃ next, operation.run writer = .ok () next ∧ operations.forM run next = .ok () final := by
  obtain ⟨_, next, hfirst, hrest⟩ := bind_eq_ok_iff.mp hrun
  exact ⟨next, hfirst, hrest⟩

theorem eight_mul_bytePosition (hsize : writer.size % 32 = 0) :
    8 * writer.bits.bytePosition = writer.size := by
  change 8 * (4 * (writer.size / 32)) = writer.size
  omega

theorem length_lengthsAt (writer : Writer) : writer.lengthsAt.length = writer.blocks.length := by
  rw [lengthsAt, List.length_map]

theorem run_sound (hsound : writer.Sound)
    (hordinary : ∀ operation ∈ operations, operation.isOrdinary)
    (hrun : operations.forM run writer = .ok () final) : final.Sound := by
  induction operations generalizing writer with
  | nil =>
      obtain ⟨-, rfl⟩ := EStateM.Result.ok.inj hrun
      exact hsound
  | cons operation operations ih =>
      obtain ⟨next, hfirst, hrest⟩ := run_cons hrun
      obtain ⟨hnext, -⟩ := operation_kept hsound (hordinary _ List.mem_cons_self) hfirst
      exact ih hnext (fun other hother => hordinary other (List.mem_cons_of_mem _ hother)) hrest

theorem run_keeps {bytes : Array UInt8} (hsound : writer.Sound)
    (hordinary : ∀ operation ∈ operations, operation.isOrdinary)
    (hrun : operations.forM run writer = .ok () final) (hkeeps : Keeps bytes final) :
    Keeps bytes writer := by
  induction operations generalizing writer with
  | nil =>
      obtain ⟨-, rfl⟩ := EStateM.Result.ok.inj hrun
      exact hkeeps
  | cons operation operations ih =>
      obtain ⟨next, hfirst, hrest⟩ := run_cons hrun
      obtain ⟨hnext, hback⟩ := operation_kept hsound (hordinary _ List.mem_cons_self) hfirst
      exact hback bytes
        (ih hnext (fun other hother => hordinary other (List.mem_cons_of_mem _ hother)) hrest)

theorem fieldAt_lengthAt {bytes : Array UInt8} {inner outer : List Nat} {place : Nat}
    (hsound : writer.Sound) (hvalid : ∀ operation ∈ operations, operation.isValid)
    (hrun : operations.forM run writer = .ok () final) (hend : final.blocks = [])
    (hkeeps : Keeps bytes final) (hlengths : writer.lengthsAt = inner ++ place :: outer) :
    fieldAt bytes (8 * place) 32 =
      wordsTold place (8 * endOf outer.length operations writer) := by
  induction operations generalizing writer inner with
  | nil =>
      obtain ⟨-, rfl⟩ := EStateM.Result.ok.inj hrun
      simp [lengthsAt, hend] at hlengths
  | cons operation operations ih =>
      obtain ⟨next, hfirst, hrest⟩ := run_cons hrun
      obtain ⟨hnext, hchanges, -⟩ := operation_followed hsound (hvalid _ List.mem_cons_self) hfirst
      have hothers : ∀ other ∈ operations, other.isValid :=
        fun other hother => hvalid other (List.mem_cons_of_mem _ hother)
      have hopen : ∀ {innermost : List Nat}, next.lengthsAt = innermost ++ place :: outer →
          fieldAt bytes (8 * place) 32 =
            wordsTold place (8 * endOf outer.length (operation :: operations) writer) := by
        intro innermost hstill
        have hdeep : ¬ next.blocks.length ≤ outer.length := by
          rw [← length_lengthsAt, hstill, List.length_append, List.length_cons]
          omega
        simp only [endOf, hfirst, if_neg hdeep]
        exact ih hnext hothers hrest hstill
      cases hchanges with
      | same hsame => exact hopen (hsame.trans hlengths)
      | opened added hplace hsize hadded =>
          rw [hlengths, ← List.cons_append] at hadded
          exact hopen hadded
      | settled gone hsize hgone htold =>
          rw [hlengths] at hgone
          cases inner with
          | cons innermost inner => exact hopen (List.cons.inj hgone).2.symm
          | nil =>
              obtain ⟨rfl, houter⟩ := List.cons.inj hgone
              have hshallow : next.blocks.length ≤ outer.length :=
                Nat.le_of_eq (by rw [← length_lengthsAt, houter])
              simp only [endOf, hfirst, if_pos hshallow]
              rw [eight_mul_bytePosition hsize]
              exact htold bytes (run_keeps hnext (isOrdinary_of_forall_isValid hothers) hrest hkeeps)

theorem map_told_entries (operation : Operation) (writer next : Writer) (size : Nat) :
    (operation.entries writer next size).map Entry.told =
      operation.entries writer next (4 * (size / 4 % 2 ^ 32)) := by
  cases operation with
  | enter | exit | plain | abbreviated => rfl
  | define | share =>
      simp only [entries, List.map_map]
      rfl

theorem entries_told {bytes : Array UInt8} (hsound : writer.Sound)
    (hvalid : ∀ other ∈ operation :: operations, other.isValid)
    (hfirst : operation.run writer = .ok () next)
    (hrest : operations.forM run next = .ok () final) (hend : final.blocks = [])
    (hkeeps : Keeps bytes final) :
    operation.entries writer next (4 * fieldAt bytes (next.size - 32) 32) =
      (operation.entries writer next
        (endOf writer.blocks.length operations next - next.bits.bytePosition)).map Entry.told := by
  rw [map_told_entries]
  cases operation with
  | enter block width =>
      have hoperation := hvalid _ List.mem_cons_self
      obtain ⟨hordinary, hwidth⟩ := of_decide_eq_true hoperation
      obtain ⟨hnext, -, -⟩ := operation_followed hsound hoperation hfirst
      obtain ⟨place, hplace, hsize, -, hblocks, -, -⟩ := follows_enterBlock hsound.nested hfirst
      have hlengths : next.lengthsAt = [] ++ place :: writer.lengthsAt := by
        rw [lengthsAt, hblocks]
        rfl
      have htold := fieldAt_lengthAt hnext
        (fun other hother => hvalid other (List.mem_cons_of_mem _ hother)) hrest hend hkeeps hlengths
      have hbody : next.bits.bytePosition = place + 4 := by
        have hposition := eight_mul_bytePosition hsize
        omega
      have hfront : next.size - 32 = 8 * place := by omega
      rw [length_lengthsAt] at htold
      rw [hfront, htold, wordsTold, UInt32.toNat_ofNat', hbody,
        Nat.mul_div_cancel_left _ (by decide), Nat.sub_sub]
  | exit | define | share | plain | abbreviated => simp only [entries]

theorem run_parsed {bytes : Array UInt8} (hsound : writer.Sound)
    (hvalid : ∀ operation ∈ operations, operation.isValid)
    (hrun : operations.forM run writer = .ok () final) (hend : final.blocks = [])
    (hkeeps : Keeps bytes final) :
    Parsed bytes writer.size writer.context ((entriesOf operations writer).map Entry.told)
      final.size final.context := by
  induction operations generalizing writer with
  | nil =>
      obtain ⟨-, rfl⟩ := EStateM.Result.ok.inj hrun
      exact .refl _ _
  | cons operation operations ih =>
      obtain ⟨next, hfirst, hrest⟩ := run_cons hrun
      obtain ⟨hnext, -, hfollows⟩ := operation_followed hsound (hvalid _ List.mem_cons_self) hfirst
      have hothers : ∀ other ∈ operations, other.isValid :=
        fun other hother => hvalid other (List.mem_cons_of_mem _ hother)
      have hstep := hfollows.parsed bytes
        (run_keeps hnext (isOrdinary_of_forall_isValid hothers) hrest hkeeps)
      rw [entries_told hsound hvalid hfirst hrest hend hkeeps] at hstep
      simp only [entriesOf, hfirst, List.map_append]
      exact hstep.trans (ih hnext hothers hrest)

theorem endOf_mod (depth : Nat) (operations : List Operation) (writer : Writer) :
    endOf depth operations writer % 4 = 0 := by
  have hword : ∀ writer : Writer, writer.bits.bytePosition % 4 = 0 := by
    intro writer
    exact Nat.mul_mod_right _ _
  fun_induction endOf depth operations writer with
  | case1 writer => exact hword writer
  | case2 operation rest writer => exact hword writer
  | case3 operation rest writer value next hrun hshallow => exact hword next
  | case4 operation rest writer value next hrun hdeep ih => exact ih

theorem Keeps.bytePosition_le {bytes : Array UInt8} (hkeeps : Keeps bytes writer) :
    writer.bits.bytePosition ≤ bytes.size := by
  have hsize := hkeeps.size_le
  change 4 * (writer.size / 32) ≤ bytes.size
  omega

theorem endOf_le {bytes : Array UInt8} (depth : Nat) (hsound : writer.Sound)
    (hvalid : ∀ operation ∈ operations, operation.isValid)
    (hrun : operations.forM run writer = .ok () final) (hkeeps : Keeps bytes final) :
    endOf depth operations writer ≤ bytes.size := by
  induction operations generalizing writer with
  | nil =>
      obtain ⟨-, rfl⟩ := EStateM.Result.ok.inj hrun
      exact hkeeps.bytePosition_le
  | cons operation operations ih =>
      obtain ⟨next, hfirst, hrest⟩ := run_cons hrun
      obtain ⟨hnext, -, -⟩ := operation_followed hsound (hvalid _ List.mem_cons_self) hfirst
      have hothers : ∀ other ∈ operations, other.isValid :=
        fun other hother => hvalid other (List.mem_cons_of_mem _ hother)
      simp only [endOf, hfirst]
      split
      · exact (run_keeps hnext (isOrdinary_of_forall_isValid hothers) hrest hkeeps).bytePosition_le
      · exact ih hnext hothers hrest

theorem size_of_mem_entries {next : Writer} {id : UInt64} {told size : Nat}
    (hmem : .block id size ∈ operation.entries writer next told) : size = told := by
  cases operation with
  | enter block width => exact (Entry.block.inj (List.mem_singleton.mp hmem)).2
  | exit | plain | abbreviated => simp [entries] at hmem
  | define | share => simp [entries] at hmem

theorem size_of_mem_entriesOf {bytes : Array UInt8} {id : UInt64} {size : Nat}
    (hsound : writer.Sound) (hvalid : ∀ operation ∈ operations, operation.isValid)
    (hrun : operations.forM run writer = .ok () final) (hkeeps : Keeps bytes final)
    (hmem : .block id size ∈ entriesOf operations writer) : size % 4 = 0 ∧ size ≤ bytes.size := by
  induction operations generalizing writer with
  | nil => simp [entriesOf] at hmem
  | cons operation operations ih =>
      obtain ⟨next, hfirst, hrest⟩ := run_cons hrun
      obtain ⟨hnext, -, -⟩ := operation_followed hsound (hvalid _ List.mem_cons_self) hfirst
      have hothers : ∀ other ∈ operations, other.isValid :=
        fun other hother => hvalid other (List.mem_cons_of_mem _ hother)
      simp only [entriesOf, hfirst, List.mem_append] at hmem
      rcases hmem with hhere | hlater
      · rw [size_of_mem_entries hhere]
        have hle := endOf_le writer.blocks.length hnext hothers hrest hkeeps
        have hwords := endOf_mod writer.blocks.length operations next
        have hstart : next.bits.bytePosition % 4 = 0 := Nat.mul_mod_right _ _
        omega
      · exact ih hnext hothers hrest hlater

theorem finish_eq_ok_iff {bytes : Array UInt8} :
    writer.finish = .ok bytes ↔ writer.blocks = [] ∧ writer.bits.toBytes = bytes := by
  unfold finish
  cases writer.blocks <;> simp

theorem size_toBytes (hsize : writer.size % 32 = 0) :
    8 * writer.bits.toBytes.size = writer.size := by
  rw [Bits.Writer.toBytes, packBytes_size, ← size]
  omega

theorem keeps_toBytes (hsize : writer.size % 32 = 0) : Keeps writer.bits.toBytes writer := by
  have hbytes := size_toBytes hsize
  refine ⟨by omega, ?_⟩
  intro index hindex _
  rw [Bits.Writer.toBytes, packBytes_size] at hbytes
  exact bitAt_packBytes _ _ _ (by omega)

end Run

end Writer

theorem standsAt_restart {bytes : Array UInt8} {byte : Nat} (hbyte : byte ≤ bytes.size)
    (hword : byte % 4 = 0) (hwords : bytes.size % 4 = 0) :
    ((Cursor.ofBytes bytes).restart byte).StandsAt bytes (8 * byte) :=
  ⟨(Cursor.exact_ofBytes bytes).restart hbyte, rfl, hword, hwords⟩

section Finished

open Operation

variable {operations : List Operation} {writer : Writer} {bytes : Array UInt8}

theorem Writer.sound_empty : ({} : Writer).Sound :=
  sound_of_blocks_eq_nil rfl rfl rfl

theorem Writer.keeps_of_finish (hvalid : ∀ operation ∈ operations, operation.isValid)
    (hrun : operations.forM run {} = .ok () writer) (hfinish : writer.finish = .ok bytes) :
    writer.blocks = [] ∧ 8 * bytes.size = writer.size ∧ Keeps bytes writer := by
  obtain ⟨hend, rfl⟩ := finish_eq_ok_iff.mp hfinish
  have hsound := run_sound sound_empty (isOrdinary_of_forall_isValid hvalid) hrun
  have hcomplete := hsound.nested.complete hend
  exact ⟨hend, size_toBytes hcomplete, keeps_toBytes hcomplete⟩

/-- A reader finds the entries as they are told, and then the end. -/
theorem Writer.yields_told (hvalid : ∀ operation ∈ operations, operation.isValid)
    (hrun : operations.forM run {} = .ok () writer) (hfinish : writer.finish = .ok bytes) :
    ∃ last final, Reader.Yields ((entriesOf operations {}).map Entry.told)
        (.ofCursor (Cursor.ofBytes bytes)) last ∧
      Reader.advance last = .error .exhausted final := by
  obtain ⟨hend, hbytes, hkeeps⟩ := keeps_of_finish hvalid hrun hfinish
  have hcomplete := (run_sound sound_empty (isOrdinary_of_forall_isValid hvalid)
    hrun).nested.complete hend
  have hparsed := run_parsed sound_empty hvalid hrun hend hkeeps
  rw [← hbytes] at hparsed
  have hscopes : writer.context.scopes = [] := by
    rw [context_none_scopes, hend]
    rfl
  have hcursor := standsAt_restart (Nat.zero_le bytes.size) rfl (by omega)
  obtain ⟨last, final, hyields, hadvance⟩ :=
    Reader.yields_of_parsed hparsed (Reader.ends_of_scopes_eq_nil hscopes) _ hcursor
  exact ⟨last, _, hyields, hadvance⟩

theorem Writer.told_eq_iff (hvalid : ∀ operation ∈ operations, operation.isValid)
    (hrun : operations.forM run {} = .ok () writer) (hfinish : writer.finish = .ok bytes) :
    (entriesOf operations {}).map Entry.told = entriesOf operations {} ↔
      ∀ id size, .block id size ∈ entriesOf operations {} → size < 2 ^ 34 := by
  obtain ⟨-, -, hkeeps⟩ := keeps_of_finish hvalid hrun hfinish
  have hwords : ∀ id size, .block id size ∈ entriesOf operations {} → size % 4 = 0 :=
    fun id size hmem => (size_of_mem_entriesOf sound_empty hvalid hrun hkeeps hmem).1
  constructor
  · intro hsame id size hmem
    have htold := List.map_inj_left.mp (hsame.trans (List.map_id _).symm) _ hmem
    have hsize := (Entry.block.inj htold).2
    have hfour := hwords id size hmem
    omega
  · intro hshort
    refine (List.map_congr_left fun entry hentry => ?_).trans (List.map_id _)
    cases entry with
    | block id size =>
        have hless := hshort id size hentry
        have hfour := hwords id size hentry
        have hsize : 4 * (size / 4 % 2 ^ 32) = size := by omega
        exact congrArg (Entry.block id) hsize
    | endBlock | record | definition => rfl

/-- The reader undoes the writer, except that the size of a block is told modulo 16 GiB. So all
entries come back as they were exactly if every block has a body of less than 16 GiB, and in
particular if the stream has less. -/
theorem yields_entriesOf (hvalid : ∀ operation ∈ operations, operation.isValid)
    (hrun : operations.forM run {} = .ok () writer) (hfinish : writer.finish = .ok bytes) :
    (∃ last final, Reader.Yields ((entriesOf operations {}).map Entry.told)
        (.ofCursor (Cursor.ofBytes bytes)) last ∧
      Reader.advance last = .error .exhausted final) ∧
    ((entriesOf operations {}).map Entry.told = entriesOf operations {} ↔
      ∀ id size, .block id size ∈ entriesOf operations {} → size < 2 ^ 34) ∧
    (bytes.size < 2 ^ 34 →
      ∀ id size, .block id size ∈ entriesOf operations {} → size < 2 ^ 34) := by
  obtain ⟨-, -, hkeeps⟩ := Writer.keeps_of_finish hvalid hrun hfinish
  refine ⟨Writer.yields_told hvalid hrun hfinish, Writer.told_eq_iff hvalid hrun hfinish, ?_⟩
  intro hsmall id size hmem
  exact Nat.lt_of_le_of_lt
    (Writer.size_of_mem_entriesOf Writer.sound_empty hvalid hrun hkeeps hmem).2 hsmall

end Finished

/-- A block with a block 0, a nested block and a definition of its own. -/
def Operation.sample : List Operation :=
  [.enter 8 3, .share [(17, [⟨[.literal 1, .vbr 6]⟩])], .enter 17 4, .abbreviated 4 1 [33], .exit,
    .define ⟨[.blob]⟩, .abbreviated 4 3 [], .exit]

theorem Operation.sample_written :
    ∃ writer bytes, sample.forM run {} = .ok () writer ∧ writer.finish = .ok bytes ∧
      bytes.size < 2 ^ 34 := by
  have hwritten : (match sample.forM run {} with
      | .ok _ writer => writer.finish.toOption.any fun bytes => bytes.size = 48
      | .error _ _ => false) = true := by decide +kernel
  cases hrun : sample.forM run {} with
  | error cause writer => simp [hrun] at hwritten
  | ok value writer =>
      cases hfinish : writer.finish with
      | error cause => simp [hrun, hfinish, Except.toOption] at hwritten
      | ok bytes =>
          simp only [hrun, hfinish, Except.toOption, Option.any_some, decide_eq_true_eq] at hwritten
          exact ⟨writer, bytes, rfl, hfinish, by omega⟩

open Operation in
theorem yields_sample :
    ∃ bytes last final,
      Reader.Yields
        [.block 8 40, .definition 17 ⟨[.literal 1, .vbr 6]⟩ false, .block 17 4,
          .record ⟨some 4, 1, [33], 16⟩, .endBlock, .definition 8 ⟨[.blob]⟩ true,
          .record ⟨some 4, 3, [], 52⟩, .endBlock]
        (.ofCursor (Cursor.ofBytes bytes)) last ∧
      Reader.advance last = .error .exhausted final := by
  obtain ⟨writer, bytes, hrun, hfinish, hsmall⟩ := sample_written
  obtain ⟨⟨last, final, hyields, hadvance⟩, hexact, hshort⟩ :=
    yields_entriesOf (by decide) hrun hfinish
  have hentries : entriesOf sample {} =
      [.block 8 40, .definition 17 ⟨[.literal 1, .vbr 6]⟩ false, .block 17 4,
        .record ⟨some 4, 1, [33], 16⟩, .endBlock, .definition 8 ⟨[.blob]⟩ true,
        .record ⟨some 4, 3, [], 52⟩, .endBlock] := by decide +kernel
  rw [hexact.mpr (hshort hsmall), hentries] at hyields
  exact ⟨bytes, last, final, hyields, hadvance⟩

/-- A block with so many records that have no fields. -/
def Operation.lengthy (count : Nat) : List Operation :=
  .enter 12 2 :: (List.replicate count (.plain 0 []) ++ [.exit])

section Lengthy

open Operation

variable {writer : Writer} {block : OpenBlock} {rest : List OpenBlock}

theorem Writer.run_plains (count : Nat) (hblocks : writer.blocks = block :: rest)
    (hroom : RoomForIds block.idWidth) :
    ∃ next, (List.replicate count (Operation.plain 0 [])).forM run writer = .ok () next ∧
      next.blocks = writer.blocks ∧ next.size = writer.size + count * (block.idWidth + 12) ∧
      ∀ more, endOf rest.length (List.replicate count (.plain 0 []) ++ more) writer =
        endOf rest.length more next := by
  induction count generalizing writer with
  | zero => exact ⟨writer, rfl, rfl, by simp, fun _ => rfl⟩
  | succ count ih =>
      have hwidth := idWidth_of_blocks hblocks
      obtain ⟨_, middle, hplain⟩ := writePlain_succeeds 0 [] hblocks
        (reserved_succeeds (hwidth ▸ hroom) .plainRecord)
      have hrun : (Operation.plain 0 []).run writer = .ok () middle := hplain
      obtain ⟨hsize, -⟩ := spends_writePlain 0 [] hplain
      have hbits : Selection.plainBits [0] = 12 := by decide
      simp only [hwidth, hbits] at hsize
      have hsame : middle.blocks = writer.blocks := by
        obtain ⟨bits, -, rfl, -⟩ := writePlain_sends hblocks hplain
        rfl
      obtain ⟨next, hrest, hlast, hnext, hend⟩ := ih (hsame.trans hblocks)
      refine ⟨next, bind_eq_ok_iff.mpr ⟨(), middle, hrun, hrest⟩, hlast.trans hsame, ?_, ?_⟩
      · rw [hnext, hsize, Nat.succ_mul]
        omega
      · intro more
        have hdeep : ¬ middle.blocks.length ≤ rest.length := by
          rw [hsame, hblocks, List.length_cons]
          omega
        rw [List.replicate_succ, List.cons_append, endOf, hrun]
        simp only [if_neg hdeep]
        exact hend more

theorem Writer.lengthy_written (count : Nat) :
    ∃ writer bytes size, (lengthy count).forM run {} = .ok () writer ∧ writer.finish = .ok bytes ∧
      .block 12 size ∈ entriesOf (lengthy count) {} ∧ count * 14 ≤ 8 * size := by
  have hroom : RoomForIds (2 : UInt64).toNat := ⟨by decide, by decide⟩
  have hstart : SucceedsAt (emitId ReservedId.enterBlock.code) ({} : Writer) := by
    apply reserved_succeeds
    exact hroom
  obtain ⟨_, entered, henter⟩ := enterBlock_succeeds 12 2 hstart
  obtain ⟨place, hplace, hwords, -, hblocks, -, -, -⟩ :=
    follows_enterBlock sound_empty.nested henter
  obtain ⟨filled, hfill, hsame, hsize, hend⟩ := run_plains count hblocks hroom
  have hopen := hsame.trans hblocks
  have hfilled : filled.size = entered.size + count * 14 := hsize
  obtain ⟨_, left, hexit⟩ := exitBlock_succeeds hopen (by dsimp only; omega) (by dsimp only; omega)
    (reserved_succeeds (idWidth_of_blocks hopen ▸ hroom) .endBlock)
  obtain ⟨bits, -, hmod, hleft, -⟩ := exit_answered none hopen hexit
  have hclosed : left.blocks = [] := by rw [hleft]
  have hlast : left.size = filled.size + bits.length := by
    rw [hleft, size, size_patch, ← size_append]
    rfl
  have hbody : endOf 0 (List.replicate count (.plain 0 []) ++ [.exit]) entered =
      left.bits.bytePosition := by
    have hshallow : left.blocks.length ≤ 0 := by simp [hclosed]
    have hlater : endOf 0 [.exit] filled = left.bits.bytePosition := by
      simp only [endOf, run, hexit, if_pos hshallow]
    exact (hend [.exit]).trans hlater
  have hafter : 8 * left.bits.bytePosition = left.size := eight_mul_bytePosition (by omega)
  have hbefore := eight_mul_bytePosition hwords
  refine ⟨left, _, left.bits.bytePosition - entered.bits.bytePosition, ?_,
    finish_eq_ok_iff.mpr ⟨hclosed, rfl⟩, ?_, by omega⟩
  · refine bind_eq_ok_iff.mpr ⟨(), entered, henter, ?_⟩
    refine (congrFun List.forM_append entered).trans ?_
    exact bind_eq_ok_iff.mpr ⟨(), filled, hfill, bind_eq_ok_iff.mpr ⟨(), left, hexit, rfl⟩⟩
  · simp only [lengthy, entriesOf, run, henter]
    rw [← hbody]
    exact List.mem_append_left _ List.mem_cons_self

/-- A size of 16 GiB or more is told as another one. -/
theorem yields_lengthy :
    ∃ operations writer bytes found last final, (∀ operation ∈ operations, operation.isValid) ∧
      operations.forM run {} = .ok () writer ∧ writer.finish = .ok bytes ∧
      Reader.Yields found (.ofCursor (Cursor.ofBytes bytes)) last ∧
      Reader.advance last = .error .exhausted final ∧ found ≠ entriesOf operations {} := by
  obtain ⟨writer, bytes, size, hrun, hfinish, hmem, hsize⟩ := Writer.lengthy_written (2 ^ 34)
  have hvalid : ∀ operation ∈ lengthy (2 ^ 34), operation.isValid := by
    rw [lengthy, List.forall_mem_cons, List.forall_mem_append]
    refine ⟨rfl, fun operation hoperation => ?_, by simp [isValid]⟩
    rw [List.eq_of_mem_replicate hoperation]
    rfl
  obtain ⟨last, final, hyields, hadvance⟩ := Writer.yields_told hvalid hrun hfinish
  refine ⟨_, writer, bytes, _, last, final, hvalid, hrun, hfinish, hyields, hadvance, ?_⟩
  intro hsame
  have hshort := (Writer.told_eq_iff hvalid hrun hfinish).mp hsame 12 size hmem
  omega

end Lengthy

end Bitcode.Bitstream
