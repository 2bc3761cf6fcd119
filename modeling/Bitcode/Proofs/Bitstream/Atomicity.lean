import Bitcode.Proofs.Bits.Mirror
import Bitcode.Proofs.Bitstream.Success

namespace Bitcode

open Format Bits

theorem Abbrev.le_valuesEnd (shape : Abbrev) (values : List UInt64) (position : Nat) :
    position ≤ shape.valuesEnd values position := by
  unfold Abbrev.valuesEnd
  split
  · exact Nat.le_add_right _ _
  · have hhead := Bitstream.Reader.le_aligned (position + (Abbrev.operatorBits
      shape.operators.dropLast (values.take shape.operators.dropLast.length)).getD 0 +
      Vbr.bitSize (UInt64.ofNat (values.length - shape.operators.dropLast.length)) 6)
    exact Nat.le_trans (by omega) (Bitstream.Reader.le_aligned _)

namespace Bitstream

/-- A failure of the computation leaves the state as it was. -/
def AtomicAt {ε σ α : Type} (computation : EStateM ε σ α) (state : σ) : Prop :=
  ∀ ⦃cause : ε⦄ ⦃next : σ⦄, computation state = .error cause next → next = state

section Atomic

variable {ε σ α β : Type} {state : σ}

theorem AtomicAt.throw (cause : ε) (state : σ) :
    AtomicAt (MonadExcept.throw cause : EStateM ε σ α) state := by
  intro _ _ hfails
  exact (EStateM.Result.error.inj hfails).2.symm

theorem SucceedsAt.atomic {computation : EStateM ε σ α} (hsucceeds : SucceedsAt computation state) :
    AtomicAt computation state := by
  intro cause next hfails
  obtain ⟨value, final, hrun⟩ := hsucceeds
  rw [hrun] at hfails
  cases hfails

theorem AtomicAt.of_first {computation : EStateM ε σ β} {first : EStateM ε σ α}
    (hfirst : AtomicAt first state)
    (hfailure : ∀ cause next, first state = .error cause next →
      computation state = .error cause next)
    (hsuccess : SucceedsAt first state → SucceedsAt computation state) :
    AtomicAt computation state := by
  cases hstep : first state with
  | ok value middle => exact (hsuccess ⟨value, middle, hstep⟩).atomic
  | error cause middle =>
      intro other next hfails
      rw [hfailure cause middle hstep] at hfails
      obtain ⟨rfl, rfl⟩ := EStateM.Result.error.inj hfails
      exact hfirst hstep

theorem AtomicAt.adaptExcept {δ : Type} {computation : EStateM ε σ α} (convert : ε → δ)
    (hcomputation : AtomicAt computation state) :
    AtomicAt (EStateM.adaptExcept convert computation) state := by
  intro cause next hfails
  unfold EStateM.adaptExcept at hfails
  cases hrun : computation state with
  | ok value final =>
      rw [hrun] at hfails
      cases hfails
  | error other final =>
      rw [hrun] at hfails
      obtain ⟨-, rfl⟩ := EStateM.Result.error.inj hfails
      exact hcomputation hrun

theorem AtomicAt.onBits {writing : Writing α} {writer : Writer}
    (hwriting : AtomicAt writing writer.bits) : AtomicAt (onBits writing) writer := by
  intro cause next hfails
  obtain ⟨bits, blocks, shared⟩ := writer
  simp only [Bitstream.onBits] at hfails
  cases hrun : writing bits with
  | ok value changed =>
      rw [hrun] at hfails
      cases hfails
  | error other changed =>
      rw [hrun] at hfails
      obtain ⟨-, rfl⟩ := EStateM.Result.error.inj hfails
      rw [hwriting hrun]

end Atomic

/-- A call of a writer: a header, or an operation. -/
inductive Call where
  | header (header : Header)
  | operation (operation : Operation)
  deriving DecidableEq

namespace Call

/-- What the call does to a writer. -/
def run : Call → Composing Unit
  | .header front => Writer.writeHeader front
  | .operation step => step.run

/-- Ids are 1 to 32 bits wide in the blocks that the call starts, and a reader accepts the
abbreviations that it defines. Ids of records, codes and fields are free. -/
def Permitted : Call → Prop
  | .operation (.enter _ width) => 1 ≤ width ∧ width ≤ 32
  | .operation (.define shape) => shape.isAcceptable
  | .operation (.share listed) => ∀ entry ∈ listed, ∀ shape ∈ entry.2, shape.isAcceptable
  | .header _ | .operation .exit | .operation (.plain _ _) | .operation (.abbreviated _ _ _) => True

end Call

/-- The block can be ended once so many bits are written, and its abbreviations can be used. -/
structure OpenBlock.Tidy (size : Nat) (block : OpenBlock) : Prop where
  positive : 1 ≤ block.idWidth
  narrow : block.idWidth ≤ 32
  word : block.lengthAt % 4 = 0
  inside : 8 * block.lengthAt + 32 ≤ size
  seen : ∀ shape ∈ block.abbrevs, shape.isAcceptable

theorem OpenBlock.Tidy.mono {block : OpenBlock} {size larger : Nat} (hblock : block.Tidy size)
    (hsize : size ≤ larger) : block.Tidy larger :=
  { hblock with inside := Nat.le_trans hblock.inside hsize }

namespace Writer

/-- The writers that permitted calls lead to, whether the calls succeed or fail. -/
inductive Reachable : Writer → Prop where
  | start : Reachable {}
  | succeeded {writer next : Writer} (call : Call) (hwriter : Reachable writer)
      (hcall : call.Permitted) (hrun : call.run writer = .ok () next) : Reachable next
  | failed {writer next : Writer} {cause : Error} (call : Call) (hwriter : Reachable writer)
      (hcall : call.Permitted) (hrun : call.run writer = .error cause next) : Reachable next

/-- All open blocks can be ended, and all abbreviations can be used. -/
structure Tidy (writer : Writer) : Prop where
  blocks : ∀ block ∈ writer.blocks, block.Tidy writer.size
  known : ∀ definition ∈ writer.shared.definitions, definition.2.isAcceptable

section Failures

variable {writer next : Writer} {block : OpenBlock} {rest : List OpenBlock}

theorem atomic_emit (value : UInt64) (width : Nat) (bits : Bits.Writer) :
    AtomicAt (Bits.Writer.emit value width) bits := by
  intro cause next hfails
  unfold Bits.Writer.emit at hfails
  split_ifs at hfails
  · exact (EStateM.Result.error.inj hfails).2.symm
  · exact (EStateM.Result.error.inj hfails).2.symm

theorem atomic_emitWords (bytes : Array UInt8) (bits : Bits.Writer) :
    AtomicAt (Bits.Writer.emitWords bytes) bits := by
  intro cause next hfails
  unfold Bits.Writer.emitWords at hfails
  split_ifs at hfails
  exact (EStateM.Result.error.inj hfails).2.symm

theorem atomic_emitId (id : UInt64) (writer : Writer) : AtomicAt (emitId id) writer := by
  apply AtomicAt.onBits
  apply AtomicAt.adaptExcept
  exact atomic_emit id writer.idWidth writer.bits

theorem atomic_writeHeader (header : Header) (writer : Writer) :
    AtomicAt (writeHeader header) writer := by
  rw [AtomicAt, writeHeader, get_bind_apply]
  split
  · exact AtomicAt.throw _ _
  · apply AtomicAt.onBits
    apply AtomicAt.adaptExcept
    exact atomic_emitWords header.raw writer.bits

theorem atomic_enterBlock (id width : UInt64) (writer : Writer) :
    AtomicAt (enterBlock id width) writer :=
  .of_first (atomic_emitId _ _) (fun _ _ => bind_apply_of_error) (enterBlock_succeeds id width)

theorem atomic_writeInfoBlock (listed : List (UInt64 × List Abbrev)) (writer : Writer) :
    AtomicAt (writeInfoBlock listed) writer := by
  refine .of_first (atomic_enterBlock infoBlockId (UInt64.ofNat initialIdWidth) writer)
    (fun _ _ => bind_apply_of_error) ?_
  rintro ⟨_, entered, henter⟩
  obtain ⟨_, announced, hid, -⟩ := bind_eq_ok_iff.mp henter
  obtain ⟨next, hrun, -⟩ := writeInfoBlock_succeeds listed ⟨(), announced, hid⟩
  exact ⟨(), next, hrun⟩

theorem atomic_define (shape : Abbrev) (writer : Writer) : AtomicAt (define shape) writer := by
  cases hblocks : writer.blocks with
  | nil =>
      rw [AtomicAt, define, get_bind_apply, hblocks]
      exact AtomicAt.throw _ _
  | cons block rest =>
      refine .of_first (atomic_emitId _ _) (fun cause next hid => ?_) (define_succeeds shape hblocks)
      rw [define, get_bind_apply, hblocks]
      exact bind_apply_of_error hid

theorem atomic_writePlain (code : UInt64) (fields : List UInt64) (writer : Writer) :
    AtomicAt (writePlain code fields) writer := by
  cases hblocks : writer.blocks with
  | nil =>
      rw [AtomicAt, writePlain, get_bind_apply, hblocks]
      exact AtomicAt.throw _ _
  | cons block rest =>
      refine .of_first (atomic_emitId _ _) (fun cause next hid => ?_)
        (writePlain_succeeds code fields hblocks)
      rw [writePlain, get_bind_apply, hblocks]
      exact bind_apply_of_error hid

theorem atomic_writeAbbreviated (id code : UInt64) (fields : List UInt64)
    (hseen : ∀ block ∈ writer.blocks, ∀ shape ∈ block.abbrevs, shape.isAcceptable) :
    AtomicAt (writeAbbreviated id code fields) writer := by
  cases hblocks : writer.blocks with
  | nil =>
      rw [AtomicAt, writeAbbreviated, get_bind_apply, hblocks]
      exact AtomicAt.throw _ _
  | cons block rest =>
      cases hshape : abbrevWithId? block.abbrevs id with
      | none =>
          rw [AtomicAt, writeAbbreviated, get_bind_apply, hblocks]
          simp only [hshape]
          exact AtomicAt.throw _ _
      | some shape =>
          cases hencode : shape.canEncode (code :: fields) with
          | false =>
              rw [AtomicAt, writeAbbreviated, get_bind_apply, hblocks]
              simp only [hshape, hencode]
              exact AtomicAt.throw _ _
          | true =>
              -- What the abbreviation can encode is written without a failure after the id.
              have hacceptable := hseen block (hblocks ▸ List.mem_cons_self) shape
                (mem_of_abbrevWithId? hshape)
              refine .of_first (atomic_emitId _ _) (fun cause next hid => ?_)
                (writeAbbreviated_succeeds hblocks hshape hacceptable hencode)
              rw [writeAbbreviated, get_bind_apply, hblocks]
              simp only [hshape, hencode]
              exact bind_apply_of_error hid

theorem atomic_exitBlock (htidy : writer.Tidy) : AtomicAt exitBlock writer := by
  cases hblocks : writer.blocks with
  | nil =>
      rw [AtomicAt, exitBlock, get_bind_apply, hblocks]
      exact AtomicAt.throw _ _
  | cons block rest =>
      have hblock := htidy.blocks block (hblocks ▸ List.mem_cons_self)
      refine .of_first (atomic_emitId _ _) (fun cause next hid => ?_)
        (exitBlock_succeeds hblocks hblock.word hblock.inside)
      rw [exitBlock, get_bind_apply, hblocks]
      exact bind_apply_of_error hid

theorem atomic_call (htidy : writer.Tidy) (call : Call) : AtomicAt call.run writer := by
  cases call with
  | header front => exact atomic_writeHeader front writer
  | operation step =>
      cases step with
      | enter id width => exact atomic_enterBlock id width writer
      | exit => exact atomic_exitBlock htidy
      | define shape =>
          refine .of_first (atomic_define shape writer) (fun _ _ => bind_apply_of_error) ?_
          rintro ⟨id, next, hrun⟩
          exact ⟨(), next, bind_eq_ok_iff.mpr ⟨id, next, hrun, rfl⟩⟩
      | share listed => exact atomic_writeInfoBlock listed writer
      | plain code fields => exact atomic_writePlain code fields writer
      | abbreviated id code fields =>
          apply atomic_writeAbbreviated id code fields
          intro block hblock
          exact (htidy.blocks block hblock).seen

end Failures

section Tidiness

variable {writer next : Writer} {block : OpenBlock} {rest : List OpenBlock}

theorem Tidy.longer (htidy : writer.Tidy) (hsize : writer.size ≤ next.size)
    (hblocks : next.blocks = writer.blocks)
    (hknown : ∀ definition ∈ next.shared.definitions, definition.2.isAcceptable) : next.Tidy where
  blocks block hblock := (htidy.blocks block (hblocks ▸ hblock)).mono hsize
  known := hknown

theorem tidy_writeHeader {header : Header} (htidy : writer.Tidy)
    (hrun : writeHeader header writer = .ok () next) : next.Tidy := by
  rw [writeHeader, get_bind_apply] at hrun
  split at hrun
  · exact absurd hrun (throw_ne_ok _ _ _ _)
  · obtain ⟨bits, hwords, rfl⟩ := onBits_eq_ok_iff.mp hrun
    have hgrows : writer.bits.bits.size ≤ bits.bits.size := by
      obtain ⟨-, rfl⟩ := Bits.Writer.emitWords_eq_ok_iff.mp (adaptExcept_eq_ok_iff.mp hwords)
      simp
    exact htidy.longer hgrows rfl htidy.known

theorem tidy_enterBlock {id width : UInt64} (htidy : writer.Tidy) (hpositive : 1 ≤ width)
    (hnarrow : width ≤ 32) (hrun : enterBlock id width writer = .ok () next) : next.Tidy := by
  obtain ⟨front, -, hmod, rfl, -⟩ := enter_answered hrun
  have hsize := size_entered writer front id width
  refine ⟨?_, htidy.known⟩
  intro block hblock
  rcases List.mem_cons.mp hblock with rfl | hblock
  · refine ⟨UInt64.le_iff_toNat_le.mp hpositive, UInt64.le_iff_toNat_le.mp hnarrow, ?_, ?_, ?_⟩
    · dsimp only
      omega
    · dsimp only
      omega
    · intro shape hshape
      obtain ⟨definition, hdefinition, rfl⟩ := List.mem_map.mp hshape
      exact htidy.known definition (List.mem_of_mem_filter hdefinition)
  · exact (htidy.blocks block hblock).mono (by omega)

theorem tidy_exitBlock (htidy : writer.Tidy) (hrun : exitBlock writer = .ok () next) :
    next.Tidy := by
  cases hblocks : writer.blocks with
  | nil =>
      rw [exitBlock, get_bind_apply, hblocks] at hrun
      exact absurd hrun (throw_ne_ok _ _ _ _)
  | cons block rest =>
      obtain ⟨bits, -, -, rfl, -⟩ := exit_answered none hblocks hrun
      refine ⟨?_, htidy.known⟩
      intro outer houter
      have houter := htidy.blocks outer (hblocks ▸ List.mem_cons_of_mem _ houter)
      apply houter.mono
      rw [size, size, size_patch]
      exact Nat.le_trans (Nat.le_add_right _ _) (size_append writer bits).ge

theorem tidy_define {shape : Abbrev} {id : Nat} (htidy : writer.Tidy)
    (hshape : shape.isAcceptable) (hrun : define shape writer = .ok id next) : next.Tidy := by
  obtain ⟨hsize, -⟩ := spends_define shape hrun
  cases hblocks : writer.blocks with
  | nil =>
      rw [define, get_bind_apply, hblocks] at hrun
      exact absurd hrun (throw_ne_ok _ _ _ _)
  | cons block rest =>
      rw [define, get_bind_apply, hblocks] at hrun
      obtain ⟨_, announced, hid, hrun⟩ := bind_eq_ok_iff.mp hrun
      obtain ⟨_, written, hwrite, hrun⟩ := bind_eq_ok_iff.mp hrun
      obtain ⟨bits, rfl, -, -⟩ := emitId_sends hid
      obtain ⟨changed, -, rfl⟩ := onBits_eq_ok_iff.mp hwrite
      rw [modify_bind_apply] at hrun
      obtain ⟨-, rfl⟩ := EStateM.Result.ok.inj hrun
      refine ⟨?_, htidy.known⟩
      intro inner hinner
      have hkept : ∀ other ∈ block :: rest, other.Tidy _ := fun other hother =>
        (htidy.blocks other (hblocks ▸ hother)).mono (hsize ▸ Nat.le_add_right _ _)
      rcases List.mem_cons.mp hinner with rfl | hinner
      · have hblock := hkept block List.mem_cons_self
        refine { hblock with seen := ?_ }
        intro other hother
        rcases List.mem_append.mp hother with hother | hother
        · exact hblock.seen other hother
        · exact List.mem_singleton.mp hother ▸ hshape
      · exact hkept inner (List.mem_cons_of_mem _ hinner)

theorem tidy_writeInfoBlock {listed : List (UInt64 × List Abbrev)} (htidy : writer.Tidy)
    (hlisted : ∀ entry ∈ listed, ∀ shape ∈ entry.2, shape.isAcceptable)
    (hrun : writeInfoBlock listed writer = .ok () next) : next.Tidy := by
  obtain ⟨_, entered, henter, -⟩ := bind_eq_ok_iff.mp hrun
  obtain ⟨_, announced, hid, -⟩ := bind_eq_ok_iff.mp henter
  obtain ⟨final, hfinal, hblocks, hdefinitions, hsize⟩ :=
    writeInfoBlock_succeeds listed ⟨(), announced, hid⟩
  obtain ⟨-, rfl⟩ := EStateM.Result.ok.inj (hrun.symm.trans hfinal)
  apply htidy.longer hsize hblocks
  intro definition hdefinition
  rw [hdefinitions] at hdefinition
  rcases List.mem_append.mp hdefinition with hdefinition | hdefinition
  · exact htidy.known definition hdefinition
  · obtain ⟨entry, hentry, hmem⟩ := List.mem_flatMap.mp hdefinition
    obtain ⟨shape, hshape, rfl⟩ := List.mem_map.mp hmem
    exact hlisted entry hentry shape hshape

theorem tidy_writePlain {code : UInt64} {fields : List UInt64} (htidy : writer.Tidy)
    (hrun : writePlain code fields writer = .ok () next) : next.Tidy := by
  cases hblocks : writer.blocks with
  | nil =>
      rw [writePlain, get_bind_apply, hblocks] at hrun
      exact absurd hrun (throw_ne_ok _ _ _ _)
  | cons block rest =>
      obtain ⟨bits, -, rfl, -⟩ := writePlain_sends hblocks hrun
      exact htidy.longer (by simp [size_append]) rfl htidy.known

theorem tidy_writeAbbreviated {id code : UInt64} {fields : List UInt64} (htidy : writer.Tidy)
    (hrun : writeAbbreviated id code fields writer = .ok () next) : next.Tidy := by
  cases hblocks : writer.blocks with
  | nil =>
      rw [writeAbbreviated, get_bind_apply, hblocks] at hrun
      exact absurd hrun (throw_ne_ok _ _ _ _)
  | cons block rest =>
      obtain ⟨shape, announced, hshape, -, hid, hvalues⟩ := writeAbbreviated_eq_ok hblocks hrun
      have hblock := htidy.blocks block (hblocks ▸ List.mem_cons_self)
      have hsize := size_writeAbbreviated hblocks hshape
        (hblock.seen shape (mem_of_abbrevWithId? hshape)) hrun
      have hend := shape.le_valuesEnd (code :: fields) (writer.size + writer.idWidth)
      obtain ⟨bits, rfl, -, -⟩ := emitId_sends hid
      obtain ⟨changed, -, rfl⟩ := onBits_eq_ok_iff.mp hvalues
      exact htidy.longer (by omega) rfl htidy.known

theorem tidy_call {call : Call} (htidy : writer.Tidy) (hcall : call.Permitted)
    (hrun : call.run writer = .ok () next) : next.Tidy := by
  cases call with
  | header front => exact tidy_writeHeader htidy hrun
  | operation step =>
      cases step with
      | enter id width => exact tidy_enterBlock htidy hcall.1 hcall.2 hrun
      | exit => exact tidy_exitBlock htidy hrun
      | define shape =>
          obtain ⟨id, defined, hdefine, hrest⟩ := bind_eq_ok_iff.mp hrun
          obtain ⟨-, rfl⟩ := EStateM.Result.ok.inj hrest
          exact tidy_define htidy hcall hdefine
      | share listed => exact tidy_writeInfoBlock htidy hcall hrun
      | plain code fields => exact tidy_writePlain htidy hrun
      | abbreviated id code fields => exact tidy_writeAbbreviated htidy hrun

theorem Reachable.tidy (hwriter : writer.Reachable) : writer.Tidy := by
  induction hwriter with
  | start => exact ⟨fun _ hblock => absurd hblock List.not_mem_nil,
      fun _ hdefinition => absurd hdefinition List.not_mem_nil⟩
  | succeeded call _ hcall hrun htidy => exact tidy_call htidy hcall hrun
  | failed call _ _ hrun htidy => exact atomic_call htidy call hrun ▸ htidy

end Tidiness

/-- A call that fails changes nothing: not the bits, so that no abbreviation id is left without what
follows it, not the open blocks and not the abbreviations. -/
theorem Reachable.unchanged_of_error {writer next : Writer} {cause : Error}
    (hwriter : writer.Reachable) (call : Call) (hfails : call.run writer = .error cause next) :
    next = writer :=
  atomic_call hwriter.tidy call hfails

theorem unchanged_of_error_narrow :
    ∃ writer : Writer, writer.Reachable ∧ writer.idWidth = 1 ∧
      ∃ cause, (Call.operation (.abbreviated 4 1 [])).run writer = .error cause writer := by
  let listed : List (UInt64 × List Abbrev) := [(8, [⟨[.fixed 3]⟩])]
  have hroom : RoomForIds ({} : Writer).idWidth := ⟨by decide, by decide⟩
  obtain ⟨writer, hshare, hnone, -, -⟩ :=
    writeInfoBlock_succeeds listed (reserved_succeeds hroom .enterBlock)
  have hwidth : writer.idWidth = ({} : Writer).idWidth := by rw [idWidth, hnone, idWidth]
  obtain ⟨_, inside, henter⟩ :=
    enterBlock_succeeds 8 1 (reserved_succeeds (hwidth ▸ hroom) .enterBlock)
  have hwriter : writer.Reachable :=
    .succeeded (.operation (.share listed)) .start (by simp [Call.Permitted, listed]; decide) hshare
  have hinside : inside.Reachable :=
    .succeeded (.operation (.enter 8 1)) hwriter ⟨by decide, by decide⟩ henter
  obtain ⟨front, -, -, hentered, -⟩ := enter_answered henter
  have hnarrow : inside.idWidth = 1 := by rw [hentered]; rfl
  refine ⟨inside, hinside, hnarrow, ?_⟩
  cases hrun : (Call.operation (.abbreviated 4 1 [])).run inside with
  | ok value next =>
      obtain ⟨_, announced, -, -, hid, -⟩ :=
        writeAbbreviated_eq_ok (show inside.blocks = _ :: writer.blocks by rw [hentered]; rfl) hrun
      obtain ⟨changed, hemit, -⟩ := onBits_eq_ok_iff.mp hid
      obtain ⟨⟨-, -, hfits⟩, -⟩ := Bits.Writer.emit_eq_ok_iff.mp (adaptExcept_eq_ok_iff.mp hemit)
      rw [hnarrow] at hfits
      exact absurd hfits (by decide)
  | error cause next => exact ⟨cause, by rw [hinside.unchanged_of_error _ hrun]⟩

end Writer

end Bitstream

end Bitcode
