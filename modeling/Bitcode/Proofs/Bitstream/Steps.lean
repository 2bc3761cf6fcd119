import Bitcode.Proofs.Bitstream.Parsing

namespace Bitcode.Bitstream

open Format Bits

/-- The width of abbreviation ids in a context. -/
def Context.idWidth (context : Context) : Nat :=
  match context.scopes with
  | [] => initialIdWidth
  | scope :: _ => scope.idWidth

theorem mem_of_abbrevWithId? {abbrevs : List Abbrev} {id : UInt64} {shape : Abbrev}
    (hshape : abbrevWithId? abbrevs id = some shape) : shape ∈ abbrevs := by
  unfold abbrevWithId? at hshape
  split at hshape
  · simp at hshape
  · exact List.mem_of_getElem? hshape

theorem ofCode_eq_defined {abbrevs : List Abbrev} {id : UInt64} {shape : Abbrev}
    (hshape : abbrevWithId? abbrevs id = some shape) : AbbrevId.ofCode id = .defined id := by
  have hlarge : ¬ id.toNat < firstDefinedId := by
    intro hsmall
    rw [abbrevWithId?, if_pos hsmall] at hshape
    simp at hshape
  rw [firstDefinedId] at hlarge
  unfold AbbrevId.ofCode
  split
  · omega
  · omega
  · omega
  · omega
  · rfl

namespace Reader

/-- The position at the next word boundary. -/
def aligned (position : Nat) : Nat :=
  position + (32 - position % 32) % 32

theorem aligned_mod (position : Nat) : aligned position % 32 = 0 := by
  unfold aligned
  omega

theorem le_aligned (position : Nat) : position ≤ aligned position :=
  Nat.le_add_right _ _

section Steps

variable {bytes : Array UInt8} {start first second third stop : Nat} {scope : Scope}
  {rest : List Scope} {shared : Shared}

theorem parses_exitBlock
    (hid : Reads (Cursor.read scope.idWidth) bytes start ReservedId.endBlock.code first) :
    Parses step bytes start { scopes := scope :: rest, shared }
      (if scope.isInfo then none else some .endBlock) (aligned first)
      { scopes := rest, shared } := by
  refine Parses.get fun cursor hposition => ?_
  refine (Parses.field hid).bind ?_
  refine (Parses.onCursor (Cursor.reads_align32 bytes first)).bind ?_
  refine Parses.get fun _ _ => ?_
  refine (Parses.modify ⟨rest, shared⟩ fun _ => rfl).bind ?_
  exact Parses.pure _

theorem parses_enterBlock {before : Context} {block width : UInt64}
    (hid : Reads (Cursor.read before.idWidth) bytes start ReservedId.enterBlock.code first)
    (hblock : Reads (Cursor.readVbr 8) bytes first block second)
    (hwidth : Reads (Cursor.readVbr 4) bytes second width third)
    (hvalid : 1 ≤ width ∧ width ≤ 32) (hinside : aligned third + 32 ≤ 8 * bytes.size) :
    Parses step bytes start before
      (if block = infoBlockId then none
        else some (.block block (4 * fieldAt bytes (aligned third) 32)))
      (aligned third + 32)
      { before with
        scopes :=
          { block, idWidth := width.toNat, abbrevs := before.shared.forBlock block } ::
            before.scopes } := by
  have hwords : (UInt64.ofNat (fieldAt bytes (aligned third) 32)).toNat =
      fieldAt bytes (aligned third) 32 := by
    apply UInt64.toNat_ofNat_of_lt'
    exact Nat.lt_trans (spell_lt_two_pow _ _ _) (by decide)
  have hbad : ¬ (width < 1 ∨ 32 < width) := by
    rw [not_or, UInt64.not_lt, UInt64.not_lt]
    exact hvalid
  refine Parses.get fun cursor hposition => ?_
  refine (Parses.field hid).bind ?_
  refine (Parses.field hblock).bind ?_
  refine (Parses.field hwidth).bind ?_
  refine (Parses.onCursor (Cursor.reads_align32 bytes third)).bind ?_
  simp only [hbad, if_false]
  refine (Parses.field (Cursor.reads_read (by decide) (by decide) hinside)).bind ?_
  refine (Parses.modify
    ⟨⟨block, width.toNat, before.shared.forBlock block, none⟩ :: before.scopes, before.shared⟩
    fun _ => rfl).bind ?_
  rw [hwords]
  exact Parses.pure _

theorem rejects_enterBlock {before : Context} {block width : UInt64}
    (hid : Reads (Cursor.read before.idWidth) bytes start ReservedId.enterBlock.code first)
    (hblock : Reads (Cursor.readVbr 8) bytes first block second)
    (hwidth : Reads (Cursor.readVbr 4) bytes second width third) (hbad : width < 1 ∨ 32 < width) :
    Rejects step bytes start before (.scope (.badIdWidth block width)) := by
  refine Rejects.get fun cursor => ?_
  refine (Parses.field hid).rejects ?_
  refine (Parses.field hblock).rejects ?_
  refine (Parses.field hwidth).rejects ?_
  refine (Parses.onCursor (Cursor.reads_align32 bytes third)).rejects ?_
  simp only [hbad, if_true]
  exact Rejects.throw_bind _ _

theorem parses_define {shape : Abbrev} (hscope : scope.isInfo = false)
    (hid : Reads (Cursor.read scope.idWidth) bytes start ReservedId.defineAbbrev.code first)
    (hshape : Reads Abbrev.read bytes first shape stop) :
    Parses step bytes start { scopes := scope :: rest, shared }
      (some (.definition scope.block shape true)) stop
      { scopes := { scope with abbrevs := scope.abbrevs ++ [shape] } :: rest, shared } := by
  refine Parses.get fun cursor hposition => ?_
  refine (Parses.field hid).bind ?_
  refine Parses.bind ?_ (Parses.pure _)
  refine (Parses.onCursor hshape).bind ?_
  refine Parses.get fun _ _ => ?_
  simp only [Context.reader, hscope]
  refine (Parses.modify ⟨{ scope with abbrevs := scope.abbrevs ++ [shape] } :: rest, shared⟩
    fun _ => rfl).bind ?_
  exact Parses.pure _

/-- In block 0 a definition is for the block that was chosen last. -/
theorem parses_share {shape : Abbrev} {block : UInt64} (hscope : scope.isInfo = true)
    (htarget : scope.target = some block)
    (hid : Reads (Cursor.read scope.idWidth) bytes start ReservedId.defineAbbrev.code first)
    (hshape : Reads Abbrev.read bytes first shape stop) :
    Parses step bytes start { scopes := scope :: rest, shared }
      (some (.definition block shape false)) stop
      { scopes := scope :: rest, shared := shared.add block shape } := by
  refine Parses.get fun cursor hposition => ?_
  refine (Parses.field hid).bind ?_
  refine Parses.bind ?_ (Parses.pure _)
  refine (Parses.onCursor hshape).bind ?_
  refine Parses.get fun _ _ => ?_
  simp only [Context.reader, hscope, htarget]
  refine (Parses.modify ⟨scope :: rest, shared.add block shape⟩ fun _ => rfl).bind ?_
  exact Parses.pure _

theorem parses_plainRecord {code : UInt64} {fields : List UInt64} (hscope : scope.isInfo = false)
    (hcount : fields.length < 2 ^ 64)
    (hid : Reads (Cursor.read scope.idWidth) bytes start ReservedId.plainRecord.code first)
    (hcode : Reads (Cursor.readVbr 6) bytes first code second)
    (hlength : Reads (Cursor.readVbr 6) bytes second (UInt64.ofNat fields.length) third)
    (hfields : Reads (Abbrev.readMany (liftM (Cursor.readVbr 6)) fields.length []) bytes third
      fields stop) :
    Parses step bytes start { scopes := scope :: rest, shared }
      (some (.record { id := none, code, fields, bits := stop - start })) stop
      { scopes := scope :: rest, shared } := by
  refine Parses.get fun cursor hposition => ?_
  refine (Parses.field hid).bind ?_
  refine Parses.get fun _ _ => ?_
  refine (Parses.field hcode).bind ?_
  refine (Parses.field hlength).bind ?_
  rw [UInt64.toNat_ofNat_of_lt' hcount]
  refine (Parses.onCursor hfields).bind ?_
  simp only [hscope]
  refine Parses.get fun final hfinal => ?_
  have hbits : (Context.reader { scopes := scope :: rest, shared } final).cursor.position -
      (Context.reader { scopes := scope :: rest, shared } cursor).cursor.position =
        stop - start := by
    simp only [Context.reader, hposition, hfinal]
  rw [hbits]
  exact Parses.pure _

theorem parses_setBlock {block : UInt64} (hscope : scope.isInfo = true)
    (hid : Reads (Cursor.read scope.idWidth) bytes start ReservedId.plainRecord.code first)
    (hcode : Reads (Cursor.readVbr 6) bytes first setBlockCode second)
    (hlength : Reads (Cursor.readVbr 6) bytes second (UInt64.ofNat [block].length) third)
    (hfields : Reads (Abbrev.readMany (liftM (Cursor.readVbr 6)) [block].length []) bytes third
      [block] stop) :
    Parses step bytes start { scopes := scope :: rest, shared } none stop
      { scopes := { scope with target := some block } :: rest, shared } := by
  refine Parses.get fun cursor hposition => ?_
  refine (Parses.field hid).bind ?_
  refine Parses.get fun _ _ => ?_
  refine (Parses.field hcode).bind ?_
  refine (Parses.field hlength).bind ?_
  refine (Parses.onCursor hfields).bind ?_
  simp only [hscope, if_true]
  have hchosen : Parses (interpret setBlockCode [block]) bytes stop
      { scopes := scope :: rest, shared } () stop
      { scopes := { scope with target := some block } :: rest, shared } :=
    Parses.modify ⟨{ scope with target := some block } :: rest, shared⟩ fun _ => rfl
  exact hchosen.bind (Parses.pure _)

theorem parses_abbreviatedRecord {id code : UInt64} {fields : List UInt64} {shape : Abbrev}
    (hscope : scope.isInfo = false) (hshape : abbrevWithId? scope.abbrevs id = some shape)
    (hid : Reads (Cursor.read scope.idWidth) bytes start id first)
    (hvalues : Reads shape.readValues bytes first (code :: fields) stop) :
    Parses step bytes start { scopes := scope :: rest, shared }
      (some (.record { id := some id, code, fields, bits := stop - start })) stop
      { scopes := scope :: rest, shared } := by
  have hdefined := ofCode_eq_defined hshape
  refine Parses.get fun cursor hposition => ?_
  refine (Parses.field hid).bind ?_
  rw [hdefined]
  refine Parses.get fun _ _ => ?_
  simp only [Context.reader, hshape]
  refine (Parses.onCursor hvalues).bind ?_
  simp only [hscope]
  refine Parses.get fun final hfinal => ?_
  have hbits : (Context.reader { scopes := scope :: rest, shared } final).cursor.position -
      cursor.position = stop - start := by
    simp only [Context.reader, hposition, hfinal]
  rw [hbits]
  exact Parses.pure _

end Steps

end Reader

end Bitcode.Bitstream
