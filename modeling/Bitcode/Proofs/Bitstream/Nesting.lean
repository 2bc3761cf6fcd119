import Bitcode.Proofs.Bitstream.Outline

namespace Bitcode.Bitstream

open Format Bits

/-- A record without an abbreviation takes at least six bits for each field. Any other has at most one
value for each operator of its abbreviation, and one for each bit. -/
def Record.Measured (abbrevs : List Abbrev) (record : Record) : Prop :=
  match record.id with
  | none => 6 * record.fields.length ≤ record.bits
  | some id => ∃ shape, abbrevWithId? abbrevs id = some shape ∧
      record.values.length ≤ shape.operators.length + record.bits

def Entry.isBlock : Entry → Bool
  | .block _ _ => true
  | _ => false

namespace Outline

variable {outline : Outline} {entry : Entry}

theorem length_blocks_step (hadmits : outline.Admits entry) :
    outline.blocks.length + [entry].countP Entry.isBlock =
      (outline.step entry).blocks.length + [entry].count .endBlock := by
  cases entry with
  | endBlock =>
      obtain ⟨place, rest, hblocks⟩ := hadmits
      simp [step, hblocks, Entry.isBlock]
  | block id size => simp [step, Entry.isBlock]
  | record item => simp [step, Entry.isBlock]
  | definition block shape isLocal =>
      cases isLocal with
      | true => simp [step, Entry.isBlock]
      | false => simp [step, Entry.isBlock]

end Outline

namespace Reader

/-- How many blocks other than block 0 are open. -/
def openBlocks (reader : Reader) : Nat :=
  reader.scopes.countP (!·.isInfo)

/-- The bits of a record lie between a position and the place where the reader stands, and bound the
values of the record. Its abbreviation is one of the innermost block. -/
def Measures (begin : Nat) (next : Reader) (item : Record) : Prop :=
  begin + item.bits ≤ next.cursor.position ∧
    ∃ scope rest, next.scopes = scope :: rest ∧ item.Measured scope.abbrevs

/-- An abbreviation that an open block sees, or that a block will see which is entered next. -/
def Knows (reader : Reader) (shape : Abbrev) : Prop :=
  (∃ scope ∈ reader.scopes, shape ∈ scope.abbrevs) ∨
    ∃ block, (block, shape) ∈ reader.shared.definitions

theorem openBlocks_eq (reader : Reader) :
    reader.openBlocks = reader.context.outline.blocks.length := by
  simp [openBlocks, context, Context.outline, List.countP_eq_length_filter]

section Measures

variable {start size : Nat} {reader next : Reader} {item : Record}

theorem plainRecord_measures {begin : Nat} (hreader : reader.Informed start size)
    (hbegin : begin ≤ reader.cursor.position)
    (hrun : plainRecord begin reader = .ok (some (.record item)) next) :
    next.Measures begin item := by
  rw [plainRecord, get_bind_apply] at hrun
  cases hopen : reader.scopes with
  | nil => exact absurd hrun (by simp only [hopen]; exact throw_ne_ok _ _ _ _)
  | cons scope rest =>
      simp only [hopen] at hrun
      obtain ⟨code, first, hfirst, hrun⟩ := bind_eq_ok_iff.mp hrun
      obtain ⟨hcode, hfirstScopes, -, _, hfirstTaken, -⟩ :=
        onCursor_moves ((Cursor.moves_readVbr 6).adaptExcept Error.field) hreader hfirst
      obtain ⟨count, second, hsecond, hrun⟩ := bind_eq_ok_iff.mp hrun
      obtain ⟨hcount, hsecondScopes, -, _, hsecondTaken, -⟩ :=
        onCursor_moves ((Cursor.moves_readVbr 6).adaptExcept Error.field) hcode hsecond
      obtain ⟨fields, third, hthird, hrun⟩ := bind_eq_ok_iff.mp hrun
      obtain ⟨-, hthirdScopes, -, _, hthirdTaken, hlength, hmore⟩ :=
        onCursor_moves (Abbrev.moves_readFields _) hcount hthird
      cases hinfo : scope.isInfo with
      | true =>
          simp only [hinfo, if_true] at hrun
          obtain ⟨_, last, -, hreturn⟩ := bind_eq_ok_iff.mp hrun
          cases hreturn
      | false =>
          simp only [hinfo] at hrun
          obtain ⟨hitem, rfl⟩ := EStateM.Result.ok.inj hrun
          obtain rfl := Entry.record.inj (Option.some.inj hitem)
          have hscopes : third.scopes = scope :: rest := by
            rw [hthirdScopes, hsecondScopes, hfirstScopes, hopen]
          refine ⟨?_, scope, rest, hscopes, ?_⟩
          · simp only
            omega
          · show 6 * fields.length ≤ third.cursor.position - begin
            omega

theorem abbreviatedRecord_measures {id : UInt64} {begin : Nat} (hreader : reader.Informed start size)
    (hbegin : begin ≤ reader.cursor.position)
    (hrun : abbreviatedRecord id begin reader = .ok (some (.record item)) next) :
    next.Measures begin item := by
  rw [abbreviatedRecord, get_bind_apply] at hrun
  cases hopen : reader.scopes with
  | nil => exact absurd hrun (by simp only [hopen]; exact throw_ne_ok _ _ _ _)
  | cons scope rest =>
      simp only [hopen] at hrun
      cases hshape : abbrevWithId? scope.abbrevs id with
      | none => exact absurd hrun (by simp only [hshape]; exact throw_ne_ok _ _ _ _)
      | some shape =>
          simp only [hshape] at hrun
          obtain ⟨hacceptable, -⟩ := hreader.seen scope (hopen ▸ List.mem_cons_self) shape
            (mem_of_abbrevWithId? hshape)
          obtain ⟨values, read, hread, hrun⟩ := bind_eq_ok_iff.mp hrun
          obtain ⟨-, hscopes, -, taken, htaken, hlength⟩ :=
            onCursor_moves (Abbrev.moves_readValues hacceptable) hreader hread
          cases hinfo : scope.isInfo with
          | true =>
              simp only [hinfo, if_true] at hrun
              cases hrun
          | false =>
              simp only [hinfo] at hrun
              cases values with
              | nil => exact absurd hrun (throw_ne_ok _ _ _ _)
              | cons code fields =>
                  obtain ⟨hitem, rfl⟩ := EStateM.Result.ok.inj hrun
                  obtain rfl := Entry.record.inj (Option.some.inj hitem)
                  refine ⟨?_, scope, rest, hscopes.trans hopen, shape, hshape, ?_⟩
                  · simp only
                    omega
                  · show (code :: fields).length ≤ _ + (read.cursor.position - begin)
                    omega

theorem step_measures (hreader : reader.Informed start size) (hstart : start ≤ reader.cursor.position)
    (hrun : step reader = .ok (some (.record item)) next) :
    next.Measures reader.cursor.position item := by
  rw [step, get_bind_apply] at hrun
  obtain ⟨code, announced, hannounced, hrun⟩ := bind_eq_ok_iff.mp hrun
  obtain ⟨hinformed, -, -, taken, htaken, -⟩ :=
    onCursor_moves ((Cursor.moves_read _).adaptExcept Error.field) hreader hannounced
  -- A record has at least two bits, while the other entries may come with an id of one bit only.
  have hother : ∀ {result : Option Entry}, result = some (.record item) →
      ¬ Advances start size 1 announced result next := by
    rintro _ rfl ⟨-, -, hbounded⟩
    exact absurd (hbounded _ rfl).2 (by simp [Entry.leastBits])
  cases hid : AbbrevId.ofCode code with
  | reserved id =>
      simp only [hid] at hrun
      cases id with
      | endBlock => exact absurd (exitBlock_advances hinformed hrun) (hother rfl)
      | enterBlock => exact absurd (enterBlock_advances hinformed hrun) (hother rfl)
      | defineAbbrev =>
          obtain ⟨entry, defined, hdefine, hrun⟩ := bind_eq_ok_iff.mp hrun
          obtain ⟨hentry, rfl⟩ := EStateM.Result.ok.inj hrun
          exact absurd (define_advances hinformed (by omega) hdefine) (hother hentry)
      | plainRecord => exact plainRecord_measures hinformed (by omega) hrun
  | defined id =>
      simp only [hid] at hrun
      exact abbreviatedRecord_measures hinformed (by omega) hrun

theorem advanceWithin_measures {steps : Nat} (hreader : reader.Informed start size)
    (hstart : start ≤ reader.cursor.position)
    (hrun : advanceWithin steps reader = .ok (.record item) next) :
    next.Measures reader.cursor.position item := by
  revert hreader hstart
  apply advanceWithin_induction _ _ hrun
  · intro reader hstep hreader hstart
    exact step_measures hreader hstart hstep
  · intro reader middle hstep ih hreader hstart
    obtain ⟨hmiddle, hforward, -⟩ := step_advances hreader hstart hstep
    obtain ⟨hbits, hscope⟩ := ih hmiddle (by omega)
    exact ⟨by omega, hscope⟩

end Measures

section Yields

variable {start size : Nat} {reader next : Reader} {entries : List Entry}

theorem yields_append {first second : List Entry} :
    Yields (first ++ second) reader next ↔
      ∃ middle, Yields first reader middle ∧ Yields second middle next := by
  induction first generalizing reader with
  | nil => simp [Yields]
  | cons entry first ih =>
      simp only [List.cons_append, Yields, ih]
      constructor
      · rintro ⟨after, hadvance, middle, hfirst, hsecond⟩
        exact ⟨middle, ⟨after, hadvance, hfirst⟩, hsecond⟩
      · rintro ⟨middle, ⟨after, hadvance, hfirst⟩, hsecond⟩
        exact ⟨after, hadvance, middle, hfirst, hsecond⟩

theorem yields_placedWithin (count : Nat) (reader : Reader) :
    ∃ final, Yields ((placedWithin count reader).map (·.1)) reader final := by
  induction count generalizing reader with
  | zero => exact ⟨reader, rfl⟩
  | succ count ih =>
      rw [placedWithin]
      cases hadvance : advance reader with
      | error cause final => exact ⟨reader, rfl⟩
      | ok entry next =>
          obtain ⟨final, hyields⟩ := ih next
          exact ⟨final, next, hadvance, hyields⟩

theorem Yields.informed (hyields : Yields entries reader next) (hreader : reader.Informed start size)
    (hstart : start ≤ reader.cursor.position) :
    next.Informed start size ∧
      reader.cursor.position + entries.length ≤ next.cursor.position := by
  induction entries generalizing reader with
  | nil =>
      obtain rfl := hyields
      exact ⟨hreader, Nat.le_refl _⟩
  | cons entry entries ih =>
      obtain ⟨middle, hadvance, hrest⟩ := hyields
      obtain ⟨hmiddle, -, hbits⟩ := advanceWithin_advances hreader hstart hadvance
      have hpositive : 0 < entry.leastBits := by cases entry <;> simp [Entry.leastBits]
      obtain ⟨hnext, hlength⟩ := ih hrest hmiddle (by omega)
      refine ⟨hnext, ?_⟩
      rw [List.length_cons]
      omega

theorem Yields.openBlocks (hyields : Yields entries reader next) :
    reader.openBlocks + entries.countP Entry.isBlock =
      next.openBlocks + entries.count .endBlock := by
  induction entries generalizing reader with
  | nil =>
      obtain rfl := hyields
      rfl
  | cons entry entries ih =>
      obtain ⟨middle, hadvance, hrest⟩ := hyields
      obtain ⟨hadmits, houtline⟩ := advanceWithin_outline hadvance
      have hstep := Outline.length_blocks_step hadmits
      have hothers := ih hrest
      rw [← houtline, ← openBlocks_eq, ← openBlocks_eq] at hstep
      rw [← List.singleton_append, List.countP_append, List.count_append]
      omega

end Yields

/-- Whatever the bytes are and wherever a stream starts in them, every entry takes at least one bit of
them. No block ends that was not entered before, the open blocks are those that were entered and did
not end, and the stream is exhausted only if there are none. The values of a record are bounded by its
bits, which lie between the positions before and after it. So are the values of records in block 0,
which are read in the same way but give no entry. -/
theorem yields_nested {bytes : Array UInt8} {byte : Nat} (hbyte : byte ≤ bytes.size)
    {entries : List Entry} {reader : Reader}
    (hyields : Yields entries (ofCursor ((Cursor.ofBytes bytes).restart byte)) reader) :
    (∀ first, first <+: entries → first.count .endBlock ≤ first.countP Entry.isBlock) ∧
      entries.countP Entry.isBlock = entries.count .endBlock + reader.openBlocks ∧
      8 * byte + entries.length ≤ reader.cursor.position ∧
      reader.cursor.position ≤ 8 * bytes.size ∧
      (∀ entry next, advance reader = .ok entry next →
        reader.cursor.position < next.cursor.position ∧
          ∀ item, entry = .record item → next.Measures reader.cursor.position item) ∧
      (∀ final, advance reader = .error .exhausted final →
        final.scopes = [] ∧ reader.openBlocks = 0) ∧
      (∀ shape, reader.Knows shape → Moves shape.readValues fun values taken =>
        values.length ≤ shape.operators.length + taken) ∧
      ∀ count, Moves (Abbrev.readMany (liftM (Cursor.readVbr 6)) count []) fun fields taken =>
        fields.length = count ∧ 6 * count ≤ taken := by
  have hcursor : ((Cursor.ofBytes bytes).restart byte).Within bytes.size :=
    ⟨rfl, Nat.le_refl _, hbyte⟩
  have hfresh : (ofCursor ((Cursor.ofBytes bytes).restart byte)).Informed (8 * byte) bytes.size :=
    ⟨hcursor, by simp [ofCursor], by simp [ofCursor]⟩
  obtain ⟨hreader, hlength⟩ := hyields.informed hfresh (Nat.le_refl _)
  have hposition : 8 * byte + entries.length ≤ reader.cursor.position := hlength
  have hstart : 8 * byte ≤ reader.cursor.position := by omega
  -- A first part of the entries has been given by a reader of its own.
  have hcount : ∀ {others : List Entry} {middle : Reader},
      Yields others (ofCursor ((Cursor.ofBytes bytes).restart byte)) middle →
        others.countP Entry.isBlock = others.count .endBlock + middle.openBlocks := by
    intro others middle hothers
    have hopen := hothers.openBlocks
    have hnone : (ofCursor ((Cursor.ofBytes bytes).restart byte)).openBlocks = 0 := rfl
    omega
  refine ⟨?_, hcount hyields, hposition, hreader.within.position_le_size, ?_, ?_, ?_,
    Abbrev.moves_readFields⟩
  · rintro first ⟨rest, rfl⟩
    obtain ⟨middle, hfirst, -⟩ := yields_append.mp hyields
    have hfirstCount := hcount hfirst
    omega
  · intro entry next hadvance
    obtain ⟨-, -, hbits⟩ := advanceWithin_advances hreader hstart hadvance
    have hpositive : 0 < entry.leastBits := by cases entry <;> simp [Entry.leastBits]
    refine ⟨by omega, ?_⟩
    rintro item rfl
    exact advanceWithin_measures hreader hstart hadvance
  · intro final hadvance
    obtain ⟨hscopes, houtline⟩ :=
      advanceWithin_exhausted hreader hstart (Nat.lt_succ_self _) hadvance
    refine ⟨hscopes, ?_⟩
    rw [openBlocks_eq, ← houtline, ← openBlocks_eq, openBlocks, hscopes, List.countP_nil]
  · rintro shape (⟨scope, hscope, hshape⟩ | ⟨block, hshape⟩)
    · exact Abbrev.moves_readValues (hreader.seen scope hscope shape hshape).1
    · exact Abbrev.moves_readValues (hreader.known (block, shape) hshape).1

/-- A block with block 0 in it, and then a block that uses what block 0 has defined. -/
def nestedStream : Array UInt8 :=
  #[33, 12, 0, 0, 9, 0, 0, 0, 1, 16, 0, 0, 2, 0, 0, 0, 7, 65, 228, 24, 96, 8, 0, 0, 137, 32, 0, 0, 2,
    0, 0, 0, 36, 0, 193, 8, 66, 193, 38, 0, 0, 0, 0, 0]

theorem yields_nested_nestedStream :
    ∃ reader next, Yields [.block 8 36, .definition 17 ⟨[.literal 1, .array, .char6]⟩ false,
        .block 17 8] (ofCursor ((Cursor.ofBytes nestedStream).restart 0)) reader ∧
      reader.openBlocks = 2 ∧ advance reader = .ok (.record ⟨some 4, 1, [97, 98], 22⟩) next ∧
      next.Measures reader.cursor.position ⟨some 4, 1, [97, 98], 22⟩ := by
  have hentries : (placedWithin 4 (ofCursor ((Cursor.ofBytes nestedStream).restart 0))).map (·.1) =
      [.block 8 36, .definition 17 ⟨[.literal 1, .array, .char6]⟩ false, .block 17 8] ++
        [.record ⟨some 4, 1, [97, 98], 22⟩] := by
    decide +kernel
  obtain ⟨final, hyields⟩ :=
    yields_placedWithin 4 (ofCursor ((Cursor.ofBytes nestedStream).restart 0))
  rw [hentries] at hyields
  obtain ⟨reader, hfirst, next, hadvance, -⟩ := yields_append.mp hyields
  obtain ⟨-, hopen, -, -, hnext, -⟩ := yields_nested (Nat.zero_le _) hfirst
  have hstarts : [Entry.block 8 36, .definition 17 ⟨[.literal 1, .array, .char6]⟩ false,
      .block 17 8].countP Entry.isBlock = 2 := rfl
  refine ⟨reader, next, hfirst, ?_, hadvance, (hnext _ next hadvance).2 _ rfl⟩
  simpa [hstarts] using hopen.symm

end Reader

end Bitcode.Bitstream
