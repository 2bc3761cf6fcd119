import Bitcode.Bitstream.File
import Bitcode.Proofs.Abbrev.Progress
import Bitcode.Proofs.Bitstream.Steps

namespace Bitcode.Bitstream

open Format Bits

/-- The abbreviation was read between two positions. -/
def DefinedWithin (start position : Nat) (shape : Abbrev) : Prop :=
  shape.isAcceptable ∧ shape.operators.length + start ≤ position

/-- What the reader of a stream from a position on, over so many bytes, has read so far. -/
structure Reader.Informed (start size : Nat) (reader : Reader) : Prop where
  within : reader.cursor.Within size
  seen : ∀ scope ∈ reader.scopes, ∀ shape ∈ scope.abbrevs,
    DefinedWithin start reader.cursor.position shape
  known : ∀ definition ∈ reader.shared.definitions,
    DefinedWithin start reader.cursor.position definition.2

/-- What holds of an entry that ends at a position. -/
def Entry.Bounded (start position : Nat) : Entry → Prop
  | .endBlock => True
  | .block id _ => id ≠ infoBlockId
  | .record item => item.values.length + start ≤ position
  | .definition _ shape _ => shape.isAcceptable

/-- A bound on the bits that an entry takes. -/
def Entry.leastBits : Entry → Nat
  | .record _ => 2
  | _ => 1

theorem DefinedWithin.mono {start position later : Nat} {shape : Abbrev}
    (hshape : DefinedWithin start position shape) (hle : position ≤ later) :
    DefinedWithin start later shape :=
  ⟨hshape.1, Nat.le_trans hshape.2 hle⟩

namespace Reader

section Steps

variable {start size : Nat} {reader next : Reader} {found? : Option Entry}

/-- The abbreviations stay known when only the cursor moves forward. -/
theorem Informed.forward (hreader : reader.Informed start size) (hwithin : next.cursor.Within size)
    (hle : reader.cursor.position ≤ next.cursor.position) (hscopes : next.scopes = reader.scopes)
    (hshared : next.shared = reader.shared) : next.Informed start size := by
  refine ⟨hwithin, ?_, ?_⟩
  · intro scope hscope shape hshape
    exact DefinedWithin.mono (hreader.seen scope (hscopes ▸ hscope) shape hshape) hle
  · intro definition hdefinition
    exact DefinedWithin.mono (hreader.known definition (hshared ▸ hdefinition)) hle

theorem onCursor_eq_ok_iff {α : Type} {reading : Reading α} {value : α} :
    onCursor reading reader = .ok value next ↔
      ∃ cursor, reading reader.cursor = .ok value cursor ∧ { reader with cursor } = next := by
  unfold onCursor
  cases reading reader.cursor with
  | error => simp
  | ok result cursor =>
      simp only [EStateM.Result.ok.injEq]
      constructor
      · rintro ⟨rfl, rfl⟩
        exact ⟨cursor, ⟨rfl, rfl⟩, rfl⟩
      · rintro ⟨_, ⟨rfl, rfl⟩, rfl⟩
        exact ⟨rfl, rfl⟩

theorem onCursor_moves {α : Type} {reading : Reading α} {post : α → Nat → Prop} {value : α}
    (hreading : Moves reading post) (hreader : reader.Informed start size)
    (hrun : onCursor reading reader = .ok value next) :
    next.Informed start size ∧ next.scopes = reader.scopes ∧ next.shared = reader.shared ∧
      ∃ taken, next.cursor.position = reader.cursor.position + taken ∧ post value taken := by
  obtain ⟨cursor, hread, rfl⟩ := onCursor_eq_ok_iff.mp hrun
  obtain ⟨hwithin, taken, htaken, hpost⟩ := hreading hreader.within hread
  exact ⟨hreader.forward hwithin (by simp only; omega) rfl rfl, rfl, rfl, taken, htaken, hpost⟩

/-- What the part of a step after its abbreviation id has to do, if the id has so many bits. -/
def Advances (start size least : Nat) (reader : Reader) (found? : Option Entry) (next : Reader) :
    Prop :=
  next.Informed start size ∧ reader.cursor.position ≤ next.cursor.position ∧
    ∀ entry, found? = some entry →
      entry.Bounded start next.cursor.position ∧ entry.leastBits ≤ least

theorem exitBlock_advances (hreader : reader.Informed start size)
    (hrun : exitBlock reader = .ok found? next) : Advances start size 1 reader found? next := by
  obtain ⟨_, aligned, halign, hrun⟩ := bind_eq_ok_iff.mp hrun
  obtain ⟨haligned, -, -, taken, htaken, -⟩ := onCursor_moves Cursor.moves_align32 hreader halign
  rw [get_bind_apply] at hrun
  cases hopen : aligned.scopes with
  | nil => exact absurd hrun (by simp only [hopen]; exact throw_ne_ok _ _ _ _)
  | cons scope rest =>
      simp only [hopen] at hrun
      rw [modify_bind_apply] at hrun
      obtain ⟨rfl, rfl⟩ := EStateM.Result.ok.inj hrun
      refine ⟨⟨haligned.within, ?_, haligned.known⟩, by simp only; omega, ?_⟩
      · intro outer houter
        exact haligned.seen outer (hopen ▸ List.mem_cons_of_mem _ houter)
      · intro entry hentry
        split at hentry
        · simp at hentry
        · obtain rfl := Option.some.inj hentry
          exact ⟨True.intro, Nat.le_refl 1⟩

theorem enterBlock_advances (hreader : reader.Informed start size)
    (hrun : enterBlock reader = .ok found? next) : Advances start size 1 reader found? next := by
  obtain ⟨block, first, hfirst, hrun⟩ := bind_eq_ok_iff.mp hrun
  obtain ⟨hblock, -, -, _, hfirstTaken, -⟩ :=
    onCursor_moves ((Cursor.moves_readVbr 8).adaptExcept Error.field) hreader hfirst
  obtain ⟨width, second, hsecond, hrun⟩ := bind_eq_ok_iff.mp hrun
  obtain ⟨hwidth, -, -, _, hsecondTaken, -⟩ :=
    onCursor_moves ((Cursor.moves_readVbr 4).adaptExcept Error.field) hblock hsecond
  obtain ⟨_, aligned, halign, hrun⟩ := bind_eq_ok_iff.mp hrun
  obtain ⟨haligned, -, -, _, halignTaken, -⟩ := onCursor_moves Cursor.moves_align32 hwidth halign
  by_cases hbad : width < 1 ∨ 32 < width
  · rw [if_pos hbad] at hrun
    obtain ⟨_, _, hthrow, -⟩ := bind_eq_ok_iff.mp hrun
    exact absurd hthrow (throw_ne_ok _ _ _ _)
  · rw [if_neg hbad] at hrun
    obtain ⟨words, third, hthird, hrun⟩ := bind_eq_ok_iff.mp hrun
    obtain ⟨hwords, -, -, _, hthirdTaken, -⟩ :=
      onCursor_moves ((Cursor.moves_read 32).adaptExcept Error.field) haligned hthird
    rw [modify_bind_apply] at hrun
    obtain ⟨rfl, rfl⟩ := EStateM.Result.ok.inj hrun
    refine ⟨⟨hwords.within, ?_, hwords.known⟩, by simp only; omega, ?_⟩
    · intro scope hscope shape hshape
      rcases List.mem_cons.mp hscope with rfl | hscope
      · obtain ⟨definition, hdefinition, rfl⟩ := List.mem_map.mp hshape
        exact hwords.known definition (List.mem_filter.mp hdefinition).1
      · exact hwords.seen scope hscope shape hshape
    · intro entry hentry
      split at hentry
      · simp at hentry
      · rename_i hordinary
        obtain rfl := Option.some.inj hentry
        exact ⟨hordinary, Nat.le_refl 1⟩

theorem define_advances {entry : Entry} (hreader : reader.Informed start size)
    (hstart : start ≤ reader.cursor.position) (hrun : define reader = .ok entry next) :
    Advances start size 1 reader (some entry) next := by
  obtain ⟨shape, defined, hshape, hrun⟩ := bind_eq_ok_iff.mp hrun
  obtain ⟨hdefined, -, -, taken, htaken, hacceptable, hlength⟩ :=
    onCursor_moves Abbrev.moves_read hreader hshape
  have hwithin : DefinedWithin start defined.cursor.position shape := ⟨hacceptable, by omega⟩
  have hbounded : ∀ other block isLocal, some (Entry.definition block shape isLocal) = some other →
      other.Bounded start defined.cursor.position ∧ other.leastBits ≤ 1 := by
    rintro _ block isLocal ⟨⟩
    exact ⟨hacceptable, Nat.le_refl 1⟩
  rw [get_bind_apply] at hrun
  cases hopen : defined.scopes with
  | nil => exact absurd hrun (by simp only [hopen]; exact throw_ne_ok _ _ _ _)
  | cons scope rest =>
      simp only [hopen] at hrun
      cases hinfo : scope.isInfo with
      | true =>
          simp only [hinfo, if_true] at hrun
          cases htarget : scope.target with
          | none => exact absurd hrun (by simp only [htarget]; exact throw_ne_ok _ _ _ _)
          | some block =>
              simp only [htarget] at hrun
              rw [modify_bind_apply] at hrun
              obtain ⟨rfl, rfl⟩ := EStateM.Result.ok.inj hrun
              refine ⟨⟨hdefined.within, hdefined.seen, ?_⟩, by simp only; omega,
                fun other hother => hbounded other _ _ hother⟩
              intro definition hdefinition
              rcases List.mem_append.mp hdefinition with hbefore | hadded
              · exact hdefined.known definition hbefore
              · rw [List.mem_singleton.mp hadded]
                exact hwithin
      | false =>
          simp only [hinfo] at hrun
          obtain ⟨rfl, rfl⟩ := EStateM.Result.ok.inj hrun
          refine ⟨⟨hdefined.within, ?_, hdefined.known⟩, by simp only; omega,
            fun other hother => hbounded other _ _ hother⟩
          intro inner hinner other hother
          rcases List.mem_cons.mp hinner with rfl | hinner
          · rcases List.mem_append.mp hother with hbefore | hadded
            · exact hdefined.seen scope (hopen ▸ List.mem_cons_self) other hbefore
            · rw [List.mem_singleton.mp hadded]
              exact hwithin
          · exact hdefined.seen inner (hopen ▸ List.mem_cons_of_mem _ hinner) other hother

theorem interpret_informed {code : UInt64} {fields : List UInt64}
    (hreader : reader.Informed start size) (hrun : interpret code fields reader = .ok () next) :
    next.Informed start size ∧ next.cursor = reader.cursor := by
  unfold interpret at hrun
  cases hcode : InfoCode.ofCode? code with
  | none => exact absurd hrun (by simp only [hcode]; exact throw_ne_ok _ _ _ _)
  | some info =>
      simp only [hcode] at hrun
      cases info with
      | blockName | recordName =>
          obtain ⟨-, rfl⟩ := EStateM.Result.ok.inj hrun
          exact ⟨hreader, rfl⟩
      | setBlock =>
          cases fields with
          | nil => exact absurd hrun (throw_ne_ok _ _ _ _)
          | cons block fields =>
              obtain ⟨-, rfl⟩ := EStateM.Result.ok.inj hrun
              cases hopen : reader.scopes with
              | nil =>
                  simp only [hopen]
                  exact ⟨hreader, trivial⟩
              | cons scope rest =>
                  simp only [hopen]
                  refine ⟨⟨hreader.within, ?_, hreader.known⟩, trivial⟩
                  intro inner hinner shape hshape
                  rcases List.mem_cons.mp hinner with rfl | hinner
                  · exact hreader.seen scope (hopen ▸ List.mem_cons_self) shape hshape
                  · exact hreader.seen inner (hopen ▸ List.mem_cons_of_mem _ hinner) shape hshape

theorem plainRecord_advances {begin : Nat} (hreader : reader.Informed start size)
    (hstart : start ≤ reader.cursor.position) (hrun : plainRecord begin reader = .ok found? next) :
    Advances start size 2 reader found? next := by
  rw [plainRecord, get_bind_apply] at hrun
  cases hopen : reader.scopes with
  | nil => exact absurd hrun (by simp only [hopen]; exact throw_ne_ok _ _ _ _)
  | cons scope rest =>
      simp only [hopen] at hrun
      obtain ⟨code, first, hfirst, hrun⟩ := bind_eq_ok_iff.mp hrun
      obtain ⟨hcode, -, -, _, hfirstTaken, hfirstPositive, -⟩ :=
        onCursor_moves ((Cursor.moves_readVbr 6).adaptExcept Error.field) hreader hfirst
      obtain ⟨count, second, hsecond, hrun⟩ := bind_eq_ok_iff.mp hrun
      obtain ⟨hcount, -, -, _, hsecondTaken, -⟩ :=
        onCursor_moves ((Cursor.moves_readVbr 6).adaptExcept Error.field) hcode hsecond
      obtain ⟨fields, third, hthird, hrun⟩ := bind_eq_ok_iff.mp hrun
      obtain ⟨hfields, -, -, _, hthirdTaken, hlength, hmore⟩ := onCursor_moves
        (Abbrev.moves_readFields _) hcount hthird
      cases hinfo : scope.isInfo with
      | true =>
          simp only [hinfo, if_true] at hrun
          obtain ⟨_, last, hlast, hrun⟩ := bind_eq_ok_iff.mp hrun
          obtain ⟨rfl, rfl⟩ := EStateM.Result.ok.inj hrun
          obtain ⟨hinformed, hcursor⟩ := interpret_informed hfields hlast
          exact ⟨hinformed, by rw [hcursor]; omega, by simp⟩
      | false =>
          simp only [hinfo] at hrun
          obtain ⟨rfl, rfl⟩ := EStateM.Result.ok.inj hrun
          refine ⟨hfields, by omega, ?_⟩
          rintro _ ⟨⟩
          refine ⟨?_, Nat.le_refl 2⟩
          simp only [Entry.Bounded, Record.values, List.length_cons] at hlength ⊢
          omega

theorem abbreviatedRecord_advances {id : UInt64} {begin : Nat}
    (hreader : reader.Informed start size)
    (hrun : abbreviatedRecord id begin reader = .ok found? next) :
    Advances start size 2 reader found? next := by
  rw [abbreviatedRecord, get_bind_apply] at hrun
  cases hopen : reader.scopes with
  | nil => exact absurd hrun (by simp only [hopen]; exact throw_ne_ok _ _ _ _)
  | cons scope rest =>
      simp only [hopen] at hrun
      cases hshape : abbrevWithId? scope.abbrevs id with
      | none => exact absurd hrun (by simp only [hshape]; exact throw_ne_ok _ _ _ _)
      | some shape =>
          simp only [hshape] at hrun
          obtain ⟨hacceptable, hoperators⟩ := hreader.seen scope (hopen ▸ List.mem_cons_self) shape
            (mem_of_abbrevWithId? hshape)
          obtain ⟨values, read, hread, hrun⟩ := bind_eq_ok_iff.mp hrun
          obtain ⟨hvalues, -, -, taken, htaken, hlength⟩ :=
            onCursor_moves (Abbrev.moves_readValues hacceptable) hreader hread
          cases hinfo : scope.isInfo with
          | true =>
              simp only [hinfo, if_true] at hrun
              obtain ⟨rfl, rfl⟩ := EStateM.Result.ok.inj hrun
              exact ⟨hvalues, by omega, by simp⟩
          | false =>
              simp only [hinfo] at hrun
              cases values with
              | nil => exact absurd hrun (throw_ne_ok _ _ _ _)
              | cons code fields =>
                  obtain ⟨rfl, rfl⟩ := EStateM.Result.ok.inj hrun
                  refine ⟨hvalues, by omega, ?_⟩
                  rintro _ ⟨⟩
                  refine ⟨?_, Nat.le_refl 2⟩
                  simp only [Entry.Bounded, Record.values]
                  omega

theorem three_le_of_ofCode {code : UInt64} (hend : AbbrevId.ofCode code ≠ .reserved .endBlock)
    (henter : AbbrevId.ofCode code ≠ .reserved .enterBlock)
    (hdefine : AbbrevId.ofCode code ≠ .reserved .defineAbbrev) : 3 ≤ code.toNat := by
  unfold AbbrevId.ofCode at hend henter hdefine
  rcases Nat.lt_or_ge code.toNat 3 with hsmall | hlarge
  · obtain hcode | hcode | hcode : code.toNat = 0 ∨ code.toNat = 1 ∨ code.toNat = 2 := by omega
    · simp [hcode] at hend
    · simp [hcode] at henter
    · simp [hcode] at hdefine
  · exact hlarge

theorem step_advances (hreader : reader.Informed start size)
    (hstart : start ≤ reader.cursor.position) (hrun : step reader = .ok found? next) :
    next.Informed start size ∧ reader.cursor.position < next.cursor.position ∧
      ∀ entry, found? = some entry → entry.Bounded start next.cursor.position ∧
        reader.cursor.position + entry.leastBits ≤ next.cursor.position := by
  rw [step, get_bind_apply] at hrun
  obtain ⟨code, announced, hannounced, hrun⟩ := bind_eq_ok_iff.mp hrun
  obtain ⟨hinformed, -, -, taken, htaken, rfl, hpositive, hcode⟩ :=
    onCursor_moves ((Cursor.moves_read _).adaptExcept Error.field) hreader hannounced
  have hwhole : ∀ {least : Nat} {result : Option Entry}, least ≤ reader.idWidth →
      Advances start size least announced result next →
      next.Informed start size ∧ reader.cursor.position < next.cursor.position ∧
        ∀ entry, result = some entry → entry.Bounded start next.cursor.position ∧
          reader.cursor.position + entry.leastBits ≤ next.cursor.position := by
    rintro least result hleast ⟨hnext, hforward, hbounded⟩
    refine ⟨hnext, by omega, fun entry hentry => ?_⟩
    obtain ⟨hentry, hbits⟩ := hbounded entry hentry
    exact ⟨hentry, by omega⟩
  -- The ids of records do not fit one bit.
  have hrecord : 3 ≤ code.toNat → 2 ≤ reader.idWidth := by
    intro hlarge
    rcases Nat.lt_or_ge reader.idWidth 2 with hnarrow | hwide
    · have hpower : 2 ^ reader.idWidth ≤ 2 ^ 1 := Nat.pow_le_pow_right (by decide) (by omega)
      omega
    · exact hwide
  cases hid : AbbrevId.ofCode code with
  | reserved id =>
      simp only [hid] at hrun
      cases id with
      | endBlock => exact hwhole hpositive (exitBlock_advances hinformed hrun)
      | enterBlock => exact hwhole hpositive (enterBlock_advances hinformed hrun)
      | defineAbbrev =>
          obtain ⟨entry, defined, hdefine, hrun⟩ := bind_eq_ok_iff.mp hrun
          obtain ⟨rfl, rfl⟩ := EStateM.Result.ok.inj hrun
          exact hwhole hpositive (define_advances hinformed (by omega) hdefine)
      | plainRecord =>
          exact hwhole (hrecord (three_le_of_ofCode (by simp [hid]) (by simp [hid]) (by simp [hid])))
            (plainRecord_advances hinformed (by omega) hrun)
  | defined id =>
      simp only [hid] at hrun
      exact hwhole (hrecord (three_le_of_ofCode (by simp [hid]) (by simp [hid]) (by simp [hid])))
        (abbreviatedRecord_advances hinformed hrun)

theorem advanceWithin_induction {steps : Nat} {entry : Entry} {motive : Reader → Prop}
    (hlast : ∀ reader, step reader = .ok (some entry) next → motive reader)
    (hsilent : ∀ reader middle, step reader = .ok none middle → motive middle → motive reader)
    (hrun : advanceWithin steps reader = .ok entry next) : motive reader := by
  induction steps generalizing reader with
  | zero => exact absurd hrun (throw_ne_ok _ _ _ _)
  | succ steps ih =>
      rw [advanceWithin, get_bind_apply] at hrun
      split at hrun
      · split at hrun
        · exact absurd hrun (throw_ne_ok _ _ _ _)
        · exact absurd hrun (throw_ne_ok _ _ _ _)
      · obtain ⟨found?, middle, hstep, hrun⟩ := bind_eq_ok_iff.mp hrun
        cases found? with
        | some found =>
            obtain ⟨rfl, rfl⟩ := EStateM.Result.ok.inj hrun
            exact hlast reader hstep
        | none => exact hsilent reader middle hstep (ih hrun)

theorem advanceWithin_advances {steps : Nat} {entry : Entry} (hreader : reader.Informed start size)
    (hstart : start ≤ reader.cursor.position) (hrun : advanceWithin steps reader = .ok entry next) :
    next.Informed start size ∧ entry.Bounded start next.cursor.position ∧
      reader.cursor.position + entry.leastBits ≤ next.cursor.position := by
  revert hreader hstart
  apply advanceWithin_induction _ _ hrun
  · intro reader hstep hreader hstart
    obtain ⟨hnext, -, hbounded⟩ := step_advances hreader hstart hstep
    exact ⟨hnext, hbounded entry rfl⟩
  · intro reader middle hstep ih hreader hstart
    obtain ⟨hmiddle, hforward, -⟩ := step_advances hreader hstart hstep
    obtain ⟨hnext, hentry, hbits⟩ := ih hmiddle (by omega)
    exact ⟨hnext, hentry, by omega⟩

end Steps

theorem Bounded.mono {start position later : Nat} {entry : Entry}
    (hentry : entry.Bounded start position) (hle : position ≤ later) :
    entry.Bounded start later := by
  cases entry with
  | endBlock | block | definition => exact hentry
  | record item => exact Nat.le_trans hentry hle

theorem collectWithin_bounded {start size : Nat} {reader : Reader} (count : Nat)
    (reversed : List Entry) (hreader : reader.Informed start size)
    (hstart : start ≤ reader.cursor.position) :
    ∃ added, (collectWithin count reversed reader).1 = reversed.reverse ++ added ∧
      (∀ entry ∈ added, entry.Bounded start (8 * size)) ∧
      reader.cursor.position + (added.map Entry.leastBits).sum ≤ 8 * size := by
  induction count generalizing reversed reader with
  | zero => exact ⟨[], by simp [collectWithin], by simp, hreader.within.position_le_size⟩
  | succ count ih =>
      cases hadvance : advance reader with
      | error cause next =>
          refine ⟨[], by simp [collectWithin, hadvance], by simp, ?_⟩
          exact hreader.within.position_le_size
      | ok entry next =>
          obtain ⟨hnext, hentry, hbits⟩ := advanceWithin_advances hreader hstart hadvance
          obtain ⟨added, hadded, hall, hsum⟩ := ih (entry :: reversed) hnext (by omega)
          have hend := hnext.within.position_le_size
          refine ⟨entry :: added, by simp [collectWithin, hadvance, hadded], ?_, ?_⟩
          · intro other hother
            rcases List.mem_cons.mp hother with rfl | hother
            · exact Bounded.mono hentry hend
            · exact hall other hother
          · rw [List.map_cons, List.sum_cons]
            omega

theorem collect_bounded {start size : Nat} {reader : Reader} (hreader : reader.Informed start size)
    (hstart : start ≤ reader.cursor.position) :
    (∀ entry ∈ reader.collect.1, entry.Bounded start (8 * size)) ∧
      reader.cursor.position + (reader.collect.1.map Entry.leastBits).sum ≤ 8 * size := by
  obtain ⟨added, hadded, hall, hsum⟩ :=
    collectWithin_bounded (reader.bitsLeft + 1) [] hreader hstart
  rw [List.reverse_nil, List.nil_append] at hadded
  rw [collect, hadded]
  exact ⟨hall, hsum⟩

end Reader

end Bitcode.Bitstream
