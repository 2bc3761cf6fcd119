import Mathlib
import Bitcode.Proofs.Abbrev.Records
import Bitcode.Proofs.Bits.Mirror
import Bitcode.Proofs.Bits.Outcome
import Bitcode.Proofs.Bitstream.Elements

namespace Bitcode

open Format Bits

namespace Bits

/-- What is true of all bytes that hold what was written, between the bits where writing began and
ended. -/
def Conveys {ε : Type} (writing : EStateM ε Writer Unit) (fact : Array UInt8 → Nat → Nat → Prop) :
    Prop :=
  ∀ writer next, writing writer = .ok () next →
    ∃ bits : List Bool, next.bits = writer.bits ++ bits ∧
      ∀ bytes, Holds bytes writer.bits.size bits → fact bytes writer.bits.size next.bits.size

section Conveys

variable {δ ε α : Type} {writing second : EStateM ε Writer Unit}
  {fact other : Array UInt8 → Nat → Nat → Prop}

theorem Transmits.conveys {writing : EStateM δ Writer Unit} {reading : EStateM ε Cursor α}
    {value : α} (htransmits : Transmits writing reading value) :
    Conveys writing fun bytes start stop => Reads reading bytes start value stop := by
  intro writer next hwrite
  obtain ⟨bits, hnext, hreads⟩ := htransmits writer next hwrite
  refine ⟨bits, hnext, fun bytes hholds => ?_⟩
  rw [hnext, size_append_list]
  exact hreads bytes hholds

theorem Conveys.adaptExcept (convert : ε → δ) (hwriting : Conveys writing fact) :
    Conveys (EStateM.adaptExcept convert writing) fact :=
  fun writer next hwrite => hwriting writer next (adaptExcept_eq_ok_iff.mp hwrite)

theorem Conveys.bind (hwriting : Conveys writing fact) (hsecond : Conveys second other) :
    Conveys (writing >>= fun _ => second) fun bytes start stop =>
      ∃ middle, fact bytes start middle ∧ other bytes middle stop := by
  intro writer next hwrite
  obtain ⟨_, between, hfirst, hlast⟩ := bind_eq_ok_iff.mp hwrite
  obtain ⟨bits, hbetween, hfact⟩ := hwriting writer between hfirst
  obtain ⟨more, hnext, hother⟩ := hsecond between next hlast
  refine ⟨bits ++ more, by rw [hnext, hbetween, append_list_assoc], fun bytes hholds => ?_⟩
  obtain ⟨hholds, hmore⟩ := holds_append.mp hholds
  have hsize : between.bits.size = writer.bits.size + bits.length := by
    rw [hbetween, size_append_list]
  rw [← hsize] at hmore
  exact ⟨between.bits.size, hfact bytes hholds, hother bytes hmore⟩

theorem Conveys.mono (hwriting : Conveys writing fact)
    (hweaker : ∀ bytes start stop, start ≤ stop → stop ≤ 8 * bytes.size → fact bytes start stop →
      other bytes start stop) : Conveys writing other := by
  intro writer next hwrite
  obtain ⟨bits, hnext, hfact⟩ := hwriting writer next hwrite
  have hsize : next.bits.size = writer.bits.size + bits.length := by
    rw [hnext, size_append_list]
  refine ⟨bits, hnext, fun bytes hholds => hweaker _ _ _ ?_ ?_ (hfact bytes hholds)⟩
  · omega
  · rw [hsize]
    exact hholds.length_le

theorem conveys_emit (value : UInt64) (width : Nat) :
    Conveys (Writer.emit value width) fun bytes start stop =>
      Reads (Cursor.read width) bytes start value stop ∧ stop = start + width ∧ start < stop := by
  intro writer next hwrite
  obtain ⟨bits, hnext, hreads⟩ := (Writer.transmits_emit value width).conveys writer next hwrite
  obtain ⟨⟨hpositive, -⟩, rfl⟩ := Writer.emit_eq_ok_iff.mp hwrite
  have hsize : (writer.append value.toNat width).bits.size = writer.bits.size + width := by
    simp only [Writer.append, size_append_list, lowBits_length]
  exact ⟨bits, hnext, fun bytes hholds => ⟨hreads bytes hholds, hsize, by omega⟩⟩

theorem conveys_align32 {ε : Type} :
    Conveys (modify Writer.align32 : EStateM ε Writer Unit) fun _ start stop =>
      stop = Bitstream.Reader.aligned start := by
  intro writer next hwrite
  obtain ⟨-, rfl⟩ := EStateM.Result.ok.inj hwrite
  refine ⟨lowBits 0 ((32 - writer.bits.size % 32) % 32), rfl, fun _ _ => ?_⟩
  simp only [Writer.align32, Writer.append, size_append_list, lowBits_length,
    Bitstream.Reader.aligned]

end Conveys

end Bits

namespace Bitstream

namespace Element

/-- Write an element. The length goes before a block, and no reader needs it. -/
def write (length : UInt64) (idWidth : Nat) : Element → Bitstream.Writing Unit
  | .enter block width => do
      Bits.Writer.emit ReservedId.enterBlock.code idWidth
      Bits.Writer.emitVbr block 8
      Bits.Writer.emitVbr width 4
      modify Bits.Writer.align32
      Bits.Writer.emit length 32
  | .exit => do
      Bits.Writer.emit ReservedId.endBlock.code idWidth
      modify Bits.Writer.align32
  | .define shape => do
      Bits.Writer.emit ReservedId.defineAbbrev.code idWidth
      shape.write
  | .plain code fields => do
      Bits.Writer.emit ReservedId.plainRecord.code idWidth
      Bits.Writer.emitVbr code 6
      Bits.Writer.emitVbr (UInt64.ofNat fields.length) 6
      fields.forM fun field => Bits.Writer.emitVbr field 6
  | .abbreviated id shape values => do
      Bits.Writer.emit id idWidth
      shape.writeValues values

/-- Write elements one after the other, each with a length of its own. -/
def writeAll (widths : List Nat) : List (Element × UInt64) → Bitstream.Writing Unit
  | [] => return
  | (element, length) :: rest => do
      element.write length (widths.headD initialIdWidth)
      writeAll (element.nest widths) rest

/-- What is read again after it has been written. -/
def Writable : Element → Bool
  | .define shape => shape.isAcceptable && decide (shape.operators.length < 2 ^ 64)
  | .plain _ fields => decide (fields.length < 2 ^ 64)
  | .abbreviated id shape values =>
      shape.isAcceptable && decide (values.length < 2 ^ 64) &&
        decide (AbbrevId.ofCode id = .defined id)
  | _ => true

end Element

theorem conveys_field (value : UInt64) (width : Nat) :
    Conveys (liftM (Bits.Writer.emit value width) : Writing Unit) fun bytes start stop =>
      Reads (Cursor.read width) bytes start value stop ∧ stop = start + width ∧ start < stop :=
  (conveys_emit value width).adaptExcept _

theorem conveys_vbr (value : UInt64) (width : Nat) :
    Conveys (liftM (Bits.Writer.emitVbr value width) : Writing Unit) fun bytes start stop =>
      Reads (Cursor.readVbr width) bytes start value stop :=
  (transmits_emitVbr value width).conveys.adaptExcept _

theorem conveys_fields (fields : List UInt64) :
    Conveys (fields.forM fun field => liftM (Bits.Writer.emitVbr field 6) : Writing Unit)
      fun bytes start stop =>
        Reads (Abbrev.readMany (liftM (Cursor.readVbr 6)) fields.length []) bytes start fields
          stop :=
  (Abbrev.transmits_readMany fields [] fun field _ => transmits_vbr field 6).conveys

/-- What begins with an abbreviation id takes up bits. -/
theorem conveys_id (id : UInt64) (idWidth : Nat) {second : Writing Unit}
    {fact : Array UInt8 → Nat → Nat → Prop} (hsecond : Conveys second fact) :
    Conveys (liftM (Bits.Writer.emit id idWidth) >>= fun _ => second) fun bytes start stop =>
      start < stop ∧ stop ≤ 8 * bytes.size ∧
        ∃ first, Reads (Cursor.read idWidth) bytes start id first ∧ fact bytes first stop := by
  have hforward : Conveys second fun bytes start stop => start ≤ stop ∧ fact bytes start stop :=
    hsecond.mono fun _ _ _ hle _ hfact => ⟨hle, hfact⟩
  refine ((conveys_field id idWidth).bind hforward).mono ?_
  rintro bytes start stop - hinside ⟨first, ⟨hid, -, hless⟩, hle, hfact⟩
  exact ⟨Nat.lt_of_lt_of_le hless hle, hinside, first, hid, hfact⟩

namespace Element

theorem conveys_write {element : Element} (hwritable : element.Writable) (length : UInt64)
    (idWidth : Nat) :
    Conveys (element.write length idWidth) fun bytes start stop =>
      start < stop ∧ stop ≤ 8 * bytes.size ∧ Spells bytes idWidth start element stop := by
  cases element with
  | enter block width =>
      refine (conveys_id _ _ ((conveys_vbr _ _).bind ((conveys_vbr _ _).bind
        (conveys_align32.bind (conveys_field _ _))))).mono ?_
      rintro bytes start stop - -
        ⟨hless, hinside, first, hid, second, hblock, third, hwidth, _, rfl, -, rfl, -⟩
      exact ⟨hless, hinside, .enter hid hblock hwidth hinside⟩
  | exit =>
      refine (conveys_id _ _ conveys_align32).mono ?_
      rintro bytes start stop - - ⟨hless, hinside, first, hid, rfl⟩
      exact ⟨hless, hinside, .exit hid⟩
  | define shape =>
      obtain ⟨hshape, hlength⟩ := Bool.and_eq_true_iff.mp hwritable
      refine (conveys_id _ _
        (Abbrev.transmits_write hshape (of_decide_eq_true hlength)).conveys).mono ?_
      rintro bytes start stop - - ⟨hless, hinside, first, hid, hreads⟩
      exact ⟨hless, hinside, .define hid hreads⟩
  | plain code fields =>
      refine (conveys_id _ _ ((conveys_vbr _ _).bind ((conveys_vbr _ _).bind
        (conveys_fields fields)))).mono ?_
      rintro bytes start stop - -
        ⟨hless, hinside, first, hid, second, hcode, third, hlength, hfields⟩
      exact ⟨hless, hinside,
        .plain (of_decide_eq_true hwritable) hid hcode hlength hfields⟩
  | abbreviated id shape values =>
      obtain ⟨hshape, hdefined⟩ := Bool.and_eq_true_iff.mp hwritable
      obtain ⟨hshape, hlength⟩ := Bool.and_eq_true_iff.mp hshape
      refine (conveys_id _ _
        (Abbrev.transmits_writeValues hshape values (of_decide_eq_true hlength)).conveys).mono ?_
      rintro bytes start stop - - ⟨hless, hinside, first, hid, hvalues⟩
      exact ⟨hless, hinside, .abbreviated (of_decide_eq_true hdefined) hid hvalues⟩

theorem conveys_writeAll {elements : List (Element × UInt64)}
    (hwritable : elements.all (·.1.Writable)) (widths : List Nat) :
    Conveys (writeAll widths elements) fun bytes start stop =>
      Spelled bytes widths start (elements.map (·.1)) stop := by
  induction elements generalizing widths with
  | nil =>
      intro writer next hwrite
      obtain ⟨-, rfl⟩ := EStateM.Result.ok.inj hwrite
      exact ⟨[], (Array.appendList_nil).symm, fun _ _ => .nil _ _⟩
  | cons first rest ih =>
      obtain ⟨element, length⟩ := first
      obtain ⟨helement, hrest⟩ := Bool.and_eq_true_iff.mp hwritable
      refine ((conveys_write helement length _).bind (ih hrest (element.nest widths))).mono ?_
      rintro bytes start stop - - ⟨middle, ⟨hless, hinside, hspells⟩, hspelled⟩
      exact .cons hless hinside hspells hspelled

/-- The bytes of elements, if they can be written and end with a word. -/
def stream? (elements : List (Element × UInt64)) : Option (Array UInt8) :=
  match writeAll [] elements {} with
  | .ok _ writer =>
      if elements.all (·.1.Writable) ∧ writer.bits.size % 32 = 0 then some writer.toBytes else none
  | .error _ _ => none

theorem before_stream {elements : List (Element × UInt64)} {bytes : Array UInt8}
    (hstream : stream? elements = some bytes) :
    Before (Cursor.ofBytes bytes) (elements.map (·.1)) := by
  unfold stream? at hstream
  split at hstream
  · rename_i writer hwrite
    split_ifs at hstream with hgood
    obtain ⟨hwritable, hwords⟩ := hgood
    obtain rfl := Option.some.inj hstream
    obtain ⟨bits, hbits, hspelled⟩ := conveys_writeAll hwritable [] {} writer hwrite
    have hsize : 8 * writer.toBytes.size = writer.bits.size := by
      rw [Bits.Writer.toBytes, packBytes_size]
      omega
    have hwhole := hspelled _ (Bits.Writer.holds_toBytes hbits)
    rw [← hsize] at hwhole
    exact ⟨writer.toBytes, 0, _, Cursor.standsAt_ofBytes writer.size_toBytes_mod, hwhole,
      dead_size _⟩
  · cases hstream

end Element

end Bitstream

end Bitcode
