import Bitcode.Proofs.Bits.Exactness
import Bitcode.Proofs.Bits.Progress
import Bitcode.Proofs.Bits.Vbr

namespace Bitcode

/-- Every success of a computation has a value with the given property, wherever it starts. -/
def Ensures {ε σ α : Type} (computation : EStateM ε σ α) (post : α → Prop) : Prop :=
  ∀ ⦃state next : σ⦄ ⦃value : α⦄, computation state = .ok value next → post value

section Ensures

variable {ε δ σ α β : Type}

theorem Ensures.pure {post : α → Prop} {value : α} (hpost : post value) :
    Ensures (Pure.pure value : EStateM ε σ α) post := by
  intro state next result hsuccess
  obtain ⟨rfl, -⟩ := EStateM.Result.ok.inj hsuccess
  exact hpost

theorem Ensures.throw {post : α → Prop} (cause : ε) :
    Ensures (MonadExcept.throw cause : EStateM ε σ α) post := by
  intro state next value hsuccess
  exact absurd hsuccess (throw_ne_ok _ _ _ _)

theorem Ensures.bind {first : EStateM ε σ α} {second : α → EStateM ε σ β} {between : α → Prop}
    {post : β → Prop} (hfirst : Ensures first between)
    (hsecond : ∀ value, between value → Ensures (second value) post) :
    Ensures (first >>= second) post := by
  intro state next result hsuccess
  obtain ⟨value, middle, hmiddle, hnext⟩ := bind_eq_ok_iff.mp hsuccess
  exact hsecond value (hfirst hmiddle) hnext

theorem Ensures.mono {computation : EStateM ε σ α} {strong weak : α → Prop}
    (hcomputation : Ensures computation strong) (hweaker : ∀ value, strong value → weak value) :
    Ensures computation weak := by
  intro state next value hsuccess
  exact hweaker value (hcomputation hsuccess)

theorem Ensures.trivial (computation : EStateM ε σ α) : Ensures computation fun _ => True :=
  fun _ _ _ _ => True.intro

/-- Nothing that comes after a failure matters. -/
theorem Ensures.throw_bind {second : α → EStateM ε σ β} {post : β → Prop} (cause : ε) :
    Ensures ((MonadExcept.throw cause : EStateM ε σ α) >>= second) post :=
  (Ensures.throw cause : Ensures _ fun _ => False).bind fun _ hfalse => hfalse.elim

theorem Ensures.of_if {condition : Prop} [Decidable condition] {first second : EStateM ε σ α}
    {post : α → Prop} (hfirst : condition → Ensures first post)
    (hsecond : ¬ condition → Ensures second post) :
    Ensures (if condition then first else second) post := by
  split
  · exact hfirst ‹_›
  · exact hsecond ‹_›

theorem Ensures.adaptExcept {computation : EStateM ε σ α} {post : α → Prop} (convert : ε → δ)
    (hcomputation : Ensures computation post) :
    Ensures (EStateM.adaptExcept convert computation) post :=
  fun _ _ _ hsuccess => hcomputation (adaptExcept_eq_ok_iff.mp hsuccess)

theorem Ensures.forM {items : List α} {action : α → EStateM ε σ PUnit} {post : α → Prop}
    (haction : ∀ item, Ensures (action item) fun _ => post item) :
    Ensures (items.forM action) fun _ => ∀ item ∈ items, post item := by
  induction items with
  | nil => exact Ensures.pure (by simp)
  | cons item rest ih =>
      change Ensures (action item >>= fun _ => rest.forM action) _
      refine (haction item).bind fun _ hitem => ih.mono fun _ hrest => ?_
      simpa using ⟨hitem, hrest⟩

end Ensures

namespace Bits

theorem Cursor.ensures_read (count : Nat) :
    Ensures (Cursor.read count) fun value => value.toNat < 2 ^ count :=
  fun _ _ _ hread => toNat_lt_of_read hread

/-- Every success of a writing computation appends the given number of bits. -/
def Appends {ε : Type} (writing : EStateM ε Writer Unit) (count : Nat) : Prop :=
  ∀ ⦃writer next : Writer⦄, writing writer = .ok () next →
    ∃ bits : List Bool, next.bits = writer.bits ++ bits ∧ bits.length = count

section Appends

variable {ε δ α : Type}

theorem Appends.pure : Appends (Pure.pure () : EStateM ε Writer Unit) 0 := by
  intro writer next hwrite
  obtain ⟨-, rfl⟩ := EStateM.Result.ok.inj hwrite
  exact ⟨[], by simp, rfl⟩

theorem Appends.bind {first second : EStateM ε Writer Unit} {count more : Nat}
    (hfirst : Appends first count) (hsecond : Appends second more) :
    Appends (first >>= fun _ => second) (count + more) := by
  intro writer next hwrite
  obtain ⟨_, between, hbetween, hnext⟩ := bind_eq_ok_iff.mp hwrite
  obtain ⟨firstBits, hfirstBits, rfl⟩ := hfirst hbetween
  obtain ⟨secondBits, hsecondBits, rfl⟩ := hsecond hnext
  refine ⟨firstBits ++ secondBits, ?_, List.length_append⟩
  rw [hsecondBits, hfirstBits, append_list_assoc]

theorem Appends.adaptExcept {writing : EStateM ε Writer Unit} {count : Nat} (convert : ε → δ)
    (hwriting : Appends writing count) : Appends (EStateM.adaptExcept convert writing) count :=
  fun _ _ hwrite => hwriting (adaptExcept_eq_ok_iff.mp hwrite)

theorem Appends.forM {items : List α} {action : α → EStateM ε Writer PUnit} {count : Nat}
    (haction : ∀ item, Appends (action item) count) :
    Appends (items.forM action) (count * items.length) := by
  induction items with
  | nil => exact Appends.pure
  | cons item rest ih =>
      change Appends (action item >>= fun _ => rest.forM action) _
      rw [List.length_cons, Nat.mul_succ, Nat.add_comm]
      exact (haction item).bind ih

end Appends

namespace Writer

theorem appends_emit (value : UInt64) (width : Nat) : Appends (emit value width) width := by
  intro writer next hwrite
  obtain ⟨-, rfl⟩ := emit_eq_ok_iff.mp hwrite
  exact ⟨lowBits value.toNat width, rfl, lowBits_length _ _⟩

theorem appends_emitVbr (value : UInt64) (width : Nat) :
    Appends (emitVbr value width) (Vbr.bitSize value width) := by
  rw [emitVbr]
  split
  · rename_i hwidth
    rw [← Vbr.mul_length_chunks hwidth]
    exact Appends.forM fun chunk => appends_emit _ width
  · intro writer next hwrite
    exact absurd hwrite (throw_ne_ok _ _ _ _)

theorem size_toBytes_mod (writer : Writer) : writer.toBytes.size % 4 = 0 := by
  rw [toBytes, packBytes_size]
  exact Nat.mul_mod_right _ _

theorem size_le_toBytes (writer : Writer) : writer.bits.size ≤ 8 * writer.toBytes.size := by
  rw [toBytes, packBytes_size]
  omega

theorem holds_toBytes {writer next : Writer} {bits : List Bool}
    (hnext : next.bits = writer.bits ++ bits) : Holds next.toBytes writer.bits.size bits := by
  have hsize : next.bits.size = writer.bits.size + bits.length := by
    rw [hnext, size_append_list]
  have hle := size_le_toBytes next
  refine ⟨by omega, ?_⟩
  intro index hindex
  rw [toBytes, packBytes_size] at hle
  rw [toBytes, bitAt_packBytes _ _ _ (by omega)]
  rw [hnext, Array.getD_eq_getD_getElem?, ← Array.getElem?_toList, Array.toList_appendList,
    ← Array.length_toList, List.getElem?_append_right (by omega), Nat.add_sub_cancel_left,
    List.getElem?_eq_getElem hindex, Option.getD_some]

end Writer

theorem Cursor.standsAt_seekBit {bytes : Array UInt8} {target : Nat} (hwords : bytes.size % 4 = 0)
    (htarget : target ≤ 8 * bytes.size) :
    ∃ sought, seekBit target (ofBytes bytes) = .ok () sought ∧ sought.StandsAt bytes target := by
  obtain ⟨sought, hseek, hposition, hexact, windows, hloaded⟩ :=
    (exact_ofBytes bytes).seekBit_of_le htarget
  refine ⟨sought, hseek, hexact, hposition, ?_, hwords⟩
  have hsize : ((ofBytes bytes).restart (windowSize * (target / 64))).size = bytes.size := rfl
  have hstart : ((ofBytes bytes).restart (windowSize * (target / 64))).loaded = 8 * (target / 64) :=
    rfl
  rw [windowSize] at *
  omega

end Bits

end Bitcode
