import Bitcode.Proofs.Bits.Transmission
import Bitcode.Streaming.Source

namespace Bitcode.Streaming

/-- A source gives the bytes of a stream from a position on, whatever is pulled from it. It never
counts fewer bytes than it can still give. -/
def Delivers {σ : Type} [Source σ] (stream : Array UInt8) (source : σ) (position : Nat) : Prop :=
  ∃ holds : σ → Nat → Prop, holds source position ∧
    ∀ source position, holds source position →
      stream.size - position ≤ Source.remaining source ∧
        ∀ wanted, ∃ next,
          Source.pull wanted source = .ok (stream.extract position (position + wanted)) next ∧
            holds next (min (position + wanted) stream.size)

section Delivers

variable {σ : Type} [Source σ] {stream : Array UInt8} {source : σ} {position : Nat}

theorem Delivers.remaining_le (hsource : Delivers stream source position) :
    stream.size - position ≤ Source.remaining source := by
  obtain ⟨holds, hholds, hstep⟩ := hsource
  exact (hstep source position hholds).1

theorem Delivers.pull (hsource : Delivers stream source position) (wanted : Nat) :
    ∃ next, Source.pull wanted source = .ok (stream.extract position (position + wanted)) next ∧
      Delivers stream next (min (position + wanted) stream.size) := by
  obtain ⟨holds, hholds, hstep⟩ := hsource
  obtain ⟨next, hpull, hnext⟩ := (hstep source position hholds).2 wanted
  exact ⟨next, hpull, holds, hnext, hstep⟩

end Delivers

/-- A request is to be repeated, or is answered by a piece that is empty only at the end. -/
def Reply.Gives : Reply → Prop
  | .interrupted => True
  | .failed _ => False
  | .piece limit => limit ≠ some 0

theorem Reply.left_eq_zero {limit : Option Nat} (hlimit : limit ≠ some 0) {wanted left : Nat}
    (hwanted : wanted ≠ 0) (hempty : pieceSize limit wanted left = 0) : left = 0 := by
  unfold pieceSize at hempty
  cases limit with
  | none =>
      simp only [Option.getD_none] at hempty
      omega
  | some limit =>
      have hpositive : limit ≠ 0 := fun h => hlimit (by rw [h])
      simp only [Option.getD_some] at hempty
      omega

theorem Reply.pieceSize_le (limit : Option Nat) (wanted left : Nat) :
    pieceSize limit wanted left ≤ wanted ∧ pieceSize limit wanted left ≤ left := by
  unfold pieceSize
  omega

namespace Reader

/-- A reader never fails, and no piece is empty before all bytes have been handed out. -/
structure Steady (reader : Reader) : Prop where
  script : ∀ reply ∈ reader.script, reply.Gives
  limit : reader.limit ≠ some 0
  position_le : reader.position ≤ reader.bytes.size

theorem Steady.nextReply {reader : Reader} (hsteady : reader.Steady) : reader.nextReply.Gives := by
  unfold Reader.nextReply
  cases hscript : reader.script with
  | nil => exact hsteady.limit
  | cons reply rest => exact hsteady.script reply (by simp [hscript])

theorem Steady.advance {reader : Reader} (hsteady : reader.Steady) {count : Nat}
    (hcount : count ≤ reader.left) : (reader.advance count).Steady where
  script reply hreply := hsteady.script reply (List.mem_of_mem_tail hreply)
  limit := hsteady.limit
  position_le := by
    have := hsteady.position_le
    simp only [left, Reader.advance] at hcount ⊢
    omega

section Collect

variable {reader : Reader} {wanted : Nat}

theorem script_ne_nil_of_interrupted (hreply : reader.nextReply = .interrupted) :
    reader.script ≠ [] := by
  rintro hscript
  simp [nextReply, hscript] at hreply

theorem collect_of_interrupted (hwanted : wanted ≠ 0) (hreply : reader.nextReply = .interrupted)
    (requests : Nat) (collected : Array UInt8) :
    Reader.collect (requests + 1) wanted collected reader =
      Reader.collect requests wanted collected (reader.advance 0) := by
  rw [Reader.collect, if_neg hwanted, get_bind_apply, hreply]
  rfl

theorem collect_of_piece (hwanted : wanted ≠ 0) {limit : Option Nat} {count : Nat}
    (hreply : reader.nextReply = .piece limit)
    (hcount : Reply.pieceSize limit wanted reader.left = count) (requests : Nat)
    (collected : Array UInt8) :
    Reader.collect (requests + 1) wanted collected reader =
      if count = 0 then .ok collected (reader.advance count)
      else
        Reader.collect requests (wanted - count)
          (collected ++ reader.bytes.extract reader.position (reader.position + count))
          (reader.advance count) := by
  rw [Reader.collect, if_neg hwanted, get_bind_apply, hreply]
  dsimp only
  rw [hcount]
  change (if count = 0 then pure collected else _ : EStateM Error Reader _) _ = _
  split_ifs <;> rfl

/-- Each request uses up an answer of the script or hands out a byte, so enough of them collect all
the wanted bytes. -/
theorem Steady.collect (hsteady : reader.Steady) {requests : Nat}
    (hrequests : reader.script.length + wanted < requests) (collected : Array UInt8) :
    ∃ next, Reader.collect requests wanted collected reader =
        .ok (collected ++ reader.bytes.extract reader.position (reader.position + wanted)) next ∧
      next.Steady ∧ next.bytes = reader.bytes ∧
        next.position = min (reader.position + wanted) reader.bytes.size := by
  induction requests generalizing reader wanted collected with
  | zero => omega
  | succ requests ih =>
      have hposition := hsteady.position_le
      by_cases hwanted : wanted = 0
      · subst hwanted
        refine ⟨reader, ?_, hsteady, rfl, by omega⟩
        simp [Reader.collect, pure, EStateM.pure]
      have hgives := hsteady.nextReply
      cases hreply : reader.nextReply with
      | interrupted =>
          have hscript := List.length_pos_iff.mpr (script_ne_nil_of_interrupted hreply)
          rw [collect_of_interrupted hwanted hreply]
          apply ih (hsteady.advance (Nat.zero_le _))
          simp only [Reader.advance, List.length_tail]
          omega
      | failed report => exact absurd hgives (by simp [hreply, Reply.Gives])
      | piece limit =>
          rw [hreply] at hgives
          obtain ⟨count, hcount⟩ : ∃ count, Reply.pieceSize limit wanted reader.left = count :=
            ⟨_, rfl⟩
          have hle := Reply.pieceSize_le limit wanted reader.left
          rw [hcount] at hle
          rw [collect_of_piece hwanted hreply hcount]
          have hadvance := hsteady.advance hle.2
          split_ifs with hzero
          · have hleft := Reply.left_eq_zero hgives hwanted (hcount.trans hzero)
            have hend : reader.position = reader.bytes.size := by
              simp only [left] at hleft
              omega
            refine ⟨_, ?_, hadvance, rfl, ?_⟩
            · simp [hend]
            · simp only [Reader.advance]
              omega
          · have hfewer : (reader.advance count).script.length + (wanted - count) < requests := by
              simp only [Reader.advance, List.length_tail]
              omega
            obtain ⟨next, hnext, hsteady', hbytes, hend⟩ := ih hadvance hfewer
              (collected ++ reader.bytes.extract reader.position (reader.position + count))
            refine ⟨next, ?_, hsteady', hbytes, ?_⟩
            · rw [hnext, Array.append_assoc]
              simp only [Reader.advance, Array.extract_append_extract]
              congr <;> omega
            · rw [hend]
              simp only [Reader.advance]
              omega

end Collect

theorem Steady.delivers {reader : Reader} (hsteady : reader.Steady) :
    Delivers reader.bytes reader reader.position := by
  refine ⟨fun next position => next.Steady ∧ next.bytes = reader.bytes ∧ next.position = position,
    ⟨hsteady, rfl, rfl⟩, ?_⟩
  rintro source _ ⟨hsource, hbytes, rfl⟩
  refine ⟨by rw [← hbytes]; exact Nat.le_refl _, fun wanted => ?_⟩
  obtain ⟨next, hpull, hnext, hsame, hposition⟩ := hsource.collect (Nat.lt_succ_self _) #[]
  rw [hbytes] at hpull hsame hposition
  refine ⟨next, ?_, hnext, hsame, hposition⟩
  rw [Array.empty_append] at hpull
  exact hpull

end Reader

end Bitcode.Streaming
