import Bitcode.Proofs.Lookup.Exact

namespace Bitcode.Lookup

/-- The rows of every node have a property. -/
def Trie.Every (property : List Nat → Prop) (trie : Trie) : Prop :=
  property trie.rows ∧ trie.edges.Every property

namespace Forest

variable {before after : List Nat → Prop}

theorem Every.mono {forest : Forest} (hforest : forest.Every before)
    (hkeep : ∀ rows, before rows → after rows) : forest.Every after := by
  induction forest with
  | nil => trivial
  | edge position value rows below others ihbelow ihothers =>
      obtain ⟨hrows, hbelow, hothers⟩ := hforest
      exact ⟨hkeep rows hrows, ihbelow hbelow, ihothers hothers⟩

theorem of_recorded {row : Nat} {rows : List Nat} (hkeep : before rows → after rows)
    (hadd : before rows → after (rows ++ [row])) (leaves : Bool) (hrows : before rows) :
    after (recorded leaves row rows) := by
  unfold recorded
  split
  · exact hkeep hrows
  · exact hadd hrows

/-- A row is at most appended to the rows of a node. -/
theorem Every.insert {row : Nat} {forest : Forest} (hforest : forest.Every before)
    (hkeep : ∀ rows, before rows → after rows) (hadd : ∀ rows, before rows → after (rows ++ [row]))
    (shape : Abbrev) : (forest.insert row shape).1.Every after := by
  induction forest with
  | nil => trivial
  | edge position value rows below others ihbelow ihothers =>
      obtain ⟨hrows, hbelow, hothers⟩ := hforest
      have hrecorded := of_recorded (hkeep rows) (hadd rows) (below.insert row shape).2 hrows
      cases hdemand : demand shape position with
      | constant constant =>
          by_cases hvalue : value = constant
          · subst hvalue
            rw [insert_same hdemand]
            exact ⟨hrecorded, ihbelow hbelow, hothers.mono hkeep⟩
          · rw [insert_other hdemand hvalue]
            exact ⟨hkeep rows hrows, hbelow.mono hkeep, ihothers hothers⟩
      | any =>
          rw [insert_any hdemand]
          exact ⟨hrecorded, ihbelow hbelow, ihothers hothers⟩
      | absent =>
          rw [insert_absent hdemand]
          exact ⟨hkeep rows hrows, hbelow.mono hkeep, ihothers hothers⟩

end Forest

theorem Trie.Every.insert {before after : List Nat → Prop} {row : Nat} {trie : Trie}
    (htrie : trie.Every before) (hkeep : ∀ rows, before rows → after rows)
    (hadd : ∀ rows, before rows → after (rows ++ [row])) (shape : Abbrev) :
    (trie.insert row shape).Every after :=
  ⟨Forest.of_recorded (hkeep _) (hadd _) _ htrie.1, htrie.2.insert hkeep hadd shape⟩

/-- The rows ascend up to a bound. -/
def AscendTo (bound : Nat) (rows : List Nat) : Prop :=
  rows.Pairwise (· < ·) ∧ ∀ row ∈ rows, row < bound

theorem AscendTo.mono {bound greater : Nat} {rows : List Nat} (hrows : AscendTo bound rows)
    (hbound : bound ≤ greater) : AscendTo greater rows :=
  ⟨hrows.1, fun row hrow => Nat.lt_of_lt_of_le (hrows.2 row hrow) hbound⟩

theorem AscendTo.append {bound row : Nat} {rows : List Nat} (hrows : AscendTo bound rows)
    (hrow : bound ≤ row) : AscendTo (row + 1) (rows ++ [row]) := by
  constructor
  · rw [List.pairwise_append]
    refine ⟨hrows.1, List.pairwise_singleton _ _, ?_⟩
    intro first hfirst last hlast
    obtain rfl := List.mem_singleton.mp hlast
    exact Nat.lt_of_lt_of_le (hrows.2 first hfirst) hrow
  · intro other hother
    rcases List.mem_append.mp hother with hother | hother
    · exact Nat.lt_succ_of_lt (Nat.lt_of_lt_of_le (hrows.2 other hother) hrow)
    · exact Nat.lt_succ_of_le (Nat.le_of_eq (List.mem_singleton.mp hother))

namespace Index

variable {abbrevs : List Abbrev} {first row : Nat} {values : List UInt64}

theorem ascending_recordAll {numbered : List (Nat × Abbrev)} {index : Index} {bound : Nat}
    (hordered : index.Ordered) (hindex : ∀ key, (index.trieAt key).Every (AscendTo bound))
    (hascending : (numbered.map (·.1)).Pairwise (· < ·))
    (hbound : ∀ row ∈ numbered.map (·.1), bound ≤ row) :
    ∀ key, ∃ greater, ((recordAll numbered index).trieAt key).Every (AscendTo greater) := by
  induction numbered generalizing index bound with
  | nil => exact fun key => ⟨bound, hindex key⟩
  | cons entry numbered ih =>
      rw [List.map_cons, List.pairwise_cons] at hascending
      have hentry : bound ≤ entry.1 := hbound entry.1 (by simp)
      have hkeep : ∀ rows, AscendTo bound rows → AscendTo (entry.1 + 1) rows :=
        fun rows hrows => hrows.mono (by omega)
      have hnext : ∀ key, ((index.modify entry.2 (·.insert entry.1 entry.2)).trieAt key).Every
          (AscendTo (entry.1 + 1)) := by
        intro key
        rw [trieAt_modify hordered]
        split
        · exact (hindex key).insert hkeep (fun rows hrows => hrows.append hentry) entry.2
        · exact ⟨hkeep _ (hindex key).1, (hindex key).2.mono hkeep⟩
      exact ih hordered.modify hnext hascending.2 hascending.1

theorem pairwise_rowsFor (abbrevs : List Abbrev) (first : Nat) (values : List UInt64) :
    ((ofRows abbrevs first).rowsFor values).Pairwise (· < ·) := by
  let numbered := numberedFrom abbrevs first
  let start := complete (numbered.map (·.2)) (roundBound (numbered.map (·.2))) {}
  have hempty : AscendTo 0 [] := ⟨List.Pairwise.nil, by simp⟩
  have hstart : ∀ key, (start.trieAt key).Every (AscendTo 0) := by
    intro key
    obtain ⟨hrows, hbare⟩ := bare_complete (numbered.map (·.2)) _ key
    exact ⟨hrows ▸ hempty, hbare.every hempty⟩
  have hascending : (numbered.map (·.1)).Pairwise (· < ·) := by
    rw [map_fst_numberedFrom]
    exact List.Pairwise.sublist (List.drop_sublist _ _) List.pairwise_lt_range'
  obtain ⟨greater, hrows⟩ := ascending_recordAll (searchable_complete numbered).ordered hstart
    hascending (fun _ _ => Nat.zero_le _) (keyFor values.length)
  rw [rowsFor_eq]
  exact (hrows.2.rows_follow values hrows.1).1

theorem le_of_mem_rowsFor (hrow : row ∈ (ofRows abbrevs first).rowsFor values) : first ≤ row := by
  by_contra hbefore
  have hnot : row ∉ (numberedFrom abbrevs first).map (·.1) := by
    rw [map_fst_numberedFrom, List.drop_range', List.mem_range'_1]
    omega
  rw [rowsFor_eq] at hrow
  have hnone := (mem_follow_recordAll_of_notMem
    (searchable_complete (numberedFrom abbrevs first)).ordered hnot).mp hrow
  rw [rows_follow_complete] at hnone
  simp at hnone

theorem mem_rowsFor_of_canEncode {shape : Abbrev} (hrow : first ≤ row)
    (hshape : abbrevs[row]? = some shape) (hencode : shape.canEncode values) :
    row ∈ (ofRows abbrevs first).rowsFor values := by
  obtain ⟨hadmits, hagrees⟩ := Abbrev.admits_and_agrees_of_canEncode hencode
  have hfound := mem_follow_recordAll (searchable_complete (numberedFrom abbrevs first))
    (fun _ hentry => hentry) (nodup_numberedFrom abbrevs first) (mem_numberedFrom hrow hshape)
    (keyFor_mem_keysOf hadmits) (fits_of_admits hadmits)
  rw [rowsFor_eq]
  exact hfound.mpr (.inr hagrees)

end Index

end Bitcode.Lookup
