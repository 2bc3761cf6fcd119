import Mathlib
import Bitcode.Keyed

namespace Bitcode.Keyed

variable {κ α : Type}

/-- The keys ascend. -/
def Ascending [LT κ] (entries : List (κ × α)) : Prop :=
  (entries.map (·.1)).Pairwise (· < ·)

theorem lookup_cons_of_ne [BEq κ] [LawfulBEq κ] {key first : κ} (value : α) (rest : List (κ × α))
    (hne : key ≠ first) : ((first, value) :: rest).lookup key = rest.lookup key := by
  rw [List.lookup_cons, beq_false_of_ne hne]

theorem mem_of_lookup_eq_some [BEq κ] [LawfulBEq κ] {key : κ} {value : α}
    {entries : List (κ × α)} (hvalue : entries.lookup key = some value) : (key, value) ∈ entries := by
  obtain ⟨before, after, rfl, -⟩ := List.lookup_eq_some_iff.mp hvalue
  exact List.mem_append_right _ List.mem_cons_self

theorem lookup_eq_some_of_mem [BEq κ] [LawfulBEq κ] {key : κ} {value : α}
    {entries : List (κ × α)} (hkeys : (entries.map (·.1)).Nodup) (hentry : (key, value) ∈ entries) :
    entries.lookup key = some value := by
  induction entries with
  | nil => simp at hentry
  | cons head rest ih =>
      obtain ⟨first, other⟩ := head
      simp only [List.map_cons, List.nodup_cons] at hkeys
      rcases List.mem_cons.mp hentry with heq | hrest
      · obtain ⟨rfl, rfl⟩ := Prod.mk.inj heq
        simp
      · have hne : key ≠ first := by
          rintro rfl
          exact hkeys.1 (List.mem_map_of_mem hrest)
        rw [lookup_cons_of_ne _ _ hne, ih hkeys.2 hrest]

theorem lookup_map [BEq κ] [LawfulBEq κ] {β : Type} (change : κ → α → β) (key : κ)
    (entries : List (κ × α)) :
    (entries.map fun (other, value) => (other, change other value)).lookup key =
      (entries.lookup key).map (change key) := by
  induction entries with
  | nil => rfl
  | cons head rest ih =>
      obtain ⟨first, value⟩ := head
      by_cases hfirst : key = first
      · subst hfirst
        simp
      · rw [List.map_cons, lookup_cons_of_ne _ _ hfirst, lookup_cons_of_ne _ _ hfirst, ih]

section Update

variable [DecidableEq κ] {key : κ} {fresh : α} {change : α → α} {entries : List (κ × α)}

theorem lookup_update [BEq κ] [LawfulBEq κ] (other : κ) :
    (update key fresh change entries).lookup other =
      if other = key then some (change ((entries.lookup key).getD fresh))
      else entries.lookup other := by
  induction entries with
  | nil =>
      by_cases hother : other = key
      · subst hother
        simp [update]
      · simp [update, lookup_cons_of_ne _ _ hother, hother]
  | cons entry rest ih =>
      obtain ⟨first, value⟩ := entry
      by_cases hfirst : first = key
      · subst hfirst
        rw [update, if_pos rfl]
        by_cases hother : other = first
        · subst hother
          simp
        · rw [if_neg hother, lookup_cons_of_ne _ _ hother, lookup_cons_of_ne _ _ hother]
      · rw [update, if_neg hfirst, lookup_cons_of_ne value rest (Ne.symm hfirst)]
        by_cases hother : other = first
        · subst hother
          simp [hfirst]
        · rw [lookup_cons_of_ne _ _ hother, ih, lookup_cons_of_ne _ _ hother]

theorem mem_update {entry : κ × α} (hentry : entry ∈ update key fresh change entries) :
    entry ∈ entries ∨
      entry.1 = key ∧ ∃ value, (value = fresh ∨ (key, value) ∈ entries) ∧ entry.2 = change value := by
  induction entries with
  | nil =>
      rw [update, List.mem_singleton] at hentry
      subst hentry
      exact .inr ⟨rfl, fresh, .inl rfl, rfl⟩
  | cons head rest ih =>
      obtain ⟨first, value⟩ := head
      unfold update at hentry
      split at hentry
      · rename_i hfirst
        subst hfirst
        rcases List.mem_cons.mp hentry with rfl | hrest
        · exact .inr ⟨rfl, value, .inr List.mem_cons_self, rfl⟩
        · exact .inl (List.mem_cons_of_mem _ hrest)
      · rcases List.mem_cons.mp hentry with rfl | hrest
        · exact .inl List.mem_cons_self
        · rcases ih hrest with hbefore | ⟨hkey, old, hold, hchange⟩
          · exact .inl (List.mem_cons_of_mem _ hbefore)
          · exact .inr ⟨hkey, old, hold.imp_right (List.mem_cons_of_mem _), hchange⟩

theorem mem_keys_update {other : κ} :
    other ∈ (update key fresh change entries).map (·.1) ↔
      other = key ∨ other ∈ entries.map (·.1) := by
  induction entries with
  | nil => simp [update]
  | cons head rest ih =>
      obtain ⟨first, value⟩ := head
      unfold update
      split
      · rename_i hfirst
        simp [hfirst]
      · rw [List.map_cons, List.map_cons, List.mem_cons, List.mem_cons, ih]
        exact or_left_comm

theorem nodup_keys_update (hkeys : (entries.map (·.1)).Nodup) :
    ((update key fresh change entries).map (·.1)).Nodup := by
  induction entries with
  | nil => simp [update]
  | cons head rest ih =>
      obtain ⟨first, value⟩ := head
      simp only [List.map_cons, List.nodup_cons] at hkeys
      unfold update
      split
      · exact List.nodup_cons.mpr hkeys
      · rename_i hfirst
        refine List.nodup_cons.mpr ⟨?_, ih hkeys.2⟩
        intro hmem
        exact (mem_keys_update.mp hmem).elim hfirst hkeys.1

end Update

section Ascending

variable [LT κ] [Std.Irrefl (α := κ) (· < ·)] {entries : List (κ × α)}

theorem nodup_of_ascending (hentries : Ascending entries) : (entries.map (·.1)).Nodup :=
  hentries.imp Std.ne_of_lt

theorem lookup_eq_none_of_lt [BEq κ] [LawfulBEq κ] {key : κ}
    (hless : ∀ other ∈ entries.map (·.1), key < other) :
    entries.lookup key = none := by
  rw [List.lookup_eq_none_iff]
  intro entry hentry
  have hkey := hless entry.1 (List.mem_map_of_mem hentry)
  rw [bne_iff_ne]
  exact Std.ne_of_lt hkey

end Ascending

section Sorted

variable [DecidableEq κ] [LT κ] [DecidableLT κ] {key : κ} {fresh : α} {change : α → α}
  {entries : List (κ × α)}

theorem mem_keys_updateSorted {other : κ}
    (hother : other ∈ (updateSorted key fresh change entries).map (·.1)) :
    other = key ∨ other ∈ entries.map (·.1) := by
  induction entries with
  | nil => simpa [updateSorted] using hother
  | cons entry rest ih =>
      obtain ⟨first, value⟩ := entry
      unfold updateSorted at hother
      split at hother
      · exact .inr hother
      · split at hother
        · simpa using hother
        · simp only [List.map_cons, List.mem_cons] at hother ⊢
          rcases hother with rfl | hother
          · exact .inr (.inl rfl)
          · rcases ih hother with rfl | hrest
            · exact .inl rfl
            · exact .inr (.inr hrest)

theorem map_updateSorted {view : α → α} (hfresh : view fresh = fresh)
    (hchange : ∀ value, view (change value) = change (view value)) :
    (updateSorted key fresh change entries).map (fun entry => (entry.1, view entry.2)) =
      updateSorted key fresh change (entries.map fun entry => (entry.1, view entry.2)) := by
  induction entries with
  | nil => rw [updateSorted, List.map_singleton, List.map_nil, updateSorted, hchange, hfresh]
  | cons entry rest ih =>
      obtain ⟨first, value⟩ := entry
      rw [List.map_cons, updateSorted, updateSorted]
      split_ifs
      · rw [List.map_cons, hchange]
      · rw [List.map_cons, List.map_cons, hchange, hfresh]
      · rw [List.map_cons, ih]

theorem forall_mem_updateSorted {property : α → Prop} (hentries : ∀ entry ∈ entries, property entry.2)
    (hfresh : property fresh) (hchange : ∀ value, property value → property (change value)) :
    ∀ entry ∈ updateSorted key fresh change entries, property entry.2 := by
  induction entries with
  | nil =>
      rw [updateSorted, List.forall_mem_singleton]
      exact hchange fresh hfresh
  | cons entry rest ih =>
      obtain ⟨first, value⟩ := entry
      rw [List.forall_mem_cons] at hentries
      rw [updateSorted]
      split_ifs
      · rw [List.forall_mem_cons]
        exact ⟨hchange value hentries.1, hentries.2⟩
      · rw [List.forall_mem_cons, List.forall_mem_cons]
        exact ⟨hchange fresh hfresh, hentries⟩
      · rw [List.forall_mem_cons]
        exact ⟨hentries.1, ih hentries.2⟩

variable [LE κ] [Std.IsLinearOrder κ] [Std.LawfulOrderLT κ]

theorem updateSorted_comm {other : κ} {change' : α → α}
    (hchange : other = key → ∀ value, change' (change value) = change (change' value)) :
    updateSorted other fresh change' (updateSorted key fresh change entries) =
      updateSorted key fresh change (updateSorted other fresh change' entries) := by
  induction entries with
  | nil => grind [updateSorted]
  | cons entry rest ih =>
      obtain ⟨first, value⟩ := entry
      grind [updateSorted]

theorem ascending_updateSorted (hentries : Ascending entries) :
    Ascending (updateSorted key fresh change entries) := by
  induction entries with
  | nil => simp [Ascending, updateSorted]
  | cons entry rest ih =>
      obtain ⟨first, value⟩ := entry
      simp only [Ascending, List.map_cons, List.pairwise_cons] at hentries
      unfold updateSorted
      split
      · exact List.pairwise_cons.mpr hentries
      · rename_i hne
        split
        · rename_i hless
          refine List.pairwise_cons.mpr ⟨?_, List.pairwise_cons.mpr hentries⟩
          intro other hother
          rcases List.mem_cons.mp hother with rfl | hother
          · exact hless
          · exact Std.lt_trans hless (hentries.1 other hother)
        · rename_i hless
          refine List.pairwise_cons.mpr ⟨?_, ih hentries.2⟩
          intro other hother
          rcases mem_keys_updateSorted hother with rfl | hother
          · exact Std.lt_of_le_of_ne (Std.not_lt.mp hless) hne
          · exact hentries.1 other hother

variable [BEq κ] [LawfulBEq κ]

/-- An update changes what is found under its key, or adds it. -/
theorem lookup_updateSorted (hentries : Ascending entries) (other : κ) :
    (updateSorted key fresh change entries).lookup other =
      if other = key then some (change ((entries.lookup key).getD fresh))
      else entries.lookup other := by
  induction entries with
  | nil =>
      by_cases hother : other = key
      · simp [updateSorted, hother]
      · simp [updateSorted, lookup_cons_of_ne _ _ hother, hother]
  | cons entry rest ih =>
      obtain ⟨first, value⟩ := entry
      simp only [Ascending, List.map_cons, List.pairwise_cons] at hentries
      unfold updateSorted
      split
      · rename_i hfirst
        subst hfirst
        by_cases hother : other = first
        · simp [hother]
        · simp [lookup_cons_of_ne _ _ hother, hother]
      · rename_i hne
        rw [lookup_cons_of_ne value rest (Ne.symm hne)]
        split
        · rename_i hless
          have hmissing : rest.lookup key = none :=
            lookup_eq_none_of_lt fun later hlater => Std.lt_trans hless (hentries.1 later hlater)
          by_cases hother : other = key
          · simp [hother, hmissing]
          · simp [lookup_cons_of_ne _ _ hother, hother]
        · by_cases hother : other = first
          · subst hother
            simp [hne]
          · rw [lookup_cons_of_ne _ _ hother, lookup_cons_of_ne _ _ hother]
            exact ih hentries.2

omit [DecidableEq κ] [DecidableLT κ] in
theorem lookup_eq_none_of_lt_head {first : κ} {value : α}
    (hentries : Ascending ((first, value) :: entries)) (hless : key < first) :
    ((first, value) :: entries).lookup key = none := by
  simp only [Ascending, List.map_cons, List.pairwise_cons] at hentries
  apply lookup_eq_none_of_lt
  intro other hother
  rcases List.mem_cons.mp hother with rfl | hother
  · exact hless
  · exact Std.lt_trans hless (hentries.1 other hother)

omit [DecidableEq κ] in
theorem eq_of_lookup_eq {others : List (κ × α)} (hentries : Ascending entries)
    (hothers : Ascending others) (hlookup : ∀ key, entries.lookup key = others.lookup key) :
    entries = others := by
  induction entries generalizing others with
  | nil =>
      cases others with
      | nil => rfl
      | cons entry rest =>
          have hfound := hlookup entry.1
          rw [List.lookup_cons_self] at hfound
          cases hfound
  | cons entry rest ih =>
      obtain ⟨first, value⟩ := entry
      cases others with
      | nil =>
          have hfound := hlookup first
          rw [List.lookup_cons_self] at hfound
          cases hfound
      | cons entry rest' =>
          obtain ⟨first', value'⟩ := entry
          have hsame : first = first' := by
            by_contra hne
            by_cases hless : first < first'
            · have hfound := hlookup first
              rw [List.lookup_cons_self, lookup_eq_none_of_lt_head hothers hless] at hfound
              cases hfound
            · have hgreater := Std.lt_of_le_of_ne (Std.not_lt.mp hless) (Ne.symm hne)
              have hfound := hlookup first'
              rw [List.lookup_cons_self, lookup_eq_none_of_lt_head hentries hgreater] at hfound
              cases hfound
          subst hsame
          have hvalue : value = value' := by
            have hfound := hlookup first
            rw [List.lookup_cons_self, List.lookup_cons_self] at hfound
            exact Option.some.inj hfound
          simp only [Ascending, List.map_cons, List.pairwise_cons] at hentries hothers
          rw [hvalue, ih hentries.2 hothers.2]
          intro key
          by_cases hkey : key = first
          · subst hkey
            rw [lookup_eq_none_of_lt hentries.1, lookup_eq_none_of_lt hothers.1]
          · have hrest := hlookup key
            rwa [lookup_cons_of_ne _ _ hkey, lookup_cons_of_ne _ _ hkey] at hrest

theorem getD_lookup_updateSorted (hentries : Ascending entries) (other : κ) :
    ((updateSorted key fresh change entries).lookup other).getD fresh =
      if other = key then change ((entries.lookup key).getD fresh)
      else (entries.lookup other).getD fresh := by
  rw [lookup_updateSorted hentries]
  split
  · rfl
  · rfl

section Keys

variable {changes : κ → α → α}

omit [BEq κ] [LawfulBEq κ] in
theorem ascending_foldl_updateSorted (keys : List κ) (hentries : Ascending entries) :
    Ascending
      (keys.foldl (fun entries key => updateSorted key fresh (changes key) entries) entries) := by
  induction keys generalizing entries with
  | nil => exact hentries
  | cons first keys ih => exact ih (ascending_updateSorted hentries)

theorem lookup_foldl_updateSorted {keys : List κ} (hkeys : keys.Nodup) (hentries : Ascending entries)
    (key : κ) :
    (keys.foldl (fun entries key => updateSorted key fresh (changes key) entries)
        entries).lookup key =
      if key ∈ keys then some (changes key ((entries.lookup key).getD fresh))
      else entries.lookup key := by
  induction keys generalizing entries with
  | nil => simp
  | cons first keys ih =>
      obtain ⟨hfirst, hkeys⟩ := List.nodup_cons.mp hkeys
      rw [List.foldl_cons, ih hkeys (ascending_updateSorted hentries), lookup_updateSorted hentries]
      by_cases hkey : key = first
      · subst hkey
        simp [hfirst]
      · simp [hkey]

end Keys

end Sorted

end Bitcode.Keyed
