import Mathlib
import Bitcode.Census.Basic
import Bitcode.Proofs.Keyed

namespace Bitcode.Census

variable {α ε : Type}

/-- What is found under a key, given the items that have it: nothing if there are none, and else a
tally that is right about them. -/
inductive Found (about : List α → ε → Prop) : List α → Option ε → Prop
  | missing : Found about [] none
  | tally {items : List α} {tally : ε} (hitems : items ≠ []) (habout : about items tally) :
      Found about items (some tally)

/-- The items that have a key. -/
def having (keys : α → List UInt64) (key : UInt64) (items : List α) : List α :=
  items.filter (key ∈ keys ·)

/-- The census has counted the items, each under its keys. -/
structure Counts (keys : α → List UInt64) (about : UInt64 → List α → ε → Prop) (items : List α)
    (census : Census ε) : Prop where
  ascending : Keyed.Ascending census.elements
  total_eq : census.total = items.countP fun item => !(keys item).isEmpty
  found : ∀ key, Found (about key) (having keys key items) (census.get? key)

section Found

variable {about : List α → ε → Prop} {items : List α} {found : Option ε}

theorem Found.of_eq_some {tally : ε} (hfound : Found about items found) (htally : found = some tally) :
    about items tally := by
  cases hfound with
  | missing => cases htally
  | tally _ habout => exact Option.some.inj htally ▸ habout

theorem Found.eq_nil (hfound : Found about items found) (hnone : found = none) : items = [] := by
  cases hfound with
  | missing => rfl
  | tally => cases hnone

theorem Found.ne_nil {tally : ε} (hfound : Found about items found) (hsome : found = some tally) :
    items ≠ [] := by
  cases hfound with
  | missing => cases hsome
  | tally hitems => exact hitems

/-- What is found inside a tally is about those of its items that match. -/
theorem Found.bind {β δ : Type} {next : List β → δ → Prop} {matched : List β}
    {inner : ε → Option δ} (hfound : Found about items found) (hnone : items = [] → matched = [])
    (hinner : ∀ tally, about items tally → Found next matched (inner tally)) :
    Found next matched (found.bind inner) := by
  cases hfound with
  | missing =>
      rw [hnone rfl]
      exact .missing
  | tally _ habout => exact hinner _ habout

/-- Something is found if and only if there are items for it, and it has counted them all. -/
def Tallied (count : ε → Nat) (items : List α) (found : Option ε) : Prop :=
  (found.isSome ↔ items ≠ []) ∧ ∀ tally, found = some tally → count tally = items.length

theorem Found.tallied {count : ε → Nat} (hfound : Found about items found)
    (hcount : ∀ tally, about items tally → count tally = items.length) :
    Tallied count items found := by
  cases hfound with
  | missing => exact ⟨by simp, by simp⟩
  | tally hitems habout =>
      refine ⟨by simpa using hitems, fun other hother => ?_⟩
      obtain rfl := Option.some.inj hother
      exact hcount _ habout

end Found

section Having

variable (keys : α → List UInt64) (key : UInt64)

theorem having_append (first second : List α) :
    having keys key (first ++ second) = having keys key first ++ having keys key second :=
  List.filter_append _ _

theorem having_singleton_of_mem {item : α} (hkey : key ∈ keys item) :
    having keys key [item] = [item] := by
  simp [having, hkey]

theorem having_singleton_of_notMem {item : α} (hkey : key ∉ keys item) :
    having keys key [item] = [] := by
  simp [having, hkey]

end Having

namespace Counts

variable {keys : α → List UInt64} {about : UInt64 → List α → ε → Prop} {items : List α}
  {census : Census ε}

theorem empty : Counts keys about [] ({} : Census ε) :=
  ⟨List.Pairwise.nil, rfl, fun _ => .missing⟩

theorem add {item : α} {fresh : ε} {count : UInt64 → ε → ε} (hcounts : Counts keys about items census)
    (hkeys : (keys item).Nodup) (hfresh : ∀ key, about key [] fresh)
    (hcount : ∀ key ∈ keys item, ∀ items tally, about key items tally →
      about key (items ++ [item]) (count key tally)) :
    Counts keys about (items ++ [item]) (census.add (keys item) fresh count) := by
  unfold Census.add
  split
  · rename_i hempty
    refine ⟨hcounts.ascending, ?_, fun key => ?_⟩
    · simp [hcounts.total_eq, List.countP_append, hempty]
    · have hkey : key ∉ keys item := by
        rw [List.isEmpty_iff.mp hempty]
        exact List.not_mem_nil
      rw [having_append, having_singleton_of_notMem keys key hkey, List.append_nil]
      exact hcounts.found key
  · rename_i hsome
    refine ⟨Keyed.ascending_foldl_updateSorted _ hcounts.ascending, ?_, fun key => ?_⟩
    · simp [hcounts.total_eq, List.countP_append, hsome]
    · have hfound := hcounts.found key
      rw [get?] at hfound ⊢
      rw [Keyed.lookup_foldl_updateSorted hkeys hcounts.ascending, having_append]
      by_cases hkey : key ∈ keys item
      · rw [if_pos hkey, having_singleton_of_mem keys key hkey]
        refine .tally (by simp) (hcount key hkey _ _ ?_)
        cases hbefore : census.elements.lookup key with
        | none =>
            rw [hfound.eq_nil hbefore]
            exact hfresh key
        | some tally => exact hfound.of_eq_some hbefore
      · rw [if_neg hkey, having_singleton_of_notMem keys key hkey, List.append_nil]
        exact hfound

theorem foldl {step : Census ε → α → Census ε}
    (hstep : ∀ items census item, Counts keys about items census →
      Counts keys about (items ++ [item]) (step census item))
    (hcounts : Counts keys about items census) (more : List α) :
    Counts keys about (items ++ more) (more.foldl step census) := by
  induction more generalizing items census with
  | nil => simpa using hcounts
  | cons item more ih =>
      have hmore := ih (hstep items census item hcounts)
      rwa [List.append_assoc, List.singleton_append] at hmore

end Counts

theorem sum_map_ite_eq_countP (holds : α → Bool) (items : List α) :
    (items.map fun item => if holds item then 1 else 0).sum = items.countP holds := by
  induction items with
  | nil => rfl
  | cons item items ih => rw [List.map_cons, List.sum_cons, ih, List.countP_cons, Nat.add_comm]

theorem sum_length_filter {κ : Type} (related : κ → α → Bool) (keys : List κ) (items : List α) :
    (keys.map fun key => (items.filter (related key)).length).sum =
      (items.map fun item => keys.countP (related · item)).sum := by
  induction keys with
  | nil => simp
  | cons key keys ih =>
      simp only [List.countP_cons, List.sum_map_add, sum_map_ite_eq_countP]
      rw [List.map_cons, List.sum_cons, ih, ← List.countP_eq_length_filter, Nat.add_comm]

/-- The counts under all keys add up to the total. -/
def Sums (count : ε → Nat) (census : Census ε) : Prop :=
  (census.elements.map fun entry => count entry.2).sum = census.total

section Sums

variable {keys : α → List UInt64} {about : UInt64 → List α → ε → Prop} {items : List α}
  {census : Census ε}

theorem Counts.get?_of_mem (hcounts : Counts keys about items census) {key : UInt64} {tally : ε}
    (hentry : (key, tally) ∈ census.elements) : census.get? key = some tally :=
  Keyed.lookup_eq_some_of_mem (Keyed.nodup_of_ascending hcounts.ascending) hentry

theorem Counts.about_of_mem (hcounts : Counts keys about items census) {key : UInt64} {tally : ε}
    (hentry : (key, tally) ∈ census.elements) : about key (having keys key items) tally :=
  (hcounts.found key).of_eq_some (hcounts.get?_of_mem hentry)

theorem Counts.exists_of_mem (hcounts : Counts keys about items census) {key : UInt64} {tally : ε}
    (hentry : (key, tally) ∈ census.elements) : ∃ item ∈ items, key ∈ keys item := by
  have hlookup := hcounts.get?_of_mem hentry
  obtain ⟨item, hitem⟩ := List.exists_mem_of_ne_nil _ ((hcounts.found key).ne_nil hlookup)
  obtain ⟨hmem, hkey⟩ := List.mem_filter.mp hitem
  exact ⟨item, hmem, of_decide_eq_true hkey⟩

theorem Counts.mem_keys (hcounts : Counts keys about items census) {item : α}
    (hitem : item ∈ items) {key : UInt64} (hkey : key ∈ keys item) :
    key ∈ census.elements.map (·.1) := by
  have hmem : item ∈ having keys key items := List.mem_filter.mpr ⟨hitem, by simpa using hkey⟩
  cases htally : census.get? key with
  | none => exact absurd ((hcounts.found key).eq_nil htally) (List.ne_nil_of_mem hmem)
  | some tally => exact List.mem_map.mpr ⟨(key, tally), Keyed.mem_of_lookup_eq_some htally, rfl⟩

theorem countP_mem_of_nodup {found : List UInt64} (hnodup : found.Nodup) {own : List UInt64}
    (hsingle : own.length ≤ 1) (hown : ∀ key ∈ own, key ∈ found) :
    found.countP (· ∈ own) = if !own.isEmpty then 1 else 0 := by
  cases own with
  | nil => simp
  | cons key others =>
      obtain rfl : others = [] := List.eq_nil_of_length_eq_zero (by simpa using hsingle)
      have hcount := List.count_eq_one_of_mem hnodup (hown key List.mem_cons_self)
      rw [List.count_eq_countP] at hcount
      simpa [← beq_eq_decide] using hcount

theorem Counts.sums {count : ε → Nat} (hcounts : Counts keys about items census)
    (hcount : ∀ key items tally, about key items tally → count tally = items.length)
    (hsingle : ∀ item, (keys item).length ≤ 1) : Sums count census := by
  have hnodup := Keyed.nodup_of_ascending hcounts.ascending
  calc (census.elements.map fun entry => count entry.2).sum
      = (census.elements.map fun entry => (having keys entry.1 items).length).sum := by
        congr 1
        refine List.map_congr_left fun entry hentry => ?_
        exact hcount _ _ _ (hcounts.about_of_mem hentry)
    _ = ((census.elements.map (·.1)).map fun key => (having keys key items).length).sum := by
        rw [List.map_map]
        rfl
    _ = (items.map fun item => (census.elements.map (·.1)).countP (· ∈ keys item)).sum :=
        sum_length_filter (fun key item => decide (key ∈ keys item)) _ items
    _ = (items.map fun item => if !(keys item).isEmpty then 1 else 0).sum := by
        congr 1
        refine List.map_congr_left fun item hitem => ?_
        exact countP_mem_of_nodup hnodup (hsingle item) fun _ => hcounts.mem_keys hitem
    _ = census.total := by rw [sum_map_ite_eq_countP, hcounts.total_eq]

end Sums

section Ranking

variable (importance : UInt64 → ε → Double) (census : Census ε)

theorem exists_perm_ranked :
    ∃ kept, ((census.ranked importance).map (·.2)).Perm kept ∧ kept.Sublist census.elements := by
  refine ⟨_, (List.mergeSort_perm _ _).map _, ?_⟩
  have hkept := (List.filter_sublist (p := fun entry : Double × UInt64 × ε => entry.1 ≠ Double.zero)
    (l := census.elements.map fun entry => (importance entry.1 entry.2, entry))).map (·.2)
  rwa [List.map_map, Function.comp_def, List.map_id'] at hkept

theorem mem_of_mem_ranked {entry : UInt64 × ε}
    (hentry : entry ∈ (census.ranked importance).map (·.2)) : entry ∈ census.elements := by
  obtain ⟨kept, hperm, hkept⟩ := exists_perm_ranked importance census
  exact hkept.subset (hperm.subset hentry)

theorem nodup_ranked (hkeys : (census.elements.map (·.1)).Nodup) :
    (((census.ranked importance).map (·.2)).map (·.1)).Nodup := by
  obtain ⟨kept, hperm, hkept⟩ := exists_perm_ranked importance census
  exact (hperm.map _).nodup_iff.mpr (hkeys.sublist (hkept.map _))

theorem sum_countP_filter_le {keys : List UInt64} (hkeys : keys.Nodup) (key : α → UInt64)
    (holds : α → Bool) (items : List α) :
    (keys.map fun sought => (items.filter (key · = sought)).countP holds).sum ≤
      items.countP holds := by
  calc (keys.map fun sought => (items.filter (key · = sought)).countP holds).sum
      = (keys.map fun sought => ((items.filter holds).filter (key · = sought)).length).sum := by
        congr 1
        refine List.map_congr_left fun sought _ => ?_
        rw [List.countP_eq_length_filter, List.filter_comm]
    _ = ((items.filter holds).map fun item => keys.countP (key item = ·)).sum :=
        sum_length_filter (fun sought item => decide (key item = sought)) keys _
    _ ≤ ((items.filter holds).map fun _ => 1).sum := by
        refine List.sum_le_sum fun item _ => ?_
        have honce := List.nodup_iff_count_le_one.mp hkeys (key item)
        simpa [List.count_eq_countP, beq_eq_decide, eq_comm] using honce
    _ = items.countP holds := by
        rw [List.map_const', List.sum_replicate, smul_eq_mul, Nat.mul_one,
          List.countP_eq_length_filter]

theorem sum_ranked_le (hkeys : (census.elements.map (·.1)).Nodup) {gain : UInt64 × ε → Nat}
    (key : α → UInt64) {holds : α → Bool} {items : List α}
    (hgain : ∀ entry ∈ census.elements,
      gain entry ≤ (items.filter (key · = entry.1)).countP holds) :
    (((census.ranked importance).map (·.2)).map gain).sum ≤ items.countP holds := by
  refine Nat.le_trans (List.sum_le_sum fun entry hentry =>
    hgain entry (mem_of_mem_ranked importance census hentry)) ?_
  have hbound := sum_countP_filter_le (nodup_ranked importance census hkeys) key holds items
  rwa [List.map_map] at hbound

end Ranking

end Bitcode.Census
