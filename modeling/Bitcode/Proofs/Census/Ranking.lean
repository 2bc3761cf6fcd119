import Bitcode.Proofs.Census.Counting

namespace Bitcode

section Stability

variable {α : Type} {before : α → α → Prop} {entries : List α}

theorem filter_mergeSort_of_ties (le : α → α → Bool) (htrans : ∀ a b c, le a b → le b c → le a c)
    (htotal : ∀ a b, (le a b || le b a) = true) (sample : α) (entries : List α) :
    (entries.mergeSort le).filter (fun entry => le sample entry && le entry sample) =
      entries.filter (fun entry => le sample entry && le entry sample) := by
  have hties : (entries.filter (fun entry => le sample entry && le entry sample)).Pairwise
      (fun first second => le first second = true) := by
    rw [List.pairwise_iff_forall_sublist]
    intro first second hpair
    have hfirst := (List.mem_filter.mp (hpair.subset List.mem_cons_self)).2
    have hsecond := (List.mem_filter.mp
      (hpair.subset (List.mem_cons_of_mem _ List.mem_cons_self))).2
    rw [Bool.and_eq_true] at hfirst hsecond
    exact htrans _ _ _ hfirst.2 hsecond.1
  have hkept := (List.sublist_mergeSort htrans htotal hties List.filter_sublist).filter
    (fun entry => le sample entry && le entry sample)
  rw [List.filter_filter] at hkept
  simp only [Bool.and_self] at hkept
  refine (hkept.eq_of_length ?_).symm
  exact ((List.mergeSort_perm entries le).filter _).length_eq.symm

theorem pairwise_mergeSort_of_pairwise (le : α → α → Bool) (htrans : ∀ a b c, le a b → le b c → le a c)
    (htotal : ∀ a b, (le a b || le b a) = true) (hentries : entries.Pairwise before) :
    (entries.mergeSort le).Pairwise fun first second =>
      le first second ∧ (le second first → before first second) := by
  rw [List.pairwise_iff_forall_sublist]
  intro first second hpair
  have hsorted := List.pairwise_iff_forall_sublist.mp (List.pairwise_mergeSort htrans htotal entries)
    hpair
  refine ⟨hsorted, fun hback => ?_⟩
  have hself : le first first = true := htrans _ _ _ hsorted hback
  have hties := hpair.filter (fun entry => le first entry && le entry first)
  rw [filter_mergeSort_of_ties le htrans htotal] at hties
  simp only [List.filter_cons, hself, hsorted, hback, Bool.and_self, List.filter_nil, if_true] at hties
  exact List.pairwise_iff_forall_sublist.mp hentries (hties.trans List.filter_sublist)

end Stability

namespace Double

theorem roundSignificant_mul_shiftLeft {value : Nat} (hvalue : value < 2 ^ 53) (places : Nat) :
    roundSignificant (value * 1 <<< places) 1 = value * 1 <<< places := by
  rw [Nat.one_shiftLeft]
  have hshift : (value * 2 ^ places).log2 - 52 ≤ places := by
    rcases Nat.eq_zero_or_pos value with rfl | hpositive
    · simp
    · have hlog : (value * 2 ^ places).log2 < 53 + places := by
        rw [Nat.log2_lt (by positivity), Nat.pow_add]
        exact Nat.mul_lt_mul_of_pos_right hvalue (Nat.two_pow_pos places)
      omega
  unfold roundSignificant
  dsimp only
  rw [Nat.div_one]
  generalize (value * 2 ^ places).log2 - 52 = shift at hshift ⊢
  obtain ⟨more, rfl⟩ := Nat.exists_eq_add_of_le hshift
  have hsplit : value * 2 ^ (shift + more) = value * 2 ^ more * 2 ^ shift := by
    rw [Nat.mul_assoc, ← Nat.pow_add, Nat.add_comm more]
  rw [hsplit, Nat.one_shiftLeft, Nat.shiftLeft_eq]
  congr 1
  unfold roundDiv
  rw [Nat.mul_mod_left, Nat.mul_div_cancel _ (Nat.two_pow_pos shift), if_pos (Nat.two_pow_pos shift)]

theorem units_ofNat {value : Nat} (hvalue : value < 2 ^ 53) :
    (ofNat value).units = value * scale :=
  roundSignificant_mul_shiftLeft hvalue 1074

theorem scale_pos : 0 < scale := by
  decide +kernel

theorem units_ofNat_le_iff {first second : Nat} (hfirst : first < 2 ^ 53) (hsecond : second < 2 ^ 53) :
    (ofNat first).units ≤ (ofNat second).units ↔ first ≤ second := by
  rw [units_ofNat hfirst, units_ofNat hsecond]
  exact Nat.mul_le_mul_right_iff scale_pos

theorem ofNat_eq_zero_iff {value : Nat} (hvalue : value < 2 ^ 53) :
    ofNat value = zero ↔ value = 0 := by
  constructor
  · intro hzero
    have hunits := congrArg units hzero
    rw [units_ofNat hvalue] at hunits
    exact (Nat.mul_eq_zero.mp hunits).resolve_right (Nat.ne_of_gt scale_pos)
  · rintro rfl
    rfl

end Double

namespace Census

variable {ε : Type} {importance : UInt64 → ε → Double} {census : Census ε}

theorem mem_ranked {entry : Double × UInt64 × ε} :
    entry ∈ census.ranked importance ↔
      entry.2 ∈ census.elements ∧ entry.1 = importance entry.2.1 entry.2.2 ∧ entry.1 ≠ Double.zero := by
  obtain ⟨weight, key, tally⟩ := entry
  simp only [ranked, List.mem_mergeSort, List.mem_filter, List.mem_map, decide_eq_true_eq]
  constructor
  · rintro ⟨⟨⟨other, found⟩, hentry, hsame⟩, hweight⟩
    obtain ⟨rfl, rfl, rfl⟩ := hsame
    exact ⟨hentry, rfl, hweight⟩
  · rintro ⟨hentry, rfl, hweight⟩
    exact ⟨⟨(key, tally), hentry, rfl⟩, hweight⟩

theorem mem_map_ranked {entry : UInt64 × ε} (hentry : entry ∈ census.elements)
    (hweight : importance entry.1 entry.2 ≠ Double.zero) :
    entry ∈ (census.ranked importance).map (·.2) :=
  List.mem_map.mpr ⟨(importance entry.1 entry.2, entry), mem_ranked.mpr ⟨hentry, rfl, hweight⟩, rfl⟩

theorem pairwise_ranked (hcensus : Keyed.Ascending census.elements) :
    (census.ranked importance).Pairwise fun first second =>
      second.1.units ≤ first.1.units ∧
        (first.1.units ≤ second.1.units → first.2.1 < second.2.1) := by
  have hkeys : ((census.elements.map fun entry => (importance entry.1 entry.2, entry)).filter
      (fun entry => entry.1 ≠ Double.zero)).Pairwise
      (fun first second : Double × UInt64 × ε => first.2.1 < second.2.1) := by
    refine List.Pairwise.sublist List.filter_sublist (List.pairwise_map.mpr ?_)
    exact List.pairwise_map.mp hcensus
  have hstable := pairwise_mergeSort_of_pairwise
    (fun first second : Double × UInt64 × ε => decide (second.1.units ≤ first.1.units))
    (fun _ _ _ hfirst hsecond => by
      rw [decide_eq_true_eq] at hfirst hsecond ⊢
      exact hsecond.trans hfirst)
    (fun first second => by
      rw [Bool.or_eq_true, decide_eq_true_eq, decide_eq_true_eq]
      exact Nat.le_total _ _) hkeys
  simp only [decide_eq_true_eq] at hstable
  exact hstable

theorem ranking_eq (importance : UInt64 → ε → Double) (census : Census ε) :
    census.ranking importance =
      ((census.elements.map fun entry => (importance entry.1 entry.2, entry.1)).filter
        (fun entry => entry.1 ≠ Double.zero)).mergeSort
          fun first second => decide (second.1.units ≤ first.1.units) := by
  have hsorted := List.map_mergeSort (f := fun entry : Double × UInt64 × ε => (entry.1, entry.2.1))
    (l := (census.elements.map fun entry => (importance entry.1 entry.2, entry)).filter
      (fun entry => entry.1 ≠ Double.zero))
    (r := fun first second => decide (second.1.units ≤ first.1.units))
    (s := fun first second => decide (second.1.units ≤ first.1.units)) fun _ _ _ _ => rfl
  have hkept : ((census.elements.map fun entry => (importance entry.1 entry.2, entry)).filter
      (fun entry => entry.1 ≠ Double.zero)).map
        (fun entry : Double × UInt64 × ε => (entry.1, entry.2.1)) =
      (census.elements.map fun entry => (importance entry.1 entry.2, entry.1)).filter
        (fun entry => entry.1 ≠ Double.zero) := by
    rw [List.filter_map, List.filter_map, List.map_map]
    rfl
  rw [hkept] at hsorted
  exact hsorted

theorem ranking_congr {first second : Census ε}
    (hsame : first.elements.map (fun entry => (importance entry.1 entry.2, entry.1)) =
      second.elements.map (fun entry => (importance entry.1 entry.2, entry.1))) :
    first.ranking importance = second.ranking importance := by
  rw [ranking_eq, ranking_eq, hsame]

theorem keys_sortedElements (importance : UInt64 → ε → Double) (census : Census ε) :
    (census.sortedElements importance).1.map (·.1) =
      (census.sorted importance).1.filterMap fun entry =>
        (census.get? entry.2).map fun _ => entry.2 := by
  change ((census.sorted importance).1.filterMap fun entry =>
    (census.get? entry.2).map (entry.2, ·)).map (·.1) = _
  rw [List.map_filterMap]
  refine List.filterMap_congr fun entry _ => ?_
  rw [Option.map_map]
  rfl

/-- An up-to-date ranking that is kept is the one that would be worked out. -/
theorem sorted_of_kept
    (hkept : ∀ ranking, census.ranking? = some ranking → ranking = census.ranking importance) :
    (census.sorted importance).1 = census.ranking importance := by
  rw [sorted]
  cases hranking : census.ranking? with
  | none => rfl
  | some ranking => exact hkept ranking hranking

/-- A ranking of amounts under keys: all that are not zero, the greatest first, and equal ones by
their keys. -/
structure Ranks (amounts : List (UInt64 × Nat)) (pairs : List (Nat × UInt64)) : Prop where
  ordered : pairs.Pairwise fun first second =>
    second.1 < first.1 ∨ second.1 = first.1 ∧ first.2 < second.2
  mem_iff : ∀ amount key, (amount, key) ∈ pairs ↔ amount ≠ 0 ∧ (key, amount) ∈ amounts

/-- The amount that goes with an importance, as the double nearest to it. -/
def weighed (pairs : List (Nat × UInt64)) : List (Double × UInt64) :=
  pairs.map fun (amount, key) => (.ofNat amount, key)

theorem exists_ranks {amount : ε → Nat} (hcensus : Keyed.Ascending census.elements)
    (himportance : ∀ key tally, importance key tally = .ofNat (amount tally))
    (hbound : ∀ entry ∈ census.elements, amount entry.2 < 2 ^ 53) :
    ∃ pairs, census.ranking importance = weighed pairs ∧
      Ranks (census.elements.map fun (key, tally) => (key, amount tally)) pairs := by
  refine ⟨(census.ranked importance).map fun entry => (amount entry.2.2, entry.2.1), ?_, ?_, ?_⟩
  · rw [ranking, weighed, List.map_map]
    refine List.map_congr_left fun entry hentry => ?_
    change (entry.1, entry.2.1) = (.ofNat (amount entry.2.2), entry.2.1)
    rw [(mem_ranked.mp hentry).2.1, himportance]
  · rw [List.pairwise_map]
    refine (pairwise_ranked hcensus).imp_of_mem fun {first second} hfirst hsecond horder => ?_
    obtain ⟨hfirst, hfirstWeight, -⟩ := mem_ranked.mp hfirst
    obtain ⟨hsecond, hsecondWeight, -⟩ := mem_ranked.mp hsecond
    have hfirstBound := hbound _ hfirst
    have hsecondBound := hbound _ hsecond
    rw [hfirstWeight, hsecondWeight, himportance, himportance,
      Double.units_ofNat_le_iff hfirstBound hsecondBound,
      Double.units_ofNat_le_iff hsecondBound hfirstBound] at horder
    rcases Nat.lt_or_eq_of_le horder.1 with hless | hsame
    · exact Or.inl hless
    · exact Or.inr ⟨hsame, horder.2 (Nat.le_of_eq hsame.symm)⟩
  · intro number key
    simp only [List.mem_map, Prod.mk.injEq]
    constructor
    · rintro ⟨entry, hentry, rfl, rfl⟩
      obtain ⟨hentry, hweight, hpositive⟩ := mem_ranked.mp hentry
      rw [hweight, himportance, Ne, Double.ofNat_eq_zero_iff (hbound _ hentry)] at hpositive
      exact ⟨hpositive, entry.2, hentry, rfl, rfl⟩
    · rintro ⟨hpositive, entry, hentry, rfl, rfl⟩
      refine ⟨(importance entry.1 entry.2, entry), mem_ranked.mpr ⟨hentry, rfl, ?_⟩, rfl, rfl⟩
      rwa [himportance, Ne, Double.ofNat_eq_zero_iff (hbound _ hentry)]

end Census

end Bitcode
