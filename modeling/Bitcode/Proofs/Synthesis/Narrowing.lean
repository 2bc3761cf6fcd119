import Mathlib
import Bitcode.Proofs.Abbrev.Simplification
import Bitcode.Proofs.Census.Exact
import Bitcode.Proofs.Widths
import Bitcode.Synthesis.Narrow

namespace Bitcode

open Format

namespace Operator

/-- The operator is a field for numbers, with a valid width. -/
def IsNumeric (operator : Operator) : Prop :=
  (∃ width : UInt64, operator = .fixed width ∧ 1 ≤ width.toNat ∧ width.toNat ≤ 63) ∨
    ∃ width : UInt64, operator = .vbr width ∧ 2 ≤ width.toNat ∧ width.toNat ≤ 32

theorem scalarBits_fixed {width : UInt64} (hleast : 1 ≤ width.toNat) (hmost : width.toNat ≤ 63)
    (value : UInt64) :
    (Operator.fixed width).scalarBits value =
      if value.toNat < 2 ^ 32 ∧ value.toNat < 2 ^ width.toNat then some width.toNat else none := by
  have hzero : width ≠ 0 := by
    rintro rfl
    simp at hleast
  have hless : width < 64 := by
    rw [UInt64.lt_iff_toNat_lt]
    exact Nat.lt_succ_of_le hmost
  rw [scalarBits, if_neg hzero, UInt32.size, Nat.one_shiftLeft]
  by_cases hfits : value.toNat < 2 ^ 32 ∧ value.toNat < 2 ^ width.toNat
  · rw [if_pos hfits, if_neg (by omega)]
  · rw [if_neg hfits, if_pos]
    rw [not_and_or, Nat.not_lt, Nat.not_lt] at hfits
    exact hfits.imp_right fun hwide => ⟨hless, hwide⟩

theorem scalarBits_vbr {width : UInt64} (hleast : 2 ≤ width.toNat) (value : UInt64) :
    (Operator.vbr width).scalarBits value = some (Bits.Vbr.bitSize value width.toNat) := by
  have hzero : width ≠ 0 := by
    rintro rfl
    simp at hleast
  rw [scalarBits, if_neg hzero]

theorem IsNumeric.carries_of_le {operator : Operator} (hoperator : operator.IsNumeric)
    {value greatest : UInt64} (hle : value ≤ greatest) (hgreatest : operator.Carries greatest) :
    operator.Carries value := by
  rw [UInt64.le_iff_toNat_le] at hle
  rw [Carries] at hgreatest ⊢
  rcases hoperator with ⟨width, rfl, hleast, hmost⟩ | ⟨width, rfl, hleast, -⟩
  · rw [scalarBits_fixed hleast hmost, Option.isSome_ite] at hgreatest ⊢
    omega
  · rw [scalarBits_vbr hleast]
    rfl

end Operator

namespace Synthesis

open Census (ValueTally valueRange)

section Cost

variable {values : List (UInt64 × ValueTally)} {operator : Operator}

/-- What is estimated is, summed over the ranges, the count times the bits for the greatest value. -/
theorem encodingCost_eq_some_iff {cost : Nat} :
    encodingCost operator values = some cost ↔
      (∀ entry ∈ values, operator.Carries (valueRange entry.1).2) ∧
        cost = (values.map fun entry =>
          (operator.scalarBits (valueRange entry.1).2).getD 0 * entry.2.count).sum := by
  induction values generalizing cost with
  | nil => simp [encodingCost, eq_comm]
  | cons first rest ih =>
      obtain ⟨range, tally⟩ := first
      simp only [encodingCost, Option.bind_eq_bind, Option.bind_eq_some_iff, ih, List.map_cons,
        List.sum_cons, List.forall_mem_cons]
      constructor
      · rintro ⟨bits, hbits, more, ⟨hcarries, rfl⟩, hcost⟩
        refine ⟨⟨Option.isSome_of_eq_some hbits, hcarries⟩, ?_⟩
        rw [hbits, Option.getD_some]
        exact (Option.some.inj hcost).symm
      · rintro ⟨⟨hfirst, hcarries⟩, rfl⟩
        obtain ⟨bits, hbits⟩ := Option.isSome_iff_exists.mp hfirst
        refine ⟨bits, hbits, _, ⟨hcarries, rfl⟩, ?_⟩
        rw [hbits, Option.getD_some]
        rfl

theorem exists_encodingCost (hcarries : ∀ entry ∈ values, operator.Carries (valueRange entry.1).2) :
    ∃ cost, encodingCost operator values = some cost :=
  ⟨_, encodingCost_eq_some_iff.mpr ⟨hcarries, rfl⟩⟩

theorem encodingCost_fixed {width : UInt64} (hleast : 1 ≤ width.toNat) (hmost : width.toNat ≤ 63)
    {cost : Nat} :
    encodingCost (.fixed width) values = some cost ↔
      (∀ entry ∈ values, (valueRange entry.1).2.toNat < 2 ^ 32 ∧
        (valueRange entry.1).2.toNat < 2 ^ width.toNat) ∧
        cost = width.toNat * (values.map fun entry => entry.2.count).sum := by
  have hcarries : (∀ entry ∈ values, (Operator.fixed width).Carries (valueRange entry.1).2) ↔
      ∀ entry ∈ values, (valueRange entry.1).2.toNat < 2 ^ 32 ∧
        (valueRange entry.1).2.toNat < 2 ^ width.toNat := by
    refine forall₂_congr fun entry _ => ?_
    rw [Operator.Carries, Operator.scalarBits_fixed hleast hmost, Option.isSome_ite]
  rw [encodingCost_eq_some_iff, hcarries]
  refine and_congr_right fun hfits => ?_
  have hbits : ∀ entry ∈ values,
      ((Operator.fixed width).scalarBits (valueRange entry.1).2).getD 0 * entry.2.count =
        width.toNat * entry.2.count := by
    intro entry hentry
    rw [Operator.scalarBits_fixed hleast hmost, if_pos (hfits entry hentry), Option.getD_some]
  rw [List.map_congr_left hbits, List.sum_map_mul_left]

theorem lt_of_scalarBits_fixed {width value : UInt64}
    (hbits : ((Operator.fixed width).scalarBits value).isSome) : value.toNat < 2 ^ 32 := by
  simp only [Operator.scalarBits] at hbits
  split at hbits
  · split at hbits
    · rename_i hzero
      rw [hzero]
      decide
    · simp at hbits
  · split at hbits
    · simp at hbits
    · rw [UInt32.size] at *
      omega

end Cost

section Choice

variable {values : Census ValueTally} {operator narrowed : Operator}

/-- The operators that are tried, with their costs. -/
def priced (values : Census ValueTally) (greatest : Nat) : List (Nat × Operator) :=
  (alternatives greatest).filterMap fun candidate =>
    (encodingCost candidate values.elements).map fun cost => (cost, candidate)

theorem mem_priced_iff {greatest cost : Nat} {candidate : Operator} :
    (cost, candidate) ∈ priced values greatest ↔
      candidate ∈ alternatives greatest ∧ encodingCost candidate values.elements = some cost := by
  simp only [priced, List.mem_filterMap, Option.map_eq_some_iff, Prod.mk.injEq]
  constructor
  · rintro ⟨other, hother, price, hprice, rfl, rfl⟩
    exact ⟨hother, hprice⟩
  · rintro ⟨hcandidate, hcost⟩
    exact ⟨candidate, hcandidate, cost, hcost, rfl, rfl⟩

theorem cheaper_le (first second : Nat × Operator) :
    (cheaper first second).1 ≤ first.1 ∧ (cheaper first second).1 ≤ second.1 := by
  unfold cheaper
  rcases Nat.lt_trichotomy second.1 first.1 with hless | hsame | hmore
  · rw [Nat.compare_eq_lt.mpr hless]
    exact ⟨hless.le, Nat.le_refl _⟩
  · split <;> omega
  · rw [Nat.compare_eq_gt.mpr hmore]
    exact ⟨Nat.le_refl _, hmore.le⟩

theorem mem_of_cheapest? {priced : List (Nat × Operator)} {best : Nat × Operator}
    (hbest : cheapest? priced = some best) : best ∈ priced := by
  cases priced with
  | nil => simp [cheapest?] at hbest
  | cons first rest =>
      obtain rfl := Option.some.inj hbest
      induction rest generalizing first with
      | nil => exact List.mem_cons_self
      | cons second rest ih =>
          rw [List.foldl_cons]
          have hchosen : cheaper first second = first ∨ cheaper first second = second := by
            unfold cheaper
            split
            · exact .inr rfl
            · exact .inl rfl
          have hrest := ih (cheaper first second) rfl
          rcases List.mem_cons.mp hrest with hbest | hbest
          · rw [hbest]
            rcases hchosen with hchosen | hchosen
            · rw [hchosen]
              exact List.mem_cons_self
            · rw [hchosen]
              exact List.mem_cons_of_mem _ List.mem_cons_self
          · exact List.mem_cons_of_mem _ (List.mem_cons_of_mem _ hbest)

theorem cheapest?_le {priced : List (Nat × Operator)} {best : Nat × Operator}
    (hbest : cheapest? priced = some best) : ∀ other ∈ priced, best.1 ≤ other.1 := by
  cases priced with
  | nil => simp
  | cons first rest =>
      obtain rfl := Option.some.inj hbest
      induction rest generalizing first with
      | nil => simp
      | cons second rest ih =>
          -- The fold goes on with the cheaper of the first two, so its result is below both.
          obtain ⟨hkept, hothers⟩ := List.forall_mem_cons.mp (ih (cheaper first second) rfl)
          obtain ⟨hfirst, hsecond⟩ := cheaper_le first second
          exact List.forall_mem_cons.mpr ⟨hkept.trans hfirst,
            List.forall_mem_cons.mpr ⟨hkept.trans hsecond, hothers⟩⟩

theorem narrow?_eq_some_iff :
    narrow? operator values = some narrowed ↔
      (operator.rank = 1 ∨ operator.rank = 2) ∧
      ∃ current greatest cost, encodingCost operator values.elements = some current ∧
        greatestValue? values = some greatest ∧
        cheapest? (priced values greatest) = some (cost, narrowed) ∧
        cost < current ∧ narrowed ≠ operator := by
  simp only [narrow?, Option.bind_eq_bind, Option.bind_eq_some_iff, Option.guard_eq_some']
  constructor
  · rintro ⟨-, hrank, current, hcurrent, greatest, hgreatest, ⟨cost, candidate⟩, hcheapest, -,
      hless, hpure⟩
    obtain rfl := Option.some.inj hpure
    exact ⟨hrank, current, greatest, cost, hcurrent, hgreatest, hcheapest, hless⟩
  · rintro ⟨hrank, current, greatest, cost, hcurrent, hgreatest, hcheapest, hless⟩
    exact ⟨(), hrank, current, hcurrent, greatest, hgreatest, (cost, narrowed), hcheapest, (),
      hless, rfl⟩

theorem greatestValue?_eq_some_iff {greatest : Nat} :
    greatestValue? values = some greatest ↔
      (∃ entry ∈ values.elements, (valueRange entry.1).2.toNat = greatest) ∧
        ∀ entry ∈ values.elements, (valueRange entry.1).2.toNat ≤ greatest := by
  rw [greatestValue?, List.max?_eq_some_iff, List.mem_map, List.forall_mem_map]

theorem vbr_mem_alternatives {width : UInt64} (hleast : 2 ≤ width.toNat) (hmost : width.toNat ≤ 32)
    (greatest : Nat) : .vbr width ∈ alternatives greatest := by
  refine List.mem_cons_of_mem _ (List.mem_map.mpr ⟨width.toNat - 2, ?_, ?_⟩)
  · rw [List.mem_range]
    omega
  · rw [Nat.sub_add_cancel hleast, UInt64.ofNat_toNat]

theorem toNat_fixedWidth {greatest : Nat} (hgreatest : greatest < 2 ^ 32) :
    (UInt64.ofNat (max (bitLength greatest) 1)).toNat = max (bitLength greatest) 1 ∧
      max (bitLength greatest) 1 ≤ 32 := by
  have hlength := bitLength_le hgreatest
  exact ⟨UInt64.toNat_ofNat_of_lt' (by rw [UInt64.size]; omega), by omega⟩

theorem exists_alternative_le {greatest : Nat} (hgreatest : greatestValue? values = some greatest)
    {other : Operator} (hother : other.IsNumeric) {price : Nat}
    (hprice : encodingCost other values.elements = some price) :
    ∃ candidate ∈ alternatives greatest, ∃ cost,
      encodingCost candidate values.elements = some cost ∧ cost ≤ price := by
  obtain ⟨⟨entry, hentry, htop⟩, hmost⟩ := greatestValue?_eq_some_iff.mp hgreatest
  rcases hother with ⟨width, rfl, hleast, hwide⟩ | ⟨width, rfl, hleast, hwide⟩
  · obtain ⟨hfits, rfl⟩ := (encodingCost_fixed hleast hwide).mp hprice
    obtain ⟨hsmall, hroom⟩ := hfits entry hentry
    rw [htop] at hsmall hroom
    obtain ⟨hnarrow, hcap⟩ := toNat_fixedWidth hsmall
    have hlength := bitLength_le hroom
    have hpower : 2 ^ bitLength greatest ≤ 2 ^ max (bitLength greatest) 1 :=
      Nat.pow_le_pow_right (by decide) (Nat.le_max_left _ _)
    have hbelow := lt_two_pow_bitLength greatest
    refine ⟨_, List.mem_cons_self, _, (encodingCost_fixed (by omega) (by omega)).mpr ⟨?_, rfl⟩, ?_⟩
    · intro other hmem
      have hle := hmost other hmem
      rw [hnarrow]
      omega
    · exact Nat.mul_le_mul_right _ (by omega)
  · exact ⟨_, vbr_mem_alternatives hleast hwide greatest, price, hprice, Nat.le_refl _⟩

/-- No field for numbers has a lower cost for the counted values. -/
def IsCheapest (operator : Operator) (values : Census ValueTally) : Prop :=
  ∃ cost, encodingCost operator values.elements = some cost ∧
    ∀ other : Operator, other.IsNumeric → ∀ price,
      encodingCost other values.elements = some price → cost ≤ price

theorem le_of_cheapest? {greatest : Nat} (hgreatest : greatestValue? values = some greatest)
    {best : Nat × Operator} (hbest : cheapest? (priced values greatest) = some best)
    {other : Operator} (hother : other.IsNumeric) {price : Nat}
    (hprice : encodingCost other values.elements = some price) : best.1 ≤ price := by
  obtain ⟨candidate, hcandidate, cost, hcost, hle⟩ := exists_alternative_le hgreatest hother hprice
  exact (cheapest?_le hbest _ (mem_priced_iff.mpr ⟨hcandidate, hcost⟩)).trans hle

theorem width_le_of_mem_alternatives {greatest cost : Nat}
    (hgreatest : greatestValue? values = some greatest) {candidate : Operator}
    (hcandidate : candidate ∈ alternatives greatest)
    (hcost : encodingCost candidate values.elements = some cost) :
    (∃ width : UInt64, candidate = .fixed width ∧ 1 ≤ width.toNat ∧ width.toNat ≤ 32) ∨
      ∃ width : UInt64, candidate = .vbr width ∧ 2 ≤ width.toNat ∧ width.toNat ≤ 32 := by
  rcases List.mem_cons.mp hcandidate with rfl | hvbr
  · obtain ⟨⟨entry, hentry, htop⟩, -⟩ := greatestValue?_eq_some_iff.mp hgreatest
    have hsmall := lt_of_scalarBits_fixed ((encodingCost_eq_some_iff.mp hcost).1 entry hentry)
    rw [htop] at hsmall
    have hwidth := toNat_fixedWidth hsmall
    exact .inl ⟨_, rfl, by omega⟩
  · obtain ⟨width, hrange, rfl⟩ := List.mem_map.mp hvbr
    rw [List.mem_range] at hrange
    have hwidth : (UInt64.ofNat (width + 2)).toNat = width + 2 :=
      UInt64.toNat_ofNat_of_lt' (by rw [UInt64.size]; omega)
    exact .inr ⟨_, rfl, by omega⟩

theorem width_le_of_narrow? (hnarrowed : narrow? operator values = some narrowed) :
    (∃ width : UInt64, narrowed = .fixed width ∧ 1 ≤ width.toNat ∧ width.toNat ≤ 32) ∨
      ∃ width : UInt64, narrowed = .vbr width ∧ 2 ≤ width.toNat ∧ width.toNat ≤ 32 := by
  obtain ⟨-, -, greatest, cost, -, hgreatest, hcheapest, -⟩ := narrow?_eq_some_iff.mp hnarrowed
  obtain ⟨hcandidate, hcost⟩ := mem_priced_iff.mp (mem_of_cheapest? hcheapest)
  exact width_le_of_mem_alternatives hgreatest hcandidate hcost

theorem isNumeric_of_narrow? (hnarrowed : narrow? operator values = some narrowed) :
    narrowed.IsNumeric := by
  rcases width_le_of_narrow? hnarrowed with ⟨width, hfixed, hleast, hmost⟩ | hvbr
  · exact .inl ⟨width, hfixed, hleast, by omega⟩
  · exact .inr hvbr

theorem exists_encodingCost_of_narrow? (hnarrowed : narrow? operator values = some narrowed) :
    ∃ cost, encodingCost narrowed values.elements = some cost := by
  obtain ⟨-, -, greatest, cost, -, -, hcheapest, -⟩ := narrow?_eq_some_iff.mp hnarrowed
  exact ⟨cost, (mem_priced_iff.mp (mem_of_cheapest? hcheapest)).2⟩

theorem isCheapest_of_narrow?_eq_none (hoperator : operator.IsNumeric)
    (hnone : narrow? operator values = none) (hvalues : values.elements ≠ [])
    (hcarries : ∀ entry ∈ values.elements, operator.Carries (valueRange entry.1).2) :
    IsCheapest operator values := by
  obtain ⟨current, hcurrent⟩ := exists_encodingCost hcarries
  obtain ⟨greatest, hgreatest⟩ : ∃ greatest, greatestValue? values = some greatest := by
    rw [← Option.isSome_iff_exists, greatestValue?, List.isSome_max?_iff]
    simpa using hvalues
  obtain ⟨candidate, hcandidate, price, hprice, -⟩ :=
    exists_alternative_le hgreatest hoperator hcurrent
  obtain ⟨⟨cost, narrowed⟩, hcheapest⟩ : ∃ best, cheapest? (priced values greatest) = some best := by
    cases hpriced : priced values greatest with
    | nil => exact absurd (mem_priced_iff.mpr ⟨hcandidate, hprice⟩) (by simp [hpriced])
    | cons first rest => exact ⟨_, rfl⟩
  have hcost := (mem_priced_iff.mp (mem_of_cheapest? hcheapest)).2
  refine ⟨current, hcurrent, fun other hother price hprice => ?_⟩
  have hle := le_of_cheapest? hgreatest hcheapest hother hprice
  -- The cheapest candidate was turned down, so it is no cheaper or it is the operator itself.
  by_contra hless
  have hsame : narrowed = operator := by
    by_contra hother
    have hrank : operator.rank = 1 ∨ operator.rank = 2 := by
      rcases hoperator with ⟨width, rfl, -⟩ | ⟨width, rfl, -⟩
      · exact .inl rfl
      · exact .inr rfl
    rw [narrow?_eq_some_iff.mpr ⟨hrank, current, greatest, cost, hcurrent, hgreatest, hcheapest,
      by omega, hother⟩] at hnone
    cases hnone
  subst hsame
  obtain rfl := Option.some.inj (hcost.symm.trans hcurrent)
  exact hless hle

end Choice

section Coverage

open Census (Counts valueKeys le_greatest)
open Bitcode.Tree (Record)

/-- The values of records at a field, as a census counts them. -/
def valuesAt (field : Nat) (records : List Record) : Census ValueTally :=
  records.foldl (Census.addValue field) {}

theorem counts_valuesAt (field : Nat) (records : List Record) :
    Counts (valueKeys field) (fun _ => ValueTally.About) records (valuesAt field records) :=
  Counts.empty.foldl (fun _ _ record hvalues => hvalues.addValue record) records

theorem carries_of_encodingCost {field : Nat} {records : List Record} {values : Census ValueTally}
    (hvalues : Counts (valueKeys field) (fun _ => ValueTally.About) records values)
    {operator : Operator} (hoperator : operator.IsNumeric) {cost : Nat}
    (hcost : encodingCost operator values.elements = some cost) {record : Record}
    (hrecord : record ∈ records) {value : UInt64} (hvalue : record.fields[field]? = some value) :
    operator.Carries value := by
  have hkey : Census.rangeIndex value ∈ valueKeys field record := by
    rw [Census.Route.mem_valueKeys_iff, hvalue]
    rfl
  obtain ⟨entry, hentry, hrange⟩ := List.mem_map.mp (hvalues.mem_keys hrecord hkey)
  have hcarries := (encodingCost_eq_some_iff.mp hcost).1 entry hentry
  rw [hrange] at hcarries
  exact hoperator.carries_of_le (le_greatest value) hcarries

end Coverage

/-- What a field is narrowed to carries all values that were counted at it, and no field for numbers
has a lower cost, where values cost as much as the greatest of their range. If a field that carries
the ranges is not narrowed, its own cost is the lowest. -/
theorem narrow?_cheapest {operator : Operator} (hoperator : operator.IsNumeric) (field : Nat)
    (records : List Tree.Record) :
    (∀ narrowed, narrow? operator (valuesAt field records) = some narrowed →
      ((∃ width : UInt64, narrowed = .fixed width ∧ 1 ≤ width.toNat ∧ width.toNat ≤ 32) ∨
        ∃ width : UInt64, narrowed = .vbr width ∧ 2 ≤ width.toNat ∧ width.toNat ≤ 32) ∧
      (∀ record ∈ records, ∀ value, record.fields[field]? = some value →
        narrowed.Carries value) ∧
      (∃ cost current, encodingCost narrowed (valuesAt field records).elements = some cost ∧
        encodingCost operator (valuesAt field records).elements = some current ∧
        cost < current) ∧
      IsCheapest narrowed (valuesAt field records)) ∧
    (narrow? operator (valuesAt field records) = none →
      (valuesAt field records).elements ≠ [] →
      (∀ entry ∈ (valuesAt field records).elements, operator.Carries (valueRange entry.1).2) →
      IsCheapest operator (valuesAt field records)) := by
  refine ⟨fun narrowed hnarrowed => ?_, isCheapest_of_narrow?_eq_none hoperator⟩
  obtain ⟨-, current, greatest, cost, hcurrent, hgreatest, hcheapest, hless, -⟩ :=
    narrow?_eq_some_iff.mp hnarrowed
  have hcost := (mem_priced_iff.mp (mem_of_cheapest? hcheapest)).2
  refine ⟨width_le_of_narrow? hnarrowed, ?_,
    ⟨cost, current, hcost, hcurrent, hless⟩, cost, hcost,
    fun _ hother _ => le_of_cheapest? hgreatest hcheapest hother⟩
  intro record hrecord value hvalue
  exact carries_of_encodingCost (counts_valuesAt field records) (isNumeric_of_narrow? hnarrowed)
    hcost hrecord hvalue

/-- Records with a small value at the first field, with none, and with two in the range up to 255. -/
def byteRecords : List Tree.Record :=
  [{ code := 7, fields := [5], row := 3, bits := 18 },
    { code := 7, fields := [150, 1], row := 3, bits := 30 },
    { code := 7, fields := [], row := 3, bits := 12 },
    { code := 7, fields := [200], row := 3, bits := 24 }]

theorem narrow?_cheapest_byteRecords :
    (narrow? (.vbr 6) (valuesAt 0 byteRecords) = some (.fixed 8) ∧
      IsCheapest (.fixed 8) (valuesAt 0 byteRecords)) ∧
    narrow? (.fixed 8) (valuesAt 0 byteRecords) = none ∧
      ∀ width : UInt64, 2 ≤ width.toNat → width.toNat ≤ 32 → ∀ price,
        encodingCost (.vbr width) (valuesAt 0 byteRecords).elements = some price → 24 ≤ price := by
  have hnarrowed : narrow? (.vbr 6) (valuesAt 0 byteRecords) = some (.fixed 8) := by decide +kernel
  have hkept : narrow? (.fixed 8) (valuesAt 0 byteRecords) = none := by decide +kernel
  refine ⟨⟨hnarrowed, ?_⟩, hkept, ?_⟩
  · exact ((narrow?_cheapest (.inr ⟨6, rfl, by decide⟩) 0 byteRecords).1 _ hnarrowed).2.2.2
  · intro width hleast hmost price hprice
    obtain ⟨cost, hcost, hlowest⟩ :=
      (narrow?_cheapest (.inl ⟨8, rfl, by decide⟩) 0 byteRecords).2 hkept (by decide +kernel)
        (by unfold Operator.Carries; decide +kernel)
    have hbits : encodingCost (.fixed 8) (valuesAt 0 byteRecords).elements = some 24 := by
      decide +kernel
    obtain rfl := Option.some.inj (hcost.symm.trans hbits)
    exact hlowest _ (.inr ⟨width, rfl, hleast, hmost⟩) price hprice

end Synthesis

end Bitcode
