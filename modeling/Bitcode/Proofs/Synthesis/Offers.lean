import Bitcode.Proofs.Synthesis.Edits

namespace Bitcode.Synthesis

open Census (BlockTally FieldTally SizeTally)

namespace Candidates

/-- Count more records for an abbreviation of a block. -/
def put (candidates : Candidates) (offer : (UInt64 × Abbrev) × Nat) : Candidates :=
  { counts := Keyed.update offer.1 0 (· + offer.2) candidates.counts }

/-- The number of records that an abbreviation of a block is proposed for. -/
def count (candidates : Candidates) (key : UInt64 × Abbrev) : Nat :=
  (candidates.counts.lookup key).getD 0

theorem count_put (candidates : Candidates) (offer : (UInt64 × Abbrev) × Nat)
    (key : UInt64 × Abbrev) :
    (candidates.put offer).count key =
      candidates.count key + if offer.1 = key then offer.2 else 0 := by
  rw [count, put, Keyed.lookup_update]
  by_cases hkey : key = offer.1
  · rw [if_pos hkey, if_pos hkey.symm, hkey]
    rfl
  · rw [if_neg hkey, if_neg (Ne.symm hkey)]
    rfl

theorem count_foldl_put (candidates : Candidates) (offers : List ((UInt64 × Abbrev) × Nat))
    (key : UInt64 × Abbrev) :
    (offers.foldl put candidates).count key =
      candidates.count key +
        (offers.map fun offer => if offer.1 = key then offer.2 else 0).sum := by
  induction offers generalizing candidates with
  | nil => rfl
  | cons offer offers ih =>
      rw [List.foldl_cons, ih, count_put, List.map_cons, List.sum_cons, Nat.add_assoc]

theorem nodup_foldl_put {candidates : Candidates}
    (hkeys : (candidates.counts.map (·.1)).Nodup) (offers : List ((UInt64 × Abbrev) × Nat)) :
    ((offers.foldl put candidates).counts.map (·.1)).Nodup := by
  induction offers generalizing candidates with
  | nil => exact hkeys
  | cons offer offers ih => exact ih (Keyed.nodup_keys_update hkeys)

theorem mem_keys_foldl_put {candidates : Candidates} {offers : List ((UInt64 × Abbrev) × Nat)}
    {key : UInt64 × Abbrev} :
    key ∈ (offers.foldl put candidates).counts.map (·.1) ↔
      key ∈ candidates.counts.map (·.1) ∨ key ∈ offers.map (·.1) := by
  induction offers generalizing candidates with
  | nil => simp
  | cons offer offers ih =>
      rw [List.foldl_cons, ih, put, Keyed.mem_keys_update, List.map_cons, List.mem_cons, or_assoc]
      exact or_left_comm

end Candidates

open Candidates (constant? put)

/-- The offer of an abbreviation, unless it cannot be defined or the table has it. -/
def offer? (table : Table) (spread : Spread) (count : Nat) : Option ((UInt64 × Abbrev) × Nat) :=
  if !spread.restore.isValid || (table.find? spread.restore).isSome then none
  else some ((table.block, spread.restore), count)

theorem propose_eq (candidates : Candidates) (table : Table) (spread : Spread) (count : Nat) :
    candidates.propose table spread count = (offer? table spread count).map candidates.put := by
  rw [Candidates.propose, offer?, apply_ite (Option.map candidates.put)]
  rfl

theorem offer?_eq_some {table : Table} {spread : Spread} {count : Nat}
    {offer : (UInt64 × Abbrev) × Nat} (hoffer : offer? table spread count = some offer) :
    offer = ((table.block, spread.restore), count) ∧ spread.restore ∉ table.ownRows := by
  unfold offer? at hoffer
  split_ifs at hoffer with hrefused
  rw [Bool.or_eq_true, not_or, Option.not_isSome_iff_eq_none] at hrefused
  exact ⟨(Option.some.inj hoffer).symm, Table.notMem_ownRows_of_find? hrefused.2⟩

namespace Leaf

/-- The offer of a constant code. -/
def codeOffer? (leaf : Leaf) (spread : Spread) : Option ((UInt64 × Abbrev) × Nat) :=
  if spread.code.isLiteral then none
  else offer? leaf.table (spread.withCode leaf.code) leaf.tally.count

/-- The offer of a constant at one field. -/
def fieldOffer? (table : Table) (spread : Spread) (entry : UInt64 × FieldTally) :
    Option ((UInt64 × Abbrev) × Nat) := do
  let operator ← spread.fields[entry.1.toNat]?
  guard (!operator.isLiteral)
  let constant ← constant? entry.2
  offer? table (spread.withConstant entry.1 constant.1) constant.2

/-- The offer of a constant field. -/
def constantOffer? (leaf : Leaf) (spread : Spread) : Option ((UInt64 × Abbrev) × Nat) :=
  (Census.rankedFields leaf.tally.fields).findSome? (fieldOffer? leaf.table spread)

/-- The offer of narrower fields. -/
def narrowedOffer? (leaf : Leaf) (spread : Spread) : Option ((UInt64 × Abbrev) × Nat) :=
  if (spread.withNarrowed leaf.tally).fields = spread.fields then none
  else offer? leaf.table (spread.withNarrowed leaf.tally) leaf.tally.count

/-- The abbreviation of the leaf, spread out to its size. -/
def spread? (leaf : Leaf) : Option Spread :=
  Spread.ofAbbrev? leaf.shape (leaf.size.toNat + 1) (Census.fieldCutoff ≤ leaf.size.toNat)

/-- All offers of the leaf. -/
def offers (leaf : Leaf) : List ((UInt64 × Abbrev) × Nat) :=
  leaf.spread?.toList.flatMap fun spread =>
    (leaf.codeOffer? spread).toList ++
      ((leaf.constantOffer? spread).toList ++ (leaf.narrowedOffer? spread).toList)

theorem foldl_toList (candidates : Candidates) (offer? : Option ((UInt64 × Abbrev) × Nat)) :
    offer?.toList.foldl put candidates = (offer?.map candidates.put).getD candidates := by
  cases offer? <;> rfl

theorem addConstant_eq (candidates : Candidates) (table : Table) (spread : Spread)
    (fields : List (UInt64 × FieldTally)) :
    Candidates.addConstant table spread fields candidates =
      (fields.findSome? (fieldOffer? table spread)).toList.foldl put candidates := by
  induction fields with
  | nil => rfl
  | cons entry fields ih =>
      obtain ⟨field, tally⟩ := entry
      have hproposal : (do
          let operator ← spread.fields[field.toNat]?
          guard (!operator.isLiteral)
          let constant ← constant? tally
          candidates.propose table (spread.withConstant field constant.1) constant.2) =
          (fieldOffer? table spread (field, tally)).map candidates.put := by
        simp only [fieldOffer?, propose_eq, Option.bind_eq_bind, Option.map_bind, Function.comp_def]
      rw [Candidates.addConstant, List.findSome?_cons]
      simp only [Spread.withConstant] at hproposal
      simp only [hproposal, ih]
      cases fieldOffer? table spread (field, tally) <;> rfl

theorem addLeaf_eq (candidates : Candidates) (leaf : Leaf) :
    candidates.addLeaf leaf = leaf.offers.foldl put candidates := by
  have hcode : ∀ spread, candidates.addCode leaf.table spread leaf.code leaf.tally.count =
      (leaf.codeOffer? spread).toList.foldl put candidates := by
    intro spread
    rw [foldl_toList, Candidates.addCode, codeOffer?]
    split
    · rfl
    · rw [propose_eq]
      rfl
  have hnarrowed : ∀ spread candidates, Candidates.addNarrowed leaf.table spread leaf.tally candidates =
      (leaf.narrowedOffer? spread).toList.foldl put candidates := by
    intro spread candidates
    rw [foldl_toList, Candidates.addNarrowed, narrowedOffer?]
    change (if (spread.withNarrowed leaf.tally).fields = spread.fields then _ else _) = _
    split
    · rfl
    · rw [← propose_eq]
      rfl
  rw [Candidates.addLeaf, offers, spread?]
  cases Spread.ofAbbrev? leaf.shape (leaf.size.toNat + 1)
      (Census.fieldCutoff ≤ leaf.size.toNat) with
  | none => rfl
  | some spread =>
      simp only [hnarrowed, addConstant_eq, hcode, Option.toList_some, List.flatMap_singleton,
        List.foldl_append, constantOffer?]

section Cases

variable {leaf : Leaf} {spread : Spread} {offer : (UInt64 × Abbrev) × Nat}

theorem codeOffer?_eq_some (hoffer : leaf.codeOffer? spread = some offer) :
    spread.code.isLiteral = false ∧
      offer? leaf.table (spread.withCode leaf.code) leaf.tally.count = some offer := by
  unfold codeOffer? at hoffer
  split_ifs at hoffer with hliteral
  exact ⟨Bool.eq_false_iff.mpr hliteral, hoffer⟩

theorem constantOffer?_eq_some (hoffer : leaf.constantOffer? spread = some offer) :
    ∃ field tally operator value count, (field, tally) ∈ leaf.tally.fields.elements ∧
      spread.fields[field.toNat]? = some operator ∧ operator.isLiteral = false ∧
      constant? tally = some (value, count) ∧
      offer? leaf.table (spread.withConstant field value) count = some offer := by
  obtain ⟨⟨field, tally⟩, hentry, hoffer⟩ := List.exists_of_findSome?_eq_some hoffer
  simp only [fieldOffer?, Option.bind_eq_bind, Option.bind_eq_some_iff, Option.guard_eq_some',
    Bool.not_eq_true'] at hoffer
  obtain ⟨operator, hoperator, -, hvariable, ⟨value, count⟩, hconstant, hoffer⟩ := hoffer
  exact ⟨field, tally, operator, value, count, Census.mem_of_mem_ranked _ _ hentry, hoperator,
    hvariable, hconstant, hoffer⟩

theorem narrowedOffer?_eq_some (hoffer : leaf.narrowedOffer? spread = some offer) :
    offer? leaf.table (spread.withNarrowed leaf.tally) leaf.tally.count = some offer := by
  unfold narrowedOffer? at hoffer
  split_ifs at hoffer
  exact hoffer

theorem mem_offers_iff :
    offer ∈ leaf.offers ↔ ∃ spread, leaf.spread? = some spread ∧
      (leaf.codeOffer? spread = some offer ∨ leaf.constantOffer? spread = some offer ∨
        leaf.narrowedOffer? spread = some offer) := by
  simp [offers]

/-- Only new abbreviations are offered. -/
theorem notMem_ownRows_of_mem_offers (hoffer : offer ∈ leaf.offers) :
    offer.1.1 = leaf.table.block ∧ offer.1.2 ∉ leaf.table.ownRows := by
  have hnew : ∀ {spread count}, offer? leaf.table spread count = some offer →
      offer.1.1 = leaf.table.block ∧ offer.1.2 ∉ leaf.table.ownRows := by
    intro spread count hsome
    obtain ⟨rfl, hnew⟩ := offer?_eq_some hsome
    exact ⟨rfl, hnew⟩
  obtain ⟨spread, -, hcode | hconstant | hnarrowed⟩ := mem_offers_iff.mp hoffer
  · exact hnew (codeOffer?_eq_some hcode).2
  · obtain ⟨_, _, _, _, _, -, -, -, -, hsome⟩ := constantOffer?_eq_some hconstant
    exact hnew hsome
  · exact hnew (narrowedOffer?_eq_some hnarrowed)

theorem edit_of_mem_offers (hoffer : offer ∈ leaf.offers) :
    ∃ spread, leaf.spread? = some spread ∧
      (offer.1.2 = (spread.withCode leaf.code).restore ∨
        offer.1.2 = (spread.withNarrowed leaf.tally).restore ∨
        ∃ field fieldTally value count, (field, fieldTally) ∈ leaf.tally.fields.elements ∧
          field.toNat < spread.fields.length ∧ constant? fieldTally = some (value, count) ∧
          offer.1.2 = (spread.withConstant field value).restore) := by
  obtain ⟨spread, hspread, hcode | hconstant | hnarrowed⟩ := mem_offers_iff.mp hoffer
  · obtain ⟨rfl, -⟩ := offer?_eq_some (codeOffer?_eq_some hcode).2
    exact ⟨spread, hspread, .inl rfl⟩
  · obtain ⟨field, tally, operator, value, count, hfield, hoperator, -, hvalue, hsome⟩ :=
      constantOffer?_eq_some hconstant
    obtain ⟨rfl, -⟩ := offer?_eq_some hsome
    exact ⟨spread, hspread, .inr (.inr ⟨field, tally, value, count, hfield,
      (List.getElem?_eq_some_iff.mp hoperator).1, hvalue, rfl⟩)⟩
  · obtain ⟨rfl, -⟩ := offer?_eq_some (narrowedOffer?_eq_some hnarrowed)
    exact ⟨spread, hspread, .inr (.inl rfl)⟩

section Distinct

variable {first second : (UInt64 × Abbrev) × Nat} (hspread : spread.Sound)

include hspread

theorem code_ne_constant (hfirst : leaf.codeOffer? spread = some first)
    (hsecond : leaf.constantOffer? spread = some second) : first.1 ≠ second.1 := by
  obtain ⟨hcode, hfirst⟩ := codeOffer?_eq_some hfirst
  obtain ⟨field, _, _, value, _, -, -, -, -, hsecond⟩ := constantOffer?_eq_some hsecond
  obtain ⟨rfl, -⟩ := offer?_eq_some hfirst
  obtain ⟨rfl, -⟩ := offer?_eq_some hsecond
  intro hsame
  exact hspread.restore_withCode_ne hcode leaf.code field value (Prod.mk.inj hsame).2

theorem code_ne_narrowed (hfirst : leaf.codeOffer? spread = some first)
    (hsecond : leaf.narrowedOffer? spread = some second) : first.1 ≠ second.1 := by
  obtain ⟨hcode, hfirst⟩ := codeOffer?_eq_some hfirst
  obtain ⟨rfl, -⟩ := offer?_eq_some hfirst
  obtain ⟨rfl, -⟩ := offer?_eq_some (narrowedOffer?_eq_some hsecond)
  intro hsame
  exact hspread.restore_withNarrowed_ne (hspread.withCode leaf.code)
    (Spread.literalCount_withCode hcode leaf.code) leaf.tally (Prod.mk.inj hsame).2

theorem constant_ne_narrowed (hfirst : leaf.constantOffer? spread = some first)
    (hsecond : leaf.narrowedOffer? spread = some second) : first.1 ≠ second.1 := by
  obtain ⟨field, _, operator, value, _, -, hoperator, hvariable, -, hfirst⟩ :=
    constantOffer?_eq_some hfirst
  obtain ⟨rfl, -⟩ := offer?_eq_some hfirst
  obtain ⟨rfl, -⟩ := offer?_eq_some (narrowedOffer?_eq_some hsecond)
  intro hsame
  exact hspread.restore_withNarrowed_ne (hspread.withConstant field value)
    (Spread.literalCount_withConstant hoperator hvariable value) leaf.tally (Prod.mk.inj hsame).2

end Distinct

theorem nodup_offers (hshape : leaf.shape.isAcceptable) : (leaf.offers.map (·.1)).Nodup := by
  cases hspread : leaf.spread? with
  | none => simp [offers, hspread]
  | some spread =>
      have hsound := Spread.sound_of_ofAbbrev? hshape hspread
      rw [List.Nodup, List.pairwise_map]
      simp only [offers, hspread, Option.toList_some, List.flatMap_singleton, List.pairwise_append,
        List.mem_append, Option.mem_toList]
      refine ⟨Option.pairwise_toList, ⟨Option.pairwise_toList, Option.pairwise_toList, ?_⟩, ?_⟩
      · intro first hfirst second hsecond
        exact constant_ne_narrowed hsound hfirst hsecond
      · rintro first hfirst second (hsecond | hsecond)
        · exact code_ne_constant hsound hfirst hsecond
        · exact code_ne_narrowed hsound hfirst hsecond

end Cases

end Leaf

end Bitcode.Synthesis
