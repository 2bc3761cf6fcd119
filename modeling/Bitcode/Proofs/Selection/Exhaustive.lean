import Bitcode.Proofs.Lookup.Order
import Bitcode.Proofs.Selection.Rows

/-!
Selection is exhaustive. Only the rows of one node are priced, and a running best is kept of them, but
the row selected is the best of all the rows that can encode the record.
-/

namespace Bitcode.Selection

/-- The price of a record under an abbreviation is its size. With a blob at the end it is the size of
the values before the blob, and an estimate for the blob. -/
def Costs (shape : Abbrev) (values : List UInt64) (bits : Nat) : Prop :=
  shape.encodedBits values = some bits ∨
    ∃ head before, shape.operators = head ++ [.blob] ∧
      Abbrev.operatorBits head (values.take head.length) = some before ∧
      bits = before + blobBits (values.length - head.length)

/-- A row after the reserved ones can encode the values, at a price. -/
def Offers (table : Table) (values : List UInt64) (row bits : Nat) : Prop :=
  firstRow ≤ row ∧
    ∃ shape, table.get? row = some shape ∧ shape.canEncode values ∧ Costs shape values bits

/-- Lower prices come first, then synthesized rows, and then lower rows. -/
def rank (table : Table) (bits row : Nat) : ℕ ×ₗ ℕ ×ₗ ℕ :=
  toLex (bits, toLex (if table.isSynthesized row then 0 else 1, row))

/-- The offer that comes first of all. -/
def IsBest (table : Table) (values : List UInt64) (row bits : Nat) : Prop :=
  Offers table values row bits ∧
    ∀ other price, Offers table values other price → rank table bits row ≤ rank table price other

section Price

variable {shape : Abbrev} {values : List UInt64} {bits : Nat}

theorem price?_eq_some_iff (hshape : shape.isAcceptable) :
    price? shape values = some bits ↔ shape.canEncode values ∧ Costs shape values bits := by
  cases hsize : shape.encodedBits values with
  | some size =>
      have hencode := Abbrev.canEncode_of_encodedBits hshape (Option.isSome_of_eq_some hsize)
      have hprice : price? shape values = some size := by simp only [price?, hsize]
      rw [hprice]
      constructor
      · rintro ⟨⟩
        exact ⟨hencode, .inl hsize⟩
      · rintro ⟨-, hcosts | ⟨head, before, hoperators, -⟩⟩
        · exact hsize.symm.trans hcosts
        · rw [Abbrev.isAcceptable, hoperators, Bool.and_eq_true] at hshape
          rw [Abbrev.encodedBits, hoperators, Abbrev.operatorBits_blob hshape.2] at hsize
          simp at hsize
  | none =>
      simp only [price?, hsize, Option.ite_none_right_eq_some, Option.map_eq_some_iff]
      constructor
      · rintro ⟨hencode, before, hbefore, hbits⟩
        refine ⟨hencode, .inr ⟨shape.operators.dropLast, before, ?_, hbefore, hbits.symm⟩⟩
        -- Without a blob at the end the record would have a size.
        by_contra hlast
        have hblob : shape.operators.getLast? ≠ some .blob := by
          intro hblob
          obtain ⟨head, hhead⟩ := List.getLast?_eq_some_iff.mp hblob
          rw [hhead, List.dropLast_concat] at hlast
          exact hlast rfl
        simp [Abbrev.canEncode, Abbrev.beforeBlob?, hblob, hsize] at hencode
      · rintro ⟨hencode, hcosts | ⟨head, before, hoperators, hbefore, rfl⟩⟩
        · simp [hsize] at hcosts
        · rw [hoperators, List.dropLast_concat]
          exact ⟨hencode, before, hbefore, rfl⟩

end Price

variable {table : Table} {values : List UInt64}

/-- The price of the values in a row. -/
def priceAt? (table : Table) (values : List UInt64) (row : Nat) : Option Nat :=
  (table.get? row).bind (price? · values)

theorem offers_iff {row bits : Nat} (hrows : ∀ shape ∈ table.ownRows, shape.isAcceptable)
    (hrow : firstRow ≤ row) :
    Offers table values row bits ↔ priceAt? table values row = some bits := by
  have hacceptable : ∀ shape, table.get? row = some shape → shape.isAcceptable := by
    intro shape hshape
    refine hrows shape (List.mem_of_getElem? (i := row - firstRow) ?_)
    rw [Table.ownRows, List.getElem?_drop, show firstRow + (row - firstRow) = row by omega]
    exact hshape
  rw [priceAt?, Option.bind_eq_some_iff]
  constructor
  · rintro ⟨-, shape, hshape, hcosts⟩
    exact ⟨shape, hshape, (price?_eq_some_iff (hacceptable shape hshape)).mpr hcosts⟩
  · rintro ⟨shape, hshape, hprice⟩
    exact ⟨hrow, shape, hshape, (price?_eq_some_iff (hacceptable shape hshape)).mp hprice⟩

section RunningBest

theorem rank_lt_iff {bits row bestBits bestRow : Nat} (hrow : bestRow < row) :
    rank table bits row < rank table bestBits bestRow ↔
      bits < bestBits ∨
        (bits = bestBits ∧ table.isSynthesized row ∧ !table.isSynthesized bestRow) := by
  simp only [rank, Prod.Lex.toLex_lt_toLex]
  cases table.isSynthesized row <;> cases table.isSynthesized bestRow <;> simp <;> omega

theorem better_eq {bits row bestBits bestRow : Nat} (hrow : bestRow < row) :
    better table (some (bestBits, bestRow)) bits row =
      if rank table bits row < rank table bestBits bestRow then some (bits, row)
      else some (bestBits, bestRow) := by
  unfold better
  simp only [rank_lt_iff hrow]

/-- The priced row of a list that comes first. -/
structure Leads (table : Table) (values : List UInt64) (rows : List Nat) (bits row : Nat) :
    Prop where
  mem : row ∈ rows
  price : priceAt? table values row = some bits
  le : ∀ other ∈ rows, ∀ price, priceAt? table values other = some price →
    rank table bits row ≤ rank table price other

theorem bestRow?_concat_none {rows : List Nat} {row : Nat}
    (hprice : priceAt? table values row = none) :
    bestRow? table values (rows ++ [row]) = bestRow? table values rows := by
  rw [priceAt?] at hprice
  simp [bestRow?, List.foldl_append, hprice]

theorem bestRow?_concat_some {rows : List Nat} {row bits : Nat}
    (hprice : priceAt? table values row = some bits) :
    bestRow? table values (rows ++ [row]) =
      better table (bestRow? table values rows) bits row := by
  rw [priceAt?] at hprice
  simp [bestRow?, List.foldl_append, hprice]

theorem priceAt?_eq_none_of_bestRow? {rows : List Nat} (hbest : bestRow? table values rows = none) :
    ∀ row ∈ rows, priceAt? table values row = none := by
  induction rows using List.reverseRecOn with
  | nil => simp
  | append_singleton rows last ih =>
      cases hprice : priceAt? table values last with
      | none =>
          rw [bestRow?_concat_none hprice] at hbest
          intro row hrow
          rcases List.mem_append.mp hrow with hrow | hrow
          · exact ih hbest row hrow
          · rwa [List.mem_singleton.mp hrow]
      | some bits =>
          rw [bestRow?_concat_some hprice] at hbest
          unfold better at hbest
          split at hbest
          · simp at hbest
          · split at hbest <;> simp at hbest

theorem Leads.concat {rows : List Nat} {bits row last : Nat} (hleads : Leads table values rows bits row)
    (hlast : ∀ price, priceAt? table values last = some price →
      rank table bits row ≤ rank table price last) :
    Leads table values (rows ++ [last]) bits row := by
  refine ⟨List.mem_append_left _ hleads.mem, hleads.price, ?_⟩
  intro other hother price hprice
  rcases List.mem_append.mp hother with hother | hother
  · exact hleads.le other hother price hprice
  · obtain rfl := List.mem_singleton.mp hother
    exact hlast price hprice

theorem leads_last {rows : List Nat} {bits last : Nat}
    (hprice : priceAt? table values last = some bits)
    (hle : ∀ other ∈ rows, ∀ price, priceAt? table values other = some price →
      rank table bits last ≤ rank table price other) :
    Leads table values (rows ++ [last]) bits last := by
  refine ⟨by simp, hprice, ?_⟩
  intro other hother price hotherPrice
  rcases List.mem_append.mp hother with hother | hother
  · exact hle other hother price hotherPrice
  · obtain rfl := List.mem_singleton.mp hother
    rw [hprice] at hotherPrice
    rw [Option.some.inj hotherPrice]

theorem leads_of_bestRow? {rows : List Nat} {bits row : Nat} (hascending : rows.Pairwise (· < ·))
    (hbest : bestRow? table values rows = some (bits, row)) : Leads table values rows bits row := by
  induction rows using List.reverseRecOn generalizing bits row with
  | nil => simp [bestRow?] at hbest
  | append_singleton rows last ih =>
      rw [List.pairwise_append] at hascending
      obtain ⟨hrows, -, hlater⟩ := hascending
      cases hprice : priceAt? table values last with
      | none =>
          rw [bestRow?_concat_none hprice] at hbest
          refine (ih hrows hbest).concat ?_
          intro price hsome
          simp [hprice] at hsome
      | some price =>
          rw [bestRow?_concat_some hprice] at hbest
          cases hbefore : bestRow? table values rows with
          | none =>
              rw [hbefore] at hbest
              obtain ⟨rfl, rfl⟩ : price = bits ∧ last = row := by simpa [better] using hbest
              apply leads_last hprice
              intro other hother otherPrice hotherPrice
              rw [priceAt?_eq_none_of_bestRow? hbefore other hother] at hotherPrice
              simp at hotherPrice
          | some best =>
              obtain ⟨bestBits, bestRow⟩ := best
              have hleads := ih hrows hbefore
              have hlower : bestRow < last := hlater bestRow hleads.mem last (by simp)
              rw [hbefore, better_eq hlower] at hbest
              split at hbest
              · rename_i hless
                obtain ⟨rfl, rfl⟩ : price = bits ∧ last = row := by simpa using hbest
                apply leads_last hprice
                intro other hother otherPrice hotherPrice
                exact hless.le.trans (hleads.le other hother otherPrice hotherPrice)
              · rename_i hnotLess
                obtain ⟨rfl, rfl⟩ : bestBits = bits ∧ bestRow = row := by simpa using hbest
                refine hleads.concat ?_
                intro otherPrice hotherPrice
                rw [hprice] at hotherPrice
                rw [← Option.some.inj hotherPrice]
                exact not_lt.mp hnotLess

end RunningBest

section Select

theorem selectRow_of_none (hbest : bestRow? table values (table.lookup.rowsFor values) = none) :
    selectRow table values = plainRow := by
  unfold selectRow Table.candidates?
  unfold Lookup.Index.rowsFor at hbest
  cases hnode : table.lookup.follow? values with
  | none => rfl
  | some node =>
      rw [hnode] at hbest
      simp only [Option.map_some, Option.getD_some] at hbest
      simp only [hbest]

theorem selectRow_of_some {bits row : Nat}
    (hbest : bestRow? table values (table.lookup.rowsFor values) = some (bits, row)) :
    selectRow table values = if bits ≤ plainBits values then row else plainRow := by
  unfold selectRow Table.candidates?
  unfold Lookup.Index.rowsFor at hbest
  cases hnode : table.lookup.follow? values with
  | none => simp [hnode, bestRow?] at hbest
  | some node =>
      rw [hnode] at hbest
      simp only [Option.map_some, Option.getD_some] at hbest
      simp only [hbest]

theorem le_of_rank_le {bits row price other : Nat}
    (hrank : rank table bits row ≤ rank table price other) : bits ≤ price := by
  rcases Prod.Lex.toLex_le_toLex.mp hrank with hless | ⟨hsame, -⟩
  · exact Nat.le_of_lt hless
  · exact Nat.le_of_eq hsame

theorem eq_of_rank_eq {bits row price other : Nat}
    (hrank : rank table bits row = rank table price other) : row = other := by
  have hpair := toLex.injective hrank
  exact congrArg Prod.snd (toLex.injective (congrArg Prod.snd hpair))

theorem IsBest.eq {row bits other price : Nat} (hrow : IsBest table values row bits)
    (hother : IsBest table values other price) : row = other :=
  eq_of_rank_eq (le_antisymm (hrow.2 other price hother.1) (hother.2 row bits hrow.1))

theorem offers_iff_mem (hrows : ∀ shape ∈ table.ownRows, shape.isAcceptable)
    (hlookup : table.lookup = .ofRows table.rows firstRow) {row bits : Nat} :
    Offers table values row bits ↔
      row ∈ table.lookup.rowsFor values ∧ priceAt? table values row = some bits := by
  rw [hlookup]
  constructor
  · intro hoffers
    refine ⟨?_, (offers_iff hrows hoffers.1).mp hoffers⟩
    obtain ⟨hrow, shape, hshape, hencode, -⟩ := hoffers
    exact Lookup.Index.mem_rowsFor_of_canEncode hrow hshape hencode
  · rintro ⟨hrow, hprice⟩
    exact (offers_iff hrows (Lookup.Index.le_of_mem_rowsFor hrow)).mpr hprice

theorem isBest_of_bestRow? (hrows : ∀ shape ∈ table.ownRows, shape.isAcceptable)
    (hlookup : table.lookup = .ofRows table.rows firstRow) {bits row : Nat}
    (hbest : bestRow? table values (table.lookup.rowsFor values) = some (bits, row)) :
    IsBest table values row bits := by
  have hascending : (table.lookup.rowsFor values).Pairwise (· < ·) := by
    rw [hlookup]
    exact Lookup.Index.pairwise_rowsFor _ _ _
  have hleads := leads_of_bestRow? hascending hbest
  refine ⟨(offers_iff_mem hrows hlookup).mpr ⟨hleads.mem, hleads.price⟩, ?_⟩
  intro other price hoffers
  obtain ⟨hother, hprice⟩ := (offers_iff_mem hrows hlookup).mp hoffers
  exact hleads.le other hother price hprice

end Select

/-- A record is written with the best of all the rows that can encode it, if that is no dearer than
to write it without an abbreviation. -/
theorem selectRow_eq_iff (hrows : ∀ shape ∈ table.ownRows, shape.isAcceptable)
    (hlookup : table.lookup = .ofRows table.rows firstRow) (values : List UInt64) (row : Nat) :
    selectRow table values = row ↔
      (∃ bits, IsBest table values row bits ∧ bits ≤ plainBits values) ∨
      (row = plainRow ∧ ∀ other bits, Offers table values other bits → plainBits values < bits) := by
  cases hbest : bestRow? table values (table.lookup.rowsFor values) with
  | none =>
      have hnone : ∀ other bits, ¬ Offers table values other bits := by
        intro other bits hoffers
        obtain ⟨hother, hprice⟩ := (offers_iff_mem hrows hlookup).mp hoffers
        rw [priceAt?_eq_none_of_bestRow? hbest other hother] at hprice
        simp at hprice
      rw [selectRow_of_none hbest]
      constructor
      · rintro rfl
        exact .inr ⟨rfl, fun other bits hoffers => (hnone other bits hoffers).elim⟩
      · rintro (⟨bits, hrow, -⟩ | ⟨rfl, -⟩)
        · exact (hnone row bits hrow.1).elim
        · rfl
  | some best =>
      obtain ⟨bits, best⟩ := best
      have hisBest := isBest_of_bestRow? hrows hlookup hbest
      rw [selectRow_of_some hbest]
      split
      · rename_i hcheap
        constructor
        · rintro rfl
          exact .inl ⟨bits, hisBest, hcheap⟩
        · rintro (⟨price, hrow, -⟩ | ⟨-, hdear⟩)
          · exact hisBest.eq hrow
          · exact absurd (hdear best bits hisBest.1) (Nat.not_lt.mpr hcheap)
      · rename_i hdear
        constructor
        · rintro rfl
          refine .inr ⟨rfl, fun other price hoffers => ?_⟩
          exact Nat.lt_of_lt_of_le (Nat.not_le.mp hdear) (le_of_rank_le (hisBest.2 _ _ hoffers))
        · rintro (⟨price, hrow, hcheap⟩ | ⟨rfl, -⟩)
          · exact absurd ((le_of_rank_le (hisBest.2 _ _ hrow.1)).trans hcheap) hdear
          · rfl

/-- Two rows with one price for a record, the second of them synthesized. -/
def tiedTable : Table :=
  Table.buildLookup
    { block := 8
      rows := List.replicate firstRow anyRecord ++
        [⟨[.literal 1, .vbr 6]⟩, ⟨[.literal 1, .fixed 6]⟩, ⟨[.fixed 3, .fixed 6]⟩]
      firstSynthesized := some 5 }

theorem selectRow_tiedTable :
    (∀ shape ∈ tiedTable.ownRows, shape.isAcceptable) ∧
      (∃ bits, IsBest tiedTable [1, 5] 5 bits ∧ bits ≤ plainBits [1, 5]) ∧
      (∃ bits, IsBest tiedTable [1, 70] 4 bits ∧ bits ≤ plainBits [1, 70]) ∧
      (∀ other bits, Offers tiedTable [9, 5] other bits → plainBits [9, 5] < bits) := by
  have hrows : ∀ shape ∈ tiedTable.ownRows, shape.isAcceptable := by decide
  refine ⟨hrows, ?_, ?_, ?_⟩
  · rcases (selectRow_eq_iff hrows rfl [1, 5] 5).mp (by decide) with hbest | ⟨hplain, -⟩
    · exact hbest
    · simp [plainRow] at hplain
  · rcases (selectRow_eq_iff hrows rfl [1, 70] 4).mp (by decide) with hbest | ⟨hplain, -⟩
    · exact hbest
    · simp [plainRow] at hplain
  · rcases (selectRow_eq_iff hrows rfl [9, 5] plainRow).mp (by decide) with ⟨bits, hbest, -⟩ | hplain
    · exact absurd hbest.1.1 (by decide)
    · exact hplain.2

end Bitcode.Selection
