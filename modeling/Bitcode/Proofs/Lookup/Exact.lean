import Bitcode.Proofs.Lookup.Completion
import Bitcode.Proofs.Lookup.Matching

namespace Bitcode

/-- The abbreviation is for records with so many values. -/
def Abbrev.Admits (shape : Abbrev) (count : Nat) : Prop :=
  if shape.isFixedSize then shape.operators.length = count else shape.minRecordSize ≤ count

/-- The values are the constants of the abbreviation where it has some, before any array or blob. -/
def Abbrev.Agrees (shape : Abbrev) (values : List UInt64) : Prop :=
  ∀ position value, position < shape.minRecordSize →
    shape.operators[position]? = some (.literal value) → values[position]? = some value

namespace Abbrev

theorem minRecordSize_of_isFixedSize {shape : Abbrev} (hfixed : shape.isFixedSize) :
    shape.minRecordSize = shape.operators.length := by
  rw [minRecordSize, List.findIdx_eq_length]
  simpa [isFixedSize] using hfixed

theorem Admits.le {shape : Abbrev} {count : Nat} (hadmits : shape.Admits count) :
    shape.minRecordSize ≤ count := by
  unfold Admits at hadmits
  split at hadmits
  · rename_i hfixed
    exact Nat.le_of_eq ((minRecordSize_of_isFixedSize hfixed).trans hadmits)
  · exact hadmits

theorem of_operatorBits {operators : List Operator} {values : List UInt64}
    (hbits : (operatorBits operators values).isSome) :
    operators.findIdx isOpen ≤ values.length ∧
      (operators.any isOpen = false → operators.length = values.length) ∧
      ∀ position value, position < operators.findIdx isOpen →
        operators[position]? = some (.literal value) → values[position]? = some value := by
  fun_induction operatorBits operators values with
  | case1 => simp
  | case2 | case3 | case5 | case6 => simp at hbits
  | case4 values element rest =>
      have hopen : isOpen .array = true := rfl
      simp [List.findIdx_cons, hopen]
  | case7 operator rest value values hsingle harray hblob ih =>
      have hscalar : isOpen operator = false := by
        cases operator with
        | array =>
            cases rest with
            | nil => exact (hsingle rfl rfl).elim
            | cons element others => exact (harray element others rfl rfl).elim
        | blob => exact (hblob rfl).elim
        | literal | fixed | vbr | char6 => rfl
      have hfirst : (operator.scalarBits value).isSome := by
        cases hnone : operator.scalarBits value with
        | none => simp [hnone] at hbits
        | some bits => rfl
      have hothers : (operatorBits rest values).isSome := by
        cases hnone : operatorBits rest values with
        | none => simp [hnone] at hbits
        | some bits => rfl
      obtain ⟨hcount, hlength, hvalues⟩ := ih hothers
      rw [List.findIdx_cons, hscalar]
      refine ⟨by simpa using hcount, by simpa [hscalar] using hlength, ?_⟩
      intro position constant hposition hconstant
      cases position with
      | zero =>
          have hoperator : operator = .literal constant := by simpa using hconstant
          subst hoperator
          by_cases hsame : constant = value
          · simp [hsame]
          · simp [Operator.scalarBits, hsame] at hfirst
      | succ position => exact hvalues position constant (by simpa using hposition) hconstant

theorem admits_and_agrees_of_canEncode {shape : Abbrev} {values : List UInt64}
    (hencode : shape.canEncode values) : shape.Admits values.length ∧ shape.Agrees values := by
  unfold canEncode at hencode
  cases hblob : shape.beforeBlob? with
  | none =>
      rw [hblob] at hencode
      obtain ⟨hcount, hlength, hvalues⟩ := of_operatorBits hencode
      refine ⟨?_, hvalues⟩
      unfold Admits
      split
      · rename_i hfixed
        exact hlength (by simpa [isFixedSize] using hfixed)
      · exact hcount
  | some head =>
      simp only [hblob, Bool.and_eq_true, decide_eq_true_eq] at hencode
      obtain ⟨⟨hlength, hbits⟩, -⟩ := hencode
      have hoperators : shape.operators = head ++ [.blob] := by
        unfold beforeBlob? at hblob
        split at hblob
        · rename_i hlast
          obtain ⟨front, hfront⟩ := List.getLast?_eq_some_iff.mp hlast
          rw [← Option.some.inj hblob, hfront, List.dropLast_concat]
        · simp at hblob
      obtain ⟨hcount, -, hvalues⟩ := of_operatorBits hbits
      have hleast : shape.minRecordSize = head.findIdx isOpen := by
        have hopen : isOpen .blob = true := rfl
        have hle : head.findIdx isOpen ≤ head.length := List.findIdx_le_length
        rw [minRecordSize, hoperators, List.findIdx_append]
        simp only [List.findIdx_cons, hopen, cond_true]
        split <;> omega
      have hshort : (values.take head.length).length = head.length := by
        rw [List.length_take]
        omega
      constructor
      · have hnot : ¬ shape.isFixedSize := by simp [isFixedSize, hoperators, isOpen, Operator.isScalar]
        rw [Admits, if_neg hnot, hleast]
        omega
      · intro position value hposition hvalue
        rw [hleast] at hposition
        have hinside : position < head.length := by omega
        rw [hoperators, List.getElem?_append_left hinside] at hvalue
        have htaken := hvalues position value hposition hvalue
        rwa [List.getElem?_take_of_lt hinside] at htaken

end Abbrev

namespace Lookup

theorem agrees_iff {shape : Abbrev} {values : List UInt64} :
    shape.Agrees values ↔
      ∀ literal ∈ literals shape, values[literal.1]? = some literal.2 := by
  constructor
  · rintro hagrees ⟨position, value⟩ hliteral
    obtain ⟨hposition, hvalue⟩ := mem_literals.mp hliteral
    exact hagrees position value hposition hvalue
  · intro hall position value hposition hvalue
    exact hall (position, value) (mem_literals.mpr ⟨hposition, hvalue⟩)

theorem demand_eq_constant_iff {shape : Abbrev} {position : Nat} {value : UInt64} :
    demand shape position = .constant value ↔ (position, value) ∈ literals shape := by
  rw [mem_literals, demand]
  split
  · rename_i hposition
    split
    · rename_i constant hconstant
      simp [hposition, hconstant]
    · rename_i hother
      simp only [reduceCtorEq, false_iff, not_and]
      exact fun _ hvalue => hother value hvalue
  · rename_i hposition
    split <;> simp [hposition]

theorem lists_literals (shape : Abbrev) : Lists shape 0 (literals shape) :=
  ⟨pairwise_literalsFrom 0 shape.operators, fun _ _ => Nat.zero_le _,
    fun _ _ _ => demand_eq_constant_iff⟩

theorem fits_of_admits {shape : Abbrev} {values : List UInt64}
    (hadmits : shape.Admits values.length) : Fits shape values := by
  have hleast := hadmits.le
  constructor
  · intro position value hdemand
    have hposition := (mem_literals.mp (demand_eq_constant_iff.mp hdemand)).1
    omega
  · intro position hdemand
    unfold demand at hdemand
    split at hdemand
    · split at hdemand <;> simp at hdemand
    · rename_i hposition
      split at hdemand
      · rename_i hfixed
        rw [Abbrev.Admits, if_pos hfixed, ← Abbrev.minRecordSize_of_isFixedSize hfixed] at hadmits
        exact List.getElem?_eq_none (by omega)
      · simp at hdemand

theorem keyFor_mem_keysOf {shape : Abbrev} {count : Nat} (hadmits : shape.Admits count) :
    keyFor count ∈ keysOf shape := by
  have hleast := hadmits.le
  rw [mem_keysOf]
  unfold Abbrev.Admits at hadmits
  simp only [keyFor]
  split at hadmits
  · rename_i hfixed
    rw [if_pos hfixed, Abbrev.minRecordSize_of_isFixedSize hfixed]
    omega
  · rename_i hfixed
    rw [if_neg hfixed]
    omega

namespace Index

section Rows

variable {index : Index} {values : List UInt64} {key : Nat}

/-- Record each row in the tries that its abbreviation belongs to. -/
def recordAll (numbered : List (Nat × Abbrev)) (index : Index) : Index :=
  numbered.foldl (fun index (row, shape) => index.modify shape (·.insert row shape)) index

/-- The tries can be searched: positions ascend along their paths, and they are closed under all the
abbreviations. -/
structure Searchable (index : Index) (numbered : List (Nat × Abbrev)) : Prop where
  ordered : index.Ordered
  starts : ∀ key, (index.trieAt key).edges.From 0
  closed : ∀ entry ∈ numbered, index.ClosedUnder entry.2

theorem Searchable.record {numbered : List (Nat × Abbrev)} (hindex : index.Searchable numbered)
    (row : Nat) (shape : Abbrev) :
    (index.modify shape (·.insert row shape)).Searchable numbered := by
  have halike : ∀ key, (index.trieAt key).edges.Alike
      ((index.modify shape (·.insert row shape)).trieAt key).edges := by
    intro key
    rw [trieAt_modify hindex.ordered]
    split
    · exact Forest.alike_insert row shape _
    · exact Forest.Alike.refl _
  exact ⟨hindex.ordered.modify, fun key => (halike key).starts (hindex.starts key),
    fun entry hentry key hkey => (halike key).closed (hindex.closed entry hentry key hkey)⟩

theorem mem_follow_record_of_ne {row other : Nat} {shape : Abbrev} (hordered : index.Ordered)
    (hother : other ≠ row) :
    other ∈ (((index.modify shape (·.insert row shape)).trieAt key).follow values).rows ↔
      other ∈ ((index.trieAt key).follow values).rows := by
  rw [trieAt_modify hordered]
  split
  · exact Forest.mem_rows_follow_insert_of_ne hother (Forest.mem_recorded hother) _
  · exact Iff.rfl

theorem mem_follow_recordAll_of_notMem {row : Nat} {numbered : List (Nat × Abbrev)}
    (hordered : index.Ordered) (hrow : row ∉ numbered.map (·.1)) :
    row ∈ (((recordAll numbered index).trieAt key).follow values).rows ↔
      row ∈ ((index.trieAt key).follow values).rows := by
  induction numbered generalizing index with
  | nil => exact Iff.rfl
  | cons entry numbered ih =>
      rw [List.map_cons, List.mem_cons, not_or] at hrow
      exact (ih hordered.modify hrow.2).trans (mem_follow_record_of_ne hordered hrow.1)

theorem mem_follow_record {row : Nat} {shape : Abbrev} {numbered : List (Nat × Abbrev)}
    (hindex : index.Searchable numbered) (hshape : (row, shape) ∈ numbered)
    (hkey : key ∈ keysOf shape) (hfits : Fits shape values) :
    row ∈ (((index.modify shape (·.insert row shape)).trieAt key).follow values).rows ↔
      row ∈ ((index.trieAt key).follow values).rows ∨ shape.Agrees values := by
  have hrecorded : Forest.RecordedIff row shape values (index.trieAt key).edges
      (∀ literal ∈ literals shape, values[literal.1]? = some literal.2) :=
    Forest.recordedIff_of_closed hfits (hindex.starts key)
      (hindex.closed (row, shape) hshape key hkey) (lists_literals shape)
  rw [trieAt_modify hindex.ordered, if_pos hkey, agrees_iff]
  exact hrecorded (index.trieAt key) _ rfl

theorem mem_follow_recordAll {row : Nat} {shape : Abbrev} {numbered all : List (Nat × Abbrev)}
    (hindex : index.Searchable all) (hall : ∀ entry ∈ numbered, entry ∈ all)
    (hrows : (numbered.map (·.1)).Nodup) (hshape : (row, shape) ∈ numbered)
    (hkey : key ∈ keysOf shape) (hfits : Fits shape values) :
    row ∈ (((recordAll numbered index).trieAt key).follow values).rows ↔
      row ∈ ((index.trieAt key).follow values).rows ∨ shape.Agrees values := by
  induction numbered generalizing index with
  | nil => simp at hshape
  | cons entry numbered ih =>
      rw [List.map_cons, List.nodup_cons] at hrows
      obtain ⟨hfirst, hrest⟩ := hrows
      have hothers : ∀ entry ∈ numbered, entry ∈ all :=
        fun other hother => hall other (List.mem_cons_of_mem _ hother)
      change row ∈ (((recordAll numbered
        (index.modify entry.2 (·.insert entry.1 entry.2))).trieAt key).follow values).rows ↔ _
      rcases List.mem_cons.mp hshape with rfl | hshape
      · rw [mem_follow_recordAll_of_notMem hindex.ordered.modify hfirst]
        exact mem_follow_record hindex (hall _ List.mem_cons_self) hkey hfits
      · have hne : row ≠ entry.1 := by
          intro heq
          exact hfirst (heq ▸ List.mem_map_of_mem hshape)
        rw [ih (hindex.record entry.1 entry.2) hothers hrest hshape,
          mem_follow_record_of_ne hindex.ordered hne]

theorem trieAt_complete_induction (motive : Trie → Prop) (hempty : motive {})
    (hadd : ∀ trie shape, motive trie → motive (trie.add shape)) (shapes : List Abbrev)
    (rounds : Nat) : ∀ key, motive ((complete shapes rounds {}).trieAt key) := by
  have hround : ∀ (shapes : List Abbrev) (index : Index), index.Ordered →
      (∀ key, motive (index.trieAt key)) → ∀ key, motive ((addAll shapes index).trieAt key) := by
    intro shapes
    induction shapes with
    | nil => exact fun index _ hindex => hindex
    | cons shape shapes ih =>
        intro index hordered hindex
        refine ih (index.add shape) (hordered.add shape) ?_
        intro key
        rw [add, trieAt_modify hordered]
        split
        · exact hadd _ _ (hindex key)
        · exact hindex key
  have hrounds : ∀ (index : Index), index.Ordered → (∀ key, motive (index.trieAt key)) →
      ∀ key, motive ((complete shapes rounds index).trieAt key) := by
    induction rounds with
    | zero => exact fun index _ hindex => hindex
    | succ rounds ih =>
        intro index hordered hindex
        rw [complete_succ]
        split
        · exact hround shapes index hordered hindex
        · exact ih _ (hordered.addAll shapes) (hround shapes index hordered hindex)
  exact hrounds {} ordered_empty fun _ => hempty

end Rows

/-- The rows found for a record. -/
def rowsFor (index : Index) (values : List UInt64) : List Nat :=
  ((index.follow? values).map (·.rows)).getD []

theorem rowsFor_eq (index : Index) (values : List UInt64) :
    index.rowsFor values = ((index.trieAt (keyFor values.length)).follow values).rows := by
  unfold rowsFor follow? trieAt
  cases index.get? (keyFor values.length) <;> rfl

/-- The abbreviations from a row on, each with its row. -/
def numberedFrom (abbrevs : List Abbrev) (first : Nat) : List (Nat × Abbrev) :=
  (abbrevs.zipIdx.drop first).map fun (shape, row) => (row, shape)

theorem mem_numberedFrom {abbrevs : List Abbrev} {first row : Nat} {shape : Abbrev}
    (hrow : first ≤ row) (hshape : abbrevs[row]? = some shape) :
    (row, shape) ∈ numberedFrom abbrevs first := by
  refine List.mem_map.mpr ⟨(shape, row), ?_, rfl⟩
  refine List.mem_of_getElem? (i := row - first) ?_
  rw [List.getElem?_drop, List.getElem?_zipIdx, show first + (row - first) = row by omega, hshape]
  simp

theorem map_fst_numberedFrom (abbrevs : List Abbrev) (first : Nat) :
    (numberedFrom abbrevs first).map (·.1) = (List.range' 0 abbrevs.length).drop first := by
  have hrows : (numberedFrom abbrevs first).map (·.1) = (abbrevs.zipIdx.map (·.2)).drop first := by
    rw [numberedFrom, List.map_map, List.map_drop]
    rfl
  have hall : abbrevs.zipIdx.map (·.2) = List.range' 0 abbrevs.length := List.zipIdx_map_snd 0 abbrevs
  rw [hrows, hall]

theorem nodup_numberedFrom (abbrevs : List Abbrev) (first : Nat) :
    ((numberedFrom abbrevs first).map (·.1)).Nodup := by
  rw [map_fst_numberedFrom]
  exact List.Nodup.sublist (List.drop_sublist _ _) List.nodup_range'

theorem searchable_complete (numbered : List (Nat × Abbrev)) :
    (complete (numbered.map (·.2)) (roundBound (numbered.map (·.2))) {}).Searchable numbered := by
  refine ⟨ordered_empty.complete _ _, ?_, ?_⟩
  · refine trieAt_complete_induction (fun trie => trie.edges.From 0) trivial ?_ _ _
    intro trie shape htrie
    exact htrie.add (pairwise_literalsFrom 0 shape.operators) fun _ _ => Nat.zero_le _
  · intro entry hentry
    exact closedUnder_complete_roundBound (List.mem_map_of_mem hentry)

theorem bare_complete (shapes : List Abbrev) (rounds : Nat) :
    ∀ key, ((complete shapes rounds {}).trieAt key).rows = [] ∧
      ((complete shapes rounds {}).trieAt key).edges.Bare := by
  refine trieAt_complete_induction (fun trie => trie.rows = [] ∧ trie.edges.Bare) ⟨rfl, trivial⟩
    ?_ _ _
  rintro trie shape ⟨hrows, hedges⟩
  exact ⟨hrows, hedges.add _⟩

theorem rows_follow_complete (shapes : List Abbrev) (rounds key : Nat) (values : List UInt64) :
    (((complete shapes rounds {}).trieAt key).follow values).rows = [] := by
  obtain ⟨hrows, hbare⟩ := bare_complete shapes rounds key
  exact hbare.rows_follow values hrows

end Index

/-- The lookup is exact, and misses no abbreviation that can encode the record. -/
theorem mem_rowsFor_iff {abbrevs : List Abbrev} {first row : Nat} {shape : Abbrev}
    (values : List UInt64) (hrow : first ≤ row) (hshape : abbrevs[row]? = some shape) :
    (shape.Admits values.length →
      (row ∈ (Index.ofRows abbrevs first).rowsFor values ↔ shape.Agrees values)) ∧
    (shape.canEncode values → row ∈ (Index.ofRows abbrevs first).rowsFor values) := by
  have hexact : shape.Admits values.length →
      (row ∈ (Index.ofRows abbrevs first).rowsFor values ↔ shape.Agrees values) := by
    intro hadmits
    have hsearch := Index.searchable_complete (Index.numberedFrom abbrevs first)
    have hfound := Index.mem_follow_recordAll hsearch (fun _ hentry => hentry)
      (Index.nodup_numberedFrom abbrevs first) (Index.mem_numberedFrom hrow hshape)
      (keyFor_mem_keysOf hadmits) (fits_of_admits hadmits)
    rw [Index.rows_follow_complete] at hfound
    rw [Index.rowsFor_eq]
    exact hfound.trans (or_iff_right List.not_mem_nil)
  refine ⟨hexact, ?_⟩
  intro hencode
  obtain ⟨hadmits, hagrees⟩ := Abbrev.admits_and_agrees_of_canEncode hencode
  exact (hexact hadmits).mpr hagrees

/-- Three abbreviations, the second with a constant behind a field that the third has constant. -/
def sampleRows : List Abbrev :=
  [⟨[.literal 9]⟩, ⟨[.fixed 3, .literal 5, .array, .char6]⟩, ⟨[.literal 1, .vbr 6, .literal 7]⟩]

theorem mem_rowsFor_sampleRows :
    1 ∈ (Index.ofRows sampleRows 1).rowsFor [1, 5, 7] ∧
      1 ∉ (Index.ofRows sampleRows 1).rowsFor [1, 6, 7] := by
  have hadmits : (⟨[.fixed 3, .literal 5, .array, .char6]⟩ : Abbrev).Admits 3 := by
    unfold Abbrev.Admits
    decide
  constructor
  · refine ((mem_rowsFor_iff [1, 5, 7] (by decide) rfl).1 hadmits).mpr ?_
    rw [agrees_iff]
    decide
  · rw [(mem_rowsFor_iff [1, 6, 7] (by decide) rfl).1 hadmits, agrees_iff]
    decide

end Lookup

end Bitcode
