import Bitcode.Proofs.Abbrev.Records
import Bitcode.Proofs.Table
import Bitcode.Selection.Price

namespace Bitcode

namespace Abbrev

variable {shape : Abbrev} {values : List UInt64}

theorem operatorBits_blob {head : List Operator} (hoperators : acceptableFrom (head ++ [.blob]))
    (values : List UInt64) : operatorBits (head ++ [.blob]) values = none := by
  induction head generalizing values with
  | nil => rfl
  | cons operator head ih =>
      have hscalar := isScalar_of_acceptableFrom_blob hoperators
      rw [List.cons_append, acceptableFrom_scalar hscalar, Bool.and_eq_true] at hoperators
      rw [List.cons_append]
      cases values with
      | nil => exact operatorBits_scalar_nil hscalar _
      | cons value values => simp [operatorBits_scalar hscalar, ih hoperators.2]

theorem canEncode_of_encodedBits (hshape : shape.isAcceptable)
    (hbits : (shape.encodedBits values).isSome) : shape.canEncode values := by
  rw [isAcceptable, Bool.and_eq_true] at hshape
  by_cases hblob : shape.operators.getLast? = some .blob
  · obtain ⟨head, hhead⟩ := List.getLast?_eq_some_iff.mp hblob
    rw [hhead] at hshape
    rw [encodedBits, hhead, operatorBits_blob hshape.2] at hbits
    simp at hbits
  · simp only [canEncode, beforeBlob?, hblob, if_false]
    exact hbits

end Abbrev

namespace Selection

variable {table : Table} {values : List UInt64}

theorem canEncode_of_price? {shape : Abbrev} (hshape : shape.isAcceptable)
    (hprice : (price? shape values).isSome) : shape.canEncode values := by
  unfold price? at hprice
  split at hprice
  · rename_i hbits
    exact Abbrev.canEncode_of_encodedBits hshape (Option.isSome_of_eq_some hbits)
  · split at hprice
    · assumption
    · simp at hprice

/-- A row of the table, with the price that its abbreviation has for the values. -/
def Priced (table : Table) (values : List UInt64) (priced : Nat × Nat) : Prop :=
  ∃ shape, table.get? priced.2 = some shape ∧ price? shape values = some priced.1

theorem priced_of_better {best : Option (Nat × Nat)} {bits row : Nat}
    (hbest : ∀ chosen, best = some chosen → Priced table values chosen)
    (hrow : Priced table values (bits, row)) :
    ∀ chosen, better table best bits row = some chosen → Priced table values chosen := by
  intro chosen hchosen
  unfold better at hchosen
  split at hchosen
  · obtain rfl := Option.some.inj hchosen
    exact hrow
  · split at hchosen
    · obtain rfl := Option.some.inj hchosen
      exact hrow
    · obtain rfl := Option.some.inj hchosen
      exact hbest _ rfl

theorem priced_of_bestRow? {rows : List Nat} {best : Nat × Nat}
    (hbest : bestRow? table values rows = some best) : Priced table values best := by
  refine List.foldlRecOn
    (motive := fun best : Option (Nat × Nat) =>
      ∀ chosen, best = some chosen → Priced table values chosen)
    rows _ (by simp) ?_ best hbest
  intro current hcurrent row _
  cases hprice : (table.get? row).bind (price? · values) with
  | none => exact hcurrent
  | some bits =>
      obtain ⟨shape, hshape, hbits⟩ := Option.bind_eq_some_iff.mp hprice
      exact priced_of_better hcurrent ⟨shape, hshape, hbits⟩

theorem price?_of_selectRow (hrow : selectRow table values ≠ plainRow) :
    ∃ shape bits, table.get? (selectRow table values) = some shape ∧
      price? shape values = some bits ∧ bits ≤ plainBits values := by
  unfold selectRow at hrow ⊢
  cases hnode : table.candidates? values with
  | none => simp [hnode] at hrow
  | some node =>
      cases hbest : bestRow? table values node.rows with
      | none => simp [hnode, hbest] at hrow
      | some best =>
          obtain ⟨bits, row⟩ := best
          obtain ⟨shape, hshape, hprice⟩ := priced_of_bestRow? hbest
          simp only [hnode, hbest] at hrow ⊢
          split at hrow
          · rename_i hcheap
            rw [if_pos hcheap]
            exact ⟨shape, bits, hshape, hprice, hcheap⟩
          · exact absurd rfl hrow

/-- A row that is not the plain one can encode the record that it was selected for. -/
theorem canEncode_of_selectRow (htable : table.Sound) (hrow : selectRow table values ≠ plainRow) :
    ∃ shape, table.get? (selectRow table values) = some shape ∧ shape.canEncode values := by
  obtain ⟨shape, bits, hshape, hprice, -⟩ := price?_of_selectRow hrow
  exact ⟨shape, hshape, canEncode_of_price? (htable shape (List.mem_of_getElem? hshape))
    (Option.isSome_of_eq_some hprice)⟩

end Selection

end Bitcode
