import Bitcode.Proofs.Synthesis.Narrowing
import Bitcode.Proofs.Table
import Bitcode.Synthesis.Candidates

namespace Bitcode

open Format

/-- The operator stands for one value, and has a valid width. -/
def Operator.IsField (operator : Operator) : Prop :=
  operator.isScalar ∧ operator.hasValidWidth

namespace Synthesis

theorem takeOperators_sound {count : Nat} {operators taken left : List Operator}
    (hoperators : Abbrev.acceptableFrom operators)
    (htake : takeOperators count operators = some (taken, left)) :
    (∀ operator ∈ taken, operator.IsField) ∧ Abbrev.acceptableFrom left := by
  fun_induction takeOperators count operators generalizing taken left with
  | case1 operators =>
      obtain ⟨rfl, rfl⟩ := Prod.mk.inj (Option.some.inj htake)
      exact ⟨by simp, hoperators⟩
  | case2 | case3 => simp at htake
  | case4 count element rest ih =>
      obtain ⟨⟨others, remaining⟩, hothers, htake⟩ := Option.bind_eq_some_iff.mp htake
      obtain ⟨rfl, rfl⟩ := Prod.mk.inj (Option.some.inj htake)
      obtain ⟨hfields, hleft⟩ := ih hoperators hothers
      refine ⟨?_, hleft⟩
      have helement : element.IsField := by
        cases rest with
        | nil =>
            simp only [Abbrev.acceptableFrom, Operator.isElement, Bool.and_eq_true] at hoperators
            exact ⟨hoperators.1.1, hoperators.2⟩
        | cons other rest => simp [Abbrev.acceptableFrom] at hoperators
      intro operator hoperator
      rcases List.mem_cons.mp hoperator with rfl | hoperator
      · exact helement
      · exact hfields operator hoperator
  | case5 => simp at htake
  | case6 count operator rest hsingle hpair hblob ih =>
      obtain ⟨⟨others, remaining⟩, hothers, htake⟩ := Option.bind_eq_some_iff.mp htake
      obtain ⟨rfl, rfl⟩ := Prod.mk.inj (Option.some.inj htake)
      have harray : operator ≠ .array := by
        intro heq
        cases rest with
        | nil => exact hsingle heq rfl
        | cons element rest => exact hpair element rest heq rfl
      have hscalar : operator.isScalar := Abbrev.isScalar_of_ne harray fun heq => hblob heq
      rw [Abbrev.acceptableFrom_scalar hscalar, Bool.and_eq_true] at hoperators
      obtain ⟨hfields, hleft⟩ := ih hoperators.2 hothers
      refine ⟨?_, hleft⟩
      intro other hother
      rcases List.mem_cons.mp hother with rfl | hother
      · exact ⟨hscalar, hoperators.1⟩
      · exact hfields other hother

/-- All operators of the spread are fields, but for those past its size. -/
structure Spread.Sound (spread : Spread) : Prop where
  code : spread.code.IsField
  fields : ∀ operator ∈ spread.fields, operator.IsField
  rest : Abbrev.acceptableFrom spread.rest

section Spread

variable {spread : Spread}

theorem Spread.sound_of_ofAbbrev? {shape : Abbrev} {size : Nat} {isOpen : Bool}
    (hshape : shape.isAcceptable) (hspread : Spread.ofAbbrev? shape size isOpen = some spread) :
    spread.Sound := by
  rw [Abbrev.isAcceptable, Bool.and_eq_true] at hshape
  unfold Spread.ofAbbrev? at hspread
  split at hspread
  · simp at hspread
  · simp at hspread
  · rename_i code fields left htake
    obtain ⟨htaken, hleft⟩ := takeOperators_sound hshape.2 htake
    have hfields : ∀ operator ∈ fields, operator.IsField :=
      fun operator hoperator => htaken operator (List.mem_cons_of_mem _ hoperator)
    split at hspread
    · obtain rfl := Option.some.inj hspread
      exact ⟨htaken code List.mem_cons_self, hfields, hleft⟩
    · split at hspread
      · obtain rfl := Option.some.inj hspread
        exact ⟨htaken code List.mem_cons_self, hfields, rfl⟩
      · simp at hspread

theorem Spread.Sound.acceptableFrom (hspread : spread.Sound) :
    Abbrev.acceptableFrom (spread.code :: spread.fields ++ spread.rest) := by
  have hall : ∀ operator ∈ spread.code :: spread.fields, operator.IsField := by
    intro operator hoperator
    rcases List.mem_cons.mp hoperator with rfl | hoperator
    · exact hspread.code
    · exact hspread.fields operator hoperator
  rw [Abbrev.acceptableFrom_append _ fun operator hoperator => (hall operator hoperator).1,
    Bool.and_eq_true]
  exact ⟨List.all_eq_true.mpr fun operator hoperator => (hall operator hoperator).2, hspread.rest⟩

theorem Spread.Sound.restore (hspread : spread.Sound) : spread.restore.isAcceptable := by
  apply Abbrev.isAcceptable_simplify
  simp only [Abbrev.isAcceptable, Bool.and_eq_true]
  exact ⟨rfl, hspread.acceptableFrom⟩

theorem Spread.Sound.set (hspread : spread.Sound) {operator : Operator} (hoperator : operator.IsField)
    (place : Nat) : Spread.Sound { spread with fields := spread.fields.set place operator } := by
  refine ⟨hspread.code, ?_, hspread.rest⟩
  intro other hother
  rcases List.mem_or_eq_of_mem_set hother with hbefore | rfl
  · exact hspread.fields other hbefore
  · exact hoperator

end Spread

theorem isField_of_narrow? {operator narrowed : Operator} {values : Census Census.ValueTally}
    (hnarrow : narrow? operator values = some narrowed) : narrowed.IsField := by
  rcases width_le_of_narrow? hnarrow with ⟨width, rfl, hwidth⟩ | ⟨width, rfl, hwidth⟩
  · refine ⟨rfl, ?_⟩
    simp only [Operator.hasValidWidth, Bool.and_eq_true, decide_eq_true_eq]
    omega
  · refine ⟨rfl, ?_⟩
    simp only [Operator.hasValidWidth, Bool.and_eq_true, decide_eq_true_eq]
    omega

namespace Candidates

open Census (BlockTally FieldTally SizeTally)

/-- All proposed abbreviations are acceptable. -/
def Sound (candidates : Candidates) : Prop :=
  ∀ entry ∈ candidates.counts, entry.1.2.isAcceptable

variable {candidates next : Candidates} {table : Table} {spread : Spread}

theorem Sound.propose {count : Nat} (hcandidates : candidates.Sound) (hspread : spread.Sound)
    (hpropose : candidates.propose table spread count = some next) : next.Sound := by
  simp only [Candidates.propose] at hpropose
  split at hpropose
  · simp at hpropose
  · obtain rfl := Option.some.inj hpropose
    intro entry hentry
    rcases Keyed.mem_update hentry with hbefore | ⟨hkey, -⟩
    · exact hcandidates entry hbefore
    · rw [hkey]
      exact hspread.restore

theorem Sound.propose_getD {count : Nat} (hcandidates : candidates.Sound) (hspread : spread.Sound) :
    ((candidates.propose table spread count).getD candidates).Sound := by
  cases hpropose : candidates.propose table spread count with
  | none => exact hcandidates
  | some next => exact hcandidates.propose hspread hpropose

theorem Sound.addConstant (hcandidates : candidates.Sound) (hspread : spread.Sound)
    (fields : List (UInt64 × FieldTally)) :
    (Candidates.addConstant table spread fields candidates).Sound := by
  fun_induction Candidates.addConstant table spread fields candidates with
  | case1 => exact hcandidates
  | case2 candidates field tally rest proposal next hnext =>
      simp only [proposal, Option.bind_eq_bind, Option.bind_eq_some_iff] at hnext
      obtain ⟨operator, -, -, -, ⟨value, count⟩, -, hpropose⟩ := hnext
      exact hcandidates.propose (hspread.set ⟨rfl, rfl⟩ _) hpropose
  | case3 candidates field tally rest proposal hnone ih => exact ih hcandidates

theorem isField_narrowField {fields : List Operator}
    (hfields : ∀ operator ∈ fields, operator.IsField) (field : UInt64) (tally : FieldTally) :
    ∀ operator ∈ narrowField fields field tally, operator.IsField := by
  unfold narrowField
  split
  · exact hfields
  · split
    · exact hfields
    · rename_i hnarrow
      intro operator hoperator
      rcases List.mem_or_eq_of_mem_set hoperator with hbefore | rfl
      · exact hfields operator hbefore
      · exact isField_of_narrow? hnarrow

theorem isField_foldl_narrowField (hspread : spread.Sound) (tally : SizeTally) :
    ∀ operator ∈ tally.fields.elements.foldl
      (fun fields entry => narrowField fields entry.1 entry.2) spread.fields,
      operator.IsField := by
  refine List.foldlRecOn (motive := fun fields : List Operator =>
    ∀ operator ∈ fields, operator.IsField) _ _ hspread.fields ?_
  intro fields hfields entry _
  exact isField_narrowField hfields entry.1 entry.2

theorem Sound.addNarrowed (hcandidates : candidates.Sound) (hspread : spread.Sound)
    (tally : SizeTally) : (Candidates.addNarrowed table spread tally candidates).Sound := by
  have hnarrowed := isField_foldl_narrowField hspread tally
  simp only [Candidates.addNarrowed]
  split
  · exact hcandidates
  · exact hcandidates.propose_getD ⟨hspread.code, hnarrowed, hspread.rest⟩

theorem Sound.addCode (hcandidates : candidates.Sound) (hspread : spread.Sound) (code : UInt64)
    (count : Nat) : (candidates.addCode table spread code count).Sound := by
  unfold Candidates.addCode
  split
  · exact hcandidates
  · exact hcandidates.propose_getD ⟨⟨rfl, rfl⟩, hspread.fields, hspread.rest⟩

theorem Sound.addLeaf {leaf : Leaf} (hcandidates : candidates.Sound)
    (hleaf : leaf.shape.isAcceptable) : (candidates.addLeaf leaf).Sound := by
  simp only [Candidates.addLeaf]
  split
  · exact hcandidates
  · rename_i spread hspread
    have hsound := Spread.sound_of_ofAbbrev? hleaf hspread
    exact ((hcandidates.addCode hsound _ _).addConstant hsound _).addNarrowed hsound _

theorem acceptable_of_mem_leaves {blocks : Census BlockTally} {tables : Tables} {leaf : Leaf}
    (htables : tables.Sound) (hleaf : leaf ∈ leaves blocks tables) : leaf.shape.isAcceptable := by
  obtain ⟨⟨block, blockTally⟩, -, hleaf⟩ := List.mem_flatMap.mp hleaf
  cases htable : tables.get? block with
  | none => simp [htable] at hleaf
  | some table =>
      simp only [htable] at hleaf
      obtain ⟨⟨row, rowTally⟩, -, hleaf⟩ := List.mem_flatMap.mp hleaf
      cases hshape : table.get? row.toNat with
      | none => simp [hshape] at hleaf
      | some shape =>
          simp only [hshape] at hleaf
          obtain ⟨⟨code, codeTally⟩, -, hleaf⟩ := List.mem_flatMap.mp hleaf
          obtain ⟨⟨size, tally⟩, -, rfl⟩ := List.mem_map.mp hleaf
          exact htables.of_get? htable shape (List.mem_of_getElem? hshape)

theorem sound_ofCensus {tables : Tables} (htables : tables.Sound) (blocks : Census BlockTally) :
    (ofCensus blocks tables).Sound := by
  refine List.foldlRecOn _ _ (by simp [Sound]) fun candidates hcandidates leaf hleaf => ?_
  exact hcandidates.addLeaf (acceptable_of_mem_leaves htables hleaf)

theorem Sound.of_mem_accepted {proposal : Ranked} (hcandidates : candidates.Sound)
    (hproposal : proposal ∈ candidates.accepted) : proposal.shape.isAcceptable := by
  have hranked : proposal ∈ candidates.ranked := by
    unfold accepted at hproposal
    split at hproposal
    · simp at hproposal
    · rename_i hranked
      rw [hranked]
      exact (List.takeWhile_sublist _).mem hproposal
  obtain ⟨entry, hentry, rfl⟩ := List.mem_map.mp (List.mem_mergeSort.mp hranked)
  exact hcandidates entry hentry

end Candidates

theorem sound_install {tables : Tables} {proposal : Ranked} (htables : tables.Sound)
    (hproposal : proposal.shape.isAcceptable) : (install tables proposal).Sound := by
  unfold install
  split
  · exact htables
  · rename_i table htable
    exact htables.update fun _ _ => (htables.of_get? htable).addSynthesized hproposal

theorem grows_install (tables : Tables) (proposal : Ranked) :
    tables.Grows (install tables proposal) := by
  unfold install
  split
  · exact .refl tables
  · rename_i table htable
    apply Tables.grows_update
    rw [Tables.getD, htable, Table.rows_addSynthesized]
    exact table.rows_prefix_add proposal.shape

/-- Synthesis leaves the tables sound, whatever was counted. -/
theorem sound_extend {tables : Tables} (htables : tables.Sound)
    (blocks : Census Census.BlockTally) : (extend blocks tables).Sound := by
  have hcandidates := Candidates.sound_ofCensus htables blocks
  refine List.foldlRecOn _ _ htables fun current hcurrent proposal hproposal => ?_
  exact sound_install hcurrent (hcandidates.of_mem_accepted hproposal)

theorem grows_extend (blocks : Census Census.BlockTally) (tables : Tables) :
    tables.Grows (extend blocks tables) := by
  refine List.foldlRecOn _ _ (Tables.Grows.refl tables) fun current hgrows proposal _ => ?_
  exact hgrows.trans (grows_install current proposal)

end Synthesis

end Bitcode
