import Bitcode.Proofs.Selection.Rows
import Bitcode.Proofs.Tree.Unrolling
import Bitcode.Selection.Basic

namespace Bitcode

namespace Tree

/-- The values of the records in blocks with the target id, in their order, where the body is that
of a block with a given id. -/
def Body.valuesIn : Body → UInt64 → UInt64 → List (List UInt64)
  | .empty, _, _ => []
  | .record item rest, target, owner =>
      if owner = target then item.values :: rest.valuesIn target owner
      else rest.valuesIn target owner
  | .block id _ body rest, target, owner => body.valuesIn target id ++ rest.valuesIn target owner

/-- The values of the records in blocks with the target id. -/
def valuesIn (blocks : List Block) (target : UInt64) : List (List UInt64) :=
  blocks.flatMap fun block => block.body.valuesIn target block.id

theorem valuesIn_cons (block : Block) (blocks : List Block) (target : UInt64) :
    valuesIn (block :: blocks) target =
      block.body.valuesIn target block.id ++ valuesIn blocks target := by
  rw [valuesIn, List.flatMap_cons, ← valuesIn]

theorem Body.valuesIn_eq_owned (body : Body) (target owner : UInt64) :
    body.valuesIn target owner =
      (((body.marks owner).filterMap Mark.owned?).filter (·.1 = target)).map (·.2.values) := by
  induction body generalizing owner with
  | empty => rfl
  | record item rest ih =>
      rw [valuesIn, marks, List.filterMap_cons, Mark.owned?, ih]
      split
      · rename_i howner
        rw [List.filter_cons_of_pos (by simpa using howner), List.map_cons]
      · rename_i howner
        rw [List.filter_cons_of_neg (by simpa using howner)]
  | block id bits body rest ihBody ihRest =>
      simp only [valuesIn, marks, List.filterMap_cons, List.filterMap_append, Mark.owned?,
        List.filter_append, List.map_append, ihBody, ihRest]

/-- The records of a block id are those of the file that stand in blocks with the id. -/
theorem valuesIn_eq_owned (file : File) (target : UInt64) :
    valuesIn file.blocks target =
      (file.owned.filter (·.1 = target)).map (·.2.values) := by
  rw [valuesIn, File.owned, File.marks, List.filterMap_flatMap, List.filter_flatMap,
    List.map_flatMap]
  congr 1
  funext block
  rw [Body.valuesIn_eq_owned]
  simp [Block.marks, Mark.owned?, List.filterMap_cons, List.filterMap_append]

theorem Body.length_valuesIn_le (body : Body) (target owner : UInt64) :
    (body.valuesIn target owner).length ≤ body.contents.countP Content.isRecord := by
  induction body generalizing owner with
  | empty => exact Nat.le_refl _
  | record item rest ih =>
      have hrest := ih owner
      simp only [valuesIn, contents, List.countP_cons, Content.isRecord, if_true]
      split
      · rw [List.length_cons]
        omega
      · omega
  | block id bits body rest ihBody ihRest =>
      have hbody := ihBody id
      have hrest := ihRest owner
      simp only [valuesIn, contents, List.countP_cons, List.countP_append, List.length_append,
        Content.isRecord, Bool.false_eq_true, if_false]
      omega

theorem length_valuesIn_le (blocks : List Block) (target : UInt64) :
    (valuesIn blocks target).length ≤
      (blocks.flatMap Block.contents).countP Content.isRecord := by
  induction blocks with
  | nil => exact Nat.le_refl _
  | cons block blocks ih =>
      have hbody := block.body.length_valuesIn_le target block.id
      rw [valuesIn_cons, List.length_append, List.flatMap_cons, List.countP_append, Block.contents,
        List.countP_cons, List.countP_append]
      omega

theorem Body.record_of_mem_valuesIn {body : Body} {target owner : UInt64} {values : List UInt64}
    (hvalues : values ∈ body.valuesIn target owner) :
    ∃ code fields, values = code :: fields ∧ .record code fields ∈ body.contents := by
  induction body generalizing owner with
  | empty => simp [valuesIn] at hvalues
  | record item rest ih =>
      simp only [valuesIn] at hvalues
      split at hvalues
      · rcases List.mem_cons.mp hvalues with rfl | hvalues
        · exact ⟨item.code, item.fields, rfl, List.mem_cons_self⟩
        · obtain ⟨code, fields, rfl, hrecord⟩ := ih hvalues
          exact ⟨code, fields, rfl, List.mem_cons_of_mem _ hrecord⟩
      · obtain ⟨code, fields, rfl, hrecord⟩ := ih hvalues
        exact ⟨code, fields, rfl, List.mem_cons_of_mem _ hrecord⟩
  | block id bits body rest ihBody ihRest =>
      rcases List.mem_append.mp hvalues with hbody | hrest
      · obtain ⟨code, fields, rfl, hrecord⟩ := ihBody hbody
        exact ⟨code, fields, rfl, List.mem_cons_of_mem _ (List.mem_append_left _ hrecord)⟩
      · obtain ⟨code, fields, rfl, hrecord⟩ := ihRest hrest
        exact ⟨code, fields, rfl,
          List.mem_cons_of_mem _ (List.mem_append_right _ (List.mem_cons_of_mem _ hrecord))⟩

theorem record_of_mem_valuesIn {blocks : List Block} {target : UInt64} {values : List UInt64}
    (hvalues : values ∈ valuesIn blocks target) :
    ∃ code fields, values = code :: fields ∧ .record code fields ∈ blocks.flatMap Block.contents := by
  obtain ⟨block, hblock, hvalues⟩ := List.mem_flatMap.mp hvalues
  obtain ⟨code, fields, rfl, hrecord⟩ := Body.record_of_mem_valuesIn hvalues
  exact ⟨code, fields, rfl, List.mem_flatMap.mpr
    ⟨block, hblock, List.mem_cons_of_mem _ (List.mem_append_left _ hrecord)⟩⟩

theorem Body.enter_mem_marks {body : Body} {target owner : UInt64} {values : List UInt64}
    (hvalues : values ∈ body.valuesIn target owner) :
    owner = target ∨ .enter target ∈ body.marks owner := by
  induction body generalizing owner with
  | empty => simp [valuesIn] at hvalues
  | record item rest ih =>
      simp only [valuesIn] at hvalues
      split at hvalues
      · rename_i howner
        exact .inl howner
      · exact (ih hvalues).imp_right (List.mem_cons_of_mem _)
  | block id bits body rest ihBody ihRest =>
      rcases List.mem_append.mp hvalues with hbody | hrest
      · rcases ihBody hbody with rfl | hinner
        · exact .inr List.mem_cons_self
        · exact .inr (List.mem_cons_of_mem _ (List.mem_append_left _ hinner))
      · exact (ihRest hrest).imp_right fun hlater =>
          List.mem_cons_of_mem _ (List.mem_append_right _ (List.mem_cons_of_mem _ hlater))

theorem enter_mem_marks {blocks : List Block} {target : UInt64} {values : List UInt64}
    (hvalues : values ∈ valuesIn blocks target) : .enter target ∈ blocks.flatMap Block.marks := by
  obtain ⟨block, hblock, hvalues⟩ := List.mem_flatMap.mp hvalues
  refine List.mem_flatMap.mpr ⟨block, hblock, ?_⟩
  rcases Body.enter_mem_marks hvalues with rfl | hinner
  · exact List.mem_cons_self
  · exact List.mem_cons_of_mem _ (List.mem_append_left _ hinner)

end Tree

namespace Selection

open Bitcode.Tree (Body Block)

/-- Add rows one after the other. -/
def Selected.extend (selected : Selected) (rows : List Nat) : Selected :=
  { selected with queue := selected.queue ++ rows }

theorem Selected.extend_nil (selected : Selected) : selected.extend [] = selected := by
  simp [extend]

theorem Selected.extend_push (selected : Selected) (row : Nat) (rows : List Nat) :
    (selected.push row).extend rows = selected.extend (row :: rows) := by
  simp [extend, push]

theorem Selected.extend_append (selected : Selected) (first second : List Nat) :
    (selected.extend first).extend second = selected.extend (first ++ second) := by
  simp only [extend, Selected.mk.injEq, and_true]
  apply Array.ext'
  simp

/-- The selection for a block id, empty if there is none. -/
def entryOf (selection : Selection) (block : UInt64) : Selected :=
  (selection.get? block).getD {}

theorem entryOf_update (selection : Selection) (block other : UInt64)
    (change : Selected → Selected) :
    (selection.update block change).entryOf other =
      if other = block then change (selection.entryOf block) else selection.entryOf other := by
  rw [entryOf, get?, update, Keyed.lookup_update]
  split
  · rfl
  · rfl

theorem entryOf_update_same (selection : Selection) (block other : UInt64) :
    (selection.update block fun same => same).entryOf other = selection.entryOf other := by
  rw [entryOf_update]
  split
  · rename_i heq
    rw [heq]
  · rfl

theorem kept_eq (selection : Selection) (block : UInt64) :
    selection.kept block = (selection.entryOf block).kept := by
  unfold kept entryOf
  cases selection.get? block <;> rfl

theorem entryOf_addBody (tables : Tables) (block : UInt64) (body : Body) (selection : Selection)
    (target : UInt64) :
    (addBody tables block body selection).entryOf target =
      (selection.entryOf target).extend
        ((body.valuesIn target block).map (rowFor tables target)) := by
  induction body generalizing block selection with
  | empty => exact (Selected.extend_nil _).symm
  | record item rest ih =>
      rw [addBody, ih, entryOf_update, Body.valuesIn]
      by_cases htarget : target = block
      · subst htarget
        rw [if_pos rfl, if_pos rfl, Selected.extend_push]
        rfl
      · rw [if_neg htarget, if_neg (Ne.symm htarget)]
  | block id bits body rest ihBody ihRest =>
      rw [addBody, ihRest, ihBody, entryOf_update_same, Selected.extend_append, Body.valuesIn,
        List.map_append]

theorem entryOf_foldl_addBlock (tables : Tables) (blocks : List Block) (selection : Selection)
    (target : UInt64) :
    (blocks.foldl (addBlock tables) selection).entryOf target =
      (selection.entryOf target).extend
        ((Tree.valuesIn blocks target).map (rowFor tables target)) := by
  induction blocks generalizing selection with
  | nil => exact (Selected.extend_nil _).symm
  | cons block blocks ih =>
      rw [List.foldl_cons, ih, addBlock, entryOf_addBody, entryOf_update_same,
        Selected.extend_append, Tree.valuesIn_cons, List.map_append]

/-- Every record gets the plain row or the id of a kept abbreviation that can encode it. An
abbreviation is kept only for many records. -/
structure Suits (kept : List Abbrev) (pick : List UInt64 → Nat) (records : List (List UInt64)) :
    Prop where
  encodes : ∀ values ∈ records, pick values = plainRow ∨
    ∃ place shape, pick values = Format.firstDefinedId + place ∧ kept[place]? = some shape ∧
      shape.canEncode values
  used : ∀ shape ∈ kept, shape.isAcceptable ∧ ∃ values ∈ records, shape.canEncode values
  frequent : minUsage * kept.length ≤ records.length

theorem mul_length_le_of_count {least : Nat} {numbers queue : List Nat} (hnodup : numbers.Nodup)
    (hcount : ∀ number ∈ numbers, least ≤ queue.count number) :
    least * numbers.length ≤ queue.length := by
  induction numbers generalizing queue with
  | nil => exact Nat.zero_le _
  | cons number numbers ih =>
      obtain ⟨hnew, hnodup⟩ := List.nodup_cons.mp hnodup
      have hothers : ∀ other ∈ numbers, least ≤ (queue.filter (· != number)).count other := by
        intro other hother
        have hne : (other != number) = true := by
          rw [bne_iff_ne]
          rintro rfl
          exact hnew hother
        have hsame := List.count_filter (p := (· != number)) (l := queue) hne
        rw [hsame]
        exact hcount other (List.mem_cons_of_mem _ hother)
      have hrest := ih hnodup hothers
      have hfirst := hcount number List.mem_cons_self
      have hsplit := List.length_eq_countP_add_countP (· == number) (l := queue)
      have hkept : (queue.filter (· != number)).length =
          queue.countP fun other => decide (¬ (other == number) = true) := by
        rw [List.countP_eq_length_filter]
        congr 1
        apply List.filter_congr
        intro other _
        rw [Bool.eq_iff_iff]
        simp
      rw [List.count] at hfirst
      rw [List.length_cons, Nat.mul_succ]
      omega

theorem map_get?_eq {table : Table} {rows : List Nat}
    (hrows : ∀ row ∈ rows, row < table.rows.length) :
    rows.map table.get? = (rows.filterMap table.get?).map some := by
  induction rows with
  | nil => rfl
  | cons first rows ih =>
      obtain ⟨hinside, hothers⟩ := List.forall_mem_cons.mp hrows
      have hfirst : table.get? first = some table.rows[first] := List.getElem?_eq_getElem hinside
      rw [List.filterMap_cons_some hfirst, List.map_cons, List.map_cons, ih hothers, hfirst]

theorem getElem?_filterMap_get? {table : Table} {rows : List Nat} {place row : Nat}
    (hrows : ∀ row ∈ rows, row < table.rows.length) (hrow : rows[place]? = some row) :
    (rows.filterMap table.get?)[place]? = table.get? row := by
  have hplace := congrArg (·[place]?) (map_get?_eq hrows)
  simp only [List.getElem?_map, hrow, Option.map_some] at hplace
  cases hkept : (rows.filterMap table.get?)[place]? with
  | none => simp [hkept] at hplace
  | some shape =>
      rw [hkept] at hplace
      exact (Option.some.inj hplace).symm

/-- The abbreviation id of a row, if the given rows are kept. -/
def idOf (rows : List Nat) (row : Nat) : Nat :=
  match rows.idxOf? row with
  | some place => Format.firstDefinedId + place
  | none => plainRow

theorem idOf_eq (rows : List Nat) (row : Nat) :
    idOf rows row = plainRow ∨
      ∃ place, idOf rows row = Format.firstDefinedId + place ∧ rows[place]? = some row := by
  unfold idOf
  cases hplace : rows.idxOf? row with
  | none => exact .inl rfl
  | some place =>
      obtain ⟨hinside, hrow, -⟩ := List.idxOf?_eq_some_iff.mp hplace
      exact .inr ⟨place, rfl, List.getElem?_eq_some_iff.mpr ⟨hinside, hrow⟩⟩

theorem idOf_eq_plainRow_iff (rows : List Nat) (row : Nat) :
    idOf rows row = plainRow ↔ row ∉ rows := by
  rw [← List.idxOf?_eq_none_iff]
  unfold idOf
  cases rows.idxOf? row with
  | none => simp
  | some place =>
      simp only [reduceCtorEq, iff_false, plainRow, Format.firstDefinedId]
      omega

/-- The rows of a table that are selected often enough, in ascending order. -/
def frequentAmong (table : Table) (selected : List Nat) : List Nat :=
  (List.range table.rows.length).filter fun row => row ≠ plainRow ∧ minUsage ≤ selected.count row

theorem mem_frequentAmong {table : Table} {selected : List Nat} {row : Nat}
    (hrow : row ∈ frequentAmong table selected) :
    row < table.rows.length ∧ row ≠ plainRow ∧ minUsage ≤ selected.count row := by
  obtain ⟨hrange, hfrequent⟩ := List.mem_filter.mp hrow
  rw [decide_eq_true_eq] at hfrequent
  exact ⟨List.mem_range.mp hrange, hfrequent⟩

theorem pairwise_frequentAmong (table : Table) (selected : List Nat) :
    (frequentAmong table selected).Pairwise (· < ·) :=
  List.pairwise_lt_range.filter _

theorem mem_of_minUsage_le {selected : List Nat} {row : Nat}
    (hcount : minUsage ≤ selected.count row) : row ∈ selected :=
  List.count_pos_iff.mp (Nat.lt_of_lt_of_le (by decide) hcount)

theorem frequentAmong_eq_nil {table : Table} {selected : List Nat}
    (hselected : ∀ row ∈ selected, row = plainRow) : frequentAmong table selected = [] := by
  apply List.eq_nil_iff_forall_not_mem.mpr
  intro row hrow
  obtain ⟨-, hplain, hcount⟩ := mem_frequentAmong hrow
  exact hplain (hselected row (mem_of_minUsage_le hcount))

theorem installFrequent_extend (table : Table) (selected : List Nat) :
    (({} : Selected).extend selected).installFrequent table =
      { queue := (selected.map (idOf (frequentAmong table selected))).toArray
        kept := (frequentAmong table selected).filterMap table.get? } := by
  have hqueue : (({} : Selected).extend selected).queue = selected.toArray := by
    simp [Selected.extend]
  have hrows : (({} : Selected).extend selected).frequentRows table =
      frequentAmong table selected := by
    rw [Selected.frequentRows, hqueue, frequentAmong]
    simp only [List.count_toArray]
  have hinstall : (({} : Selected).extend selected).installFrequent table =
      { queue := (({} : Selected).extend selected).queue.map
          (idOf ((({} : Selected).extend selected).frequentRows table))
        kept := ((({} : Selected).extend selected).frequentRows table).filterMap table.get? } := rfl
  rw [hinstall, hrows, hqueue, List.map_toArray]

theorem suits_frequentAmong {table : Table} (htable : table.Sound) {records : List (List UInt64)}
    {rows : List Nat} (hrows : rows = frequentAmong table (records.map (selectRow table))) :
    Suits (rows.filterMap table.get?) (fun values => idOf rows (selectRow table values)) records := by
  have hmem : ∀ row ∈ rows, row < table.rows.length ∧ row ≠ plainRow ∧
      minUsage ≤ (records.map (selectRow table)).count row :=
    fun row hrow => mem_frequentAmong (hrows ▸ hrow)
  have hnodup : rows.Nodup := hrows ▸ List.nodup_range.filter _
  have hinside := fun row hrow => (hmem row hrow).1
  -- A row that is kept was selected for some record, which its abbreviation can then encode.
  have hencodes : ∀ values, selectRow table values ∈ rows →
      ∃ shape, table.get? (selectRow table values) = some shape ∧ shape.canEncode values :=
    fun values hrow => canEncode_of_selectRow htable (hmem _ hrow).2.1
  refine ⟨?_, ?_, ?_⟩
  · intro values _
    rcases idOf_eq rows (selectRow table values) with hplain | ⟨place, hid, hrow⟩
    · exact .inl hplain
    · obtain ⟨shape, hshape, hencode⟩ := hencodes values (List.mem_of_getElem? hrow)
      exact .inr ⟨place, shape, hid, (getElem?_filterMap_get? hinside hrow).trans hshape, hencode⟩
  · intro shape hshape
    obtain ⟨row, hrow, hget⟩ := List.mem_filterMap.mp hshape
    obtain ⟨values, hvalues, rfl⟩ :=
      List.mem_map.mp (mem_of_minUsage_le (hmem row hrow).2.2)
    obtain ⟨other, hother, hencode⟩ := hencodes values hrow
    obtain rfl := Option.some.inj (hget.symm.trans hother)
    exact ⟨htable shape (List.mem_of_getElem? hget), values, hvalues, hencode⟩
  · have hle := mul_length_le_of_count hnodup fun row hrow => (hmem row hrow).2.2
    have hlength := congrArg List.length (map_get?_eq hinside)
    rw [List.length_map, List.length_map] at hlength
    rwa [List.length_map, hlength] at hle

/-- Keep what the table of a block id says, if there is one. -/
def Selected.install (tables : Tables) (block : UInt64) (selected : Selected) : Selected :=
  match tables.get? block with
  | some table => selected.installFrequent table
  | none => selected

theorem entries_installFrequent (tables : Tables) (selection : Selection) :
    (installFrequent tables selection).entries =
      selection.entries.map fun (block, selected) => (block, selected.install tables block) := by
  rw [installFrequent]
  apply List.map_congr_left
  rintro ⟨block, selected⟩ -
  simp only [Selected.install]
  cases tables.get? block <;> rfl

theorem get?_installFrequent (tables : Tables) (selection : Selection) (block : UInt64) :
    (installFrequent tables selection).get? block =
      (selection.get? block).map (Selected.install tables block) := by
  rw [get?, entries_installFrequent, Keyed.lookup_map, ← get?]

theorem entryOf_start (tables : Tables) (block : UInt64) :
    entryOf { entries := tables.entries.map fun (block, _) => (block, {}) } block = {} := by
  rw [entryOf, get?, Keyed.lookup_map fun _ _ => ({} : Selected)]
  cases tables.entries.lookup block <;> rfl

theorem rowFor_eq (tables : Tables) (block : UInt64) :
    rowFor tables block = selectRow (tables.getD block) := by
  funext values
  rw [rowFor, Tables.getD]
  cases tables.get? block <;> rfl

/-- The rows that are selected for the records in the blocks with an id. -/
def rowsIn (tables : Tables) (blocks : List Block) (block : UInt64) : List Nat :=
  (Tree.valuesIn blocks block).map (rowFor tables block)

/-- The rows that are kept for a block id. -/
def keptRows (tables : Tables) (blocks : List Block) (block : UInt64) : List Nat :=
  frequentAmong (tables.getD block) (rowsIn tables blocks block)

theorem entryOf_choose (tables : Tables) (blocks : List Block) (block : UInt64) :
    (choose tables blocks).entryOf block =
      { queue := ((rowsIn tables blocks block).map (idOf (keptRows tables blocks block))).toArray
        kept := (keptRows tables blocks block).filterMap (tables.getD block).get? } := by
  obtain ⟨selection, hselection⟩ : ∃ selection, selection =
      blocks.foldl (addBlock tables) { entries := tables.entries.map fun (block, _) => (block, {}) } :=
    ⟨_, rfl⟩
  have hrows : selection.entryOf block = ({} : Selected).extend (rowsIn tables blocks block) := by
    rw [hselection, entryOf_foldl_addBlock, entryOf_start, rowsIn]
  have hchoose : (choose tables blocks).entryOf block =
      ((selection.get? block).map (Selected.install tables block)).getD {} := by
    rw [← get?_installFrequent, hselection]
    rfl
  rw [hchoose, keptRows]
  cases hget : selection.get? block with
  | none =>
      rw [entryOf, hget] at hrows
      have hnone : rowsIn tables blocks block = [] := by
        simpa [Selected.extend] using congrArg (·.queue.toList) hrows
      rw [hnone, frequentAmong_eq_nil (by simp)]
      rfl
  | some selected =>
      rw [entryOf, hget] at hrows
      have hrows : selected = _ := hrows
      rw [Option.map_some, Option.getD_some, hrows, Selected.install]
      cases htable : tables.get? block with
      | some table =>
          have hown : tables.getD block = table := by rw [Tables.getD, htable]; rfl
          rw [hown]
          exact installFrequent_extend table _
      | none =>
          -- Without a table the rows stay in the queue, and the plain row is its own id.
          have hplain : ∀ row ∈ rowsIn tables blocks block, row = plainRow := by
            intro row hrow
            obtain ⟨values, -, rfl⟩ := List.mem_map.mp hrow
            rw [rowFor, htable]
          have hids : (rowsIn tables blocks block).map (idOf []) = rowsIn tables blocks block :=
            (List.map_congr_left fun row hrow => (hplain row hrow).symm).trans (List.map_id _)
          rw [frequentAmong_eq_nil hplain, hids]
          simp [Selected.extend]

theorem suits_keptRows {tables : Tables} (htables : tables.Sound) (blocks : List Block)
    (block : UInt64) :
    Suits ((keptRows tables blocks block).filterMap (tables.getD block).get?)
      (fun values => idOf (keptRows tables blocks block) (rowFor tables block values))
      (Tree.valuesIn blocks block) := by
  rw [rowFor_eq]
  apply suits_frequentAmong (htables.getD block)
  rw [keptRows, rowsIn, rowFor_eq]

theorem mem_keptRows {tables : Tables} (htables : tables.Sound) (blocks : List Block)
    (block : UInt64) (row : Nat) :
    row ∈ keptRows tables blocks block ↔
      row ≠ plainRow ∧ minUsage ≤ (rowsIn tables blocks block).count row := by
  -- A selected row is always one of the table.
  constructor
  · exact fun hrow => (mem_frequentAmong hrow).2
  · rintro ⟨hplain, hcount⟩
    obtain ⟨values, -, rfl⟩ := List.mem_map.mp (mem_of_minUsage_le hcount)
    rw [rowFor_eq] at hplain
    obtain ⟨shape, hshape, -⟩ := canEncode_of_selectRow (htables.getD block) hplain
    obtain ⟨hinside, -⟩ := List.getElem?_eq_some_iff.mp hshape
    apply List.mem_filter.mpr
    rw [decide_eq_true_eq, rowFor_eq]
    rw [rowFor_eq] at hcount
    exact ⟨List.mem_range.mpr hinside, hplain, hcount⟩

theorem map_get?_keptRows (tables : Tables) (blocks : List Block) (block : UInt64) :
    (keptRows tables blocks block).map (tables.getD block).get? =
      ((keptRows tables blocks block).filterMap (tables.getD block).get?).map some :=
  map_get?_eq fun _ hrow => (mem_frequentAmong hrow).1

theorem length_filterMap_keptRows (tables : Tables) (blocks : List Block) (block : UInt64) :
    ((keptRows tables blocks block).filterMap (tables.getD block).get?).length =
      (keptRows tables blocks block).length := by
  have hlength := congrArg List.length (map_get?_keptRows tables blocks block)
  rw [List.length_map, List.length_map] at hlength
  exact hlength.symm

theorem nodup_addBody {tables : Tables} {selection : Selection}
    (hkeys : (selection.entries.map (·.1)).Nodup) (block : UInt64) (body : Body) :
    ((addBody tables block body selection).entries.map (·.1)).Nodup := by
  induction body generalizing block selection with
  | empty => exact hkeys
  | record item rest ih => exact ih (Keyed.nodup_keys_update hkeys) block
  | block id bits body rest ihBody ihRest =>
      exact ihRest (ihBody (Keyed.nodup_keys_update hkeys) id) block

theorem nodup_choose {tables : Tables} (htables : tables.Sound) (blocks : List Block) :
    ((choose tables blocks).entries.map (·.1)).Nodup := by
  have hfold : (((blocks.foldl (addBlock tables)
      { entries := tables.entries.map fun (block, _) => (block, {}) }).entries).map (·.1)).Nodup := by
    refine List.foldlRecOn (motive := fun selection : Selection =>
      (selection.entries.map (·.1)).Nodup) _ _ ?_ fun selection hkeys block _ => ?_
    · rw [List.map_map]
      exact htables.keys
    · exact nodup_addBody (Keyed.nodup_keys_update hkeys) block.id block.body
  rw [choose, entries_installFrequent, List.map_map]
  exact hfold

end Selection

end Bitcode
