import Bitcode.Proofs.Compression.Crowding

/-!
Compressing is lossless. It fails only on files that cannot be unrolled, and what it writes is a
file with the same header and the same blocks and records.
-/

namespace Bitcode.Compression

open Format Bitstream

section Compress

theorem isOk_iff_exists {ε α : Type} {result : Except ε α} :
    result.isOk ↔ ∃ value, result = .ok value := by
  cases result <;> simp [Except.isOk, Except.toBool]

theorem unroll_of_compress {bytes compressed : Array UInt8} {removeAbbrevs : Bool}
    (hcompress : compress bytes removeAbbrevs = .ok compressed) :
    ∃ file, (Tree.unroll bytes).result = .ok file := by
  cases hresult : (Tree.unroll bytes).result with
  | ok file => exact ⟨file, rfl⟩
  | error cause =>
      rw [compress, hresult] at hcompress
      cases hcompress

/-- A module that holds a block with five records of one shape, and another module that defines an
abbreviation and uses it. -/
def sampleFile : Array UInt8 :=
  #[80, 69, 88, 69, 1, 0, 8, 0, 17, 0, 4, 0, 2, 0, 0, 0, 33, 8, 0, 0, 13, 0, 0, 0, 7, 65, 80, 132,
    0, 0, 0, 0, 5, 0, 0, 0, 7, 193, 241, 17, 128, 193, 71, 0, 6, 31, 1, 24, 124, 4, 96, 240, 17,
    128, 1, 0, 33, 12, 0, 0, 2, 0, 0, 0, 18, 11, 200, 48, 1, 0, 0, 0, 0, 0, 0, 0]

theorem isOk_unroll_sampleFile : (Tree.unroll sampleFile).result.isOk := by
  decide +kernel

/-- A record has no abbreviation id, or one that is defined in its block, fits the ids there and leads
to an abbreviation that can encode the record. -/
def Usable : Wording → Prop
  | .record place (some id) code fields =>
      id.toNat < 2 ^ idWidthFor place.abbrevs.length ∧
        ∃ shape, abbrevWithId? place.abbrevs id = some shape ∧ shape.canEncode (code :: fields)
  | _ => True

theorem usable_wording {plan : Plan} {file : Tree.File} (hplan : plan.Sound)
    (hencodes : ∀ target, ∀ values ∈ Tree.valuesIn file.blocks target, plan.Encodes target values)
    {mark : Tree.Mark} (hmark : mark ∈ file.marks) : Usable (plan.wording mark) := by
  cases mark with
  | enter | exit => trivial
  | record owner item =>
      have hvalues : item.values ∈ Tree.valuesIn file.blocks owner := by
        rw [Tree.valuesIn_eq_owned]
        refine List.mem_map.mpr ⟨(owner, item), List.mem_filter.mpr ⟨?_, by simp⟩, rfl⟩
        exact List.mem_filterMap.mpr ⟨_, hmark, rfl⟩
      rw [Plan.wording]
      cases hid : plan.id? owner item.values with
      | none => trivial
      | some id =>
          unfold Plan.id? at hid
          split at hid
          · cases hid
          · rename_i hdefined
            obtain ⟨place, shape, hpick, hshape, hencode⟩ :=
              (hencodes owner _ hvalues).resolve_left hdefined
            obtain rfl := Option.some.inj hid
            rw [hpick]
            obtain ⟨hnat, hnamed⟩ := abbrevWithId?_of_place (hplan.few owner) hshape
            refine ⟨?_, shape, hnamed, hencode⟩
            rw [hnat]
            exact id_lt_of_place_lt (List.getElem?_eq_some_iff.mp hshape).1

theorem size_queue_choose (tables : Tables) (file : Tree.File) (block : UInt64) :
    ((Selection.choose tables file.blocks).entryOf block).queue.size =
      file.owned.countP (·.1 = block) := by
  rw [entryOf_choose_eq_plan, List.size_toArray, List.length_map, Tree.valuesIn_eq_owned,
    List.length_map, List.countP_eq_length_filter]

/-- Writing never fails, so a file can be compressed if and only if it can be unrolled, provided that
its bit positions are words of 64 bits. The queue of every block id has an id for each of its records,
and every id that is written can be used where it stands. -/
theorem isOk_compress_iff (bytes : Array UInt8) (removeAbbrevs : Bool)
    (hsize : 8 * bytes.size < 2 ^ 64) :
    ((compress bytes removeAbbrevs).isOk ↔ (Tree.unroll bytes).result.isOk) ∧
    ∀ file, (Tree.unroll bytes).result = .ok file →
      (∀ block, ((Selection.choose (selectionTables bytes file) file.blocks).entryOf block).queue.size =
        file.owned.countP (·.1 = block)) ∧
      ∃ (writer : Bitstream.Writer) (wordings : List Wording),
        compress bytes removeAbbrevs = .ok writer.bits.toBytes ∧
        Words (Rereadable bytes file removeAbbrevs) (headed file.header.raw) writer wordings ∧
        wordings.map Wording.content = file.contents ∧ ∀ wording ∈ wordings, Usable wording := by
  refine ⟨?_, ?_⟩
  · rw [isOk_iff_exists, isOk_iff_exists]
    constructor
    · rintro ⟨compressed, hcompress⟩
      exact unroll_of_compress hcompress
    · rintro ⟨file, hresult⟩
      obtain ⟨writer, hcompress, -, -⟩ := compress_composes hsize hresult removeAbbrevs
      exact ⟨_, hcompress⟩
  · intro file hresult
    obtain ⟨plan, writer, hcompress, -, hworded, hplan, hencodes⟩ :=
      compress_planned hsize hresult removeAbbrevs
    refine ⟨size_queue_choose _ file, writer, _, hcompress, hworded, map_content_wordings plan file,
      ?_⟩
    intro wording hwording
    obtain ⟨mark, hmark, rfl⟩ := List.mem_map.mp hwording
    exact usable_wording hplan hencodes hmark

theorem isOk_compress_sampleFile :
    (∀ removeAbbrevs, (compress sampleFile removeAbbrevs).isOk) ∧
      ¬ (compress sampleFile.pop false).isOk := by
  refine ⟨?_, ?_⟩
  · intro removeAbbrevs
    exact (isOk_compress_iff sampleFile removeAbbrevs (by decide)).1.mpr isOk_unroll_sampleFile
  · rw [(isOk_compress_iff sampleFile.pop false (by decide)).1]
    decide +kernel

/-- A compressed file has the header of the original file. It says the same to its end exactly if it
has no abbreviations or ids of 32 bits can name those that each block id keeps; so it does if the
original has less than 4 GiB. Else a reader rejects the first block with wider ids, after what the
original says before that block. -/
theorem contents_of_compress {bytes compressed : Array UInt8} {removeAbbrevs : Bool}
    (hsize : 8 * bytes.size < 2 ^ 64)
    (hcompress : compress bytes removeAbbrevs = .ok compressed) :
    ∃ (file : Tree.File) (original written : Bitstream.File),
      (Tree.unroll bytes).result = .ok file ∧
      File.ofBytes bytes = .ok original ∧ original.entries.2 = none ∧
      File.ofBytes compressed = .ok written ∧ written.header.raw = original.header.raw ∧
      (Rereadable bytes file removeAbbrevs →
        written.entries.2 = none ∧ written.contents = original.contents) ∧
      (¬ Rereadable bytes file removeAbbrevs → ∃ block width, 32 < width ∧
        written.contents ++ [.enter block] <+: original.contents ∧
          written.entries.2 = some (.scope (.badIdWidth block width))) ∧
      (bytes.size < 2 ^ 32 → Rereadable bytes file removeAbbrevs) := by
  obtain ⟨file, hresult⟩ := unroll_of_compress hcompress
  obtain ⟨original, hopen, hend, hheader, hcontents, -⟩ := Tree.unroll_eq_ok hresult
  obtain ⟨same, written, hsame, hreopen, hkept, hread⟩ :=
    compress_reread hsize hresult removeAbbrevs
  obtain rfl := Except.ok.inj (hsame.symm.trans hcompress)
  refine ⟨file, original, written, hresult, hopen, hend, hreopen, by rw [hkept, hheader], ?_, ?_,
    fun hsmall => .inr (nameable_of_size_lt hresult hsmall)⟩
  · intro hreread
    rw [hcontents]
    exact (hread.resolve_right fun hstopped => hstopped.1 hreread).2
  · intro hunread
    rw [hcontents]
    exact (hread.resolve_left fun hall => hunread hall.1).2

theorem contents_of_compress_sampleFile :
    ∃ compressed, ∃ original written : Bitstream.File,
      compress sampleFile false = .ok compressed ∧
      File.ofBytes sampleFile = .ok original ∧ original.entries.2 = none ∧
      File.ofBytes compressed = .ok written ∧ written.header.raw = original.header.raw ∧
      written.entries.2 = none ∧ written.contents = original.contents := by
  obtain ⟨file, hresult⟩ := isOk_iff_exists.mp isOk_unroll_sampleFile
  obtain ⟨writer, hcompress, -, -⟩ := compress_composes (by decide) hresult false
  obtain ⟨_, original, written, -, hopen, hend, hreopen, hheader, hread, -, hsmall⟩ :=
    contents_of_compress (by decide) hcompress
  obtain ⟨hfinish, hsame⟩ := hread (hsmall (by decide))
  exact ⟨_, original, written, hcompress, hopen, hend, hreopen, hheader, hfinish, hsame⟩

/-- A compressed file cannot always be read. -/
theorem contents_of_compress_crowded :
    ∃ bytes compressed, ∃ original written : Bitstream.File, bytes.size < 2 ^ 39 ∧
      compress bytes false = .ok compressed ∧
      File.ofBytes bytes = .ok original ∧ original.entries.2 = none ∧
      File.ofBytes compressed = .ok written ∧
      written.entries.2 ≠ none ∧ written.contents ≠ original.contents := by
  obtain ⟨bytes, file, compressed, written, hsize, hresult, -, hsays, hcompress, hreopen, hempty,
    block, width, -, hstop⟩ := exists_unread
  obtain ⟨original, hopen, hend, -, hcontents, -⟩ := Tree.unroll_eq_ok hresult
  refine ⟨bytes, compressed, original, written, hsize, hcompress, hopen, hend, hreopen, ?_, ?_⟩
  · rw [hstop]
    exact Option.some_ne_none _
  · rw [hempty, hcontents]
    exact hsays.symm

end Compress

end Bitcode.Compression
