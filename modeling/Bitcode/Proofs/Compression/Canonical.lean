import Bitcode.Proofs.Compression.Lossless

namespace Bitcode

open Format Bitstream

namespace Compression

open Bitcode.Tree (Body Block)

def writeContent : Content → Composing Unit
  | .enter id => Writer.enterBlock id (UInt64.ofNat initialIdWidth)
  | .exit => Writer.exitBlock
  | .record code fields => Writer.writePlain code fields

def writeContents (contents : List Content) : Composing Unit :=
  contents.forM writeContent

theorem writeContents_cons (content : Content) (contents : List Content) :
    writeContents (content :: contents) =
      (writeContent content >>= fun _ => writeContents contents) :=
  rfl

theorem writeContents_append (first second : List Content) :
    writeContents (first ++ second) = (writeContents first >>= fun _ => writeContents second) :=
  List.forM_append

/-- The bytes of a file without abbreviations, from its header and from what it says. -/
def plainBytes (header : Header) (contents : List Content) : Except Error (Array UInt8) :=
  match (Writer.writeHeader header >>= fun _ => writeContents contents) {} with
  | .ok _ writer => writer.finish.mapError .bitstream
  | .error cause _ => .error (.bitstream cause)

/-- Without a selection, a computation on a file does to the stream what another one does. It may
note that block 0 has been written. -/
def Mirrors (writes : Writes Unit) (composing : Composing Unit) : Prop :=
  ∀ writer informed, ∃ noted,
    writes ⟨writer, none, informed⟩ = onWriter composing ⟨writer, none, noted⟩

theorem mirrors_onWriter (composing : Composing Unit) : Mirrors (onWriter composing) composing :=
  fun _ informed => ⟨informed, rfl⟩

theorem Mirrors.bind {first second : Writes Unit} {composing following : Composing Unit}
    (hfirst : Mirrors first composing) (hsecond : Mirrors second following) :
    Mirrors (first >>= fun _ => second) (composing >>= fun _ => following) := by
  intro writer informed
  obtain ⟨noted, hwrites⟩ := hfirst writer informed
  cases hcomposing : composing writer with
  | ok value middle =>
      simp only [onWriter, hcomposing] at hwrites
      obtain ⟨last, hlast⟩ := hsecond middle noted
      refine ⟨last, ?_⟩
      rw [bind_apply_of_ok hwrites, hlast, onWriter, onWriter, bind_apply_of_ok hcomposing]
  | error cause middle =>
      simp only [onWriter, hcomposing] at hwrites
      refine ⟨noted, ?_⟩
      rw [bind_apply_of_error hwrites, onWriter, bind_apply_of_error hcomposing]

namespace Output

theorem mirrors_writeInfo : Mirrors writeInfo (pure ()) := by
  intro writer informed
  refine ⟨true, ?_⟩
  cases informed with
  | true => rfl
  | false => rfl

theorem mirrors_enterBlock (id : UInt64) : Mirrors (enterBlock id) (writeContent (.enter id)) := by
  have hmodule : Mirrors (if id = moduleBlockId then writeInfo else pure ()) (pure ()) := by
    split
    · exact mirrors_writeInfo
    · exact mirrors_onWriter (pure ())
  intro writer informed
  obtain ⟨noted, hwrites⟩ :=
    ((mirrors_onWriter (writeContent (.enter id))).bind hmodule) writer informed
  rw [bind_pure_unit] at hwrites
  exact ⟨noted, hwrites⟩

theorem mirrors_writeRecord (block : UInt64) (item : Tree.Record) :
    Mirrors (writeRecord block item) (writeContent (.record item.code item.fields)) :=
  fun _ informed => ⟨informed, rfl⟩

theorem mirrors_writeBody (block : UInt64) (body : Body) :
    Mirrors (writeBody block body) (writeContents body.contents) := by
  induction body generalizing block with
  | empty => exact mirrors_onWriter (pure ())
  | record item rest ih => exact (mirrors_writeRecord block item).bind (ih block)
  | block id bits inner rest ihInner ihRest =>
      rw [Body.contents, writeContents_cons, writeContents_append, writeContents_cons]
      exact (mirrors_enterBlock id).bind ((ihInner id).bind
        ((mirrors_onWriter Writer.exitBlock).bind (ihRest block)))

theorem mirrors_writeBlock (block : Block) :
    Mirrors (writeBlock block) (writeContents block.contents) := by
  have hblock : Mirrors (do
      enterBlock block.id
      writeBody block.id block.body
      onWriter Writer.exitBlock) (writeContents block.contents) := by
    rw [Block.contents, writeContents_cons, writeContents_append]
    refine (mirrors_enterBlock block.id).bind ((mirrors_writeBody block.id block.body).bind ?_)
    have hexit : writeContents [.exit] = Writer.exitBlock := bind_pure_unit
    rw [hexit]
    exact mirrors_onWriter Writer.exitBlock
  by_cases hmodule : block.id = moduleBlockId
  · simpa [writeBlock, hmodule] using hblock
  · simpa [writeBlock, hmodule] using mirrors_writeInfo.bind hblock

theorem mirrors_writeBlocks (blocks : List Block) :
    Mirrors (blocks.forM writeBlock) (writeContents (blocks.flatMap Block.contents)) := by
  induction blocks with
  | nil => exact mirrors_onWriter (pure ())
  | cons block blocks ih =>
      rw [List.flatMap_cons, writeContents_append]
      exact (mirrors_writeBlock block).bind ih

/-- The end of writing a file. -/
def close : Writes (Array UInt8) := do
  match (← get).writer.finish with
  | .ok bytes => return bytes
  | .error cause => throw (.bitstream cause)

theorem writeFile_eq (file : Tree.File) :
    writeFile file =
      ((onWriter (Writer.writeHeader file.header) >>= fun _ => file.blocks.forM writeBlock) >>=
        fun _ => close) := by
  rw [bind_assoc]
  rfl

end Output

theorem encodePlain_eq (file : Tree.File) :
    encodePlain file = plainBytes file.header file.contents := by
  obtain ⟨noted, hwrites⟩ := ((mirrors_onWriter (Writer.writeHeader file.header)).bind
    (Output.mirrors_writeBlocks file.blocks)) {} false
  unfold encodePlain plainBytes
  rw [Output.writeFile_eq, Tree.File.contents]
  cases hcomposing : (Writer.writeHeader file.header >>= fun _ =>
      writeContents (file.blocks.flatMap Block.contents)) {} with
  | ok value writer =>
      simp only [onWriter, hcomposing] at hwrites
      rw [bind_apply_of_ok hwrites, Output.close, get_bind_apply]
      dsimp only
      cases writer.finish <;> rfl
  | error cause writer =>
      simp only [onWriter, hcomposing] at hwrites
      rw [bind_apply_of_error hwrites]

section Compress

variable {bytes : Array UInt8} {source : Bitstream.File}

theorem compress_plain (hopen : Bitstream.File.ofBytes bytes = .ok source)
    (hend : source.entries.2 = none) :
    compress bytes true = plainBytes source.header source.contents := by
  obtain ⟨file, hresult⟩ := Tree.unroll_of_entries_eq_none hopen hend
  obtain ⟨original, hsame, -, hheader, hcontents, -⟩ := Tree.unroll_eq_ok hresult
  obtain rfl := Except.ok.inj (hopen.symm.trans hsame)
  rw [compress, hresult, hheader, hcontents]
  exact encodePlain_eq file

theorem compress_stopped {cause : Bitstream.Error}
    (hopen : Bitstream.File.ofBytes bytes = .ok source) (hend : source.entries.2 = some cause)
    (removeAbbrevs : Bool) : compress bytes removeAbbrevs = .error (.bitstream cause) := by
  rw [compress, Tree.unroll_of_entries_eq_some hopen hend]
  rfl

theorem plainBytes_of_raw_eq {header other : Header} (hraw : header.raw = other.raw)
    (contents : List Content) : plainBytes header contents = plainBytes other contents := by
  unfold plainBytes Writer.writeHeader
  rw [hraw]

/-- Writing without abbreviations gives a normal form: it is the same for all files with the same
header that say the same, the normal form itself included. The compressed file is one of these files
exactly if ids of 32 bits can name the abbreviations that each block id keeps, and so if the original
has less than 4 GiB. Else no reader takes the compressed file. -/
theorem compress_plain_canonical {bytes : Array UInt8} {removeAbbrevs : Bool}
    (hsize : 8 * bytes.size < 2 ^ 64) (hcompress : (compress bytes removeAbbrevs).isOk) :
    ∃ (file : Tree.File) (plain compressed : Array UInt8),
      (Tree.unroll bytes).result = .ok file ∧
      compress bytes true = .ok plain ∧ compress bytes false = .ok compressed ∧
      compress plain true = .ok plain ∧
      (Nameable (selectionTables bytes file) file.blocks → compress compressed true = .ok plain) ∧
      (¬ Nameable (selectionTables bytes file) file.blocks → ∃ block width, 32 < width ∧
        compress compressed true = .error (.bitstream (.scope (.badIdWidth block width)))) ∧
      (bytes.size < 2 ^ 32 → Nameable (selectionTables bytes file) file.blocks) ∧
      ∀ (other : Array UInt8) (mode : Bool) (source counterpart : Bitstream.File),
        (compress other mode).isOk →
        File.ofBytes bytes = .ok source → File.ofBytes other = .ok counterpart →
        counterpart.header.raw = source.header.raw → counterpart.contents = source.contents →
        compress other true = .ok plain := by
  obtain ⟨output, houtput⟩ := isOk_iff_exists.mp hcompress
  obtain ⟨file, hresult⟩ := unroll_of_compress houtput
  obtain ⟨original, horiginal, hend, hheader, hcontents, -⟩ := Tree.unroll_eq_ok hresult
  obtain ⟨plain, bare, hplain, hbare, hbareHeader, hbareRead⟩ :=
    compress_reread hsize hresult true
  obtain ⟨compressed, written, hcompressed, hwritten, hwrittenHeader, hwrittenRead⟩ :=
    compress_reread hsize hresult false
  have hnormal : plainBytes file.header file.contents = .ok plain := by
    rw [← hheader, ← hcontents, ← compress_plain horiginal hend]
    exact hplain
  refine ⟨file, plain, compressed, hresult, hplain, hcompressed, ?_, ?_, ?_,
    nameable_of_size_lt hresult, ?_⟩
  · obtain ⟨-, hbareEnd, hbareContents⟩ :=
      hbareRead.resolve_right fun hstopped => hstopped.1 (.inl rfl)
    rw [compress_plain hbare hbareEnd, hbareHeader, hbareContents]
    exact hnormal
  · intro hnameable
    obtain ⟨-, hwrittenEnd, hwrittenContents⟩ :=
      hwrittenRead.resolve_right fun hstopped => hstopped.1 (.inr hnameable)
    rw [compress_plain hwritten hwrittenEnd, hwrittenHeader, hwrittenContents]
    exact hnormal
  · intro hwide
    have hunread : ¬ Rereadable bytes file false := fun hread => hread.elim Bool.false_ne_true hwide
    obtain ⟨-, block, width, hwidth, -, hstop⟩ :=
      hwrittenRead.resolve_left fun hall => hunread hall.1
    exact ⟨block, width, hwidth, compress_stopped hwritten hstop true⟩
  · intro other mode source counterpart hother hsource hcounterpart hraw hsame
    obtain rfl := Except.ok.inj (horiginal.symm.trans hsource)
    obtain ⟨_, hotherOutput⟩ := isOk_iff_exists.mp hother
    obtain ⟨otherFile, hotherResult⟩ := unroll_of_compress hotherOutput
    obtain ⟨reopened, hreopened, hotherEnd, -, -, -⟩ := Tree.unroll_eq_ok hotherResult
    obtain rfl := Except.ok.inj (hcounterpart.symm.trans hreopened)
    rw [compress_plain hcounterpart hotherEnd, plainBytes_of_raw_eq hraw, hsame, hheader, hcontents]
    exact hnormal

/-- What the sample says, with an abbreviation in block 0 for the records of one shape. -/
def sharingFile : Array UInt8 :=
  #[80, 69, 88, 69, 1, 0, 8, 0, 17, 0, 4, 0, 2, 0, 0, 0, 33, 8, 0, 0, 14, 0, 0, 0, 1, 8, 0, 0, 2, 0,
    0, 0, 7, 65, 164, 32, 19, 4, 0, 0, 7, 65, 80, 196, 0, 0, 0, 0, 3, 0, 0, 0, 11, 130, 131, 7, 15,
    30, 60, 120, 0, 0, 0, 0, 33, 8, 0, 0, 1, 0, 0, 0, 23, 65, 2, 0, 0, 0, 0, 0]

theorem compress_plain_canonical_sampleFile :
    ∃ plain compressed,
      compress sampleFile true = .ok plain ∧ compress sampleFile false = .ok compressed ∧
      compress plain true = .ok plain ∧ compress compressed true = .ok plain ∧
      compress sharingFile true = .ok plain := by
  have hsharing : (Tree.unroll sharingFile).result.isOk := by decide +kernel
  have hsame :
      (File.ofBytes sharingFile).toOption.map (fun file => (file.header.raw, file.contents)) =
        (File.ofBytes sampleFile).toOption.map fun file => (file.header.raw, file.contents) := by
    decide +kernel
  obtain ⟨file, hfile⟩ := isOk_iff_exists.mp isOk_unroll_sampleFile
  obtain ⟨other, hother⟩ := isOk_iff_exists.mp hsharing
  obtain ⟨source, hsource, -, -, -, -⟩ := Tree.unroll_eq_ok hfile
  obtain ⟨counterpart, hcounterpart, -, -, -, -⟩ := Tree.unroll_eq_ok hother
  obtain ⟨_, _, hok, -, -, -⟩ := compress_reread (by decide) hfile true
  obtain ⟨_, _, hotherOk, -, -, -⟩ := compress_reread (by decide) hother true
  obtain ⟨_, plain, compressed, -, hplain, hcompressed, hagain, hback, -, hsmall, hothers⟩ :=
    compress_plain_canonical (by decide) (isOk_iff_exists.mpr ⟨_, hok⟩)
  rw [hsource, hcounterpart] at hsame
  obtain ⟨hraw, hcontents⟩ := Prod.mk.inj (Option.some.inj hsame)
  exact ⟨plain, compressed, hplain, hcompressed, hagain,
    hback (hsmall (by decide)),
    hothers _ _ _ _ (isOk_iff_exists.mpr ⟨_, hotherOk⟩) hsource hcounterpart hraw hcontents⟩

/-- The compressed file does not always have the same normal form, or any. -/
theorem compress_plain_canonical_crowded :
    ∃ bytes plain compressed, bytes.size < 2 ^ 39 ∧
      compress bytes true = .ok plain ∧ compress bytes false = .ok compressed ∧
      ¬ (compress compressed true).isOk := by
  obtain ⟨bytes, file, compressed, written, hsize, hresult, -, -, hcompress, hopen, -,
    block, width, -, hstop⟩ := exists_unread
  obtain ⟨plain, -, hplain, -, -, -⟩ := compress_reread (by omega) hresult true
  refine ⟨bytes, plain, compressed, hsize, hplain, hcompress, ?_⟩
  rw [compress_stopped hopen hstop true]
  exact Bool.false_ne_true

end Compress

end Compression

end Bitcode
