import Bitcode.Proofs.Bitstream.Progress
import Bitcode.Proofs.Bitstream.RoundTrip
import Bitcode.Proofs.Header

namespace Bitcode.Bitstream

open Bits

/-- The first bit after the shortest header. -/
def firstBit : Nat := 8 * Header.fixedSize

namespace File

variable {bytes : Array UInt8} {file : File}

theorem ofBytes_eq_ok_iff :
    ofBytes bytes = .ok file ↔
      bytes.size % 4 = 0 ∧ Header.parse bytes = .ok file.header ∧ file.header.isReadable ∧
        file.reader = .ofCursor ((Cursor.ofBytes bytes).restart file.header.size) := by
  unfold ofBytes
  constructor
  · intro hopen
    obtain ⟨hwords, hopen⟩ := Header.except_check_eq_ok_iff.mp hopen
    obtain ⟨header, hheader, hopen⟩ := Header.except_bind_eq_ok_iff.mp hopen
    obtain ⟨hreadable, hopen⟩ := Header.except_check_eq_ok_iff.mp hopen
    obtain rfl := Except.ok.inj hopen
    refine ⟨Decidable.not_not.mp hwords, ?_, by simpa using hreadable, rfl⟩
    cases hparse : Header.parse bytes with
    | error cause => simp [hparse, Except.mapError] at hheader
    | ok parsed => simpa [hparse, Except.mapError] using hheader
  · rintro ⟨hwords, hparse, hreadable, hreader⟩
    obtain ⟨header, reader⟩ := file
    simp only at hparse hreadable hreader
    simp [hwords, hparse, hreadable, hreader, Except.mapError, Bind.bind, Except.bind, Pure.pure,
      Except.pure]

theorem informed_reader (hopen : ofBytes bytes = .ok file) :
    file.reader.Informed firstBit bytes.size ∧ firstBit ≤ file.reader.cursor.position := by
  obtain ⟨-, hparse, -, hreader⟩ := ofBytes_eq_ok_iff.mp hopen
  obtain ⟨hfixed, hinside, -, -⟩ := Header.size_of_parse hparse
  rw [hreader]
  refine ⟨⟨⟨rfl, Nat.le_refl _, hinside⟩, by simp [Reader.ofCursor], by simp [Reader.ofCursor]⟩, ?_⟩
  change 8 * Header.fixedSize ≤ 8 * file.header.size
  omega

theorem entries_fst (file : File) : file.entries.1 = file.reader.collect.1 := by
  unfold entries
  split
  · rename_i hcollect
    rw [hcollect]
  · rename_i hcollect
    rw [hcollect]

/-- The entries of a file are bounded by its bytes. -/
theorem entries_bounded (hopen : ofBytes bytes = .ok file) :
    (∀ entry ∈ file.entries.1, entry.Bounded firstBit (8 * bytes.size)) ∧
      firstBit + (file.entries.1.map Entry.leastBits).sum ≤ 8 * bytes.size := by
  obtain ⟨hreader, hstart⟩ := informed_reader hopen
  obtain ⟨hbounded, hsum⟩ := Reader.collect_bounded hreader hstart
  rw [entries_fst]
  exact ⟨hbounded, by omega⟩

end File

end Bitcode.Bitstream
