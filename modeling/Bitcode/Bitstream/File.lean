import Bitcode.Header
import Bitcode.Bitstream.Reader

/-!
Whole files: a header, and then a bitstream.
-/

namespace Bitcode.Bitstream

open Bits

/-- A file being read. -/
structure File where
  header : Header
  reader : Reader
  deriving DecidableEq, Repr

namespace File

/-- Open a file: read its header, and place a reader after it. -/
def ofBytes (bytes : Array UInt8) : Except Error File := do
  if bytes.size % 4 ≠ 0 then throw (.header (.partialWord bytes.size))
  let header ← (Header.parse bytes).mapError Error.header
  if !header.isReadable then throw (.header (.unsupportedVersion header.version?))
  return { header, reader := .ofCursor ((Cursor.ofBytes bytes).restart header.size) }

/-- All entries of a file, and the failure that ended them unless they are complete. -/
def entries (file : File) : List Entry × Option Error :=
  match file.reader.collect with
  | (entries, .exhausted) => (entries, none)
  | (entries, cause) => (entries, some cause)

end File

end Bitcode.Bitstream
