import Bitcode.Command.Directory
import Bitcode.Main
import Bitcode.Proofs.Abbrev.Agreement
import Bitcode.Proofs.Abbrev.Simplification
import Bitcode.Proofs.Bits.Mirror
import Bitcode.Proofs.Bitstream.Atomicity
import Bitcode.Proofs.Bitstream.Nesting
import Bitcode.Proofs.Compression.Assignment
import Bitcode.Proofs.Compression.Canonical
import Bitcode.Proofs.Compression.Growth
import Bitcode.Proofs.Selection.Exhaustive
import Bitcode.Proofs.Streaming.Assignment
import Bitcode.Proofs.Streaming.Cache
import Bitcode.Proofs.Streaming.Losses
import Bitcode.Proofs.Streaming.Overwriting
import Bitcode.Proofs.Streaming.Queue
import Bitcode.Proofs.Streaming.Sharing
import Bitcode.Proofs.Streaming.Staleness
import Bitcode.Proofs.Tree.Numbering
import Bitcode.Streaming.Assignment
import Bitcode.Streaming.Queue
import Bitcode.Streaming.Request
import Bitcode.Streaming.Transfer
import Bitcode.Tree.Events
import Bitcode.Proofs.Bitstream.Definitions
import Bitcode.Proofs.Synthesis.Meaning
import Bitcode.Proofs.Bitstream.Elements
import Bitcode.Proofs.Bitstream.Spelling
import Bitcode.Proofs.Streaming.KnownSize
import Bitcode.Proofs.Bitstream.InfoRecords
import Bitcode.Proofs.Census.Exact
import Bitcode.Proofs.Synthesis.Narrowing
import Bitcode.Proofs.Tree.Rows
import Bitcode.Proofs.Synthesis.Edits
import Bitcode.Proofs.Synthesis.Offers
import Bitcode.Proofs.Synthesis.Applicability
import Bitcode.Proofs.Bits.Block
import Bitcode.Proofs.Bits.Exactness
import Bitcode.Proofs.Bits.Alignment
import Bitcode.Proofs.Bits.Decoding
import Bitcode.Proofs.Header.Grammar
import Bitcode.Proofs.Lookup.Rounds
import Bitcode.Proofs.Streaming.EndQueries
import Bitcode.Proofs.Census.Freshness
import Bitcode.Proofs.Command.Replacement
import Bitcode.Proofs.Streaming.Grants
