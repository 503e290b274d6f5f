import BinaryFormat.Expr.Host
import BinaryFormat.Format.Checksums
import BinaryFormat.Format.Conversions
import BinaryFormat.Format.Meaning
import BinaryFormat.Inspect.Json
import BinaryFormat.Inspect.Pattern
import BinaryFormat.Inspect.Search
import BinaryFormat.Inspect.Tree
import BinaryFormat.Proofs.Number
import BinaryFormat.Proofs.RoundTrip.Plain
import BinaryFormat.Proofs.Encoding
import BinaryFormat.Proofs.RoundTrip
import BinaryFormat.Proofs.Deferral
import BinaryFormat.Proofs.Frames
import BinaryFormat.Proofs.Frames.Choices
import BinaryFormat.Proofs.Frames.Formats
import BinaryFormat.Proofs.DeferredScope
import BinaryFormat.Proofs.OffsetTable
import BinaryFormat.Proofs.Lazy.Forced
import BinaryFormat.Proofs.Lazy.Elements
import BinaryFormat.Proofs.Blind
import BinaryFormat.Proofs.Blind.Codecs
import BinaryFormat.Proofs.Rigid
import BinaryFormat.Proofs.Views
import BinaryFormat.Proofs.FrameDiscipline
import BinaryFormat.Proofs.Leaving
import BinaryFormat.Proofs.Selection
import BinaryFormat.Proofs.Legible
import BinaryFormat.Proofs.Sealed
import BinaryFormat.Proofs.KeyedUnion
import BinaryFormat.Proofs.UnionAdvance
import BinaryFormat.Proofs.Attempts
import BinaryFormat.Proofs.Decided
import BinaryFormat.Proofs.Positions
import BinaryFormat.Proofs.Overwriting
import BinaryFormat.Proofs.BitPacked
import BinaryFormat.Proofs.Growth.Formats
import BinaryFormat.Proofs.Visibility
import BinaryFormat.Proofs.ElementIndex
import BinaryFormat.Proofs.Truncation
import BinaryFormat.Proofs.Embedding
import BinaryFormat.Proofs.RawCopies
import BinaryFormat.Proofs.Filling.Whole
import BinaryFormat.Proofs.Numerals
import BinaryFormat.Proofs.Granularity
import BinaryFormat.Proofs.Access
import BinaryFormat.Proofs.Decoding
import BinaryFormat.Proofs.FixedText
import BinaryFormat.Proofs.Delimited
import BinaryFormat.Proofs.Flags
import BinaryFormat.Proofs.StoredCounts
import BinaryFormat.Proofs.CopiedData
import BinaryFormat.Proofs.Resealed
import BinaryFormat.Proofs.IntegerArithmetic
import BinaryFormat.Proofs.LenientPrefix
import BinaryFormat.Proofs.Transforms
import BinaryFormat.Proofs.MaximalMunch
import BinaryFormat.Proofs.Shifts
import BinaryFormat.Proofs.DottedPaths
import BinaryFormat.Proofs.PublicContent
import BinaryFormat.Proofs.KeySearch
import BinaryFormat.Proofs.BackPatching
