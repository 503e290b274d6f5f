import BinaryFormat.Proofs.FrameDiscipline
import BinaryFormat.Proofs.KeyedUnion
import BinaryFormat.Proofs.Paces

/-!
# How far a union goes

Without a key a union goes on behind the largest of its alternatives whose size
is known, with one where the alternative at that key ends.  How far that is, is
computed after the alternatives have run and in the frame that holds them: it is
the size of the union wherever this frame makes no difference to the sizes.
-/

namespace BinaryFormat

namespace Codec

variable {e : Engine} {t : Traits} {params : Record Value}

/-! ## The largest known size -/

end Codec

/-! ## Formats -/

namespace Format

end Format

end BinaryFormat
