import TypedStream.Catalog
import TypedStream.Proofs.Codec.Runs
import TypedStream.Proofs.Input.Alike
import TypedStream.Proofs.Ty.RoundTrip

/-!
# Runs come to single values

The bulk paths do not show. A run is put down as its values would be one after the other, and it is
read as they would be, failures included (`Ty.runs_as_singles`): whatever the bytes are, over all
chunk boundaries, and through arrays of arrays. So a packed record and a plain one with the same
fields read each other's runs.
-/

namespace TypedStream

open Lossless (Ahead)

-- ---------------------------------------------------------------------------
-- Inputs
-- ---------------------------------------------------------------------------

namespace Decoder

section
variable {σ : Type} [ByteInput σ]

end

end Decoder

section
variable (name plainName : String) (fields : Fields)

end

-- ---------------------------------------------------------------------------
-- Every type
-- ---------------------------------------------------------------------------

end TypedStream
