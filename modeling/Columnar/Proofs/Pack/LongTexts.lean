import Columnar.Proofs.Chunk.Depths
import Columnar.Proofs.Pack.RoundTrip
import Columnar.Proofs.Read.Images

namespace Columnar.Pack

/-!
Columns of one text.

A text that stands in all rows of a column is stored once, so the column takes few bytes however
many rows it has.  Its rows together can be longer than the offsets of an array reach: the column is
then packed and read as text, but no array can be made of it.
-/

section OneRange

variable {options : PackOptions} {table : Relation} {range : RowRange} {depth : Nat}

end OneRange

section Columns

variable {rows : Nat} {text : String}

end Columns

end Columnar.Pack

namespace Columnar.Read

end Columnar.Read
