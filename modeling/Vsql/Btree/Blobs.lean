import Vsql.Btree.Effects

/-!
# Objects that are stored in parts

An object that is larger than half a page is stored as parts of its bytes, and a reference
under its key that says how many there are.  Each part is an object of its own, which may be
on any leaf, so that reading the object back is a search for each of them.
-/

namespace Vsql

open Foundation StateError

variable {size : PageSize}

/-! ## The bytes of an object -/

namespace Btree

/-! ## The parts -/

end Btree
end Vsql
