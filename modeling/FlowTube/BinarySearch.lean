/-! Binary search in an array. A window of entries is halved until one is left; on an
array that is sorted for the question asked, the answers are those of a scan. -/

namespace FlowTube.BinarySearch

variable {α : Type}

/-- The entry that is left of the window of `size` entries from `base` on, if each
halving moves to the entries from the middle on where `rightward` holds there. -/
@[specialize] def descend (rightward : Nat → Bool) (base size : Nat) : Nat :=
  if size ≤ 1 then base
  else
    descend rightward (if rightward (base + size / 2) then base + size / 2 else base)
      (size - size / 2)
termination_by size

/-- How many entries come before the first one that fails `p`. -/
@[inline] def partitionPoint (p : α → Bool) (xs : Array α) : Nat :=
  let holds (i : Nat) : Bool := xs[i]?.any p
  let i := descend holds 0 xs.size
  if holds i then i + 1 else i

/-- Index of an entry that `cmp` finds equal; `cmp` tells the place of an entry against
the one that is sought. -/
@[inline] def find? (cmp : α → Ordering) (xs : Array α) : Option Nat :=
  let i := descend (fun j => xs[j]?.any fun a => cmp a != .gt) 0 xs.size
  if xs[i]?.any fun a => cmp a == .eq then some i else none

end FlowTube.BinarySearch
