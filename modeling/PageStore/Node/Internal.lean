import PageStore.Node.Records

/-!
# Internal nodes

An internal node is a node whose records are children, each behind a key. The key of record `i`
separates child `i - 1` from child `i`: child `i` leads to the keys from its own key up to the
next one. The key of record 0 is a placeholder that no search looks at.

`lookup` finds the child for a key. `giveUpper`, `giveAll`, `giveFirst` and `giveLast` move
children between neighbours; the last three turn the key between the two nodes, which is in the
parent, into a key of the node that receives.
-/

namespace PageStore.Internal

/-- The stored form of a child. -/
def childBytes (child : PageId) : List UInt8 := Block.wordBytes child.val

/-! ## Reading -/

/-- Child `i`. -/
def child (n : Internal) (i : Nat) : Except Halt PageId := do
  return ⟨Block.wordOf (← n.payload i)⟩

/-- Record `i`. -/
def entry (n : Internal) (i : Nat) : Except Halt (Key × PageId) := do
  return (← n.key i, ← child n i)

/-- The records in order, the placeholder key included. -/
def entries (n : Internal) : Except Halt (List (Key × PageId)) :=
  (List.range n.size).mapM (entry n)

/-- `count` children from index `start` on. -/
def childrenFrom (n : Internal) (start count : Nat) : Except Halt (List PageId) :=
  (List.range' start count).mapM (child n)

/-- The children in order. -/
def children (n : Internal) : Except Halt (List PageId) := childrenFrom n 0 n.size

/-- The keys in order, the placeholder included. -/
def keys (n : Internal) : Except Halt (List Key) := (List.range n.size).mapM n.key

/-- The first of `count` indices from `i` on at which a child is. -/
def indexAmong (n : Internal) (p : PageId) : Nat → Nat → Except Halt (Option Nat)
  | 0, _ => .ok none
  | count + 1, i => do
    if (← child n i) = p then return some i else indexAmong n p count (i + 1)

/-- The first index at which a child is. -/
def index (n : Internal) (p : PageId) : Except Halt (Option Nat) := indexAmong n p n.size 0

/-- Looks among the keys from `lo` up to `hi` for the first that is greater than `key`. -/
def lookupBetween (n : Internal) (order : KeyOrder) (key : Key) (lo hi : Nat) :
    Except Halt Nat :=
  if lo < hi then do
    let mid := lo + (hi - lo) / 2
    if order.compare (← n.key mid) key = .gt then lookupBetween n order key lo mid
    else lookupBetween n order key (mid + 1) hi
  else return lo
termination_by hi - lo

/-- Index of the child that leads to `key`: the last whose key is not greater, or 0. -/
def lookup (n : Internal) (order : KeyOrder) (key : Key) : Except Halt Nat := do
  return (← lookupBetween n order key 1 n.size) - 1

/-! ## Writing -/

/-- Replaces child `i`. -/
def setChild (n : Internal) (i : Nat) (child : PageId) : Except Halt Internal :=
  n.setPayload i (childBytes child)

/-- Puts a child behind a key at index `i`; the records from there on move up. -/
def insert (n : Internal) (i : Nat) (key : Key) (child : PageId) : Except Halt Internal :=
  n.insertRecord i key (childBytes child)

/-- Makes two children, separated by `key`, the node's only ones. -/
def populate (n : Internal) (left : PageId) (key : Key) (right : PageId) :
    Except Halt Internal := do
  let n ← setChild n 0 left
  let n ← n.setRecord 1 key (childBytes right)
  return n.setSize 2

/-! ## Between two nodes -/

/-- Keeps the least number of children and moves the others to the empty node `dest`. The key of
the first one becomes the placeholder of `dest`, and is the key between the two nodes. Also
answers which children moved. -/
def giveUpper (n dest : Internal) : Except Halt (Internal × Internal × List PageId) := do
  let moved := n.size - n.minSize
  let (n, dest) ← n.moveUpper dest
  return (n, dest, ← childrenFrom dest 0 moved)

/-- Moves every child to the end of `dest`, the node before, with `middle` as the key of the first
one. Also answers which children moved. -/
def giveAll (n dest : Internal) (middle : Key) :
    Except Halt (Internal × Internal × List PageId) := do
  let start := dest.size
  let moved := n.size
  let n ← n.setKey 0 middle
  let (n, dest) ← n.moveAll dest
  return (n, dest, ← childrenFrom dest start moved)

/-- Moves the first child to the end of `dest`, the node before, with `middle` as its key. The
placeholder of `n` is then the new key between the two. Also answers which child moved. -/
def giveFirst (n dest : Internal) (middle : Key) : Except Halt (Internal × Internal × PageId) := do
  let moved ← child n 0
  let dest ← insert dest dest.size middle moved
  return (← n.remove 0, dest, moved)

/-- Moves the last child to the front of `dest`, the node after, whose first child gets `middle`
as its key. The placeholder of `dest` is then the new key between the two. Also answers which
child moved. -/
def giveLast (n dest : Internal) (middle : Key) : Except Halt (Internal × Internal × PageId) := do
  let last ← n.lastIndex
  let moved ← child n last
  let dest ← dest.setKey 0 middle
  let dest ← insert dest 0 (← n.key last) moved
  return (n.setSize last, dest, moved)

end PageStore.Internal
