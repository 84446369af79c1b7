import PageStore.Tree.Basic

/-!
# Descending a tree

A descent goes from the root to a leaf, one page at a time: at an internal node it takes the
child that leads to the key, or the first child when no key is given. A descent that ends never
meets a page twice, so it takes at most `maxLogicalPages` steps; one that takes more walks in a
circle.
-/

namespace PageStore.Tree

variable {n m : Nat}

/-- More steps than a descent that ends can take. -/
def descentBound : Nat := maxLogicalPages + 1

/-- The index of the child that leads to the key, and the child; nothing in a leaf. -/
def route (t : Tree) (key : Option Key) (page : Page) : Except Halt (Option (Nat × PageId)) := do
  match ← NodeHeader.kind page with
  | .leaf => return none
  | .internal =>
    let node ← Node.ofBlock .internal page
    let i ← match key with
      | some key => Internal.lookup node t.order key
      | none => .ok 0
    return some (i, ← Internal.child node i)

/-- Looks at the page under a guard, which is released if the look stops. -/
def peek {α : Type} (g : Guard n) (look : Page → Except Halt α) : Action (Pool n m) α :=
  Action.onHalt (do look ((← get).bytes g)) (Pool.release g)

/-- Goes down from page `p` to a leaf, and keeps a guard on it. -/
def descend (t : Tree) (key : Option Key) : Nat → PageId → Action (Pool n m) (Guard n)
  | 0, _ => throw .endless
  | fuel + 1, p => do
    let g ← fetch .read p
    match ← peek g (t.route key) with
    | none => return g
    | some (_, child) =>
      modify (Pool.release g)
      t.descend key fuel child

/-- The leaf that would hold the key, or the first leaf; nothing in a tree without keys. -/
def findLeaf (t : Tree) (key : Option Key) : Action (Pool n m) (Option (Guard n)) := do
  if t.isEmpty then return none
  return some (← t.descend key descentBound t.root)

/-- The row of a key. -/
def get? (t : Tree) (key : Key) : Action (Pool n m) (Option RowId) := do
  t.checkKey key
  match ← t.findLeaf (some key) with
  | none => return none
  | some g =>
    Pool.inspect g fun page => do
      let leaf ← Node.ofBlock .leaf page
      match ← Leaf.search leaf t.order key with
      | .found i => return some (← Leaf.row leaf i)
      | .missing _ => return none

/-- Number of nodes on the way down from page `p` by first children. -/
def heightFrom (t : Tree) : Nat → PageId → Action (Pool n m) Nat
  | 0, _ => throw .endless
  | fuel + 1, p => do
    match ← view p (t.route none) with
    | none => return 1
    | some (_, child) => return (← t.heightFrom fuel child) + 1

/-- Number of levels; 0 without keys. -/
def height (t : Tree) : Action (Pool n m) Nat := do
  if t.isEmpty then return 0
  t.heightFrom descentBound t.root

end PageStore.Tree
