import PageStore.Tree.Descent

/-!
# Walking and freeing a whole tree

`inspect` looks at every node of a tree, a parent before its children, and lists what it finds;
`nodes` lists the nodes themselves. `Index.destroy` frees every page of a tree, children before
their parent, and leaves a tree without keys.
-/

namespace PageStore

/-- A node of either kind. -/
inductive AnyNode where
  | leaf (node : Leaf)
  | internal (node : Internal)

namespace AnyNode

/-- The page as the kind of node that it is. -/
def ofPage (page : Page) : Except Halt AnyNode := do
  match ← NodeHeader.kind page with
  | .leaf => return leaf (← Node.ofBlock .leaf page)
  | .internal => return internal (← Node.ofBlock .internal page)

/-- Number of records. -/
def size : AnyNode → Nat
  | leaf node => node.size
  | internal node => node.size

/-- The children in order; a leaf has none. -/
def children : AnyNode → Except Halt (List PageId)
  | leaf _ => return []
  | internal node => Internal.children node

end AnyNode

namespace Tree

variable {n m : Nat} {α : Type}

/-- What `look` finds at the nodes from page `p` on down, given the depth of `p`. -/
def inspectBelow (look : Nat → PageId → AnyNode → Except Halt α) :
    Nat → Nat → PageId → Action (Pool n m) (List α)
  | 0, _, _ => throw .endless
  | fuel + 1, depth, p => do
    let (found, children) ← Pool.view p fun page => do
      let node ← AnyNode.ofPage page
      return (← look depth p node, ← node.children)
    let below ← children.mapM (inspectBelow look fuel (depth + 1))
    return found :: below.flatten

/-- What `look` finds at each node of the tree, given the depth and the page of the node; the root
has depth 0. A node is looked at before its children are fetched, so the walk goes no further than
the first node at which `look` stops. -/
def inspect (t : Tree) (look : Nat → PageId → AnyNode → Except Halt α) :
    Action (Pool n m) (List α) := do
  if t.isEmpty then return []
  inspectBelow look descentBound 0 t.root

/-- The nodes of the tree, each with its depth and its page. -/
def nodes (t : Tree) : Action (Pool n m) (List (Nat × PageId × AnyNode)) :=
  t.inspect fun depth p node => .ok (depth, p, node)

/-- The children of the node in a page. Of a leaf no more than its kind is looked at. -/
def childPages (page : Page) : Except Halt (List PageId) := do
  match ← NodeHeader.kind page with
  | .leaf => return []
  | .internal => Internal.children (← Node.ofBlock .internal page)

/-- Frees the pages from `p` on down. -/
def freeBelow : Nat → PageId → Action (Pool n m) Unit
  | 0, _ => throw .endless
  | fuel + 1, p => do
    let children ← view p childPages
    children.forM (freeBelow fuel)
    freePage p

end Tree

namespace Index

variable {n m : Nat}

/-- Frees every page of the tree, which has no keys afterwards, and no recorded root. -/
def destroy : Action (Index n m) Unit := do
  let t := (← get).tree
  if !t.isEmpty then onPool (Tree.freeBelow Tree.descentBound t.root)
  modify fun x => { x with tree := { x.tree with root := PageId.none } }
  match t.registration with
  | none => return
  | some r =>
    onPool <| Pool.update r.page fun page => .ok ((Roots.erase page r.index).getD page)

end Index

end PageStore
