import PageStore.Tree.Descent

/-!
# Inserting

An insertion goes down to the leaf for the key. A leaf with room takes the entry. A full leaf
splits: a new leaf takes its upper half, and the parent has to take the new leaf, which can split
the parent in turn. When the root splits, a new root goes above the two halves.

At every level the new page is allocated before the node changes, so a node is left as it was
when there is no page to be had.
-/

namespace PageStore

/-- What an insertion below a node did. -/
inductive Insertion where
  /-- the key is present already -/
  | duplicate
  /-- the entry is in, and the node took it -/
  | inserted
  /-- the entry is in, and the node split: `right` goes behind it, under `separator` -/
  | split (separator : Key) (right : PageId)
  deriving DecidableEq, Repr

namespace Pool

variable {n m : Nat}

/-- Replaces the bytes of a guarded page. -/
def put (g : Guard n) (data : Page) (pool : Pool n m) : Pool n m :=
  (pool.mark g).editFrame g.frame fun frame => { frame with data }

end Pool

namespace Tree

variable {n m : Nat}

/-- Inserts an entry into the leaf under a guard, which is released. -/
def insertIntoLeaf (t : Tree) (g : Guard n) (key : Key) (row : RowId) :
    Action (Pool n m) Insertion :=
  Pool.holding g do
    let leaf ← Node.ofBlock .leaf ((← get).bytes g)
    match ← Leaf.search leaf t.order key with
    | .found _ => return .duplicate
    | .missing i =>
      if leaf.size < leaf.maxSize then
        let leaf ← Leaf.insert leaf i key row
        modify (Pool.put g leaf.page)
        return .inserted
      else
        let s ← Pool.newPage
        Pool.holding s do
          let leaf ← Leaf.insert leaf i key row
          let sibling := Node.fresh .leaf s.page leaf.parent leaf.maxSize t.keySize
          let (leaf, sibling) ← Leaf.giveUpper leaf sibling
          modify (Pool.put g leaf.page)
          modify (Pool.put s sibling.page)
          return .split (← sibling.key 0) s.page

/-- Gives the node under a guard a child behind a separator. The guard is released. Also answers
which children moved to a new node. -/
def insertChild (t : Tree) (g : Guard n) (separator : Key) (right : PageId) :
    Action (Pool n m) (Insertion × List PageId) :=
  Pool.holding g do
    let node ← Node.ofBlock .internal ((← get).bytes g)
    let i := (← Internal.lookup node t.order separator) + 1
    if node.size < node.maxSize then
      let node ← Internal.insert node i separator right
      modify (Pool.put g node.page)
      return (.inserted, [])
    else
      let s ← Pool.newPage
      Pool.holding s do
        let node ← Internal.insert node i separator right
        let sibling := Node.fresh .internal s.page node.parent node.maxSize t.keySize
        let (node, sibling, moved) ← Internal.giveUpper node sibling
        modify (Pool.put g node.page)
        modify (Pool.put s sibling.page)
        return (.split (← sibling.key 0) s.page, moved)

/-- Gives node `p` a child behind a separator, and children that moved their new parent. -/
def insertIntoInternal (t : Tree) (p : PageId) (separator : Key) (right : PageId) :
    Action (Pool n m) Insertion := do
  let g ← fetch .write p
  let (done, moved) ← t.insertChild g separator right
  match done with
  | .split _ sibling => moved.forM fun child => setParent child sibling
  | _ => pure ()
  return done

/-- Inserts an entry below page `p`. -/
def insertBelow (t : Tree) (key : Key) (row : RowId) :
    Nat → PageId → Action (Pool n m) Insertion
  | 0, _ => throw .endless
  | fuel + 1, p => do
    let g ← fetch .write p
    match ← peek g (t.route (some key)) with
    | none => t.insertIntoLeaf g key row
    | some (_, child) =>
      modify (Pool.release g)
      match ← t.insertBelow key row fuel child with
      | .split separator right => t.insertIntoInternal p separator right
      | done => return done

/-- A new leaf with one entry. -/
def newLeaf (t : Tree) (key : Key) (row : RowId) : Action (Pool n m) PageId := do
  let g ← Pool.newPage
  Pool.holding g do
    let blank := Node.fresh .leaf g.page PageId.none t.limits.leafMax t.keySize
    let leaf ← Leaf.insert blank 0 key row
    modify (Pool.put g leaf.page)
    return g.page

/-- A new root above two nodes. -/
def newRoot (t : Tree) (left : PageId) (separator : Key) (right : PageId) :
    Action (Pool n m) PageId := do
  let g ← Pool.newPage
  Pool.holding g do
    let node ← Internal.populate
      (Node.fresh .internal g.page PageId.none t.limits.internalMax t.keySize) left separator right
    modify (Pool.put g node.page)
    return g.page

end Tree

namespace Index

variable {n m : Nat}

/-- Puts a new root above the old one and its new sibling. -/
def growRoot (separator : Key) (right : PageId) : Action (Index n m) Unit := do
  let t := (← get).tree
  let root ← onPool (t.newRoot t.root separator right)
  onPool (Tree.setParent t.root root)
  onPool (Tree.setParent right root)
  setRoot root

/-- Inserts an entry. Answers whether the key was absent; if it was present, nothing changes. -/
def insert (key : Key) (row : RowId) : Action (Index n m) Bool := do
  let t := (← get).tree
  t.checkKey key
  if t.isEmpty then
    setRoot (← onPool (t.newLeaf key row))
    return true
  match ← onPool (t.insertBelow key row Tree.descentBound t.root) with
  | .duplicate => return false
  | .inserted => return true
  | .split separator right =>
    growRoot separator right
    return true

end Index

end PageStore
