import PageStore.Tree.Insert

/-!
# Removing

A removal goes down to the leaf of the key and drops the entry there. A node that is left with
fewer records than its least size is repaired by its parent, together with the sibling before it,
or after it when it is the first child: `rebalance` joins the two when their records fit in one
node, and otherwise lets one record change sides. Joining takes a child from the parent, which
can leave the parent short in turn. A root that is left without entries is freed, and one that is
left with a single child gives way to it.
-/

namespace PageStore

/-- What a removal below a node did. -/
inductive Removal where
  /-- the key is absent -/
  | notFound
  /-- the entry is out; the node may have fewer records than its least size -/
  | removed (underflow : Bool)
  deriving DecidableEq, Repr

/-- Two neighbouring nodes after a repair. -/
structure Repair (k : NodeKind) where
  /-- the node before -/
  left : Node k
  /-- the node after -/
  right : Node k
  /-- the new key between the two, or none when `left` took every record -/
  separator : Option Key
  /-- children that moved to `left` -/
  toLeft : List PageId := []
  /-- children that moved to `right` -/
  toRight : List PageId := []

/-- Joins two leaves, or lets the one that is not short give an entry to the other. -/
def Leaf.repair (left right : Leaf) (leftShort : Bool) : Except Halt (Repair .leaf) := do
  if left.size + right.size ≤ left.maxSize then
    let (right, left) ← Leaf.giveAll right left
    return { left, right, separator := none }
  else if leftShort then
    let (right, left) ← Leaf.giveFirst right left
    return { left, right, separator := some (← right.key 0) }
  else
    let (left, right) ← Leaf.giveLast left right
    return { left, right, separator := some (← right.key 0) }

/-- Joins two internal nodes, or lets the one that is not short give a child to the other. The
key between the two is `middle`. -/
def Internal.repair (left right : Internal) (middle : Key) (leftShort : Bool) :
    Except Halt (Repair .internal) := do
  if left.size + right.size ≤ left.maxSize then
    let (right, left, toLeft) ← Internal.giveAll right left middle
    return { left, right, separator := none, toLeft }
  else if leftShort then
    let (right, left, moved) ← Internal.giveFirst right left middle
    return { left, right, separator := some (← right.key 0), toLeft := [moved] }
  else
    let (left, right, moved) ← Internal.giveLast left right middle
    return { left, right, separator := some (← right.key 0), toRight := [moved] }

/-- Two neighbouring children of a node. -/
structure Siblings where
  /-- index of the first of the two -/
  index : Nat
  /-- the child before -/
  left : PageId
  /-- the child after -/
  right : PageId
  /-- the key between the two -/
  middle : Key
  deriving DecidableEq, Repr

/-- The child at an index and the sibling that repairs it: the one before, or the one after when
the child is the first. -/
def Internal.siblings (p : PageId) (childIndex : Nat) (page : Page) : Except Halt Siblings := do
  let parent ← Node.ofBlock .internal page
  if parent.size < 2 then refuse (.tree (.broken p .siblings))
  let index := childIndex - 1
  return {
    index
    left := ← Internal.child parent index
    right := ← Internal.child parent (index + 1)
    middle := ← parent.key (index + 1) }

/-- The parent after a repair of the children at `index` and behind it. -/
def Internal.afterRepair (parent : Internal) (index : Nat) (separator : Option Key) :
    Except Halt Internal :=
  match separator with
  | some key => parent.setKey (index + 1) key
  | none => parent.remove (index + 1)

/-- What a repair leaves to do once the three nodes are released. -/
structure Aftermath where
  /-- the page that holds no records any more, if the two nodes were joined -/
  emptied : Option PageId
  /-- children that moved, with their new parents -/
  moved : List (PageId × PageId)
  /-- whether the parent has fewer records than its least size -/
  underflow : Bool
  deriving DecidableEq, Repr

namespace Tree

variable {n m : Nat}

/-- The node under a guard, whose page counts as changed from now on. -/
def nodeToEdit (k : NodeKind) (g : Guard n) : Action (Pool n m) (Node k) := do
  modify (Pool.mark g)
  Node.ofBlock k ((← get).bytes g)

/-- Stores the outcome of a repair in the three pages. -/
def settle {k : NodeKind} (gp gl gr : Guard n) (s : Siblings) (parent : Internal) (r : Repair k) :
    Action (Pool n m) Aftermath := do
  let parent ← Internal.afterRepair parent s.index r.separator
  modify (Pool.put gp parent.page)
  modify (Pool.put gl r.left.page)
  modify (Pool.put gr r.right.page)
  return {
    emptied := if r.separator.isNone then some s.right else none
    moved := r.toLeft.map (·, s.left) ++ r.toRight.map (·, s.right)
    underflow := parent.size < parent.minSize }

/-- Repairs two neighbouring children of the node under a guard. -/
def repairUnder (gp : Guard n) (s : Siblings) (leftShort : Bool) :
    Action (Pool n m) Aftermath := do
  let gl ← fetch .write s.left
  Pool.holding gl do
    let gr ← fetch .write s.right
    Pool.holding gr do
      let kind ← NodeHeader.kind ((← get).bytes gl)
      let parent ← nodeToEdit .internal gp
      match kind with
      | .leaf =>
        let left ← nodeToEdit .leaf gl
        let right ← nodeToEdit .leaf gr
        settle gp gl gr s parent (← Leaf.repair left right leftShort)
      | .internal =>
        let left ← nodeToEdit .internal gl
        let right ← nodeToEdit .internal gr
        settle gp gl gr s parent (← Internal.repair left right s.middle leftShort)

/-- Repairs the child at an index of node `p`, which has too few records. Answers whether `p` has
too few records now. -/
def rebalance (p : PageId) (childIndex : Nat) : Action (Pool n m) Bool := do
  let gp ← fetch .write p
  let done ← Pool.holding gp do
    let s ← Internal.siblings p childIndex ((← get).bytes gp)
    repairUnder gp s (childIndex = 0)
  match done.emptied with
  | some page => freePage page
  | none => pure ()
  done.moved.forM fun (child, parent) => setParent child parent
  return done.underflow

/-- Removes a key from the leaf under a guard, which is released. -/
def removeFromLeaf (t : Tree) (g : Guard n) (key : Key) : Action (Pool n m) Removal :=
  Pool.holding g do
    let leaf ← Node.ofBlock .leaf ((← get).bytes g)
    match ← Leaf.search leaf t.order key with
    | .missing _ => return .notFound
    | .found i =>
      let leaf ← leaf.remove i
      modify (Pool.put g leaf.page)
      return .removed (leaf.size < leaf.minSize)

/-- Removes a key below page `p`. -/
def removeBelow (t : Tree) (key : Key) : Nat → PageId → Action (Pool n m) Removal
  | 0, _ => throw .endless
  | fuel + 1, p => do
    let g ← fetch .write p
    match ← peek g (t.route (some key)) with
    | none => t.removeFromLeaf g key
    | some (i, child) =>
      modify (Pool.release g)
      match ← t.removeBelow key fuel child with
      | .removed true => return .removed (← rebalance p i)
      | done => return done

/-- What a root has to give way to: nothing while it has entries or two children, no page when it
is an empty leaf, and its only child otherwise. -/
def rootHeir (page : Page) : Except Halt (Option PageId) := do
  match ← NodeHeader.kind page with
  | .leaf =>
    let leaf ← Node.ofBlock .leaf page
    return if 0 < leaf.size then none else some PageId.none
  | .internal =>
    let node ← Node.ofBlock .internal page
    if 1 < node.size then return none else return some (← Internal.child node 0)

end Tree

namespace Index

variable {n m : Nat}

/-- Replaces a root that has become superfluous. -/
def shrinkRoot : Action (Index n m) Unit := do
  let old := (← get).tree.root
  match ← onPool (Tree.view old Tree.rootHeir) with
  | none => return
  | some root =>
    if root.isSome then onPool (Tree.setParent root PageId.none)
    onPool (Tree.freePage old)
    setRoot root

/-- Removes a key. Answers whether it was present. -/
def remove (key : Key) : Action (Index n m) Bool := do
  let t := (← get).tree
  t.checkKey key
  if t.isEmpty then return false
  match ← onPool (t.removeBelow key Tree.descentBound t.root) with
  | .notFound => return false
  | .removed _ =>
    shrinkRoot
    return true

end Index

end PageStore
