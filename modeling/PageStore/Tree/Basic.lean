import PageStore.Node.Internal
import PageStore.Node.Leaf
import PageStore.Pool.Upkeep
import PageStore.Roots

/-!
# Trees

A tree is a B+ tree over keys of one width, which maps each key to a row. A `Tree` itself is
small: where the root is, how keys are ordered, how large nodes may become, and where the root is
recorded. Its nodes are pages of a pool. A tree without keys has no root and no pages.

Actions that leave the tree's own data alone run on the pool. An `Index` is a tree together with
its pool, for the actions that change the root.

A page that the tree points at, and that the pool cannot produce, is damage to the tree, and
refused as such.
-/

namespace PageStore

/-- Where the root of a tree is recorded. -/
structure Registration where
  /-- the roots page -/
  page : PageId
  /-- the tree's index in it -/
  index : UInt32
  deriving DecidableEq, Repr

/-- A B+ tree. -/
structure Tree where
  /-- the root, or none -/
  root : PageId
  /-- how keys are ordered -/
  order : KeyOrder
  /-- width of the keys in bytes -/
  keySize : Nat
  /-- how large new nodes may become -/
  limits : NodeLimits
  /-- where the root is recorded, if it is -/
  registration : Option Registration
  deriving DecidableEq, Repr

/-- A tree and the pool that holds its pages. -/
structure Index (n m : Nat) where
  /-- the tree -/
  tree : Tree
  /-- the pool -/
  pool : Pool n m

namespace Tree

variable {n m : Nat}

/-! ## New trees -/

/-- A tree without keys. -/
def create (order : KeyOrder) (keySize : Nat) (config : TreeConfig) : Except StoreError Tree := do
  if keySize = 0 then throw (.settings .keySize)
  let limits ← config.resolve (NodeKind.leaf.capacity keySize) (NodeKind.internal.capacity keySize)
  return { root := PageId.none, order, keySize, limits, registration := none }

/-- Whether the tree has no keys. -/
def isEmpty (t : Tree) : Bool := !t.root.isSome

theorem isEmpty_iff {t : Tree} : t.isEmpty = true ↔ t.root = PageId.none := by
  simp [isEmpty, PageId.isSome]

/-- Refuses a key of the wrong width. -/
def checkKey (t : Tree) (key : Key) : Except StoreError Unit :=
  if key.length = t.keySize then .ok () else .error (.keySize t.keySize key.length)

theorem checkKey_eq_ok {t : Tree} {key : Key} (h : key.length = t.keySize) :
    t.checkKey key = .ok () := if_pos h

theorem checkKey_eq_error {t : Tree} {key : Key} (h : key.length ≠ t.keySize) :
    t.checkKey key = .error (.keySize t.keySize key.length) := if_neg h

/-! ## Pages of a tree -/

/-- A page that cannot be produced, seen from the tree that points at it. -/
def missing (p : PageId) : StoreError → StoreError
  | .notAllocated _ => .tree (.unallocated p)
  | .invalidPage _ => .tree (.unallocated p)
  | e => e

/-- Fetches a page of a tree. -/
def fetch (mode : Mode) (p : PageId) : Action (Pool n m) (Guard n) := fun pool =>
  match Pool.fetch mode p pool with
  | .error (.refused e) pool => .error (.refused (missing p e)) pool
  | r => r

/-- Fetches a page of a tree for a look at its bytes. -/
def view {α : Type} (p : PageId) (look : Page → Except Halt α) : Action (Pool n m) α := do
  Pool.inspect (← fetch .read p) look

/-- States another parent in a node. -/
def setParent (p parent : PageId) : Action (Pool n m) Unit := do
  let g ← fetch .write p
  Pool.holding g (Pool.edit g fun page => NodeHeader.setParent page parent)

/-- Frees a page of a tree. -/
def freePage (p : PageId) : Action (Pool n m) Unit := do
  if !(← Pool.delete p) then throw (.refused (.tree (.alreadyFree p)))

/-! ## Existing trees -/

/-- The width of the keys of a node of either kind. -/
def keySizeOf (page : Page) : Except Halt Nat := do
  match ← NodeHeader.kind page with
  | .leaf => return (← Node.ofBlock .leaf page).keySize
  | .internal => return (← Node.ofBlock .internal page).keySize

/-- Refuses a root that is no node, or one of other keys. -/
def checkRoot (t : Tree) : Action (Pool n m) Unit := do
  if t.root.isSome then
    let found ← view t.root keySizeOf
    if found ≠ t.keySize then throw (.refused (.keySize found t.keySize))

/-- The tree with a given root. -/
def attach (order : KeyOrder) (keySize : Nat) (config : TreeConfig) (root : PageId) :
    Action (Pool n m) Tree := do
  let t ← (create order keySize config : Except StoreError Tree)
  let t := { t with root }
  t.checkRoot
  return t

/-! ## Recorded roots -/

/-- Records the root, if the tree has a place for it. -/
def persistRoot (t : Tree) : Action (Pool n m) Unit := do
  match t.registration with
  | none => return
  | some r =>
    Pool.update r.page fun page =>
      match Roots.set page r.index t.root with
      | some page => .ok page
      | none => refuse (.settings (.rootsFull r.page r.index))

/-- The tree with its root recorded in a roots page from now on. If a root is recorded there
already, it becomes the root of the tree. -/
def register (t : Tree) (page : PageId) (index : UInt32) : Action (Pool n m) Tree := do
  let recorded ← Pool.view page fun bytes => .ok (Roots.get? bytes index)
  let t := { t with registration := some ⟨page, index⟩ }
  match recorded with
  | some root =>
    let t := { t with root }
    t.checkRoot
    return t
  | none =>
    t.persistRoot
    return t

end Tree

namespace Index

variable {n m : Nat}

/-- Runs an action on the pool. -/
def onPool {α : Type} (act : Action (Pool n m) α) : Action (Index n m) α :=
  Action.focus (fun ⟨tree, pool⟩ => (pool, fun p => ⟨tree, p⟩)) act

/-- Gives the tree another root, and records it. -/
def setRoot (root : PageId) : Action (Index n m) Unit := do
  modify fun x => { x with tree := { x.tree with root } }
  onPool (← get).tree.persistRoot

end Index

end PageStore
