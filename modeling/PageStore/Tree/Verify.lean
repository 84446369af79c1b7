import PageStore.Tree.Descent

/-!
# Verifying a tree

`verify` walks the whole tree and checks every rule of its structure: keys increase and lie
between the separators around them, nodes are neither too small nor too large, every node names
its own page and its parent, all leaves have one depth, and the chain of leaves links exactly the
leaves in key order. It answers the number of entries.

A page that is met again on the way down names another parent than the one it is reached from
now, so a walk that goes in a circle is refused, and no walk goes deeper than there are pages.
-/

namespace PageStore

/-- What has been seen of a tree so far. -/
structure Survey where
  /-- number of entries -/
  entries : Nat := 0
  /-- depth of the leaves -/
  depth : Option Nat := none
  /-- the leaves in key order, each with the leaf that it links to -/
  leaves : Array (PageId × PageId) := #[]

/-- What a look at one page found. -/
inductive Finding where
  /-- a leaf with so many entries, and the leaf that it links to -/
  | leaf (entries : Nat) (next : PageId)
  /-- an internal node with these keys and children -/
  | internal (records : List (Key × PageId))

/-- A page that is to be looked at: which it is, which node led there, between which keys its own
keys have to lie, and how deep it is. -/
structure Visit where
  page : PageId
  parent : PageId
  lower : Option Key
  upper : Option Key
  depth : Nat

/-- Refuses a page that breaks a rule. -/
def ensure (holds : Bool) (p : PageId) (rule : TreeRule) : Except Halt Unit :=
  if holds then .ok () else refuse (.tree (.broken p rule))

/-- Checks that keys increase, from `lower` on and up to but without `upper`. -/
def checkKeys (order : KeyOrder) (p : PageId) (lower upper : Option Key) :
    Option Key → List Key → Except Halt Unit
  | _, [] => .ok ()
  | previous, key :: keys => do
    ensure (previous.all fun k => order.compare k key = .lt) p .keyOrder
    ensure (lower.all fun k => order.compare key k ≠ .lt) p .lowerBound
    ensure (upper.all fun k => order.compare key k = .lt) p .upperBound
    checkKeys order p lower upper (some key) keys

/-- The children of a node, each with the keys between which its own keys have to lie. -/
def childSpans (lower upper : Option Key) :
    List (Key × PageId) → List (PageId × Option Key × Option Key)
  | [] => []
  | [(_, child)] => [(child, lower, upper)]
  | (_, child) :: (key, next) :: rest =>
    (child, lower, some key) :: childSpans (some key) upper ((key, next) :: rest)

/-- Checks that each leaf links to the next one, and the last to none. -/
def checkChain : List (PageId × PageId) → Except Halt Unit
  | [] => .ok ()
  | [(leaf, next)] => ensure (!next.isSome) leaf .chainEnd
  | (leaf, next) :: (following, link) :: rest => do
    ensure (next = following) leaf .chain
    checkChain ((following, link) :: rest)

namespace Survey

/-- One leaf more. -/
def addLeaf (s : Survey) (v : Visit) (entries : Nat) (next : PageId) : Except Halt Survey := do
  ensure (s.depth.all (· = v.depth)) v.page .evenDepth
  return {
    entries := s.entries + entries
    depth := some v.depth
    leaves := s.leaves.push (v.page, next) }

end Survey

namespace Tree

variable {n m : Nat}

/-- Checks a leaf by itself. -/
def examineLeaf (t : Tree) (v : Visit) (page : Page) : Except Halt Finding := do
  let leaf ← Node.ofBlock .leaf page
  ensure (leaf.id = v.page) v.page .ownId
  ensure (leaf.parent = v.parent) v.page .parent
  ensure (leaf.keySize = t.keySize) v.page .keySize
  ensure (leaf.size ≤ leaf.maxSize) v.page .leafMost
  ensure ((if v.parent.isSome then leaf.minSize else 1) ≤ leaf.size) v.page .leafLeast
  checkKeys t.order v.page v.lower v.upper none (← Leaf.keys leaf)
  return .leaf leaf.size (Leaf.next leaf)

/-- Checks an internal node by itself. -/
def examineInternal (t : Tree) (v : Visit) (page : Page) : Except Halt Finding := do
  let node ← Node.ofBlock .internal page
  ensure (node.id = v.page) v.page .ownId
  ensure (node.parent = v.parent) v.page .parent
  ensure (node.keySize = t.keySize) v.page .keySize
  ensure (node.size ≤ node.maxSize) v.page .internalMost
  ensure ((if v.parent.isSome then node.minSize else 2) ≤ node.size) v.page .internalLeast
  let records ← Internal.entries node
  checkKeys t.order v.page v.lower v.upper none (records.tail.map Prod.fst)
  return .internal records

/-- Checks a page by itself. -/
def examine (t : Tree) (v : Visit) (page : Page) : Except Halt Finding := do
  match ← NodeHeader.kind page with
  | .leaf => t.examineLeaf v page
  | .internal => t.examineInternal v page

/-- Checks the nodes from a page on down, and adds what is found to a survey. -/
def surveyBelow (t : Tree) : Nat → Visit → Survey → Action (Pool n m) Survey
  | 0, _, _ => throw .endless
  | fuel + 1, v, s => do
    match ← view v.page (t.examine v) with
    | .leaf entries next => s.addLeaf v entries next
    | .internal records =>
      (childSpans v.lower v.upper records).foldlM (fun s (child, lower, upper) =>
        t.surveyBelow fuel ⟨child, v.page, lower, upper, v.depth + 1⟩ s) s

/-- Checks the whole tree, and answers the number of entries. -/
def verify (t : Tree) : Action (Pool n m) Nat := do
  if t.isEmpty then return 0
  let s ← t.surveyBelow descentBound ⟨t.root, PageId.none, none, none, 1⟩ {}
  checkChain s.leaves.toList
  return s.entries

end Tree

end PageStore
