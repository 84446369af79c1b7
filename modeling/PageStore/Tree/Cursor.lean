import PageStore.Tree.Descent

/-!
# Cursors

A cursor walks the entries of a tree in key order along the chain of leaves. It keeps a guard on
the leaf that it stands in, and no guard once it is past the last entry or was refused a leaf.

Within one step a cursor meets a leaf at most twice, unless it walks in a circle of leaves
without entries.
-/

namespace PageStore

/-- An entry of a tree. -/
abbrev Entry : Type := Key × RowId

/-- A place between two entries. -/
structure Cursor (n : Nat) where
  /-- a guard on the leaf of the next entry, unless the cursor is at its end -/
  leaf : Option (Guard n)
  /-- index of the next entry in that leaf -/
  offset : Nat
  deriving Repr

namespace Cursor

variable {n m : Nat}

/-- Past the last entry. -/
def ended : Cursor n := ⟨none, 0⟩

/-- Whether the cursor holds no leaf. -/
def isEnd (c : Cursor n) : Bool := c.leaf.isNone

/-- More leaves than one step that ends can pass. -/
def stepBound : Nat := 2 * maxLogicalPages + 1

/-- The entry at an index of a leaf, or the next leaf if the leaf has no such entry. -/
def look (offset : Nat) (page : Page) : Except Halt (Entry ⊕ PageId) := do
  let leaf ← Node.ofBlock .leaf page
  if offset < leaf.size then return .inl (← Leaf.entry leaf offset)
  else return .inr (Leaf.next leaf)

/-- The next entry in or behind the leaf under a guard, and the cursor past it. -/
def advance : Nat → Guard n → Nat → Action (Pool n m) (Option Entry × Cursor n)
  | 0, _, _ => throw .endless
  | fuel + 1, g, offset => do
    match ← Tree.peek g (look offset) with
    | .inl entry => return (some entry, ⟨some g, offset + 1⟩)
    | .inr next =>
      modify (Pool.release g)
      if next.isSome then advance fuel (← Tree.fetch .read next) 0
      else return (none, ended)

/-- The next entry, and the cursor past it. When this is refused, the cursor is at its end and
holds no leaf. -/
def next (c : Cursor n) : Action (Pool n m) (Option Entry × Cursor n) :=
  match c.leaf with
  | none => return (none, c)
  | some g => advance stepBound g c.offset

/-- Lets go of the leaf. -/
def close (c : Cursor n) (pool : Pool n m) : Pool n m :=
  match c.leaf with
  | none => pool
  | some g => pool.release g

end Cursor

namespace Tree

variable {n m : Nat}

/-! ## Where a cursor starts -/

/-- Before the first entry. -/
def first (t : Tree) : Action (Pool n m) (Cursor n) := do
  return ⟨← t.findLeaf none, 0⟩

/-- The place of a key in the leaf that would hold it, with a guard on that leaf. -/
def locate (t : Tree) (key : Key) : Action (Pool n m) (Option (Guard n × LeafPlace)) := do
  t.checkKey key
  match ← t.findLeaf (some key) with
  | none => return none
  | some g =>
    let place ← peek g fun page => do
      Leaf.search (← Node.ofBlock .leaf page) t.order key
    return some (g, place)

/-- Before the entry of a key; at the end if the key is absent. -/
def seekExact (t : Tree) (key : Key) : Action (Pool n m) (Cursor n) := do
  match ← t.locate key with
  | none => return Cursor.ended
  | some (g, .found i) => return ⟨some g, i⟩
  | some (g, .missing _) =>
    modify (Pool.release g)
    return Cursor.ended

/-- Before the first entry whose key is not less than `key`. -/
def seek (t : Tree) (key : Key) : Action (Pool n m) (Cursor n) := do
  match ← t.locate key with
  | none => return Cursor.ended
  | some (g, place) => return ⟨some g, place.index⟩

/-! ## Many entries -/

/-- More entries than a walk that ends can meet. -/
def walkBound : Nat := maxLogicalPages * pageSize + 1

/-- The entries from a cursor on, up to the first whose key is greater than `last`, if that is
given. -/
def collect (t : Tree) (last : Option Key) : Nat → Cursor n → Action (Pool n m) (List Entry)
  | 0, c => do
    modify c.close
    throw .endless
  | fuel + 1, c => do
    match ← c.next with
    | (none, _) => return []
    | (some entry, c) =>
      if last.any fun key => t.order.compare entry.1 key = .gt then
        modify c.close
        return []
      else return entry :: (← t.collect last fuel c)

/-- Every entry, in key order. -/
def entries (t : Tree) : Action (Pool n m) (List Entry) := do
  t.collect none walkBound (← t.first)

/-- The entries with `low ≤ key ≤ high`, in key order. -/
def range (t : Tree) (low high : Key) : Action (Pool n m) (List Entry) := do
  t.checkKey high
  t.collect (some high) walkBound (← t.seek low)

end Tree

end PageStore
