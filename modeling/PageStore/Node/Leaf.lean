import PageStore.Node.Records

/-!
# Leaves

A leaf is a node whose records are entries, each a key and the row that it leads to. The leaves
of a tree form a chain in key order: each states the next one.

`search` finds a key by halving the range of indices. `giveUpper`, `giveAll`, `giveFirst` and
`giveLast` move entries between neighbouring leaves.
-/

namespace PageStore

/-- Where a key is in a leaf. -/
inductive LeafPlace where
  /-- the key is at this index -/
  | found (index : Nat)
  /-- the key is absent, and this is where it would go -/
  | missing (index : Nat)
  deriving DecidableEq, Repr

/-- The index, whether the key is there or not. -/
def LeafPlace.index : LeafPlace → Nat
  | found i => i
  | missing i => i

namespace Leaf

/-! ## Reading -/

/-- The next leaf in key order, or none. -/
def next (l : Leaf) : PageId := ⟨l.page.word 24⟩

/-- The row of entry `i`. -/
def row (l : Leaf) (i : Nat) : Except Halt RowId := do
  demand (RowId.ofBytes? (← l.payload i))

/-- Entry `i`. -/
def entry (l : Leaf) (i : Nat) : Except Halt (Key × RowId) := do
  return (← l.key i, ← l.row i)

/-- The entries in order. -/
def entries (l : Leaf) : Except Halt (List (Key × RowId)) := (List.range l.size).mapM l.entry

/-- The keys in order. -/
def keys (l : Leaf) : Except Halt (List Key) := (List.range l.size).mapM l.key

/-- Looks for a key among the entries from `lo` up to `hi`. -/
def searchBetween (l : Leaf) (order : KeyOrder) (key : Key) (lo hi : Nat) :
    Except Halt LeafPlace :=
  if lo < hi then do
    let mid := lo + (hi - lo) / 2
    match order.compare (← l.key mid) key with
    | .lt => l.searchBetween order key (mid + 1) hi
    | .gt => l.searchBetween order key lo mid
    | .eq => return .found mid
  else return .missing lo
termination_by hi - lo

/-- Looks for a key. -/
def search (l : Leaf) (order : KeyOrder) (key : Key) : Except Halt LeafPlace :=
  l.searchBetween order key 0 l.size

/-! ## Writing -/

/-- States the next leaf. -/
def setNext (l : Leaf) (next : PageId) : Leaf :=
  { l with page := l.page.setWord 24 next.val }

/-- Puts an entry at index `i`; the entries from there on move up. -/
def insert (l : Leaf) (i : Nat) (key : Key) (row : RowId) : Except Halt Leaf :=
  l.insertRecord i key row.toBytes

/-! ## Between two leaves -/

/-- Keeps the least number of entries and moves the others to the empty leaf `dest`, which comes
next in the chain. -/
def giveUpper (l dest : Leaf) : Except Halt (Leaf × Leaf) := do
  let (l, dest) ← l.moveUpper dest
  return (setNext l dest.id, setNext dest (next l))

/-- Moves every entry to the end of `dest`, the leaf before, which takes this leaf's place in the
chain. -/
def giveAll (l dest : Leaf) : Except Halt (Leaf × Leaf) := do
  let (l, dest) ← l.moveAll dest
  return (l, setNext dest (next l))

/-- Moves the first entry to the end of `dest`, the leaf before. -/
def giveFirst (l dest : Leaf) : Except Halt (Leaf × Leaf) := do
  let dest ← dest.append l 0 1
  return (← l.remove 0, dest)

/-- Moves the last entry to the front of `dest`, the leaf after. -/
def giveLast (l dest : Leaf) : Except Halt (Leaf × Leaf) := do
  let last ← l.lastIndex
  let dest ← insert dest 0 (← l.key last) (← l.row last)
  return (l.setSize last, dest)

@[simp] theorem next_setNext (l : Leaf) (p : PageId) : next (setNext l p) = p := by
  simp [next, setNext]

@[simp] theorem size_setNext (l : Leaf) (p : PageId) : (setNext l p).size = l.size := by
  simp only [setNext, Node.size]
  rw [Block.word_setWord_of_disjoint _ _ _ (by decide)]

@[simp] theorem next_setSize (l : Leaf) (s : Nat) : next (l.setSize s) = next l := by
  simp only [Node.setSize, next]
  rw [Block.word_setWord_of_disjoint _ _ _ (by decide)]

end Leaf

end PageStore
