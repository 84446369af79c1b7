import PageStore.Action

/-!
# Nodes

A node of a tree is a page whose bytes are read in a certain way. Its header states the kind of
node, the number of records, the largest number allowed, the width of the keys, the parent and
the node's own page id; a leaf also states the next leaf.

`Node k` is a page whose header was checked to be that of a node of kind `k`, together with the
key width that was found there. `Node.ofBlock` makes the check and `Node.fresh` formats a page.
-/

namespace PageStore

/-! ## Headers of any bytes -/

namespace NodeHeader

variable {n : Nat}

/-- The kind of node that the bytes are. -/
def kind (b : Block n) : Except Halt NodeKind := do
  let tag ← demand b[0]?
  match NodeKind.ofTag? tag with
  | some k => return k
  | none => refuse (.tree (.unknownKind ⟨← demand (b.readWord 20)⟩ tag))

/-- The parent that the bytes name. -/
def parent (b : Block n) : Except Halt PageId := do
  return ⟨← demand (b.readWord 16)⟩

/-- Changes the parent that the bytes name. -/
def setParent (b : Block n) (parent : PageId) : Except Halt (Block n) :=
  demand (b.writeWord 16 parent.val)

/-- The bytes of a node without records. A header field keeps the low 32 bits of its value. -/
def blank (n : Nat) (k : NodeKind) (id parent : PageId) (maxSize keySize : Nat) : Block n :=
  let tagged : Block n := (Block.zero n).setIfInBounds 0 k.tag
  let b := tagged.setWord 8 (UInt32.ofNat maxSize)
    |>.setWord 12 (UInt32.ofNat keySize)
    |>.setWord 16 parent.val
    |>.setWord 20 id.val
  match k with
  | .leaf => b.setWord 24 PageId.none.val
  | .internal => b

/-- Formats a buffer as a node without records; the header has to fit. -/
def format (n : Nat) (k : NodeKind) (id parent : PageId) (maxSize keySize : Nat) :
    Except Halt (Block n) :=
  if k.headerSize ≤ n then .ok (blank n k id parent maxSize keySize) else .error .fault

end NodeHeader

/-! ## Nodes -/

/-- A page that is a node of kind `k`. -/
structure Node (k : NodeKind) where
  /-- the bytes -/
  page : Page
  /-- width of the keys in bytes -/
  keySize : Nat

/-- A node that holds entries. -/
abbrev Leaf : Type := Node .leaf

/-- A node that holds children. -/
abbrev Internal : Type := Node .internal

namespace Node

variable {k : NodeKind}

/-- The page id that the node states as its own. -/
def id (n : Node k) : PageId := ⟨n.page.word 20⟩

/-- The page id of the parent, or none for a root. -/
def parent (n : Node k) : PageId := ⟨n.page.word 16⟩

/-- Number of records. -/
def size (n : Node k) : Nat := (n.page.word 4).toNat

/-- Largest number of records. -/
def maxSize (n : Node k) : Nat := (n.page.word 8).toNat

/-- Least number of records, unless the node is a root. -/
def minSize (n : Node k) : Nat := PageStore.minSize n.maxSize

/-- States another number of records. -/
def setSize (n : Node k) (size : Nat) : Node k :=
  { n with page := n.page.setWord 4 (UInt32.ofNat size) }

/-- States another parent. -/
def setParent (n : Node k) (parent : PageId) : Node k :=
  { n with page := n.page.setWord 16 parent.val }

/-- A node without records. -/
def fresh (k : NodeKind) (id parent : PageId) (maxSize keySize : Nat) : Node k where
  page := NodeHeader.blank pageSize k id parent maxSize keySize
  keySize := keySize

/-- The bytes as a node of kind `k`. They must fill a page, state that kind, and state a key
width and a number of records that such a node can have. -/
def ofBlock {n : Nat} (k : NodeKind) (b : Block n) : Except Halt (Node k) :=
  match b.toPage? with
  | none => refuse (.tree (.blockSize n))
  | some page => do
    let id : PageId := ⟨page.word 20⟩
    let found ← NodeHeader.kind page
    if found ≠ k then refuse (.tree (.wrongKind id found k))
    let keySize := (page.word 12).toNat
    let size := (page.word 4).toNat
    if keySize = 0 ∨ pageSize ≤ keySize ∨ k.capacity keySize + 1 < size then
      refuse (.tree (.impossibleHeader id keySize size))
    return { page, keySize }

/-! ## Header fields read back -/

@[simp] theorem keySize_setSize (n : Node k) (s : Nat) : (n.setSize s).keySize = n.keySize := rfl

/-- The number of records that was stated, as far as a header can state it. -/
theorem size_setSize (n : Node k) {s : Nat} (h : s < 0x100000000) : (n.setSize s).size = s := by
  have hmod : s % 2 ^ 32 = s := Nat.mod_eq_of_lt h
  simp only [setSize, size, Block.word_setWord, UInt32.toNat_ofNat', hmod]

@[simp] theorem maxSize_setSize (n : Node k) (s : Nat) : (n.setSize s).maxSize = n.maxSize := by
  simp only [setSize, maxSize]
  rw [Block.word_setWord_of_disjoint _ _ _ (by decide)]

@[simp] theorem parent_setSize (n : Node k) (s : Nat) : (n.setSize s).parent = n.parent := by
  simp only [setSize, parent]
  rw [Block.word_setWord_of_disjoint _ _ _ (by decide)]

@[simp] theorem id_setSize (n : Node k) (s : Nat) : (n.setSize s).id = n.id := by
  simp only [setSize, id]
  rw [Block.word_setWord_of_disjoint _ _ _ (by decide)]

@[simp] theorem parent_setParent (n : Node k) (p : PageId) : (n.setParent p).parent = p := by
  simp [setParent, parent]

@[simp] theorem size_setParent (n : Node k) (p : PageId) : (n.setParent p).size = n.size := by
  simp only [setParent, size]
  rw [Block.word_setWord_of_disjoint _ _ _ (by decide)]

end Node

end PageStore
