import PageStore.Key
import PageStore.Node.Basic

/-!
# The records of a node

The records follow the header without gaps, in key order. These operations edit the table in
place and are the same for both kinds of node: `insert` and `remove` shift the records behind,
`append` copies records from another node. Each moves whole runs of bytes, so what a page holds
past its last record is what earlier records left there.

Nothing here compares an index with the number of records; an operation aborts when it would
touch a byte outside the page.
-/

namespace PageStore.Node

variable {k : NodeKind}

/-! ## Places -/

/-- Bytes of one record. -/
def recordSize (n : Node k) : Nat := n.keySize + k.payloadSize

/-- Where record `i` starts. -/
def offset (n : Node k) (i : Nat) : Nat := k.headerSize + i * n.recordSize

/-! ## Reading -/

/-- The key of record `i`. -/
def key (n : Node k) (i : Nat) : Except Halt Key := demand (n.page.read (n.offset i) n.keySize)

/-- The payload of record `i`. -/
def payload (n : Node k) (i : Nat) : Except Halt (List UInt8) :=
  demand (n.page.read (n.offset i + n.keySize) k.payloadSize)

/-! ## Writing -/

/-- Overwrites the key of record `i` by one of the same width. -/
def setKey (n : Node k) (i : Nat) (key : Key) : Except Halt (Node k) := do
  if key.length ≠ n.keySize then throw .fault
  return { n with page := ← demand (n.page.write (n.offset i) key) }

/-- Overwrites the payload of record `i`. -/
def setPayload (n : Node k) (i : Nat) (payload : List UInt8) : Except Halt (Node k) := do
  return { n with page := ← demand (n.page.write (n.offset i + n.keySize) payload) }

/-- Overwrites record `i`. -/
def setRecord (n : Node k) (i : Nat) (key : Key) (payload : List UInt8) :
    Except Halt (Node k) := do
  (← n.setKey i key).setPayload i payload

/-- Puts a record at index `i`; the records from there on move up by one. -/
def insertRecord (n : Node k) (i : Nat) (key : Key) (payload : List UInt8) :
    Except Halt (Node k) := do
  let page ← demand (n.page.move (n.offset i) (n.offset n.size) (n.offset i + n.recordSize))
  return (← { n with page }.setRecord i key payload).setSize (n.size + 1)

/-- Drops the record at index `i`; the records behind it move down by one. -/
def remove (n : Node k) (i : Nat) : Except Halt (Node k) := do
  let page ← demand (n.page.move (n.offset (i + 1)) (n.offset n.size) (n.offset i))
  return { n with page }.setSize (n.size - 1)

/-- Copies `count` records of `source`, from index `start` on, behind the last record of `n`. -/
def append (n source : Node k) (start count : Nat) : Except Halt (Node k) := do
  let bytes ← demand (source.page.read (source.offset start) (count * n.recordSize))
  let page ← demand (n.page.write (n.offset n.size) bytes)
  return { n with page }.setSize (n.size + count)

/-! ## Between two nodes -/

/-- Moves the records from the least size on behind the last record of `dest`. -/
def moveUpper (n dest : Node k) : Except Halt (Node k × Node k) := do
  let keep := n.minSize
  if n.size < keep then throw .fault
  let dest ← dest.append n keep (n.size - keep)
  return (n.setSize keep, dest)

/-- Moves every record behind the last record of `dest`. -/
def moveAll (n dest : Node k) : Except Halt (Node k × Node k) := do
  let dest ← dest.append n 0 n.size
  return (n.setSize 0, dest)

/-- Index of the last record. -/
def lastIndex (n : Node k) : Except Halt Nat :=
  if n.size = 0 then .error .fault else .ok (n.size - 1)

/-! ## Inside the page -/

theorem recordSize_pos (n : Node k) : 0 < n.recordSize := Nat.add_pos_right _ k.payloadSize_pos

theorem offset_succ (n : Node k) (i : Nat) : n.offset (i + 1) = n.offset i + n.recordSize := by
  simp only [offset, Nat.add_mul, Nat.one_mul, Nat.add_assoc]

theorem offset_le_offset (n : Node k) {i j : Nat} (h : i ≤ j) : n.offset i ≤ n.offset j :=
  Nat.add_le_add_left (Nat.mul_le_mul_right _ h) _

/-- **Inside the page.** If one more record than the node may have fits, the key of every record
that it does have can be read. -/
theorem key_eq_ok (n : Node k) {i : Nat} (h : n.offset (i + 1) ≤ pageSize) :
    n.key i = .ok (n.page.slice (n.offset i) n.keySize
      (by rw [offset_succ, recordSize] at h; omega)) := by
  rw [key, Block.read_eq_some, demand_some]

theorem payload_eq_ok (n : Node k) {i : Nat} (h : n.offset (i + 1) ≤ pageSize) :
    n.payload i = .ok (n.page.slice (n.offset i + n.keySize) k.payloadSize
      (by rw [offset_succ, recordSize] at h; omega)) := by
  rw [payload, Block.read_eq_some, demand_some]

end PageStore.Node
