import PageStore.Layout

/-!
# The two kinds of tree page

A node is a header and a table of records, and a record is a key and a payload. The kind says
how long the header and the payload are, and so how many records fit.
-/

namespace PageStore

/-- A tree page is a leaf, which holds entries, or an internal node, which holds children. -/
inductive NodeKind where
  | leaf
  | internal
  deriving DecidableEq, Repr

namespace NodeKind

/-- The byte that marks a page of this kind. -/
def tag : NodeKind → UInt8
  | leaf => 1
  | internal => 2

/-- The kind that a byte marks, if it marks one. -/
def ofTag? (b : UInt8) : Option NodeKind :=
  if b = leaf.tag then some leaf else if b = internal.tag then some internal else none

/-- The kind's name in messages. -/
def name : NodeKind → String
  | leaf => "Leaf"
  | internal => "Internal"

/-- Bytes in front of the records. -/
def headerSize : NodeKind → Nat
  | leaf => leafHeaderSize
  | internal => internalHeaderSize

/-- Bytes that follow the key in a record: a row id in a leaf, a child's id in an internal
node. -/
def payloadSize : NodeKind → Nat
  | leaf => rowIdSize
  | internal => pageIdSize

/-- The largest size that a node with keys of `keySize` bytes may be given. One record fewer than
fits, since a node that has to split holds one more for a moment. -/
def capacity (k : NodeKind) (keySize : Nat) : Nat :=
  (pageSize - k.headerSize) / (keySize + k.payloadSize) - 1

theorem payloadSize_pos (k : NodeKind) : 0 < k.payloadSize := by cases k <;> decide

theorem headerSize_le (k : NodeKind) : k.headerSize ≤ pageSize := by cases k <;> decide

/-- **Room for one more.** A node of the largest size, and one record more, fits in a page,
unless not even one record does. -/
theorem headerSize_add_records_le (k : NodeKind) {keySize n : Nat} (hn : n ≤ k.capacity keySize)
    (hcap : 0 < k.capacity keySize) :
    k.headerSize + (n + 1) * (keySize + k.payloadSize) ≤ pageSize := by
  have hr : 0 < keySize + k.payloadSize := Nat.add_pos_right _ k.payloadSize_pos
  have hq : n + 1 ≤ (pageSize - k.headerSize) / (keySize + k.payloadSize) := by
    simp only [capacity] at hn hcap
    omega
  have hm := (Nat.le_div_iff_mul_le hr).1 hq
  have := k.headerSize_le
  omega

/-- Keys of which several fit in a page are shorter than a page. -/
theorem keySize_lt_of_capacity_pos (k : NodeKind) {keySize : Nat} (hcap : 0 < k.capacity keySize) :
    keySize < pageSize := by
  have hroom := k.headerSize_add_records_le (Nat.le_refl _) hcap
  have hsucc : 0 < k.capacity keySize + 1 := Nat.succ_pos _
  have hone := Nat.le_mul_of_pos_left (keySize + k.payloadSize) hsucc
  have := k.payloadSize_pos
  omega

/-- A page has room for fewer records than it has bytes. -/
theorem capacity_lt (k : NodeKind) (keySize : Nat) : k.capacity keySize < pageSize := by
  have hdiv := Nat.div_le_self (pageSize - k.headerSize) (keySize + k.payloadSize)
  have hpos : 0 < pageSize := by decide
  rw [capacity]
  have hhead : 0 < k.headerSize := by cases k <;> decide
  omega

/-- A byte marks a kind exactly when it is that kind's tag. -/
theorem ofTag?_eq_some_iff {b : UInt8} {k : NodeKind} : ofTag? b = some k ↔ b = k.tag := by
  unfold ofTag?
  constructor
  · intro h
    split at h
    · simp_all
    · split at h <;> simp_all
  · rintro rfl
    cases k <;> rfl

end NodeKind

/-- The least size of a node that is not a root: half of its largest size, rounded up. -/
def minSize (maxSize : Nat) : Nat := (maxSize + 1) / 2

end PageStore
