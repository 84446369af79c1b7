import PageStore.Action

/-!
# The roots page

A roots page records the root of each of a number of trees: a count, then one record for each
tree, its index and its root. A page of zeros records none. A count past the room of the page
counts as a full page, so no bytes can lead a search out of the page.

Seen as a map from indices to roots it has three operations, `get?`, `set` and `erase`; the last
moves the last record into the gap.
-/

namespace PageStore.Roots

/-- The place of a record. -/
abbrev Slot : Type := Fin maxIndexRoots

theorem slot_le (s : Slot) : 4 + s.val * 8 + 8 ≤ pageSize := by
  have := s.isLt
  simp only [maxIndexRoots, pageSize] at this ⊢
  omega

/-! ## Reading -/

/-- Number of records. -/
def count (b : Page) : Nat := min (b.word 0).toNat maxIndexRoots

theorem count_le (b : Page) : count b ≤ maxIndexRoots := Nat.min_le_right ..

/-- The index in a record. -/
def indexAt (b : Page) (s : Slot) : UInt32 := b.word (4 + s.val * 8) (by have := slot_le s; omega)

/-- The root in a record. -/
def rootAt (b : Page) (s : Slot) : PageId := ⟨b.word (4 + s.val * 8 + 4) (slot_le s)⟩

/-- The places of the records. -/
def slots (b : Page) : List Slot := (List.finRange maxIndexRoots).take (count b)

/-- The records in order. -/
def entries (b : Page) : List (UInt32 × PageId) :=
  (slots b).map fun s => (indexAt b s, rootAt b s)

/-- The first record of an index. -/
def find? (b : Page) (index : UInt32) : Option Slot := (slots b).find? fun s => indexAt b s = index

/-- The root that is recorded for an index. -/
def get? (b : Page) (index : UInt32) : Option PageId := (find? b index).map (rootAt b)

/-! ## Writing -/

/-- Overwrites a record. -/
def put (b : Page) (s : Slot) (index : UInt32) (root : PageId) : Page :=
  (b.setWord (4 + s.val * 8) index).setWord (4 + s.val * 8 + 4) root.val

/-- Records the root of an index, in its record or in a new one. There may be no room for
that. -/
def set (b : Page) (index : UInt32) (root : PageId) : Option Page :=
  match find? b index with
  | some s => some (put b s index root)
  | none =>
    if h : count b < maxIndexRoots then
      some ((put b ⟨count b, h⟩ index root).setWord 0 (UInt32.ofNat (count b + 1)))
    else none

/-- The place of the last record. -/
def lastSlot (b : Page) : Slot := ⟨count b - 1, by
  have h := count_le b
  have : 0 < maxIndexRoots := by decide
  omega⟩

/-- Drops the record of an index, if there is one. The last record takes its place. -/
def erase (b : Page) (index : UInt32) : Option Page :=
  match find? b index with
  | none => none
  | some s =>
    let last := lastSlot b
    let b' := if s = last then b else put b s (indexAt b last) (rootAt b last)
    some (b'.setWord 0 (UInt32.ofNat last))

/-! ## Reading back -/

@[simp] theorem count_zero : count (Block.zero pageSize) = 0 := by decide

@[simp] theorem indexAt_put_self (b : Page) (s : Slot) (index : UInt32) (root : PageId) :
    indexAt (put b s index root) s = index := by
  have := slot_le s
  rw [indexAt, put, Block.word_setWord_of_disjoint _ _ _ (by omega), Block.word_setWord]

@[simp] theorem rootAt_put_self (b : Page) (s : Slot) (index : UInt32) (root : PageId) :
    rootAt (put b s index root) s = root := by
  rw [rootAt, put, Block.word_setWord]

/-- A record that is overwritten leaves the others alone. -/
theorem indexAt_put_of_ne (b : Page) {s t : Slot} (index : UInt32) (root : PageId) (h : s ≠ t) :
    indexAt (put b s index root) t = indexAt b t := by
  have hv : s.val ≠ t.val := fun e => h (Fin.ext e)
  rw [indexAt, put, Block.word_setWord_of_disjoint _ _ _ (by omega),
    Block.word_setWord_of_disjoint _ _ _ (by omega), indexAt]

theorem rootAt_put_of_ne (b : Page) {s t : Slot} (index : UInt32) (root : PageId) (h : s ≠ t) :
    rootAt (put b s index root) t = rootAt b t := by
  have hv : s.val ≠ t.val := fun e => h (Fin.ext e)
  rw [rootAt, put, Block.word_setWord_of_disjoint _ _ _ (by omega),
    Block.word_setWord_of_disjoint _ _ _ (by omega), rootAt]

/-- Overwriting a record does not change the count. -/
@[simp] theorem count_put (b : Page) (s : Slot) (index : UInt32) (root : PageId) :
    count (put b s index root) = count b := by
  rw [count, put, Block.word_setWord_of_disjoint _ _ _ (by omega),
    Block.word_setWord_of_disjoint _ _ _ (by omega), count]

end PageStore.Roots
