import PageStore.Action

/-!
# The space header

Physical page 0 describes the space: a mark, a version, the number of allocated pages, the
number of extents, the first extent that is not full, and how many pages of each extent are
allocated. `findNotFull` searches those counts.
-/

namespace PageStore.SpaceHeader

/-- The word that marks a page file. -/
def magic : UInt32 := 0x53545241

/-- The version of the format. -/
def version : UInt32 := 1

/-! ## Fields -/

/-- Where the mark is stored. -/
abbrev magicAt : Nat := 0

/-- Where the version is stored. -/
abbrev versionAt : Nat := 4

/-- Where the number of allocated pages is stored. -/
abbrev allocatedAt : Nat := 8

/-- Where the number of extents is stored. -/
abbrev extentsAt : Nat := 12

/-- Where the first extent that is not full is stored. -/
abbrev nextFreeAt : Nat := 16

/-! ## Reading -/

/-- Number of allocated pages. -/
def allocated (h : Page) : UInt32 := h.word allocatedAt

/-- Number of extents. -/
def extents (h : Page) : UInt32 := h.word extentsAt

/-- The first extent that is not full, or the number of extents. -/
def nextFree (h : Page) : UInt32 := h.word nextFreeAt

/-- Whether every byte is zero, as in a new file. -/
def isBlank (h : Page) : Bool := h.all (· = 0)

/-- Whether the page is the header of a page file that can be read. -/
def isValid (h : Page) : Bool :=
  h.word magicAt = magic && h.word versionAt = version && (extents h).toNat ≤ maxExtents

/-- Where the used count of extent `e` is stored. -/
def usedOffset (e : Nat) : Nat := spaceHeaderSize + e * 4

/-- Number of allocated pages of extent `e`. -/
def used (h : Page) (e : Nat) : Except Halt UInt32 := demand (h.readWord (usedOffset e))

/-- Whether no page of extent `e` is left. -/
def isFull (h : Page) (e : Nat) : Except Halt Bool := do
  return bitmapCapacity ≤ (← used h e).toNat

/-- The first of `count` extents from `e` on that is not full. -/
def findNotFullAmong (h : Page) : Nat → Nat → Except Halt (Option Nat)
  | 0, _ => .ok none
  | count + 1, e => do
    if ← isFull h e then findNotFullAmong h count (e + 1) else return some e

/-- The first extent from `e` on that is not full. -/
def findNotFull (h : Page) (e : Nat) : Except Halt (Option Nat) :=
  findNotFullAmong h ((extents h).toNat - e) e

/-! ## Writing -/

/-- The header of a space without extents. -/
def fresh : Page := ((Block.zero pageSize).setWord magicAt magic).setWord versionAt version

/-- States the number of allocated pages. -/
def setAllocated (h : Page) (n : UInt32) : Page := h.setWord allocatedAt n

/-- States the number of extents. -/
def setExtents (h : Page) (n : UInt32) : Page := h.setWord extentsAt n

/-- States the first extent that is not full. -/
def setNextFree (h : Page) (e : UInt32) : Page := h.setWord nextFreeAt e

/-- States the number of allocated pages of extent `e`. -/
def setUsed (h : Page) (e : Nat) (n : UInt32) : Except Halt Page :=
  demand (h.writeWord (usedOffset e) n)

/-! ## Reading back -/

/-- The counts of every extent that a header can describe lie in the page. -/
theorem usedOffset_le {e : Nat} (he : e < maxExtents) : usedOffset e + 4 ≤ pageSize := by
  simp only [usedOffset, spaceHeaderSize, maxExtents, pageSize] at he ⊢
  omega

@[simp] theorem isValid_fresh : isValid fresh = true := by
  have h12 : extents fresh = 0 := by
    rw [extents, fresh, Block.word_setWord_of_disjoint _ _ _ (by decide),
      Block.word_setWord_of_disjoint _ _ _ (by decide)]
    decide
  have h0 : fresh.word magicAt = magic := by
    rw [fresh, Block.word_setWord_of_disjoint _ _ _ (by decide), Block.word_setWord]
  have h4 : fresh.word versionAt = version := by rw [fresh, Block.word_setWord]
  simp [isValid, h0, h4, h12]

@[simp] theorem allocated_setAllocated (h : Page) (n : UInt32) :
    allocated (setAllocated h n) = n := Block.word_setWord ..

@[simp] theorem extents_setExtents (h : Page) (n : UInt32) : extents (setExtents h n) = n :=
  Block.word_setWord ..

@[simp] theorem nextFree_setNextFree (h : Page) (e : UInt32) : nextFree (setNextFree h e) = e :=
  Block.word_setWord ..

/-- A used count that was stated reads back, and the others are left alone. -/
theorem used_setUsed {h h' : Page} {e : Nat} {n : UInt32} (he : e < maxExtents)
    (hs : setUsed h e n = .ok h') (d : Nat) (hd : d < maxExtents) :
    used h' d = if e = d then .ok n else used h d := by
  rw [setUsed, Block.writeWord_eq_some _ _ (usedOffset_le he)] at hs
  cases hs
  rw [used, used, Block.readWord_eq_some _ (usedOffset_le hd),
    Block.readWord_eq_some _ (usedOffset_le hd)]
  by_cases h : e = d
  · subst h
    simp
  · rw [if_neg h, Block.word_setWord_of_disjoint]
    simp only [usedOffset]
    omega

end PageStore.SpaceHeader
