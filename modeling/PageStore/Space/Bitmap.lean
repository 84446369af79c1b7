import PageStore.Action

/-!
# Bitmaps

A bitmap page records which pages of one extent are allocated. It holds two counters and one
bit for each page, set when the page is allocated. The second counter is the lowest free offset,
or `bitmapCapacity` when there is none, so `allocate` hands out the lowest free offset first.

`firstFree` looks for that offset: from any start, on any bytes, it is the least free offset at
or after the start, or `bitmapCapacity`.
-/

namespace PageStore.Bitmap

/-! ## Bits -/

/-- Bit `k` of a byte. -/
def bit (x : UInt8) (k : Nat) : Bool := x.toNat.testBit k

/-- The byte with bit `k` alone. -/
def mask (k : Nat) : UInt8 := UInt8.ofNat (1 <<< k)

/-- The bit of an offset lies in the page. -/
theorem place_lt {o : Nat} (h : o < bitmapCapacity) : bitmapHeaderSize + o / 8 < pageSize := by
  simp only [bitmapCapacity, bitmapHeaderSize, pageSize] at h ⊢
  omega

/-- The byte that holds the bit of offset `o`. -/
def byteOf (b : Page) (o : Nat) (h : o < bitmapCapacity) : UInt8 :=
  have := place_lt h
  b[bitmapHeaderSize + o / 8]

/-- Whether the page at offset `o` is allocated. -/
def isSet (b : Page) (o : Nat) (h : o < bitmapCapacity) : Bool := bit (byteOf b o h) (o % 8)

/-- Records whether the page at offset `o` is allocated. -/
def put (b : Page) (o : Nat) (h : o < bitmapCapacity) (used : Bool) : Page :=
  let x := byteOf b o h
  b.set (bitmapHeaderSize + o / 8)
    (if used then x ||| mask (o % 8) else x &&& ~~~mask (o % 8)) (place_lt h)

/-! ## Counters -/

/-- Where the number of allocated pages is stored. -/
abbrev allocatedAt : Nat := 0

/-- Where the lowest free offset is stored. -/
abbrev nextFreeAt : Nat := 4

/-- Number of allocated pages, as the page states it. -/
def allocated (b : Page) : UInt32 := b.word allocatedAt

/-- The lowest free offset, as the page states it. -/
def nextFree (b : Page) : UInt32 := b.word nextFreeAt

/-- Whether the counter leaves no page to allocate. -/
def isFull (b : Page) : Bool := bitmapCapacity ≤ (allocated b).toNat

/-- A bitmap without allocated pages. -/
def empty : Page := Block.zero pageSize

/-- Whether offset `o` is one of the extent's and its page is free. -/
def isFree (b : Page) (o : Nat) : Bool :=
  if h : o < bitmapCapacity then !isSet b o h else false

/-- The least free offset from `o` on, or `bitmapCapacity`. A byte without a free offset is
passed over in one step. -/
def firstFree (b : Page) (o : Nat) : Nat :=
  if h : o < bitmapCapacity then
    if byteOf b o h = 255 ∧ o % 8 = 0 then firstFree b (o + 8)
    else if isSet b o h then firstFree b (o + 1)
    else o
  else bitmapCapacity
termination_by bitmapCapacity - o

/-! ## Allocation -/

/-- Allocates the lowest free offset, if there is one. -/
def allocate (b : Page) : Option (Nat × Page) :=
  if isFull b then none
  else
    let o := firstFree b (nextFree b).toNat
    if h : o < bitmapCapacity then
      let b := put b o h true
      let b := b.setWord allocatedAt (allocated b + 1)
      some (o, b.setWord nextFreeAt (UInt32.ofNat (firstFree b (o + 1))))
    else none

/-- Frees offset `o`, if it is one of the extent's and allocated. -/
def free (b : Page) (o : Nat) : Option Page :=
  if h : o < bitmapCapacity then
    if isSet b o h then
      let b := put b o h false
      let b := b.setWord allocatedAt (allocated b - 1)
      some (if o < (nextFree b).toNat then b.setWord nextFreeAt (UInt32.ofNat o) else b)
    else none
  else none

/-! ## What the bits say -/

@[simp] theorem isFree_of_lt {b : Page} {o : Nat} (h : o < bitmapCapacity) :
    isFree b o = !isSet b o h := dif_pos h

theorem isFree_of_le {b : Page} {o : Nat} (h : bitmapCapacity ≤ o) : isFree b o = false :=
  dif_neg (by omega)

theorem bit_or_mask (x : UInt8) {k : Nat} (hk : k < 8) (j : Nat) :
    bit (x ||| mask k) j = (decide (k = j) || bit x j) := by
  have hp : 2 ^ k < 256 := by
    have := Nat.pow_le_pow_right (n := 2) (by omega) (show k ≤ 7 by omega)
    omega
  simp only [bit, mask, Nat.one_shiftLeft, UInt8.toNat_or, UInt8.toNat_ofNat', Nat.testBit_or,
    Nat.mod_eq_of_lt hp, Nat.testBit_two_pow]
  exact Bool.or_comm ..

theorem bit_and_not_mask (x : UInt8) {k j : Nat} (hk : k < 8) (hj : j < 8) :
    bit (x &&& ~~~mask k) j = (!decide (k = j) && bit x j) := by
  have hp : 2 ^ k < 256 := by
    have := Nat.pow_le_pow_right (n := 2) (by omega) (show k ≤ 7 by omega)
    omega
  have hm : (mask k).toNat = 2 ^ k := by
    simp [mask, Nat.one_shiftLeft, UInt8.toNat_ofNat', Nat.mod_eq_of_lt hp]
  simp only [bit, UInt8.toNat_and, UInt8.toNat_not, hm, Nat.testBit_and]
  have : (UInt8.size - 1 - 2 ^ k).testBit j = !decide (k = j) := by
    have h := Nat.testBit_two_pow_sub_succ (x := 2 ^ k) (n := 8) (by omega) j
    rw [show UInt8.size - 1 - 2 ^ k = 2 ^ 8 - (2 ^ k + 1) by simp [UInt8.size], h,
      Nat.testBit_two_pow]
    simp [hj]
  rw [this]
  exact Bool.and_comm ..

/-- **What `put` does to the bits.** It sets the bit of its own offset and no other. -/
theorem isSet_put (b : Page) {o p : Nat} (ho : o < bitmapCapacity) (hp : p < bitmapCapacity)
    (used : Bool) : isSet (put b o ho used) p hp = if o = p then used else isSet b p hp := by
  unfold isSet byteOf put
  rw [Vector.getElem_set]
  by_cases hq : o / 8 = p / 8
  · rw [if_pos (by omega)]
    have hb : byteOf b o ho = byteOf b p hp := by simp only [byteOf, hq]
    have hiff : (o % 8 = p % 8) ↔ o = p := by omega
    rw [hb]
    cases used
    · rw [if_neg (by simp), bit_and_not_mask _ (by omega) (by omega)]
      by_cases h : o = p <;> simp [h, hiff, byteOf]
    · rw [if_pos rfl, bit_or_mask _ (by omega)]
      by_cases h : o = p <;> simp [h, hiff, byteOf]
  · rw [if_neg (by omega), if_neg (by omega)]

end PageStore.Bitmap
