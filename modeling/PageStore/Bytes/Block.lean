import PageStore.Layout
import PageStore.Bytes.LittleEndian

/-!
# Blocks of bytes

A block is a fixed number of bytes, and a page is a block of `pageSize` bytes. Three operations
carry everything that is stored in a page:

* `slice` reads a run of bytes, `patch` overwrites one, and `getElem_patch` says what every
  single byte is afterwards;
* `word` and `setWord` are the same for one 32-bit number, with `word_setWord` for reading back
  and `word_setWord_of_disjoint` for leaving the rest alone.

They are total where the caller knows that the run lies in the block. Where it does not know,
`read`, `write` and `move` check first and answer `none` outside.
-/

namespace PageStore

/-- A fixed number of bytes. -/
abbrev Block (n : Nat) : Type := Vector UInt8 n

/-- The bytes of one page. -/
abbrev Page : Type := Block pageSize

namespace Block

variable {n : Nat}

/-- A block of one repeated byte. -/
def filled (n : Nat) (x : UInt8) : Block n := Vector.replicate n x

/-- A block of zero bytes. -/
def zero (n : Nat) : Block n := filled n 0

/-- The block as a page, if it has the length of one. -/
def toPage? (b : Block n) : Option Page :=
  if h : n = pageSize then some (b.cast h) else none

/-! ## Runs of bytes -/

/-- The `len` bytes from offset `off`. -/
def slice (b : Block n) (off len : Nat) (h : off + len ≤ n) : List UInt8 :=
  List.ofFn fun i : Fin len => b[off + i]

/-- Overwrites the bytes from offset `off`; what passes the end of the block is dropped. -/
def patch (b : Block n) (off : Nat) : List UInt8 → Block n
  | [] => b
  | x :: xs => patch (b.setIfInBounds off x) (off + 1) xs

/-- The `len` bytes from offset `off`, if they lie in the block. -/
def read (b : Block n) (off len : Nat) : Option (List UInt8) :=
  if h : off + len ≤ n then some (b.slice off len h) else none

/-- Overwrites the bytes from offset `off`, if they lie in the block. -/
def write (b : Block n) (off : Nat) (xs : List UInt8) : Option (Block n) :=
  if off + xs.length ≤ n then some (b.patch off xs) else none

/-- Copies the bytes from `start` up to `stop` to offset `dest`. The two runs may overlap; both
must lie in the block, and `start` must not pass `stop`. -/
def move (b : Block n) (start stop dest : Nat) : Option (Block n) :=
  if start ≤ stop then b.read start (stop - start) >>= b.write dest else none

@[simp] theorem length_slice (b : Block n) (off len : Nat) (h : off + len ≤ n) :
    (b.slice off len h).length = len := by
  simp [slice]

@[simp] theorem getElem_slice (b : Block n) {off len : Nat} (h : off + len ≤ n) {i : Nat}
    (hi : i < (b.slice off len h).length) (hn : off + i < n) :
    (b.slice off len h)[i] = b[off + i] := by
  simp [slice]

/-- **What a patch does.** Byte `i` is the new one inside the run and the old one outside. -/
theorem getElem_patch (b : Block n) (off : Nat) (xs : List UInt8) (i : Nat) (hi : i < n) :
    (b.patch off xs)[i] =
      if h : off ≤ i ∧ i < off + xs.length then xs[i - off] else b[i] := by
  induction xs generalizing b off with
  | nil =>
    have h : ¬(off ≤ i ∧ i < off + ([] : List UInt8).length) := by simp
    rw [patch, dif_neg h]
  | cons x xs ih =>
    rw [patch, ih]
    by_cases h : off + 1 ≤ i ∧ i < off + 1 + xs.length
    · have h' : off ≤ i ∧ i < off + (x :: xs).length := by simp; omega
      rw [dif_pos h, dif_pos h']
      have : i - off = (i - (off + 1)) + 1 := by omega
      simp [this]
    · rw [dif_neg h, Vector.getElem_setIfInBounds]
      by_cases he : off = i
      · subst he
        simp
      · have h' : ¬(off ≤ i ∧ i < off + (x :: xs).length) := by simp; omega
        rw [dif_neg h', if_neg he]

theorem getElem_patch_of_outside (b : Block n) {off : Nat} {xs : List UInt8} {i : Nat} (hi : i < n)
    (h : i < off ∨ off + xs.length ≤ i) : (b.patch off xs)[i] = b[i] := by
  rw [getElem_patch, dif_neg (by omega)]

/-- Reading a run that was just written gives what was written. -/
@[simp] theorem slice_patch_self (b : Block n) (off : Nat) (xs : List UInt8)
    (h : off + xs.length ≤ n) : (b.patch off xs).slice off xs.length h = xs := by
  apply List.ext_getElem (by simp)
  intro i h₁ h₂
  rw [getElem_slice _ h _ (by omega), getElem_patch, dif_pos (by omega)]
  simp

/-- A patch leaves every run alone that it does not meet. -/
theorem slice_patch_of_disjoint (b : Block n) {off : Nat} {xs : List UInt8} {start len : Nat}
    (h : start + len ≤ n) (hd : start + len ≤ off ∨ off + xs.length ≤ start) :
    (b.patch off xs).slice start len h = b.slice start len h := by
  apply List.ext_getElem (by simp)
  intro i h₁ h₂
  simp only [length_slice] at h₁
  rw [getElem_slice _ h _ (by omega), getElem_slice _ h _ (by omega),
    getElem_patch_of_outside b (by omega) (by omega)]

theorem read_eq_some (b : Block n) {off len : Nat} (h : off + len ≤ n) :
    b.read off len = some (b.slice off len h) := dif_pos h

theorem read_eq_none (b : Block n) {off len : Nat} (h : n < off + len) : b.read off len = none :=
  dif_neg (by omega)

theorem write_eq_some (b : Block n) {off : Nat} {xs : List UInt8} (h : off + xs.length ≤ n) :
    b.write off xs = some (b.patch off xs) := if_pos h

/-! ## Words -/

/-- The four bytes of a word. -/
def wordBytes (w : UInt32) : List UInt8 := LittleEndian.toBytes 4 w.toNat

/-- The word that four bytes stand for. -/
def wordOf (xs : List UInt8) : UInt32 := UInt32.ofNat (LittleEndian.ofBytes xs)

/-- The word at offset `off`. -/
def word (b : Block n) (off : Nat) (h : off + 4 ≤ n := by decide) : UInt32 :=
  wordOf (b.slice off 4 h)

/-- Overwrites the word at offset `off`. -/
def setWord (b : Block n) (off : Nat) (w : UInt32) : Block n := b.patch off (wordBytes w)

/-- The word at offset `off`, if it lies in the block. -/
def readWord (b : Block n) (off : Nat) : Option UInt32 := (b.read off 4).map wordOf

/-- Overwrites the word at offset `off`, if it lies in the block. -/
def writeWord (b : Block n) (off : Nat) (w : UInt32) : Option (Block n) :=
  b.write off (wordBytes w)

@[simp] theorem length_wordBytes (w : UInt32) : (wordBytes w).length = 4 := by simp [wordBytes]

@[simp] theorem wordOf_wordBytes (w : UInt32) : wordOf (wordBytes w) = w := by
  have h : w.toNat < 2 ^ 32 := w.toNat_lt
  rw [wordOf, wordBytes, LittleEndian.ofBytes_toBytes, Nat.mod_eq_of_lt (by omega)]
  exact UInt32.ofNat_toNat

/-- **Reading back.** The word just written is the word read. -/
@[simp] theorem word_setWord (b : Block n) (off : Nat) (w : UInt32) (h : off + 4 ≤ n) :
    (b.setWord off w).word off h = w := by
  have hs := slice_patch_self b off (wordBytes w) (by simpa using h)
  simp only [length_wordBytes] at hs
  rw [word, setWord, hs, wordOf_wordBytes]

/-- **Leaving the rest alone.** Writing a word does not change a word that it does not meet. -/
theorem word_setWord_of_disjoint (b : Block n) {off other : Nat} (w : UInt32) (h : other + 4 ≤ n)
    (hd : other + 4 ≤ off ∨ off + 4 ≤ other) :
    (b.setWord off w).word other h = b.word other h := by
  rw [word, setWord, slice_patch_of_disjoint b h (by simpa using hd), word]

theorem readWord_eq_some (b : Block n) {off : Nat} (h : off + 4 ≤ n) :
    b.readWord off = some (b.word off h) := by
  simp [readWord, read_eq_some b h, word]

theorem writeWord_eq_some (b : Block n) {off : Nat} (w : UInt32) (h : off + 4 ≤ n) :
    b.writeWord off w = some (b.setWord off w) := by
  simp [writeWord, write_eq_some, h, setWord]

end Block

end PageStore
