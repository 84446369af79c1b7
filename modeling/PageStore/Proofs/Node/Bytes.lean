import Mathlib.Algebra.Order.Ring.Int
import Mathlib.Data.List.Basic
import PageStore.Bytes.Block

/-!
# Blocks as lists

What is stored in a block is a list of bytes, and an edit of the block is an edit of the list:
`tail` is the list from an offset on, reading takes a part of it, and writing replaces a part by as
many bytes (`splice`). The list is cut into what is before, under and after the edit, so that
nothing else about offsets has to be known.
-/

namespace PageStore

/-- The list with the elements from index `i` on replaced by `xs`, as many as these are. -/
def splice {α : Type} (l : List α) (i : Nat) (xs : List α) : List α :=
  l.take i ++ xs ++ l.drop (i + xs.length)

theorem splice_append {α : Type} {a b c xs : List α} (h : b.length = xs.length) :
    splice (a ++ b ++ c) a.length xs = a ++ xs ++ c := by
  have hdrop : (a ++ b ++ c).drop (a.length + xs.length) = c := by
    rw [← h, ← List.length_append, List.drop_left]
  rw [splice, hdrop, List.append_assoc a b c, List.take_left]

/-- A list can be cut at any length that it has. -/
theorem exists_cut {α : Type} (l : List α) (len : Nat) (h : len ≤ l.length) :
    ∃ front back, front.length = len ∧ l = front ++ back :=
  ⟨l.take len, l.drop len, List.length_take_of_le h, (List.take_append_drop ..).symm⟩

namespace Block

variable {n : Nat}

/-- The bytes from offset `off` on. -/
def tail (b : Block n) (off : Nat) : List UInt8 := b.toList.drop off

theorem length_tail (b : Block n) (off : Nat) : (b.tail off).length = n - off := by
  simp [tail]

theorem getElem?_tail (b : Block n) (off i : Nat) : (b.tail off)[i]? = b[off + i]? := by
  simp [tail, List.getElem?_drop]

theorem getElem?_patch_of_outside (b : Block n) {off i : Nat} {xs : List UInt8}
    (h : i < off ∨ off + xs.length ≤ i) : (b.patch off xs)[i]? = b[i]? := by
  by_cases hi : i < n
  · rw [Vector.getElem?_eq_getElem hi, Vector.getElem?_eq_getElem hi,
      getElem_patch_of_outside b hi h]
  · rw [Vector.getElem?_eq_none (Nat.le_of_not_lt hi),
      Vector.getElem?_eq_none (Nat.le_of_not_lt hi)]

theorem getElem?_patch (b : Block n) {off i : Nat} {xs : List UInt8} (hi : i < n) (hlow : off ≤ i)
    (hhigh : i < off + xs.length) : (b.patch off xs)[i]? = xs[i - off]? := by
  rw [Vector.getElem?_eq_getElem hi, getElem_patch, dif_pos ⟨hlow, hhigh⟩,
    List.getElem?_eq_getElem]

/-- A run of bytes is a part of the list. -/
theorem slice_eq (b : Block n) {off j len : Nat} (h : off + j + len ≤ n) :
    b.slice (off + j) len h = ((b.tail off).drop j).take len := by
  refine List.ext_getElem? fun i => ?_
  by_cases hi : i < len
  · rw [List.getElem?_take_of_lt hi, List.getElem?_drop, getElem?_tail, ← Nat.add_assoc,
      List.getElem?_eq_getElem (by simpa using hi), Vector.getElem?_eq_getElem (by omega),
      getElem_slice b h (by simpa using hi) (by omega)]
  · rw [List.getElem?_eq_none (by simpa using hi),
      List.getElem?_eq_none (by rw [List.length_take]; omega)]

/-- Overwriting a run of bytes replaces a part of the list. -/
theorem tail_patch (b : Block n) {off j : Nat} {xs : List UInt8} (h : off + j + xs.length ≤ n) :
    (b.patch (off + j) xs).tail off = splice (b.tail off) j xs := by
  refine List.ext_getElem? fun i => ?_
  have hlen := b.length_tail off
  have htake : ((b.tail off).take j).length = j := by
    rw [List.length_take, hlen]
    omega
  rw [getElem?_tail, splice, List.append_assoc]
  by_cases hbefore : i < j
  · rw [List.getElem?_append_left (by omega), List.getElem?_take_of_lt hbefore, getElem?_tail,
      getElem?_patch_of_outside b (by omega)]
  · rw [List.getElem?_append_right (by omega), htake]
    by_cases hunder : i < j + xs.length
    · rw [List.getElem?_append_left (by omega), getElem?_patch b (by omega) (by omega) (by omega)]
      congr 1
      omega
    · rw [List.getElem?_append_right (by omega), List.getElem?_drop, getElem?_tail,
        getElem?_patch_of_outside b (by omega)]
      congr 1
      omega

/-- What is written before the offset is not in the list. -/
theorem tail_patch_of_le (b : Block n) (off start : Nat) (xs : List UInt8)
    (h : start + xs.length ≤ off) : (b.patch start xs).tail off = b.tail off := by
  refine List.ext_getElem? fun i => ?_
  rw [getElem?_tail, getElem?_tail, getElem?_patch_of_outside b (by omega)]

/-- What is written behind the offset does not change a byte before it. -/
theorem word_patch_of_le (b : Block n) {off start : Nat} {xs : List UInt8} (hp : off + 4 ≤ n)
    (h : off + 4 ≤ start) : (b.patch start xs).word off hp = b.word off hp := by
  rw [word, word, slice_patch_of_disjoint _ _ (.inl h)]

theorem getElem?_setWord_of_lt (b : Block n) {off i : Nat} (w : UInt32) (h : i < off) :
    (b.setWord off w)[i]? = b[i]? := getElem?_patch_of_outside b (.inl h)

/-! ## Cutting the list -/

variable {b : Block n} {off : Nat} {before under after : List UInt8}

theorem length_of_tail (h : b.tail off = before ++ under ++ after) (ho : off ≤ n) :
    off + before.length + under.length + after.length = n := by
  have hlen := congrArg List.length h
  rw [length_tail, List.length_append, List.length_append] at hlen
  omega

/-- **Reading** the part of the list between two others. -/
theorem read_of_tail (h : b.tail off = before ++ under ++ after) (ho : off ≤ n) :
    b.read (off + before.length) under.length = some under := by
  have hlen := length_of_tail h ho
  have hfit : off + before.length + under.length ≤ n := by omega
  rw [read_eq_some b hfit, slice_eq b hfit, h, List.append_assoc, List.drop_left, List.take_left]

/-- **Writing** in the place of the part of the list between two others. -/
theorem write_of_tail (h : b.tail off = before ++ under ++ after) (ho : off ≤ n) {xs : List UInt8}
    (hx : under.length = xs.length) :
    b.write (off + before.length) xs = some (b.patch (off + before.length) xs) ∧
      (b.patch (off + before.length) xs).tail off = before ++ xs ++ after := by
  have hlen := length_of_tail h ho
  have hfit : off + before.length + xs.length ≤ n := by omega
  exact ⟨write_eq_some b hfit, by rw [tail_patch b hfit, h, splice_append hx]⟩

/-- **Moving** a part of the list over another part of the same length. -/
theorem move_of_tail {left gone right : List UInt8} (h : b.tail off = before ++ under ++ after)
    (h' : b.tail off = left ++ gone ++ right) (ho : off ≤ n)
    (hlen : gone.length = under.length) :
    b.move (off + before.length) (off + before.length + under.length) (off + left.length) =
        some (b.patch (off + left.length) under) ∧
      (b.patch (off + left.length) under).tail off = left ++ under ++ right := by
  obtain ⟨hwrite, htail⟩ := write_of_tail h' ho hlen
  refine ⟨?_, htail⟩
  rw [move, if_pos (Nat.le_add_right ..), Nat.add_sub_cancel_left, read_of_tail h ho]
  exact hwrite

end Block

end PageStore
