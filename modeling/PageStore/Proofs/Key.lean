import Mathlib.Algebra.Order.Ring.Int
import PageStore.Key

/-!
# Keys as numbers

Every order on keys is the order of a natural number, the `KeyOrder.rank` of the key: among keys of
one width the rank decides the comparison (`compare_eq`) and the key (`rank_inj`). What a tree does
with keys is only compare them, so its properties are stated with ranks, where bounds are plain
numbers.
-/

namespace PageStore

namespace Key

/-- The number that a key stands for when its first byte counts most. -/
def number : Key → Nat
  | [] => 0
  | b :: bs => b.toNat * 256 ^ bs.length + number bs

theorem number_lt (k : Key) : number k < 256 ^ k.length := by
  induction k with
  | nil => simp [number]
  | cons b bs ih =>
    have hb : b.toNat < 256 := b.toNat_lt
    rw [number, List.length_cons, Nat.pow_succ']
    calc b.toNat * 256 ^ bs.length + number bs
        < b.toNat * 256 ^ bs.length + 256 ^ bs.length := by omega
      _ = (b.toNat + 1) * 256 ^ bs.length := by rw [Nat.add_mul, Nat.one_mul]
      _ ≤ 256 * 256 ^ bs.length := Nat.mul_le_mul_right _ hb

/-- The first digit decides, when it differs. -/
theorem mul_add_lt_mul_add {a b c d p : Nat} (hc : c < p) (h : a < b) :
    a * p + c < b * p + d := by
  have hp := Nat.mul_le_mul_right p h
  rw [Nat.succ_mul] at hp
  omega

theorem compare_byte (x y : UInt8) : Ord.compare x y = Ord.compare x.toNat y.toNat := by
  simp only [compare, compareOfLessAndEq, UInt8.lt_iff_toNat_lt, ← UInt8.toNat_inj]

/-- Words of bytes compare as the numbers do. -/
theorem compare_eq_number {a b : Key} (h : a.length = b.length) :
    Ord.compare a b = Ord.compare (number a) (number b) := by
  induction a generalizing b with
  | nil =>
    obtain rfl : b = [] := List.length_eq_zero_iff.1 h.symm
    rfl
  | cons x xs ih =>
    cases b with
    | nil => cases h
    | cons y ys =>
      have hlen : xs.length = ys.length := by simpa using h
      have hx := number_lt xs
      have hy := number_lt ys
      rw [hlen] at hx
      rw [List.compare_cons_cons, ih hlen, number, number, hlen, compare_byte]
      rcases Nat.lt_trichotomy x.toNat y.toNat with hlt | heq | hgt
      · rw [Nat.compare_eq_lt.2 hlt, Nat.compare_eq_lt.2 (mul_add_lt_mul_add hx hlt)]
        rfl
      · rw [heq, Nat.compare_eq_eq.2 rfl, Ordering.eq_then]
        rcases Nat.lt_trichotomy (number xs) (number ys) with hlt | heq | hgt
        · rw [Nat.compare_eq_lt.2 hlt, Nat.compare_eq_lt.2 (by omega)]
        · rw [heq, Nat.compare_eq_eq.2 rfl, Nat.compare_eq_eq.2 rfl]
        · rw [Nat.compare_eq_gt.2 hgt, Nat.compare_eq_gt.2 (by omega)]
      · rw [Nat.compare_eq_gt.2 hgt, Nat.compare_eq_gt.2 (mul_add_lt_mul_add hy hgt)]
        rfl

theorem number_inj {a b : Key} (h : a.length = b.length) (hn : number a = number b) : a = b := by
  have hc := compare_eq_number h
  rw [hn, Nat.compare_eq_eq.2 rfl] at hc
  exact Std.LawfulEqCmp.eq_of_compare hc

/-- The eight bytes of a number: those of the key, extended by its sign. -/
def extended (k : Key) : List UInt8 := k.take 8 ++ List.replicate (8 - k.length) (signByte k)

theorem length_extended (k : Key) : k.extended.length = 8 := by
  rw [extended, List.length_append, List.length_take, List.length_replicate]
  omega

/-- A key of at most eight bytes comes first in its extension. -/
theorem take_extended {k : Key} (hw : k.length ≤ 8) : k.extended.take k.length = k := by
  rw [extended, List.take_of_length_le hw, List.take_left]

theorem toInt_eq (k : Key) : k.toInt =
    if LittleEndian.ofBytes k.extended < 2 ^ 63 then (LittleEndian.ofBytes k.extended : Int)
    else (LittleEndian.ofBytes k.extended : Int) - 2 ^ 64 := rfl

theorem ofBytes_extended_lt (k : Key) : LittleEndian.ofBytes k.extended < 2 ^ 64 := by
  have h := LittleEndian.ofBytes_lt k.extended
  rw [length_extended] at h
  omega

theorem toInt_range (k : Key) : -2 ^ 63 ≤ k.toInt ∧ k.toInt < 2 ^ 63 := by
  have h := ofBytes_extended_lt k
  rw [toInt_eq]
  split <;> omega

/-- Signed numbers compare as they do after a shift that makes them natural. -/
theorem compare_int {i j : Int} (hi : -2 ^ 63 ≤ i) (hj : -2 ^ 63 ≤ j) :
    Ord.compare i j = Ord.compare (i + 2 ^ 63).toNat (j + 2 ^ 63).toNat := by
  have hlt : i < j ↔ (i + 2 ^ 63).toNat < (j + 2 ^ 63).toNat := by omega
  have heq : i = j ↔ (i + 2 ^ 63).toNat = (j + 2 ^ 63).toNat := by omega
  simp only [compare, compareOfLessAndEq, hlt, heq]

/-- A key of at most eight bytes is determined by its number. -/
theorem toInt_inj {a b : Key} (h : a.length = b.length) (hw : a.length ≤ 8)
    (hn : a.toInt = b.toInt) : a = b := by
  have ha := ofBytes_extended_lt a
  have hb := ofBytes_extended_lt b
  have hbytes : LittleEndian.ofBytes a.extended = LittleEndian.ofBytes b.extended := by
    rw [toInt_eq, toInt_eq] at hn
    split at hn <;> split at hn <;> omega
  have hext : a.extended = b.extended :=
    LittleEndian.ofBytes_inj (by rw [length_extended, length_extended]) hbytes
  rw [← take_extended hw, hext, h, take_extended (h ▸ hw)]

end Key

namespace KeyOrder

/-- The keys of this width are compared as signed numbers. -/
def isSigned (o : KeyOrder) (width : Nat) : Bool := o = integer && 1 ≤ width && width ≤ 8

/-- **The place of a key in the order.** -/
def rank (o : KeyOrder) (k : Key) : Nat :=
  if o.isSigned k.length then (k.toInt + 2 ^ 63).toNat else k.number

/-- More than the rank of any key of the width. -/
def top (width : Nat) : Nat := 2 ^ 64 + 256 ^ width

variable {o : KeyOrder} {a b : Key}

theorem rank_lt_top (o : KeyOrder) (k : Key) : o.rank k < top k.length := by
  have hn := Key.number_lt k
  have hi := k.toInt_range
  rw [rank, top]
  split <;> omega

/-- **Ranks decide comparisons.** -/
theorem compare_eq (h : a.length = b.length) :
    o.compare a b = Ord.compare (o.rank a) (o.rank b) := by
  have ha := a.toInt_range
  have hb := b.toInt_range
  rw [rank, rank, ← h]
  by_cases hs : o.isSigned a.length = true
  · have hs' := hs
    simp only [isSigned, Bool.and_eq_true, decide_eq_true_eq] at hs'
    obtain ⟨⟨rfl, hlow⟩, hhigh⟩ := hs'
    have hai : a.isInteger = true := by simp [Key.isInteger, hlow, hhigh]
    have hbi : b.isInteger = true := by simp [Key.isInteger, ← h, hlow, hhigh]
    rw [if_pos hs, if_pos hs, compare, hai, hbi]
    change Ord.compare a.toInt b.toInt = _
    exact Key.compare_int ha.1 hb.1
  · rw [if_neg hs, if_neg hs, ← Key.compare_eq_number h]
    cases o with
    | bytewise => rfl
    | integer =>
      rw [compare, if_neg]
      intro hc
      simp only [Key.isInteger, Bool.and_eq_true, decide_eq_true_eq] at hc
      exact hs (by simp [isSigned, hc.1.1, hc.1.2])

/-- **Ranks decide keys.** -/
theorem rank_inj (h : a.length = b.length) (hr : o.rank a = o.rank b) : a = b := by
  have ha := a.toInt_range
  have hb := b.toInt_range
  rw [rank, rank, ← h] at hr
  split at hr
  · next hs =>
    simp only [isSigned, Bool.and_eq_true, decide_eq_true_eq] at hs
    exact Key.toInt_inj h hs.2 (by omega)
  · exact Key.number_inj h hr

theorem compare_eq_lt_iff (h : a.length = b.length) :
    o.compare a b = .lt ↔ o.rank a < o.rank b := by
  rw [compare_eq h, Nat.compare_eq_lt]

theorem compare_eq_gt_iff (h : a.length = b.length) :
    o.compare a b = .gt ↔ o.rank b < o.rank a := by
  rw [compare_eq h, Nat.compare_eq_gt]

theorem compare_eq_eq_iff (h : a.length = b.length) : o.compare a b = .eq ↔ a = b := by
  rw [compare_eq h, Nat.compare_eq_eq]
  exact ⟨rank_inj h, fun e => e ▸ rfl⟩

end KeyOrder

end PageStore
