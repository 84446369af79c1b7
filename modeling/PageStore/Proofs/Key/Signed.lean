import Mathlib.Order.Defs.Unbundled
import PageStore.Proofs.Key

/-!
# Integers as keys

A key of one to eight bytes is the remainder of an integer: `toInt_eq_bmod` tells its number from
its bytes alone, with the sign extension gone. From this one equation follow both round trips
(`toInt_ofInt`, `ofInt_toInt`), and with the ranks of keys the laws of both orders.
-/

namespace PageStore

namespace LittleEndian

theorem ofBytes_append (l m : List UInt8) :
    ofBytes (l ++ m) = ofBytes l + 256 ^ l.length * ofBytes m := by
  induction l with
  | nil => simp [ofBytes]
  | cons b bs ih =>
    rw [List.cons_append, ofBytes, ofBytes, ih, List.length_cons, Nat.pow_succ', Nat.mul_assoc,
      Nat.mul_add, Nat.add_assoc]

theorem ofBytes_zeros (m : Nat) : ofBytes (List.replicate m 0) = 0 := by
  induction m with
  | zero => rfl
  | succ m ih => rw [List.replicate_succ, ofBytes, ih]; rfl

theorem ofBytes_ones (m : Nat) : ofBytes (List.replicate m 255) + 1 = 256 ^ m := by
  induction m with
  | zero => rfl
  | succ m ih =>
    have hb : (255 : UInt8).toNat = 255 := rfl
    rw [List.replicate_succ, ofBytes, Nat.pow_succ', ← ih, hb]
    omega

/-- The top bit of the last byte tells whether the number lies in the upper half of its range. -/
theorem half_le_ofBytes_iff (l : List UInt8) (b : UInt8) :
    256 ^ (l ++ [b]).length ≤ 2 * ofBytes (l ++ [b]) ↔ 128 ≤ b := by
  have hl : ofBytes l < 256 ^ l.length := ofBytes_lt l
  have hb : ofBytes [b] = b.toNat := by simp [ofBytes]
  rw [ofBytes_append, hb, List.length_append, List.length_singleton, Nat.pow_succ,
    UInt8.le_iff_toNat_le]
  change _ ↔ 128 ≤ b.toNat
  constructor
  · intro h
    by_contra hlow
    have : 256 ^ l.length * b.toNat ≤ 256 ^ l.length * 127 := Nat.mul_le_mul_left _ (by omega)
    omega
  · intro h
    have : 256 ^ l.length * 128 ≤ 256 ^ l.length * b.toNat := Nat.mul_le_mul_left _ h
    omega

end LittleEndian

namespace Key

open LittleEndian

theorem signByte_append (l : List UInt8) (b : UInt8) :
    signByte (l ++ [b]) = if 128 ≤ b then 255 else 0 := by
  simp [signByte]

/-- The number of the extended key: the bytes that are added are all ones in the upper half of the
range and all zeros in the lower one. -/
theorem ofBytes_extended {k : Key} (hlow : 1 ≤ k.length) (hhigh : k.length ≤ 8) :
    ofBytes k.extended + (if 256 ^ k.length ≤ 2 * ofBytes k then 256 ^ k.length else 0) =
      ofBytes k + (if 256 ^ k.length ≤ 2 * ofBytes k then 2 ^ 64 else 0) := by
  obtain rfl | ⟨l, b, rfl⟩ := k.eq_nil_or_concat
  · cases hlow
  rw [List.concat_eq_append] at *
  rw [extended, List.take_of_length_le hhigh, ofBytes_append, signByte_append]
  simp only [half_le_ofBytes_iff]
  split
  · have hpow : 256 ^ (l ++ [b]).length * 256 ^ (8 - (l ++ [b]).length) = 2 ^ 64 := by
      rw [← Nat.pow_add, Nat.add_sub_cancel' hhigh]
      rfl
    rw [← hpow, ← ofBytes_ones (8 - _), Nat.mul_add, Nat.mul_one, Nat.add_assoc]
  · rw [ofBytes_zeros, Nat.mul_zero, Nat.add_zero]

/-- **The number of a key is the remainder of its bytes**, taken around zero. -/
theorem toInt_eq_bmod {k : Key} (hlow : 1 ≤ k.length) (hhigh : k.length ≤ 8) :
    k.toInt = Int.bmod (ofBytes k) (256 ^ k.length : Nat) := by
  have hext := ofBytes_extended hlow hhigh
  have hlt : ofBytes k < 256 ^ k.length := ofBytes_lt k
  have hword : 256 ^ k.length ≤ 2 ^ 64 :=
    Nat.pow_le_pow_right (n := 256) (by decide) hhigh
  obtain ⟨half, hhalf⟩ : ∃ half, 256 ^ k.length = 2 * half := by
    obtain ⟨n, hn⟩ := Nat.exists_eq_add_of_le hlow
    exact ⟨128 * 256 ^ n, by rw [hn, Nat.pow_add]; omega⟩
  rw [toInt_eq, Int.bmod, ← Int.natCast_emod, Nat.mod_eq_of_lt hlt]
  generalize 256 ^ k.length = m at *
  split at hext <;> split <;> split <;> omega

theorem length_ofInt (v : Int) {w : Nat} (hlow : 1 ≤ w) (hhigh : w ≤ 8) :
    (ofInt v w).length = w := by
  rw [ofInt, length_toBytes]
  omega

/-- Reading a written integer gives its remainder. -/
theorem toInt_ofInt (v : Int) {w : Nat} (hlow : 1 ≤ w) (hhigh : w ≤ 8) :
    (ofInt v w).toInt = Int.bmod v (256 ^ w : Nat) := by
  have hlen := length_ofInt v hlow hhigh
  have hwidth : max 1 (min w 8) = w := by omega
  have hdvd : ((256 ^ w : Nat) : Int) ∣ 0x10000000000000000 :=
    Int.natCast_dvd_natCast.2 (Nat.pow_dvd_pow 256 hhigh)
  have hnonneg : 0 ≤ v % 0x10000000000000000 := Int.emod_nonneg v (by decide)
  rw [toInt_eq_bmod (by rwa [hlen]) (by rwa [hlen]), hlen, ofInt, ofBytes_toBytes, hwidth,
    Nat.pow_eq, Int.natCast_emod, Int.toNat_of_nonneg hnonneg, Int.emod_emod_of_dvd _ hdvd,
    Int.emod_bmod]

/-- Writing a read integer at the width it was read from gives the same key. -/
theorem ofInt_toInt {k : Key} (hlow : 1 ≤ k.length) (hhigh : k.length ≤ 8) :
    ofInt k.toInt k.length = k := by
  have hlen := length_ofInt k.toInt hlow hhigh
  refine toInt_inj hlen (by rwa [hlen]) ?_
  rw [toInt_ofInt _ hlow hhigh, toInt_eq_bmod hlow hhigh, Int.bmod_bmod]

/-- What the width can hold is read back as it was written, and nothing else is. -/
theorem toInt_ofInt_eq_iff (v : Int) {w : Nat} (hlow : 1 ≤ w) (hhigh : w ≤ 8) :
    (ofInt v w).toInt = v ↔ -2 ^ (8 * w - 1) ≤ v ∧ v < 2 ^ (8 * w - 1) := by
  have hpow : ((256 ^ w : Nat) : Int) = 2 * 2 ^ (8 * w - 1) := by
    have hexp : 8 * w - 1 + 1 = 8 * w := by omega
    rw [← Int.pow_succ', hexp, Int.natCast_pow, Int.pow_mul]
    rfl
  rw [toInt_ofInt v hlow hhigh, Int.bmod_eq_iff (Nat.pow_pos (by decide)), hpow, Int.sub_self]
  have hdvd : (2 * 2 ^ (8 * w - 1) : Int) ∣ 0 := Int.dvd_zero _
  omega

end Key

namespace KeyOrder

/-- **Both orders are strict and total** among the keys of one width. -/
theorem isStrictTotalOrder (o : KeyOrder) (w : Nat) :
    IsStrictTotalOrder {k : Key // k.length = w} (fun a b => o.compare a b = .lt) where
  irrefl a := by simp [compare_eq_lt_iff]
  trans a b c hab hbc := by
    rw [compare_eq_lt_iff (a.2.trans b.2.symm)] at hab
    rw [compare_eq_lt_iff (b.2.trans c.2.symm)] at hbc
    rw [compare_eq_lt_iff (a.2.trans c.2.symm)]
    exact Nat.lt_trans hab hbc
  trichotomous a b hab hba := by
    have hlen := a.2.trans b.2.symm
    rw [compare_eq_lt_iff hlen] at hab
    rw [compare_eq_lt_iff hlen.symm] at hba
    exact Subtype.ext (rank_inj (o := o) hlen (by omega))

variable {a b : Key}

/-- Exchanging the keys turns the answer around. -/
theorem compare_swap (o : KeyOrder) (h : a.length = b.length) :
    o.compare b a = (o.compare a b).swap := by
  rw [compare_eq h, compare_eq h.symm, Nat.compare_swap]

/-- Keys of one to eight bytes are ordered as their numbers are. -/
theorem compare_eq_compare_toInt (h : a.length = b.length) (hlow : 1 ≤ a.length)
    (hhigh : a.length ≤ 8) : integer.compare a b = Ord.compare a.toInt b.toInt := by
  have ha : a.isInteger = true := by simp [Key.isInteger, hlow, hhigh]
  have hb : b.isInteger = true := by simp [Key.isInteger, ← h, hlow, hhigh]
  rw [compare, ha, hb]
  rfl

/-- **Integer keys keep the order of the integers.** Written at a width of one to eight bytes and
read back, an integer is its low bits read as a signed number, hence itself exactly when it is in
the signed range of the width; every key of such a width is what its number is written as. At every
width both orders are strict total orders that call only identical keys equal and turn around when
the keys are exchanged, and at the widths of integers the order is that of the numbers. -/
theorem keeps_integers :
    (∀ (v : Int) (w : Nat), 1 ≤ w → w ≤ 8 →
      (Key.ofInt v w).length = w ∧
      (Key.ofInt v w).toInt = (BitVec.ofInt (8 * w) v).toInt ∧
      ((Key.ofInt v w).toInt = v ↔ -2 ^ (8 * w - 1) ≤ v ∧ v < 2 ^ (8 * w - 1))) ∧
    (∀ k : Key, 1 ≤ k.length → k.length ≤ 8 → Key.ofInt k.toInt k.length = k) ∧
    (∀ (o : KeyOrder) (w : Nat),
      IsStrictTotalOrder {k : Key // k.length = w} (fun a b => o.compare a b = .lt) ∧
      ∀ a b : Key, a.length = w → b.length = w →
        (o.compare a b = .eq ↔ a = b) ∧ o.compare b a = (o.compare a b).swap) ∧
    ∀ a b : Key, a.length = b.length → 1 ≤ a.length → a.length ≤ 8 →
      integer.compare a b = Ord.compare a.toInt b.toInt := by
  refine ⟨fun v w hlow hhigh => ⟨Key.length_ofInt v hlow hhigh, ?_,
      Key.toInt_ofInt_eq_iff v hlow hhigh⟩, fun k => Key.ofInt_toInt,
    fun o w => ⟨o.isStrictTotalOrder w, fun a b ha hb => ?_⟩,
    fun a b => compare_eq_compare_toInt⟩
  · rw [Key.toInt_ofInt v hlow hhigh, BitVec.toInt_ofInt, Nat.pow_mul]
  · exact ⟨compare_eq_eq_iff (ha.trans hb.symm), o.compare_swap (ha.trans hb.symm)⟩

/-- A number beyond the width is cut, one inside it is kept, and the order is not that of the
bytes. -/
theorem keeps_integers_of_one_byte :
    (Key.ofInt 200 1).toInt = -56 ∧ (Key.ofInt (-1) 2).toInt = -1 ∧ Key.ofInt (-128) 1 = [128] ∧
      integer.compare [255] [1] = .lt ∧ bytewise.compare [255] [1] = .gt := by
  obtain ⟨hread, hwrite, horder, hint⟩ := keeps_integers
  refine ⟨?_, ?_, hwrite [128] (by decide) (by decide), ?_, ?_⟩
  · exact (hread 200 1 (by decide) (by decide)).2.1
  · exact (hread (-1) 2 (by decide) (by decide)).2.2.2 (by decide)
  · exact hint [255] [1] rfl (by decide) (by decide)
  · exact ((horder bytewise 1).2 [1] [255] rfl rfl).2

end KeyOrder

end PageStore
