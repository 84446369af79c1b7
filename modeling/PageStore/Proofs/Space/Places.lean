import PageStore.Proofs.Space.Cache

/-!
# Places in the file

Physical page 0, the bitmap pages and the logical pages have one file in common. In range, no two
of them meet: the page of a logical id is neither page 0 nor a bitmap page, and different ids have
different pages.
-/

namespace PageStore

theorem zero_not_isBitmapPage : ¬IsBitmapPage 0 := by
  rintro ⟨e, he, h⟩
  have h' := congrArg UInt32.toNat h
  rw [toNat_bitmapPage he, UInt32.toNat_zero] at h'
  omega

namespace PageId

theorem isInRange_iff {p : PageId} : p.isInRange = true ↔ p.val.toNat < maxLogicalPages := by
  simp only [isInRange, Bool.and_eq_true, decide_eq_true_eq, and_iff_right_iff_imp]
  exact isSome_of_lt

theorem extent_lt {p : PageId} (hp : p.isInRange = true) : p.extent < maxExtents := by
  rw [isInRange_iff] at hp
  exact Nat.div_lt_of_lt_mul (by rwa [Nat.mul_comm])

/-- A page's number is its extent's first number plus its offset. -/
theorem toNat_eq (p : PageId) : p.val.toNat = p.extent * bitmapCapacity + p.offset := by
  rw [extent, offset, Nat.mul_comm]
  exact (Nat.div_add_mod ..).symm

theorem ext_toNat {p q : PageId} (h : p.val.toNat = q.val.toNat) : p = q := by
  cases p
  cases q
  exact congrArg _ (UInt32.toNat_inj.1 h)

/-- The place of a page, in numbers. -/
theorem toNat_ofPlace {e o : Nat} (he : e < maxExtents) (ho : o < bitmapCapacity) :
    (ofPlace e o).val.toNat = e * bitmapCapacity + o := by
  have hmax := maxExtents_eq
  have hcap := bitmapCapacity_eq
  rw [hmax] at he
  rw [hcap] at ho
  rw [ofPlace, hcap]
  exact UInt32.toNat_ofNat_of_lt' (by simp only [UInt32.size]; omega)

theorem extent_ofPlace {e o : Nat} (he : e < maxExtents) (ho : o < bitmapCapacity) :
    (ofPlace e o).extent = e := by
  rw [extent, toNat_ofPlace he ho, Nat.mul_comm, Nat.mul_add_div (by decide),
    Nat.div_eq_of_lt ho, Nat.add_zero]

theorem offset_ofPlace {e o : Nat} (he : e < maxExtents) (ho : o < bitmapCapacity) :
    (ofPlace e o).offset = o := by
  rw [offset, toNat_ofPlace he ho, Nat.mul_comm, Nat.mul_add_mod, Nat.mod_eq_of_lt ho]

theorem isInRange_ofPlace {e o : Nat} (he : e < maxExtents) (ho : o < bitmapCapacity) :
    (ofPlace e o).isInRange = true := by
  rw [isInRange_iff, toNat_ofPlace he ho]
  have hmul : (e + 1) * bitmapCapacity ≤ maxExtents * bitmapCapacity :=
    Nat.mul_le_mul_right _ he
  have hlim : maxLogicalPages = maxExtents * bitmapCapacity := rfl
  rw [Nat.add_mul, Nat.one_mul] at hmul
  omega

theorem toNat_physical {p : PageId} (hp : p.isInRange = true) :
    p.physical.toNat = 2 + p.extent * (bitmapCapacity + 1) + p.offset := by
  have he := extent_lt hp
  have ho := offset_lt p
  have hb := toNat_bitmapPage he
  have hmax := maxExtents_eq
  have hcap := bitmapCapacity_eq
  rw [hmax] at he
  rw [hcap] at hb ho ⊢
  have hoff : (UInt32.ofNat p.offset).toNat = p.offset :=
    UInt32.toNat_ofNat_of_lt' (by simp only [UInt32.size]; omega)
  have hone : (1 : UInt32).toNat = 1 := UInt32.toNat_one
  rw [physical, UInt32.toNat_add, UInt32.toNat_add, hb, hoff, hone]
  omega

/-- **Data is not a bitmap.** -/
theorem physical_not_isBitmapPage {p : PageId} (hp : p.isInRange = true) :
    ¬IsBitmapPage p.physical := by
  rintro ⟨e, he, h⟩
  have h' := congrArg UInt32.toNat h
  have ho := offset_lt p
  have hcap := bitmapCapacity_eq
  rw [toNat_physical hp, toNat_bitmapPage he] at h'
  rw [hcap] at h' ho
  omega

/-- **Data is not the header.** -/
theorem physical_ne_zero {p : PageId} (hp : p.isInRange = true) : p.physical ≠ 0 := by
  intro h
  have h' := congrArg UInt32.toNat h
  rw [toNat_physical hp, UInt32.toNat_zero] at h'
  omega

/-- **Every id has a page of its own.** -/
theorem physical_inj {p q : PageId} (hp : p.isInRange = true) (hq : q.isInRange = true)
    (h : p.physical = q.physical) : p = q := by
  have h' := congrArg UInt32.toNat h
  have hop := offset_lt p
  have hoq := offset_lt q
  have hcap := bitmapCapacity_eq
  rw [toNat_physical hp, toNat_physical hq] at h'
  apply ext_toNat
  rw [toNat_eq p, toNat_eq q]
  rw [hcap] at h' hop hoq ⊢
  omega

end PageId

end PageStore
