import Mathlib.Data.Finset.Card
import PageStore.Space.Bitmap

/-!
# Bitmaps as sets

A bitmap page stands for the set of offsets whose bits are set, `members`. A page is `Sound` when
its two counters say what the bits say: how many are set, and which clear one is the lowest.

* `firstFree` from a start is the only offset with nothing free before it, `firstFree_eq`;
* `allocate` adds the lowest offset that is not a member, and fails only when all are members;
* `free` takes a member out, and refuses every other offset;

and both keep the page sound.
-/

namespace PageStore.Bitmap

/-! ## Searching -/

theorem isSet_of_byteOf_eq {b : Page} {o : Nat} (h : o < bitmapCapacity)
    (hb : byteOf b o h = 255) : isSet b o h = true := by
  have hk : ∀ k, k < 8 → bit 255 k = true := by decide
  rw [isSet, hb]
  exact hk _ (Nat.mod_lt _ (by decide))

/-- The offsets of one byte share it. -/
theorem byteOf_congr {b : Page} {o p : Nat} (ho : o < bitmapCapacity) (hp : p < bitmapCapacity)
    (h : o / 8 = p / 8) : byteOf b o ho = byteOf b p hp := by
  simp only [byteOf, h]

theorem firstFree_le (b : Page) (o : Nat) : firstFree b o ≤ bitmapCapacity := by
  fun_induction firstFree b o with
  | case1 o h hb ih => exact ih
  | case2 o h hb hs ih => exact ih
  | case3 o h hb hs => exact Nat.le_of_lt h
  | case4 o h => exact Nat.le_refl _

theorem le_firstFree (b : Page) {o : Nat} (ho : o ≤ bitmapCapacity) : o ≤ firstFree b o := by
  fun_induction firstFree b o with
  | case1 o h hb ih =>
    -- a byte is passed over as a whole, and the last one ends at the capacity
    have : o + 8 ≤ bitmapCapacity := by simp only [bitmapCapacity_eq] at h ⊢; omega
    exact Nat.le_trans (Nat.le_add_right _ _) (ih this)
  | case2 o h hb hs ih => exact Nat.le_trans (Nat.le_succ _) (ih h)
  | case3 o h hb hs => exact Nat.le_refl _
  | case4 o h => exact ho

/-- The search ends at a free offset, unless it reaches the end. -/
theorem isFree_firstFree {b : Page} {o : Nat} (h : firstFree b o < bitmapCapacity) :
    isFree b (firstFree b o) = true := by
  fun_induction firstFree b o with
  | case1 o ho hb ih => exact ih h
  | case2 o ho hb hs ih => exact ih h
  | case3 o ho hb hs => simpa [isFree_of_lt ho] using hs
  | case4 o ho => exact absurd h (Nat.lt_irrefl _)

/-- The search passes over no free offset. -/
theorem isFree_of_lt_firstFree {b : Page} {o p : Nat} (hop : o ≤ p) (hp : p < firstFree b o) :
    isFree b p = false := by
  fun_induction firstFree b o with
  | case1 o ho hb ih =>
    by_cases h : o + 8 ≤ p
    · exact ih h hp
    · have hcap : p < bitmapCapacity := Nat.lt_of_lt_of_le hp (firstFree_le ..)
      have hbyte : byteOf b p hcap = 255 := by
        rw [byteOf_congr hcap ho (by omega)]
        exact hb.1
      simp [isFree_of_lt hcap, isSet_of_byteOf_eq hcap hbyte]
  | case2 o ho hb hs ih =>
    rcases Nat.lt_or_eq_of_le hop with h | rfl
    · exact ih h hp
    · simp [isFree_of_lt ho, hs]
  | case3 o ho hb hs => omega
  | case4 o ho => exact isFree_of_le (Nat.le_trans (Nat.le_of_not_lt ho) hop)

/-- **The search is the minimum.** An offset with nothing free between the start and itself, and
that is free or the capacity, is where the search ends. -/
theorem firstFree_eq {b : Page} {o p : Nat} (hop : o ≤ p) (hp : p ≤ bitmapCapacity)
    (hset : ∀ q, o ≤ q → q < p → isFree b q = false)
    (hfree : p < bitmapCapacity → isFree b p = true) : firstFree b o = p := by
  rcases Nat.lt_trichotomy (firstFree b o) p with h | h | h
  · have hf := isFree_firstFree (b := b) (o := o) (by omega)
    have hs := hset _ (le_firstFree b (by omega)) h
    rw [hf] at hs
    cases hs
  · exact h
  · have hcap : p < bitmapCapacity := Nat.lt_of_lt_of_le h (firstFree_le ..)
    have hs := isFree_of_lt_firstFree hop h
    rw [hfree hcap] at hs
    cases hs

/-- The search reads nothing but the bits. -/
theorem firstFree_congr {b c : Page} (h : ∀ o, isFree b o = isFree c o) {o : Nat} :
    firstFree b o = firstFree c o := by
  rcases Nat.lt_or_ge bitmapCapacity o with ho | ho
  · rw [firstFree, dif_neg (Nat.lt_asymm ho), firstFree, dif_neg (Nat.lt_asymm ho)]
  · refine firstFree_eq (le_firstFree c ho) (firstFree_le c o) (fun q hoq hq => ?_) fun hq => ?_
    · rw [h]
      exact isFree_of_lt_firstFree hoq hq
    · rw [h]
      exact isFree_firstFree hq

/-! ## Members -/

/-- The offsets whose pages are allocated. -/
def members (b : Page) : Finset Nat :=
  (Finset.range bitmapCapacity).filter fun o => isFree b o = false

theorem mem_members {b : Page} {o : Nat} :
    o ∈ members b ↔ o < bitmapCapacity ∧ isFree b o = false := by
  simp [members]

/-- The other offsets of the extent are free. -/
theorem isFree_iff {b : Page} {o : Nat} :
    isFree b o = true ↔ o < bitmapCapacity ∧ o ∉ members b := by
  rw [mem_members, not_and, Bool.not_eq_false]
  by_cases ho : o < bitmapCapacity
  · rw [and_iff_right ho]
    exact ⟨fun hfree _ => hfree, fun himp => himp ho⟩
  · rw [isFree_of_le (Nat.le_of_not_lt ho)]
    exact iff_of_false Bool.false_ne_true fun hc => ho hc.1

theorem lt_of_mem_members {b : Page} {o : Nat} (h : o ∈ members b) : o < bitmapCapacity :=
  (mem_members.1 h).1

theorem members_subset (b : Page) : members b ⊆ Finset.range bitmapCapacity :=
  Finset.filter_subset _ _

theorem card_members_le (b : Page) : (members b).card ≤ bitmapCapacity := by
  simpa using Finset.card_le_card (members_subset b)

theorem members_eq_range {b : Page} (h : (members b).card = bitmapCapacity) :
    members b = Finset.range bitmapCapacity :=
  Finset.eq_of_subset_of_card_le (members_subset b) (by simp [h])

theorem members_congr {b c : Page} (h : ∀ o, isFree b o = isFree c o) : members b = members c := by
  simp only [members, h]

theorem isFree_put (b : Page) {o : Nat} (ho : o < bitmapCapacity) (used : Bool) (p : Nat) :
    isFree (put b o ho used) p = if o = p then !used else isFree b p := by
  by_cases hp : p < bitmapCapacity
  · rw [isFree_of_lt hp, isFree_of_lt hp, isSet_put]
    by_cases h : o = p <;> simp [h]
  · rw [isFree_of_le (by omega), isFree_of_le (by omega), if_neg (by omega)]

theorem members_put_true (b : Page) {o : Nat} (ho : o < bitmapCapacity) :
    members (put b o ho true) = insert o (members b) := by
  ext p
  simp only [mem_members, isFree_put, Finset.mem_insert]
  by_cases h : o = p
  · subst h
    simp [ho]
  · simp [h, Ne.symm h]

theorem members_put_false (b : Page) {o : Nat} (ho : o < bitmapCapacity) :
    members (put b o ho false) = (members b).erase o := by
  ext p
  simp only [mem_members, isFree_put, Finset.mem_erase]
  by_cases h : o = p
  · subst h
    simp
  · simp [h, Ne.symm h]

/-! ## Counters and bits -/

/-- The counters lie in front of the bits. -/
theorem byteOf_setWord (b : Page) {off o : Nat} (hoff : off + 4 ≤ bitmapHeaderSize) (w : UInt32)
    (ho : o < bitmapCapacity) : byteOf (b.setWord off w) o ho = byteOf b o ho := by
  have := place_lt ho
  rw [byteOf, byteOf, Block.setWord]
  exact Block.getElem_patch_of_outside b this (by simp only [Block.length_wordBytes]; omega)

@[simp] theorem isFree_setWord (b : Page) {off : Nat} (hoff : off + 4 ≤ bitmapHeaderSize)
    (w : UInt32) (o : Nat) : isFree (b.setWord off w) o = isFree b o := by
  by_cases ho : o < bitmapCapacity
  · rw [isFree_of_lt ho, isFree_of_lt ho, isSet, isSet, byteOf_setWord b hoff]
  · rw [isFree_of_le (by omega), isFree_of_le (by omega)]

/-- The bits lie behind the counters. -/
theorem word_put (b : Page) {o off : Nat} (ho : o < bitmapCapacity) (used : Bool)
    (hoff : off + 4 ≤ bitmapHeaderSize) (h : off + 4 ≤ pageSize) :
    (put b o ho used).word off h = b.word off h := by
  have hs : (put b o ho used).slice off 4 h = b.slice off 4 h := by
    apply List.ext_getElem (by simp)
    intro i h₁ h₂
    simp only [Block.length_slice] at h₁
    rw [Block.getElem_slice _ h _ (by omega), Block.getElem_slice _ h _ (by omega), put,
      Vector.getElem_set_ne _ _ (by omega)]
  rw [Block.word, Block.word, hs]

/-! ## Sound pages -/

/-- The counters of the page agree with its bits. -/
structure Sound (b : Page) : Prop where
  /-- one counter is the number of members -/
  allocated_eq : (allocated b).toNat = (members b).card
  /-- the other is the lowest offset that is no member -/
  nextFree_eq : (nextFree b).toNat = firstFree b 0

theorem sound_empty : Sound empty ∧ members empty = ∅ := by
  have hfree : ∀ o, o < bitmapCapacity → isFree empty o = true := by
    intro o ho
    have hz : byteOf empty o ho = 0 := by simp [byteOf, empty, Block.zero, Block.filled]
    have hb : ∀ k, bit 0 k = false := by simp [bit]
    rw [isFree_of_lt ho, isSet, hz, hb, Bool.not_false]
  have hm : members empty = ∅ := by
    ext o
    simp only [mem_members, Finset.notMem_empty, iff_false, not_and]
    intro ho
    simp [hfree o ho]
  have h0 : firstFree empty 0 = 0 :=
    firstFree_eq (Nat.le_refl _) (Nat.zero_le _) (by omega) fun h => hfree 0 h
  refine ⟨⟨?_, ?_⟩, hm⟩
  · rw [hm]
    decide
  · rw [h0]
    decide

namespace Sound

variable {b : Page}

theorem isFull_iff (h : Sound b) : isFull b = true ↔ (members b).card = bitmapCapacity := by
  have := card_members_le b
  simp only [isFull, h.allocated_eq, decide_eq_true_eq]
  omega

/-- Offsets in front of the lowest free one are members. -/
theorem mem_of_lt_firstFree (b : Page) {o : Nat} (ho : o < firstFree b 0) : o ∈ members b :=
  mem_members.2 ⟨Nat.lt_of_lt_of_le ho (firstFree_le ..),
    isFree_of_lt_firstFree (Nat.zero_le _) ho⟩

/-- As long as there is room, the search finds an offset. -/
theorem firstFree_lt (hroom : (members b).card < bitmapCapacity) :
    firstFree b 0 < bitmapCapacity := by
  by_contra hlt
  have hsub : Finset.range bitmapCapacity ⊆ members b := fun o ho =>
    mem_of_lt_firstFree b (by have := Finset.mem_range.1 ho; omega)
  have := Finset.card_le_card hsub
  rw [Finset.card_range] at this
  omega

/-- From the hint the search ends where it ends from zero. -/
theorem firstFree_nextFree (h : Sound b) : firstFree b (nextFree b).toNat = firstFree b 0 := by
  rw [h.nextFree_eq]
  exact firstFree_eq (Nat.le_refl _) (firstFree_le ..) (by omega) fun hlt => isFree_firstFree hlt

/-- **A full bitmap gives nothing.** -/
theorem allocate_eq_none (h : Sound b) (hfull : (members b).card = bitmapCapacity) :
    allocate b = none := by
  rw [allocate, if_pos (h.isFull_iff.2 hfull)]

/-- What the page of an allocation states. -/
theorem exists_allocate (h : Sound b) (hroom : (members b).card < bitmapCapacity) :
    ∃ b', allocate b = some (firstFree b 0, b') ∧
      (∀ p, isFree b' p = if firstFree b 0 = p then false else isFree b p) ∧
      allocated b' = allocated b + 1 ∧
      nextFree b' = UInt32.ofNat (firstFree b' (firstFree b 0 + 1)) := by
  have hlt := firstFree_lt hroom
  have hfull : ¬isFull b = true := by
    rw [h.isFull_iff]
    omega
  obtain ⟨b₁, hb₁⟩ : ∃ b₁, b₁ = put b (firstFree b 0) hlt true := ⟨_, rfl⟩
  obtain ⟨b₂, hb₂⟩ : ∃ b₂, b₂ = b₁.setWord allocatedAt (allocated b₁ + 1) := ⟨_, rfl⟩
  obtain ⟨b₃, hb₃⟩ : ∃ b₃,
    b₃ = b₂.setWord nextFreeAt (UInt32.ofNat (firstFree b₂ (firstFree b 0 + 1))) :=
    ⟨_, rfl⟩
  have hbits : ∀ o, isFree b₃ o = isFree b₂ o := fun o => by rw [hb₃, isFree_setWord _ (by decide)]
  refine ⟨b₃, ?_, fun p => ?_, ?_, ?_⟩
  · rw [allocate, if_neg hfull, h.firstFree_nextFree, dif_pos hlt, hb₃, hb₂, hb₁]
  · rw [hbits, hb₂, isFree_setWord _ (by decide), hb₁, isFree_put, Bool.not_true]
  · rw [allocated, hb₃, Block.word_setWord_of_disjoint _ _ _ (by decide), hb₂, Block.word_setWord,
      hb₁]
    exact congrArg (· + 1) (word_put b hlt true (by decide) (by decide))
  · rw [nextFree, hb₃, Block.word_setWord, ← hb₃, firstFree_congr hbits]

/-- **The lowest free offset is handed out.** -/
theorem allocate_eq_some (h : Sound b) (hroom : (members b).card < bitmapCapacity) :
    ∃ b', allocate b = some (firstFree b 0, b') ∧ Sound b' ∧
      members b' = insert (firstFree b 0) (members b) := by
  have hlt := firstFree_lt hroom
  have hcap := bitmapCapacity_eq
  have hnot : firstFree b 0 ∉ members b := (isFree_iff.1 (isFree_firstFree hlt)).2
  obtain ⟨b', hrun, hbits, halloc, hnext⟩ := h.exists_allocate hroom
  have hmem : members b' = insert (firstFree b 0) (members b) := by
    rw [← members_put_true b hlt]
    exact members_congr fun p => by rw [hbits, isFree_put, Bool.not_true]
  refine ⟨b', hrun, ⟨?_, ?_⟩, hmem⟩
  · -- the counter cannot wrap, since an extent has fewer pages than a word has values
    rw [hmem, Finset.card_insert_of_notMem hnot, halloc, UInt32.toNat_add, h.allocated_eq,
      UInt32.toNat_one]
    omega
  · have hbound := firstFree_le b' (firstFree b 0 + 1)
    rw [hnext, UInt32.toNat_ofNat_of_lt' (by simp only [UInt32.size]; omega)]
    symm
    refine firstFree_eq (Nat.zero_le _) hbound (fun q _ hq => ?_) isFree_firstFree
    rcases Nat.lt_or_ge (firstFree b 0) q with hlow | hlow
    · exact isFree_of_lt_firstFree hlow hq
    · rw [hbits]
      by_cases he : firstFree b 0 = q
      · rw [if_pos he]
      · rw [if_neg he]
        exact isFree_of_lt_firstFree (Nat.zero_le _) (by omega)

/-- What the page of a freed member states. -/
theorem exists_free {o : Nat} (ho : o ∈ members b) :
    ∃ b', free b o = some b' ∧ (∀ p, isFree b' p = if o = p then true else isFree b p) ∧
      allocated b' = allocated b - 1 ∧
      nextFree b' = if o < (nextFree b).toNat then UInt32.ofNat o else nextFree b := by
  obtain ⟨hlt, hused⟩ := mem_members.1 ho
  have hset : isSet b o hlt = true := by simpa [isFree_of_lt hlt] using hused
  obtain ⟨b₁, hb₁⟩ : ∃ b₁, b₁ = put b o hlt false := ⟨_, rfl⟩
  obtain ⟨b₂, hb₂⟩ : ∃ b₂, b₂ = b₁.setWord allocatedAt (allocated b₁ - 1) := ⟨_, rfl⟩
  have hbits : ∀ p, isFree b₂ p = if o = p then true else isFree b p := fun p => by
    rw [hb₂, isFree_setWord _ (by decide), hb₁, isFree_put, Bool.not_false]
  have halloc : allocated b₂ = allocated b - 1 := by
    rw [allocated, hb₂, Block.word_setWord, hb₁]
    exact congrArg (· - 1) (word_put b hlt false (by decide) (by decide))
  have hnext : nextFree b₂ = nextFree b := by
    rw [nextFree, hb₂, Block.word_setWord_of_disjoint _ _ _ (by decide), hb₁,
      word_put _ _ _ (by decide)]
    rfl
  have hrun : free b o =
      some (if o < (nextFree b₂).toNat then b₂.setWord nextFreeAt (UInt32.ofNat o) else b₂) := by
    rw [free, dif_pos hlt, if_pos hset, hb₂, hb₁]
  rw [hnext] at hrun
  by_cases hback : o < (nextFree b).toNat
  · rw [if_pos hback] at hrun ⊢
    refine ⟨_, hrun, fun p => ?_, ?_, Block.word_setWord ..⟩
    · rw [isFree_setWord _ (by decide), hbits]
    · exact (Block.word_setWord_of_disjoint _ _ _ (by decide)).trans halloc
  · rw [if_neg hback] at hrun ⊢
    exact ⟨b₂, hrun, hbits, halloc, hnext⟩

/-- **A member is freed.** -/
theorem free_eq_some (h : Sound b) {o : Nat} (ho : o ∈ members b) :
    ∃ b', free b o = some b' ∧ Sound b' ∧ members b' = (members b).erase o := by
  obtain ⟨hlt, -⟩ := mem_members.1 ho
  have hpos : 0 < (members b).card := Finset.card_pos.2 ⟨o, ho⟩
  have hcap := bitmapCapacity_eq
  have hfirst := h.nextFree_eq
  obtain ⟨b', hrun, hbits, halloc, hnext⟩ := exists_free ho
  have hmem : members b' = (members b).erase o := by
    rw [← members_put_false b hlt]
    exact members_congr fun p => by rw [hbits, isFree_put, Bool.not_false]
  refine ⟨b', hrun, ⟨?_, ?_⟩, hmem⟩
  · rw [hmem, Finset.card_erase_of_mem ho, halloc, UInt32.toNat_sub_of_le, h.allocated_eq,
      UInt32.toNat_one]
    rw [UInt32.le_iff_toNat_le, h.allocated_eq]
    simpa using hpos
  · -- the freed offset is the lowest free one now, unless there is one in front of it
    symm
    rw [hnext]
    by_cases hback : o < (nextFree b).toNat
    · rw [if_pos hback, UInt32.toNat_ofNat_of_lt' (by simp only [UInt32.size]; omega)]
      refine firstFree_eq (Nat.zero_le _) (Nat.le_of_lt hlt) (fun q _ hq => ?_) fun _ => ?_
      · rw [hbits, if_neg (by omega)]
        exact isFree_of_lt_firstFree (Nat.zero_le _) (by omega)
      · rw [hbits, if_pos rfl]
    · rw [if_neg hback, hfirst]
      rw [hfirst] at hback
      refine firstFree_eq (Nat.zero_le _) (firstFree_le ..) (fun q _ hq => ?_) fun hq => ?_
      · rw [hbits, if_neg (by omega)]
        exact isFree_of_lt_firstFree (Nat.zero_le _) hq
      · rw [hbits]
        split
        · rfl
        · exact isFree_firstFree hq

end Sound

/-- **Nothing else is freed.** -/
theorem free_eq_none {b : Page} {o : Nat} (ho : o ∉ members b) : free b o = none := by
  rw [free]
  by_cases hlt : o < bitmapCapacity
  · have hfree : isFree b o = true := isFree_iff.2 ⟨hlt, ho⟩
    have hset : ¬isSet b o hlt = true := by simpa [isFree_of_lt hlt] using hfree
    rw [dif_pos hlt, if_neg hset]
  · rw [dif_neg hlt]

end PageStore.Bitmap
