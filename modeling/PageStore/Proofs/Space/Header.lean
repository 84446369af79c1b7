import Mathlib.Algebra.BigOperators.Group.Finset.Basic
import Mathlib.Algebra.Order.BigOperators.Group.Finset
import PageStore.Space.Basic

/-!
# What the space header states

A header is `Sound` for a count of the allocated pages of each extent when it is valid and its
numbers agree with those counts: the used count of every extent, their sum, and the first extent
that is not full. Each way to edit a header keeps it sound for the counts edited likewise:
`Sound.grow` for a new extent, `Sound.countAllocated` and `Sound.countFreed` for a page more or
less.
-/

namespace PageStore.SpaceHeader

open Finset

/-- The header states these counts of allocated pages. -/
structure Sound (h : Page) (used : Nat → Nat) : Prop where
  /-- the page is a header at all -/
  valid : isValid h = true
  /-- the used count of each extent is stated -/
  used_eq : ∀ e, e < (extents h).toNat → ∃ u, SpaceHeader.used h e = .ok u ∧ u.toNat = used e
  /-- no extent has more pages than its bitmap has bits -/
  used_le : ∀ e, e < (extents h).toNat → used e ≤ bitmapCapacity
  /-- the total is the sum of the counts -/
  allocated_eq : (allocated h).toNat = ∑ e ∈ range (extents h).toNat, used e
  /-- the hint is an extent, or the number of extents -/
  nextFree_le : (nextFree h).toNat ≤ (extents h).toNat
  /-- every extent before the hint is full -/
  full : ∀ e, e < (nextFree h).toNat → used e = bitmapCapacity
  /-- the extent that the hint names is not full -/
  roomy : (nextFree h).toNat < (extents h).toNat → used (nextFree h).toNat < bitmapCapacity

/-! ## The parts of a header -/

theorem isValid_iff {h : Page} : isValid h = true ↔
    h.word magicAt = magic ∧ h.word versionAt = version ∧ (extents h).toNat ≤ maxExtents := by
  simp [isValid, and_assoc]

/-- A valid header is not blank. -/
theorem isBlank_of_isValid {h : Page} (hv : isValid h = true) : isBlank h = false := by
  by_contra hb
  have hz : ∀ i (hi : i < pageSize), h[i] = 0 := by
    simpa [isBlank, Vector.all_eq_true] using hb
  have hw : h.word magicAt = 0 := by
    have hs : h.slice magicAt 4 (by decide) = [0, 0, 0, 0] := by
      simp [Block.slice, List.ofFn_succ, hz]
    rw [Block.word, hs]
    decide
  rw [(isValid_iff.1 hv).1] at hw
  exact absurd hw (by decide)

/-- All numbers of a fresh header are zero. -/
theorem word_fresh {off : Nat} (hlow : 8 ≤ off) (h : off + 4 ≤ pageSize) :
    fresh.word off h = (Block.zero pageSize).word off h := by
  rw [fresh, Block.word_setWord_of_disjoint _ _ _ (.inr (by simp only [versionAt]; omega)),
    Block.word_setWord_of_disjoint _ _ _ (.inr (by simp only [magicAt]; omega))]

theorem allocated_fresh : allocated fresh = 0 := by
  rw [allocated, word_fresh (by decide)]
  decide

theorem extents_fresh : extents fresh = 0 := by
  rw [extents, word_fresh (by decide)]
  decide

theorem nextFree_fresh : nextFree fresh = 0 := by
  rw [nextFree, word_fresh (by decide)]
  decide

/-- Stating a used count touches no other part of the header. -/
theorem setUsed_eq_ok (h : Page) {e : Nat} (he : e < maxExtents) (n : UInt32) :
    setUsed h e n = .ok (h.setWord (usedOffset e) n) := by
  rw [setUsed, Block.writeWord_eq_some _ _ (usedOffset_le he), demand_some]

theorem word_setUsed {h h' : Page} {e : Nat} {n : UInt32} (he : e < maxExtents)
    (hs : setUsed h e n = .ok h') {o : Nat} (hoff : o + 4 ≤ spaceHeaderSize)
    (hp : o + 4 ≤ pageSize) : h'.word o hp = h.word o hp := by
  rw [setUsed_eq_ok h he] at hs
  cases hs
  exact Block.word_setWord_of_disjoint _ _ _ (by simp only [usedOffset]; omega)

/-- Overwriting a number in front of the used counts leaves these alone. -/
theorem used_setWord (h : Page) {off : Nat} (hoff : off + 4 ≤ spaceHeaderSize) (w : UInt32)
    {e : Nat} (he : e < maxExtents) : used (h.setWord off w) e = used h e := by
  rw [used, used, Block.readWord_eq_some _ (usedOffset_le he),
    Block.readWord_eq_some _ (usedOffset_le he), Block.word_setWord_of_disjoint]
  simp only [usedOffset]
  omega

/-! ## Looking for room -/

/-- Where the search for an extent that is not full ends. -/
theorem findNotFullAmong_eq_ok {h : Page} {used : Nat → Nat} (count e : Nat)
    (hused : ∀ d, e ≤ d → d < e + count → ∃ u, SpaceHeader.used h d = .ok u ∧ u.toNat = used d) :
    ∃ r, findNotFullAmong h count e = .ok r ∧
      e ≤ r.getD (e + count) ∧ r.getD (e + count) ≤ e + count ∧
      (∀ d, e ≤ d → d < r.getD (e + count) → bitmapCapacity ≤ used d) ∧
      (r.getD (e + count) < e + count → used (r.getD (e + count)) < bitmapCapacity) := by
  induction count generalizing e with
  | zero => exact ⟨none, rfl, by simp, by simp, by simp; omega, by simp⟩
  | succ count ih =>
    obtain ⟨u, hu, hue⟩ := hused e (Nat.le_refl _) (by omega)
    have hfull : isFull h e = .ok (decide (bitmapCapacity ≤ used e)) := by
      rw [isFull, hu, ← hue]
      rfl
    by_cases hc : bitmapCapacity ≤ used e
    · obtain ⟨r, hr, hlow, hhigh, hbefore, hat⟩ :=
        ih (e + 1) fun d hd hd' => hused d (by omega) (by omega)
      have hsum : e + (count + 1) = e + 1 + count := by omega
      refine ⟨r, ?_, ?_⟩
      · rw [findNotFullAmong, hfull, decide_eq_true hc]
        exact hr
      · rw [hsum]
        refine ⟨by omega, hhigh, fun d hd hd' => ?_, hat⟩
        rcases Nat.lt_or_eq_of_le hd with hlt | rfl
        · exact hbefore d hlt hd'
        · exact hc
    · refine ⟨some e, ?_, ?_⟩
      · rw [findNotFullAmong, hfull, decide_eq_false hc]
        rfl
      · simp only [Option.getD_some]
        exact ⟨Nat.le_refl _, by omega, by omega, fun _ => by omega⟩

namespace Sound

variable {h : Page} {used : Nat → Nat}

theorem extents_le (hs : Sound h used) : (extents h).toNat ≤ maxExtents :=
  (isValid_iff.1 hs.valid).2.2

theorem lt_maxExtents (hs : Sound h used) {e : Nat} (he : e < (extents h).toNat) :
    e < maxExtents := Nat.lt_of_lt_of_le he hs.extents_le

/-- The counts matter only up to the number of extents. -/
theorem congr {used' : Nat → Nat} (hs : Sound h used)
    (hu : ∀ e, e < (extents h).toNat → used' e = used e) : Sound h used' where
  valid := hs.valid
  used_eq e he := by
    rw [hu e he]
    exact hs.used_eq e he
  used_le e he := by
    rw [hu e he]
    exact hs.used_le e he
  allocated_eq := by
    rw [hs.allocated_eq]
    exact sum_congr rfl fun e he => (hu e (mem_range.1 he)).symm
  nextFree_le := hs.nextFree_le
  full e he := by
    rw [hu e (Nat.lt_of_lt_of_le he hs.nextFree_le)]
    exact hs.full e he
  roomy hlt := by
    rw [hu _ hlt]
    exact hs.roomy hlt

/-- The total is far below the largest number of a word. -/
theorem sum_le (hs : Sound h used) :
    ∑ e ∈ range (extents h).toNat, used e ≤ maxLogicalPages := by
  calc ∑ e ∈ range (extents h).toNat, used e
      ≤ ∑ _e ∈ range (extents h).toNat, bitmapCapacity :=
        sum_le_sum fun e he => hs.used_le e (mem_range.1 he)
    _ = (extents h).toNat * bitmapCapacity := by
        rw [sum_const_nat fun _ _ => rfl, card_range]
    _ ≤ maxLogicalPages := Nat.mul_le_mul_right _ hs.extents_le

/-- The fresh header states no extents. -/
theorem fresh (used : Nat → Nat) : Sound SpaceHeader.fresh used where
  valid := isValid_fresh
  used_eq := by simp [extents_fresh]
  used_le := by simp [extents_fresh]
  allocated_eq := by simp [allocated_fresh, extents_fresh]
  nextFree_le := by simp [extents_fresh, nextFree_fresh]
  full := by simp [nextFree_fresh]
  roomy := by simp [extents_fresh]

/-- A page more or less in an extent changes the sum by as much. -/
theorem sum_update {n e : Nat} (he : e < n) (used : Nat → Nat) (u : Nat) :
    ∑ d ∈ range n, Function.update used e u d + used e = ∑ d ∈ range n, used d + u := by
  have hmem : e ∈ range n := mem_range.2 he
  have hnew := add_sum_erase (range n) (Function.update used e u) hmem
  have hold := add_sum_erase (range n) used hmem
  have hrest : ∑ d ∈ (range n).erase e, Function.update used e u d =
      ∑ d ∈ (range n).erase e, used d :=
    sum_congr rfl fun d hd => Function.update_of_ne (ne_of_mem_erase hd) u used
  rw [Function.update_self] at hnew
  omega

/-- **One extent more.** A header whose extents are all full describes one more, without pages. -/
theorem grow (hs : Sound h used) (hfull : (nextFree h).toNat = (extents h).toNat)
    (hroom : (extents h).toNat < maxExtents) :
    ∃ h', setUsed (setExtents h (UInt32.ofNat ((extents h).toNat + 1)))
      (extents h).toNat 0 = .ok h' ∧
      Sound h' (Function.update used (extents h).toNat 0) ∧
      (extents h').toNat = (extents h).toNat + 1 ∧ nextFree h' = nextFree h := by
  have hmax := maxExtents_eq
  obtain ⟨h', hh'⟩ : ∃ h', setUsed (setExtents h (UInt32.ofNat ((extents h).toNat + 1)))
      (extents h).toNat 0 = .ok h' := ⟨_, setUsed_eq_ok _ hroom 0⟩
  have hword := fun {o : Nat} => word_setUsed (o := o) hroom hh'
  have hext : extents h' = UInt32.ofNat ((extents h).toNat + 1) := by
    rw [extents, hword (by decide)]
    exact extents_setExtents ..
  have hextN : (extents h').toNat = (extents h).toNat + 1 := by
    rw [hext, UInt32.toNat_ofNat_of_lt' (by simp only [UInt32.size]; omega)]
  have hnext : nextFree h' = nextFree h := by
    rw [nextFree, hword (by decide)]
    exact Block.word_setWord_of_disjoint _ _ _ (by decide)
  -- the extent that joins is the last one, so no count already there moves
  have hold : ∀ d, d < maxExtents → d ≠ (extents h).toNat →
      SpaceHeader.used h' d = SpaceHeader.used h d := by
    intro d hd hne
    rw [used_setUsed hroom hh' d hd, if_neg (Ne.symm hne)]
    exact used_setWord h (by decide) _ hd
  refine ⟨h', hh', ⟨?_, ?_, ?_, ?_, ?_, ?_, ?_⟩, hextN, hnext⟩
  · obtain ⟨hm, hv, -⟩ := isValid_iff.1 hs.valid
    refine isValid_iff.2 ⟨?_, ?_, by omega⟩
    · rw [hword (by decide), setExtents, Block.word_setWord_of_disjoint _ _ _ (by decide), hm]
    · rw [hword (by decide), setExtents, Block.word_setWord_of_disjoint _ _ _ (by decide), hv]
  · intro d hd
    by_cases he : d = (extents h).toNat
    · refine ⟨0, ?_, ?_⟩
      · rw [used_setUsed hroom hh' d (by omega), if_pos he.symm]
      · rw [he, Function.update_self]
        rfl
    · rw [hold d (by omega) he, Function.update_of_ne he]
      exact hs.used_eq d (by omega)
  · intro d hd
    by_cases he : d = (extents h).toNat
    · rw [he, Function.update_self]
      exact Nat.zero_le _
    · rw [Function.update_of_ne he]
      exact hs.used_le d (by omega)
  · have hall : allocated h' = allocated h := by
      rw [allocated, hword (by decide)]
      exact Block.word_setWord_of_disjoint _ _ _ (by decide)
    rw [hall, hs.allocated_eq, hextN, sum_range_succ, Function.update_self, Nat.add_zero]
    exact sum_congr rfl fun d hd =>
      (Function.update_of_ne (Nat.ne_of_lt (mem_range.1 hd)) _ _).symm
  · rw [hnext]
    omega
  · intro d hd
    rw [hnext] at hd
    rw [Function.update_of_ne (by omega)]
    exact hs.full d hd
  · intro _
    rw [hnext, hfull, Function.update_self]
    decide

/-- `h'` states another number of pages for extent `e` and another total than `h`, and the same
otherwise, except for the hint. -/
structure Recounted (h h' : Page) (e : Nat) (u n : UInt32) : Prop where
  magic_eq : h'.word magicAt = h.word magicAt
  version_eq : h'.word versionAt = h.word versionAt
  allocated_eq : allocated h' = n
  extents_eq : extents h' = extents h
  used_eq : ∀ d, d < maxExtents →
    SpaceHeader.used h' d = if e = d then .ok u else SpaceHeader.used h d

/-- The two edits that recount leave the hint alone. -/
theorem recounted {h' : Page} {e : Nat} {u : UInt32} (he : e < maxExtents)
    (hu : setUsed h e u = .ok h') (n : UInt32) :
    Recounted h (setAllocated h' n) e u n ∧ nextFree (setAllocated h' n) = nextFree h := by
  have hword := fun {o : Nat} => word_setUsed (o := o) he hu
  refine ⟨⟨?_, ?_, allocated_setAllocated .., ?_, fun d hd => ?_⟩, ?_⟩
  · rw [setAllocated, Block.word_setWord_of_disjoint _ _ _ (by decide), hword (by decide)]
  · rw [setAllocated, Block.word_setWord_of_disjoint _ _ _ (by decide), hword (by decide)]
  · rw [extents, setAllocated, Block.word_setWord_of_disjoint _ _ _ (by decide), hword (by decide)]
    rfl
  · rw [setAllocated, used_setWord _ (by decide) _ hd, used_setUsed he hu d hd]
  · rw [nextFree, setAllocated, Block.word_setWord_of_disjoint _ _ _ (by decide),
      hword (by decide)]
    rfl

/-- Moving the hint changes nothing else. -/
theorem Recounted.setNextFree {h' : Page} {e : Nat} {u n : UInt32} (hr : Recounted h h' e u n)
    (next : UInt32) : Recounted h (setNextFree h' next) e u n := by
  obtain ⟨hm, hv, ha, he, hu⟩ := hr
  refine ⟨?_, ?_, ?_, ?_, fun d hd => ?_⟩
  · exact (Block.word_setWord_of_disjoint _ _ _ (by decide)).trans hm
  · exact (Block.word_setWord_of_disjoint _ _ _ (by decide)).trans hv
  · exact (Block.word_setWord_of_disjoint _ _ _ (by decide)).trans ha
  · exact (Block.word_setWord_of_disjoint _ _ _ (by decide)).trans he
  · exact (used_setWord h' (by decide) next hd).trans (hu d hd)

/-- Recounted by the same number in the extent and in the total, a header is sound as far as the
hint is. -/
theorem of_recounted (hs : Sound h used) {h' : Page} {e : Nat} {u n : UInt32}
    (hr : Recounted h h' e u n) (he : e < (extents h).toNat) (hle : u.toNat ≤ bitmapCapacity)
    (htotal : n.toNat + used e = (allocated h).toNat + u.toNat)
    (hnext : (nextFree h').toNat ≤ (extents h).toNat)
    (hfull : ∀ d, d < (nextFree h').toNat → Function.update used e u.toNat d = bitmapCapacity)
    (hroomy : (nextFree h').toNat < (extents h).toNat →
      Function.update used e u.toNat (nextFree h').toNat < bitmapCapacity) :
    Sound h' (Function.update used e u.toNat) := by
  obtain ⟨hm, hv, -⟩ := isValid_iff.1 hs.valid
  have hext : (extents h').toNat = (extents h).toNat := by rw [hr.extents_eq]
  refine ⟨?_, ?_, ?_, ?_, ?_, hfull, ?_⟩
  · exact isValid_iff.2 ⟨hr.magic_eq.trans hm, hr.version_eq.trans hv, hext ▸ hs.extents_le⟩
  · intro d hd
    rw [hext] at hd
    rw [hr.used_eq d (hs.lt_maxExtents hd)]
    by_cases hed : e = d
    · subst hed
      exact ⟨u, by rw [if_pos rfl], by rw [Function.update_self]⟩
    · rw [if_neg hed, Function.update_of_ne (Ne.symm hed)]
      exact hs.used_eq d hd
  · intro d hd
    rw [hext] at hd
    by_cases hed : d = e
    · rw [hed, Function.update_self]
      exact hle
    · rw [Function.update_of_ne hed]
      exact hs.used_le d hd
  · have hsum := sum_update he used u.toNat
    rw [hr.allocated_eq, hext]
    have := hs.allocated_eq
    omega
  · rw [hext]
    exact hnext
  · rw [hext]
    exact hroomy

/-- A page more can be counted, in the extent and in the total. -/
theorem toNat_succ (hs : Sound h used) {e : Nat} (hroom : used e < bitmapCapacity) {u : UInt32}
    (hu : u.toNat = used e) : (u + 1).toNat = used e + 1 ∧
      (allocated h + 1).toNat + used e = (allocated h).toNat + (u + 1).toNat := by
  have hcap : bitmapCapacity = 32704 := bitmapCapacity_eq
  have hpages : maxLogicalPages = 33325376 := maxLogicalPages_eq
  have hsum := hs.sum_le
  rw [← hs.allocated_eq] at hsum
  rw [UInt32.toNat_add, UInt32.toNat_add, UInt32.toNat_one, hu]
  omega

/-- A page less too. -/
theorem toNat_pred (hs : Sound h used) {e : Nat} (he : e < (extents h).toNat) (hpos : 0 < used e)
    {u : UInt32} (hu : u.toNat = used e) : (u - 1).toNat = used e - 1 ∧
      (allocated h - 1).toNat + used e = (allocated h).toNat + (u - 1).toNat := by
  have hone : (1 : UInt32).toNat = 1 := UInt32.toNat_one
  have hsum : used e ≤ ∑ d ∈ range (extents h).toNat, used d :=
    single_le_sum (fun _ _ => Nat.zero_le _) (mem_range.2 he)
  rw [← hs.allocated_eq] at hsum
  have hu1 : (u - 1).toNat = used e - 1 := by
    rw [UInt32.toNat_sub_of_le _ _ (by rw [UInt32.le_iff_toNat_le]; omega), hu, hone]
  refine ⟨hu1, ?_⟩
  rw [hu1, UInt32.toNat_sub_of_le _ _ (by rw [UInt32.le_iff_toNat_le]; omega), hone]
  omega

/-- Counting starts with the used count and the total. -/
theorem exists_recounted (hs : Sound h used) {e : Nat} (he : e < (extents h).toNat) (u n : UInt32) :
    ∃ h₁, setUsed h e u = .ok h₁ ∧ allocated h₁ = allocated h ∧
      Recounted h (setAllocated h₁ n) e u n ∧ nextFree (setAllocated h₁ n) = nextFree h := by
  have heM := hs.lt_maxExtents he
  obtain ⟨h₁, hh₁⟩ : ∃ h₁, setUsed h e u = .ok h₁ := ⟨_, setUsed_eq_ok h heM _⟩
  refine ⟨h₁, hh₁, ?_, recounted heM hh₁ n⟩
  rw [allocated, word_setUsed heM hh₁ (by decide)]
  rfl

/-- The hint of a recounted header may stay where it is, unless it names an extent that is full
now. -/
theorem of_recounted_stays (hs : Sound h used) {h' : Page} {e : Nat} {u n : UInt32}
    (hr : Recounted h h' e u n) (hnext : nextFree h' = nextFree h) (he : e < (extents h).toNat)
    (hle : u.toNat ≤ bitmapCapacity) (htotal : n.toNat + used e = (allocated h).toNat + u.toNat)
    (hbehind : (nextFree h).toNat ≤ e)
    (hroomy : (nextFree h).toNat = e → u.toNat < bitmapCapacity) :
    Sound h' (Function.update used e u.toNat) := by
  refine of_recounted hs hr he hle htotal (hnext ▸ hs.nextFree_le) (fun d hd => ?_) fun hlt => ?_
  · rw [hnext] at hd
    rw [Function.update_of_ne (by omega)]
    exact hs.full d hd
  · rw [hnext] at hlt ⊢
    by_cases hed : (nextFree h).toNat = e
    · rw [hed, Function.update_self]
      exact hroomy hed
    · rw [Function.update_of_ne hed]
      exact hs.roomy hlt

/-- The next extent that is not full, behind one that was recounted. -/
theorem findNotFull_behind (hs : Sound h used) {h' : Page} {e : Nat} {u n : UInt32}
    (hr : Recounted h h' e u n) (he : e < (extents h).toNat) :
    ∃ r next, SpaceHeader.findNotFull h' (e + 1) = .ok r ∧ r.getD (extents h').toNat = next ∧
    e < next ∧
      next ≤ (extents h).toNat ∧ (∀ d, e < d → d < next → used d = bitmapCapacity) ∧
      (next < (extents h).toNat → used next < bitmapCapacity) := by
  have hext := congrArg UInt32.toNat hr.extents_eq
  have hcounts : ∀ d, e + 1 ≤ d → d < e + 1 + ((extents h).toNat - (e + 1)) →
      ∃ w, SpaceHeader.used h' d = .ok w ∧ w.toNat = used d := by
    intro d hd hd'
    rw [hr.used_eq d (hs.lt_maxExtents (by omega)), if_neg (by omega)]
    exact hs.used_eq d (by omega)
  obtain ⟨r, hfind, hlow, hhigh, hbefore, hat⟩ := findNotFullAmong_eq_ok _ _ hcounts
  have hsum : e + 1 + ((extents h).toNat - (e + 1)) = (extents h).toNat := by omega
  rw [hsum] at hlow hhigh hbefore hat
  refine ⟨r, _, ?_, rfl, ?_⟩
  · rw [SpaceHeader.findNotFull, hext]
    exact hfind
  · rw [hext]
    exact ⟨hlow, hhigh, fun d hd hd' => Nat.le_antisymm (hs.used_le d (by omega))
      (hbefore d hd hd'), hat⟩

/-- **One page more.** Counting a page of the extent that the hint names keeps the header
sound, and the hint moves on when that extent is full now. -/
theorem countAllocated (hs : Sound h used) {e : Nat} (hhint : (nextFree h).toNat = e)
    (he : e < (extents h).toNat) :
    ∃ h', Space.countAllocated e h = .ok h' ∧
      Sound h' (Function.update used e (used e + 1)) ∧ extents h' = extents h := by
  have hmax := hs.extents_le
  have hlim : maxExtents = 1019 := maxExtents_eq
  have hroom : used e < bitmapCapacity := by
    have := hs.roomy (by omega)
    rwa [hhint] at this
  obtain ⟨u, hu, hue⟩ := hs.used_eq e he
  obtain ⟨hu1, htotal⟩ := hs.toNat_succ hroom hue
  obtain ⟨h₁, hh₁, halloc₁, hr, hnext⟩ := hs.exists_recounted he (u + 1) (allocated h + 1)
  have hle : (u + 1).toNat ≤ bitmapCapacity := by omega
  rw [← hu1]
  by_cases hfull : bitmapCapacity ≤ used e + 1
  · -- the extent is full now: the hint moves to the next one that is not
    obtain ⟨r, next, hfind, hget, hlow, hhigh, hbefore, hat⟩ := hs.findNotFull_behind hr he
    have hnextN : (UInt32.ofNat next).toNat = next :=
      UInt32.toNat_ofNat_of_lt' (by simp only [UInt32.size]; omega)
    refine ⟨setNextFree (setAllocated h₁ (allocated h + 1)) (UInt32.ofNat next), ?_, ?_,
      (hr.setNextFree _).extents_eq⟩
    · simp only [Space.countAllocated, hu, hh₁, halloc₁, bind, Except.bind, hu1, hfull, if_true,
        hfind, hget]
      rfl
    · refine of_recounted hs (hr.setNextFree _) he hle htotal ?_ (fun d hd => ?_) fun hlt => ?_
      · rw [nextFree_setNextFree, hnextN]
        exact hhigh
      · rw [nextFree_setNextFree, hnextN] at hd
        rcases Nat.lt_trichotomy d e with hlt | rfl | hlt
        · rw [Function.update_of_ne (Nat.ne_of_lt hlt)]
          exact hs.full d (by omega)
        · rw [Function.update_self]
          omega
        · rw [Function.update_of_ne (Nat.ne_of_gt hlt)]
          exact hbefore d hlt hd
      · rw [nextFree_setNextFree, hnextN] at hlt ⊢
        rw [Function.update_of_ne (Nat.ne_of_gt hlow)]
        exact hat hlt
  · refine ⟨_, ?_, of_recounted_stays hs hr hnext he hle htotal (Nat.le_of_eq hhint) fun _ => by
      omega, hr.extents_eq⟩
    simp only [Space.countAllocated, hu, hh₁, halloc₁, bind, Except.bind, hu1, hfull, if_false]
    rfl

/-- **One page less.** The hint moves back when the page's extent lies before it. -/
theorem countFreed (hs : Sound h used) {e : Nat} (he : e < (extents h).toNat)
    (hpos : 0 < used e) :
    ∃ h', Space.countFreed e h = .ok h' ∧
      Sound h' (Function.update used e (used e - 1)) ∧ extents h' = extents h := by
  have hmax := hs.extents_le
  have hlim : maxExtents = 1019 := maxExtents_eq
  have hle := hs.used_le e he
  obtain ⟨u, hu, hue⟩ := hs.used_eq e he
  obtain ⟨hu1, htotal⟩ := hs.toNat_pred he hpos hue
  obtain ⟨h₁, hh₁, halloc₁, hr, hnext⟩ := hs.exists_recounted he (u - 1) (allocated h - 1)
  have hrun : Space.countFreed e h = .ok (if e < (nextFree h).toNat
      then setNextFree (setAllocated h₁ (allocated h - 1)) (UInt32.ofNat e)
      else setAllocated h₁ (allocated h - 1)) := by
    simp only [Space.countFreed, hu, hh₁, halloc₁, bind, Except.bind, hnext]
    rfl
  rw [← hu1]
  by_cases hback : e < (nextFree h).toNat
  · have heN : (UInt32.ofNat e).toNat = e :=
      UInt32.toNat_ofNat_of_lt' (by simp only [UInt32.size]; omega)
    refine ⟨_, by rw [hrun, if_pos hback],
      of_recounted hs (hr.setNextFree _) he (by omega) htotal ?_ (fun d hd => ?_) fun _ => ?_,
      (hr.setNextFree _).extents_eq⟩
    · rw [nextFree_setNextFree, heN]
      exact Nat.le_of_lt he
    · rw [nextFree_setNextFree, heN] at hd
      rw [Function.update_of_ne (by omega)]
      exact hs.full d (by omega)
    · rw [nextFree_setNextFree, heN, Function.update_self]
      omega
  · exact ⟨_, by rw [hrun, if_neg hback],
      of_recounted_stays hs hr hnext he (by omega) htotal (Nat.le_of_not_lt hback) fun _ => by
        omega, hr.extents_eq⟩

end Sound

end PageStore.SpaceHeader
