import PageStore.Proofs.Space.View

/-!
# Allocating and freeing

What each operation of a space does to the set of allocated pages and to the stored bytes.

* `allocate_cases`: the least number that is no member is handed out and becomes one, and only a
  space whose members are all the numbers there are refuses;
* `free_eq_ok` and `free_eq_error`: a member stops being one, and everything else is refused;
* `isFree_eq_ok`: what is free is what is no member;
* `read_eq_ok` and `write_eq_ok`: the bytes of a member are read and written, and a page that is
  no member reads as zeros.

None of these touches what is stored for another page. How each operation runs is written out once,
for any space whose bitmaps and header let it (`allocate_of_fetch`, `free_of_fetch` and so on); what
holds of a space before and after is told apart from that.
-/

namespace PageStore.Space

open Finset

variable {m : Nat}

theorem checkRange_eq_ok {p : PageId} (hp : p.isInRange = true) : checkRange p = .ok () := if_pos hp

theorem checkRange_eq_error {p : PageId} (hp : p.isInRange = false) :
    checkRange p = .error (.invalidPage p) := if_neg (by simp [hp])

theorem editHeader_eq_ok {f : Page → Except Halt Page} {s : Space m} {h : Page}
    (hf : f s.header = .ok h) :
    editHeader f s = .ok () { s with header := h, headerDirty := true } := by
  rw [editHeader, Action.get_bind, Action.bind_of_ok (Action.liftM_ok hf s)]
  rfl

/-! ## How the operations run

What each operation returns, and the space that it leaves, told by what its parts return. -/

section Runs

variable {s s₁ s₂ : Space m} {p : PageId} {f : Fin m} {e o : Nat} {bits h : Page}

/-- A bitmap and the header are changed together. -/
theorem edit_eq_ok {change : Page → Except Halt Page} (hh : change s.header = .ok h) :
    (do onBitmaps (modify (·.edit f bits)); editHeader change : Action (Space m) Unit) s =
      .ok () ⟨s.bitmaps.edit f bits, h, true⟩ := by
  have hedit : onBitmaps (modify (·.edit f bits)) s =
      .ok () { s with bitmaps := s.bitmaps.edit f bits } := rfl
  have hafter : editHeader change { s with bitmaps := s.bitmaps.edit f bits } =
      .ok () ⟨s.bitmaps.edit f bits, h, true⟩ := editHeader_eq_ok hh
  rw [Action.bind_of_ok hedit]
  exact hafter

/-- There is no room for an extent more. -/
theorem grow_of_le (hfull : maxExtents ≤ s.extents.toNat) :
    grow s = .error (.refused .diskFull) s := by
  rw [grow, Action.get_bind]
  simp only [if_pos hfull]
  rfl

theorem grow_of_install {c : BitmapCache m} (hroom : s.extents.toNat < maxExtents)
    (hc : BitmapCache.install s.extents.toNat s.bitmaps = .ok () c)
    (hh : SpaceHeader.setUsed
      (SpaceHeader.setExtents s.header (UInt32.ofNat (s.extents.toNat + 1))) s.extents.toNat 0 =
        .ok h) :
    grow s = .ok s.extents.toNat ⟨c, h, true⟩ := by
  have hinst : onBitmaps (BitmapCache.install s.extents.toNat) s = .ok () { s with bitmaps := c } :=
    Action.focus_ok hc
  rw [grow, Action.get_bind]
  simp only [if_neg (Nat.not_le_of_lt hroom)]
  rw [Action.bind_of_ok hinst, Action.bind_of_ok (editHeader_eq_ok hh)]
  rfl

/-- The hint names an extent, and is taken for one that is not full. -/
theorem roomyExtent_of_lt (hhint : (SpaceHeader.nextFree s.header).toNat < s.extents.toNat) :
    roomyExtent s = .ok (SpaceHeader.nextFree s.header).toNat s := by
  rw [roomyExtent, Action.get_bind]
  exact congrFun (if_pos hhint) s

theorem roomyExtent_of_le (hhint : s.extents.toNat ≤ (SpaceHeader.nextFree s.header).toNat) :
    roomyExtent s = grow s := by
  rw [roomyExtent, Action.get_bind]
  exact congrFun (if_neg (Nat.not_lt_of_le hhint)) s

theorem allocate_of_fetch (hroomy : roomyExtent s = .ok e s₁)
    (hfetch : onBitmaps (BitmapCache.fetch e) s₁ = .ok f s₂)
    (halloc : Bitmap.allocate s₂.bitmaps.slots[f].bits = some (o, bits))
    (hcount : countAllocated e s₂.header = .ok h) :
    allocate s = .ok (PageId.ofPlace e o) ⟨s₂.bitmaps.edit f bits, h, true⟩ := by
  rw [allocate, Action.bind_of_ok hroomy, Action.bind_of_ok hfetch, Action.get_bind]
  simp only [halloc]
  rw [← bind_assoc, Action.bind_of_ok (edit_eq_ok hcount)]
  rfl

theorem free_of_fetch (hrange : p.isInRange = true) (he : p.extent < s.extents.toNat)
    (hfetch : onBitmaps (BitmapCache.fetch p.extent) s = .ok f s₁)
    (hfree : Bitmap.free s₁.bitmaps.slots[f].bits p.offset = some bits)
    (hcount : countFreed p.extent s₁.header = .ok h) :
    free p s = .ok () ⟨s₁.bitmaps.edit f bits, h, true⟩ := by
  rw [free, Action.bind_of_ok (Action.check_ok (checkRange_eq_ok hrange) s), Action.get_bind]
  simp only [if_neg (Nat.not_le_of_lt he)]
  rw [Action.bind_of_ok hfetch, Action.get_bind]
  simp only [hfree]
  exact edit_eq_ok hcount

/-- The bit of the page is clear already. -/
theorem free_of_fetch_none (hrange : p.isInRange = true) (he : p.extent < s.extents.toNat)
    (hfetch : onBitmaps (BitmapCache.fetch p.extent) s = .ok f s₁)
    (hfree : Bitmap.free s₁.bitmaps.slots[f].bits p.offset = none) :
    free p s = .error (.refused (.alreadyFree p)) s₁ := by
  rw [free, Action.bind_of_ok (Action.check_ok (checkRange_eq_ok hrange) s), Action.get_bind]
  simp only [if_neg (Nat.not_le_of_lt he)]
  rw [Action.bind_of_ok hfetch, Action.get_bind]
  simp only [hfree]
  rfl

/-- There is no extent yet that the page could be in. -/
theorem free_of_extents_le (hrange : p.isInRange = true) (he : s.extents.toNat ≤ p.extent) :
    free p s = .error (.refused (.alreadyFree p)) s := by
  rw [free, Action.bind_of_ok (Action.check_ok (checkRange_eq_ok hrange) s), Action.get_bind]
  simp only [if_pos he]
  rfl

theorem free_of_out_of_range (s : Space m) (hrange : p.isInRange = false) :
    free p s = .error (.refused (.invalidPage p)) s := by
  rw [free, Action.bind_of_error (Action.check_error (checkRange_eq_error hrange) s)]

theorem isFree_of_fetch (hrange : p.isInRange = true) (he : p.extent < s.extents.toNat)
    (hfetch : onBitmaps (BitmapCache.fetch p.extent) s = .ok f s₁) :
    isFree p s = .ok (Bitmap.isFree s₁.bitmaps.slots[f].bits p.offset) s₁ := by
  rw [isFree, Action.bind_of_ok (Action.check_ok (checkRange_eq_ok hrange) s), Action.get_bind]
  simp only [if_neg (Nat.not_le_of_lt he)]
  rw [Action.bind_of_ok hfetch, Action.get_bind]
  rfl

theorem isFree_of_extents_le (hrange : p.isInRange = true) (he : s.extents.toNat ≤ p.extent) :
    isFree p s = .ok true s := by
  rw [isFree, Action.bind_of_ok (Action.check_ok (checkRange_eq_ok hrange) s), Action.get_bind]
  simp only [if_pos he]
  rfl

/-- A page that is free reads as zeros. -/
theorem read_of_isFree (hfree : isFree p s = .ok true s₁) :
    read p pageSize s = .ok (Block.zero pageSize) s₁ := by
  simp only [read, ne_eq, not_true_eq_false, if_false]
  rw [Action.bind_of_ok hfree]
  rfl

/-- What is stored for any other page is read from the file. -/
theorem read_of_not_isFree (hfree : isFree p s = .ok false s₁) :
    read p pageSize s = .ok (s₁.stored p) { s₁ with bitmaps := { s₁.bitmaps with
      device := (s₁.bitmaps.device.load p.physical).2 } } := by
  simp only [read, ne_eq, not_true_eq_false, if_false]
  rw [Action.bind_of_ok hfree]
  rfl

/-- A write to a page that is free is dropped. -/
theorem write_of_isFree (hfree : isFree p s = .ok true s₁) (data : Page) :
    write p data s = .ok () s₁ := by
  simp only [write, ne_eq, not_true_eq_false, if_false]
  rw [Action.bind_of_ok hfree]
  rfl

theorem write_of_not_isFree (hfree : isFree p s = .ok false s₁) (data : Page) :
    write p data s = .ok () { s₁ with bitmaps := { s₁.bitmaps with
      device := s₁.bitmaps.device.store p.physical data } } := by
  simp only [write, ne_eq, not_true_eq_false, if_false]
  rw [Action.bind_of_ok hfree]
  rfl

end Runs

namespace Sound

variable {s : Space m}

/-! ## Growing -/

/-- A space all of whose extents are full, and that has as many as there can be, has every page
allocated. -/
theorem members_eq_range (hs : Sound s) (hext : s.extents.toNat = maxExtents)
    (hfull : ∀ e, e < s.extents.toNat → s.usedOf e = bitmapCapacity) :
    s.members = range maxLogicalPages := by
  ext i
  rw [mem_range]
  refine ⟨hs.lt_of_mem, fun hi => ?_⟩
  have he : i / bitmapCapacity < s.extents.toNat := by
    rw [hext]
    exact Nat.div_lt_of_lt_mul (by rwa [Nat.mul_comm])
  rw [mem_members, Bitmap.members_eq_range (hfull _ he)]
  exact ⟨he, mem_range.2 (Nat.mod_lt _ (by decide))⟩

/-- **One extent more**, which has no pages yet. -/
theorem grow_eq_ok (hs : Sound s) (hroom : s.extents.toNat < maxExtents)
    (hfull : (SpaceHeader.nextFree s.header).toNat = s.extents.toNat) :
    ∃ s', grow s = .ok s.extents.toNat s' ∧ Sound s' ∧ s'.members = s.members ∧
      (∀ p, p.isInRange = true → s'.stored p = s.stored p) ∧
      (SpaceHeader.nextFree s'.header).toNat = s.extents.toNat ∧
      s'.extents.toNat = s.extents.toNat + 1 := by
  obtain ⟨c, hc, hcs, hempty, hother, hread⟩ := BitmapCache.install_eq_ok hs.cache hroom
  obtain ⟨h', hh', hsound, hext, hnext⟩ := hs.header.grow hfull hroom
  have hlt : ∀ e, e < s.extents.toNat → e < maxExtents := fun e he =>
    Nat.lt_of_lt_of_le he hs.extents_le
  have hbit : ∀ e, e < s.extents.toNat → c.bitmap e = s.bitmaps.bitmap e := fun e he =>
    hother e (hlt e he) (Nat.ne_of_lt he)
  let s' : Space m := ⟨c, h', true⟩
  have hextN : s'.extents.toNat = s.extents.toNat + 1 := hext
  -- the new extent has an empty bitmap and the count zero; the others are as they were
  have hs' : Sound s' := by
    refine ⟨?_, hsound.congr fun e he => ?_, fun e he => ?_, nofun⟩
    · rw [hextN]
      exact hcs
    · have he' : e < s.extents.toNat + 1 := Nat.lt_of_lt_of_eq he hext
      rcases Nat.lt_or_eq_of_le (Nat.le_of_lt_succ he') with hlt | rfl
      · have hne : e ≠ (SpaceHeader.extents s.header).toNat := Nat.ne_of_lt hlt
        rw [Function.update_of_ne hne, usedOf, usedOf, hbit e hlt]
      · have hself : Function.update s.usedOf (SpaceHeader.extents s.header).toNat 0
            s.extents.toNat = 0 := Function.update_self ..
        rw [hself, usedOf, hempty, Bitmap.sound_empty.2, card_empty]
    · rw [hextN] at he
      rcases Nat.lt_or_eq_of_le (Nat.le_of_lt_succ he) with hlt | rfl
      · exact hbit e hlt ▸ hs.bitmap e hlt
      · exact hempty ▸ Bitmap.sound_empty.1
  refine ⟨s', grow_of_install hroom hc hh', hs', ?_,
    fun p hp => hread _ (PageId.physical_not_isBitmapPage hp), ?_, hextN⟩
  · ext i
    rw [mem_members, mem_members, hextN]
    constructor
    · rintro ⟨he, ho⟩
      rcases Nat.lt_or_eq_of_le (Nat.le_of_lt_succ he) with hlt | heq
      · exact ⟨hlt, hbit _ hlt ▸ ho⟩
      · rw [heq] at ho
        have : i % bitmapCapacity ∈ Bitmap.members (c.bitmap s.extents.toNat) := ho
        rw [hempty, Bitmap.sound_empty.2] at this
        exact absurd this (notMem_empty _)
    · rintro ⟨he, ho⟩
      exact ⟨Nat.lt_succ_of_lt he, (hbit _ he).symm ▸ ho⟩
  · have : SpaceHeader.nextFree s'.header = SpaceHeader.nextFree s.header := hnext
    rw [this, hfull]

/-- **Where to allocate.** Either there is an extent that is not full, or room for another one, or
every page is allocated. -/
theorem roomyExtent_cases (hs : Sound s) :
    (roomyExtent s = .error (.refused .diskFull) s ∧ s.members = range maxLogicalPages) ∨
    ∃ e s', roomyExtent s = .ok e s' ∧ Sound s' ∧ s'.members = s.members ∧
      (∀ p, p.isInRange = true → s'.stored p = s.stored p) ∧
      (SpaceHeader.nextFree s'.header).toNat = e ∧ e < s'.extents.toNat ∧
      s'.extents.toNat = max s.extents.toNat (e + 1) := by
  by_cases hhint : (SpaceHeader.nextFree s.header).toNat < s.extents.toNat
  · right
    exact ⟨_, s, roomyExtent_of_lt hhint, hs, rfl, fun _ _ => rfl, rfl, hhint, by omega⟩
  · have hfull : (SpaceHeader.nextFree s.header).toNat = s.extents.toNat :=
      Nat.le_antisymm hs.header.nextFree_le (Nat.le_of_not_lt hhint)
    rw [roomyExtent_of_le (Nat.le_of_not_lt hhint)]
    by_cases hroom : s.extents.toNat < maxExtents
    · right
      obtain ⟨s', hgrow, hs', hmem, hst, hnext, hext⟩ := hs.grow_eq_ok hroom hfull
      exact ⟨_, s', hgrow, hs', hmem, hst, hnext, by omega, by omega⟩
    · left
      have hext := Nat.le_antisymm hs.extents_le (Nat.le_of_not_lt hroom)
      exact ⟨grow_of_le (Nat.le_of_not_lt hroom),
        hs.members_eq_range hext fun e he => hs.header.full e (hfull ▸ he)⟩

/-! ## One page more or less -/

/-- Replacing the bitmap of an extent, and counting its pages anew, keeps a space sound. -/
theorem recount (hs : Sound s) {f : Fin m} {e : Nat} {bits h : Page}
    (hf : s.bitmaps.slots[f].extent = some e) (hbits : Bitmap.Sound bits)
    (hh : SpaceHeader.Sound h (Function.update s.usedOf e (Bitmap.members bits).card))
    (hext : SpaceHeader.extents h = s.extents) :
    Sound ⟨s.bitmaps.edit f bits, h, true⟩ ∧
      ∀ i, i ∈ members ⟨s.bitmaps.edit f bits, h, true⟩ ↔
        if i / bitmapCapacity = e then i % bitmapCapacity ∈ Bitmap.members bits
        else i ∈ s.members := by
  obtain ⟨hc, hself, hother⟩ := BitmapCache.sound_edit hs.cache hf bits
  have hextN : (SpaceHeader.extents h).toNat = s.extents.toNat := by rw [hext]
  have helt := hs.cache.lt_count f e hf
  refine ⟨⟨?_, hh.congr fun d hd => ?_, fun d hd => ?_, nofun⟩, fun i => ?_⟩
  · exact hextN.symm ▸ hc
  · by_cases hde : d = e
    · rw [hde, Function.update_self, usedOf, hself]
    · rw [Function.update_of_ne hde, usedOf, usedOf, hother d hde]
  · by_cases hde : d = e
    · rw [hde, hself]
      exact hbits
    · rw [hother d hde]
      exact hs.bitmap d (Nat.lt_of_lt_of_eq hd hextN)
  · rw [mem_members, mem_members]
    simp only [extents, hextN]
    by_cases hi : i / bitmapCapacity = e
    · rw [if_pos hi, hi, hself]
      exact and_iff_right helt
    · rw [if_neg hi, hother _ hi]

/-- A number is told by its extent and its offset there. -/
theorem place_iff {i e o : Nat} (ho : o < bitmapCapacity) :
    i / bitmapCapacity = e ∧ i % bitmapCapacity = o ↔ i = e * bitmapCapacity + o := by
  have hi := Nat.div_add_mod i bitmapCapacity
  constructor
  · rintro ⟨rfl, rfl⟩
    rw [Nat.mul_comm]
    exact hi.symm
  · rintro rfl
    rw [Nat.mul_comm, Nat.mul_add_div (by decide), Nat.div_eq_of_lt ho, Nat.add_zero,
      Nat.mul_add_mod, Nat.mod_eq_of_lt ho]
    exact ⟨rfl, rfl⟩

/-- A page more in the bitmap of an extent is a member more. -/
theorem members_insert {s' : Space m} {e o : Nat} {bits : Page} (he : e < s.extents.toNat)
    (ho : o < bitmapCapacity)
    (hbits : Bitmap.members bits = insert o (Bitmap.members (s.bitmaps.bitmap e)))
    (h : ∀ i, i ∈ s'.members ↔
      if i / bitmapCapacity = e then i % bitmapCapacity ∈ Bitmap.members bits else i ∈ s.members) :
    s'.members = insert (e * bitmapCapacity + o) s.members := by
  ext i
  rw [h, mem_insert, ← place_iff ho]
  by_cases hi : i / bitmapCapacity = e
  · rw [if_pos hi, hbits, mem_insert, mem_members, hi]
    simp only [he, true_and]
  · rw [if_neg hi]
    exact ⟨.inr, fun h => h.resolve_left fun hc => hi hc.1⟩

/-- A page less in the bitmap of an extent is a member less. -/
theorem members_erase {s' : Space m} {e o : Nat} {bits : Page} (he : e < s.extents.toNat)
    (ho : o < bitmapCapacity)
    (hbits : Bitmap.members bits = (Bitmap.members (s.bitmaps.bitmap e)).erase o)
    (h : ∀ i, i ∈ s'.members ↔
      if i / bitmapCapacity = e then i % bitmapCapacity ∈ Bitmap.members bits else i ∈ s.members) :
    s'.members = s.members.erase (e * bitmapCapacity + o) := by
  ext i
  rw [h, mem_erase, ne_eq, ← place_iff ho]
  by_cases hi : i / bitmapCapacity = e
  · rw [if_pos hi, hbits, mem_erase, mem_members, hi]
    simp only [he, true_and, ne_eq]
  · rw [if_neg hi]
    exact ⟨fun h => ⟨fun hc => hi hc.1, h⟩, And.right⟩

/-- Every number before the first free one of the extent that the hint names is a member. -/
theorem mem_of_lt_firstFree (hs : Sound s) {e : Nat}
    (hnext : (SpaceHeader.nextFree s.header).toNat = e) (he : e < s.extents.toNat) {i : Nat}
    (hi : i < e * bitmapCapacity + Bitmap.firstFree (s.bitmaps.bitmap e) 0)
    (ho : Bitmap.firstFree (s.bitmaps.bitmap e) 0 < bitmapCapacity) : i ∈ s.members := by
  have hdiv : i / bitmapCapacity ≤ e := by
    refine Nat.le_of_lt_succ ((Nat.div_lt_iff_lt_mul (by decide)).2 ?_)
    rw [Nat.succ_mul]
    omega
  refine mem_members.2 ⟨by omega, ?_⟩
  rcases Nat.lt_or_eq_of_le hdiv with hlt | heq
  · rw [Bitmap.members_eq_range (hs.header.full _ (by rw [hnext]; exact hlt))]
    exact mem_range.2 (Nat.mod_lt _ (by decide))
  · rw [heq]
    refine Bitmap.Sound.mem_of_lt_firstFree _ ?_
    have hi' := Nat.div_add_mod i bitmapCapacity
    rw [heq, Nat.mul_comm] at hi'
    omega

/-- **The first free page of an extent** that is not full, and that the hint names, is allocated. -/
theorem allocateIn_eq_ok (hs : Sound s) {e : Nat}
    (hnext : (SpaceHeader.nextFree s.header).toNat = e)
    {f : Fin m} (hslot : s.bitmaps.slots[f].extent = some e) :
    let o := Bitmap.firstFree (s.bitmaps.bitmap e) 0
    o < bitmapCapacity ∧ o ∉ Bitmap.members (s.bitmaps.bitmap e) ∧
      ∃ bits h, Bitmap.allocate s.bitmaps.slots[f].bits = some (o, bits) ∧
        countAllocated e s.header = .ok h ∧ Sound ⟨s.bitmaps.edit f bits, h, true⟩ ∧
        SpaceHeader.extents h = s.extents ∧
        members ⟨s.bitmaps.edit f bits, h, true⟩ = insert (e * bitmapCapacity + o) s.members := by
  intro o
  have he := hs.cache.lt_count f e hslot
  have hroom : s.usedOf e < bitmapCapacity := by
    have h := hs.header.roomy (lt_of_eq_of_lt hnext he)
    rwa [hnext] at h
  obtain ⟨bits, halloc, hbits, hmem⟩ := (hs.bitmap e he).allocate_eq_some hroom
  have ho : o < bitmapCapacity := Bitmap.Sound.firstFree_lt hroom
  have hnot : o ∉ Bitmap.members (s.bitmaps.bitmap e) :=
    (Bitmap.isFree_iff.1 (Bitmap.isFree_firstFree ho)).2
  obtain ⟨h, hcount, hh, hext⟩ := hs.header.countAllocated hnext he
  have hcard : (Bitmap.members bits).card = s.usedOf e + 1 := by
    rw [hmem, card_insert_of_notMem hnot]
    rfl
  obtain ⟨hs', hmem'⟩ := hs.recount (h := h) hslot hbits (hcard ▸ hh) hext
  refine ⟨ho, hnot, bits, h, ?_, hcount, hs', hext, members_insert he ho hmem hmem'⟩
  rw [← BitmapCache.bitmap_of_kept hs.cache hslot]
  exact halloc

/-- **Allocating.** The least number that is no member is handed out, and becomes one. Only when
all numbers are members is the call refused, and changes nothing. -/
theorem allocate_cases (hs : Sound s) :
    (allocate s = .error (.refused .diskFull) s ∧ s.members = range maxLogicalPages) ∨
    ∃ p s', allocate s = .ok p s' ∧ Sound s' ∧ p.isInRange = true ∧ p.val.toNat ∉ s.members ∧
      (∀ i, i < p.val.toNat → i ∈ s.members) ∧ s'.members = insert p.val.toNat s.members ∧
      (∀ q, q.isInRange = true → s'.stored q = s.stored q) ∧
      s'.extents.toNat = max s.extents.toNat (p.extent + 1) := by
  rcases hs.roomyExtent_cases with ⟨herr, hall⟩ | ⟨e, s₁, hroomy, hs₁, hmem₁, hst₁, hnext, he, hext⟩
  · left
    refine ⟨?_, hall⟩
    rw [allocate, Action.bind_of_error herr]
  · right
    obtain ⟨f, s₂, hfetch, hs₂, ha₂, hslot, hheader⟩ := hs₁.fetch_eq_ok he
    have hnext₂ : (SpaceHeader.nextFree s₂.header).toNat = e := by rw [hheader, hnext]
    have hext₂ : s₂.extents.toNat = s₁.extents.toNat := by rw [ha₂.extents_eq]
    have he₂ : e < s₂.extents.toNat := by omega
    have heM : e < maxExtents := Nat.lt_of_lt_of_le he₂ hs₂.extents_le
    have hmem₂ : s₂.members = s.members := ha₂.members_eq.trans hmem₁
    obtain ⟨ho, hnot, bits, h', halloc, hcount, hs₃, hexth, hmem₃⟩ :=
      hs₂.allocateIn_eq_ok hnext₂ hslot
    have hpN := PageId.toNat_ofPlace heM ho
    have hpe := PageId.extent_ofPlace heM ho
    refine ⟨_, ⟨s₂.bitmaps.edit f bits, h', true⟩, allocate_of_fetch hroomy hfetch halloc hcount,
      hs₃, PageId.isInRange_ofPlace heM ho, ?_, fun i hi => ?_, ?_,
      fun q hq => (ha₂.stored_eq q hq).trans (hst₁ q hq), ?_⟩
    · rw [← hmem₂, mem_members_iff, hpe, PageId.offset_ofPlace heM ho]
      exact fun h => hnot h.2
    · rw [hpN] at hi
      exact hmem₂ ▸ hs₂.mem_of_lt_firstFree hnext₂ he₂ hi ho
    · rw [hmem₃, hmem₂, hpN]
    · have hext₃ : extents ⟨s₂.bitmaps.edit f bits, h', true⟩ = s₂.extents := hexth
      rw [hpe, hext₃]
      omega

/-- When every page is allocated, a call is refused. -/
theorem allocate_of_full (hs : Sound s) (hall : s.members = range maxLogicalPages) :
    allocate s = .error (.refused .diskFull) s := by
  rcases hs.allocate_cases with ⟨hrun, -⟩ | ⟨p, s', -, -, hrange, hnot, -⟩
  · exact hrun
  · rw [hall] at hnot
    exact absurd (mem_range.2 (PageId.isInRange_iff.1 hrange)) hnot

/-- **Freeing a member.** -/
theorem free_eq_ok (hs : Sound s) {p : PageId} (hp : p.val.toNat ∈ s.members) :
    ∃ s', free p s = .ok () s' ∧ Sound s' ∧ s'.members = s.members.erase p.val.toNat ∧
      s'.extents = s.extents ∧ ∀ q, q.isInRange = true → s'.stored q = s.stored q := by
  have hrange := hs.isInRange_of_mem hp
  obtain ⟨he, -⟩ := mem_members_iff.1 hp
  obtain ⟨f, s₁, hfetch, hs₁, ha₁, hslot, hheader⟩ := hs.fetch_eq_ok he
  have he₁ : p.extent < s₁.extents.toNat := by rwa [ha₁.extents_eq]
  have ho : p.offset ∈ Bitmap.members (s₁.bitmaps.bitmap p.extent) :=
    (mem_members_iff.1 (ha₁.members_eq.symm ▸ hp)).2
  obtain ⟨bits, hfree, hbits, hmem⟩ := (hs₁.bitmap _ he₁).free_eq_some ho
  have hpos : 0 < s₁.usedOf p.extent := card_pos.2 ⟨_, ho⟩
  obtain ⟨h', hcount, hh', hexth⟩ := hs₁.header.countFreed he₁ hpos
  have hcard : (Bitmap.members bits).card = s₁.usedOf p.extent - 1 := by
    rw [hmem, card_erase_of_mem ho]
    rfl
  obtain ⟨hs₂, hmem₂⟩ := hs₁.recount (h := h') hslot hbits (hcard ▸ hh') hexth
  rw [BitmapCache.bitmap_of_kept hs₁.cache hslot] at hfree
  refine ⟨⟨s₁.bitmaps.edit f bits, h', true⟩, free_of_fetch hrange he hfetch hfree hcount, hs₂, ?_,
    hexth.trans ha₁.extents_eq, ha₁.stored_eq⟩
  rw [members_erase he₁ p.offset_lt hmem hmem₂, ha₁.members_eq, ← PageId.toNat_eq]

/-- **Freeing anything else** is refused: the page is free already, or is no page. -/
theorem free_eq_error (hs : Sound s) {p : PageId} (hp : p.val.toNat ∉ s.members) :
    ∃ s', free p s = .error (.refused (if p.isInRange then .alreadyFree p else .invalidPage p)) s' ∧
      Sound s' ∧ Agrees s s' := by
  by_cases hrange : p.isInRange
  · rw [if_pos hrange]
    by_cases he : p.extent < s.extents.toNat
    · obtain ⟨f, s₁, hfetch, hs₁, ha₁, hslot, hheader⟩ := hs.fetch_eq_ok he
      have he₁ : p.extent < s₁.extents.toNat := by rwa [ha₁.extents_eq]
      have ho : p.offset ∉ Bitmap.members (s₁.bitmaps.bitmap p.extent) := fun ho =>
        hp (ha₁.members_eq ▸ mem_members_iff.2 ⟨he₁, ho⟩)
      rw [BitmapCache.bitmap_of_kept hs₁.cache hslot] at ho
      exact ⟨s₁, free_of_fetch_none hrange he hfetch (Bitmap.free_eq_none ho), hs₁, ha₁⟩
    · exact ⟨s, free_of_extents_le hrange (Nat.le_of_not_lt he), hs, Agrees.refl s⟩
  · rw [if_neg hrange]
    exact ⟨s, free_of_out_of_range s (by simpa using hrange), hs, Agrees.refl s⟩

/-- **What is free** is what is no member. -/
theorem isFree_eq_ok (hs : Sound s) {p : PageId} (hp : p.isInRange = true) :
    ∃ s', isFree p s = .ok (decide (p.val.toNat ∉ s.members)) s' ∧ Sound s' ∧ Agrees s s' := by
  by_cases he : p.extent < s.extents.toNat
  · obtain ⟨f, s₁, hfetch, hs₁, ha₁, hslot, hheader⟩ := hs.fetch_eq_ok he
    have he₁ : p.extent < s₁.extents.toNat := by rwa [ha₁.extents_eq]
    have hkept : s₁.bitmaps.slots[f].bits = s₁.bitmaps.bitmap p.extent :=
      (BitmapCache.bitmap_of_kept hs₁.cache hslot).symm
    have hbit : decide (p.val.toNat ∉ s.members) =
        Bitmap.isFree (s₁.bitmaps.bitmap p.extent) p.offset := by
      rw [← ha₁.members_eq]
      simp [mem_members_iff, he₁, Bitmap.mem_members, PageId.offset_lt]
    rw [hbit, ← hkept]
    exact ⟨s₁, isFree_of_fetch hp he hfetch, hs₁, ha₁⟩
  · have hmem : p.val.toNat ∉ s.members := fun h => he (mem_members_iff.1 h).1
    rw [decide_eq_true hmem]
    exact ⟨s, isFree_of_extents_le hp (Nat.le_of_not_lt he), hs, Agrees.refl s⟩

/-- An id that is out of range is refused. -/
theorem isFree_eq_error (s : Space m) {p : PageId} (hp : p.isInRange = false) :
    isFree p s = .error (.refused (.invalidPage p)) s := by
  rw [isFree, Action.bind_of_error (Action.check_error (checkRange_eq_error hp) s)]

/-! ## Contents -/

/-- **Reading.** A member's bytes are those stored for it, and any other page reads as zeros. -/
theorem read_eq_ok (hs : Sound s) {p : PageId} (hp : p.isInRange = true) :
    ∃ s', read p pageSize s =
        .ok (if p.val.toNat ∈ s.members then s.stored p else Block.zero pageSize) s' ∧
      Sound s' ∧ Agrees s s' := by
  obtain ⟨s₁, hfree, hs₁, ha₁⟩ := hs.isFree_eq_ok hp
  by_cases hmem : p.val.toNat ∈ s.members
  · let c : BitmapCache m := { s₁.bitmaps with
      device := (s₁.bitmaps.device.load p.physical).2 }
    obtain ⟨hs₂, ha₂⟩ := hs₁.cache_agrees (c := c) (hs₁.cache.device rfl)
      ⟨fun _ _ => rfl, fun _ _ => rfl⟩
    rw [decide_eq_false (not_not_intro hmem)] at hfree
    rw [if_pos hmem, ← ha₁.stored_eq p hp]
    exact ⟨{ s₁ with bitmaps := c }, read_of_not_isFree hfree, hs₂, ha₁.trans ha₂⟩
  · rw [decide_eq_true hmem] at hfree
    rw [if_neg hmem]
    exact ⟨s₁, read_of_isFree hfree, hs₁, ha₁⟩

/-- **Writing.** A member's bytes are replaced, and no others. A write to a page that is no member
is dropped. -/
theorem write_eq_ok (hs : Sound s) {p : PageId} (hp : p.isInRange = true) (data : Page) :
    ∃ s', write p data s = .ok () s' ∧ Sound s' ∧ s'.members = s.members ∧
      s'.extents = s.extents ∧
      ∀ q, q.isInRange = true →
        s'.stored q = if q = p ∧ p.val.toNat ∈ s.members then data else s.stored q := by
  obtain ⟨s₁, hfree, hs₁, ha₁⟩ := hs.isFree_eq_ok hp
  by_cases hmem : p.val.toNat ∈ s.members
  · obtain ⟨hcs, hbit⟩ :=
      BitmapCache.sound_store hs₁.cache (PageId.physical_not_isBitmapPage hp) data
    have hread : ∀ q, q ≠ p.physical → (s₁.bitmaps.device.store p.physical data).image.read q =
        s₁.bitmaps.device.image.read q := fun q hq => Image.read_write_of_ne _ _ (Ne.symm hq)
    obtain ⟨hs', hmembers⟩ := hs₁.replace_cache s₁.headerDirty hcs
      (fun e he => hbit e (Nat.lt_of_lt_of_le he hs₁.extents_le))
      fun hd => (hread 0 (PageId.physical_ne_zero hp).symm).trans (hs₁.clean hd)
    rw [decide_eq_false (not_not_intro hmem)] at hfree
    refine ⟨_, write_of_not_isFree hfree data, hs', hmembers.trans ha₁.members_eq, ha₁.extents_eq,
      fun q hq => ?_⟩
    by_cases hqp : q = p
    · rw [if_pos ⟨hqp, hmem⟩, hqp]
      exact Image.read_write_self ..
    · rw [if_neg fun h => hqp h.1, ← ha₁.stored_eq q hq]
      exact hread _ fun h => hqp (PageId.physical_inj hq hp h)
  · rw [decide_eq_true hmem] at hfree
    refine ⟨s₁, write_of_isFree hfree data, hs₁, ha₁.members_eq, ha₁.extents_eq, fun q hq => ?_⟩
    rw [if_neg fun h => hmem h.2]
    exact ha₁.stored_eq q hq

/-- A buffer of another length than a page is refused before anything is looked at. -/
theorem read_of_room_ne (s : Space m) (p : PageId) {room : Nat} (hroom : room ≠ pageSize) :
    read p room s = .error (.refused (.bufferSize room)) s := by
  simp only [read, ne_eq, hroom, not_false_eq_true, if_true]
  rfl

theorem read_of_out_of_range (s : Space m) {p : PageId} (hp : p.isInRange = false) :
    read p pageSize s = .error (.refused (.invalidPage p)) s := by
  simp only [read, ne_eq, not_true_eq_false, if_false]
  rw [Action.bind_of_error (isFree_eq_error s hp)]

/-- Bytes that are not as many as a page has are refused before anything is looked at. -/
theorem write_of_length_ne (s : Space m) (p : PageId) {n : Nat} (hn : n ≠ pageSize)
    (data : Block n) : write p data s = .error (.refused (.bufferSize n)) s := by
  simp only [write, ne_eq, hn, not_false_eq_true, if_true]
  rfl

theorem write_of_out_of_range (s : Space m) {p : PageId} (hp : p.isInRange = false) (data : Page) :
    write p data s = .error (.refused (.invalidPage p)) s := by
  simp only [write, ne_eq, not_true_eq_false, if_false]
  rw [Action.bind_of_error (isFree_eq_error s hp)]

end Sound

end PageStore.Space
