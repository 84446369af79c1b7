import PageStore.Proofs.Space.Allocation
import PageStore.Proofs.Space.Reach

/-!
# What a space comes to

Slots decide when a bitmap is written and when it is read again. What does not depend on them is the
header, the newest bitmap of each extent, every other page, and the length that the file will have:
two spaces that have these in common `Match`, whatever slots they have. `Becomes` says what they are
after a step, from what they were before it.

A space is `Settled` when it is sound and its file will be complete once it is closed. For such a
space each operation answers by the header, the bitmaps and the contents alone, and says what
becomes of them.
-/

namespace PageStore

open Finset

/-! ## Spaces that match -/

namespace Space

variable {m m' m'' : Nat} {s s₁ s₂ : Space m} {s' s₁' : Space m'} {h : Page} {b : Nat → Page}
  {e : Nat}

/-- A sound space whose header is in the file and whose bitmaps will be. -/
structure Settled (s : Space m) : Prop where
  sound : s.Sound
  covers : s.bitmaps.Covers s.extents.toNat
  /-- the file has a page for the header -/
  opened : pageSize ≤ s.bitmaps.device.image.size
  /-- an extent that is not there yet has an empty bitmap -/
  unborn : ∀ e, s.extents.toNat ≤ e → e < maxExtents → s.bitmaps.bitmap e = Bitmap.empty

/-- **The two spaces match**: closing them would leave the same file. -/
structure Matches (s : Space m) (s' : Space m') : Prop where
  header_eq : s'.header = s.header
  bitmap_eq : ∀ e, e < maxExtents → s'.bitmaps.bitmap e = s.bitmaps.bitmap e
  read_eq : ∀ q, q ≠ 0 → ¬IsBitmapPage q →
    s'.bitmaps.device.image.read q = s.bitmaps.device.image.read q
  reach_eq : s'.bitmaps.reach s.extents.toNat = s.bitmaps.reach s.extents.toNat

namespace Matches

theorem refl (s : Space m) : s.Matches s := ⟨rfl, fun _ _ => rfl, fun _ _ _ => rfl, rfl⟩

theorem extents_eq (hm : s.Matches s') : s'.extents = s.extents :=
    congrArg SpaceHeader.extents hm.header_eq

theorem symm (hm : s.Matches s') : s'.Matches s where
  header_eq := hm.header_eq.symm
  bitmap_eq e he := (hm.bitmap_eq e he).symm
  read_eq q hq hbit := (hm.read_eq q hq hbit).symm
  reach_eq := hm.extents_eq ▸ hm.reach_eq.symm

theorem trans {s'' : Space m''} (hm : s.Matches s') (hm' : s'.Matches s'') : s.Matches s'' where
  header_eq := hm'.header_eq.trans hm.header_eq
  bitmap_eq e he := (hm'.bitmap_eq e he).trans (hm.bitmap_eq e he)
  read_eq q hq hbit := (hm'.read_eq q hq hbit).trans (hm.read_eq q hq hbit)
  reach_eq := (hm.extents_eq ▸ hm'.reach_eq).trans hm.reach_eq

/-- The same pages are allocated. -/
theorem members_eq (hm : s.Matches s') (hs : s.Sound) : s'.members = s.members := by
  ext i
  rw [mem_members, mem_members, hm.extents_eq]
  refine and_congr_right fun hlt => ?_
  rw [hm.bitmap_eq _ (Nat.lt_of_lt_of_le hlt hs.extents_le)]

/-- The same bytes are stored. -/
theorem stored_eq (hm : s.Matches s') {p : PageId} (hp : p.isInRange = true) :
    s'.stored p = s.stored p :=
  hm.read_eq _ (PageId.physical_ne_zero hp) (PageId.physical_not_isBitmapPage hp)

end Matches

/-- The space becomes another one with header `h` and bitmaps `b`, and the same pages of data. -/
structure Becomes (s s₁ : Space m) (h : Page) (b : Nat → Page) : Prop where
  header_eq : s₁.header = h
  bitmap_eq : ∀ e, e < maxExtents → s₁.bitmaps.bitmap e = b e
  read_eq : ∀ q, q ≠ 0 → ¬IsBitmapPage q →
    s₁.bitmaps.device.image.read q = s.bitmaps.device.image.read q
  extents_le : s.extents.toNat ≤ s₁.extents.toNat
  reach_eq : s₁.bitmaps.reach s₁.extents.toNat = s.bitmaps.reach s₁.extents.toNat

namespace Becomes

variable {h₁ h₂ : Page} {b₁ b₂ : Nat → Page}

theorem trans (hb : s.Becomes s₁ h₁ b₁) (hb' : s₁.Becomes s₂ h₂ b₂) : s.Becomes s₂ h₂ b₂ where
  header_eq := hb'.header_eq
  bitmap_eq := hb'.bitmap_eq
  read_eq q hq hbit := (hb'.read_eq q hq hbit).trans (hb.read_eq q hq hbit)
  extents_le := hb.extents_le.trans hb'.extents_le
  reach_eq := hb'.reach_eq.trans (BitmapCache.reach_congr hb.reach_eq hb'.extents_le)

/-- Bitmaps that are the same but for one, which is replaced. -/
theorem of_update {bits : Page} (hb : s.Becomes s₁ h (Function.update b₁ e bits))
    (hsame : ∀ d, d < maxExtents → b₁ d = b d) : s.Becomes s₁ h (Function.update b e bits) where
  header_eq := hb.header_eq
  bitmap_eq d hd := by
    rw [hb.bitmap_eq d hd]
    by_cases hde : d = e
    · rw [hde, Function.update_self, Function.update_self]
    · rw [Function.update_of_ne hde, Function.update_of_ne hde, hsame d hd]
  read_eq := hb.read_eq
  extents_le := hb.extents_le
  reach_eq := hb.reach_eq

/-- A space that becomes nothing else matches itself. -/
theorem matches_self (hb : s.Becomes s₁ s.header s.bitmaps.bitmap) : s.Matches s₁ where
  header_eq := hb.header_eq
  bitmap_eq := hb.bitmap_eq
  read_eq := hb.read_eq
  reach_eq := by
    have hext : s₁.extents = s.extents := congrArg SpaceHeader.extents hb.header_eq
    rw [← hext]
    exact hb.reach_eq

/-- **Spaces that match** and become the same still match. -/
theorem matches_of_matches (hb : s.Becomes s₁ h b) (hm : s.Matches s') (hb' : s'.Becomes s₁' h b) :
    s₁.Matches s₁' where
  header_eq := hb'.header_eq.trans hb.header_eq.symm
  bitmap_eq e he := (hb'.bitmap_eq e he).trans (hb.bitmap_eq e he).symm
  read_eq q hq hbit := by
    rw [hb'.read_eq q hq hbit, hm.read_eq q hq hbit, hb.read_eq q hq hbit]
  reach_eq := by
    have hext : s₁'.extents = s₁.extents :=
      congrArg SpaceHeader.extents (hb'.header_eq.trans hb.header_eq.symm)
    rw [hb.reach_eq, ← BitmapCache.reach_congr hm.reach_eq hb.extents_le, ← hext]
    exact hb'.reach_eq

end Becomes

/-! ## One space -/

/-- The space after physical page `q` was written. -/
def put (s : Space m) (q : UInt32) (data : Page) : Space m :=
  { s with bitmaps := { s.bitmaps with device := s.bitmaps.device.store q data } }

/-- The header when there is room for a page: as it is, or with one extent more. -/
def roomyHeader (h : Page) : Except Halt Page :=
  if (SpaceHeader.nextFree h).toNat < (SpaceHeader.extents h).toNat then .ok h
  else SpaceHeader.setUsed
    (SpaceHeader.setExtents h (UInt32.ofNat ((SpaceHeader.extents h).toNat + 1)))
    (SpaceHeader.extents h).toNat 0

namespace Settled

/-- The cache may write bitmaps by itself. -/
theorem of_cache (hs : s.Settled) {c : BitmapCache m} (hc : c.Sound s.extents.toNat)
    (ha : BitmapCache.Agrees s.bitmaps c) (hw : s.bitmaps.Writes c s.extents.toNat) :
    Settled { s with bitmaps := c } ∧
      s.Becomes { s with bitmaps := c } s.header s.bitmaps.bitmap :=
  ⟨⟨(hs.sound.cache_agrees hc ha).1, hw.covers, hs.opened.trans hw.size_le, fun e hle he =>
    (ha.bitmap_eq e he).trans (hs.unborn e hle he)⟩,
    rfl, ha.bitmap_eq, fun q _ hbit => ha.read_eq q hbit, Nat.le_refl _, hw.reach_eq⟩

/-- **Fetching** a bitmap. -/
theorem fetch_eq_ok (hs : s.Settled) (he : e < s.extents.toNat) :
    ∃ f s₁, onBitmaps (BitmapCache.fetch e) s = .ok f s₁ ∧ s₁.Settled ∧
      s.Becomes s₁ s.header s.bitmaps.bitmap ∧ s₁.bitmaps.slots[f].extent = some e := by
  obtain ⟨f, c, hf, hc, ha, hext⟩ := BitmapCache.fetch_eq_ok hs.sound.cache he
  obtain ⟨hs₁, hb⟩ := hs.of_cache hc ha (BitmapCache.writes_fetch hs.sound.cache hs.covers hf)
  exact ⟨f, { s with bitmaps := c }, Action.focus_ok hf, hs₁, hb, hext⟩

/-- **Editing** a bitmap and the header. -/
theorem edit (hs : s.Settled) {f : Fin m} (hf : s.bitmaps.slots[f].extent = some e) {bits : Page}
    (hs₁ : Sound ⟨s.bitmaps.edit f bits, h, true⟩) (hext : SpaceHeader.extents h = s.extents) :
    Settled ⟨s.bitmaps.edit f bits, h, true⟩ ∧
      s.Becomes ⟨s.bitmaps.edit f bits, h, true⟩ h (Function.update s.bitmaps.bitmap e bits) := by
  obtain ⟨-, hself, hother⟩ := BitmapCache.sound_edit hs.sound.cache hf bits
  have hw := BitmapCache.writes_edit hs.covers f bits
  have hlt := hs.sound.cache.lt_count f e hf
  have hextN : extents (⟨s.bitmaps.edit f bits, h, true⟩ : Space m) = s.extents := hext
  refine ⟨⟨hs₁, ?_, hs.opened, fun d hle hd => ?_⟩, rfl, fun d _ => ?_, fun _ _ _ => rfl, ?_, ?_⟩
  · rw [hextN]
    exact hw.covers
  · rw [hextN] at hle
    exact (hother d (Nat.ne_of_gt (Nat.lt_of_lt_of_le hlt hle))).trans (hs.unborn d hle hd)
  · by_cases hd : d = e
    · rw [hd, Function.update_self, hself]
    · rw [Function.update_of_ne hd, hother d hd]
  · rw [hextN]
  · rw [hextN]
    exact hw.reach_eq

/-- **Growing** by an extent, whose bitmap was empty before. -/
theorem grow_eq_ok (hs : s.Settled) (hroom : s.extents.toNat < maxExtents)
    (hfull : (SpaceHeader.nextFree s.header).toNat = s.extents.toNat) :
    ∃ h s₁, SpaceHeader.setUsed
      (SpaceHeader.setExtents s.header (UInt32.ofNat (s.extents.toNat + 1)))
        s.extents.toNat 0 = .ok h ∧ grow s = .ok s.extents.toNat s₁ ∧ s₁.Settled ∧
      s.Becomes s₁ h s.bitmaps.bitmap ∧ (SpaceHeader.nextFree h).toNat = s.extents.toNat ∧
      s₁.extents.toNat = s.extents.toNat + 1 := by
  obtain ⟨c, hc, -, hempty, hother, hread⟩ := BitmapCache.install_eq_ok hs.sound.cache hroom
  obtain ⟨hcovers, hreach, hsize⟩ := BitmapCache.covers_install hs.sound.cache hs.covers hc
  obtain ⟨h, hh, -⟩ := hs.sound.header.grow hfull hroom
  obtain ⟨s₁, hgrow, hs₁, -, -, hnext, hext⟩ := hs.sound.grow_eq_ok hroom hfull
  have hrun : grow s = .ok s.extents.toNat ⟨c, h, true⟩ := grow_of_install hroom hc hh
  obtain rfl : s₁ = ⟨c, h, true⟩ := by
    rw [hrun] at hgrow
    cases hgrow
    rfl
  have hbit : ∀ e, e < maxExtents → c.bitmap e = s.bitmaps.bitmap e := fun e he => by
    by_cases hne : e = s.extents.toNat
    · rw [hne, hempty, hs.unborn _ (Nat.le_refl _) hroom]
    · exact hother e he hne
  refine ⟨h, _, hh, hrun, ⟨hs₁, ?_, hs.opened.trans hsize, fun e hle he => ?_⟩,
    ⟨rfl, hbit, fun q _ hq => hread q hq, ?_, ?_⟩, hnext, hext⟩
  · rw [hext]
    exact hcovers
  · rw [hext] at hle
    exact (hbit e he).trans (hs.unborn e (Nat.le_of_succ_le hle) he)
  · rw [hext]
    exact Nat.le_succ _
  · rw [hext]
    exact hreach

/-- **Where to allocate**, and what the header says then. -/
theorem roomyExtent_cases (hs : s.Settled) :
    (roomyExtent s = .error (.refused .diskFull) s ∧ s.members = range maxLogicalPages) ∨
    ∃ h s₁, roomyHeader s.header = .ok h ∧
      roomyExtent s = .ok (SpaceHeader.nextFree s.header).toNat s₁ ∧ s₁.Settled ∧
      s.Becomes s₁ h s.bitmaps.bitmap ∧
      SpaceHeader.nextFree h = SpaceHeader.nextFree s.header ∧
      (SpaceHeader.nextFree s.header).toNat < s₁.extents.toNat := by
  by_cases hhint : (SpaceHeader.nextFree s.header).toNat < s.extents.toNat
  · right
    exact ⟨s.header, s, if_pos hhint, roomyExtent_of_lt hhint, hs,
      ⟨rfl, fun _ _ => rfl, fun _ _ _ => rfl, Nat.le_refl _, rfl⟩, rfl, hhint⟩
  · have hfull : (SpaceHeader.nextFree s.header).toNat = s.extents.toNat :=
      Nat.le_antisymm hs.sound.header.nextFree_le (Nat.le_of_not_lt hhint)
    have hrun : roomyExtent s = grow s := roomyExtent_of_le (Nat.le_of_not_lt hhint)
    by_cases hroom : s.extents.toNat < maxExtents
    · right
      obtain ⟨h, s₁, hh, hgrow, hs₁, hb, hnext, hext⟩ := hs.grow_eq_ok hroom hfull
      refine ⟨h, s₁, (if_neg hhint).trans hh, ?_, hs₁, hb, ?_, by omega⟩
      · rw [hrun, hfull, hgrow]
      · exact UInt32.toNat_inj.1 (hnext.trans hfull.symm)
    · left
      have hext := Nat.le_antisymm hs.sound.extents_le (Nat.le_of_not_lt hroom)
      exact ⟨hrun.trans (grow_of_le (Nat.le_of_not_lt hroom)),
        hs.sound.members_eq_range hext fun e he => hs.sound.header.full e (hfull ▸ he)⟩

/-- **Allocating** does what the header and the bitmaps say. -/
theorem allocate_cases (hs : s.Settled) :
    (allocate s = .error (.refused .diskFull) s ∧ s.members = range maxLogicalPages) ∨
    ∃ h₀ h o bits s₁, roomyHeader s.header = .ok h₀ ∧
      countAllocated (SpaceHeader.nextFree s.header).toNat h₀ = .ok h ∧
      Bitmap.allocate (s.bitmaps.bitmap (SpaceHeader.nextFree s.header).toNat) = some (o, bits) ∧
      allocate s = .ok (PageId.ofPlace (SpaceHeader.nextFree s.header).toNat o) s₁ ∧ s₁.Settled ∧
      s.Becomes s₁ h
        (Function.update s.bitmaps.bitmap (SpaceHeader.nextFree s.header).toNat bits) ∧
      o < bitmapCapacity ∧ (SpaceHeader.nextFree s.header).toNat < maxExtents := by
  rcases hs.roomyExtent_cases with ⟨herr, hall⟩ | ⟨h₀, s₁, hh₀, hroomy, hs₁, hb₁, hnext, he⟩
  · exact .inl ⟨by rw [allocate, Action.bind_of_error herr], hall⟩
  · right
    obtain ⟨f, s₂, hfetch, hs₂, hb₂, hslot⟩ := hs₁.fetch_eq_ok he
    have hheader : s₂.header = h₀ := hb₂.header_eq.trans hb₁.header_eq
    have hnext₂ : (SpaceHeader.nextFree s₂.header).toNat =
        (SpaceHeader.nextFree s.header).toNat := by
      rw [hheader, hnext]
    have heM := Nat.lt_of_lt_of_le he hs₁.sound.extents_le
    have hbit₂ : ∀ d, d < maxExtents → s₂.bitmaps.bitmap d = s.bitmaps.bitmap d := fun d hd =>
      (hb₂.bitmap_eq d hd).trans (hb₁.bitmap_eq d hd)
    obtain ⟨ho, -, bits, h, halloc, hcount, hsound, hext, -⟩ :=
      hs₂.sound.allocateIn_eq_ok hnext₂ hslot
    obtain ⟨hs₃, hb₃⟩ := hs₂.edit hslot hsound hext
    have hkept : s₂.bitmaps.slots[f].bits = s.bitmaps.bitmap
      (SpaceHeader.nextFree s.header).toNat :=
      (BitmapCache.bitmap_of_kept hs₂.sound.cache hslot).symm.trans (hbit₂ _ heM)
    exact ⟨h₀, h, _, bits, _, hh₀, hheader ▸ hcount, hkept ▸ halloc,
      allocate_of_fetch hroomy hfetch halloc hcount, hs₃,
        ((hb₁.trans hb₂).trans hb₃).of_update hbit₂, ho, heM⟩

/-- A bitmap is looked up, or need not be. -/
theorem isFree_eq_ok (hs : s.Settled) {p : PageId} (hp : p.isInRange = true) :
    ∃ s₁, isFree p s = .ok (decide (p.val.toNat ∉ s.members)) s₁ ∧ s₁.Settled ∧ s.Matches s₁ := by
  obtain ⟨s', hrun, -⟩ := hs.sound.isFree_eq_ok hp
  refine ⟨s', hrun, ?_⟩
  by_cases he : p.extent < s.extents.toNat
  · obtain ⟨f, s₁, hfetch, hs₁, hb, -⟩ := hs.fetch_eq_ok he
    have hsame := (isFree_of_fetch hp he hfetch).symm.trans hrun
    obtain ⟨-, rfl⟩ := EStateM.Result.ok.inj hsame
    exact ⟨hs₁, hb.matches_self⟩
  · have hsame := (isFree_of_extents_le hp (Nat.le_of_not_lt he)).symm.trans hrun
    obtain ⟨-, rfl⟩ := EStateM.Result.ok.inj hsame
    exact ⟨hs, Matches.refl s⟩

/-- **Reading** gives what is stored for an allocated page. -/
theorem read_eq_ok (hs : s.Settled) {p : PageId} (hp : p.isInRange = true) :
    ∃ s₁, read p pageSize s =
        .ok (if p.val.toNat ∈ s.members then s.stored p else Block.zero pageSize) s₁ ∧
      s₁.Settled ∧ s.Matches s₁ := by
  obtain ⟨s₁, hfree, hs₁, hm⟩ := hs.isFree_eq_ok hp
  by_cases hmem : p.val.toNat ∈ s.members
  · let c : BitmapCache m := { s₁.bitmaps with
      device := (s₁.bitmaps.device.load p.physical).2 }
    obtain ⟨hs₂, hb⟩ := hs₁.of_cache (c := c) (hs₁.sound.cache.device rfl)
      ⟨fun _ _ => rfl, fun _ _ => rfl⟩ ⟨hs₁.covers, rfl, Nat.le_refl _⟩
    rw [decide_eq_false (not_not_intro hmem)] at hfree
    rw [if_pos hmem, ← hm.stored_eq hp]
    exact ⟨{ s₁ with bitmaps := c }, read_of_not_isFree hfree, hs₂, hm.trans hb.matches_self⟩
  · rw [decide_eq_true hmem] at hfree
    rw [if_neg hmem]
    exact ⟨s₁, read_of_isFree hfree, hs₁, hm⟩

/-- A page that holds no bitmap is written. -/
theorem store (hs : s.Settled) {q : UInt32} (hq : ¬IsBitmapPage q) {data : Page} {dirty : Bool}
    (hs₁ : Sound ⟨{ s.bitmaps with device := s.bitmaps.device.store q data }, s.header, dirty⟩) :
    Settled ⟨{ s.bitmaps with device := s.bitmaps.device.store q data }, s.header, dirty⟩ := by
  obtain ⟨-, hbit⟩ := BitmapCache.sound_store hs.sound.cache hq data
  exact ⟨hs₁, BitmapCache.covers_store hs.covers q data, hs.opened.trans (Nat.le_max_left ..),
    fun e hle he => (hbit e he).trans (hs.unborn e hle he)⟩

/-- **Writing** goes to the page of what is allocated. -/
theorem write_eq_ok (hs : s.Settled) {p : PageId} (hp : p.val.toNat ∈ s.members) (data : Page) :
    ∃ s₁ : Space m, write p data s = .ok () (s₁.put p.physical data) ∧ s₁.Settled ∧ s.Matches s₁ ∧
      (s₁.put p.physical data).Settled := by
  have hrange := hs.sound.isInRange_of_mem hp
  obtain ⟨s₁, hfree, hs₁, hm⟩ := hs.isFree_eq_ok hrange
  obtain ⟨s', hrun, hsound, -⟩ := hs.sound.write_eq_ok hrange data
  rw [decide_eq_false (not_not_intro hp)] at hfree
  have hrun₁ : write p data s = .ok () (s₁.put p.physical data) := write_of_not_isFree hfree data
  rw [hrun₁] at hrun
  cases hrun
  exact ⟨s₁, hrun₁, hs₁, hm, hs₁.store (PageId.physical_not_isBitmapPage hrange) hsound⟩

/-- **Freeing** what is allocated. -/
theorem free_eq_ok (hs : s.Settled) {p : PageId} (hp : p.val.toNat ∈ s.members) :
    ∃ h bits s₁, countFreed p.extent s.header = .ok h ∧
      Bitmap.free (s.bitmaps.bitmap p.extent) p.offset = some bits ∧
      free p s = .ok () s₁ ∧ s₁.Settled ∧
      s.Becomes s₁ h (Function.update s.bitmaps.bitmap p.extent bits) := by
  have hrange := hs.sound.isInRange_of_mem hp
  obtain ⟨he, ho⟩ := mem_members_iff.1 hp
  have heM := Nat.lt_of_lt_of_le he hs.sound.extents_le
  obtain ⟨f, s₁, hfetch, hs₁, hb, hslot⟩ := hs.fetch_eq_ok he
  have hm : s.Matches s₁ := hb.matches_self
  have he₁ : p.extent < s₁.extents.toNat := hm.extents_eq ▸ he
  rw [← hm.bitmap_eq _ heM] at ho ⊢
  rw [← hm.header_eq]
  obtain ⟨bits, hfree, hbits, hmem⟩ := (hs₁.sound.bitmap _ he₁).free_eq_some ho
  obtain ⟨h, hcount, hh, hext⟩ := hs₁.sound.header.countFreed he₁ (card_pos.2 ⟨_, ho⟩)
  have hcard : (Bitmap.members bits).card = s₁.usedOf p.extent - 1 := by
    rw [hmem, card_erase_of_mem ho]
    rfl
  obtain ⟨hs₂, -⟩ := hs₁.sound.recount (h := h) hslot hbits (hcard ▸ hh) hext
  obtain ⟨hset, hb₂⟩ := hs₁.edit hslot hs₂ hext
  have hkept : s₁.bitmaps.slots[f].bits = s₁.bitmaps.bitmap p.extent :=
    (BitmapCache.bitmap_of_kept hs₁.sound.cache hslot).symm
  exact ⟨h, bits, ⟨s₁.bitmaps.edit f bits, h, true⟩, hcount, hfree,
    free_of_fetch hrange he hfetch (hkept ▸ hfree) hcount, hset,
      (hb.trans hb₂).of_update hm.bitmap_eq⟩

/-- **Freeing** anything else is refused. -/
theorem free_eq_error (hs : s.Settled) {p : PageId} (hp : p.val.toNat ∉ s.members) :
    ∃ s₁, free p s =
        .error (.refused (if p.isInRange then .alreadyFree p else .invalidPage p)) s₁ ∧
      s₁.Settled ∧ s.Matches s₁ := by
  obtain ⟨s', hrun, -⟩ := hs.sound.free_eq_error hp
  refine ⟨s', hrun, ?_⟩
  by_cases hrange : p.isInRange
  · by_cases he : p.extent < s.extents.toNat
    · obtain ⟨f, s₁, hfetch, hs₁, hb, hslot⟩ := hs.fetch_eq_ok he
      have hm : s.Matches s₁ := hb.matches_self
      have ho : p.offset ∉ Bitmap.members s₁.bitmaps.slots[f].bits := by
        rw [← BitmapCache.bitmap_of_kept hs₁.sound.cache hslot,
          hm.bitmap_eq _ (Nat.lt_of_lt_of_le he hs.sound.extents_le)]
        exact fun ho => hp (mem_members_iff.2 ⟨he, ho⟩)
      have hsame := (free_of_fetch_none hrange he hfetch (Bitmap.free_eq_none ho)).symm.trans hrun
      obtain ⟨-, rfl⟩ := EStateM.Result.error.inj hsame
      exact ⟨hs₁, hm⟩
    · have hsame := (free_of_extents_le hrange (Nat.le_of_not_lt he)).symm.trans hrun
      obtain ⟨-, rfl⟩ := EStateM.Result.error.inj hsame
      exact ⟨hs, Matches.refl s⟩
  · have hsame := (free_of_out_of_range s (by simpa using hrange)).symm.trans hrun
    obtain ⟨-, rfl⟩ := EStateM.Result.error.inj hsame
    exact ⟨hs, Matches.refl s⟩

end Settled

/-- A page of data that is written changes no bitmap. -/
theorem Settled.bitmap_put (hs : s.Settled) {q : UInt32} (hq : ¬IsBitmapPage q) (data : Page)
    (he : e < maxExtents) : (s.put q data).bitmaps.bitmap e = s.bitmaps.bitmap e :=
  (BitmapCache.sound_store hs.sound.cache hq data).2 e he

/-- Spaces that match, to whose files the same is written, match. -/
theorem Matches.put (hm : s.Matches s') (hs : s.Settled) (hs' : s'.Settled) {q : UInt32}
    (hq : ¬IsBitmapPage q) (data : Page) : (s.put q data).Matches (s'.put q data) := by
  refine ⟨hm.header_eq, fun e he => ?_, fun r hr hbmp => ?_, ?_⟩
  · rw [hs.bitmap_put hq data he, hs'.bitmap_put hq data he, hm.bitmap_eq e he]
  · by_cases hqr : q = r
    · subst hqr
      exact (Image.read_write_self ..).trans (Image.read_write_self ..).symm
    · exact (Image.read_write_of_ne _ _ hqr).trans
        ((hm.read_eq r hr hbmp).trans (Image.read_write_of_ne _ _ hqr).symm)
  · refine (BitmapCache.reach_store ..).trans (Eq.trans ?_ (BitmapCache.reach_store ..).symm)
    exact congrArg (max · (pageEnd q)) hm.reach_eq

namespace Settled

/-! ## Closing and opening -/

/-- The file has a page for the header already. -/
theorem pageEnd_zero_le (hs : s.Settled) : pageEnd 0 ≤ s.bitmaps.device.image.size :=
  (Nat.one_mul pageSize).le.trans hs.opened

/-- **A flush** makes the file as long as it has to be. -/
theorem flush (hs : s.Settled) : s.flush.Settled ∧ s.Matches s.flush ∧
    s.flush.bitmaps.device.image.size = s.bitmaps.reach s.extents.toNat := by
  obtain ⟨hc, ha, -⟩ := BitmapCache.sound_flush hs.sound.cache
  obtain ⟨hw, hsize⟩ := BitmapCache.size_flush hs.sound.cache hs.covers
  obtain ⟨hs₁, hb⟩ := hs.of_cache hc ha hw
  obtain ⟨hsound, -⟩ := hs.sound.flush
  have hlong : pageEnd 0 ≤ s.bitmaps.reach s.extents.toNat :=
    hs.pageEnd_zero_le.trans (Nat.le_max_left ..)
  by_cases hd : s.headerDirty
  · obtain ⟨-, hbit⟩ := BitmapCache.sound_store hc zero_not_isBitmapPage s.header
    rw [Space.flush, if_pos hd] at hsound ⊢
    refine ⟨hs₁.store zero_not_isBitmapPage hsound,
      ⟨rfl, fun e he => ?_, fun q hq hbmp => ?_, ?_⟩, ?_⟩
    · exact (hbit e he).trans (ha.bitmap_eq e he)
    · exact (Image.read_write_of_ne _ _ (Ne.symm hq)).trans (ha.read_eq q hbmp)
    · exact (BitmapCache.reach_store s.bitmaps.flush s.extents.toNat 0 s.header).trans
        (hw.reach_eq.symm ▸ Nat.max_eq_left hlong)
    · change max s.bitmaps.flush.device.image.size (pageEnd 0) = _
      rw [hsize, Nat.max_eq_left hlong]
  · rw [Space.flush, if_neg hd]
    exact ⟨hs₁, hb.matches_self, hsize⟩

/-- A space that was closed and is looked at again. -/
theorem reopened (hs : s.Settled) (hm : 0 < m') :
    (s.reopened m').Settled ∧ s.Matches (s.reopened m') := by
  obtain ⟨-, hmatch, hsize⟩ := hs.flush
  obtain ⟨-, -, -, -, hfile⟩ := hs.sound.flush
  obtain ⟨hs₁, -⟩ := hs.sound.reopened hm
  have hbit : ∀ e, e < maxExtents → (s.reopened m').bitmaps.bitmap e = s.bitmaps.bitmap e :=
    fun e he => (BitmapCache.bitmap_new _ e).trans (hfile e he)
  have hend : ∀ e, e < s.extents.toNat →
      pageEnd (bitmapPage e) ≤ (s.reopened m').bitmaps.device.image.size := fun e he =>
    (BitmapCache.pageEnd_le_reach s.bitmaps he).trans_eq hsize.symm
  refine ⟨⟨hs₁, fun e he => .inr (hend e he), ?_,
    fun e hle he => (hbit e he).trans (hs.unborn e hle he)⟩,
    rfl, hbit, hmatch.read_eq, ?_⟩
  · exact hs.opened.trans ((Nat.le_max_left ..).trans_eq hsize.symm)
  · exact (Nat.max_eq_left (Finset.sup_le fun e he => hend e (mem_range.1 he))).trans hsize

end Settled

/-! ## New files -/

/-- Nothing waits in the slots of a new space, so that only the header is written. -/
theorem flush_new (m : Nat) : (Space.new m).flush =
    ⟨{ device := Device.store { image := {}, reads := 1 } 0 SpaceHeader.fresh },
      SpaceHeader.fresh, false⟩ := by
  have hslot : ∀ f : Fin m, (Space.new m).bitmaps.slots[f].extent = none := by
    simp [Space.new]
  have hflush : (Space.new m).bitmaps.flush = (Space.new m).bitmaps :=
    List.foldl_fixed' (fun f => BitmapCache.writeBack_of_clean (.inl (hslot f))) _
  rw [Space.flush, hflush]
  rfl

theorem bitmap_flush_new (m : Nat) {e : Nat} (he : e < maxExtents) :
    (Space.new m).flush.bitmaps.bitmap e = Bitmap.empty := by
  have hne : (0 : UInt32) ≠ bitmapPage e := fun h => zero_not_isBitmapPage (h ▸ isBitmapPage he)
  rw [flush_new, BitmapCache.bitmap_new]
  exact (Image.read_write_of_ne _ _ hne).trans (Image.read_empty _)

theorem Settled.new (hm : 0 < m) : (Space.new m).flush.Settled := by
  obtain ⟨hs₀, -, hext⟩ := Sound.new hm
  obtain ⟨hs, ha, -⟩ := hs₀.flush
  refine ⟨hs, ?_, ?_, fun e _ he => bitmap_flush_new m he⟩
  · rw [ha.extents_eq, hext]
    exact fun e he => absurd he (Nat.not_lt_zero e)
  · rw [flush_new]
    exact (Nat.one_mul pageSize).ge.trans (Nat.le_max_right ..)

/-- Two new spaces have no difference but their slots. -/
theorem Matches.new (m m' : Nat) : (Space.new m).flush.Matches (Space.new m').flush := by
  refine ⟨?_, fun e he => (bitmap_flush_new m' he).trans (bitmap_flush_new m he).symm,
    fun q _ _ => ?_, ?_⟩
  · rw [flush_new, flush_new]
  · rw [flush_new, flush_new]
  · rw [flush_new, flush_new]
    rfl

end Space

end PageStore
