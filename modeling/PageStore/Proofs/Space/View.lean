import PageStore.Proofs.Space.Bitmap
import PageStore.Proofs.Space.Header
import PageStore.Proofs.Space.Places

/-!
# A space is a set of pages with contents

An open space stands for the set of numbers of the pages that are allocated, `Space.members`, and
for the bytes that are stored for each page, `Space.stored`. A space is `Sound` when its header,
its bitmaps and its cache agree; two spaces that stand for the same are related by `Agrees`.

Looking up a bitmap, flushing, and closing and opening the file again keep a space sound and
change nothing that it stands for. A new file is a space without pages.
-/

namespace PageStore.Space

open Finset

variable {m : Nat}

/-! ## What a space stands for -/

/-- The numbers of the allocated pages. -/
@[irreducible] def members (s : Space m) : Finset Nat :=
  (range s.extents.toNat).biUnion fun e =>
    (Bitmap.members (s.bitmaps.bitmap e)).image fun o => e * bitmapCapacity + o

/-- The bytes that the file holds for page `p`, allocated or not. -/
def stored (s : Space m) (p : PageId) : Page := s.bitmaps.device.image.read p.physical

/-- Number of allocated pages in extent `e`. -/
def usedOf (s : Space m) (e : Nat) : Nat := (Bitmap.members (s.bitmaps.bitmap e)).card

/-- A space without extents, over a file that was just created and looked at once. -/
def new (m : Nat) : Space m := ⟨{ device := { image := {}, reads := 1 } }, SpaceHeader.fresh, true⟩

/-- The space over the file that closing it leaves, which was looked at once. -/
def reopened (s : Space m) (m' : Nat) : Space m' :=
  ⟨{ device := { image := s.flush.bitmaps.device.image, reads := 1 } }, s.header, false⟩

/-- The parts of the space agree. -/
structure Sound (s : Space m) : Prop where
  /-- the cache stands for the bitmaps of the extents -/
  cache : s.bitmaps.Sound s.extents.toNat
  /-- the header counts what the bitmaps say -/
  header : SpaceHeader.Sound s.header s.usedOf
  /-- the counters of every bitmap agree with its bits -/
  bitmap : ∀ e, e < s.extents.toNat → Bitmap.Sound (s.bitmaps.bitmap e)
  /-- a header that is not dirty is the one in the file -/
  clean : s.headerDirty = false → s.bitmaps.device.image.read 0 = s.header

/-- The two spaces have the same pages with the same contents. -/
structure Agrees {m' : Nat} (s : Space m) (s' : Space m') : Prop where
  extents_eq : s'.extents = s.extents
  members_eq : s'.members = s.members
  stored_eq : ∀ p, p.isInRange = true → s'.stored p = s.stored p

theorem Agrees.refl (s : Space m) : Agrees s s := ⟨rfl, rfl, fun _ _ => rfl⟩

theorem Agrees.trans {m' m'' : Nat} {s : Space m} {s' : Space m'} {s'' : Space m''}
    (h : Agrees s s') (h' : Agrees s' s'') : Agrees s s'' :=
  ⟨h'.extents_eq.trans h.extents_eq, h'.members_eq.trans h.members_eq,
    fun p hp => (h'.stored_eq p hp).trans (h.stored_eq p hp)⟩

theorem mem_members {s : Space m} {i : Nat} : i ∈ s.members ↔
    i / bitmapCapacity < s.extents.toNat ∧
      i % bitmapCapacity ∈ Bitmap.members (s.bitmaps.bitmap (i / bitmapCapacity)) := by
  simp only [members, mem_biUnion, mem_range, mem_image]
  constructor
  · rintro ⟨e, he, o, ho, rfl⟩
    have hlt := Bitmap.lt_of_mem_members ho
    rw [Nat.mul_comm, Nat.mul_add_div (by decide), Nat.div_eq_of_lt hlt, Nat.mul_add_mod,
      Nat.mod_eq_of_lt hlt]
    exact ⟨he, ho⟩
  · rintro ⟨he, ho⟩
    refine ⟨_, he, _, ho, ?_⟩
    rw [Nat.mul_comm]
    exact Nat.div_add_mod ..

theorem mem_members_iff {s : Space m} {p : PageId} : p.val.toNat ∈ s.members ↔
    p.extent < s.extents.toNat ∧ p.offset ∈ Bitmap.members (s.bitmaps.bitmap p.extent) :=
  mem_members

theorem members_congr {s s' : Space m} (he : s'.extents = s.extents)
    (hb : ∀ e, e < s.extents.toNat →
      Bitmap.members (s'.bitmaps.bitmap e) = Bitmap.members (s.bitmaps.bitmap e)) :
    s'.members = s.members := by
  ext i
  rw [mem_members, mem_members, he]
  exact and_congr_right fun hlt => by rw [hb _ hlt]

namespace Sound

variable {s : Space m}

theorem extents_le (hs : Sound s) : s.extents.toNat ≤ maxExtents := hs.header.extents_le

/-- Every member is the number of a page that a space can hand out. -/
theorem lt_of_mem (hs : Sound s) {i : Nat} (hi : i ∈ s.members) : i < maxLogicalPages := by
  have he := (mem_members.1 hi).1
  have := hs.extents_le
  exact (Nat.div_lt_iff_lt_mul (by decide)).1 (Nat.lt_of_lt_of_le he this)

theorem isInRange_of_mem (hs : Sound s) {p : PageId} (hp : p.val.toNat ∈ s.members) :
    p.isInRange = true := PageId.isInRange_iff.2 (hs.lt_of_mem hp)

theorem card_members (s : Space m) :
    s.members.card = ∑ e ∈ range s.extents.toNat, s.usedOf e := by
  rw [members, card_biUnion]
  · refine sum_congr rfl fun e _ => card_image_of_injective _ fun o o' h => ?_
    exact Nat.add_left_cancel h
  · intro d _ e _ hne
    rw [Function.onFun, disjoint_left]
    intro i hd he
    obtain ⟨o, ho, rfl⟩ := mem_image.1 hd
    obtain ⟨o', ho', h⟩ := mem_image.1 he
    have hlt := Bitmap.lt_of_mem_members ho
    have hlt' := Bitmap.lt_of_mem_members ho'
    have hdiv := congrArg (· / bitmapCapacity) h
    simp only [Nat.mul_comm _ bitmapCapacity, Nat.mul_add_div (show 0 < bitmapCapacity by decide),
      Nat.div_eq_of_lt hlt, Nat.div_eq_of_lt hlt', Nat.add_zero] at hdiv
    exact hne hdiv.symm

/-- **The total in the header** is the number of allocated pages. -/
theorem allocatedPages_eq (hs : Sound s) : s.allocatedPages.toNat = s.members.card := by
  rw [card_members]
  exact hs.header.allocated_eq

/-! ## Steps that change no page -/

/-- The cache is replaced by one with the same bitmaps. Page 0 has to be right only where the header
is no longer dirty. -/
theorem replace_cache (hs : Sound s) {c : BitmapCache m} (dirty : Bool)
    (hc : c.Sound s.extents.toNat)
    (hbit : ∀ e, e < s.extents.toNat → c.bitmap e = s.bitmaps.bitmap e)
    (hclean : dirty = false → c.device.image.read 0 = s.header) :
    Sound { s with bitmaps := c, headerDirty := dirty } ∧
      members { s with bitmaps := c, headerDirty := dirty } = s.members := by
  refine ⟨⟨hc, hs.header.congr fun e he => ?_, fun e he => ?_, hclean⟩,
    members_congr rfl fun e he => ?_⟩
  · simp only [usedOf, hbit e he]
  · simp only [hbit e he]
    exact hs.bitmap e he
  · simp only [hbit e he]

/-- Replacing the cache by one that stands for the same bitmaps changes nothing. -/
theorem cache_agrees (hs : Sound s) {c : BitmapCache m} (hc : c.Sound s.extents.toNat)
    (ha : BitmapCache.Agrees s.bitmaps c) :
    Sound { s with bitmaps := c } ∧ Agrees s { s with bitmaps := c } := by
  obtain ⟨hs', hmembers⟩ := hs.replace_cache s.headerDirty hc
    (fun e he => ha.bitmap_eq e (Nat.lt_of_lt_of_le he hs.extents_le))
    fun hd => (ha.read_eq 0 zero_not_isBitmapPage).trans (hs.clean hd)
  exact ⟨hs', rfl, hmembers, fun p hp => ha.read_eq _ (PageId.physical_not_isBitmapPage hp)⟩

/-- The bitmap of an extent can be had. -/
theorem fetch_eq_ok (hs : Sound s) {e : Nat} (he : e < s.extents.toNat) :
    ∃ f s', onBitmaps (BitmapCache.fetch e) s = .ok f s' ∧ Sound s' ∧ Agrees s s' ∧
      s'.bitmaps.slots[f].extent = some e ∧ s'.header = s.header := by
  obtain ⟨f, c, hf, hc, ha, hext⟩ := BitmapCache.fetch_eq_ok hs.cache he
  obtain ⟨hs', ha'⟩ := hs.cache_agrees hc ha
  exact ⟨f, { s with bitmaps := c }, Action.focus_ok hf, hs', ha', hext, rfl⟩

/-- Page 0 is written only when the header differs from it. -/
theorem flush (hs : Sound s) :
    Sound s.flush ∧ Agrees s s.flush ∧ s.flush.header = s.header ∧
      s.flush.bitmaps.device.image.read 0 = s.header ∧
      ∀ e, e < maxExtents →
        s.flush.bitmaps.device.image.read (bitmapPage e) = s.bitmaps.bitmap e := by
  obtain ⟨hc, ha, hfile⟩ := BitmapCache.sound_flush hs.cache
  obtain ⟨hs', ha'⟩ := hs.cache_agrees hc ha
  have hlt : ∀ e, e < s.extents.toNat → e < maxExtents := fun e he =>
    Nat.lt_of_lt_of_le he hs.extents_le
  by_cases hd : s.headerDirty
  · -- the header goes to page 0, which is no bitmap page and no page of data
    have hread : ∀ q, (0 : UInt32) ≠ q →
        (s.bitmaps.flush.device.store 0 s.header).image.read q =
          s.bitmaps.flush.device.image.read q := fun q hq => Image.read_write_of_ne _ _ hq
    obtain ⟨hcs, hbit⟩ := BitmapCache.sound_store hc zero_not_isBitmapPage s.header
    obtain ⟨hsound, hmembers⟩ := hs.replace_cache false hcs
      (fun e he => (hbit e (hlt e he)).trans (ha.bitmap_eq e (hlt e he)))
      fun _ => Image.read_write_self ..
    rw [Space.flush, if_pos hd]
    refine ⟨hsound, ⟨rfl, hmembers, fun p hp => ?_⟩, rfl, Image.read_write_self .., fun e he => ?_⟩
    · have hphys : (0 : UInt32) ≠ p.physical := (PageId.physical_ne_zero hp).symm
      exact (hread _ hphys).trans (ha.read_eq _ (PageId.physical_not_isBitmapPage hp))
    · have hne : (0 : UInt32) ≠ bitmapPage e := fun h =>
        zero_not_isBitmapPage (h ▸ isBitmapPage he)
      exact (hread _ hne).trans (hfile e he)
  · have hflush : s.flush = { s with bitmaps := s.bitmaps.flush } := by
      rw [Space.flush, if_neg hd]
    rw [hflush]
    refine ⟨hs', ha', rfl, ?_, hfile⟩
    rw [← hs.clean (by simpa using hd)]
    exact ha.read_eq 0 zero_not_isBitmapPage

/-! ## Opening and closing -/

/-- A space that was just made has no pages. -/
theorem new (hm : 0 < m) :
    Sound (Space.new m) ∧ (Space.new m).members = ∅ ∧ (Space.new m).extents = 0 := by
  have hext : (Space.new m).extents = 0 := SpaceHeader.extents_fresh
  refine ⟨⟨?_, SpaceHeader.Sound.fresh _, ?_, nofun⟩, ?_, hext⟩
  · rw [hext]
    exact BitmapCache.sound_new _ hm (Nat.zero_le _)
  · rw [hext]
    exact fun e he => absurd he (Nat.not_lt_zero e)
  · rw [members, hext]
    rfl

/-- An empty file is opened as a space that was just made. -/
theorem mount_eq_ok {config : SpaceConfig} (hconfig : config.validate = .ok ()) {v : Volume}
    (hv : v.openFile = .ok {}) : mount config v = .ok (Space.new config.bitmapFrames).flush := by
  have hblank : SpaceHeader.isBlank (Block.zero pageSize) = true := by
    simp [SpaceHeader.isBlank, Block.zero, Block.filled]
  have hdev : Device.openVolume v = .ok { image := {} } := by
    rw [Device.openVolume, hv]
    rfl
  simp only [mount, hconfig, hdev, bind, Except.bind, Device.load, Image.read_empty, hblank,
    if_true, pure, Except.pure]
  rfl

/-- **A new file** becomes a space without pages. -/
theorem mount_fresh {config : SpaceConfig} (hconfig : config.validate = .ok ()) {v : Volume}
    (hv : v.openFile = .ok {}) :
    ∃ s, mount config v = .ok s ∧ Sound s ∧ s.members = ∅ ∧ s.extents = 0 := by
  obtain ⟨hs₀, hmem, hext⟩ := Sound.new (SpaceConfig.validate_eq_ok_iff.1 hconfig)
  obtain ⟨hs, ha, -⟩ := hs₀.flush
  exact ⟨_, mount_eq_ok hconfig hv, hs, ha.members_eq.trans hmem, ha.extents_eq.trans hext⟩

/-- Nothing is stored in a new file. -/
theorem stored_mount_fresh {config : SpaceConfig} (hconfig : config.validate = .ok ()) {v : Volume}
    (hv : v.openFile = .ok {}) {s : Space config.bitmapFrames} (hmount : mount config v = .ok s)
    {p : PageId} (hp : p.isInRange = true) : s.stored p = Block.zero pageSize := by
  obtain ⟨hs₀, -⟩ := Sound.new (SpaceConfig.validate_eq_ok_iff.1 hconfig)
  obtain ⟨-, ha, -⟩ := hs₀.flush
  rw [mount_eq_ok hconfig hv] at hmount
  cases hmount
  exact (ha.stored_eq p hp).trans (Image.read_empty _)

/-- A space that was closed and is looked at again is the same space. -/
theorem reopened (hs : Sound s) {m' : Nat} (hm : 0 < m') :
    Sound (s.reopened m') ∧ Agrees s (s.reopened m') := by
  obtain ⟨-, ha, -, hzero, hfile⟩ := hs.flush
  have hbit : ∀ e, e < s.extents.toNat → (s.reopened m').bitmaps.bitmap e = s.bitmaps.bitmap e :=
    fun e he => (BitmapCache.bitmap_new _ e).trans (hfile e (Nat.lt_of_lt_of_le he hs.extents_le))
  refine ⟨⟨BitmapCache.sound_new _ hm hs.extents_le, hs.header.congr fun e he => ?_,
    fun e he => ?_, fun _ => hzero⟩, rfl, ?_, fun p hp => ha.stored_eq p hp⟩
  · simp only [usedOf, hbit e he]
  · rw [hbit e he]
    exact hs.bitmap e he
  · ext i
    rw [mem_members, mem_members]
    exact and_congr_right fun hlt => by rw [hbit _ hlt]

/-- The file of a space that was closed has its header. -/
theorem mount_unmount_eq (hs : Sound s) {config : SpaceConfig}
    (hconfig : config.validate = .ok ()) :
    mount config s.unmount = .ok (s.reopened config.bitmapFrames).flush := by
  obtain ⟨-, -, -, hzero, -⟩ := hs.flush
  have hblank := SpaceHeader.isBlank_of_isValid hs.header.valid
  have hdev : Device.openVolume s.unmount = .ok { image := s.flush.bitmaps.device.image } := rfl
  have hload : Device.load { image := s.flush.bitmaps.device.image } 0 =
      (s.header, { image := s.flush.bitmaps.device.image, reads := 1 }) := by
    rw [Device.load, hzero]
    rfl
  simp only [mount, hconfig, hdev, bind, Except.bind, hload, hblank, hs.header.valid,
    Bool.false_eq_true, if_false, if_true, pure, Except.pure]
  rfl

/-- **Closing and opening again** keeps every page, with any number of slots for bitmaps. -/
theorem mount_unmount (hs : Sound s) {config : SpaceConfig} (hconfig : config.validate = .ok ()) :
    ∃ s', mount config s.unmount = .ok s' ∧ Sound s' ∧ Agrees s s' := by
  obtain ⟨hs₀, ha₀⟩ := hs.reopened (SpaceConfig.validate_eq_ok_iff.1 hconfig)
  obtain ⟨hs', ha', -⟩ := hs₀.flush
  exact ⟨_, hs.mount_unmount_eq hconfig, hs', ha₀.trans ha'⟩

end Sound

end PageStore.Space
