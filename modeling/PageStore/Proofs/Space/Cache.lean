import PageStore.Proofs.Replacer.Candidates
import PageStore.Space.Basic

/-!
# The bitmap cache is a map of bitmaps

Whatever the cache keeps in its slots and whatever it has written back, it stands for one bitmap
for each extent, `BitmapCache.bitmap`. A cache is `Sound` for a number of extents when its table,
its slots, its list of unused slots and its order of use agree with each other and with the file.

* `fetch`, `touch` and `flush` change no bitmap; `fetch` always finds a slot;
* `edit` changes one bitmap, and `install` starts one;
* none of them touches a page of the file that is no bitmap page.
-/

namespace PageStore

/-! ## Bitmap pages -/

theorem toNat_bitmapPage {e : Nat} (he : e < maxExtents) :
    (bitmapPage e).toNat = 1 + e * (bitmapCapacity + 1) := by
  have hmax := maxExtents_eq
  have hcap := bitmapCapacity_eq
  rw [bitmapPage, UInt32.toNat_ofNat_of_lt']
  rw [hmax] at he
  rw [hcap]
  simp only [UInt32.size]
  omega

theorem bitmapPage_inj {d e : Nat} (hd : d < maxExtents) (he : e < maxExtents)
    (h : bitmapPage d = bitmapPage e) : d = e := by
  have h' := congrArg UInt32.toNat h
  rw [toNat_bitmapPage hd, toNat_bitmapPage he] at h'
  have hcap := bitmapCapacity_eq
  rw [hcap] at h'
  omega

/-- The physical page holds the bitmap of some extent. -/
def IsBitmapPage (q : UInt32) : Prop := ∃ e, e < maxExtents ∧ q = bitmapPage e

theorem isBitmapPage {e : Nat} (he : e < maxExtents) : IsBitmapPage (bitmapPage e) := ⟨e, he, rfl⟩

namespace BitmapCache

variable {m : Nat}

/-- The parts of the cache agree, and it keeps bitmaps of the first `count` extents only. -/
structure Sound (c : BitmapCache m) (count : Nat) : Prop where
  /-- there is a slot -/
  pos : 0 < m
  /-- there are no more extents than a header can describe -/
  count_le : count ≤ maxExtents
  /-- the table finds exactly the bitmaps that are kept -/
  table_iff : ∀ (e : Nat) (f : Fin m), c.table[e]? = some f ↔ c.slots[f].extent = some e
  /-- a bitmap that is kept is that of an extent -/
  lt_count : ∀ (f : Fin m) (e : Nat), c.slots[f].extent = some e → e < count
  /-- no slot waits twice for its first use -/
  nodup : c.free.Nodup
  /-- a slot that was never used keeps no bitmap -/
  unused : ∀ f ∈ c.free, c.slots[f].extent = none
  /-- every other slot can be chosen for another bitmap -/
  recency_iff : ∀ f, c.recency.IsCandidate f ↔ f ∉ c.free
  /-- a bitmap that is not dirty is the one in the file -/
  clean : ∀ (f : Fin m) (e : Nat), c.slots[f].extent = some e → c.slots[f].dirty = false →
    c.slots[f].bits = c.device.image.read (bitmapPage e)

/-- The two caches stand for the same bitmaps, over files that are the same otherwise. -/
structure Agrees (c c' : BitmapCache m) : Prop where
  bitmap_eq : ∀ e, e < maxExtents → c'.bitmap e = c.bitmap e
  read_eq : ∀ q, ¬IsBitmapPage q → c'.device.image.read q = c.device.image.read q

theorem Agrees.refl (c : BitmapCache m) : Agrees c c := ⟨fun _ _ => rfl, fun _ _ => rfl⟩

theorem Agrees.trans {c c' c'' : BitmapCache m} (h : Agrees c c') (h' : Agrees c' c'') :
    Agrees c c'' :=
  ⟨fun e he => (h'.bitmap_eq e he).trans (h.bitmap_eq e he),
    fun q hq => (h'.read_eq q hq).trans (h.read_eq q hq)⟩

/-! ## Slots -/

theorem bitmap_of_kept {c : BitmapCache m} {count : Nat} (hs : c.Sound count) {f : Fin m} {e : Nat}
    (h : c.slots[f].extent = some e) : c.bitmap e = c.slots[f].bits := by
  rw [bitmap, (hs.table_iff e f).2 h]

theorem bitmap_of_absent {c : BitmapCache m} {count : Nat} (hs : c.Sound count) {e : Nat}
    (h : ∀ f : Fin m, c.slots[f].extent ≠ some e) :
    c.bitmap e = c.device.image.read (bitmapPage e) := by
  rcases ht : c.table[e]? with _ | f
  · rw [bitmap, ht]
  · exact absurd ((hs.table_iff e f).1 ht) (h f)

/-- An extent's bitmap is kept in one slot at most. -/
theorem Sound.slot_unique {c : BitmapCache m} {count : Nat} (hs : c.Sound count) {f g : Fin m}
    {e : Nat} (hf : c.slots[f].extent = some e) (hg : c.slots[g].extent = some e) : f = g := by
  have h := (hs.table_iff e f).2 hf
  rw [(hs.table_iff e g).2 hg] at h
  exact (Option.some.inj h).symm

/-- The cache of a space that was just opened. -/
theorem sound_new (device : Device) {count : Nat} (hm : 0 < m) (hcount : count ≤ maxExtents) :
    Sound ({ device } : BitmapCache m) count := by
  have hslot : ∀ f : Fin m, (Vector.replicate m ({} : BitmapSlot))[f] = {} := by simp
  refine ⟨hm, hcount, ?_, ?_, List.nodup_finRange m, ?_, ?_, ?_⟩
  · intro e f
    simp [hslot]
  · intro f e h
    rw [hslot] at h
    cases h
  · intro f _
    rw [hslot]
  · intro f
    simp [Lru.not_isCandidate_empty]
  · intro f e h
    rw [hslot] at h
    cases h

theorem bitmap_new (device : Device) (e : Nat) :
    ({ device } : BitmapCache m).bitmap e = device.image.read (bitmapPage e) := by
  simp [bitmap]

/-- A bitmap is the same where the table, its slot and its page of the file are. -/
theorem bitmap_congr {c c' : BitmapCache m} {e : Nat} (htable : c'.table[e]? = c.table[e]?)
    (hkept : ∀ g, c.table[e]? = some g → c'.slots[g].bits = c.slots[g].bits)
    (habsent : c.table[e]? = none →
      c'.device.image.read (bitmapPage e) = c.device.image.read (bitmapPage e)) :
    c'.bitmap e = c.bitmap e := by
  rw [bitmap, bitmap, htable]
  rcases ht : c.table[e]? with _ | g
  · exact habsent ht
  · exact hkept g ht

/-! ## Writing back -/

theorem writeBack_of_dirty {c : BitmapCache m} {f : Fin m} {e : Nat}
    (he : c.slots[f].extent = some e) (hd : c.slots[f].dirty = true) :
    c.writeBack f = { c with
      device := c.device.store (bitmapPage e) c.slots[f].bits
      slots :=
        c.slots.set f { extent := some e, dirty := false, bits := c.slots[f].bits } f.isLt } := by
  rcases hslot : c.slots[f] with ⟨_ | d, _ | _, bits⟩
  all_goals rw [hslot] at he hd
  all_goals cases he
  all_goals cases hd
  rw [writeBack]
  simp [hslot]

theorem writeBack_of_clean {c : BitmapCache m} {f : Fin m}
    (h : c.slots[f].extent = none ∨ c.slots[f].dirty = false) : c.writeBack f = c := by
  rcases hslot : c.slots[f] with ⟨_ | d, _ | _, bits⟩
  all_goals rw [writeBack]
  all_goals simp [hslot]
  rw [hslot] at h
  rcases h with h | h <;> cases h

/-- A slot is written back if it keeps a bitmap that is not in the file yet. -/
theorem clean_or_dirty (c : BitmapCache m) (f : Fin m) :
    (c.slots[f].extent = none ∨ c.slots[f].dirty = false) ∨
      ∃ e, c.slots[f].extent = some e ∧ c.slots[f].dirty = true := by
  rcases he : c.slots[f].extent with _ | e
  · exact .inl (.inl rfl)
  · rcases hd : c.slots[f].dirty with _ | _
    · exact .inl (.inr rfl)
    · exact .inr ⟨e, rfl, rfl⟩

section WriteBack

variable (c : BitmapCache m) (f : Fin m)

/-- Writing back touches no more than the file and the slot. -/
theorem writeBack_rest : (c.writeBack f).table = c.table ∧ (c.writeBack f).free = c.free ∧
    (c.writeBack f).recency = c.recency := by
  rcases clean_or_dirty c f with hclean | ⟨e, he, hd⟩
  · rw [writeBack_of_clean hclean]
    exact ⟨rfl, rfl, rfl⟩
  · rw [writeBack_of_dirty he hd]
    exact ⟨rfl, rfl, rfl⟩

theorem writeBack_extent (g : Fin m) : (c.writeBack f).slots[g].extent = c.slots[g].extent := by
  rcases clean_or_dirty c f with hclean | ⟨e, he, hd⟩
  · rw [writeBack_of_clean hclean]
  · simp only [writeBack_of_dirty he hd, getElem_set_fin]
    by_cases hg : g = f
    · rw [if_pos hg, hg, he]
    · rw [if_neg hg]

theorem writeBack_bits (g : Fin m) : (c.writeBack f).slots[g].bits = c.slots[g].bits := by
  rcases clean_or_dirty c f with hclean | ⟨e, he, hd⟩
  · rw [writeBack_of_clean hclean]
  · simp only [writeBack_of_dirty he hd, getElem_set_fin]
    by_cases hg : g = f
    · rw [if_pos hg, hg]
    · rw [if_neg hg]

variable {c f}

theorem writeBack_dirty_of_ne {g : Fin m} (hg : g ≠ f) :
    (c.writeBack f).slots[g].dirty = c.slots[g].dirty := by
  rcases clean_or_dirty c f with hclean | ⟨e, he, hd⟩
  · rw [writeBack_of_clean hclean]
  · simp only [writeBack_of_dirty he hd, getElem_set_fin, if_neg hg]

theorem writeBack_dirty_self {e : Nat} (he : c.slots[f].extent = some e) :
    (c.writeBack f).slots[f].dirty = false := by
  rcases clean_or_dirty c f with hclean | ⟨d, hd, hdirty⟩
  · rw [writeBack_of_clean hclean]
    exact hclean.resolve_left fun hn => by
      rw [he] at hn
      cases hn
  · simp only [writeBack_of_dirty hd hdirty, getElem_set_fin, if_pos]

theorem read_writeBack_of_ne {q : UInt32}
    (hq : ∀ e, c.slots[f].extent = some e → q ≠ bitmapPage e) :
    (c.writeBack f).device.image.read q = c.device.image.read q := by
  rcases clean_or_dirty c f with hclean | ⟨e, he, hd⟩
  · rw [writeBack_of_clean hclean]
  · rw [writeBack_of_dirty he hd]
    exact Image.read_write_of_ne _ _ (Ne.symm (hq e he))

theorem read_writeBack_self {count e : Nat} (hs : c.Sound count) (he : c.slots[f].extent = some e) :
    (c.writeBack f).device.image.read (bitmapPage e) = c.slots[f].bits := by
  rcases clean_or_dirty c f with hclean | ⟨d, hd, hdirty⟩
  · have hdirty : c.slots[f].dirty = false := hclean.resolve_left fun hn => by
      rw [he] at hn
      cases hn
    rw [writeBack_of_clean hclean]
    exact (hs.clean f e he hdirty).symm
  · cases he.symm.trans hd
    rw [writeBack_of_dirty he hdirty]
    exact Image.read_write_self ..

end WriteBack

/-- Two bitmaps that are kept in two slots have two pages. -/
theorem Sound.page_ne {c : BitmapCache m} {count : Nat} (hs : c.Sound count) {f : Fin m} {d e : Nat}
    (hf : c.slots[f].extent = some e) (hd : d < maxExtents) (hne : c.slots[f].extent ≠ some d) :
    bitmapPage d ≠ bitmapPage e := fun hpage => by
  have he := Nat.lt_of_lt_of_le (hs.lt_count f e hf) hs.count_le
  cases bitmapPage_inj hd he hpage
  exact hne hf

/-- **A bitmap goes to the file.** The slots keep their bitmaps, and nobody sees a difference. -/
theorem sound_writeBack {c : BitmapCache m} {count : Nat} (hs : c.Sound count) (f : Fin m) :
    (c.writeBack f).Sound count ∧ Agrees c (c.writeBack f) := by
  obtain ⟨htable, hfree, hrec⟩ := writeBack_rest c f
  refine ⟨⟨hs.pos, hs.count_le, fun e g => ?_, fun g e => ?_, ?_, fun g => ?_, fun g => ?_,
    fun g e hg hclean => ?_⟩, fun e he =>
      bitmap_congr (by rw [htable]) (fun g _ => writeBack_bits c f g)
    fun ht => ?_, fun q hq => ?_⟩
  · rw [htable, writeBack_extent]
    exact hs.table_iff e g
  · rw [writeBack_extent]
    exact hs.lt_count g e
  · rw [hfree]
    exact hs.nodup
  · rw [hfree, writeBack_extent]
    exact hs.unused g
  · rw [hfree, hrec]
    exact hs.recency_iff g
  · rw [writeBack_extent] at hg
    rw [writeBack_bits]
    by_cases hgf : g = f
    · subst hgf
      exact (read_writeBack_self hs hg).symm
    · rw [writeBack_dirty_of_ne hgf] at hclean
      have he := Nat.lt_of_lt_of_le (hs.lt_count g e hg) hs.count_le
      rw [read_writeBack_of_ne fun d hd => hs.page_ne hd he fun hf => hgf (hs.slot_unique hg hf)]
      exact hs.clean g e hg hclean
  · refine read_writeBack_of_ne fun d hd => hs.page_ne hd he fun hf => ?_
    rw [(hs.table_iff e f).2 hf] at ht
    cases ht
  · refine read_writeBack_of_ne fun d hd hpage => hq ?_
    rw [hpage]
    exact isBitmapPage (Nat.lt_of_lt_of_le (hs.lt_count f d hd) hs.count_le)

/-- Some slots are written back one after the other; each of them is clean from then on. -/
theorem sound_writeBacks {count : Nat} (l : List (Fin m)) {c : BitmapCache m} (hs : c.Sound count) :
    (l.foldl writeBack c).Sound count ∧ Agrees c (l.foldl writeBack c) ∧
      ∀ g : Fin m, (l.foldl writeBack c).slots[g].extent = c.slots[g].extent ∧
        ((l.foldl writeBack c).slots[g].dirty = true → c.slots[g].dirty = true ∧
          (g ∈ l → c.slots[g].extent = none)) := by
  induction l generalizing c with
  | nil => exact ⟨hs, Agrees.refl c, fun g => ⟨rfl, fun hg => ⟨hg, nofun⟩⟩⟩
  | cons f l ih =>
    obtain ⟨hs₁, ha₁⟩ := sound_writeBack hs f
    obtain ⟨hs₂, ha₂, hslots⟩ := ih hs₁
    refine ⟨hs₂, ha₁.trans ha₂, fun g => ?_⟩
    obtain ⟨hext, hdirty⟩ := hslots g
    rw [writeBack_extent] at hext hdirty
    refine ⟨hext, fun hg => ?_⟩
    obtain ⟨hg₁, hmem⟩ := hdirty hg
    by_cases hgf : g = f
    · subst hgf
      have hnone : c.slots[g].extent = none := by
        by_contra hsome
        obtain ⟨e, he⟩ := Option.ne_none_iff_exists'.1 hsome
        rw [writeBack_dirty_self he] at hg₁
        cases hg₁
      rw [writeBack_of_clean (.inl hnone)] at hg₁
      exact ⟨hg₁, fun _ => hnone⟩
    · rw [writeBack_dirty_of_ne hgf] at hg₁
      exact ⟨hg₁, fun h => hmem ((List.mem_cons.1 h).resolve_left hgf)⟩

/-- **Flushing.** Every bitmap that is kept is in the file too afterwards. -/
theorem sound_flush {c : BitmapCache m} {count : Nat} (hs : c.Sound count) :
    c.flush.Sound count ∧ Agrees c c.flush ∧
      ∀ e, e < maxExtents → c.flush.device.image.read (bitmapPage e) = c.bitmap e := by
  obtain ⟨hsound, hagrees, hslots⟩ := sound_writeBacks (List.finRange m) hs
  refine ⟨hsound, hagrees, fun e he => ?_⟩
  rw [← hagrees.bitmap_eq e he]
  by_cases hkept : ∃ g : Fin m, c.flush.slots[g].extent = some e
  · obtain ⟨g, hg⟩ := hkept
    have hclean : c.flush.slots[g].dirty = false := by
      rcases h : c.flush.slots[g].dirty with _ | _
      · rfl
      · obtain ⟨hext, hdirty⟩ := hslots g
        have hnone := hext.trans ((hdirty h).2 (List.mem_finRange g))
        exact absurd (hnone.symm.trans hg) nofun
    exact (hsound.clean g e hg hclean).symm.trans (bitmap_of_kept hsound hg).symm
  · exact (bitmap_of_absent hsound fun g hg => hkept ⟨g, hg⟩).symm

/-! ## Taking a slot -/

/-- The cache with slot `f` among those that keep nothing. -/
def putBack (c : BitmapCache m) (f : Fin m) : BitmapCache m := { c with free := f :: c.free }

theorem vacate_recency (c : BitmapCache m) (f : Fin m) (r : Lru m) :
    { c with recency := r }.vacate f = { c.vacate f with recency := r } := by
  have hwrite : { c with recency := r }.writeBack f = { c.writeBack f with recency := r } := by
    rcases hslot : c.slots[f] with ⟨_ | d, _ | _, bits⟩
    all_goals
      rw [writeBack, writeBack]
      simp [hslot]
  rw [vacate, vacate, hwrite]
  dsimp only
  split <;> rfl

/-- The cache without the bitmap in slot `f`, that of extent `e`. -/
def clear (c : BitmapCache m) (f : Fin m) (e : Nat) : BitmapCache m :=
  { c with
    slots := c.slots.set f { c.slots[f] with extent := none } f.isLt
    table := c.table.erase e }

theorem vacate_of_none {c : BitmapCache m} {f : Fin m} (h : c.slots[f].extent = none) :
    c.vacate f = c := by
  rw [vacate, writeBack_of_clean (.inl h)]
  simp only [h]

theorem vacate_of_some {c : BitmapCache m} {f : Fin m} {e : Nat} (h : c.slots[f].extent = some e) :
    c.vacate f = (c.writeBack f).clear f e := by
  have h' := (writeBack_extent c f f).trans h
  rw [vacate]
  simp only [h']
  rfl

theorem slots_clear (c : BitmapCache m) (f g : Fin m) (e : Nat) :
    (c.clear f e).slots[g] = if g = f then { c.slots[f] with extent := none } else c.slots[g] := by
  simp only [clear, getElem_set_fin]

theorem extent_clear (c : BitmapCache m) (f g : Fin m) (e : Nat) :
    (c.clear f e).slots[g].extent = if g = f then none else c.slots[g].extent := by
  rw [slots_clear]
  split <;> rfl

theorem table_clear (c : BitmapCache m) (f : Fin m) (e d : Nat) :
    (c.clear f e).table[d]? = if e = d then none else c.table[d]? := by
  simp only [clear, Std.HashMap.getElem?_erase, beq_iff_eq]

/-- The table loses the bitmap that its slot loses. -/
theorem Sound.clear_table_iff {c : BitmapCache m} {count e : Nat} (hs : c.Sound count) {f : Fin m}
    (hf : c.slots[f].extent = some e) (d : Nat) (g : Fin m) :
    (c.clear f e).table[d]? = some g ↔ (c.clear f e).slots[g].extent = some d := by
  rw [table_clear, extent_clear]
  by_cases hd : e = d
  · subst hd
    rw [if_pos rfl]
    by_cases hg : g = f
    · rw [if_pos hg]
      exact iff_of_false nofun nofun
    · rw [if_neg hg]
      exact iff_of_false nofun fun h => hg (hs.slot_unique h hf)
  · rw [if_neg hd, hs.table_iff]
    by_cases hg : g = f
    · rw [if_pos hg, hg, hf]
      exact iff_of_false (fun h => hd (Option.some.inj h)) nofun
    · rw [if_neg hg]

/-- **A bitmap moves out** of its slot; while the file has it too, nobody sees a difference. -/
theorem sound_clear {c : BitmapCache m} {count e : Nat} (hs : c.Sound count) {f : Fin m}
    (hf : c.slots[f].extent = some e) (hclean : c.slots[f].dirty = false) :
    (c.clear f e).Sound count ∧ Agrees c (c.clear f e) ∧
      ∀ g : Fin m, (c.clear f e).slots[g].extent = if g = f then none else c.slots[g].extent := by
  refine ⟨⟨hs.pos, hs.count_le, hs.clear_table_iff hf, fun g d hg => ?_, hs.nodup, fun g hg => ?_,
    hs.recency_iff, fun g d hg hd => ?_⟩, ⟨fun d _ => ?_, fun _ _ => rfl⟩,
      fun g => c.extent_clear f g e⟩
  · rw [extent_clear] at hg
    split at hg
    · cases hg
    · exact hs.lt_count g d hg
  · rw [extent_clear]
    split
    · rfl
    · exact hs.unused g hg
  · rw [extent_clear] at hg
    rw [slots_clear] at hd ⊢
    split at hg
    · cases hg
    · next hgf =>
      rw [if_neg hgf] at hd ⊢
      exact hs.clean g d hg hd
  · -- the extent that loses its frame reads the same off the disk, the frame being clean
    by_cases hd : e = d
    · subst hd
      rw [bitmap, table_clear, if_pos rfl, bitmap_of_kept hs hf]
      exact (hs.clean f e hf hclean).symm
    · refine bitmap_congr (by rw [table_clear, if_neg hd]) (fun g hg => ?_) fun _ => rfl
      have hgf : g ≠ f := by
        rintro rfl
        exact hd (Option.some.inj (hf.symm.trans ((hs.table_iff d g).1 hg)))
      rw [slots_clear, if_neg hgf]

/-- **A slot is emptied.** Its bitmap is in the file from then on. -/
theorem sound_vacate {c : BitmapCache m} {count : Nat} (hs : c.Sound count) (f : Fin m) :
    (c.vacate f).Sound count ∧ Agrees c (c.vacate f) ∧
      ((c.vacate f).free = c.free ∧ (c.vacate f).recency = c.recency) ∧
      ∀ g : Fin m, (c.vacate f).slots[g].extent = if g = f then none else c.slots[g].extent := by
  rcases he : c.slots[f].extent with _ | e
  · rw [vacate_of_none he]
    refine ⟨hs, Agrees.refl c, ⟨rfl, rfl⟩, fun g => ?_⟩
    split
    · next hg => rw [hg, he]
    · rfl
  · obtain ⟨hs₁, ha₁⟩ := sound_writeBack hs f
    obtain ⟨hs₂, ha₂, hext⟩ :=
      sound_clear hs₁ ((writeBack_extent c f f).trans he) (writeBack_dirty_self he)
    obtain ⟨-, hrest⟩ := writeBack_rest c f
    rw [vacate_of_some he]
    refine ⟨hs₂, ha₁.trans ha₂, hrest, fun g => ?_⟩
    rw [hext, writeBack_extent]

/-- An empty slot can join those that keep nothing. -/
theorem sound_putBack {c : BitmapCache m} {count : Nat} (hs : c.Sound count) {f : Fin m}
    (hf : f ∉ c.free) (hnone : c.slots[f].extent = none) :
    (putBack { c with recency := c.recency.pin f } f).Sound count := by
  refine ⟨hs.pos, hs.count_le, hs.table_iff, hs.lt_count, List.nodup_cons.2 ⟨hf, hs.nodup⟩,
    fun g hg => ?_, fun g => ?_, hs.clean⟩
  · rcases List.mem_cons.1 hg with rfl | hg
    · exact hnone
    · exact hs.unused g hg
  · rw [putBack, Lru.isCandidate_pin, hs.recency_iff, List.mem_cons, not_or]

/-- **There is always a slot to be had**, and taking it changes no bitmap. -/
theorem take_eq_ok {c : BitmapCache m} {count : Nat} (hs : c.Sound count) :
    ∃ f c', take c = .ok f c' ∧ (c'.putBack f).Sound count ∧ Agrees c c' ∧
      ∀ (g : Fin m) (e : Nat), c'.slots[g].extent = some e → c.slots[g].extent = some e := by
  rcases hfree : c.free with _ | ⟨f, rest⟩
  · rcases hv : c.recency.victim with ⟨_ | f, r⟩
    · -- no slot is unused, so every slot can be chosen
      have hc := (hs.recency_iff ⟨0, hs.pos⟩).2 (by simp [hfree])
      exact absurd hc ((Lru.victim_none hv).1 _)
    · obtain ⟨-, rfl⟩ := Lru.victim_some hv
      obtain ⟨hs₁, ha, ⟨hfree₁, hrec⟩, hext⟩ := sound_vacate hs f
      have hs₂ := sound_putBack hs₁ (f := f) (by simp [hfree₁, hfree]) (by rw [hext, if_pos rfl])
      rw [hrec, ← vacate_recency] at hs₂
      refine ⟨f, { c with recency := c.recency.pin f }.vacate f, ?_, hs₂, ?_, ?_⟩
      · simp only [take, hfree, hv]
      · rw [vacate_recency]
        exact ⟨ha.bitmap_eq, ha.read_eq⟩
      · intro g e hg
        rw [vacate_recency] at hg
        have hg' := (hext g).symm.trans hg
        split at hg'
        · cases hg'
        · exact hg'
  · refine ⟨f, { c with free := rest }, ?_, ?_, ⟨fun _ _ => rfl, fun _ _ => rfl⟩,
      fun g e hg => hg⟩
    · simp only [take, hfree]
    · have : putBack { c with free := rest } f = c := by
        rw [putBack, ← hfree]
      rw [this]
      exact hs

/-! ## Bitmaps in and out -/

/-- Only the bytes of the file matter. -/
theorem Sound.device {c : BitmapCache m} {count : Nat} (hs : c.Sound count) {d : Device}
    (hd : d.image = c.device.image) : Sound { c with device := d } count :=
  ⟨hs.pos, hs.count_le, hs.table_iff, hs.lt_count, hs.nodup, hs.unused, hs.recency_iff,
    fun f e he hc => by rw [hd]; exact hs.clean f e he hc⟩

/-- **Storing a page** of the file that is no bitmap page changes no bitmap. -/
theorem sound_store {c : BitmapCache m} {count : Nat} (hs : c.Sound count) {q : UInt32}
    (hq : ¬IsBitmapPage q) (data : Page) :
    Sound { c with device := c.device.store q data } count ∧
      ∀ e, e < maxExtents → bitmap { c with device := c.device.store q data } e = c.bitmap e := by
  have hread : ∀ e, e < maxExtents → (c.device.store q data).image.read (bitmapPage e) =
      c.device.image.read (bitmapPage e) := fun e he =>
    Image.read_write_of_ne _ _ fun h => hq (h ▸ isBitmapPage he)
  refine ⟨⟨hs.pos, hs.count_le, hs.table_iff, hs.lt_count, hs.nodup, hs.unused, hs.recency_iff,
    fun f e he hd => ?_⟩, fun e he => bitmap_congr rfl (fun _ _ => rfl) fun _ => hread e he⟩
  rw [hread e (Nat.lt_of_lt_of_le (hs.lt_count f e he) hs.count_le)]
  exact hs.clean f e he hd

theorem slots_place (c : BitmapCache m) (f g : Fin m) (e : Nat) (bits : Page) (dirty : Bool) :
    (c.place f e bits dirty).slots[g] =
      if g = f then { extent := some e, dirty, bits } else c.slots[g] := by
  simp only [place, getElem_set_fin]

theorem table_place (c : BitmapCache m) (f : Fin m) (e d : Nat) (bits : Page) (dirty : Bool) :
    (c.place f e bits dirty).table[d]? = if e = d then some f else c.table[d]? := by
  simp only [place, Std.HashMap.getElem?_insert, beq_iff_eq]

/-- The table gains the bitmap that an empty slot gains. Only the slot and the table entry of the
extent change; both are new, since the slot kept nothing and no slot kept the extent. -/
theorem place_table_iff {c : BitmapCache m} {f : Fin m} {e : Nat} {bits : Page} {dirty : Bool}
    (htable : ∀ (d : Nat) (g : Fin m), c.table[d]? = some g ↔ c.slots[g].extent = some d)
    (hnone : c.slots[f].extent = none) (habs : ∀ g : Fin m, c.slots[g].extent ≠ some e) (d : Nat)
    (g : Fin m) : (c.place f e bits dirty).table[d]? = some g ↔
      (c.place f e bits dirty).slots[g].extent = some d := by
  rw [table_place, slots_place]
  by_cases hd : e = d
  · subst hd
    rw [if_pos rfl]
    by_cases hg : g = f
    · simp [hg]
    · rw [if_neg hg]
      exact iff_of_false (fun h => hg (Option.some.inj h).symm) (habs g)
  · rw [if_neg hd, htable]
    by_cases hg : g = f
    · subst hg
      rw [if_pos rfl, hnone]
      simp [hd]
    · rw [if_neg hg]

/-- **A bitmap moves in.** The slot keeps it from then on, and the others are as before. -/
theorem sound_place {c : BitmapCache m} {f : Fin m} {count count' e : Nat} (bits : Page)
    (dirty : Bool) (hs : (c.putBack f).Sound count) (hcount : count ≤ count')
    (hcount' : count' ≤ maxExtents) (he : e < count')
    (habs : ∀ g : Fin m, c.slots[g].extent ≠ some e)
    (hbits : dirty = false → bits = c.device.image.read (bitmapPage e)) :
    (c.place f e bits dirty).Sound count' ∧ (c.place f e bits dirty).slots[f].extent = some e ∧
      (c.place f e bits dirty).bitmap e = bits ∧
      ∀ d, d ≠ e → (c.place f e bits dirty).bitmap d = c.bitmap d := by
  obtain ⟨hf, hnodup⟩ := List.nodup_cons.1 hs.nodup
  have hnone : c.slots[f].extent = none := hs.unused f List.mem_cons_self
  have htable : ∀ (d : Nat) (g : Fin m), c.table[d]? = some g ↔ c.slots[g].extent = some d :=
    hs.table_iff
  refine ⟨⟨hs.pos, hcount', place_table_iff htable hnone habs, fun g d hg => ?_, hnodup,
    fun g hg => ?_, fun g => ?_, fun g d hg hd => ?_⟩, ?_, ?_, fun d hd => ?_⟩
  · rw [slots_place] at hg
    split at hg
    · cases hg
      exact he
    · exact Nat.lt_of_lt_of_le (hs.lt_count g d hg) hcount
  · have hgf : g ≠ f := by
      rintro rfl
      exact hf hg
    rw [slots_place, if_neg hgf]
    exact hs.unused g (List.mem_cons_of_mem _ hg)
  · have hcand : c.recency.IsCandidate g ↔ g ∉ f :: c.free := hs.recency_iff g
    simp only [place, Lru.isCandidate_unpin, hcand, List.mem_cons, not_or]
    by_cases hg : g = f
    · simp [hg, hf]
    · simp [hg]
  · rw [slots_place] at hg hd ⊢
    split at hg
    · next hgf =>
      cases hg
      rw [if_pos hgf] at hd ⊢
      exact hbits hd
    · next hgf =>
      rw [if_neg hgf] at hd ⊢
      exact hs.clean g d hg hd
  · rw [slots_place, if_pos rfl]
  · rw [bitmap, table_place, if_pos rfl]
    simp only [slots_place, if_pos]
  · refine bitmap_congr (by rw [table_place, if_neg (Ne.symm hd)]) (fun g ht => ?_) fun _ => rfl
    have hgf : g ≠ f := by
      rintro rfl
      rw [htable, hnone] at ht
      cases ht
    rw [slots_place, if_neg hgf]

theorem sound_touch {c : BitmapCache m} {count : Nat} (hs : c.Sound count) {f : Fin m}
    (hf : f ∉ c.free) : (c.touch f).Sound count := by
  refine ⟨hs.pos, hs.count_le, hs.table_iff, hs.lt_count, hs.nodup, hs.unused, fun g => ?_,
    hs.clean⟩
  simp only [touch, Lru.isCandidate_unpin, Lru.isCandidate_pin, hs.recency_iff]
  by_cases hg : g = f
  · simp [hg, hf]
  · simp [hg]

/-- **The bitmap of an extent can be had**, and fetching it changes no bitmap. -/
theorem fetch_eq_ok {c : BitmapCache m} {count e : Nat} (hs : c.Sound count) (he : e < count) :
    ∃ f c', fetch e c = .ok f c' ∧ c'.Sound count ∧ Agrees c c' ∧
      c'.slots[f].extent = some e := by
  rcases ht : c.table[e]? with _ | f
  · have habs : ∀ g : Fin m, c.slots[g].extent ≠ some e := by
      intro g hg
      rw [(hs.table_iff e g).2 hg] at ht
      cases ht
    obtain ⟨f, c₁, htake, hs₁, ha₁, hsub⟩ := take_eq_ok hs
    let c₂ : BitmapCache m := { c₁ with device := (c₁.device.load (bitmapPage e)).2 }
    have habs₁ : ∀ g : Fin m, c₁.slots[g].extent ≠ some e := fun g hg => habs g (hsub g e hg)
    obtain ⟨hs₃, hext, hbits, hother⟩ := sound_place (c := c₂) (f := f)
      (c₁.device.image.read (bitmapPage e)) false (hs₁.device rfl) (Nat.le_refl _) hs.count_le
      he habs₁ fun _ => rfl
    refine ⟨f, c₂.place f e (c₁.device.image.read (bitmapPage e)) false, ?_, hs₃, ?_, hext⟩
    · rw [fetch, Action.get_bind]
      simp only [ht]
      rw [Action.bind_of_ok htake]
      rfl
    · refine ha₁.trans ⟨fun d hd => ?_, fun q hq => rfl⟩
      by_cases hde : d = e
      · subst hde
        rw [hbits]
        exact (bitmap_of_absent hs₁ habs₁).symm
      · exact hother d hde
  · have hf : f ∉ c.free := fun hmem => by
      have := hs.unused f hmem
      rw [(hs.table_iff e f).1 ht] at this
      cases this
    refine ⟨f, c.touch f, ?_, sound_touch hs hf, ⟨fun d _ => rfl, fun q _ => rfl⟩,
      (hs.table_iff e f).1 ht⟩
    rw [fetch, Action.get_bind]
    simp only [ht]
    rfl

/-- **A new extent starts without pages.** -/
theorem install_eq_ok {c : BitmapCache m} {count : Nat} (hs : c.Sound count)
    (hcount : count < maxExtents) :
    ∃ c', install count c = .ok () c' ∧ c'.Sound (count + 1) ∧
      c'.bitmap count = Bitmap.empty ∧
      (∀ e, e < maxExtents → e ≠ count → c'.bitmap e = c.bitmap e) ∧
      ∀ q, ¬IsBitmapPage q → c'.device.image.read q = c.device.image.read q := by
  obtain ⟨f, c₁, htake, hs₁, ha₁, hsub⟩ := take_eq_ok hs
  have habs : ∀ g : Fin m, c₁.slots[g].extent ≠ some count := fun g hg =>
    Nat.lt_irrefl _ (hs.lt_count g count (hsub g count hg))
  obtain ⟨hs₂, -, hbits, hother⟩ := sound_place Bitmap.empty true hs₁
    (Nat.le_succ _) hcount (Nat.lt_succ_self _) habs nofun
  refine ⟨c₁.place f count Bitmap.empty true, ?_, hs₂, hbits, fun e he hne => ?_, ha₁.read_eq⟩
  · rw [install, Action.bind_of_ok htake]
    rfl
  · rw [hother e hne, ha₁.bitmap_eq e he]

theorem slots_edit (c : BitmapCache m) (f : Fin m) (bits : Page) (g : Fin m) :
    (c.edit f bits).slots[g] =
      if g = f then { c.slots[f] with dirty := true, bits } else c.slots[g] := by
  simp only [edit, getElem_set_fin]

/-- **A bitmap changes.** -/
theorem sound_edit {c : BitmapCache m} {count e : Nat} {f : Fin m} (hs : c.Sound count)
    (he : c.slots[f].extent = some e) (bits : Page) :
    (c.edit f bits).Sound count ∧ (c.edit f bits).bitmap e = bits ∧
      ∀ d, d ≠ e → (c.edit f bits).bitmap d = c.bitmap d := by
  have hslot := c.slots_edit f bits
  have hext : ∀ g : Fin m, (c.edit f bits).slots[g].extent = c.slots[g].extent := by
    intro g
    rw [hslot]
    split
    · next hg => rw [hg]
    · rfl
  have hsound : (c.edit f bits).Sound count := by
    refine ⟨hs.pos, hs.count_le, fun d g => ?_, fun g d hg => ?_, hs.nodup, fun g hg => ?_,
      hs.recency_iff, fun g d hg hd => ?_⟩
    · rw [hext]
      exact hs.table_iff d g
    · rw [hext] at hg
      exact hs.lt_count g d hg
    · rw [hext]
      exact hs.unused g hg
    · rw [hext] at hg
      rw [hslot] at hd ⊢
      split at hd
      · cases hd
      · next hgf =>
        rw [if_neg hgf]
        exact hs.clean g d hg hd
  refine ⟨hsound, ?_, fun d hd => ?_⟩
  · rw [bitmap_of_kept hsound ((hext f).trans he), hslot, if_pos rfl]
  · refine bitmap_congr rfl (fun g ht => ?_) fun _ => rfl
    have hgf : g ≠ f := by
      rintro rfl
      rw [hs.table_iff, he] at ht
      exact hd (Option.some.inj ht).symm
    rw [hslot, if_neg hgf]

end BitmapCache

end PageStore
