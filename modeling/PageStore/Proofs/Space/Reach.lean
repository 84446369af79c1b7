import PageStore.Proofs.Space.Cache
import Mathlib.Data.Finset.Lattice.Fold
import Mathlib.Order.Lattice.Nat

/-!
# How far the file reaches

A file grows when something is written behind its end. Which bitmaps have been written at a given
time depends on the slots; how far the file reaches when all of them are written does not.
`BitmapCache.reach` is that length: nothing that the cache does by itself changes it, and a flush
makes the file that long.

`Covers` is what has to be kept for it: a bitmap that is not in the file yet waits in a dirty slot.
-/

namespace PageStore

open Finset

/-- The length of a file that ends with physical page `q`. -/
def pageEnd (q : UInt32) : Nat := (q.toNat + 1) * pageSize

namespace BitmapCache

variable {m : Nat} {c c' c'' : BitmapCache m} {count e : Nat} {f : Fin m}

/-- The length of the file when the bitmaps of the first `count` extents have been written to it. -/
def reach (c : BitmapCache m) (count : Nat) : Nat :=
  max c.device.image.size ((range count).sup fun e => pageEnd (bitmapPage e))

/-- Each of the first `count` bitmaps has its page in the file, or waits in a dirty slot. -/
def Covers (c : BitmapCache m) (count : Nat) : Prop :=
  ∀ e, e < count → (∃ f : Fin m, c.slots[f].extent = some e ∧ c.slots[f].dirty = true) ∨
    pageEnd (bitmapPage e) ≤ c.device.image.size

theorem pageEnd_le_reach (c : BitmapCache m) (he : e < count) :
    pageEnd (bitmapPage e) ≤ c.reach count :=
  (Finset.le_sup (f := fun e => pageEnd (bitmapPage e)) (mem_range.2 he)).trans
    (Nat.le_max_right ..)

/-- A page that is stored may lie behind the end of the file. -/
theorem reach_store (c : BitmapCache m) (count : Nat) (q : UInt32) (data : Page) :
    reach { c with device := c.device.store q data } count = max (c.reach count) (pageEnd q) := by
  rw [reach, reach, Nat.max_right_comm]
  rfl

/-- **The cache writes bitmaps**, and no others than the first `count`. -/
structure Writes (c c' : BitmapCache m) (count : Nat) : Prop where
  covers : c'.Covers count
  reach_eq : c'.reach count = c.reach count
  size_le : c.device.image.size ≤ c'.device.image.size

theorem Writes.trans (h : c.Writes c' count) (h' : c'.Writes c'' count) : c.Writes c'' count :=
  ⟨h'.covers, h'.reach_eq.trans h.reach_eq, h.size_le.trans h'.size_le⟩

theorem Covers.writes_refl (hc : c.Covers count) : c.Writes c count := ⟨hc, rfl, Nat.le_refl _⟩

/-- The reach is told by the file and by the bitmaps behind it. -/
theorem reach_of_le (c : BitmapCache m) {k : Nat} (hk : count ≤ k) :
    c.reach k = max (c.reach count) ((range k).sup fun e => pageEnd (bitmapPage e)) := by
  have hle := sup_mono (f := fun e => pageEnd (bitmapPage e)) (range_subset_range.2 hk)
  rw [reach, reach, Nat.max_assoc, Nat.max_eq_right hle]

theorem reach_congr {m' : Nat} {c' : BitmapCache m'} (h : c'.reach count = c.reach count) {k : Nat}
    (hk : count ≤ k) : c'.reach k = c.reach k := by
  rw [reach_of_le c' hk, reach_of_le c hk, h]

/-- Nothing is written where the file and the dirty slots stay. -/
theorem Covers.writes_of_same (hc : c.Covers count)
    (hsize : c'.device.image.size = c.device.image.size)
    (hdirty : ∀ e < count, ∀ g : Fin m, c.slots[g].extent = some e → c.slots[g].dirty = true →
      ∃ g : Fin m, c'.slots[g].extent = some e ∧ c'.slots[g].dirty = true) : c.Writes c' count := by
  refine ⟨fun e he => ?_, by rw [reach, reach, hsize], Nat.le_of_eq hsize.symm⟩
  rcases hc e he with ⟨g, hg, hd⟩ | hin
  · exact .inl (hdirty e he g hg hd)
  · exact .inr (hsize ▸ hin)

/-! ## What the cache does by itself -/

/-- A bitmap that is written back lies before the reach. -/
theorem writes_writeBack (hs : c.Sound count) (hc : c.Covers count) (f : Fin m) :
    c.Writes (c.writeBack f) count := by
  rcases clean_or_dirty c f with hclean | ⟨e, he, hd⟩
  · rw [writeBack_of_clean hclean]
    exact hc.writes_refl
  · have hsize : (c.writeBack f).device.image.size =
        max c.device.image.size (pageEnd (bitmapPage e)) := by
      rw [writeBack_of_dirty he hd]
      rfl
    refine ⟨fun d hd' => ?_, ?_, hsize ▸ Nat.le_max_left ..⟩
    · rw [hsize]
      rcases hc d hd' with ⟨g, hg, hdirty⟩ | hin
      · by_cases hgf : g = f
        · subst hgf
          obtain rfl : e = d := Option.some.inj (he.symm.trans hg)
          exact .inr (Nat.le_max_right ..)
        · refine .inl ⟨g, (writeBack_extent c f g).trans hg, ?_⟩
          rw [writeBack_dirty_of_ne hgf, hdirty]
      · exact .inr (hin.trans (Nat.le_max_left ..))
    · have hle : pageEnd (bitmapPage e) ≤ c.reach count := c.pageEnd_le_reach (hs.lt_count f e he)
      rw [reach, hsize, Nat.max_right_comm]
      exact Nat.max_eq_left hle

theorem writes_writeBacks (l : List (Fin m)) (hs : c.Sound count) (hc : c.Covers count) :
    c.Writes (l.foldl writeBack c) count := by
  induction l generalizing c with
  | nil => exact hc.writes_refl
  | cons f l ih =>
    have hw := writes_writeBack hs hc f
    exact hw.trans (ih (sound_writeBack hs f).1 hw.covers)

/-- **A flush** makes the file as long as it will be. -/
theorem size_flush (hs : c.Sound count) (hc : c.Covers count) :
    c.Writes c.flush count ∧ c.flush.device.image.size = c.reach count := by
  have hw : c.Writes c.flush count := writes_writeBacks (List.finRange m) hs hc
  obtain ⟨-, -, hslots⟩ := sound_writeBacks (List.finRange m) hs
  refine ⟨hw, ?_⟩
  rw [← hw.reach_eq, reach]
  refine (Nat.max_eq_left (Finset.sup_le fun e he => ?_)).symm
  refine (hw.covers e (mem_range.1 he)).resolve_left ?_
  rintro ⟨g, hg, hdirty⟩
  obtain ⟨hext, hnone⟩ := hslots g
  have hsome : c.slots[g].extent = some e := hext.symm.trans hg
  rw [(hnone hdirty).2 (List.mem_finRange g)] at hsome
  cases hsome

theorem writes_vacate (hs : c.Sound count) (hc : c.Covers count) (f : Fin m) :
    c.Writes (c.vacate f) count := by
  rcases he : c.slots[f].extent with _ | e
  · rw [vacate_of_none he]
    exact hc.writes_refl
  · have hw := writes_writeBack hs hc f
    have hclean : (c.writeBack f).slots[f].dirty = false := writeBack_dirty_self he
    rw [vacate_of_some he]
    refine hw.trans (hw.covers.writes_of_same rfl fun d _ g hg hd => ⟨g, ?_⟩)
    -- the slot that is emptied was not dirty
    have hgf : g ≠ f := by
      rintro rfl
      rw [hclean] at hd
      cases hd
    rw [slots_clear, if_neg hgf]
    exact ⟨hg, hd⟩

theorem writes_take (hs : c.Sound count) (hc : c.Covers count) (hrun : take c = .ok f c') :
    c.Writes c' count := by
  rcases hfree : c.free with _ | ⟨g, rest⟩
  · rcases hv : c.recency.victim with ⟨_ | g, r⟩
    · simp only [take, hfree, hv] at hrun
      cases hrun
    · have htake : take c = .ok g ({ c with recency := r }.vacate g) := by
        simp only [take, hfree, hv]
      rw [htake] at hrun
      cases hrun
      have hw := writes_vacate hs hc f
      rw [vacate_recency]
      exact ⟨hw.covers, hw.reach_eq, hw.size_le⟩
  · simp only [take, hfree] at hrun
    cases hrun
    exact ⟨hc, rfl, Nat.le_refl _⟩

/-- A slot that was taken keeps nothing. -/
theorem extent_of_take (hs : c.Sound count) (hrun : take c = .ok f c') :
    c'.slots[f].extent = none := by
  obtain ⟨g, c₁, htake, hs₁, -⟩ := take_eq_ok hs
  rw [hrun] at htake
  cases htake
  exact hs₁.unused f List.mem_cons_self

/-- A bitmap that moves into an empty slot. -/
theorem writes_place (hc : c.Covers count) (hnone : c.slots[f].extent = none) (bits : Page)
    (dirty : Bool) : c.Writes (c.place f e bits dirty) count := by
  refine hc.writes_of_same rfl fun d _ g hg hd => ⟨g, ?_⟩
  have hgf : g ≠ f := by
    rintro rfl
    rw [hnone] at hg
    cases hg
  rw [slots_place, if_neg hgf]
  exact ⟨hg, hd⟩

/-- **Fetching a bitmap** writes no more than the one that has to make way. -/
theorem writes_fetch (hs : c.Sound count) (hc : c.Covers count) (hrun : fetch e c = .ok f c') :
    c.Writes c' count := by
  rw [fetch, Action.get_bind] at hrun
  rcases ht : c.table[e]? with _ | g
  · simp only [ht] at hrun
    obtain ⟨g, c₁, htake, hrun⟩ := Action.bind_eq_ok_iff.1 hrun
    cases hrun
    have hw := writes_take hs hc htake
    have hnone := extent_of_take hs htake
    have hload : Covers { c₁ with device := (c₁.device.load (bitmapPage e)).2 } count := hw.covers
    have hw' := writes_place (e := e) hload hnone (c₁.device.load (bitmapPage e)).1 false
    exact ⟨hw'.covers, hw'.reach_eq.trans hw.reach_eq, hw.size_le.trans hw'.size_le⟩
  · simp only [ht] at hrun
    cases hrun
    exact ⟨hc, rfl, Nat.le_refl _⟩

/-- **A new bitmap** waits to be written. -/
theorem covers_install (hs : c.Sound count) (hc : c.Covers count)
    (hrun : install count c = .ok () c') :
    c'.Covers (count + 1) ∧ c'.reach (count + 1) = c.reach (count + 1) ∧
      c.device.image.size ≤ c'.device.image.size := by
  rw [install] at hrun
  obtain ⟨f, c₁, htake, hplace⟩ := Action.bind_eq_ok_iff.1 hrun
  cases hplace
  have hw := writes_take hs hc htake
  have hw' := hw.trans
    (writes_place (e := count) hw.covers (extent_of_take hs htake) Bitmap.empty true)
  refine ⟨fun d hd => ?_, reach_congr hw'.reach_eq (Nat.le_succ _), hw'.size_le⟩
  rcases Nat.lt_or_eq_of_le (Nat.le_of_lt_succ hd) with hlt | rfl
  · exact hw'.covers d hlt
  · have hslot : (c₁.place f d Bitmap.empty true).slots[f] = ⟨some d, true, Bitmap.empty⟩ := by
      rw [slots_place, if_pos rfl]
    exact .inl ⟨f, by rw [hslot], by rw [hslot]⟩

/-- A bitmap that changes waits to be written. -/
theorem writes_edit (hc : c.Covers count) (f : Fin m) (bits : Page) :
    c.Writes (c.edit f bits) count := by
  refine hc.writes_of_same rfl fun d _ g hg hd => ⟨g, ?_⟩
  rw [slots_edit]
  split
  · next hgf => exact ⟨hgf ▸ hg, rfl⟩
  · exact ⟨hg, hd⟩

/-- A page of data that is written leaves the bitmaps waiting. -/
theorem covers_store (hc : c.Covers count) (q : UInt32) (data : Page) :
    Covers { c with device := c.device.store q data } count := fun e he =>
  (hc e he).imp_right fun hin => hin.trans (Nat.le_max_left ..)

end BitmapCache

end PageStore
