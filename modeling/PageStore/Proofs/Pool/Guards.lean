import PageStore.Proofs.Pool.View

/-!
# What can be done with a guard

* `Sound.release`: giving a guard back changes no page;
* `Sound.edit_eq_ok`: a change under a write guard changes the guarded page and no other;
* `Sound.edit_eq_error`: a change that stops leaves every page as it was.
-/

namespace PageStore

/-- The frame after one of its guards was given back. -/
def Frame.letGo (changed : Bool) (frame : Frame) : Frame where
  page := frame.page
  pins := frame.pins - 1
  dirty := frame.dirty || changed
  latch := frame.latch.release
  data := frame.data

/-- Bytes that were changed were changed by a writer. -/
theorem Latch.Fits.of_isChanged {l : Latch} {modes : List Mode} (h : l.Fits modes)
    (hc : l.isChanged = true) : modes = [.write] := by
  cases l with
  | free => cases hc
  | shared readers => cases hc
  | exclusive changed => exact h

namespace Pool

variable {n m : Nat}

theorem editFrame_editFrame (f : Fin n) (change change' : Frame → Frame) (pool : Pool n m) :
    editFrame f change' (editFrame f change pool) =
      editFrame f (fun x => change' (change x)) pool := by
  simp [editFrame]

theorem getElem_editFrame (f d : Fin n) (change : Frame → Frame) (pool : Pool n m) :
    (editFrame f change pool).frames[d] = if d = f then change pool.frames[f] else pool.frames[d] :=
  getElem_set_fin ..

/-- The last pin that is taken off a page makes its frame a candidate. -/
theorem unpin_eq {pool : Pool n m} {p : PageId} {f : Fin n} (ht : pool.table[p]? = some f)
    (hpins : pool.frames[f].pins ≠ 0) (changed : Bool) :
    pool.unpin p changed =
      { editFrame f (fun x => { x with dirty := x.dirty || changed, pins := x.pins - 1 }) pool with
        replacer := if pool.frames[f].pins - 1 = 0 then pool.replacer.unpin f
          else pool.replacer } := by
  have hself : (editFrame f (fun x => { x with dirty := x.dirty || changed }) pool).frames[f] =
      { pool.frames[f] with dirty := pool.frames[f].dirty || changed } :=
    (getElem_editFrame ..).trans (if_pos rfl)
  rw [unpin, ht]
  dsimp only
  rw [hself, Frame.unpin, if_neg hpins]
  simp only [editFrame_editFrame]
  by_cases h : pool.frames[f].pins - 1 = 0
  · rw [if_pos h, if_pos h]
    rfl
  · rw [if_neg h, if_neg h]
    rfl

/-- Giving a guard back changes its frame, and tells the replacer of the last pin. -/
theorem release_eq {pool : Pool n m} {g : Guard n} (ht : pool.table[g.page]? = some g.frame)
    (hpins : pool.frames[g.frame].pins ≠ 0) :
    pool.release g =
      { editFrame g.frame
          (Frame.letGo (g.mode = .write && pool.frames[g.frame].latch.isChanged)) pool with
        replacer := if pool.frames[g.frame].pins - 1 = 0 then pool.replacer.unpin g.frame
          else pool.replacer } := by
  let pool' := editFrame g.frame (fun x => { x with latch := x.latch.release }) pool
  have hself : pool'.frames[g.frame] =
      { pool.frames[g.frame] with latch := pool.frames[g.frame].latch.release } :=
    (getElem_editFrame ..).trans (if_pos rfl)
  have ht' : pool'.table[g.page]? = some g.frame := ht
  rw [release]
  change pool'.unpin g.page _ = _
  rw [unpin_eq ht' (by rwa [hself])]
  simp only [hself, pool', editFrame_editFrame]
  rfl

/-- A writer holds page `p`. -/
def hasWriter (gs : List (Guard n)) (p : PageId) : Bool :=
  gs.any fun g => g.page = p ∧ g.mode = .write

namespace Sound

variable {pool : Pool n m} {g : Guard n} {gs : List (Guard n)}

/-- Editing a frame that has a page changes that page at most. -/
theorem pages_editFrame (h : Sound pool gs) {f : Fin n} (hf : pool.frames[f].page ≠ .none)
    (change : Frame → Frame) : (editFrame f change pool).pages =
      Function.update pool.pages pool.frames[f].page (some (change pool.frames[f]).data) :=
  h.pages_set_frame hf rfl rfl rfl

/-- **Giving a guard back** changes no page. -/
theorem release (h : Sound pool (g :: gs)) :
    Sound (pool.release g) gs ∧ (pool.release g).pages = pool.pages := by
  have hg : g ∈ g :: gs := List.mem_cons_self
  have hfit := h.frame g.frame
  rw [modesOn_cons, if_pos rfl] at hfit
  have hpins : pool.frames[g.frame].pins = (modesOn gs g.frame).length + 1 := hfit.pins_eq
  rw [release_eq (h.table_guard hg) (by omega)]
  refine ⟨h.set_frame _ rfl rfl rfl rfl rfl (fun d => ?_) (fun d hd => h.guard d (.tail _ hd))
    (fun d hd => ?_) ⟨?_, hfit.latch.release, hfit.member, fun hpage hdirty _ => ?_⟩,
    pages_of_data_eq _ rfl rfl rfl rfl⟩
  · by_cases hd : d = g.frame
    · rw [if_pos hd, hd]
      by_cases hlast : pool.frames[g.frame].pins - 1 = 0
      · refine iff_of_true ?_ ⟨(h.guard g hg).2 ▸ (h.guard g hg).1, hlast⟩
        rw [if_pos hlast]
        exact Replacer.isCandidate_unpin.2 (.inl rfl)
      · refine iff_of_false ?_ fun hc => hlast hc.2
        rw [if_neg hlast]
        exact fun hc => absurd ((h.candidate_iff g.frame).1 hc).2 (by omega)
    · rw [if_neg hd]
      split
      · exact Replacer.isCandidate_unpin.trans (or_iff_right hd)
      · exact Iff.rfl
  · rw [modesOn_cons, if_neg (Ne.symm hd)]
  · change pool.frames[g.frame].pins - 1 = _
    omega
  · -- a writer that changed the bytes leaves the frame dirty
    obtain ⟨hclean, hchanged⟩ := Bool.or_eq_false_iff.1 hdirty
    refine hfit.clean hpage hclean ?_
    by_contra hc
    have hc' : pool.frames[g.frame].latch.isChanged = true := by simpa using hc
    have hmode := (List.cons.inj (hfit.latch.of_isChanged hc')).1
    rw [hc', hmode] at hchanged
    cases hchanged

/-- The candidates stay the same where the pages and the pins do. -/
theorem candidate_iff_of_pins (h : Sound pool gs) {f : Fin n} {frame : Frame}
    (hpage : frame.page = pool.frames[f].page) (hpins : frame.pins = pool.frames[f].pins)
    (d : Fin n) : pool.replacer.IsCandidate d ↔
      if d = f then frame.page ≠ .none ∧ frame.pins = 0 else pool.replacer.IsCandidate d := by
  by_cases hd : d = f
  · rw [if_pos hd, hd, hpage, hpins]
    exact h.candidate_iff f
  · rw [if_neg hd]

/-- A write guard has the latch to itself. -/
theorem latch_of_write (h : Sound pool gs) (hg : g ∈ gs) (hw : g.mode = .write) :
    modesOn gs g.frame = [.write] ∧ ∃ changed, pool.frames[g.frame].latch = .exclusive changed := by
  have hmem : Mode.write ∈ modesOn gs g.frame :=
    List.mem_map.2 ⟨g, List.mem_filter.2 ⟨hg, by simp⟩, hw⟩
  obtain ⟨changed, hlatch⟩ := (h.frame g.frame).latch.of_write hmem
  have hfit := (h.frame g.frame).latch
  rw [hlatch] at hfit
  exact ⟨hfit, changed, hlatch⟩

/-- Readers are let in to a page exactly as long as no writer holds it. -/
theorem admits_read_eq (h : pool.Sound gs) {p : PageId} {f : Fin n} (ht : pool.table[p]? = some f) :
    pool.frames[f].latch.admits .read = !hasWriter gs p := by
  obtain ⟨-, hpage⟩ := (h.table_iff p f).1 ht
  rw [Bool.eq_iff_iff, Latch.admits_read_iff, Bool.not_eq_true', hasWriter, List.any_eq_false]
  constructor
  · rintro hopen g hg hwrites
    obtain ⟨hgp, hgw⟩ := of_decide_eq_true hwrites
    have hgf : g.frame = f := Option.some.inj ((h.table_guard hg).symm.trans (hgp ▸ ht))
    obtain ⟨-, changed, hlatch⟩ := h.latch_of_write hg hgw
    exact hopen changed (hgf ▸ hlatch)
  · intro hnone changed hlatch
    have hmodes := (h.frame f).latch
    rw [hlatch] at hmodes
    have hmem : Mode.write ∈ modesOn gs f := by
      rw [show modesOn gs f = [.write] from hmodes]
      exact List.mem_singleton_self _
    obtain ⟨g, hg, hgw⟩ := List.mem_map.1 hmem
    obtain ⟨hgs, hgf⟩ := List.mem_filter.1 hg
    refine hnone g hgs (decide_eq_true ⟨?_, hgw⟩)
    rw [← (h.guard g hgs).2, of_decide_eq_true hgf, hpage]

/-- A writer is alone on its page. -/
theorem page_ne_of_write (h : Sound pool (g :: gs)) {d : Guard n} (hd : d ∈ gs)
    (hw : g.mode = .write ∨ d.mode = .write) : d.page ≠ g.page := by
  intro hp
  have hframe : d.frame = g.frame := by
    have hlook := h.table_guard (.tail _ hd)
    rw [hp, h.table_guard List.mem_cons_self] at hlook
    exact (Option.some.inj hlook).symm
  have hmodes : ∃ e ∈ g :: gs, e.mode = .write ∧ e.frame = g.frame := by
    rcases hw with hw | hw
    · exact ⟨g, List.mem_cons_self, hw, rfl⟩
    · exact ⟨d, .tail _ hd, hw, hframe⟩
  obtain ⟨e, he, hew, hef⟩ := hmodes
  have hone := (h.latch_of_write he hew).1
  rw [hef, modesOn_cons, if_pos rfl] at hone
  have hnil := (List.cons.inj hone).2
  exact modesOn_eq_nil_iff.1 hnil d hd hframe

/-- What is under a changed latch does not have to be on disk, so the bytes of a frame can be any
once its latch says so. -/
theorem set_changed (h : Sound pool gs) (hg : g ∈ gs) (hw : g.mode = .write) {frame : Frame}
    (hpage : frame.page = pool.frames[g.frame].page)
    (hpins : frame.pins = pool.frames[g.frame].pins) (hlatch : frame.latch = .exclusive true) :
    Sound { pool with frames := pool.frames.set g.frame frame g.frame.isLt } gs := by
  have hfit := h.frame g.frame
  refine h.set_frame _ rfl rfl rfl rfl hpage (h.candidate_iff_of_pins hpage hpins) h.guard
    (fun _ _ => rfl) ⟨hpins.trans hfit.pins_eq, ?_, ?_, fun _ _ hc => ?_⟩
  · rw [hlatch]
    exact (h.latch_of_write hg hw).1
  · rw [hpage]
    exact hfit.member
  · rw [hlatch] at hc
    cases hc

/-- Counting the bytes as changed changes none. -/
theorem mark (h : Sound pool gs) (hg : g ∈ gs) (hw : g.mode = .write) :
    Sound (pool.mark g) gs ∧ (pool.mark g).pages = pool.pages ∧
      (pool.mark g).frames[g.frame].latch = .exclusive true := by
  obtain ⟨-, changed, hlatch⟩ := h.latch_of_write hg hw
  have hmark : pool.frames[g.frame].latch.mark = .exclusive true := by rw [hlatch]; rfl
  refine ⟨h.set_changed hg hw rfl rfl hmark, pages_of_data_eq _ rfl rfl rfl rfl, ?_⟩
  rw [Pool.mark, getElem_editFrame, if_pos rfl]
  exact hmark

/-- **A change under a write guard** is the change of one page. -/
theorem edit_eq_ok (h : Sound pool gs) (hg : g ∈ gs) (hw : g.mode = .write)
    (change : Page → Except Halt Page) {data : Page} (hc : change (pool.bytes g) = .ok data) :
    ∃ pool', edit g change pool = .ok () pool' ∧ Sound pool' gs ∧
      pool'.pages = Function.update pool.pages g.page (some data) := by
  obtain ⟨hs, hpages, hlatch⟩ := h.mark hg hw
  have hbytes : (pool.mark g).bytes g = pool.bytes g :=
    Option.some.inj (by rw [← hs.pages_guard hg, ← h.pages_guard hg, hpages])
  refine ⟨editFrame g.frame ({ · with data }) (pool.mark g), ?_,
    hs.set_changed hg hw rfl rfl hlatch, ?_⟩
  · rw [edit, Action.modify_bind, Action.get_bind,
      Action.bind_of_ok (Action.liftM_ok (hbytes ▸ hc) _)]
    rfl
  · have hpage := hs.guard g hg
    have hne : (pool.mark g).frames[g.frame].page ≠ .none := by rw [hpage.2]; exact hpage.1
    rw [hs.pages_editFrame hne, hpages, hpage.2]

/-- **A change that stops** leaves every page as it was. -/
theorem edit_eq_error (h : Sound pool gs) (hg : g ∈ gs) (hw : g.mode = .write)
    {change : Page → Except Halt Page} {e : Halt} (hc : change (pool.bytes g) = .error e) :
    ∃ pool', edit g change pool = .error e pool' ∧ Sound pool' gs ∧ pool'.pages = pool.pages := by
  obtain ⟨hs, hpages, -⟩ := h.mark hg hw
  have hbytes : (pool.mark g).bytes g = pool.bytes g :=
    Option.some.inj (by rw [← hs.pages_guard hg, ← h.pages_guard hg, hpages])
  refine ⟨pool.mark g, ?_, hs, hpages⟩
  rw [edit, Action.modify_bind, Action.get_bind,
    Action.bind_of_error (Action.liftM_error (hbytes ▸ hc) _)]

end Sound

end Pool

end PageStore
