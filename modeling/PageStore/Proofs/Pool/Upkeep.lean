import PageStore.Proofs.Pool.Guards

/-!
# Upkeep keeps the map

* `Sound.flush_keeps` and `Sound.flushAll_eq_ok`: writing pages back changes none, and a full
  flush writes every dirty page that no writer holds;
* `Sound.delete_cases`: a page that nobody holds is deleted, and no other with it;
* `Sound.close`: what a pool without guards leaves behind on disk are its newest bytes;
* `sound_empty`: a pool that is started on a disk stands for what is there.
-/

namespace PageStore.Pool

open Finset

variable {n m : Nat}

namespace Sound

variable {pool : Pool n m} {gs : List (Guard n)}

/-! ## Writing back -/

/-- A frame whose bytes went to disk is not dirty any more, and only its page is another one on
disk. -/
theorem write_frame (h : Sound pool gs) {f : Fin n} (hf : pool.frames[f].page ≠ .none) :
    ∃ s, onSpace (Space.write pool.frames[f].page pool.frames[f].data) pool =
        .ok () { pool with space := s } ∧
      Sound (editFrame f ({ · with dirty := false }) { pool with space := s }) gs ∧
      (editFrame f ({ · with dirty := false }) { pool with space := s }).pages = pool.pages ∧
      s.extents = pool.space.extents ∧
      ∀ p : PageId, p.isInRange = true → p ≠ pool.frames[f].page →
        s.stored p = pool.space.stored p := by
  have hmem := (h.frame f).member hf
  obtain ⟨s, hwrite, hs, hmems, hext, hst⟩ :=
    h.space.write_eq_ok (h.space.isInRange_of_mem hmem) pool.frames[f].data
  have hst' : ∀ q : PageId, q.isInRange = true → s.stored q =
      if q = pool.frames[f].page then pool.frames[f].data else pool.space.stored q := by
    intro q hq
    simp only [hst q hq, hmem, and_true]
  obtain ⟨h', hpages, hself⟩ := h.space_written hf hs hmems hst'
  have hfit := h'.frame f
  let frame : Frame := { pool.frames[f] with dirty := false }
  have hclean : frame.Fits s (modesOn gs f) :=
    ⟨hfit.pins_eq, hfit.latch, hfit.member, fun _ _ _ => hself.symm⟩
  refine ⟨s, onSpace_ok hwrite, h'.set_frame frame rfl rfl rfl rfl rfl
    (h'.candidate_iff_of_pins rfl rfl) h'.guard (fun _ _ => rfl) hclean, ?_, hext,
    fun p hp hne => (hst' p hp).trans (if_neg hne)⟩
  rw [h'.pages_editFrame hf, hpages, Function.update_eq_self_iff]
  exact (pages_eq_some_iff.2 ⟨hmem, contents_of_table ((h.table_iff _ f).2 ⟨hf, rfl⟩)⟩).symm

/-- A frame that a writer holds is not written back. -/
theorem flushFrame_of_held {f : Fin n} (hlatch : pool.frames[f].latch.admits .read = false) :
    flushFrame f pool = .ok false pool := by
  rw [flushFrame, Action.get_bind]
  simp only [hlatch, Bool.not_false, if_true]
  rfl

/-- Any other frame is. -/
theorem flushFrame_of_open {f : Fin n} (hlatch : pool.frames[f].latch.admits .read = true)
    {s : Space m} (hwrite : onSpace (Space.write pool.frames[f].page pool.frames[f].data) pool =
      .ok () { pool with space := s }) :
    flushFrame f pool =
      .ok true (editFrame f ({ · with dirty := false }) { pool with space := s }) := by
  rw [flushFrame, Action.get_bind]
  simp only [hlatch, Bool.not_true, Bool.false_eq_true, if_false]
  rw [Action.bind_of_ok hwrite]
  rfl

/-- Writing a frame back changes no page. -/
theorem flushFrame_eq_ok (h : Sound pool gs) {f : Fin n} (hf : pool.frames[f].page ≠ .none) :
    ∃ b pool', flushFrame f pool = .ok b pool' ∧ Sound pool' gs ∧ pool'.pages = pool.pages := by
  by_cases hlatch : pool.frames[f].latch.admits .read = true
  · obtain ⟨s, hwrite, hs, hpages, -⟩ := h.write_frame hf
    exact ⟨true, _, flushFrame_of_open hlatch hwrite, hs, hpages⟩
  · exact ⟨false, pool, flushFrame_of_held (by simpa using hlatch), h, rfl⟩

/-- Flushing looks at a page that is in a frame, and does nothing for any other. -/
theorem flush_eq {p : PageId} (hp : p.isSome = true) :
    flush p pool = match pool.table[p]? with
      | none => .ok false pool
      | some f => flushFrame f pool := by
  simp only [flush, hp, Bool.not_true, Bool.false_eq_true, if_false]
  rw [Action.get_bind]
  rcases pool.table[p]? with _ | f <;> rfl

/-- **Flushing a page** changes none, whether the page is written or not. -/
theorem flush_eq_ok (h : Sound pool gs) {p : PageId} (hp : p.isSome = true) :
    ∃ b pool', flush p pool = .ok b pool' ∧ Sound pool' gs ∧ pool'.pages = pool.pages := by
  rw [flush_eq hp]
  rcases ht : pool.table[p]? with _ | f
  · exact ⟨false, pool, rfl, h, rfl⟩
  · obtain ⟨hne, hpage⟩ := (h.table_iff p f).1 ht
    exact h.flushFrame_eq_ok (hpage.symm ▸ hne)

theorem flush_keeps (h : Sound pool gs) (p : PageId) :
    (∃ b pool', flush p pool = .ok b pool' ∧ Sound pool' gs ∧ pool'.pages = pool.pages) ∨
      ∃ e, flush p pool = .error e pool := by
  by_cases hp : p.isSome = true
  · exact .inl (h.flush_eq_ok hp)
  · refine .inr ⟨.refused (.invalidPage p), ?_⟩
    simp only [flush, hp, Bool.not_false, if_true]
    rfl

end Sound

/-- The frame has to be written: it holds a dirty page, and no writer holds it. -/
def isDue (f : Fin n) (pool : Pool n m) : Bool :=
  pool.isCurrent f && pool.frames[f].dirty && pool.frames[f].latch.admits .read

/-- The frames in `l` that had to be written were written. -/
structure Flushed (l : List (Fin n)) (pool pool' : Pool n m) : Prop where
  /-- every page stays in its frame -/
  table_eq : pool'.table = pool.table
  /-- no page is another one -/
  pages_eq : pool'.pages = pool.pages
  /-- the file has not grown -/
  extents_eq : pool'.space.extents = pool.space.extents
  /-- a frame that was written is not dirty any more, and no other frame is changed -/
  frame_eq : ∀ f : Fin n, pool'.frames[f] =
    if f ∈ l ∧ pool.isDue f then { pool.frames[f] with dirty := false } else pool.frames[f]
  /-- a page that was not written is on disk what it was before -/
  stored_eq : ∀ p : PageId, p.isInRange = true →
    (∀ f ∈ l, pool.isDue f → pool.frames[f].page ≠ p) →
    pool'.space.stored p = pool.space.stored p

/-- Nothing is written where no frame has to be. -/
theorem Flushed.refl {pool : Pool n m} {l : List (Fin n)}
    (hl : ∀ f ∈ l, pool.isDue f = false) : Flushed l pool pool where
  table_eq := rfl
  pages_eq := rfl
  extents_eq := rfl
  frame_eq f := by
    refine (if_neg ?_).symm
    rintro ⟨hf, hdue⟩
    rw [hl f hf] at hdue
    cases hdue
  stored_eq _ _ _ := rfl

/-- Frames that do not have to be written can be left out. -/
theorem Flushed.cons_of_not_due {pool pool' : Pool n m} {d : Fin n} {l : List (Fin n)}
    (h : Flushed l pool pool') (hd : pool.isDue d = false) : Flushed (d :: l) pool pool' where
  table_eq := h.table_eq
  pages_eq := h.pages_eq
  extents_eq := h.extents_eq
  frame_eq f := by
    rw [h.frame_eq f]
    refine if_congr (and_congr_left fun hdue => ?_) rfl rfl
    rw [List.mem_cons]
    refine (or_iff_right ?_).symm
    rintro rfl
    rw [hd] at hdue
    cases hdue
  stored_eq p hp hne := h.stored_eq p hp fun f hf => hne f (.tail _ hf)

/-- A frame that was written does not have to be written, and the others have to if they had to. -/
theorem isDue_write (pool : Pool n m) (s : Space m) {d f : Fin n} (hne : f ≠ d) :
    (editFrame d ({ · with dirty := false }) { pool with space := s }).isDue f = pool.isDue f := by
  rw [isDue, isDue, isCurrent, isCurrent, getElem_editFrame, if_neg hne]
  rfl

/-- One frame is written, and then the others. -/
theorem Flushed.cons_of_due {pool pool' : Pool n m} {d : Fin n} {l : List (Fin n)} {s : Space m}
    (h : Flushed l (editFrame d ({ · with dirty := false }) { pool with space := s }) pool')
    (hd : d ∉ l) (hdue : pool.isDue d = true)
    (hpages : (editFrame d ({ · with dirty := false }) { pool with space := s }).pages = pool.pages)
    (hext : s.extents = pool.space.extents)
    (hst : ∀ p : PageId, p.isInRange = true → p ≠ pool.frames[d].page →
      s.stored p = pool.space.stored p) : Flushed (d :: l) pool pool' where
  table_eq := h.table_eq
  pages_eq := h.pages_eq.trans hpages
  extents_eq := h.extents_eq.trans hext
  frame_eq f := by
    rw [h.frame_eq, getElem_editFrame]
    by_cases hfd : f = d
    · subst hfd
      have hmem : f ∈ f :: l ∧ pool.isDue f = true := ⟨List.mem_cons_self, hdue⟩
      rw [if_pos hmem, if_pos rfl, ite_self]
    · rw [if_neg hfd, isDue_write pool s hfd]
      refine if_congr (and_congr_left' ?_) rfl rfl
      exact (List.mem_cons.trans (or_iff_right hfd)).symm
  stored_eq p hp hne := by
    refine (h.stored_eq p hp fun f hf hdue' => ?_).trans
      (hst p hp (hne d List.mem_cons_self hdue).symm)
    have hfd : f ≠ d := fun e => hd (e ▸ hf)
    rw [isDue_write pool s hfd] at hdue'
    rw [getElem_editFrame, if_neg hfd]
    exact hne f (.tail _ hf) hdue'

section All

variable {pool pool' : Pool n m} (h : Flushed (List.finRange n) pool pool')

include h

theorem Flushed.page_latch_eq (f : Fin n) : pool'.frames[f].page = pool.frames[f].page ∧
    pool'.frames[f].latch = pool.frames[f].latch := by
  rw [h.frame_eq]
  split <;> exact ⟨rfl, rfl⟩

/-- A frame is dirty after a full flush when it was dirty and did not have to be written. -/
theorem Flushed.dirty_eq (f : Fin n) :
    pool'.frames[f].dirty = (pool.frames[f].dirty && !pool.isDue f) := by
  rw [h.frame_eq]
  cases hdue : pool.isDue f with
  | true => rw [if_pos ⟨List.mem_finRange f, rfl⟩, Bool.not_true, Bool.and_false]
  | false => rw [if_neg fun hc => Bool.noConfusion hc.2, Bool.not_false, Bool.and_true]

/-- No frame has to be written after a full flush. -/
theorem Flushed.isDue_eq_false (f : Fin n) : pool'.isDue f = false := by
  obtain ⟨hpage, hlatch⟩ := h.page_latch_eq f
  have hcurrent : pool'.isCurrent f = pool.isCurrent f := by
    rw [isCurrent, isCurrent, h.table_eq, hpage]
  rw [isDue, hcurrent, hlatch, h.dirty_eq, isDue]
  cases pool.isCurrent f <;> cases pool.frames[f].dirty <;>
    cases pool.frames[f].latch.admits .read <;> rfl

end All

/-- A dirty page in a frame is looked at, whether it is written or not. -/
theorem flushFrames_cons_of_dirty {pool pool₁ pool' : Pool n m} {d : Fin n} {rest : List (Fin n)}
    (hc : (pool.isCurrent d && pool.frames[d].dirty) = true) {b : Bool} {k : Nat}
    (hone : flushFrame d pool = .ok b pool₁) (hrest : flushFrames rest pool₁ = .ok k pool') :
    flushFrames (d :: rest) pool = .ok (k + if b then 1 else 0) pool' := by
  rw [flushFrames, Action.get_bind, Action.get_bind]
  simp only [hc, if_true]
  rw [Action.bind_of_ok hone, Action.bind_of_ok hrest]
  rfl

theorem flushFrames_cons_of_clean {pool : Pool n m} {d : Fin n} {rest : List (Fin n)}
    (hc : (pool.isCurrent d && pool.frames[d].dirty) = false) :
    flushFrames (d :: rest) pool = flushFrames rest pool := by
  rw [flushFrames, Action.get_bind, Action.get_bind]
  simp only [hc]
  rfl

/-- Where no frame has to be written, a flush does nothing. -/
theorem flushFrames_of_not_due {pool : Pool n m} {l : List (Fin n)}
    (hl : ∀ f ∈ l, pool.isDue f = false) : flushFrames l pool = .ok 0 pool := by
  induction l with
  | nil => rfl
  | cons d rest ih =>
    have hrest := ih fun f hf => hl f (.tail _ hf)
    have hdue := hl d List.mem_cons_self
    cases hc : pool.isCurrent d && pool.frames[d].dirty with
    | false => rw [flushFrames_cons_of_clean hc, hrest]
    | true =>
      rw [isDue, hc, Bool.true_and] at hdue
      exact flushFrames_cons_of_dirty hc (Sound.flushFrame_of_held hdue) hrest

namespace Sound

variable {pool : Pool n m} {gs : List (Guard n)}

/-- A frame that holds a page is looked up under it. -/
theorem isCurrent_iff (h : Sound pool gs) {f : Fin n} :
    pool.isCurrent f = true ↔ pool.frames[f].page ≠ .none := by
  rw [isCurrent, decide_eq_true_eq, h.table_iff]
  exact and_iff_left rfl

/-- **Writing some frames back** writes those that have to be written, and counts them. -/
theorem flushFrames_eq_ok {l : List (Fin n)} (hl : l.Nodup) (h : Sound pool gs) :
    ∃ pool', flushFrames l pool = .ok (l.countP (pool.isDue ·)) pool' ∧ Sound pool' gs ∧
      Flushed l pool pool' := by
  induction l generalizing pool with
  | nil => exact ⟨pool, rfl, h, .refl nofun⟩
  | cons d rest ih =>
    obtain ⟨hd, hrest⟩ := List.nodup_cons.1 hl
    cases hc : pool.isCurrent d && pool.frames[d].dirty with
    | false =>
      have hdue : pool.isDue d = false := by rw [isDue, hc, Bool.false_and]
      obtain ⟨pool', hrun, h', hflushed⟩ := ih hrest h
      refine ⟨pool', ?_, h', hflushed.cons_of_not_due hdue⟩
      rw [flushFrames_cons_of_clean hc,
        List.countP_cons_of_neg (p := (pool.isDue ·)) (ne_true_of_eq_false hdue)]
      exact hrun
    | true =>
      cases hlatch : pool.frames[d].latch.admits .read with
      | false =>
        have hdue : pool.isDue d = false := by rw [isDue, hlatch, Bool.and_false]
        obtain ⟨pool', hrun, h', hflushed⟩ := ih hrest h
        refine ⟨pool', ?_, h', hflushed.cons_of_not_due hdue⟩
        rw [List.countP_cons_of_neg (p := (pool.isDue ·)) (ne_true_of_eq_false hdue)]
        exact flushFrames_cons_of_dirty hc (flushFrame_of_held hlatch) hrun
      | true =>
        have hdue : pool.isDue d = true := by rw [isDue, hc, hlatch, Bool.and_self]
        have hpage := h.isCurrent_iff.1 (Bool.and_eq_true _ _ ▸ hc).1
        obtain ⟨s, hwrite, h₁, hpages, hext, hst⟩ := h.write_frame hpage
        obtain ⟨pool', hrun, h', hflushed⟩ := ih hrest h₁
        refine ⟨pool', ?_, h', hflushed.cons_of_due hd hdue hpages hext hst⟩
        rw [flushFrames_cons_of_dirty hc (flushFrame_of_open hlatch hwrite) hrun,
          List.countP_cons_of_pos (p := (pool.isDue ·)) hdue, List.countP_congr fun f hf => ?_]
        · rfl
        · have hne : f ≠ d := fun e => hd (e ▸ hf)
          rw [isDue_write pool s hne]

/-- **Flushing every page** writes the dirty ones that no writer holds, and changes none. -/
theorem flushAll_eq_ok (h : Sound pool gs) :
    ∃ pool', flushAll pool = .ok ((List.finRange n).countP (pool.isDue ·)) pool' ∧
      Sound pool' gs ∧ Flushed (List.finRange n) pool pool' :=
  h.flushFrames_eq_ok (List.nodup_finRange n)

/-! ## Freeing -/

/-- Freeing a page that no frame has takes it out of the map. -/
theorem free_eq_ok (h : Sound pool gs) {p : PageId} (ht : pool.table[p]? = none)
    (hp : p.val.toNat ∈ pool.members) :
    ∃ pool', onSpace (Space.free p) pool = .ok () pool' ∧ Sound pool' gs ∧
      pool'.pages = Function.update pool.pages p none := by
  obtain ⟨s, hfree, hs, hmem, -, hst⟩ := h.space.free_eq_ok hp
  obtain ⟨h', hpages⟩ := h.space_freed hs ht hmem hst
  exact ⟨{ pool with space := s }, onSpace_ok hfree, h', hpages⟩

/-- Taking a page without guards out of its frame changes at most that page. -/
theorem discard (h : Sound pool gs) {p : PageId} {f : Fin n} (ht : pool.table[p]? = some f)
    (hpins : pool.frames[f].pins = 0) :
    Sound (pool.discard p f) gs ∧ (pool.discard p f).table[p]? = none ∧
      (pool.discard p f).members = pool.members ∧
      ∀ q, q ≠ p → (pool.discard p f).pages q = pool.pages q := by
  obtain ⟨hp, rfl⟩ := (h.table_iff p f).1 ht
  obtain ⟨h', hcon⟩ : Sound (pool.discard pool.frames[f].page f) gs ∧ _ :=
    h.unbind hp hpins rfl rfl rfl rfl fun _ => Replacer.isCandidate_pin
  refine ⟨h', ?_, rfl, fun q hq => ?_⟩
  · change (pool.table.erase _)[_]? = none
    exact Std.HashMap.getElem?_erase_self
  · rw [pages, pages, hcon, if_neg hq]
    rfl

/-- A page with pins is not deleted. -/
theorem delete_of_pinned {p : PageId} {f : Fin n} (hp : p.isSome = true)
    (ht : pool.table[p]? = some f) (hpins : 0 < pool.frames[f].pins) :
    delete p pool = .error (.refused (.stillPinned p)) pool := by
  simp only [delete, hp, Bool.not_true, Bool.false_eq_true, if_false]
  rw [Action.get_bind]
  simp only [ht]
  rw [Action.get_bind]
  simp only [hpins, if_true]
  rfl

/-- A page without pins leaves its frame before it is freed on disk. -/
theorem delete_of_unpinned {p : PageId} {f : Fin n} (hp : p.isSome = true)
    (ht : pool.table[p]? = some f) (hpins : ¬0 < pool.frames[f].pins) :
    delete p pool = (onSpace (Space.free p) >>= fun _ => pure true) (pool.discard p f) := by
  simp only [delete, hp, Bool.not_true, Bool.false_eq_true, if_false]
  rw [Action.get_bind]
  simp only [ht]
  rw [Action.get_bind]
  simp only [hpins, if_false]
  rfl

/-- A page in no frame is looked up on disk before it is freed there. -/
theorem delete_of_absent {p : PageId} (hp : p.isSome = true) (ht : pool.table[p]? = none) :
    delete p pool = (onSpace (Space.isFree p) >>= fun isFree =>
      if isFree then pure false else onSpace (Space.free p) >>= fun _ => pure true) pool := by
  simp only [delete, hp, Bool.not_true, Bool.false_eq_true, if_false]
  rw [Action.get_bind]
  simp only [ht]

theorem delete_of_none {p : PageId} (hp : ¬p.isSome = true) :
    delete p pool = .error (.refused (.invalidPage p)) pool := by
  simp only [delete, hp, Bool.not_false, if_true]
  rfl

/-- A page in a frame is deleted unless somebody holds it. -/
theorem delete_of_hit (h : Sound pool gs) {p : PageId} {f : Fin n} (ht : pool.table[p]? = some f) :
    (∃ pool', delete p pool = .ok true pool' ∧ Sound pool' gs ∧
      pool'.pages = Function.update pool.pages p none) ∨
    (delete p pool = .error (.refused (.stillPinned p)) pool ∧ ∃ g ∈ gs, g.page = p) := by
  have hsome : p.isSome = true := PageId.isSome_iff.2 ((h.table_iff p f).1 ht).1
  by_cases hpins : 0 < pool.frames[f].pins
  · refine .inr ⟨delete_of_pinned hsome ht hpins, ?_⟩
    by_contra hnone
    rw [(h.frame f).pins_eq, h.modesOn_eq_nil ht fun g hg hgp => hnone ⟨g, hg, hgp⟩] at hpins
    exact Nat.lt_irrefl 0 hpins
  · obtain ⟨h', ht', hmem', hothers⟩ := h.discard ht (Nat.eq_zero_of_not_pos hpins)
    have hmem : p.val.toNat ∈ (pool.discard p f).members := by
      rw [hmem']
      exact h.mem_of_table ht
    obtain ⟨pool', hfree, h'', hpages'⟩ := h'.free_eq_ok ht' hmem
    refine .inl ⟨pool', ?_, h'', ?_⟩
    · rw [delete_of_unpinned hsome ht hpins, Action.bind_of_ok hfree]
      rfl
    · rw [hpages']
      funext q
      by_cases hq : q = p
      · rw [hq, Function.update_self, Function.update_self]
      · rw [Function.update_of_ne hq, Function.update_of_ne hq, hothers q hq]

/-- A page in no frame is deleted if it is allocated. -/
theorem delete_of_miss (h : Sound pool gs) {p : PageId} (hsome : p.isSome = true)
    (ht : pool.table[p]? = none) :
    (∃ pool', delete p pool = .ok true pool' ∧ Sound pool' gs ∧
      pool'.pages = Function.update pool.pages p none) ∨
    (∃ pool', delete p pool = .ok false pool' ∧ Sound pool' gs ∧ pool'.pages = pool.pages ∧
      pool.pages p = none) ∨
    (delete p pool = .error (.refused (.invalidPage p)) pool ∧ pool.pages p = none) := by
  rw [delete_of_absent hsome ht]
  by_cases hrange : p.isInRange = true
  · obtain ⟨s, hisFree, hs, ha⟩ := h.space.isFree_eq_ok hrange
    obtain ⟨h', hpages⟩ := h.space_agrees hs ha
    rw [Action.bind_of_ok (onSpace_ok hisFree)]
    by_cases hmem : p.val.toNat ∈ pool.space.members
    · have hmem' : p.val.toNat ∈ s.members := by rwa [ha.members_eq]
      obtain ⟨pool', hfree, h'', hpages'⟩ := h'.free_eq_ok ht hmem'
      refine .inl ⟨pool', ?_, h'', hpages'.trans (by rw [hpages])⟩
      simp only [hmem, not_true_eq_false, decide_false, Bool.false_eq_true, if_false]
      rw [Action.bind_of_ok hfree]
      rfl
    · refine .inr (.inl ⟨{ pool with space := s }, ?_, h', hpages, pages_eq_none_iff.2 hmem⟩)
      simp only [hmem, not_false_eq_true, decide_true, if_true]
      rfl
  · have hrun : onSpace (Space.isFree p) pool = .error (.refused (.invalidPage p)) pool :=
      onSpace_error (Space.Sound.isFree_eq_error pool.space (by simpa using hrange))
    exact .inr (.inr ⟨Action.bind_of_error hrun,
      pages_eq_none_iff.2 fun hm => hrange (h.isInRange_of_mem hm)⟩)

/-- **Deleting a page.** It goes away if it is allocated and nobody holds it, and no other page is
changed. In every other case nothing is. -/
theorem delete_cases (h : Sound pool gs) (p : PageId) :
    (∃ pool', delete p pool = .ok true pool' ∧ Sound pool' gs ∧
      pool'.pages = Function.update pool.pages p none) ∨
    (∃ pool', delete p pool = .ok false pool' ∧ Sound pool' gs ∧ pool'.pages = pool.pages ∧
      pool.pages p = none) ∨
    ∃ e pool', delete p pool = .error e pool' ∧ Sound pool' gs ∧ pool'.pages = pool.pages ∧
      ((e = .refused (.invalidPage p) ∧ pool.pages p = none) ∨
        (e = .refused (.stillPinned p) ∧ ∃ g ∈ gs, g.page = p)) := by
  by_cases hsome : p.isSome = true
  · rcases ht : pool.table[p]? with _ | f
    · rcases h.delete_of_miss hsome ht with hgone | hfree | ⟨hrun, hnone⟩
      · exact .inl hgone
      · exact .inr (.inl hfree)
      · exact .inr (.inr ⟨_, pool, hrun, h, rfl, .inl ⟨rfl, hnone⟩⟩)
    · rcases h.delete_of_hit ht with hgone | ⟨hrun, hheld⟩
      · exact .inl hgone
      · exact .inr (.inr ⟨_, pool, hrun, h, rfl, .inr ⟨rfl, hheld⟩⟩)
  · refine .inr (.inr ⟨.refused (.invalidPage p), pool, delete_of_none hsome, h, rfl,
      .inl ⟨rfl, pages_eq_none_iff.2 fun hm => hsome (PageId.isSome_iff.2 (h.ne_none_of_mem hm))⟩⟩)

/-- Deallocating a page deletes it, and is refused if it was free. -/
theorem deallocate_of_true {p : PageId} {pool' : Pool n m}
    (hdelete : delete p pool = .ok true pool') :
    deallocate p pool = .ok () pool' := by
  rw [deallocate, Action.bind_of_ok hdelete]
  rfl

theorem deallocate_of_false {p : PageId} {pool' : Pool n m}
    (hdelete : delete p pool = .ok false pool') :
    deallocate p pool = .error (.refused (.alreadyFree p)) pool' := by
  rw [deallocate, Action.bind_of_ok hdelete]
  rfl

theorem deallocate_of_error {p : PageId} {e : Halt} {pool' : Pool n m}
    (hdelete : delete p pool = .error e pool') : deallocate p pool = .error e pool' := by
  rw [deallocate, Action.bind_of_error hdelete]

/-! ## Closing -/

/-- Frames that are written back are not dirty any more. -/
theorem writeBack_eq_ok (l : List (Fin n)) (h : Sound pool gs) :
    ∃ pool', writeBack l pool = .ok () pool' ∧ Sound pool' gs ∧ pool'.pages = pool.pages ∧
      ∀ f : Fin n, pool'.frames[f].page = pool.frames[f].page ∧
        (f ∈ l ∨ pool.frames[f].dirty = false →
          pool'.frames[f].page ≠ .none → pool'.frames[f].dirty = false) := by
  induction l generalizing pool with
  | nil =>
    refine ⟨pool, rfl, h, rfl, fun f => ⟨rfl, ?_⟩⟩
    rintro (hf | hd) -
    · cases hf
    · exact hd
  | cons d rest ih =>
    by_cases hd : (pool.frames[d].page.isSome && pool.frames[d].dirty) = true
    · have hpage : pool.frames[d].page ≠ .none := PageId.isSome_iff.1 (Bool.and_eq_true _ _ ▸ hd).1
      obtain ⟨s, hwrite, h₁, hpages₁, -⟩ := h.write_frame hpage
      let pool₁ : Pool n m := editFrame d ({ · with dirty := false }) { pool with space := s }
      have hget : ∀ f : Fin n, pool₁.frames[f].page = pool.frames[f].page ∧
          pool₁.frames[f].dirty = if f = d then false else pool.frames[f].dirty := by
        intro f
        simp only [pool₁, getElem_editFrame]
        by_cases hf : f = d
        · rw [if_pos hf, if_pos hf, hf]
          exact ⟨rfl, rfl⟩
        · rw [if_neg hf, if_neg hf]
          exact ⟨rfl, rfl⟩
      obtain ⟨pool', hrest, h', hpages', hframes⟩ := ih h₁
      refine ⟨pool', ?_, h', hpages'.trans hpages₁, fun f => ?_⟩
      · rw [writeBack, Action.get_bind]
        simp only [hd, if_true]
        rw [Action.bind_of_ok hwrite]
        exact hrest
      · refine ⟨(hframes f).1.trans (hget f).1, fun hf => (hframes f).2 ?_⟩
        rw [(hget f).2]
        by_cases hfd : f = d
        · exact .inr (if_pos hfd)
        · rw [if_neg hfd]
          exact hf.imp_left fun hm => (List.mem_cons.1 hm).resolve_left hfd
    · obtain ⟨pool', hrest, h', hpages', hframes⟩ := ih h
      refine ⟨pool', ?_, h', hpages', fun f => ⟨(hframes f).1, fun hf hpage => ?_⟩⟩
      · rw [writeBack, Action.get_bind]
        simp only [hd]
        exact hrest
      · refine (hframes f).2 ?_ hpage
        rcases hf with hm | hclean
        · rcases List.mem_cons.1 hm with rfl | hm
          · -- a page in a frame that is not written is not dirty
            rw [(hframes f).1] at hpage
            rw [PageId.isSome_iff.2 hpage, Bool.true_and, Bool.not_eq_true] at hd
            exact .inr hd
          · exact .inl hm
        · exact .inr hclean

/-- **Closing.** What a pool without guards leaves on disk are the newest bytes of its pages. -/
theorem close (h : Sound pool []) :
    pool.close.Sound ∧ pool.close.members = pool.members ∧
      ∀ p : PageId, p.val.toNat ∈ pool.members → pool.close.stored p = pool.contents p := by
  obtain ⟨pool', hrun, h', hpages, hframes⟩ := h.writeBack_eq_ok (List.finRange n)
  have hclose : pool.close = pool'.space := by rw [Pool.close, hrun]
  have hmem := members_eq_of_pages h.space h'.space hpages
  rw [hclose]
  refine ⟨h'.space, hmem, fun p hp => ?_⟩
  have hself : pool'.pages p = some (pool.contents p) := by
    rw [hpages]
    exact pages_eq_some_iff.2 ⟨hp, rfl⟩
  obtain ⟨-, hcon⟩ := pages_eq_some_iff.1 hself
  rw [← hcon]
  rcases ht : pool'.table[p]? with _ | f
  · exact (contents_of_none ht).symm
  · obtain ⟨hne, rfl⟩ := (h'.table_iff p f).1 ht
    have hfit := h'.frame f
    have hlatch := hfit.latch
    rw [modesOn_nil, Latch.fits_nil_iff] at hlatch
    rw [contents_of_table ht]
    refine (hfit.clean hne ((hframes f).2 (.inl (List.mem_finRange f)) hne) ?_).symm
    rw [hlatch]
    rfl

end Sound

/-! ## Starting -/

/-- **A pool that is started on a disk** stands for what is there. -/
theorem sound_empty {space : Space m} (hs : space.Sound) (n : Nat) (policy : Policy) :
    Sound (empty n policy space) [] ∧
      ∀ p : PageId, (empty n policy space).contents p = space.stored p := by
  have hget : ∀ f : Fin n, (empty n policy space).frames[f] = {} := fun f => by
    simp [empty]
  have hlook : ∀ p : PageId, (empty n policy space).table[p]? = none := fun p => by
    simp [empty]
  refine ⟨⟨hs, fun p f => ?_, List.nodup_finRange n, fun f => ?_, fun f => ?_, nofun, fun f => ?_⟩,
    fun p => Sound.contents_of_none (hlook p)⟩
  · rw [hlook, hget]
    exact ⟨nofun, fun h => absurd h.2.symm h.1⟩
  · rw [hget]
    exact iff_of_true (List.mem_finRange f) rfl
  · rw [hget]
    exact iff_of_false (Replacer.not_isCandidate_empty policy f) fun h => h.1 rfl
  · rw [hget]
    exact ⟨rfl, rfl, fun h => absurd rfl h, fun h => absurd rfl h⟩

end PageStore.Pool
