import PageStore.Pool.Upkeep
import PageStore.Proofs.Space.Allocation

/-!
# A pool is a map from pages to bytes

A pool stands for the newest bytes of every page that is allocated, wherever they are: in a frame
or on disk. `Pool.pages` is that map.

A pool is `Sound` for the guards that are out when its table, its frames, its free list and its
replacer agree with each other, with the guards and with the disk. Every step of a pool is one of
four: a frame changes and keeps its page, a frame loses its page, a frame gets a page, or the
disk changes under the frames. What each does to soundness and to the contents is said here.
-/

namespace PageStore

open Finset

/-! ## Latches and their guards -/

namespace Latch

/-- The latch is held by guards with these modes, and by nobody else. -/
def Fits : Latch → List Mode → Prop
  | free, modes => modes = []
  | shared readers, modes => 0 < readers ∧ modes = List.replicate readers .read
  | exclusive _, modes => modes = [.write]

theorem fits_nil_iff {l : Latch} : l.Fits [] ↔ l = free := by
  cases l with
  | free => simp [Fits]
  | shared readers => cases readers <;> simp [Fits, List.replicate_succ]
  | exclusive changed => simp [Fits]

/-- Taking the latch adds a guard. -/
theorem Fits.take {l : Latch} {modes : List Mode} {mode : Mode} (h : l.Fits modes)
    (ha : l.admits mode = true) : (l.take mode).Fits (mode :: modes) := by
  cases l with
  | free => cases mode <;> simp_all [Fits, Latch.take]
  | shared readers => cases mode <;> simp_all [Fits, Latch.take, admits, List.replicate_succ]
  | exclusive changed => cases ha

/-- Letting go of the latch takes one guard away. -/
theorem Fits.release {l : Latch} {modes : List Mode} {mode : Mode} (h : l.Fits (mode :: modes)) :
    l.release.Fits modes := by
  cases l with
  | free => cases h
  | shared readers =>
    match readers with
    | 0 => exact absurd h.1 (Nat.lt_irrefl 0)
    | 1 => simp_all [Fits, Latch.release]
    | k + 2 => simp_all [Fits, Latch.release, List.replicate_succ]
  | exclusive changed => simp_all [Fits, Latch.release]

/-- A writer that holds the latch is the only guard. -/
theorem Fits.of_write {l : Latch} {modes : List Mode} (h : l.Fits modes) (hw : .write ∈ modes) :
    ∃ changed, l = exclusive changed := by
  cases l with
  | free => simp_all [Fits]
  | shared readers => simp_all [Fits]
  | exclusive changed => exact ⟨changed, rfl⟩

theorem Fits.perm {l : Latch} {modes modes' : List Mode} (h : l.Fits modes)
    (hp : modes.Perm modes') : l.Fits modes' := by
  cases l with
  | free => exact List.Perm.nil_eq (h ▸ hp) ▸ rfl
  | shared readers => exact ⟨h.1, List.perm_replicate.1 (h.2 ▸ hp.symm)⟩
  | exclusive changed => exact List.perm_singleton.1 (h ▸ hp.symm)

/-- A latch without guards that changed bytes lets readers in, or has a writer. -/
theorem admits_read_iff {l : Latch} : l.admits .read = true ↔ ∀ changed, l ≠ exclusive changed := by
  cases l <;> simp [admits]

end Latch

namespace Pool

variable {n m : Nat}

/-- The modes of the guards on frame `f`. -/
def modesOn (gs : List (Guard n)) (f : Fin n) : List Mode := (gs.filter (·.frame = f)).map (·.mode)

@[simp] theorem modesOn_nil (f : Fin n) : modesOn [] f = [] := rfl

theorem modesOn_cons (g : Guard n) (gs : List (Guard n)) (f : Fin n) :
    modesOn (g :: gs) f = if g.frame = f then g.mode :: modesOn gs f else modesOn gs f := by
  by_cases h : g.frame = f <;> simp [modesOn, h]

theorem modesOn_eq_nil_iff {gs : List (Guard n)} {f : Fin n} :
    modesOn gs f = [] ↔ ∀ g ∈ gs, g.frame ≠ f := by
  simp [modesOn, List.filter_eq_nil_iff]

theorem modesOn_perm {gs gs' : List (Guard n)} (h : gs.Perm gs') (f : Fin n) :
    (modesOn gs f).Perm (modesOn gs' f) := (h.filter _).map _

end Pool

/-! ## Frames -/

/-- The frame is held by guards with these modes, and knows whether its bytes are on disk. -/
structure Frame.Fits {m : Nat} (s : Space m) (modes : List Mode) (frame : Frame) : Prop where
  /-- every guard is one pin -/
  pins_eq : frame.pins = modes.length
  /-- every guard holds the latch -/
  latch : frame.latch.Fits modes
  /-- the page is allocated -/
  member : frame.page ≠ .none → frame.page.val.toNat ∈ s.members
  /-- bytes that do not count as changed are on disk -/
  clean : frame.page ≠ .none → frame.dirty = false → frame.latch.isChanged = false →
    frame.data = s.stored frame.page

namespace Pool

variable {n m : Nat}

/-! ## What a pool stands for -/

/-- The numbers of the allocated pages. -/
def members (pool : Pool n m) : Finset Nat := pool.space.members

/-- The newest bytes of page `p`. -/
def contents (pool : Pool n m) (p : PageId) : Page :=
  match pool.table[p]? with
  | some f => pool.frames[f].data
  | none => pool.space.stored p

/-- **The map that the pool stands for**: the newest bytes of every allocated page. -/
def pages (pool : Pool n m) (p : PageId) : Option Page :=
  if p.val.toNat ∈ pool.members then some (pool.contents p) else none

/-- The parts of the pool agree with each other, and with the guards that are out. -/
structure Sound (pool : Pool n m) (gs : List (Guard n)) : Prop where
  /-- the disk is sound -/
  space : pool.space.Sound
  /-- the table finds exactly the pages in frames -/
  table_iff : ∀ (p : PageId) (f : Fin n),
    pool.table[p]? = some f ↔ p ≠ .none ∧ pool.frames[f].page = p
  /-- no frame is free twice -/
  nodup : pool.free.Nodup
  /-- the free frames are those without a page -/
  free_iff : ∀ f : Fin n, f ∈ pool.free ↔ pool.frames[f].page = .none
  /-- a frame can be chosen when it has a page without pins -/
  candidate_iff : ∀ f : Fin n, pool.replacer.IsCandidate f ↔
    pool.frames[f].page ≠ .none ∧ pool.frames[f].pins = 0
  /-- a guard is on a page, and on the frame that holds it -/
  guard : ∀ g ∈ gs, g.page ≠ .none ∧ pool.frames[g.frame].page = g.page
  /-- every frame fits its guards and the disk -/
  frame : ∀ f : Fin n, pool.frames[f].Fits pool.space (modesOn gs f)

theorem pages_eq_some_iff {pool : Pool n m} {p : PageId} {page : Page} :
    pool.pages p = some page ↔ p.val.toNat ∈ pool.members ∧ pool.contents p = page := by
  rw [pages]
  split <;> simp_all

theorem pages_eq_none_iff {pool : Pool n m} {p : PageId} :
    pool.pages p = none ↔ p.val.toNat ∉ pool.members := by
  rw [pages]
  split <;> simp_all

theorem pages_ne_none_iff {pool : Pool n m} {p : PageId} :
    pool.pages p ≠ none ↔ p.val.toNat ∈ pool.members := pages_eq_none_iff.not_left

/-- Two pools with the same members and the same bytes for each are the same map. -/
theorem pages_congr {n' m' : Nat} {pool : Pool n m} {pool' : Pool n' m'}
    (hmem : pool'.members = pool.members)
    (hcon : ∀ p : PageId, p.val.toNat ∈ pool.members → pool'.contents p = pool.contents p) :
    pool'.pages = pool.pages := by
  funext p
  rw [pages, pages, hmem]
  split
  · next hp => rw [hcon p hp]
  · rfl

/-- A page is allocated exactly when it has bytes. -/
theorem mem_members_iff {pool : Pool n m} (hs : pool.space.Sound) {i : Nat} :
    i ∈ pool.members ↔ i < maxLogicalPages ∧ pool.pages ⟨UInt32.ofNat i⟩ ≠ none := by
  have hval : i < maxLogicalPages → (UInt32.ofNat i).toNat = i := fun hi => by
    have := maxLogicalPages_eq
    exact UInt32.toNat_ofNat_of_lt' (by simp only [UInt32.size]; omega)
  rw [pages_ne_none_iff]
  constructor
  · intro hi
    have hlt := hs.lt_of_mem hi
    exact ⟨hlt, by rwa [hval hlt]⟩
  · rintro ⟨hlt, hi⟩
    rwa [hval hlt] at hi

theorem members_eq_of_none {pool : Pool n m} {n' m' : Nat} {pool' : Pool n' m'}
    (hs : pool.space.Sound) (hs' : pool'.space.Sound)
    (hnone : ∀ p, pool'.pages p = none ↔ pool.pages p = none) : pool'.members = pool.members := by
  ext i
  simp only [mem_members_iff hs, mem_members_iff hs', ne_eq, hnone]

theorem members_eq_of_pages {pool : Pool n m} {n' m' : Nat} {pool' : Pool n' m'}
    (hs : pool.space.Sound) (hs' : pool'.space.Sound) (hpages : pool'.pages = pool.pages) :
    pool'.members = pool.members :=
  members_eq_of_none hs hs' fun p => by rw [hpages]

/-- Pages of a list are as many as it is long, at most. -/
theorem card_members_le {pool : Pool n m} (hs : pool.space.Sound) {l : List PageId}
    (h : ∀ q, pool.pages q ≠ none → q ∈ l) : pool.members.card ≤ l.length := by
  have hsub : pool.members ⊆ (l.map fun q => q.val.toNat).toFinset := fun i hi => by
    obtain ⟨hlt, hpage⟩ := (mem_members_iff hs).1 hi
    have hval : (UInt32.ofNat i).toNat = i :=
      UInt32.toNat_ofNat_of_lt' (Nat.lt_trans hlt (by decide))
    exact List.mem_toFinset.2 (List.mem_map.2 ⟨⟨UInt32.ofNat i⟩, h _ hpage, hval⟩)
  have hcard := (card_le_card hsub).trans (List.toFinset_card_le _)
  rwa [List.length_map] at hcard

/-- A disk with fewer pages allocated than there are has others. -/
theorem members_ne_range_of_length {pool : Pool n m} (hs : pool.space.Sound) {l : List PageId}
    (hl : l.length < maxLogicalPages) (h : ∀ q, pool.pages q ≠ none → q ∈ l) :
    pool.members ≠ range maxLogicalPages := by
  intro hall
  have hcard := card_members_le hs h
  rw [hall, card_range] at hcard
  exact Nat.not_le_of_lt hl hcard

theorem onSpace_ok {α : Type} {act : Action (Space m) α} {pool : Pool n m} {a : α} {s : Space m}
    (h : act pool.space = .ok a s) : onSpace act pool = .ok a { pool with space := s } :=
  Action.focus_ok h

theorem onSpace_error {α : Type} {act : Action (Space m) α} {pool : Pool n m} {e : Halt}
    {s : Space m} (h : act pool.space = .error e s) :
    onSpace act pool = .error e { pool with space := s } := Action.focus_error h

namespace Sound

variable {pool pool' : Pool n m} {gs gs' : List (Guard n)} {f : Fin n}

/-- The order of the guards does not matter. -/
theorem perm (h : Sound pool gs) (hp : gs.Perm gs') : Sound pool gs' where
  space := h.space
  table_iff := h.table_iff
  nodup := h.nodup
  free_iff := h.free_iff
  candidate_iff := h.candidate_iff
  guard g hg := h.guard g (hp.mem_iff.2 hg)
  frame f := by
    have hf := h.frame f
    have hmodes := modesOn_perm hp f
    exact ⟨hf.pins_eq.trans hmodes.length_eq, hf.latch.perm hmodes, hf.member, hf.clean⟩

/-- Neither does the order of the free frames. -/
theorem perm_free (h : Sound pool gs) {free : List (Fin n)} (hp : pool.free.Perm free) :
    Sound { pool with free } gs where
  space := h.space
  table_iff := h.table_iff
  nodup := hp.nodup_iff.1 h.nodup
  free_iff d := hp.mem_iff.symm.trans (h.free_iff d)
  candidate_iff := h.candidate_iff
  guard := h.guard
  frame := h.frame

/-- Nor do the counters. -/
theorem counters (h : Sound pool gs) (hits misses : UInt64) :
    Sound { pool with hits, misses } gs where
  space := h.space
  table_iff := h.table_iff
  nodup := h.nodup
  free_iff := h.free_iff
  candidate_iff := h.candidate_iff
  guard := h.guard
  frame := h.frame

/-- The page of a guard is in the guard's frame. -/
theorem table_guard (h : Sound pool gs) {g : Guard n} (hg : g ∈ gs) :
    pool.table[g.page]? = some g.frame := (h.table_iff g.page g.frame).2 (h.guard g hg)

theorem contents_of_table {p : PageId} {f : Fin n} (hf : pool.table[p]? = some f) :
    pool.contents p = pool.frames[f].data := by
  rw [contents, hf]

theorem contents_of_none {p : PageId} (hf : pool.table[p]? = none) :
    pool.contents p = pool.space.stored p := by
  rw [contents, hf]

/-- A guard shows the newest bytes of its page. -/
theorem bytes_eq (h : Sound pool gs) {g : Guard n} (hg : g ∈ gs) :
    pool.bytes g = pool.contents g.page := (contents_of_table (h.table_guard hg)).symm

/-- A page in a frame is allocated. -/
theorem mem_of_table (h : Sound pool gs) {p : PageId} {f : Fin n}
    (hf : pool.table[p]? = some f) : p.val.toNat ∈ pool.members := by
  obtain ⟨hp, rfl⟩ := (h.table_iff p f).1 hf
  exact (h.frame f).member hp

/-- A guarded page is allocated. -/
theorem mem_of_guard (h : Sound pool gs) {g : Guard n} (hg : g ∈ gs) :
    g.page.val.toNat ∈ pool.members := h.mem_of_table (h.table_guard hg)

/-- A guard shows what the pool stands for. -/
theorem pages_guard (h : Sound pool gs) {g : Guard n} (hg : g ∈ gs) :
    pool.pages g.page = some (pool.bytes g) :=
  pages_eq_some_iff.2 ⟨h.mem_of_guard hg, (h.bytes_eq hg).symm⟩

theorem isInRange_of_mem (h : Sound pool gs) {p : PageId} (hp : p.val.toNat ∈ pool.members) :
    p.isInRange = true := h.space.isInRange_of_mem hp

/-- An allocated page is a page. -/
theorem ne_none_of_mem (h : Sound pool gs) {p : PageId} (hp : p.val.toNat ∈ pool.members) :
    p ≠ .none := PageId.isSome_iff.1 (PageId.isSome_of_lt (h.space.lt_of_mem hp))

/-- The page id that stands for none is no page. -/
theorem pages_none (h : Sound pool gs) : pool.pages .none = none :=
  pages_eq_none_iff.2 fun hm => h.ne_none_of_mem hm rfl

/-- A frame has no guards when its page has none. -/
theorem modesOn_eq_nil (h : Sound pool gs) {p : PageId} {f : Fin n} (ht : pool.table[p]? = some f)
    (hnone : ∀ g ∈ gs, g.page ≠ p) : modesOn gs f = [] := by
  obtain ⟨-, rfl⟩ := (h.table_iff p f).1 ht
  exact modesOn_eq_nil_iff.2 fun g hg hgf => hnone g hg (hgf ▸ (h.guard g hg).2.symm)

/-- A frame without a page has no guards, no pins and a free latch. -/
theorem of_no_page (h : Sound pool gs) {f : Fin n} (hf : pool.frames[f].page = .none) :
    modesOn gs f = [] ∧ pool.frames[f].pins = 0 ∧ pool.frames[f].latch = .free := by
  have hnil : modesOn gs f = [] := modesOn_eq_nil_iff.2 fun g hg hgf => by
    obtain ⟨hsome, hpage⟩ := h.guard g hg
    exact hsome (hpage.symm.trans (hgf ▸ hf))
  have hfit := h.frame f
  rw [hnil] at hfit
  exact ⟨hnil, hfit.pins_eq, Latch.fits_nil_iff.1 hfit.latch⟩

/-! ## The four steps -/

/-- **A frame changes**, and keeps its page. Its guards may change with it. -/
theorem set_frame (h : Sound pool gs) {f : Fin n} (frame : Frame)
    (hspace : pool'.space = pool.space) (htable : pool'.table = pool.table)
    (hfree : pool'.free = pool.free) (hframes : pool'.frames = pool.frames.set f frame f.isLt)
    (hpage : frame.page = pool.frames[f].page)
    (hcand : ∀ d : Fin n, pool'.replacer.IsCandidate d ↔
      if d = f then frame.page ≠ .none ∧ frame.pins = 0 else pool.replacer.IsCandidate d)
    (hguard : ∀ g ∈ gs', g.page ≠ .none ∧ pool.frames[g.frame].page = g.page)
    (hothers : ∀ d, d ≠ f → modesOn gs' d = modesOn gs d)
    (hfit : frame.Fits pool.space (modesOn gs' f)) : Sound pool' gs' := by
  have hget : ∀ d : Fin n, pool'.frames[d] = if d = f then frame else pool.frames[d] := fun d => by
    rw [hframes, getElem_set_fin]
  have hpages : ∀ d : Fin n, pool'.frames[d].page = pool.frames[d].page := fun d => by
    rw [hget]
    split
    · next hd => rw [hpage, hd]
    · rfl
  refine ⟨hspace ▸ h.space, fun p d => ?_, hfree ▸ h.nodup, fun d => ?_, fun d => ?_,
    fun g hg => ?_, fun d => ?_⟩
  · rw [htable, hpages]
    exact h.table_iff p d
  · rw [hfree, hpages]
    exact h.free_iff d
  · rw [hcand, hget]
    by_cases hd : d = f
    · rw [if_pos hd, if_pos hd]
    · rw [if_neg hd, if_neg hd]
      exact h.candidate_iff d
  · rw [hpages]
    exact hguard g hg
  · rw [hspace, hget]
    by_cases hd : d = f
    · rw [if_pos hd, hd]
      exact hfit
    · rw [if_neg hd, hothers d hd]
      exact h.frame d

/-- Only the bytes of the frame's page can be others. -/
theorem contents_set_frame {f : Fin n} {frame : Frame} (hspace : pool'.space = pool.space)
    (htable : pool'.table = pool.table) (hframes : pool'.frames = pool.frames.set f frame f.isLt)
    (p : PageId) :
    pool'.contents p = if pool.table[p]? = some f then frame.data else pool.contents p := by
  rw [contents, contents, htable, hspace]
  rcases pool.table[p]? with _ | d
  · rw [if_neg nofun]
  · simp only [hframes, getElem_set_fin]
    by_cases hd : d = f
    · rw [if_pos hd, if_pos (congrArg some hd)]
    · rw [if_neg hd, if_neg fun e => hd (Option.some.inj e)]

/-- The bytes of a frame are those of its page. -/
theorem pages_set_frame (h : Sound pool gs) {f : Fin n} {frame : Frame}
    (hf : pool.frames[f].page ≠ .none) (hspace : pool'.space = pool.space)
    (htable : pool'.table = pool.table) (hframes : pool'.frames = pool.frames.set f frame f.isLt) :
    pool'.pages = Function.update pool.pages pool.frames[f].page (some frame.data) := by
  have hmem : pool'.members = pool.members := by rw [members, members, hspace]
  have ht := (h.table_iff pool.frames[f].page f).2 ⟨hf, rfl⟩
  funext p
  have hcon := contents_set_frame hspace htable hframes p
  by_cases hp : p = pool.frames[f].page
  · rw [hp, Function.update_self, pages_eq_some_iff, hmem]
    exact ⟨h.mem_of_table ht, by rw [← hp, hcon, hp, if_pos ht]⟩
  · rw [Function.update_of_ne hp, pages, pages, hmem, hcon,
      if_neg fun hpf => hp ((h.table_iff p f).1 hpf).2.symm]

/-- A frame that keeps its bytes changes no contents. -/
theorem pages_of_data_eq {f : Fin n} (frame : Frame) (hspace : pool'.space = pool.space)
    (htable : pool'.table = pool.table) (hframes : pool'.frames = pool.frames.set f frame f.isLt)
    (hdata : frame.data = pool.frames[f].data) : pool'.pages = pool.pages := by
  refine pages_congr (by rw [members, members, hspace]) fun p _ => ?_
  rw [contents_set_frame hspace htable hframes]
  split
  · next hf => rw [hdata, contents_of_table hf]
  · rfl

section Erase

variable (h : Sound pool gs) (hspace : pool'.space = pool.space)
  (htable : pool'.table = pool.table.erase pool.frames[f].page)
  (hframes : pool'.frames = pool.frames.set f pool.frames[f].reset f.isLt)

include htable in
/-- The table forgets the page of a frame. -/
theorem lookup_erase (p : PageId) :
    pool'.table[p]? = if p = pool.frames[f].page then none else pool.table[p]? := by
  simp only [htable, Std.HashMap.getElem?_erase, beq_iff_eq]
  exact if_congr eq_comm rfl rfl

include h htable hframes

theorem table_erase_iff (hpage : pool.frames[f].page ≠ .none) (p : PageId) (d : Fin n) :
    pool'.table[p]? = some d ↔ p ≠ .none ∧ pool'.frames[d].page = p := by
  rw [lookup_erase htable, hframes, getElem_set_fin]
  by_cases hd : d = f
  · rw [if_pos hd, hd]
    constructor
    · intro hp
      split at hp
      · cases hp
      · next hne => exact absurd ((h.table_iff p f).1 hp).2.symm hne
    · rintro ⟨hp, hreset⟩
      exact absurd hreset.symm hp
  · rw [if_neg hd, ← h.table_iff p d]
    by_cases hp : p = pool.frames[f].page
    · rw [if_pos hp, hp, (h.table_iff _ f).2 ⟨hpage, rfl⟩]
      exact ⟨nofun, fun e => absurd (Option.some.inj e).symm hd⟩
    · rw [if_neg hp]

include hspace

/-- The page's bytes are those on disk then. -/
theorem contents_erase (p : PageId) : pool'.contents p =
    if p = pool.frames[f].page then pool.space.stored p else pool.contents p := by
  rw [contents, lookup_erase htable]
  by_cases hp : p = pool.frames[f].page
  · rw [if_pos hp, if_pos hp, hspace]
  · rw [if_neg hp, if_neg hp, contents, hspace]
    rcases ht : pool.table[p]? with _ | d
    · rfl
    · have hd : d ≠ f := fun hd => hp ((h.table_iff p f).1 (hd ▸ ht)).2.symm
      simp only [hframes, getElem_set_fin, if_neg hd]

end Erase

/-- **A frame loses its page**, which has no pins, and is free. The page's bytes are now those on
disk. -/
theorem unbind (h : Sound pool gs) {f : Fin n} (hpage : pool.frames[f].page ≠ .none)
    (hpins : pool.frames[f].pins = 0) (hspace : pool'.space = pool.space)
    (htable : pool'.table = pool.table.erase pool.frames[f].page)
    (hframes : pool'.frames = pool.frames.set f pool.frames[f].reset f.isLt)
    (hfree : pool'.free = pool.free ++ [f])
    (hcand : ∀ d : Fin n, pool'.replacer.IsCandidate d ↔ d ≠ f ∧ pool.replacer.IsCandidate d) :
    Sound pool' gs ∧ ∀ p, pool'.contents p =
      if p = pool.frames[f].page then pool.space.stored p else pool.contents p := by
  have hget : ∀ d : Fin n, pool'.frames[d] =
      if d = f then pool.frames[f].reset else pool.frames[d] := fun d => by
    rw [hframes, getElem_set_fin]
  have hfit := h.frame f
  have hnil : modesOn gs f = [] := List.length_eq_zero_iff.1 (hfit.pins_eq.symm.trans hpins)
  have hnotfree : f ∉ pool.free := fun hf => hpage ((h.free_iff f).1 hf)
  refine ⟨⟨hspace ▸ h.space, h.table_erase_iff htable hframes hpage, ?_, fun d => ?_, fun d => ?_,
    fun g hg => ?_, fun d => ?_⟩, h.contents_erase hspace htable hframes⟩
  · rw [hfree]
    exact h.nodup.append (List.nodup_singleton f) (by simpa using hnotfree)
  · rw [hfree, List.mem_append, List.mem_singleton, hget]
    by_cases hd : d = f
    · rw [if_pos hd]
      exact iff_of_true (.inr hd) rfl
    · rw [if_neg hd, ← h.free_iff d]
      exact or_iff_left hd
  · rw [hcand, hget]
    by_cases hd : d = f
    · rw [if_pos hd]
      exact iff_of_false (fun hc => hc.1 hd) fun hc => hc.1 rfl
    · rw [if_neg hd, ← h.candidate_iff d]
      exact and_iff_right hd
  · have hne : g.frame ≠ f := modesOn_eq_nil_iff.1 hnil g hg
    rw [hget, if_neg hne]
    exact h.guard g hg
  · rw [hspace, hget]
    by_cases hd : d = f
    · rw [if_pos hd, hd, hnil]
      exact ⟨rfl, hnil ▸ hfit.latch, fun hne => absurd rfl hne, fun hne => absurd rfl hne⟩
    · rw [if_neg hd]
      exact h.frame d

section Insert

variable {frame : Frame} (h : Sound (putBack f pool) gs) (hnone : pool.frames[f].page = .none)
  (hspace : pool'.space = pool.space) (htable : pool'.table = pool.table.insert frame.page f)
  (hframes : pool'.frames = pool.frames.set f frame f.isLt)

include htable in
/-- The table learns the page of a frame. -/
theorem lookup_insert (p : PageId) :
    pool'.table[p]? = if p = frame.page then some f else pool.table[p]? := by
  simp only [htable, Std.HashMap.getElem?_insert, beq_iff_eq]
  exact if_congr eq_comm rfl rfl

include h hnone htable hframes

theorem table_insert_iff (hpage : frame.page ≠ .none) (habsent : pool.table[frame.page]? = none)
    (p : PageId) (d : Fin n) :
    pool'.table[p]? = some d ↔ p ≠ .none ∧ pool'.frames[d].page = p := by
  have hold : pool.table[p]? = some d ↔ p ≠ .none ∧ pool.frames[d].page = p := h.table_iff p d
  rw [lookup_insert htable, hframes, getElem_set_fin]
  by_cases hp : p = frame.page
  · rw [if_pos hp]
    by_cases hd : d = f
    · rw [if_pos hd, hd, hp]
      exact iff_of_true rfl ⟨hpage, rfl⟩
    · rw [if_neg hd]
      refine iff_of_false (fun e => hd (Option.some.inj e).symm) fun hc => ?_
      have := hold.2 hc
      rw [hp, habsent] at this
      cases this
  · rw [if_neg hp, hold]
    by_cases hd : d = f
    · rw [if_pos hd, hd, hnone]
      exact iff_of_false (fun hc => hc.1 hc.2.symm) fun hc => hp hc.2.symm
    · rw [if_neg hd]

include hspace

/-- The page's bytes are those of the frame then. -/
theorem contents_insert (p : PageId) : pool'.contents p =
    if p = frame.page then frame.data else (putBack f pool).contents p := by
  rw [contents, lookup_insert htable]
  by_cases hp : p = frame.page
  · rw [if_pos hp, if_pos hp]
    simp only [hframes, getElem_set_fin, if_true]
  · rw [if_neg hp, if_neg hp, contents, hspace]
    change _ = match pool.table[p]? with
      | some d => pool.frames[d].data
      | none => pool.space.stored p
    rcases ht : pool.table[p]? with _ | d
    · rfl
    · have hd : d ≠ f := by
        rintro rfl
        have := (h.table_iff p d).1 ht
        exact this.1 (this.2.symm.trans hnone)
      simp only [hframes, getElem_set_fin, if_neg hd]

end Insert

/-- **A frame gets a page** that was in no frame, and its first guard. -/
theorem bind (h : Sound (putBack f pool) gs) (frame : Frame) {mode : Mode}
    (hpage : frame.page ≠ .none) (habsent : pool.table[frame.page]? = none)
    (hspace : pool'.space = pool.space) (htable : pool'.table = pool.table.insert frame.page f)
    (hframes : pool'.frames = pool.frames.set f frame f.isLt) (hfree : pool'.free = pool.free)
    (hcand : ∀ d : Fin n, pool'.replacer.IsCandidate d ↔ d ≠ f ∧ pool.replacer.IsCandidate d)
    (hfit : frame.Fits pool.space [mode]) :
    Sound pool' (⟨frame.page, f, mode⟩ :: gs) ∧ ∀ p, pool'.contents p =
      if p = frame.page then frame.data else (putBack f pool).contents p := by
  have hnone : pool.frames[f].page = .none := (h.free_iff f).1 (by simp [putBack])
  have hnil : modesOn gs f = [] := (h.of_no_page hnone).1
  have hnotfree : f ∉ pool.free := by
    have := (List.nodup_append.1 h.nodup).2.2
    exact fun hf => this f hf f (List.mem_singleton_self f) rfl
  have hget : ∀ d : Fin n, pool'.frames[d] = if d = f then frame else pool.frames[d] := fun d => by
    rw [hframes, getElem_set_fin]
  refine ⟨⟨hspace ▸ h.space, h.table_insert_iff hnone htable hframes hpage habsent, ?_, fun d => ?_,
    fun d => ?_, fun g hg => ?_, fun d => ?_⟩, h.contents_insert hnone hspace htable hframes⟩
  · rw [hfree]
    exact (List.nodup_append.1 h.nodup).1
  · have hold : d ∈ pool.free ++ [f] ↔ pool.frames[d].page = .none := h.free_iff d
    rw [hfree, hget]
    by_cases hd : d = f
    · rw [if_pos hd, hd]
      exact iff_of_false hnotfree hpage
    · rw [if_neg hd, ← hold, List.mem_append, List.mem_singleton]
      exact (or_iff_left hd).symm
  · have hold := h.candidate_iff d
    rw [hcand, hget]
    by_cases hd : d = f
    · -- the guard is a pin
      rw [if_pos hd]
      refine iff_of_false (fun hc => hc.1 hd) fun hc => ?_
      rw [hfit.pins_eq] at hc
      exact absurd hc.2 (Nat.succ_ne_zero 0)
    · rw [if_neg hd]
      exact (and_iff_right hd).trans hold
  · rcases List.mem_cons.1 hg with rfl | hg
    · rw [hget, if_pos rfl]
      exact ⟨hpage, rfl⟩
    · have hne : g.frame ≠ f := modesOn_eq_nil_iff.1 hnil g hg
      rw [hget, if_neg hne]
      exact h.guard g hg
  · rw [hspace, hget, modesOn_cons]
    by_cases hd : d = f
    · rw [if_pos hd, if_pos hd.symm, hd, hnil]
      exact hfit
    · rw [if_neg hd, if_neg (Ne.symm hd)]
      exact h.frame d

/-- **The disk changes** under the frames. For a page in a frame it may hold the bytes of the frame
afterwards, and else what it held before. -/
theorem set_space (h : Sound pool gs) {s : Space m} (hs : s.Sound)
    (hmem : ∀ f : Fin n, pool.frames[f].page ≠ .none → pool.frames[f].page.val.toNat ∈ s.members)
    (hstored : ∀ f : Fin n, pool.frames[f].page ≠ .none →
      s.stored pool.frames[f].page = pool.space.stored pool.frames[f].page ∨
        s.stored pool.frames[f].page = pool.frames[f].data) :
    Sound { pool with space := s } gs where
  space := hs
  table_iff := h.table_iff
  nodup := h.nodup
  free_iff := h.free_iff
  candidate_iff := h.candidate_iff
  guard := h.guard
  frame f := by
    have hf := h.frame f
    refine ⟨hf.pins_eq, hf.latch, hmem f, fun hpage hdirty hlatch => ?_⟩
    rcases hstored f hpage with hold | hnew
    · rw [hold]
      exact hf.clean hpage hdirty hlatch
    · exact hnew.symm

/-- A disk that stands for the same pages and bytes changes nothing. -/
theorem space_agrees (h : Sound pool gs) {s : Space m} (hs : s.Sound)
    (ha : pool.space.Agrees s) :
    Sound { pool with space := s } gs ∧ { pool with space := s }.pages = pool.pages := by
  have hrange : ∀ f : Fin n, pool.frames[f].page ≠ .none →
      pool.frames[f].page.val.toNat ∈ pool.space.members := fun f hf => (h.frame f).member hf
  refine ⟨h.set_space hs (fun f hf => ?_) fun f hf => .inl ?_,
    pages_congr ha.members_eq fun p hp => ?_⟩
  · rw [ha.members_eq]
    exact hrange f hf
  · exact ha.stored_eq _ (h.space.isInRange_of_mem (hrange f hf))
  · rw [contents, contents]
    rcases pool.table[p]? with _ | f
    · exact ha.stored_eq p (h.isInRange_of_mem hp)
    · rfl

/-- **A frame's bytes go to disk**, where they replace those of its page. -/
theorem space_written (h : Sound pool gs) (hf : pool.frames[f].page ≠ .none) {s : Space m}
    (hs : s.Sound) (hmem : s.members = pool.space.members)
    (hst : ∀ q : PageId, q.isInRange = true → s.stored q =
      if q = pool.frames[f].page then pool.frames[f].data else pool.space.stored q) :
    Sound { pool with space := s } gs ∧ { pool with space := s }.pages = pool.pages ∧
      s.stored pool.frames[f].page = pool.frames[f].data := by
  have hrange : ∀ d : Fin n, pool.frames[d].page ≠ .none →
      pool.frames[d].page.isInRange = true := fun d hd =>
    h.space.isInRange_of_mem ((h.frame d).member hd)
  have hlook := (h.table_iff pool.frames[f].page f).2 ⟨hf, rfl⟩
  refine ⟨h.set_space hs (fun d hd => ?_) fun d hd => ?_, pages_congr hmem fun p hp => ?_, ?_⟩
  · rw [hmem]
    exact (h.frame d).member hd
  · rw [hst _ (hrange d hd)]
    by_cases hdf : pool.frames[d].page = pool.frames[f].page
    · have hd' := (h.table_iff pool.frames[f].page d).2 ⟨hf, hdf⟩
      obtain rfl : f = d := Option.some.inj (hlook.symm.trans hd')
      exact .inr (if_pos rfl)
    · exact .inl (if_neg hdf)
  · rw [contents, contents]
    rcases ht : pool.table[p]? with _ | d
    · refine (hst p (h.isInRange_of_mem hp)).trans (if_neg ?_)
      rintro rfl
      rw [hlook] at ht
      cases ht
    · rfl
  · rw [hst _ (hrange f hf), if_pos rfl]

/-- **A page that another space has too**, with the same bytes, is the same over that space. -/
theorem pages_space_eq (h : Sound pool gs) {s : Space m} {q : PageId}
    (hmem : q.val.toNat ∈ s.members ↔ q.val.toNat ∈ pool.space.members)
    (hst : q.isInRange = true → s.stored q = pool.space.stored q) :
    { pool with space := s }.pages q = pool.pages q := by
  by_cases hq : q.val.toNat ∈ pool.members
  · rw [pages_eq_some_iff.2 ⟨hq, rfl⟩, pages_eq_some_iff]
    refine ⟨hmem.2 hq, ?_⟩
    rw [contents, contents]
    rcases pool.table[q]? with _ | f
    · exact hst (h.isInRange_of_mem hq)
    · rfl
  · rw [pages_eq_none_iff.2 hq, pages_eq_none_iff]
    exact mt hmem.1 hq

/-- **A page is allocated** on disk. -/
theorem space_allocated (h : Sound pool gs) {s : Space m} (hs : s.Sound) {p : PageId}
    (hmem : s.members = insert p.val.toNat pool.space.members)
    (hst : ∀ q : PageId, q.isInRange = true → s.stored q = pool.space.stored q) :
    Sound { pool with space := s } gs ∧
      ∀ q, q ≠ p → { pool with space := s }.pages q = pool.pages q := by
  refine ⟨h.set_space hs (fun f hf => ?_) fun f hf => .inl (hst _ ?_), fun q hq => ?_⟩
  · rw [hmem]
    exact mem_insert_of_mem ((h.frame f).member hf)
  · exact h.space.isInRange_of_mem ((h.frame f).member hf)
  · have hne : q.val.toNat ≠ p.val.toNat := fun e => hq (PageId.ext_toNat e)
    refine h.pages_space_eq ?_ (hst q)
    rw [hmem, mem_insert, or_iff_right hne]

/-- **A page is freed** on disk, after it left its frame. -/
theorem space_freed (h : Sound pool gs) {s : Space m} (hs : s.Sound) {p : PageId}
    (ht : pool.table[p]? = none) (hmem : s.members = pool.space.members.erase p.val.toNat)
    (hst : ∀ q : PageId, q.isInRange = true → s.stored q = pool.space.stored q) :
    Sound { pool with space := s } gs ∧
      { pool with space := s }.pages = Function.update pool.pages p none := by
  have hrange : ∀ f : Fin n, pool.frames[f].page ≠ .none →
      pool.frames[f].page.isInRange = true := fun f hf =>
    h.space.isInRange_of_mem ((h.frame f).member hf)
  refine ⟨h.set_space hs (fun f hf => ?_) fun f hf => .inl (hst _ (hrange f hf)), ?_⟩
  · rw [hmem]
    refine mem_erase.2 ⟨fun e => ?_, (h.frame f).member hf⟩
    have hlook := (h.table_iff _ f).2 ⟨hf, rfl⟩
    rw [PageId.ext_toNat e, ht] at hlook
    cases hlook
  · funext q
    by_cases hq : q = p
    · rw [hq, Function.update_self, pages_eq_none_iff]
      change p.val.toNat ∉ s.members
      rw [hmem]
      exact notMem_erase _ _
    · have hne : q.val.toNat ≠ p.val.toNat := fun e => hq (PageId.ext_toNat e)
      rw [Function.update_of_ne hq]
      refine h.pages_space_eq ?_ (hst q)
      rw [hmem, mem_erase, and_iff_right hne]

end Sound

end Pool

end PageStore
