import PageStore.Proofs.Pool.Durable

/-!
# Pools in which nothing changes

A guard makes its page dirty only if the bytes were changed under it, be it for writing or not. So
who fetches pages, looks at them and gives the guards back changes no page and makes none dirty,
whatever pages are evicted and read again on the way: `Pool.Quiet` is kept by each of these steps.
What is left of a pool is `Pool.Undisturbed` then, and a full flush that follows another finds
nothing to write: `Pool.Quiet.flushAll_eq_ok`.
-/

namespace PageStore.Pool

open PageStore.Action

variable {n m : Nat} {gs : List (Guard n)} {pool pool' : Pool n m}
  {P : PageId → Option Page} {D : Set PageId} {g : Guard n}

/-- **Nothing is disturbed** from the first pool to the second. -/
structure Undisturbed (pool pool' : Pool n m) : Prop where
  /-- the same pages are allocated -/
  members_eq : pool'.members = pool.members
  /-- every page has the bytes that it had -/
  pages_eq : pool'.pages = pool.pages
  /-- no page becomes dirty -/
  dirty : ∀ p, pool'.isDirty? p = some true → pool.isDirty? p = some true

/-- The pages that are dirty. -/
def dirtyPages (pool : Pool n m) : Set PageId := {p | pool.isDirty? p = some true}

/-- **A quiet pool** shows the pages `P`, and none is dirty outside of `D`. The guards that are out
are `gs` and the one in `place`, under which no bytes were changed. -/
structure Quiet (gs : List (Guard n)) (P : PageId → Option Page) (D : Set PageId)
    (place : Option (Guard n)) (pool : Pool n m) : Prop where
  sound : pool.Sound (place.toList ++ gs)
  pages_eq : pool.pages = P
  /-- what a frame without a page has is no matter -/
  dirty : pool.DirtyIn (insert .none D)
  unchanged : ∀ g ∈ place, g.mode = .write → pool.isChanged g = false

/-- Every pool is quiet with respect to itself. -/
theorem Sound.quiet (hs : pool.Sound gs) : pool.Quiet gs pool.pages pool.dirtyPages none where
  sound := hs
  pages_eq := rfl
  dirty f hf := by
    by_cases hp : pool.frames[f].page = .none
    · exact .inl hp
    · have ht : pool.table[pool.frames[f].page]? = some f := (hs.table_iff _ f).2 ⟨hp, rfl⟩
      exact .inr ((Sound.isDirty?_of_table ht).trans (congrArg some hf))
  unchanged := nofun

namespace Quiet

variable {gs' : List (Guard n)} {place : Option (Guard n)}

/-- A guard for reading may as well be the one in place. -/
theorem take (h : pool.Quiet gs P D none) (hperm : gs.Perm (place.toList ++ gs'))
    (hread : ∀ g ∈ place, g.mode = .read) : pool.Quiet gs' P D place where
  sound := Sound.perm h.sound hperm
  pages_eq := h.pages_eq
  dirty := h.dirty
  unchanged g hg hw := by
    rw [hread g hg] at hw
    cases hw

/-- The guard in place is one of those that are out. -/
theorem give (h : pool.Quiet gs' P D place) (hperm : gs.Perm (place.toList ++ gs')) :
    pool.Quiet gs P D none :=
  ⟨h.sound.perm hperm.symm, h.pages_eq, h.dirty, nofun⟩

/-- A page that is dirty was dirty before. -/
theorem mem_of_isDirty (h : pool.Quiet gs P D none) {p : PageId}
    (hp : pool.isDirty? p = some true) :
    p ∈ D := by
  obtain ⟨f, ht, hdirty⟩ := Option.map_eq_some_iff.1 hp
  obtain ⟨hne, rfl⟩ := (h.sound.table_iff p f).1 ht
  exact (h.dirty f hdirty).resolve_left hne

/-- A guard that was handed out just now has changed nothing. -/
theorem isChanged_of_fetch {mode : Mode} {p : PageId} (hrun : Pool.fetch mode p pool = .ok g pool')
    (hw : g.mode = .write) : pool'.isChanged g = false := by
  rw [Pool.fetch, Action.get_bind] at hrun
  split at hrun
  · cases hrun
  · obtain ⟨f, pool₁, -, hlatch⟩ := bind_eq_ok_iff.1 hrun
    cases hlatch
    obtain rfl : mode = .write := hw
    rw [isChanged, getElem_editFrame, if_pos rfl]
    cases pool₁.frames[f].latch <;> rfl

/-- **Fetching a page** changes nothing, for whatever it is fetched, and whether it succeeds. -/
theorem fetch_cases (h : pool.Quiet gs P D none) (mode : Mode) (p : PageId) :
    (∃ g pool', Pool.fetch mode p pool = .ok g pool' ∧ g.page = p ∧ g.mode = mode ∧
      pool'.Quiet gs P D (some g)) ∨
    ∃ e pool', Pool.fetch mode p pool = .error e pool' ∧ pool'.Quiet gs P D none := by
  have hdirty := dirtyIn_fetch (n := n) (m := m) (U := insert .none D) mode p
  rcases h.sound.fetch_cases mode p with ⟨g, pool', hrun, hpage, hmode, hs', hpages⟩ |
    ⟨e, pool', hrun, hs', hpages, -⟩
  · have hdirty' := hdirty.of_ok h.dirty hrun
    refine .inl ⟨g, pool', hrun, hpage, hmode, hs', hpages.trans h.pages_eq, hdirty', ?_⟩
    rintro _ ⟨⟩
    exact isChanged_of_fetch hrun
  · have hdirty' := hdirty.of_error h.dirty hrun
    exact .inr ⟨e, pool', hrun, hs', hpages.trans h.pages_eq, hdirty', nofun⟩

/-- **Giving a guard back** that has changed nothing. -/
theorem release (h : pool.Quiet gs P D (some g)) : (pool.release g).Quiet gs P D none := by
  obtain ⟨hs', hpages⟩ := Sound.release h.sound
  refine ⟨hs', hpages.trans h.pages_eq, ?_, nofun⟩
  refine h.dirty.release h.sound List.mem_cons_self fun hw hchanged => ?_
  rw [h.unchanged g rfl hw] at hchanged
  cases hchanged

/-- **A full flush finds nothing to write** where only those pages can be dirty that a writer
holds. -/
theorem flushAll_eq_ok (h : pool.Quiet gs P D none) (hD : ∀ p ∈ D, hasWriter gs p = true) :
    flushAll pool = .ok 0 pool := by
  refine flushFrames_of_not_due fun f _ => Bool.eq_false_iff.2 fun hdue => ?_
  have hcurrent : pool.isCurrent f = true := by
    rw [isDue, Bool.and_eq_true, Bool.and_eq_true] at hdue
    exact hdue.1.1
  have ht : pool.table[pool.frames[f].page]? = some f :=
    (h.sound.table_iff _ f).2 ⟨h.sound.isCurrent_iff.1 hcurrent, rfl⟩
  have hs : pool.Sound gs := h.sound
  obtain ⟨hdirty, hnone⟩ := of_decide_eq_true (hs.isDue_eq ht ▸ hdue)
  exact Bool.false_ne_true (hnone.symm.trans (hD _ (h.mem_of_isDirty hdirty)))

end Quiet

/-- A pool that was quiet all the time is undisturbed. -/
theorem Sound.undisturbed {gs' : List (Guard n)} (hs : pool.Sound gs)
    (h : pool'.Quiet gs' pool.pages pool.dirtyPages none) : pool.Undisturbed pool' where
  members_eq := members_eq_of_pages hs.space h.sound.space h.pages_eq
  pages_eq := h.pages_eq
  dirty _ := h.mem_of_isDirty

/-- Readers do not count among the writers. -/
theorem hasWriter_append {readers : List (Guard n)} (hread : ∀ g ∈ readers, g.mode = .read)
    (p : PageId) : hasWriter (readers ++ gs) p = hasWriter gs p := by
  have hnone : hasWriter readers p = false := by
    refine List.any_eq_false.2 fun g hg hwrites => ?_
    have hw := (of_decide_eq_true hwrites).2
    rw [hread g hg] at hw
    cases hw
  rw [hasWriter, List.any_append, ← hasWriter, ← hasWriter, hnone, Bool.false_or]

/-- What is dirty after a full flush is held by a writer. -/
theorem FlushesTo.hasWriter_of_dirty (h : pool.FlushesTo gs pool') {p : PageId}
    (hp : p ∈ pool'.dirtyPages) : hasWriter gs p = true := by
  by_contra hnone
  have hclean := h.clean p (Bool.eq_false_iff.2 hnone)
  obtain ⟨_, -, hfalse⟩ := Option.map_eq_some_iff.1 (hclean.symm.trans hp)
  cases hfalse

end PageStore.Pool
