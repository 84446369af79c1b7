import PageStore.Proofs.Pool.Books

/-!
# Clean pages and full flushes

A page that does not count as dirty is on disk: `Pool.Truthful` says so of every page in a frame
that no writer holds. So a full flush is a point that nothing is lost from. It writes the dirty
pages, except those that a writer holds, and counts them; and when no writer is out, a file that
is copied after it, and after the space was flushed, has everything that the running pool has.

`OpenPool.always_durable` says this of every state that a run of uses leads to.
-/

namespace PageStore

/-! ## Uses -/

/-- What can be done to an open pool, with the uses that change no page. -/
inductive PoolUse where
  | call (c : PoolCall)
  | isFree (p : PageId)
  /-- counts the bytes under a write guard as changed -/
  | mark (i : Nat)
  | resetCounters
  /-- writes the header and the bitmaps of the space to the file -/
  | sync

/-- The pool after a use. -/
def PoolUse.run : PoolUse → OpenPool → OpenPool
  | call c, o => (c.run o).2
  | isFree p, ⟨_, _, pool, guards⟩ =>
    (PoolReply.ofResult .flag guards (Pool.onSpace (Space.isFree p) pool)).2
  | mark i, ⟨n, m, pool, guards⟩ =>
    match guards[i]? with
    | some ⟨p, f, .write⟩ => ⟨n, m, pool.mark ⟨p, f, .write⟩, guards⟩
    | _ => ⟨n, m, pool, guards⟩
  | resetCounters, ⟨n, m, pool, guards⟩ => ⟨n, m, pool.resetCounters, guards⟩
  | sync, ⟨n, m, pool, guards⟩ => ⟨n, m, { pool with space := pool.space.flush }, guards⟩

/-- The pool after uses of any kind. -/
def OpenPool.afterUses (o : OpenPool) (uses : List PoolUse) : OpenPool :=
  uses.foldl (fun o use => use.run o) o

/-- **One use** keeps the pool sound. -/
theorem PoolUse.sound_run {o : OpenPool} (h : o.pool.Sound o.guards) (use : PoolUse) :
    (use.run o).pool.Sound (use.run o).guards := by
  obtain ⟨n, m, pool, gs⟩ := o
  have hs : pool.Sound gs := h
  cases use with
  | call c =>
    obtain ⟨l', -, hnext⟩ := (OpenPool.reflects_of_sound h).step c
    exact hnext.sound
  | isFree p =>
    by_cases hp : p.isInRange = true
    · obtain ⟨s, hrun, hs', ha⟩ := hs.space.isFree_eq_ok hp
      rw [run, Pool.onSpace_ok hrun]
      exact (hs.space_agrees hs' ha).1
    · rw [run, Pool.onSpace_error (Space.Sound.isFree_eq_error _ (by simpa using hp))]
      exact hs
  | mark i =>
    rcases hi : gs[i]? with _ | ⟨p, f, _ | _⟩
    · have hrun : (mark i).run ⟨n, m, pool, gs⟩ = ⟨n, m, pool, gs⟩ := by simp only [run, hi]
      rw [hrun]
      exact hs
    · have hrun : (mark i).run ⟨n, m, pool, gs⟩ = ⟨n, m, pool, gs⟩ := by simp only [run, hi]
      rw [hrun]
      exact hs
    · have hrun : (mark i).run ⟨n, m, pool, gs⟩ = ⟨n, m, pool.mark ⟨p, f, .write⟩, gs⟩ := by
        simp only [run, hi]
      rw [hrun]
      exact (hs.mark (List.mem_of_getElem? hi) rfl).1
  | resetCounters => exact hs.counters 0 0
  | sync =>
    obtain ⟨hs', ha, -⟩ := hs.space.flush
    exact (hs.space_agrees hs' ha).1

theorem OpenPool.sound_afterUses {o : OpenPool} (h : o.pool.Sound o.guards) (uses : List PoolUse) :
    (o.afterUses uses).pool.Sound (o.afterUses uses).guards := by
  induction uses generalizing o with
  | nil => exact h
  | cons use uses ih => exact ih (PoolUse.sound_run h use)

/-! ## What is promised -/

/-- What an action answers, without the state that it leaves. -/
def Action.answer {σ α : Type} (act : Action σ α) (s : σ) : Except Halt α :=
  match act s with
  | .ok a _ => .ok a
  | .error e _ => .error e

namespace Pool

variable {n m : Nat}

/-- A page in a frame that is not dirty, and that no writer holds, reads on disk as the bytes of
its frame. -/
def Truthful (pool : Pool n m) (gs : List (Guard n)) : Prop :=
  ∀ e ∈ pool.cached, pool.isDirty? e.1 = some false → hasWriter gs e.1 = false →
    (Space.read e.1 pageSize).answer pool.space = .ok pool.frames[e.2].data

/-- What flushing does while the guards `gs` are out. -/
structure FlushesTo (pool : Pool n m) (gs : List (Guard n)) (pool' : Pool n m) : Prop where
  /-- a full flush counts the dirty pages that no writer holds -/
  run_eq : flushAll pool = .ok (pool.cached.countP fun e =>
    pool.isDirty? e.1 = some true ∧ hasWriter gs e.1 = false) pool'
  /-- another one finds nothing to write, and does nothing -/
  again : flushAll pool' = .ok 0 pool'
  /-- every page stays in its frame -/
  cached_eq : pool'.cached = pool.cached
  /-- no page is another one -/
  pages_eq : pool'.pages = pool.pages
  /-- a page that no writer holds is not dirty any more -/
  clean : ∀ p, hasWriter gs p = false → pool'.isDirty? p = (pool.isDirty? p).map fun _ => false
  /-- a page that a writer holds stays as dirty as it was, and is not written -/
  skipped : ∀ p, hasWriter gs p = true → pool'.isDirty? p = pool.isDirty? p ∧
    (Space.read p pageSize).answer pool'.space = (Space.read p pageSize).answer pool.space
  /-- nor is it written when it is flushed alone -/
  flush_eq : ∀ p, hasWriter gs p = true → flush p pool = .ok false pool

/-- A space that was opened on a file shows what a pool shows that used the file before. -/
structure Restores {m' : Nat} (pool : Pool n m) (s : Space m') : Prop where
  /-- the same pages are free -/
  isFree_eq : ∀ p, (Space.isFree p).answer s = (Space.isFree p).answer pool.space
  allocatedPages_eq : s.allocatedPages = pool.space.allocatedPages
  extents_eq : s.extents = pool.space.extents
  /-- an allocated page reads as its newest bytes -/
  read_eq : ∀ p page, pool.pages p = some page →
    (Space.read p pageSize).answer s = .ok page
  /-- so does one that is fetched into a pool of any size -/
  fetch_eq : ∀ (k : Nat) (policy : Policy) (mode : Mode) (p : PageId) (page : Page), 0 < k →
    pool.pages p = some page → ∃ g pool', fetch mode p (empty k policy s) = .ok g pool' ∧
      pool'.bytes g = page

/-- Nothing is lost after the flush that led to `pool'`. -/
structure Durable (pool pool' : Pool n m) : Prop where
  /-- the flush counts the dirty pages -/
  run_eq : flushAll pool = .ok (pool.cached.countP fun e => pool.isDirty? e.1 = some true) pool'
  /-- another one right after it finds none -/
  again : flushAll pool' = .ok 0 pool'
  /-- a copy of the file, made after the space was flushed too, has everything that the pool has -/
  restores : ∀ disk : SpaceConfig, disk.validate = .ok () →
    ∃ s, Space.mount disk (.file pool'.space.flush.bitmaps.device.image) = .ok s ∧
      pool'.Restores s
  /-- which is what the pool shows whenever it hands out a guard -/
  shows : ∀ mode p g q, fetch mode p pool' = .ok g q → pool'.pages p = some (q.bytes g)

/-! ## What has to be written -/

namespace Sound

variable {pool pool' : Pool n m} {gs : List (Guard n)}

theorem isDirty?_of_table {p : PageId} {f : Fin n} (ht : pool.table[p]? = some f) :
    pool.isDirty? p = some pool.frames[f].dirty := by
  rw [isDirty?, ht]
  rfl

/-- A page in a frame has to be written when it is dirty and no writer holds it. -/
theorem isDue_eq (h : pool.Sound gs) {p : PageId} {f : Fin n} (ht : pool.table[p]? = some f) :
    pool.isDue f = decide (pool.isDirty? p = some true ∧ hasWriter gs p = false) := by
  obtain ⟨hne, hpage⟩ := (h.table_iff p f).1 ht
  have hcurrent : pool.isCurrent f = true := h.isCurrent_iff.2 (hpage.symm ▸ hne)
  rw [isDue, hcurrent, h.admits_read_eq ht, isDirty?_of_table ht, Bool.true_and]
  cases pool.frames[f].dirty <;> cases hasWriter gs p <;> rfl

/-- The frames that have to be written are those of the dirty pages that no writer holds. -/
theorem countP_isDue (h : pool.Sound gs) : (List.finRange n).countP (pool.isDue ·) =
    pool.cached.countP fun e => pool.isDirty? e.1 = some true ∧ hasWriter gs e.1 = false := by
  have hfree : pool.free.countP (pool.isDue ·) = 0 := by
    refine List.countP_eq_zero.2 fun f hf => ?_
    rw [isDue, Bool.and_eq_true, Bool.and_eq_true, h.isCurrent_iff]
    exact fun hdue => hdue.1.1 ((h.free_iff f).1 hf)
  rw [← h.free_append_cached.countP_eq, List.countP_append, hfree, Nat.zero_add, List.countP_map]
  refine List.countP_congr fun e he => ?_
  rw [Function.comp_apply, h.isDue_eq (mem_cached_iff.1 he)]

/-! ## What is on disk -/

/-- What a read answers. -/
theorem answer_read {s : Space m} (hs : s.Sound) {p : PageId} (hp : p.val.toNat ∈ s.members) :
    (Space.read p pageSize).answer s = .ok (s.stored p) := by
  obtain ⟨s', hrun, -⟩ := hs.read_eq_ok (hs.isInRange_of_mem hp)
  rw [Action.answer, hrun, if_pos hp]

/-- What is free is told by the pages that are allocated. -/
theorem answer_isFree {s : Space m} (hs : s.Sound) (p : PageId) :
    (Space.isFree p).answer s = if p.isInRange then .ok (decide (p.val.toNat ∉ s.members))
      else .error (.refused (.invalidPage p)) := by
  by_cases hp : p.isInRange = true
  · obtain ⟨s', hrun, -⟩ := hs.isFree_eq_ok hp
    rw [Action.answer, hrun, if_pos hp]
  · rw [Action.answer, Space.Sound.isFree_eq_error s (by simpa using hp), if_neg hp]

/-- **A page that is not dirty** is on disk, as long as no writer holds it. -/
theorem stored_eq_of_clean (h : pool.Sound gs) {p : PageId} {f : Fin n}
    (ht : pool.table[p]? = some f) (hdirty : pool.isDirty? p = some false)
    (hwriter : hasWriter gs p = false) : pool.space.stored p = pool.frames[f].data := by
  obtain ⟨hne, rfl⟩ := (h.table_iff p f).1 ht
  have hopen := h.admits_read_eq ht
  rw [hwriter, Bool.not_false, Latch.admits_read_iff] at hopen
  rw [isDirty?_of_table ht, Option.some_inj] at hdirty
  refine ((h.frame f).clean hne hdirty ?_).symm
  cases hlatch : pool.frames[f].latch with
  | free => rfl
  | shared readers => rfl
  | exclusive changed => exact absurd hlatch (hopen changed)

theorem truthful (h : pool.Sound gs) : pool.Truthful gs := by
  rintro ⟨p, f⟩ he hdirty hwriter
  have ht := mem_cached_iff.1 he
  rw [answer_read h.space (h.mem_of_table ht), h.stored_eq_of_clean ht hdirty hwriter]

/-! ## Flushing -/

/-- **A full flush** writes what is dirty, but for the pages that a writer holds. -/
theorem flushesTo (h : pool.Sound gs) : ∃ pool', pool'.Sound gs ∧ pool.FlushesTo gs pool' := by
  obtain ⟨pool', hrun, h', hflushed⟩ := h.flushAll_eq_ok
  have hmem : pool'.members = pool.members := members_eq_of_pages h.space h'.space hflushed.pages_eq
  have hdirty : ∀ p, pool'.isDirty? p =
      if hasWriter gs p then pool.isDirty? p else (pool.isDirty? p).map fun _ => false := by
    intro p
    rcases ht : pool.table[p]? with _ | f
    · rw [isDirty?, isDirty?, hflushed.table_eq, ht]
      split <;> rfl
    · have ht' : pool'.table[p]? = some f := hflushed.table_eq ▸ ht
      rw [isDirty?_of_table ht', hflushed.dirty_eq, h.isDue_eq ht, isDirty?_of_table ht]
      cases pool.frames[f].dirty <;> cases hasWriter gs p <;> rfl
  refine ⟨pool', h', ?_, flushFrames_of_not_due fun f _ => hflushed.isDue_eq_false f,
    by rw [cached, hflushed.table_eq, cached], hflushed.pages_eq, fun p hp => ?_,
    fun p hp => ⟨?_, ?_⟩, fun p hp => ?_⟩
  · rw [hrun, h.countP_isDue]
  · rw [hdirty, hp]
    rfl
  · rw [hdirty, hp]
    rfl
  · obtain ⟨g, hg, hwrites⟩ := List.any_eq_true.1 hp
    obtain ⟨rfl, -⟩ := of_decide_eq_true hwrites
    have ht := h.table_guard hg
    have hin := h.mem_of_guard hg
    have hin' : g.page.val.toNat ∈ pool'.members := hmem ▸ hin
    rw [answer_read h.space hin, answer_read h'.space hin']
    refine congrArg _ (hflushed.stored_eq _ (h.isInRange_of_mem hin) fun f _ hdue hpage => ?_)
    -- a frame of this page would have a writer
    have hf : pool.table[g.page]? = some f := (h.table_iff _ f).2 ⟨(h.guard g hg).1, hpage⟩
    rw [h.isDue_eq hf, hp] at hdue
    exact Bool.noConfusion (of_decide_eq_true hdue).2
  · obtain ⟨g, hg, hwrites⟩ := List.any_eq_true.1 hp
    obtain ⟨rfl, -⟩ := of_decide_eq_true hwrites
    have ht := h.table_guard hg
    rw [flush_eq (PageId.isSome_iff.2 (h.guard g hg).1), ht]
    refine flushFrame_of_held ?_
    rw [h.admits_read_eq ht, hp]
    rfl

/-- A pool in which nothing is dirty has its newest bytes on disk. -/
theorem contents_eq_stored (h : pool.Sound gs) (hwriters : ∀ p, hasWriter gs p = false)
    (hclean : ∀ p, pool.isDirty? p ≠ some true) (p : PageId) :
    pool.contents p = pool.space.stored p := by
  rcases ht : pool.table[p]? with _ | f
  · exact contents_of_none ht
  · rw [contents_of_table ht]
    refine (h.stored_eq_of_clean ht ?_ (hwriters p)).symm
    have := hclean p
    rw [isDirty?_of_table ht] at this ⊢
    cases hd : pool.frames[f].dirty with
    | false => rfl
    | true => exact absurd (congrArg some hd) this

/-- What a space has in common with the disk under a pool that has nothing else, it restores. -/
theorem restores (h : pool.Sound gs) {m' : Nat} {s : Space m'} (hs : s.Sound)
    (ha : pool.space.Agrees s)
    (hdisk : ∀ p : PageId, pool.contents p = pool.space.stored p) : pool.Restores s := by
  have hread : ∀ p page, pool.pages p = some page →
      p.val.toNat ∈ s.members ∧ s.stored p = page := by
    intro p page hpage
    obtain ⟨hp, hcon⟩ := pages_eq_some_iff.1 hpage
    rw [ha.members_eq, ha.stored_eq p (h.isInRange_of_mem hp), ← hdisk p]
    exact ⟨hp, hcon⟩
  refine ⟨fun p => ?_, ?_, ha.extents_eq, fun p page hpage => ?_,
    fun k policy mode p page hk hpage => ?_⟩
  · rw [answer_isFree hs, answer_isFree h.space, ha.members_eq]
  · rw [← UInt32.toNat_inj, hs.allocatedPages_eq, h.space.allocatedPages_eq, ha.members_eq]
  · obtain ⟨hp, hst⟩ := hread p page hpage
    rw [answer_read hs hp, hst]
  · obtain ⟨hp, hst⟩ := hread p page hpage
    obtain ⟨hempty, hcon⟩ := sound_empty hs k policy
    have hpages : (empty k policy s).pages p = some page :=
      pages_eq_some_iff.2 ⟨hp, (hcon p).trans hst⟩
    obtain ⟨g, pool', hrun, rfl, -, h', hpages'⟩ := hempty.fetch_eq_ok mode (p := p)
      (by rw [hpages]; nofun) nofun fun hfull => absurd (hfull ⟨0, hk⟩) nofun
    refine ⟨g, pool', hrun, ?_⟩
    have hshow := h'.pages_guard List.mem_cons_self
    rw [hpages', hpages] at hshow
    exact (Option.some.inj hshow).symm

/-- **A full flush without writers** loses nothing. -/
theorem durable (h' : pool'.Sound gs) (hflush : pool.FlushesTo gs pool')
    (hread : ∀ g ∈ gs, g.mode = .read) : pool.Durable pool' := by
  have hwriters : ∀ p, hasWriter gs p = false := by
    refine fun p => List.any_eq_false.2 fun g hg hwrites => ?_
    have := (of_decide_eq_true hwrites).2
    rw [hread g hg] at this
    cases this
  have hclean : ∀ p, pool'.isDirty? p ≠ some true := by
    intro p hp
    rw [hflush.clean p (hwriters p)] at hp
    obtain ⟨-, -, hfalse⟩ := Option.map_eq_some_iff.1 hp
    cases hfalse
  refine ⟨?_, hflush.again, fun disk hdisk => ?_, fun mode p g q hfetch => ?_⟩
  · rw [hflush.run_eq]
    simp only [hwriters, and_true]
  · obtain ⟨s, hmount, hs, ha⟩ := h'.space.mount_unmount hdisk
    exact ⟨s, hmount, h'.restores hs ha (h'.contents_eq_stored hwriters hclean)⟩
  · obtain ⟨rfl, -, hq, hpages⟩ := h'.of_fetch hfetch
    rw [← hpages]
    exact hq.pages_guard List.mem_cons_self

end Sound

end Pool

/-! ## Every state -/

namespace OpenPool

/-- **The clean flag tells the truth, and a full flush loses nothing.** On a new file, with any
number of frames, any replacer and any number of slots for bitmaps, after every run of uses: a page
that is not dirty is on disk unless a writer holds it; a full flush writes exactly the dirty pages
that no writer holds; and when no writer is out, a copy of the file has everything after it. -/
theorem always_durable (n : Nat) (policy : Policy) {disk : SpaceConfig}
    (hdisk : disk.validate = .ok ()) {v : Volume} (hv : v.openFile = .ok {}) :
    ∃ space, Space.mount disk v = .ok space ∧ ∀ uses : List PoolUse,
      let o := OpenPool.afterUses ⟨n, _, Pool.empty n policy space, []⟩ uses
      o.pool.Truthful o.guards ∧ ∃ pool', o.pool.FlushesTo o.guards pool' ∧
        ((∀ g ∈ o.guards, g.mode = .read) → o.pool.Durable pool') := by
  obtain ⟨space, hmount, hs, -, -⟩ := Space.Sound.mount_fresh hdisk hv
  refine ⟨space, hmount, fun uses => ?_⟩
  have h := sound_afterUses (o := ⟨n, _, Pool.empty n policy space, []⟩)
    (Pool.sound_empty hs n policy).1 uses
  obtain ⟨pool', h', hflush⟩ := h.flushesTo
  exact ⟨h.truthful, pool', hflush, h'.durable hflush⟩

/-- A page that is created and given back at once leaves no guard, and neither does a refusal. -/
theorem afterUses_newPage_drop {n m : Nat} (pool : Pool n m) :
    ∃ pool', afterUses ⟨n, m, pool, []⟩ [.call .newPage, .call (.drop 0)] = ⟨n, m, pool', []⟩ := by
  cases hnew : Pool.newPage pool with
  | ok g pool₁ =>
    have hrun : PoolCall.newPage.run ⟨n, m, pool, []⟩ =
        (.ok (.page g.page), ⟨n, m, pool₁, [g]⟩) := by
      rw [PoolCall.run, hnew]
      rfl
    refine ⟨pool₁.release g, ?_⟩
    simp only [afterUses, List.foldl_cons, List.foldl_nil, PoolUse.run, hrun]
    rfl
  | error e pool₁ =>
    have hrun : PoolCall.newPage.run ⟨n, m, pool, []⟩ = (.error e, ⟨n, m, pool₁, []⟩) := by
      rw [PoolCall.run, hnew]
      rfl
    refine ⟨pool₁, ?_⟩
    simp only [afterUses, List.foldl_cons, List.foldl_nil, PoolUse.run, hrun]
    rfl

/-- A pool with one frame, in which a page is created and given back before the flush. -/
theorem always_durable_one : ∃ space, Space.mount ⟨1⟩ .missing = .ok space ∧
    let o := OpenPool.afterUses ⟨1, _, Pool.empty 1 .lru space, []⟩
      [.call .newPage, .call (.drop 0)]
    o.pool.Truthful o.guards ∧ ∃ pool', o.pool.FlushesTo o.guards pool' ∧ o.pool.Durable pool' := by
  obtain ⟨space, hmount, huses⟩ := @always_durable 1 .lru ⟨1⟩ rfl .missing rfl
  obtain ⟨htruth, pool', hflush, hdurable⟩ := huses [.call .newPage, .call (.drop 0)]
  refine ⟨space, hmount, htruth, pool', hflush, hdurable ?_⟩
  obtain ⟨pool, hafter⟩ := afterUses_newPage_drop (Pool.empty 1 .lru space)
  rw [hafter]
  exact nofun

end OpenPool

end PageStore
