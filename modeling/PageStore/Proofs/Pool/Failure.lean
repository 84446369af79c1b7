import PageStore.Proofs.Pool.Durable
import PageStore.Proofs.Pool.Line

/-!
# Calls that fail

A call that fails has often done a part of its work: it has counted a miss, brought a bitmap into
memory, or written a victim back and taken its frame. What becomes of the pool all the same:

* `Pool.Spares`: every page has the bytes that it had, every guard its pins, and the books agree;
* `Pool.Unmoved`: table, free list, frames and replacer are what they were;
* `Pool.Returns`: a frame that was taken for nothing is free again.

`OpenPool.failure_spares` is that a failed call leaves the first of these, and the second as well
unless it found all pages allocated; then it leaves the third.
-/

namespace PageStore

namespace Pool

open PageStore.Action Finset

variable {n m : Nat} {pool pool' : Pool n m} {gs : List (Guard n)} {p : PageId} {mode : Mode}
  {e : Halt}

/-! ## What a fetch lends -/

/-- A fetch hands page `p` out with these bytes. -/
def Lends (pool : Pool n m) (mode : Mode) (p : PageId) (bytes : Page) : Prop :=
  ∃ g pool', fetch mode p pool = .ok g pool' ∧ pool'.bytes g = bytes

/-- A page on which the guards are readers can be read. -/
theorem Sound.admits_read (h : pool.Sound gs) {f : Fin n} (ht : pool.table[p]? = some f)
    (hreaders : ∀ g ∈ gs, g.page = p → g.mode = .read) :
    pool.frames[f].latch.admits .read = true := by
  rw [h.admits_read_eq ht, Bool.not_eq_true', hasWriter, List.any_eq_false]
  intro g hg hwrites
  obtain ⟨hgp, hgw⟩ := of_decide_eq_true hwrites
  have hread := hreaders g hg hgp
  rw [hgw] at hread
  cases hread

/-- A page in a frame is fetched if those who hold it and the caller are readers, or if nobody
holds it. -/
theorem Sound.admits (h : pool.Sound gs) {f : Fin n} (ht : pool.table[p]? = some f)
    (hshared : ∀ g ∈ gs, g.page = p → mode = .read ∧ g.mode = .read) :
    pool.frames[f].latch.admits mode = true := by
  by_cases hheld : ∃ g ∈ gs, g.page = p
  · obtain ⟨g, hg, hgp⟩ := hheld
    obtain ⟨rfl, -⟩ := hshared g hg hgp
    exact h.admits_read ht fun d hd hdp => (hshared d hd hdp).2
  · have hlatch := (h.frame f).latch
    rw [h.modesOn_eq_nil ht fun g hg hgp => hheld ⟨g, hg, hgp⟩, Latch.fits_nil_iff] at hlatch
    rw [hlatch]
    rfl

/-- **What a fetch lends** is told from the pages and the guards: the page is allocated, nobody is
in the way, and there is a frame for it. -/
theorem Sound.lends_iff (h : pool.Sound gs) {bytes : Page} :
    pool.Lends mode p bytes ↔ pool.pages p = some bytes ∧
      (∀ g ∈ gs, g.page = p → mode = .read ∧ g.mode = .read) ∧
      (Full gs → ∃ g ∈ gs, g.page = p) := by
  constructor
  · rintro ⟨g, pool', hrun, rfl⟩
    obtain ⟨rfl, rfl, hs, hpages⟩ := h.of_fetch hrun
    refine ⟨hpages ▸ hs.pages_guard List.mem_cons_self, fun d hd hdp => ?_, fun hfull => ?_⟩
    · have hread : ∀ {mode : Mode}, mode ≠ .write → mode = .read := by
        rintro (_ | _) hne
        · rfl
        · exact absurd rfl hne
      exact ⟨hread fun hw => hs.page_ne_of_write hd (.inl hw) hdp,
        hread fun hw => hs.page_ne_of_write hd (.inr hw) hdp⟩
    · obtain ⟨d, hd, hframe⟩ := hfull g.frame
      refine ⟨d, hd, ?_⟩
      rw [← (hs.guard d (.tail _ hd)).2, hframe, (hs.guard g List.mem_cons_self).2]
  · rintro ⟨hpage, hshared, hroom⟩
    have hlends : ∀ {g : Guard n} {pool' : Pool n m}, fetch mode p pool = .ok g pool' →
        pool.Lends mode p bytes := by
      intro g pool' hrun
      obtain ⟨rfl, -, hs, hpages⟩ := h.of_fetch hrun
      rw [← hpages, hs.pages_guard List.mem_cons_self] at hpage
      exact ⟨g, pool', hrun, Option.some.inj hpage⟩
    rcases ht : pool.table[p]? with _ | f
    · -- a page in no frame has no guards, so nobody is in the way and a frame can be taken
      have hnone : ∀ g ∈ gs, g.page ≠ p := by
        rintro g hg rfl
        rw [h.table_guard hg] at ht
        cases ht
      have hfull : ¬Full gs := by
        intro hc
        obtain ⟨g, hg, hgp⟩ := hroom hc
        exact hnone g hg hgp
      obtain ⟨g, pool', hrun, -⟩ := h.fetch_eq_ok mode (by rw [hpage]; rintro ⟨⟩) hnone hfull
      exact hlends hrun
    · obtain ⟨pool', hrun, -⟩ := h.hit_eq_ok ht (h.admits ht hshared)
      exact hlends hrun

/-! ## What a failed call leaves -/

/-- The pages are as they were, for those who hold some and for those who come after. -/
structure Spares (pool : Pool n m) (gs : List (Guard n)) (pool' : Pool n m) : Prop where
  /-- the same pages are allocated -/
  members_eq : pool'.members = pool.members
  /-- their bytes are the same -/
  pages_eq : pool'.pages = pool.pages
  /-- a fetch finds what it would have found -/
  lends_iff : ∀ mode p bytes, pool'.Lends mode p bytes ↔ pool.Lends mode p bytes
  /-- a page with a guard has the pins that it had -/
  pinCount?_eq : ∀ g ∈ gs, pool'.pinCount? g.page = pool.pinCount? g.page
  /-- the books agree -/
  balanced : pool'.Balanced gs

/-- Nothing has happened to the frames. Only the misses that were counted, and the bitmaps that are
in memory, can be others. -/
structure Unmoved (pool pool' : Pool n m) : Prop where
  table_eq : pool'.table = pool.table
  free_eq : pool'.free = pool.free
  /-- the same pages, pins, latches and bytes, and the same frames are dirty -/
  frames_eq : pool'.frames = pool.frames
  /-- the same frames can be chosen, in the same order -/
  replacer_eq : pool'.replacer = pool.replacer

/-- A frame was taken, and is the last one in the free list. As many frames can be used for another
page as before. -/
structure Returns (pool pool' : Pool n m) : Prop where
  putBack : ∃ f pool₁, acquire pool = .ok f pool₁ ∧ pool' = pool₁.putBack f
  count_eq : pool'.freeCount + pool'.evictableCount = pool.freeCount + pool.evictableCount

theorem Unmoved.refl (pool : Pool n m) : Unmoved pool pool := ⟨rfl, rfl, rfl, rfl⟩

theorem Unmoved.of_miss (pool : Pool n m) (s : Space m) :
    Unmoved pool { pool with misses := pool.misses + 1, space := s } := ⟨rfl, rfl, rfl, rfl⟩

namespace Sound

/-- **The pages are spared** when the map and the guards are the same. -/
theorem spares (h : pool.Sound gs) (h' : pool'.Sound gs) (htidy : pool'.Tidy)
    (hpages : pool'.pages = pool.pages) : pool.Spares gs pool' where
  members_eq := members_eq_of_pages h.space h'.space hpages
  pages_eq := hpages
  lends_iff mode p bytes := by rw [h.lends_iff, h'.lends_iff, hpages]
  pinCount?_eq g hg := by
    rw [h.pinCount?_eq (h.table_guard hg), h'.pinCount?_eq (h'.table_guard hg)]
  balanced := h'.balanced htidy

/-- **The frames that can be used for another page** are those without guards. -/
theorem freeCount_add_evictableCount (h : pool.Sound gs) :
    pool.freeCount + pool.evictableCount =
      (List.finRange n).countP fun f => modesOn gs f = [] := by
  have hfree : pool.free.countP (fun f => modesOn gs f = []) = pool.freeCount :=
    List.countP_eq_length.2 fun f hf =>
      decide_eq_true (h.of_no_page ((h.free_iff f).1 hf)).1
  have hcached : pool.cached.countP (fun e => pool.pinCount? e.1 = some 0) =
      (pool.cached.map Prod.snd).countP fun f => modesOn gs f = [] := by
    rw [List.countP_map]
    refine List.countP_congr fun e he => ?_
    have ht := mem_cached_iff.1 he
    simp only [Function.comp_apply, decide_eq_true_eq]
    rw [pinCount?_of_table ht, Option.some_inj, (h.frame e.2).pins_eq, List.length_eq_zero_iff]
  rw [h.evictableCount_eq, hcached, ← hfree, ← List.countP_append]
  exact h.free_append_cached.countP_eq _

/-! ## How the calls fail -/

/-- No frame is taken only when there is none, and nothing is done then. -/
theorem acquire_eq_error (h : pool.Sound gs) (hrun : acquire pool = .error e pool') :
    e = .refused .poolFull ∧ pool' = pool := by
  rcases hfree : pool.free with _ | ⟨f, rest⟩
  · rcases hv : pool.replacer.victim with ⟨_ | f, r⟩
    · obtain ⟨-, rfl⟩ := Replacer.victim_none hv
      rw [acquire_of_none hfree hv] at hrun
      cases hrun
      exact ⟨rfl, rfl⟩
    · obtain ⟨hcand, hr⟩ := Replacer.victim_some hv
      obtain ⟨pool₁, hevict, -⟩ := h.evict_candidate hcand hr
      rw [acquire_of_victim hfree hv hevict] at hrun
      cases hrun
  · rw [acquire_of_free hfree] at hrun
    cases hrun

/-- A frame that is taken was not guarded. -/
theorem not_full_of_acquire (h : pool.Sound gs) {f : Fin n} (hrun : acquire pool = .ok f pool') :
    ¬Full gs := by
  intro hfull
  obtain ⟨h', -⟩ := h.of_acquire hrun
  obtain ⟨g, hg, hframe⟩ := hfull f
  have hpage : (putBack f pool').frames[f].page = .none := (h'.free_iff f).1 (by simp [putBack])
  exact modesOn_eq_nil_iff.1 (h'.of_no_page hpage).1 g hg hframe

/-- **There is no new page** when no frame can be taken, or when all pages are allocated. In the
second case a frame was taken, and is put back. -/
theorem newPage_eq_error (h : pool.Sound gs) (hrun : newPage pool = .error e pool') :
    (e = .refused .poolFull ∧ pool' = pool) ∨ (e = .refused .diskFull ∧ pool.Returns pool') := by
  rcases bind_eq_error_iff.1 hrun with hacquire | ⟨f, pool₁, hacquire, hrest⟩
  · exact .inl (h.acquire_eq_error hacquire)
  · right
    obtain ⟨h₁, -⟩ := h.of_acquire hacquire
    have hs : pool₁.space.Sound := h₁.space
    rcases hs.allocate_cases with ⟨hfull, -⟩ | ⟨p, s, hok, -⟩
    · rw [bind_of_error (onHalt_error (onSpace_error hfull))] at hrest
      cases hrest
      refine ⟨rfl, ⟨f, pool₁, hacquire, rfl⟩, ?_⟩
      rw [h₁.freeCount_add_evictableCount, h.freeCount_add_evictableCount]
    · rw [bind_of_ok (onHalt_ok (onSpace_ok hok))] at hrest
      cases hrest

/-- No page is made while every frame is guarded. -/
theorem newPage_of_guarded (h : pool.Sound gs) (hfull : Full gs) :
    newPage pool = .error (.refused .poolFull) pool := by
  cases hacquire : acquire pool with
  | ok f pool' => exact absurd hfull (h.not_full_of_acquire hacquire)
  | error e pool' =>
    obtain ⟨rfl, rfl⟩ := h.acquire_eq_error hacquire
    exact bind_of_error hacquire

/-- **A page that is not fetched** leaves nothing but a miss that was counted. -/
theorem fetch_eq_error (h : pool.Sound gs) (hrun : fetch mode p pool = .error e pool') :
    e ≠ .refused .diskFull ∧ pool.Unmoved pool' := by
  rcases ht : pool.table[p]? with _ | f
  · rw [fetch_of_miss ht] at hrun
    by_cases hnone : p = .none
    · subst hnone
      rw [bind_of_error (pinPage_none pool)] at hrun
      cases hrun
      exact ⟨by rintro ⟨⟩, .refl pool⟩
    · by_cases hmem : p.val.toNat ∈ pool.members
      · obtain ⟨s, hs, ha, hpin⟩ := h.pinPage_of_mem hmem ht
        obtain ⟨h₁, -⟩ := (h.counters pool.hits (pool.misses + 1)).space_agrees hs ha
        rcases h.miss_cases hnone ht with ⟨f, pool₁, hok, hlatch⟩ |
          ⟨cause, pool₁, herror, -, -, ⟨-, hout⟩ | ⟨-, hfull⟩⟩
        · obtain ⟨pool₂, hok', -⟩ := hlatch mode
          rw [bind_of_ok hok, hok'] at hrun
          cases hrun
        · exact absurd hmem (pages_eq_none_iff.1 hout)
        · -- every frame is guarded, so none was taken and the page was not read
          rcases hacquire : acquire { pool with misses := pool.misses + 1, space := s } with
            ⟨f, pool₂⟩ | ⟨e', pool₂⟩
          · exact absurd hfull (h₁.not_full_of_acquire hacquire)
          · obtain ⟨rfl, rfl⟩ := h₁.acquire_eq_error hacquire
            rw [bind_of_error (hpin.trans (bind_of_error hacquire))] at hrun
            cases hrun
            exact ⟨by rintro ⟨⟩, .of_miss pool s⟩
      · obtain ⟨cause, s, -, -, hcause, hpin⟩ := h.pinPage_of_not_mem hnone hmem ht
        rw [bind_of_error hpin] at hrun
        cases hrun
        exact ⟨by rcases hcause with rfl | rfl <;> rintro ⟨⟩, .of_miss pool s⟩
  · by_cases hadmits : pool.frames[f].latch.admits mode = true
    · obtain ⟨pool₁, hok, -⟩ := h.hit_eq_ok ht hadmits
      rw [hok] at hrun
      cases hrun
    · rw [fetch_of_held (by simpa [isHeld_of_table ht] using hadmits)] at hrun
      cases hrun
      exact ⟨by rintro ⟨⟩, .refl pool⟩

/-- Only a page without an id cannot be flushed. -/
theorem flush_eq_error (h : pool.Sound gs) (hrun : flush p pool = .error e pool') :
    e = .refused (.invalidPage p) ∧ pool' = pool := by
  by_cases hp : p.isSome = true
  · obtain ⟨b, pool₁, hok, -⟩ := h.flush_eq_ok hp
    rw [hok] at hrun
    cases hrun
  · simp only [flush, hp, Bool.not_false, if_true] at hrun
    cases hrun
    exact ⟨rfl, rfl⟩

/-- A frame that is not written back is held by a writer. -/
theorem flushFrame_eq_false {f : Fin n} (hrun : flushFrame f pool = .ok false pool') :
    pool' = pool := by
  by_cases hlatch : pool.frames[f].latch.admits .read = true
  · rw [flushFrame, get_bind] at hrun
    simp only [hlatch, Bool.not_true, Bool.false_eq_true, if_false] at hrun
    obtain ⟨-, pool₁, -, hmodify⟩ := bind_eq_ok_iff.1 hrun
    cases hmodify
  · rw [flushFrame_of_held (by simpa using hlatch)] at hrun
    cases hrun
    rfl

/-- **A page that is not flushed** is in no frame, or a writer holds it. -/
theorem flush_eq_false (hrun : flush p pool = .ok false pool') : pool' = pool := by
  by_cases hp : p.isSome = true
  · rw [flush_eq hp] at hrun
    rcases ht : pool.table[p]? with _ | f
    · simp only [ht] at hrun
      cases hrun
      rfl
    · simp only [ht] at hrun
      exact flushFrame_eq_false hrun
  · simp only [flush, hp, Bool.not_false, if_true] at hrun
    cases hrun

/-- What happens on disk does not touch a frame. -/
theorem unmoved_onSpace {α : Type} (act : Action (Space m) α) :
    Preserves pool.Unmoved (onSpace act) := by
  intro pool' h
  cases hrun : act pool'.space with
  | ok a s =>
    rw [onSpace_ok hrun]
    exact ⟨h.table_eq, h.free_eq, h.frames_eq, h.replacer_eq⟩
  | error e s =>
    rw [onSpace_error hrun]
    exact ⟨h.table_eq, h.free_eq, h.frames_eq, h.replacer_eq⟩

/-- A page in no frame is deleted on disk alone. -/
theorem unmoved_delete (hp : p.isSome = true) (ht : pool.table[p]? = none) :
    pool.Unmoved ((delete p).stateAfter pool) := by
  rw [stateAfter_congr (delete_of_absent hp ht)]
  refine Preserves.stateAfter ((unmoved_onSpace _).bind fun isFree => ?_) (.refl pool)
  split
  · exact preserves_pure _
  · exact (unmoved_onSpace _).bind fun _ => preserves_pure _

/-- **A page that is not deleted** is looked up on disk at most. -/
theorem delete_eq_false (h : pool.Sound gs) (hrun : delete p pool = .ok false pool') :
    pool.Unmoved pool' := by
  by_cases hp : p.isSome = true
  · rcases ht : pool.table[p]? with _ | f
    · exact stateAfter_ok hrun ▸ unmoved_delete hp ht
    · rcases h.delete_of_hit ht with ⟨pool₁, hok, -⟩ | ⟨herror, -⟩
      · rw [hok] at hrun
        cases hrun
      · rw [herror] at hrun
        cases hrun
  · rw [delete_of_none hp] at hrun
    cases hrun

theorem delete_eq_error (h : pool.Sound gs) (hrun : delete p pool = .error e pool') :
    e ≠ .refused .diskFull ∧ pool.Unmoved pool' := by
  have hcause : e ≠ .refused .diskFull := by
    rcases h.delete_cases p with ⟨pool₁, hok, -⟩ | ⟨pool₁, hok, -⟩ |
      ⟨e', pool₁, herror, -, -, ⟨rfl, -⟩ | ⟨rfl, -⟩⟩
    · rw [hok] at hrun
      cases hrun
    · rw [hok] at hrun
      cases hrun
    all_goals
      rw [herror] at hrun
      cases hrun
      rintro ⟨⟩
  refine ⟨hcause, ?_⟩
  by_cases hp : p.isSome = true
  · rcases ht : pool.table[p]? with _ | f
    · exact stateAfter_error hrun ▸ unmoved_delete hp ht
    · rcases h.delete_of_hit ht with ⟨pool₁, hok, -⟩ | ⟨herror, -⟩
      · rw [hok] at hrun
        cases hrun
      · rw [herror] at hrun
        cases hrun
        exact .refl pool
  · rw [delete_of_none hp] at hrun
    cases hrun
    exact .refl pool

end Sound

end Pool

/-! ## Calls -/

/-- The call makes, fetches, flushes or frees one page. -/
def PoolCall.isForPage : PoolCall → Bool
  | newPage => true
  | fetch _ _ => true
  | flush _ => true
  | delete _ => true
  | deallocate _ => true
  | _ => false

/-- The call was refused, or has not done what it was asked for. -/
def PoolAnswer.Fails (answer : PoolAnswer) : Prop :=
  answer = .ok (.flag false) ∨ ∃ e, answer = .error e

/-- **What a failed call leaves**, while the guards `gs` are out. -/
structure Pool.Survives {n m : Nat} (pool : Pool n m) (gs : List (Guard n)) (answer : PoolAnswer)
    (pool' : Pool n m) : Prop where
  /-- every page is as it was -/
  spares : pool.Spares gs pool'
  /-- every frame is too, unless all pages are allocated -/
  unmoved : answer ≠ .error (.refused .diskFull) → pool.Unmoved pool'
  /-- then the frame that was taken is free -/
  returns : answer = .error (.refused .diskFull) → pool.Returns pool'

theorem PoolAnswer.not_fails {reply : PoolReply} (h : reply ≠ .flag false) :
    ¬PoolAnswer.Fails (.ok reply) := by
  rintro (hfalse | ⟨e, herror⟩)
  · exact h (Except.ok.inj hfalse)
  · cases herror

namespace Pool

variable {n m : Nat} {pool pool' : Pool n m} {gs : List (Guard n)} {answer : PoolAnswer} {e : Halt}

/-- A call that touches no frame. -/
theorem Survives.of_unmoved (hspares : pool.Spares gs pool') (h : pool.Unmoved pool')
    (hanswer : answer ≠ .error (.refused .diskFull)) : pool.Survives gs answer pool' :=
  ⟨hspares, fun _ => h, fun hfull => absurd hfull hanswer⟩

theorem Survives.of_refused (hspares : pool.Spares gs pool')
    (h : e ≠ .refused .diskFull ∧ pool.Unmoved pool') : pool.Survives gs (.error e) pool' :=
  .of_unmoved hspares h.2 fun hfull => h.1 (Except.error.inj hfull)

/-- A page that is not made. -/
theorem Sound.survives_newPage (h : pool.Sound gs) (hspares : pool.Spares gs pool')
    (hrun : newPage pool = .error e pool') : pool.Survives gs (.error e) pool' := by
  rcases h.newPage_eq_error hrun with ⟨rfl, rfl⟩ | ⟨rfl, hreturns⟩
  · exact .of_refused hspares ⟨by rintro ⟨⟩, .refl pool'⟩
  · exact ⟨hspares, fun hanswer => absurd rfl hanswer, fun _ => hreturns⟩

end Pool

namespace OpenPool

open Pool

variable {o : OpenPool}

/-- **One call** that fails. -/
theorem survives (h : o.pool.Sound o.guards) (ht : o.Tidy) {call : PoolCall}
    (hcall : call.isForPage = true) (hfails : (call.run o).1.Fails) :
    ∃ pool', (call.run o).2 = ⟨o.frames, o.slots, pool', o.guards⟩ ∧
      o.pool.Survives o.guards (call.run o).1 pool' := by
  obtain ⟨n, m, pool, gs⟩ := o
  have hs : pool.Sound gs := h
  have htidy := tidy_run h ht call
  -- the books agree afterwards in every case, so it is left to look at what becomes of the frames
  have leaves : ∀ (answer : PoolAnswer) {pool' : Pool n m},
      call.run ⟨n, m, pool, gs⟩ = (answer, ⟨n, m, pool', gs⟩) → pool'.Sound gs →
      pool'.pages = pool.pages → (pool.Spares gs pool' → pool.Survives gs answer pool') →
      ∃ pool', (call.run ⟨n, m, pool, gs⟩).2 = ⟨n, m, pool', gs⟩ ∧
        pool.Survives gs (call.run ⟨n, m, pool, gs⟩).1 pool' := by
    intro answer pool' hrun h' hpages hsurvives
    rw [hrun] at htidy ⊢
    exact ⟨pool', rfl, hsurvives (hs.spares h' htidy hpages)⟩
  cases call with
  | newPage =>
    rcases hs.newPage_cases with ⟨g, pool', hrun, -⟩ | ⟨e, pool', hrun, h', hpages, -⟩
    · rw [PoolCall.run, hrun] at hfails
      exact absurd hfails (PoolAnswer.not_fails (by rintro ⟨⟩))
    · refine leaves _ ?_ h' hpages fun hspares => hs.survives_newPage hspares hrun
      rw [PoolCall.run, hrun]
      rfl
  | fetch mode p =>
    rcases hs.fetch_cases mode p with ⟨g, pool', hrun, -⟩ | ⟨e, pool', hrun, h', hpages, -⟩
    · rw [PoolCall.run, hrun] at hfails
      exact absurd hfails (PoolAnswer.not_fails (by rintro ⟨⟩))
    · refine leaves (.error e) ?_ h' hpages fun hspares =>
        .of_refused hspares (hs.fetch_eq_error hrun)
      rw [PoolCall.run, hrun]
      rfl
  | flush p =>
    rcases hs.flush_keeps p with ⟨_ | _, pool', hrun, h', hpages⟩ | ⟨e, hrun⟩
    · obtain rfl := Sound.flush_eq_false hrun
      refine leaves (.ok (.flag false)) ?_ h' hpages fun hspares =>
        .of_unmoved hspares (.refl _) (by rintro ⟨⟩)
      rw [PoolCall.run, hrun]
      rfl
    · rw [PoolCall.run, hrun] at hfails
      exact absurd hfails (PoolAnswer.not_fails (by rintro ⟨⟩))
    · obtain ⟨rfl, -⟩ := hs.flush_eq_error hrun
      refine leaves (.error (.refused (.invalidPage p))) ?_ hs rfl fun hspares =>
        .of_refused hspares ⟨by rintro ⟨⟩, .refl pool⟩
      rw [PoolCall.run, hrun]
      rfl
  | delete p =>
    rcases hs.delete_cases p with ⟨pool', hrun, -⟩ | ⟨pool', hrun, h', hpages, -⟩ |
      ⟨e, pool', hrun, h', hpages, -⟩
    · rw [PoolCall.run, hrun] at hfails
      exact absurd hfails (PoolAnswer.not_fails (by rintro ⟨⟩))
    · refine leaves (.ok (.flag false)) ?_ h' hpages fun hspares =>
        .of_unmoved hspares (hs.delete_eq_false hrun) (by rintro ⟨⟩)
      rw [PoolCall.run, hrun]
      rfl
    · refine leaves (.error e) ?_ h' hpages fun hspares =>
        .of_refused hspares (hs.delete_eq_error hrun)
      rw [PoolCall.run, hrun]
      rfl
  | deallocate p =>
    rcases hs.delete_cases p with ⟨pool', hrun, -⟩ | ⟨pool', hrun, h', hpages, -⟩ |
      ⟨e, pool', hrun, h', hpages, -⟩
    · rw [PoolCall.run, Sound.deallocate_of_true hrun] at hfails
      exact absurd hfails (PoolAnswer.not_fails (by rintro ⟨⟩))
    · refine leaves (.error (.refused (.alreadyFree p))) ?_ h' hpages fun hspares =>
        .of_refused hspares ⟨by rintro ⟨⟩, hs.delete_eq_false hrun⟩
      rw [PoolCall.run, Sound.deallocate_of_false hrun]
      rfl
    · refine leaves (.error e) ?_ h' hpages fun hspares =>
        .of_refused hspares (hs.delete_eq_error hrun)
      rw [PoolCall.run, Sound.deallocate_of_error hrun]
      rfl
  | edit | drop | flushAll | allocate | reopen => cases hcall

/-- **One use** keeps the pool tidy. -/
theorem tidy_use (h : o.pool.Sound o.guards) (ht : o.Tidy) (use : PoolUse) : (use.run o).Tidy := by
  obtain ⟨n, m, pool, gs⟩ := o
  have htidy : pool.Tidy := ht
  cases use with
  | call c => exact tidy_run h ht c
  | isFree p =>
    rw [PoolUse.run, PoolReply.snd_ofResult]
    exact ((dirtyIn_onSpace _).stateAfter htidy.dirtyIn).tidy
  | mark i =>
    rcases hi : gs[i]? with _ | ⟨p, f, _ | _⟩
    · simp only [PoolUse.run, hi]
      exact ht
    · simp only [PoolUse.run, hi]
      exact ht
    · simp only [PoolUse.run, hi]
      refine DirtyIn.tidy ?_
      exact htidy.dirtyIn.editFrame_of_clean f (fun _ => rfl) fun _ => rfl
  | resetCounters => exact htidy
  | sync => exact htidy

theorem tidy_afterUses (h : o.pool.Sound o.guards) (ht : o.Tidy) (uses : List PoolUse) :
    (o.afterUses uses).Tidy := by
  induction uses generalizing o with
  | nil => exact ht
  | cons use uses ih => exact ih (PoolUse.sound_run h use) (tidy_use h ht use)

/-- **Calls that fail keep the data.** On a new file, with any number of frames and any replacer,
after every run of uses: a call for one page that fails leaves every page and every guard as they
were, and the books agree. It leaves every frame as it was, too, unless it found all pages
allocated; then the frame that it took is free again. -/
theorem failure_spares (n : Nat) (policy : Policy) {disk : SpaceConfig}
    (hdisk : disk.validate = .ok ()) {v : Volume} (hv : v.openFile = .ok {}) :
    ∃ space, Space.mount disk v = .ok space ∧ ∀ (uses : List PoolUse) (call : PoolCall),
      let o := OpenPool.afterUses ⟨n, _, Pool.empty n policy space, []⟩ uses
      call.isForPage = true → (call.run o).1.Fails →
        ∃ pool', (call.run o).2 = ⟨o.frames, o.slots, pool', o.guards⟩ ∧
          o.pool.Survives o.guards (call.run o).1 pool' := by
  obtain ⟨space, hmount, hs, -, -⟩ := Space.Sound.mount_fresh hdisk hv
  refine ⟨space, hmount, fun uses call => ?_⟩
  let start : OpenPool := ⟨n, _, Pool.empty n policy space, []⟩
  have hsound : start.pool.Sound start.guards := (Pool.sound_empty hs n policy).1
  have htidy : start.Tidy := (Pool.dirtyIn_empty policy space).tidy
  exact survives (sound_afterUses hsound uses) (tidy_afterUses hsound htidy uses)

/-- The first page of a pool with one frame keeps that frame. -/
theorem afterUses_newPage {m : Nat} {space : Space m} (policy : Policy) (hs : space.Sound)
    (hnone : space.members = ∅) : ∃ pool g,
    OpenPool.afterUses ⟨1, m, Pool.empty 1 policy space, []⟩ [.call .newPage] =
      ⟨1, m, pool, [g]⟩ ∧ pool.Sound [g] := by
  rcases (Pool.sound_empty hs 1 policy).1.newPage_cases with ⟨g, pool, hrun, -, -, h, -⟩ |
    ⟨e, pool, -, -, -, ⟨-, hall⟩ | ⟨-, hfull⟩⟩
  · exact ⟨pool, g, after_newPage (o := ⟨1, m, Pool.empty 1 policy space, []⟩) hrun [], h⟩
  · have hspare : (Pool.empty 1 policy space).members ≠ Finset.range maxLogicalPages :=
      members_ne_range_of_length (l := []) hs (by decide) fun q hq => by
        rw [pages_ne_none_iff, Pool.members, Pool.empty, hnone] at hq
        cases hq
    exact absurd hall hspare
  · obtain ⟨g, hg, -⟩ := hfull 0
    cases hg

/-- The only frame of a pool is held, so that a second page is refused. -/
theorem failure_spares_one : ∃ space, Space.mount ⟨1⟩ .missing = .ok space ∧
    let o := OpenPool.afterUses ⟨1, _, Pool.empty 1 .clock space, []⟩ [.call .newPage]
    PoolCall.newPage.isForPage = true ∧ (PoolCall.newPage.run o).1.Fails ∧
      ∃ pool', (PoolCall.newPage.run o).2 = ⟨o.frames, o.slots, pool', o.guards⟩ ∧
        o.pool.Survives o.guards (PoolCall.newPage.run o).1 pool' := by
  obtain ⟨space, hmount, hsurvives⟩ := @failure_spares 1 .clock ⟨1⟩ rfl .missing rfl
  obtain ⟨space', hmount', hs, hnone, -⟩ := @Space.Sound.mount_fresh ⟨1⟩ rfl .missing rfl
  obtain rfl : space = space' := Except.ok.inj (hmount.symm.trans hmount')
  have hfails : (PoolCall.newPage.run
      (OpenPool.afterUses ⟨1, _, Pool.empty 1 .clock space, []⟩ [.call .newPage])).1.Fails := by
    obtain ⟨pool, g, hafter, h⟩ := afterUses_newPage .clock hs hnone
    have hfull : Full [g] := fun f => ⟨g, List.mem_singleton_self g, Subsingleton.elim _ _⟩
    rw [hafter, PoolCall.run, h.newPage_of_guarded hfull]
    exact .inr ⟨_, rfl⟩
  exact ⟨space, hmount, rfl, hfails, hsurvives [.call .newPage] .newPage rfl hfails⟩

end OpenPool

end PageStore
