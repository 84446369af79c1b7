import PageStore.Proofs.Pool.Run

/-!
# The books of a pool

Four parts of a pool say what becomes of its frames: the table, the free list, the replacer, and
the frames themselves. `Pool.Balanced` is how they agree with each other, with the guards that are
out and with the disk, and `OpenPool.always_balanced` is that they agree after every run of calls,
whether the calls were answered or refused.

`Pool.Sound` says most of this. It does not say that a frame without a page is not dirty, which is
`Pool.Tidy` here. Every action keeps it for itself, as it keeps the dirty pages inside any set that
has the pages which the action makes dirty (`Pool.DirtyIn`).
-/

namespace PageStore

/-! ## What an action keeps -/

namespace Action

variable {σ α β : Type} {I : σ → Prop} {s : σ}

/-- What holds of a state holds of the one that the action leaves, whichever way it ends. -/
def Preserves (I : σ → Prop) (act : Action σ α) : Prop :=
  ∀ s, I s → match act s with
    | .ok _ s' => I s'
    | .error _ s' => I s'

theorem Preserves.of_ok {act : Action σ α} (h : Preserves I act) (hs : I s) {a : α} {s' : σ}
    (hrun : act s = .ok a s') : I s' := by
  have := h s hs
  rw [hrun] at this
  exact this

theorem Preserves.of_error {act : Action σ α} (h : Preserves I act) (hs : I s) {e : Halt} {s' : σ}
    (hrun : act s = .error e s') : I s' := by
  have := h s hs
  rw [hrun] at this
  exact this

theorem preserves_pure (a : α) : Preserves I (pure a : Action σ α) := fun _ hs => hs

theorem preserves_throw (e : Halt) : Preserves I (throw e : Action σ α) := fun _ hs => hs

theorem preserves_get : Preserves I (get : Action σ σ) := fun _ hs => hs

theorem preserves_lift (r : Except Halt α) : Preserves I (liftM r : Action σ α) := by
  intro s hs
  cases r <;> exact hs

theorem preserves_modify {f : σ → σ} (h : ∀ s, I s → I (f s)) :
    Preserves I (modify f : Action σ PUnit) := h

/-- **Sequencing.** -/
theorem Preserves.bind {act : Action σ α} {next : α → Action σ β} (h : Preserves I act)
    (hnext : ∀ a, Preserves I (next a)) : Preserves I (act >>= next) := by
  intro s hs
  cases hrun : act s with
  | ok a s' =>
    rw [bind_of_ok hrun]
    exact hnext a s' (h.of_ok hs hrun)
  | error e s' =>
    rw [bind_of_error hrun]
    exact h.of_error hs hrun

theorem Preserves.onHalt {act : Action σ α} (h : Preserves I act) {f : σ → σ}
    (hf : ∀ s, I s → I (f s)) : Preserves I (act.onHalt f) := by
  intro s hs
  cases hrun : act s with
  | ok a s' =>
    rw [onHalt_ok hrun]
    exact h.of_ok hs hrun
  | error e s' =>
    rw [onHalt_error hrun]
    exact hf s' (h.of_error hs hrun)

/-- The state that an action leaves, whichever way it ends. -/
def stateAfter (act : Action σ α) (s : σ) : σ :=
  match act s with
  | .ok _ s' => s'
  | .error _ s' => s'

theorem stateAfter_ok {act : Action σ α} {s' : σ} {a : α} (h : act s = .ok a s') :
    act.stateAfter s = s' := by
  rw [stateAfter, h]

theorem stateAfter_error {act : Action σ α} {s' : σ} {e : Halt} (h : act s = .error e s') :
    act.stateAfter s = s' := by
  rw [stateAfter, h]

theorem stateAfter_congr {act act' : Action σ α} {s' : σ} (h : act s = act' s') :
    act.stateAfter s = act'.stateAfter s' := by
  rw [stateAfter, stateAfter, h]

theorem Preserves.stateAfter {act : Action σ α} (h : Preserves I act) (hs : I s) :
    I (act.stateAfter s) := by
  cases hrun : act s with
  | ok a s' =>
    rw [stateAfter_ok hrun]
    exact h.of_ok hs hrun
  | error e s' =>
    rw [stateAfter_error hrun]
    exact h.of_error hs hrun

/-- What holds after the first action holds after those that follow it, as far as they keep it. -/
theorem stateAfter_bind {act : Action σ α} {next : α → Action σ β} (h : I (act.stateAfter s))
    (hnext : ∀ a, Preserves I (next a)) : I ((act >>= next).stateAfter s) := by
  cases hrun : act s with
  | ok a s' =>
    rw [stateAfter_ok hrun] at h
    rw [stateAfter_congr (bind_of_ok hrun)]
    exact (hnext a).stateAfter h
  | error e s' =>
    rw [stateAfter_error hrun] at h
    rwa [stateAfter_error (bind_of_error hrun)]

end Action

namespace Pool

open PageStore.Action

variable {n m : Nat} {pool : Pool n m} {gs : List (Guard n)}

/-! ## Dirty frames -/

/-- The pages in dirty frames are among these. -/
def DirtyIn (U : Set PageId) (pool : Pool n m) : Prop :=
  ∀ f : Fin n, pool.frames[f].dirty = true → pool.frames[f].page ∈ U

section DirtyIn

variable {U : Set PageId} {g : Guard n}

theorem dirtyIn_empty (policy : Policy) (space : Space m) : (empty n policy space).DirtyIn U := by
  intro f hf
  simp [empty] at hf

/-- Editing a frame matters only for that frame. -/
theorem DirtyIn.editFrame (h : pool.DirtyIn U) (f : Fin n) {change : Frame → Frame}
    (hchange : (change pool.frames[f]).dirty = true → (change pool.frames[f]).page ∈ U) :
    (Pool.editFrame f change pool).DirtyIn U := by
  intro d
  rw [getElem_editFrame]
  split
  · exact hchange
  · exact h d

/-- A change of a frame that leaves its page alone, and does not make it dirty. -/
theorem DirtyIn.editFrame_of_clean (h : pool.DirtyIn U) (f : Fin n) {change : Frame → Frame}
    (hpage : ∀ x, (change x).page = x.page) (hdirty : ∀ x, (change x).dirty = x.dirty) :
    (Pool.editFrame f change pool).DirtyIn U := by
  refine h.editFrame f ?_
  rw [hpage, hdirty]
  exact h f

theorem dirtyIn_onSpace {α : Type} (act : Action (Space m) α) :
    Preserves (DirtyIn U) (onSpace (n := n) act) := by
  intro pool hpool
  cases hrun : act pool.space with
  | ok a s =>
    rw [onSpace_ok hrun]
    exact hpool
  | error e s =>
    rw [onSpace_error hrun]
    exact hpool

theorem dirtyIn_evict (f : Fin n) : Preserves (DirtyIn (m := m) U) (evict f) := by
  refine preserves_get.bind fun pool' => ?_
  have hreset : Preserves (DirtyIn (n := n) (m := m) U) (modify fun pool =>
      { pool with table := pool.table.erase pool'.frames[f].page }.editFrame f Frame.reset) :=
    preserves_modify fun pool hpool =>
      (show DirtyIn U { pool with table := pool.table.erase pool'.frames[f].page } from
        hpool).editFrame f fun hdirty => absurd hdirty Bool.false_ne_true
  dsimp only
  split
  · refine Preserves.bind ?_ fun _ => hreset
    exact (dirtyIn_onSpace _).onHalt fun pool hpool => hpool
  · exact hreset

theorem dirtyIn_acquire : Preserves (DirtyIn (n := n) (m := m) U) acquire := by
  refine preserves_get.bind fun pool' => ?_
  split
  · refine Preserves.bind ?_ fun _ => preserves_pure _
    exact preserves_modify fun pool hpool => hpool
  · refine Preserves.bind (fun pool hpool => hpool) fun victim => ?_
    split
    · exact preserves_throw _
    · exact (dirtyIn_evict _).bind fun _ => preserves_pure _

theorem DirtyIn.install (h : pool.DirtyIn U) {p : PageId} {d : Bool} (hp : d = true → p ∈ U)
    (f : Fin n) (data : Page) : (Pool.install f p data d pool).DirtyIn U :=
  (show DirtyIn U { pool with
    replacer := pool.replacer.pin f
    table := pool.table.insert p f } from h).editFrame f hp

theorem dirtyIn_latch (p : PageId) (f : Fin n) (mode : Mode) :
    Preserves (DirtyIn (m := m) U) (latch p f mode) :=
  (preserves_modify fun _ hpool => hpool.editFrame_of_clean f (fun _ => rfl) fun _ => rfl).bind
    fun _ => preserves_pure _

/-- A page that comes from disk is clean. -/
theorem dirtyIn_pinPage (p : PageId) : Preserves (DirtyIn (n := n) (m := m) U) (pinPage p) := by
  by_cases hp : (!p.isSome) = true
  · rw [pinPage, hp]
    exact preserves_throw _
  rw [pinPage, if_neg hp]
  refine preserves_get.bind fun pool' => ?_
  split
  · refine (preserves_modify fun pool hpool => ?_).bind fun _ => preserves_pure _
    exact (show DirtyIn U { pool with
      replacer := pool.replacer.pin _
      hits := pool.hits + 1 } from hpool).editFrame_of_clean _ (fun _ => rfl) fun _ => rfl
  · have hread : Preserves (DirtyIn (n := n) (m := m) U) (do
        let f ← acquire
        let data ← Action.onHalt (onSpace (Space.read p pageSize)) (putBack f)
        modify (Pool.install f p data false)
        return f) := by
      refine dirtyIn_acquire.bind fun f => ?_
      refine Preserves.bind ((dirtyIn_onSpace _).onHalt fun pool hpool => hpool) fun data => ?_
      refine Preserves.bind ?_ fun _ => preserves_pure _
      exact preserves_modify fun _ hpool =>
        hpool.install (fun hd => absurd hd Bool.false_ne_true) f data
    refine Preserves.bind (preserves_modify fun pool hpool => hpool) fun _ => ?_
    refine (dirtyIn_onSpace _).bind fun isFree => ?_
    split
    · exact (preserves_throw _).bind fun _ => hread
    · exact hread

theorem dirtyIn_fetch (mode : Mode) (p : PageId) :
    Preserves (DirtyIn (n := n) (m := m) U) (fetch mode p) := by
  refine preserves_get.bind fun pool' => ?_
  split
  · exact preserves_throw _
  · exact (dirtyIn_pinPage p).bind fun f => dirtyIn_latch p f mode

theorem dirtyIn_edit (g : Guard n) (change : Page → Except Halt Page) :
    Preserves (DirtyIn (m := m) U) (edit g change) := by
  refine (preserves_modify fun pool hpool =>
    hpool.editFrame_of_clean g.frame (fun _ => rfl) fun _ => rfl).bind fun _ => ?_
  refine preserves_get.bind fun pool' => (preserves_lift _).bind fun data => ?_
  exact preserves_modify fun pool hpool =>
    hpool.editFrame_of_clean g.frame (fun _ => rfl) fun _ => rfl

/-- A page becomes dirty when a writer who changed it gives it back. -/
theorem DirtyIn.release (h : pool.DirtyIn U) (hs : pool.Sound gs) (hg : g ∈ gs)
    (hU : g.mode = .write → pool.isChanged g = true → g.page ∈ U) : (pool.release g).DirtyIn U := by
  have hpins : pool.frames[g.frame].pins ≠ 0 := by
    rw [(hs.frame g.frame).pins_eq]
    intro hzero
    exact modesOn_eq_nil_iff.1 (List.length_eq_zero_iff.1 hzero) g hg rfl
  rw [release_eq (hs.table_guard hg) hpins]
  refine h.editFrame g.frame fun hdirty => ?_
  rcases Bool.or_eq_true_iff.1 hdirty with hbefore | hchanged
  · exact h g.frame hbefore
  · obtain ⟨hmode, hchanged⟩ := Bool.and_eq_true_iff.1 hchanged
    exact (hs.guard g hg).2 ▸ hU (of_decide_eq_true hmode) hchanged

theorem dirtyIn_flushFrame (f : Fin n) : Preserves (DirtyIn (m := m) U) (flushFrame f) := by
  refine preserves_get.bind fun pool' => ?_
  dsimp only
  split
  · exact preserves_pure _
  · refine (dirtyIn_onSpace _).bind fun _ => (preserves_modify fun pool hpool => ?_).bind
      fun _ => preserves_pure _
    exact hpool.editFrame f fun hdirty => absurd hdirty Bool.false_ne_true

theorem dirtyIn_flush (p : PageId) : Preserves (DirtyIn (n := n) (m := m) U) (flush p) := by
  by_cases hp : (!p.isSome) = true
  · rw [flush, hp]
    exact preserves_throw _
  rw [flush, if_neg hp]
  refine preserves_get.bind fun pool' => ?_
  split
  · exact preserves_pure _
  · exact dirtyIn_flushFrame _

theorem dirtyIn_flushFrames (l : List (Fin n)) :
    Preserves (DirtyIn (m := m) U) (flushFrames l) := by
  induction l with
  | nil => exact preserves_pure _
  | cons f rest ih =>
    refine preserves_get.bind fun pool' => preserves_get.bind fun pool'' => ?_
    split
    · exact (dirtyIn_flushFrame f).bind fun _ => ih.bind fun _ => preserves_pure _
    · exact ih

theorem dirtyIn_delete (p : PageId) : Preserves (DirtyIn (n := n) (m := m) U) (delete p) := by
  have hfree : Preserves (DirtyIn (n := n) (m := m) U) (do onSpace (Space.free p); return true) :=
    (dirtyIn_onSpace _).bind fun _ => preserves_pure _
  by_cases hp : (!p.isSome) = true
  · rw [delete, hp]
    exact preserves_throw _
  rw [delete, if_neg hp]
  refine preserves_get.bind fun pool' => ?_
  split
  · refine preserves_get.bind fun pool'' => ?_
    split
    · exact preserves_throw _
    · refine (preserves_modify fun pool hpool => ?_).bind fun _ => hfree
      exact (show DirtyIn U { pool with
        table := pool.table.erase p
        replacer := pool.replacer.pin _
        free := pool.free ++ [_] } from hpool).editFrame _ fun hdirty =>
          absurd hdirty Bool.false_ne_true
  · refine (dirtyIn_onSpace _).bind fun isFree => ?_
    split
    · exact preserves_pure _
    · exact hfree

theorem dirtyIn_deallocate (p : PageId) :
    Preserves (DirtyIn (n := n) (m := m) U) (deallocate p) := by
  refine (dirtyIn_delete p).bind fun deleted => ?_
  split
  · exact preserves_throw _
  · exact preserves_pure _

end DirtyIn

/-! ## Frames without a page -/

/-- No frame is dirty without a page. -/
def Tidy (pool : Pool n m) : Prop :=
  ∀ f : Fin n, pool.frames[f].page = .none → pool.frames[f].dirty = false

/-- What is dirty is a page. -/
theorem tidy_eq : Tidy (n := n) (m := m) = DirtyIn {p | p ≠ .none} := by
  refine funext fun pool => propext (forall_congr' fun f => ?_)
  rw [← Bool.not_eq_true]
  exact imp_not_comm

theorem Tidy.dirtyIn (h : pool.Tidy) : pool.DirtyIn {p | p ≠ .none} := tidy_eq ▸ h

theorem DirtyIn.tidy (h : pool.DirtyIn {p | p ≠ .none}) : pool.Tidy := tidy_eq ▸ h

/-- A page that is handed out is a page, so its frame may be dirty. -/
theorem Tidy.newPage (h : pool.Tidy) (hs : pool.Sound gs) :
    Tidy (Action.stateAfter Pool.newPage pool) := by
  have halloc : ∀ f : Fin n, Preserves (DirtyIn (m := m) {p | p ≠ .none})
      (Action.onHalt (onSpace Space.allocate) (putBack f)) :=
    fun f => (dirtyIn_onSpace _).onHalt fun pool hpool => hpool
  refine DirtyIn.tidy ?_
  cases hrun : Pool.newPage pool with
  | ok g pool' =>
    obtain ⟨f, pool₁, hacquire, hrest⟩ := bind_eq_ok_iff.1 hrun
    obtain ⟨p, pool₂, hallocate, hinstall⟩ := bind_eq_ok_iff.1 hrest
    have hp : p ≠ .none := by
      rcases hs.newPage_cases with ⟨d, pool₃, hrun', -, -, hs', -⟩ | ⟨e, pool₃, hrun', -⟩
      · rw [hrun] at hrun'
        cases hrun'
        have hpage : g.page = p := by
          cases hinstall
          rfl
        exact hpage ▸ (hs'.guard g List.mem_cons_self).1
      · rw [hrun] at hrun'
        cases hrun'
    have h₂ := (halloc f).of_ok (dirtyIn_acquire.of_ok h.dirtyIn hacquire) hallocate
    rw [stateAfter_ok hrun]
    exact (dirtyIn_latch p f .write).of_ok (h₂.install (fun _ => hp) f _) hinstall
  | error e pool' =>
    rw [stateAfter_error hrun]
    rcases bind_eq_error_iff.1 hrun with hacquire | ⟨f, pool₁, hacquire, hrest⟩
    · exact dirtyIn_acquire.of_error h.dirtyIn hacquire
    · rcases bind_eq_error_iff.1 hrest with hallocate | ⟨p, pool₂, -, hinstall⟩
      · exact (halloc f).of_error (dirtyIn_acquire.of_ok h.dirtyIn hacquire) hallocate
      · cases hinstall

/-- The frame of a guard has a page, and may be dirty after the guard is given back. -/
theorem Tidy.release {g : Guard n} (h : pool.Tidy) (hs : pool.Sound gs) (hg : g ∈ gs) :
    (pool.release g).Tidy :=
  (h.dirtyIn.release hs hg fun _ _ => (hs.guard g hg).1).tidy

end Pool

/-! ## How the books agree -/

namespace Pool

variable {n m : Nat} {pool : Pool n m} {gs : List (Guard n)}

/-- **The books agree** with each other, with the guards that are out and with the disk. -/
structure Balanced (pool : Pool n m) (gs : List (Guard n)) : Prop where
  /-- every frame is in the free list or holds a cached page, and is there once -/
  once : (pool.free ++ pool.cached.map Prod.snd).Perm (List.finRange n)
  /-- the frames are as many as the free ones and the cached pages together -/
  size : pool.freeCount + pool.cached.length = pool.size
  /-- a free frame has no page and no pins, and is not dirty -/
  free : ∀ f ∈ pool.free, pool.frames[f].page = .none ∧ pool.frames[f].pins = 0 ∧
    pool.frames[f].dirty = false
  /-- a page is cached once -/
  distinct : (pool.cached.map Prod.fst).Nodup
  /-- a frame is looked up under the page that it holds -/
  cached : ∀ e ∈ pool.cached, pool.table[e.1]? = some e.2 ∧ pool.frames[e.2].page = e.1 ∧
    e.1 ≠ .none
  /-- a cached page has one pin for each guard on it -/
  pins : ∀ e ∈ pool.cached, pool.pinCount? e.1 = some (gs.countP fun g => g.page = e.1)
  /-- a guard is on a cached page, and on the frame that holds it -/
  guards : ∀ g ∈ gs, (g.page, g.frame) ∈ pool.cached
  /-- the frames that may be chosen are those that hold a page without pins -/
  candidates : ∀ f : Fin n, pool.replacer.IsCandidate f ↔
    ∃ p, (p, f) ∈ pool.cached ∧ pool.pinCount? p = some 0
  /-- the replacer counts them -/
  evictable : pool.evictableCount = pool.cached.countP fun e => pool.pinCount? e.1 = some 0
  /-- a cached page is allocated on disk -/
  allocated : ∀ e ∈ pool.cached, e.1.val.toNat ∈ pool.members

/-- The cached pages are those that are looked up. -/
theorem mem_cached_iff {p : PageId} {f : Fin n} :
    (p, f) ∈ pool.cached ↔ pool.table[p]? = some f :=
  Std.HashMap.mem_toList_iff_getElem?_eq_some

theorem pinCount?_of_table {p : PageId} {f : Fin n} (hf : pool.table[p]? = some f) :
    pool.pinCount? p = some pool.frames[f].pins := by
  rw [pinCount?, hf]
  rfl

theorem nodup_cached : (pool.cached.map Prod.fst).Nodup := by
  rw [cached, Std.HashMap.map_fst_toList_eq_keys]
  exact Std.HashMap.nodup_keys

namespace Sound

/-- The frames that hold a cached page are those that have a page. -/
theorem mem_map_cached (h : pool.Sound gs) {f : Fin n} :
    f ∈ pool.cached.map Prod.snd ↔ pool.frames[f].page ≠ .none := by
  constructor
  · intro hf
    obtain ⟨⟨p, d⟩, he, rfl⟩ := List.mem_map.1 hf
    obtain ⟨hp, hpage⟩ := (h.table_iff p d).1 (mem_cached_iff.1 he)
    exact hpage.symm ▸ hp
  · intro hf
    exact List.mem_map.2 ⟨(_, f), mem_cached_iff.2 ((h.table_iff _ f).2 ⟨hf, rfl⟩), rfl⟩

/-- No frame holds two pages. -/
theorem nodup_map_cached (h : pool.Sound gs) : (pool.cached.map Prod.snd).Nodup := by
  refine List.Nodup.map_on ?_ nodup_cached.of_map
  rintro ⟨p, f⟩ hp ⟨q, d⟩ hq hfd
  obtain rfl : f = d := hfd
  have hpage := ((h.table_iff p f).1 (mem_cached_iff.1 hp)).2
  have hpage' := ((h.table_iff q f).1 (mem_cached_iff.1 hq)).2
  rw [← hpage, ← hpage']

/-- The free frames and those of the cached pages are all frames. -/
theorem free_append_cached (h : pool.Sound gs) :
    (pool.free ++ pool.cached.map Prod.snd).Perm (List.finRange n) := by
  have hdisjoint : pool.free.Disjoint (pool.cached.map Prod.snd) := fun f hfree hcached =>
    h.mem_map_cached.1 hcached ((h.free_iff f).1 hfree)
  have hnodup := List.nodup_append'.2 ⟨h.nodup, h.nodup_map_cached, hdisjoint⟩
  refine (List.perm_ext_iff_of_nodup hnodup (List.nodup_finRange n)).2 fun f => ?_
  rw [List.mem_append, h.free_iff, h.mem_map_cached]
  exact ⟨fun _ => List.mem_finRange f, fun _ => em _⟩

/-- The guards on the frame of a cached page are those on the page. -/
theorem length_modesOn (h : pool.Sound gs) {p : PageId} {f : Fin n}
    (hf : pool.table[p]? = some f) : (modesOn gs f).length = gs.countP fun g => g.page = p := by
  rw [modesOn, List.length_map, ← List.countP_eq_length_filter]
  refine List.countP_congr fun g hg => ?_
  obtain ⟨hpage, hframe⟩ := h.guard g hg
  obtain ⟨-, hp⟩ := (h.table_iff p f).1 hf
  simp only [decide_eq_true_eq]
  constructor
  · rintro rfl
    exact hframe.symm.trans hp
  · rintro rfl
    exact Option.some.inj ((h.table_guard hg).symm.trans hf)

/-- A cached page has one pin for each guard on it. -/
theorem pinCount?_eq (h : pool.Sound gs) {p : PageId} {f : Fin n}
    (hf : pool.table[p]? = some f) : pool.pinCount? p = some (gs.countP fun g => g.page = p) := by
  rw [pinCount?_of_table hf, (h.frame f).pins_eq, h.length_modesOn hf]

/-- The candidates are the frames of the cached pages without pins. -/
theorem isCandidate_iff_cached (h : pool.Sound gs) {f : Fin n} :
    pool.replacer.IsCandidate f ↔ ∃ p, (p, f) ∈ pool.cached ∧ pool.pinCount? p = some 0 := by
  rw [h.candidate_iff]
  constructor
  · rintro ⟨hpage, hpins⟩
    have hf : pool.table[pool.frames[f].page]? = some f := (h.table_iff _ f).2 ⟨hpage, rfl⟩
    exact ⟨_, mem_cached_iff.2 hf, (pinCount?_of_table hf).trans (congrArg some hpins)⟩
  · rintro ⟨p, hp, hpins⟩
    have hf := mem_cached_iff.1 hp
    obtain ⟨hne, hpage⟩ := (h.table_iff p f).1 hf
    rw [pinCount?_of_table hf] at hpins
    exact ⟨hpage.symm ▸ hne, Option.some.inj hpins⟩

/-- The replacer counts the cached pages without pins. -/
theorem evictableCount_eq (h : pool.Sound gs) :
    pool.evictableCount = pool.cached.countP fun e => pool.pinCount? e.1 = some 0 := by
  have hfree : pool.free.countP (fun f => pool.replacer.IsCandidate f) = 0 := by
    refine List.countP_eq_zero.2 fun f hf => ?_
    rw [decide_eq_true_iff, h.candidate_iff]
    exact fun hc => hc.1 ((h.free_iff f).1 hf)
  rw [evictableCount, Replacer.size_eq, ← h.free_append_cached.countP_eq, List.countP_append, hfree,
    Nat.zero_add, List.countP_map]
  refine List.countP_congr fun ⟨p, f⟩ he => ?_
  have hf := mem_cached_iff.1 he
  obtain ⟨hp, hpage⟩ := (h.table_iff p f).1 hf
  simp only [Function.comp_apply, decide_eq_true_eq]
  rw [h.candidate_iff, pinCount?_of_table hf, Option.some_inj, hpage]
  exact and_iff_right hp

/-- **A sound and tidy pool is balanced.** -/
theorem balanced (h : pool.Sound gs) (ht : pool.Tidy) : pool.Balanced gs where
  once := h.free_append_cached
  size := by
    have hlength := h.free_append_cached.length_eq
    rw [List.length_append, List.length_map, List.length_finRange] at hlength
    exact hlength
  free f hf := by
    have hpage := (h.free_iff f).1 hf
    exact ⟨hpage, (h.of_no_page hpage).2.1, ht f hpage⟩
  distinct := nodup_cached
  cached e he := by
    have hf := mem_cached_iff.1 he
    obtain ⟨hp, hpage⟩ := (h.table_iff _ _).1 hf
    exact ⟨hf, hpage, hp⟩
  pins e he := h.pinCount?_eq (mem_cached_iff.1 he)
  guards g hg := mem_cached_iff.2 (h.table_guard hg)
  candidates f := h.isCandidate_iff_cached
  evictable := h.evictableCount_eq
  allocated e he := h.mem_of_table (mem_cached_iff.1 he)

end Sound

end Pool

/-! ## Runs -/

namespace PoolReply

variable {n m : Nat}

/-- A call that hands out no guard leaves the pool that its action leaves. -/
theorem snd_ofResult {α : Type} (reply : α → PoolReply) (gs : List (Guard n))
    (act : Action (Pool n m) α) (pool : Pool n m) :
    (ofResult reply gs (act pool)).2 = ⟨n, m, act.stateAfter pool, gs⟩ := by
  rw [Action.stateAfter]
  cases act pool <;> rfl

/-- So does a call that hands out a guard. -/
theorem snd_ofGuard (gs : List (Guard n)) (act : Action (Pool n m) (Guard n)) (pool : Pool n m) :
    ∃ gs', (ofGuard gs (act pool)).2 = ⟨n, m, act.stateAfter pool, gs'⟩ := by
  rw [Action.stateAfter]
  cases act pool with
  | ok g pool' => exact ⟨g :: gs, rfl⟩
  | error e pool' => exact ⟨gs, rfl⟩

end PoolReply

namespace OpenPool

variable {o : OpenPool}

/-- A sound pool is explained by what its guards show, without anything known of other pages. -/
theorem reflects_of_sound (h : o.pool.Sound o.guards) :
    o.Reflects ⟨fun _ => none, o.guards.map o.pool.shown⟩ :=
  ⟨h, rfl, nofun⟩

/-- No frame of the pool is dirty without a page. -/
def Tidy (o : OpenPool) : Prop := o.pool.Tidy

/-- A pool that was opened just now is tidy. -/
theorem tidy_start {config : PoolConfig} {disk : SpaceConfig} {v : Volume}
    (h : start config disk v = .ok o) : o.Tidy := by
  obtain ⟨space, rfl⟩ := of_start h
  exact (Pool.dirtyIn_empty _ _).tidy

/-- **One call** keeps the pool tidy. -/
theorem tidy_run (h : o.pool.Sound o.guards) (ht : o.Tidy) (call : PoolCall) :
    (call.run o).2.Tidy := by
  obtain ⟨n, m, pool, gs⟩ := o
  have htidy : pool.Tidy := ht
  have hresult : ∀ {α : Type} {act : Action (Pool n m) α} (reply : α → PoolReply),
      act.Preserves (Pool.DirtyIn {p | p ≠ .none}) →
      (PoolReply.ofResult reply gs (act pool)).2.Tidy := by
    intro α act reply hact
    rw [PoolReply.snd_ofResult]
    exact (hact.stateAfter htidy.dirtyIn).tidy
  cases call with
  | newPage =>
    have hnew : Pool.Tidy (Action.stateAfter Pool.newPage pool) := Pool.Tidy.newPage ht h
    obtain ⟨gs', hrun⟩ := PoolReply.snd_ofGuard gs Pool.newPage pool
    rw [PoolCall.run, hrun]
    exact hnew
  | fetch mode p =>
    obtain ⟨gs', hrun⟩ := PoolReply.snd_ofGuard gs (Pool.fetch mode p) pool
    rw [PoolCall.run, hrun]
    exact ((Pool.dirtyIn_fetch mode p).stateAfter htidy.dirtyIn).tidy
  | edit i change =>
    rcases hi : gs[i]? with _ | ⟨p, f, _ | _⟩
    · simp only [PoolCall.run, hi]
      exact ht
    · simp only [PoolCall.run, hi]
      exact ht
    · simp only [PoolCall.run, hi]
      exact hresult _ (Pool.dirtyIn_edit ⟨p, f, .write⟩ change)
  | drop i =>
    rcases hi : gs[i]? with _ | g
    · simp only [PoolCall.run, hi]
      exact ht
    · simp only [PoolCall.run, hi]
      exact Pool.Tidy.release ht h (List.mem_of_getElem? hi)
  | flush p => exact hresult _ (Pool.dirtyIn_flush p)
  | flushAll => exact hresult _ (Pool.dirtyIn_flushFrames _)
  | delete p => exact hresult _ (Pool.dirtyIn_delete p)
  | allocate => exact hresult _ (Pool.dirtyIn_onSpace _)
  | deallocate p => exact hresult _ (Pool.dirtyIn_deallocate p)
  | reopen config disk accepted =>
    rw [PoolCall.run]
    split
    · exact tidy_start ‹_›
    · exact ht

/-- **Every run of calls** keeps the pool sound and tidy. -/
theorem tidy_after (calls : List PoolCall) (h : o.pool.Sound o.guards) (ht : o.Tidy) :
    (o.after calls).pool.Sound (o.after calls).guards ∧ (o.after calls).Tidy := by
  induction calls generalizing o with
  | nil => exact ⟨h, ht⟩
  | cons call calls ih =>
    obtain ⟨l', -, hnext⟩ := (reflects_of_sound h).step call
    exact ih hnext.sound (tidy_run h ht call)

/-- **The books of a pool always agree.** On a new file, with any number of frames, any replacer and
any number of slots for bitmaps, the pool is balanced after every run of calls. -/
theorem always_balanced (n : Nat) (policy : Policy) {disk : SpaceConfig}
    (hdisk : disk.validate = .ok ()) {v : Volume} (hv : v.openFile = .ok {}) :
    ∃ space, Space.mount disk v = .ok space ∧ ∀ calls : List PoolCall,
      let o := OpenPool.after ⟨n, _, Pool.empty n policy space, []⟩ calls
      o.pool.Balanced o.guards := by
  obtain ⟨space, hmount, hs, -, -⟩ := Space.Sound.mount_fresh hdisk hv
  refine ⟨space, hmount, fun calls => ?_⟩
  obtain ⟨hsound, htidy⟩ := tidy_after (o := ⟨n, _, Pool.empty n policy space, []⟩) calls
    (Pool.sound_empty hs n policy).1 (Pool.dirtyIn_empty policy space).tidy
  exact hsound.balanced htidy

/-- A pool with two frames that are both held, so that a third page is refused; one of the two is
then given back and deleted. -/
theorem always_balanced_two : ∃ space, Space.mount ⟨1⟩ .missing = .ok space ∧
    let o := OpenPool.after ⟨2, _, Pool.empty 2 .clock space, []⟩
      [.newPage, .newPage, .newPage, .drop 0, .delete ⟨1⟩, .delete ⟨0⟩]
    o.pool.Balanced o.guards := by
  obtain ⟨space, hmount, hcalls⟩ := @always_balanced 2 .clock ⟨1⟩ rfl .missing rfl
  exact ⟨space, hmount, hcalls _⟩

end OpenPool

end PageStore
