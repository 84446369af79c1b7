import PageStore.Proofs.Pool.Guards

/-!
# Fetching keeps the map

* `Sound.acquire_cases`: a frame is taken for another page without a change to any page, or every
  frame is guarded;
* `Sound.fetch_cases`: a page that is allocated is fetched with its newest bytes, unless every
  frame is guarded or the caller itself keeps the latch;
* `Sound.newPage_cases`: a page that was free becomes one of zero bytes.
-/

namespace PageStore.Pool

open Finset

variable {n m : Nat}

/-- Every frame is guarded. -/
def Full (gs : List (Guard n)) : Prop := ∀ f : Fin n, ∃ g ∈ gs, g.frame = f

/-! ## Taking a frame -/

/-- A victim's bytes are on disk when its page leaves the frame. -/
theorem evict_eq_ok {pool : Pool n m} {f : Fin n} (hs : pool.space.Sound)
    (hp : pool.frames[f].page.val.toNat ∈ pool.space.members) :
    ∃ s, evict f pool = .ok () (editFrame f Frame.reset
        { pool with space := s, table := pool.table.erase pool.frames[f].page }) ∧
      s.Sound ∧ s.members = pool.space.members ∧
      ∀ q, q.isInRange = true → s.stored q =
        if q = pool.frames[f].page ∧ pool.frames[f].dirty = true then pool.frames[f].data
        else pool.space.stored q := by
  by_cases hd : pool.frames[f].dirty = true
  · obtain ⟨s, hwrite, hs', hmem, -, hst⟩ :=
      hs.write_eq_ok (hs.isInRange_of_mem hp) pool.frames[f].data
    refine ⟨s, ?_, hs', hmem, fun q hq => ?_⟩
    · rw [evict, Action.get_bind]
      simp only [hd, if_true]
      rw [Action.bind_of_ok (Action.onHalt_ok (onSpace_ok hwrite))]
      rfl
    · simp only [hst q hq, hp, hd, and_true]
  · refine ⟨pool.space, ?_, hs, rfl, fun q _ => ?_⟩
    · rw [evict, Action.get_bind]
      simp only [hd, Bool.false_eq_true, if_false]
      rfl
    · rw [if_neg fun h => hd h.2]

/-- A look that finds fault gives the guard back. -/
theorem inspect_eq_error {pool : Pool n m} {α : Type} {look : Page → Except Halt α} {e : Halt}
    {g : Guard n}
    (hlook : look (pool.bytes g) = .error e) : inspect g look pool = .error e (pool.release g) :=
  Action.atEnd_error (by rw [Action.get_bind, hlook]; rfl)

/-- A look that returned a value gave the guard back. -/
theorem of_inspect {pool pool' : Pool n m} {α : Type} {look : Page → Except Halt α} {a : α}
    {g : Guard n} (hrun : inspect g look pool = .ok a pool') :
    look (pool.bytes g) = .ok a ∧ pool' = pool.release g := by
  cases hlook : look (pool.bytes g) with
  | error e =>
    rw [inspect_eq_error hlook] at hrun
    cases hrun
  | ok b =>
    have hdone : inspect g look pool = .ok b (pool.release g) :=
      Action.atEnd_ok (by rw [Action.get_bind, hlook]; rfl)
    rw [hdone] at hrun
    cases hrun
    exact ⟨rfl, rfl⟩

theorem chooseVictim_eq_ok {pool : Pool n m} {f : Option (Fin n)} {r : Replacer n}
    (hv : pool.replacer.victim = (f, r)) :
    chooseVictim pool = .ok f { pool with replacer := r } := by
  have hrun : chooseVictim pool =
      .ok pool.replacer.victim.1 { pool with replacer := pool.replacer.victim.2 } := rfl
  rw [hrun, hv]

/-- A free frame is taken before any other. -/
theorem acquire_of_free {pool : Pool n m} {f : Fin n} {rest : List (Fin n)}
    (hfree : pool.free = f :: rest) : acquire pool = .ok f { pool with free := rest } := by
  rw [acquire, Action.get_bind]
  simp only [hfree]
  rfl

/-- Without a free frame, the victim's is taken. -/
theorem acquire_of_victim {pool pool' : Pool n m} {f : Fin n} {r : Replacer n}
    (hfree : pool.free = []) (hv : pool.replacer.victim = (some f, r))
    (hevict : evict f { pool with replacer := r } = .ok () pool') : acquire pool = .ok f pool' := by
  rw [acquire, Action.get_bind]
  simp only [hfree]
  rw [Action.bind_of_ok (chooseVictim_eq_ok hv)]
  dsimp only
  rw [Action.bind_of_ok hevict]
  rfl

/-- Without a victim, there is none. -/
theorem acquire_of_none {pool : Pool n m} {r : Replacer n} (hfree : pool.free = [])
    (hv : pool.replacer.victim = (none, r)) :
    acquire pool = .error (.refused .poolFull) { pool with replacer := r } := by
  rw [acquire, Action.get_bind]
  simp only [hfree]
  rw [Action.bind_of_ok (chooseVictim_eq_ok hv), ← hfree]
  rfl

namespace Sound

variable {pool : Pool n m} {gs : List (Guard n)}

/-- Every frame is guarded when none is free and none can be chosen. -/
theorem full_of_none (h : Sound pool gs) (hfree : pool.free = [])
    (hnone : ∀ f, ¬pool.replacer.IsCandidate f) : Full gs := by
  intro f
  have hpage : pool.frames[f].page ≠ .none := fun hp => by
    have := (h.free_iff f).2 hp
    rw [hfree] at this
    cases this
  have hpins : pool.frames[f].pins ≠ 0 := fun hp => hnone f ((h.candidate_iff f).2 ⟨hpage, hp⟩)
  by_contra hg
  refine hpins ((h.frame f).pins_eq.trans ?_)
  rw [modesOn_eq_nil_iff.2 fun g hgs hgf => hg ⟨g, hgs, hgf⟩]
  rfl

/-- Bytes that are not dirty are on disk, as nobody holds the latch of a page without pins. -/
theorem stored_of_clean (h : Sound pool gs) {f : Fin n} (hpage : pool.frames[f].page ≠ .none)
    (hpins : pool.frames[f].pins = 0) (hdirty : ¬pool.frames[f].dirty = true) :
    pool.space.stored pool.frames[f].page = pool.frames[f].data := by
  have hlatch := (h.frame f).latch
  rw [List.length_eq_zero_iff.1 ((h.frame f).pins_eq.symm.trans hpins),
    Latch.fits_nil_iff] at hlatch
  exact ((h.frame f).clean hpage (by simpa using hdirty) (by rw [hlatch]; rfl)).symm

/-- **A page without pins leaves its frame**, and its bytes are on disk then. -/
theorem evict_candidate (h : Sound pool gs) {f : Fin n} (hcand : pool.replacer.IsCandidate f)
    {r : Replacer n} (hr : ∀ d, r.IsCandidate d ↔ d ≠ f ∧ pool.replacer.IsCandidate d) :
    ∃ pool', evict f { pool with replacer := r } = .ok () pool' ∧ Sound (putBack f pool') gs ∧
      pool'.pages = pool.pages ∧ ∀ p : PageId, pool.table[p]? = none → pool'.table[p]? = none := by
  obtain ⟨hpage, hpins⟩ := (h.candidate_iff f).1 hcand
  let pool₁ : Pool n m := { pool with replacer := r }
  obtain ⟨s, hevict, hs, hmems, hst⟩ : ∃ s, evict f pool₁ = .ok () (editFrame f Frame.reset
      { pool₁ with space := s, table := pool.table.erase pool.frames[f].page }) ∧ _ :=
    evict_eq_ok h.space ((h.frame f).member hpage)
  have hst' : ∀ q, q.isInRange = true → s.stored q =
      if q = pool.frames[f].page then pool.frames[f].data else pool.space.stored q := by
    intro q hq
    rw [hst q hq]
    by_cases hqf : q = pool.frames[f].page
    · rw [if_pos hqf]
      by_cases hd : pool.frames[f].dirty = true
      · exact if_pos ⟨hqf, hd⟩
      · rw [if_neg fun hc => hd hc.2, hqf]
        exact h.stored_of_clean hpage hpins hd
    · rw [if_neg hqf, if_neg fun hc => hqf hc.1]
  obtain ⟨h₂, hpages, hself⟩ := h.space_written hpage hs hmems hst'
  let pool' : Pool n m := editFrame f Frame.reset
    { pool₁ with space := s, table := pool.table.erase pool.frames[f].page }
  obtain ⟨h₃, hcon⟩ : Sound (putBack f pool') gs ∧ _ := h₂.unbind hpage hpins rfl rfl rfl rfl hr
  refine ⟨pool', hevict, h₃, Eq.trans ?_ hpages, fun p hp => ?_⟩
  · refine pages_congr rfl fun p _ => ?_
    change (putBack f pool').contents p = _
    rw [hcon]
    by_cases hpf : p = pool.frames[f].page
    · rw [if_pos hpf, hpf, contents, (h.table_iff _ f).2 ⟨hpage, rfl⟩]
      exact hself
    · rw [if_neg hpf]
  · change (pool.table.erase _)[p]? = none
    rw [Std.HashMap.getElem?_erase, hp, ite_self]

/-- **Taking a frame.** It is one without a page, after the bytes of the page it had went to disk.
Only when every frame is guarded is there none. -/
theorem acquire_cases (h : Sound pool gs) :
    (∃ f pool', acquire pool = .ok f pool' ∧ Sound (putBack f pool') gs ∧
      pool'.pages = pool.pages ∧ ∀ p : PageId, pool.table[p]? = none → pool'.table[p]? = none) ∨
    (∃ pool', acquire pool = .error (.refused .poolFull) pool' ∧ Sound pool' gs ∧
      pool'.pages = pool.pages ∧ Full gs) := by
  rcases hfree : pool.free with _ | ⟨f, rest⟩
  · rcases hv : pool.replacer.victim with ⟨_ | f, r⟩
    · right
      obtain ⟨hnone, rfl⟩ := Replacer.victim_none hv
      exact ⟨pool, acquire_of_none hfree hv, h, rfl, h.full_of_none hfree hnone⟩
    · left
      obtain ⟨hcand, hr⟩ := Replacer.victim_some hv
      obtain ⟨pool', hevict, hrest⟩ := h.evict_candidate hcand hr
      exact ⟨f, pool', acquire_of_victim hfree hv hevict, hrest⟩
  · exact .inl ⟨f, { pool with free := rest }, acquire_of_free hfree,
      h.perm_free (hfree ▸ (List.perm_append_singleton f rest).symm), rfl, fun _ => id⟩

/-! ## Guards on pages -/

/-- A page that comes into a frame has the bytes that it is given. -/
theorem install_eq_ok {f : Fin n} (h : Sound (putBack f pool) gs) {p : PageId}
    (hp : p.val.toNat ∈ pool.space.members) (habsent : pool.table[p]? = none) {data : Page}
    {d : Bool} (hdata : d = false → data = pool.space.stored p) (mode : Mode) :
    ∃ pool', latch p f mode (install f p data d pool) = .ok ⟨p, f, mode⟩ pool' ∧
      Sound pool' (⟨p, f, mode⟩ :: gs) ∧
      pool'.pages = Function.update pool.pages p (some data) := by
  have hnone : pool.frames[f].page = .none := (h.free_iff f).1 (by simp [putBack])
  obtain ⟨-, hpins, hlatch⟩ := h.of_no_page hnone
  change pool.frames[f].pins = 0 at hpins
  change pool.frames[f].latch = .free at hlatch
  let frame : Frame := ⟨p, pool.frames[f].pins + 1, d, pool.frames[f].latch.take mode, data⟩
  let pool' : Pool n m := editFrame f (fun _ => frame)
    { pool with replacer := pool.replacer.pin f, table := pool.table.insert p f }
  have hfit : frame.Fits pool.space [mode] := by
    refine ⟨?_, ?_, fun _ => hp, fun _ hd _ => hdata hd⟩
    · change pool.frames[f].pins + 1 = 1
      rw [hpins]
    · change (pool.frames[f].latch.take mode).Fits [mode]
      rw [hlatch]
      exact Latch.Fits.take rfl rfl
  obtain ⟨hs, hcon⟩ : Sound pool' (⟨p, f, mode⟩ :: gs) ∧ _ :=
    h.bind frame (h.ne_none_of_mem hp) habsent rfl rfl rfl rfl
      (fun _ => Replacer.isCandidate_pin) hfit
  refine ⟨pool', ?_, hs, ?_⟩
  · change EStateM.Result.ok _ (editFrame f _ (install f p data d pool)) = _
    rw [install, editFrame_editFrame]
    rfl
  · funext q
    by_cases hq : q = p
    · rw [hq, Function.update_self, pages_eq_some_iff]
      exact ⟨hp, (hcon p).trans (if_pos rfl)⟩
    · rw [Function.update_of_ne hq, pages, pages, hcon, if_neg hq]
      rfl

theorem isHeld_of_table {p : PageId} {f : Fin n} (ht : pool.table[p]? = some f) (mode : Mode) :
    pool.isHeld p mode = !pool.frames[f].latch.admits mode := by
  rw [isHeld, ht]

/-- A fetch of a page in a frame pins the frame and takes its latch. -/
theorem fetch_of_hit {p : PageId} (hp : p ≠ .none) {f : Fin n} (ht : pool.table[p]? = some f)
    {mode : Mode} (htakes : pool.frames[f].latch.admits mode = true) :
    fetch mode p pool = .ok ⟨p, f, mode⟩
      (editFrame f
        (fun frame => { frame with pins := frame.pins + 1, latch := frame.latch.take mode })
        { pool with replacer := pool.replacer.pin f, hits := pool.hits + 1 }) := by
  have hheld : pool.isHeld p mode = false := by rw [isHeld_of_table ht, htakes, Bool.not_true]
  have hsome : p.isSome = true := PageId.isSome_iff.2 hp
  have hpin : pinPage p pool = .ok f (editFrame f Frame.pin
      { pool with replacer := pool.replacer.pin f, hits := pool.hits + 1 }) := by
    simp only [pinPage, hsome, Bool.not_true, Bool.false_eq_true, if_false]
    rw [Action.get_bind]
    simp only [ht]
    rfl
  rw [fetch, Action.get_bind]
  simp only [hheld, Bool.false_eq_true, if_false]
  rw [Action.bind_of_ok hpin]
  change EStateM.Result.ok _ (editFrame f _ (editFrame f _ _)) = _
  rw [editFrame_editFrame]
  rfl

/-- A page that is in a frame gets one guard more. -/
theorem hit_eq_ok (h : Sound pool gs) {p : PageId} {f : Fin n} (ht : pool.table[p]? = some f)
    {mode : Mode} (htakes : pool.frames[f].latch.admits mode = true) :
    ∃ pool', fetch mode p pool = .ok ⟨p, f, mode⟩ pool' ∧ Sound pool' (⟨p, f, mode⟩ :: gs) ∧
      pool'.pages = pool.pages := by
  obtain ⟨hp, hpage⟩ := (h.table_iff p f).1 ht
  have hfit := h.frame f
  let frame : Frame := { pool.frames[f] with
    pins := pool.frames[f].pins + 1, latch := pool.frames[f].latch.take mode }
  refine ⟨_, fetch_of_hit hp ht htakes, h.set_frame frame (f := f) rfl rfl rfl rfl rfl (fun d => ?_)
    (fun g hg => ?_) (fun d hd => ?_) ⟨?_, ?_, hfit.member, fun hp hd hc => ?_⟩,
    pages_of_data_eq frame (f := f) rfl rfl rfl rfl⟩
  · by_cases hd : d = f
    · rw [if_pos hd]
      exact iff_of_false (fun hc => (Replacer.isCandidate_pin.1 hc).1 hd)
        fun hc => Nat.succ_ne_zero _ hc.2
    · rw [if_neg hd]
      exact Replacer.isCandidate_pin.trans (and_iff_right hd)
  · rcases List.mem_cons.1 hg with rfl | hg
    · exact ⟨hp, hpage⟩
    · exact h.guard g hg
  · rw [modesOn_cons, if_neg (Ne.symm hd)]
  · rw [modesOn_cons, if_pos rfl]
    exact congrArg (· + 1) hfit.pins_eq
  · rw [modesOn_cons, if_pos rfl]
    exact hfit.latch.take htakes
  · refine hfit.clean hp hd ?_
    -- a latch that lets somebody in has no writer
    revert htakes
    cases pool.frames[f].latch <;> simp [Latch.admits, Latch.isChanged]

/-- The bytes on disk are the newest ones when no frame has the page, and so they are the ones to
bring into a frame. -/
theorem read_eq_ok {f : Fin n} (h : Sound (putBack f pool) gs) {p : PageId}
    (hp : p.val.toNat ∈ pool.space.members) (habsent : pool.table[p]? = none) :
    ∃ s, onSpace (Space.read p pageSize) pool =
        .ok (pool.contents p) { pool with space := s } ∧
      ∀ mode, ∃ pool', latch p f mode
          (install f p (pool.contents p) false { pool with space := s }) =
          .ok ⟨p, f, mode⟩ pool' ∧ Sound pool' (⟨p, f, mode⟩ :: gs) ∧
        pool'.pages = pool.pages := by
  have hs : pool.space.Sound := h.space
  have hrange := hs.isInRange_of_mem hp
  obtain ⟨s, hread, hs', ha⟩ := hs.read_eq_ok hrange
  rw [if_pos hp, ← contents_of_none habsent] at hread
  obtain ⟨h', hpages⟩ : Sound (putBack f { pool with space := s }) gs ∧ _ := h.space_agrees hs' ha
  refine ⟨s, onSpace_ok hread, fun mode => ?_⟩
  have hstored : pool.contents p = s.stored p := by
    rw [contents_of_none habsent, ha.stored_eq p hrange]
  obtain ⟨pool', hlatch, hsound, hpages'⟩ :=
    h'.install_eq_ok (by rw [ha.members_eq]; exact hp) habsent (fun _ => hstored) mode
  refine ⟨pool', hlatch, hsound, hpages'.trans ?_⟩
  have hpages'' : { pool with space := s }.pages = pool.pages := hpages
  rw [hpages'', Function.update_eq_self_iff]
  exact (pages_eq_some_iff.2 ⟨hp, rfl⟩).symm

/-- A page that is allocated and in no frame is looked up on disk before a frame is taken for it. -/
theorem pinPage_of_mem (h : Sound pool gs) {p : PageId} (hp : p.val.toNat ∈ pool.members)
    (ht : pool.table[p]? = none) :
    ∃ s, s.Sound ∧ pool.space.Agrees s ∧ pinPage p pool = (acquire >>= fun f => do
      let data ← Action.onHalt (onSpace (Space.read p pageSize)) (putBack f)
      modify (install f p data false)
      return f) { pool with misses := pool.misses + 1, space := s } := by
  have hsome : p.isSome = true := PageId.isSome_iff.2 (h.ne_none_of_mem hp)
  obtain ⟨s, hfree, hs, ha⟩ := h.space.isFree_eq_ok (h.isInRange_of_mem hp)
  refine ⟨s, hs, ha, ?_⟩
  have hmem : p.val.toNat ∈ pool.space.members := hp
  rw [decide_eq_false fun hc => hc hmem] at hfree
  have hrun : onSpace (Space.isFree p) { pool with misses := pool.misses + 1 } =
      .ok false { pool with misses := pool.misses + 1, space := s } := Action.focus_ok hfree
  simp only [pinPage, hsome, Bool.not_true, Bool.false_eq_true, if_false]
  rw [Action.get_bind]
  simp only [ht]
  rw [Action.modify_bind, Action.bind_of_ok hrun]
  rfl

/-- A page that is not allocated is refused before a frame is taken for it. -/
theorem pinPage_of_not_mem (h : Sound pool gs) {p : PageId} (hp : p ≠ .none)
    (hmem : p.val.toNat ∉ pool.members) (ht : pool.table[p]? = none) :
    ∃ e s, s.Sound ∧ pool.space.Agrees s ∧ (e = .notAllocated p ∨ e = .invalidPage p) ∧
      pinPage p pool = .error (.refused e) { pool with misses := pool.misses + 1, space := s } := by
  have hsome : p.isSome = true := PageId.isSome_iff.2 hp
  let pool₀ : Pool n m := { pool with misses := pool.misses + 1 }
  simp only [pinPage, hsome, Bool.not_true, Bool.false_eq_true, if_false]
  rw [Action.get_bind]
  simp only [ht]
  rw [Action.modify_bind]
  by_cases hrange : p.isInRange = true
  · obtain ⟨s, hfree, hs, ha⟩ := h.space.isFree_eq_ok hrange
    have hout : p.val.toNat ∉ pool.space.members := hmem
    rw [decide_eq_true hout] at hfree
    have hrun : onSpace (Space.isFree p) pool₀ = .ok true { pool₀ with space := s } :=
      Action.focus_ok hfree
    rw [Action.bind_of_ok hrun]
    exact ⟨.notAllocated p, s, hs, ha, .inl rfl, rfl⟩
  · have hrun : onSpace (Space.isFree p) pool₀ = .error (.refused (.invalidPage p)) pool₀ :=
      Action.focus_error (Space.Sound.isFree_eq_error pool.space (by simpa using hrange))
    rw [Action.bind_of_error hrun]
    exact ⟨.invalidPage p, pool.space, h.space, .refl _, .inr rfl, rfl⟩

/-- A page that is in no frame is brought into one, and is ready for its latch to be taken, unless
it is not allocated or every frame is guarded. -/
theorem miss_cases (h : Sound pool gs) {p : PageId} (hp : p ≠ .none)
    (ht : pool.table[p]? = none) :
    (∃ f pool₁, pinPage p pool = .ok f pool₁ ∧ ∀ mode, ∃ pool',
      latch p f mode pool₁ = .ok ⟨p, f, mode⟩ pool' ∧ Sound pool' (⟨p, f, mode⟩ :: gs) ∧
        pool'.pages = pool.pages) ∨
    (∃ e pool', pinPage p pool = .error (.refused e) pool' ∧ Sound pool' gs ∧
      pool'.pages = pool.pages ∧
      ((e ≠ .poolFull ∧ pool.pages p = none) ∨ (e = .poolFull ∧ Full gs))) := by
  have h₀ : Sound { pool with misses := pool.misses + 1 } gs := h.counters _ _
  by_cases hmem : p.val.toNat ∈ pool.members
  · obtain ⟨s, hs, ha, hpin⟩ := h.pinPage_of_mem hmem ht
    obtain ⟨h₁, hpages₁⟩ := h₀.space_agrees hs ha
    rcases h₁.acquire_cases with ⟨f, pool₂, hacquire, h₂, hpages₂, hkeep⟩ |
      ⟨pool₂, hacquire, h₂, hpages₂, hfull⟩
    · left
      have hpages : pool₂.pages = pool.pages := hpages₂.trans hpages₁
      have habsent : pool₂.table[p]? = none := hkeep p ht
      have hmem₂ : p.val.toNat ∈ pool₂.members := by
        by_contra hc
        exact pages_eq_none_iff.1 (hpages ▸ pages_eq_none_iff.2 hc) hmem
      obtain ⟨s', hread, hguard⟩ := h₂.read_eq_ok hmem₂ habsent
      refine ⟨f, install f p (pool₂.contents p) false { pool₂ with space := s' }, ?_,
        fun mode => hpages ▸ hguard mode⟩
      rw [hpin, Action.bind_of_ok hacquire, Action.bind_of_ok (Action.onHalt_ok hread)]
      rfl
    · right
      refine ⟨_, pool₂, ?_, h₂, hpages₂.trans hpages₁, .inr ⟨rfl, hfull⟩⟩
      rw [hpin, Action.bind_of_error hacquire]
  · right
    obtain ⟨e, s, hs, ha, he, hpin⟩ := h.pinPage_of_not_mem hp hmem ht
    obtain ⟨h₁, hpages₁⟩ := h₀.space_agrees hs ha
    have hcause : e ≠ .poolFull := by rcases he with rfl | rfl <;> rintro ⟨⟩
    exact ⟨e, _, hpin, h₁, hpages₁, .inl ⟨hcause, pages_eq_none_iff.2 hmem⟩⟩

/-- There is no page without an id. -/
theorem pinPage_none (pool : Pool n m) :
    pinPage .none pool = .error (.refused (.invalidPage .none)) pool := by
  simp only [pinPage, PageId.isSome_none, Bool.not_false, if_true]
  rfl

/-- Nobody keeps others out of a page in no frame. -/
theorem fetch_of_miss {p : PageId} (ht : pool.table[p]? = none) (mode : Mode) :
    fetch mode p pool = (pinPage p >>= fun f => latch p f mode) pool := by
  have hheld : pool.isHeld p mode = false := by rw [isHeld, ht]
  rw [fetch, Action.get_bind]
  simp only [hheld, Bool.false_eq_true, if_false]

/-- A latch that keeps the caller out is waited for. -/
theorem fetch_of_held {p : PageId} {mode : Mode} (hheld : pool.isHeld p mode = true) :
    fetch mode p pool = .error .blocked pool := by
  rw [fetch, Action.get_bind]
  simp only [hheld, if_true]
  rfl

/-- **Fetching.** The guard shows the newest bytes of its page. The call waits only when the caller
itself holds the page, and is refused only when the page is not allocated, or when every frame is
guarded. -/
theorem fetch_cases (h : Sound pool gs) (mode : Mode) (p : PageId) :
    (∃ g pool', fetch mode p pool = .ok g pool' ∧ g.page = p ∧ g.mode = mode ∧
      Sound pool' (g :: gs) ∧ pool'.pages = pool.pages) ∨
    (∃ e pool', fetch mode p pool = .error e pool' ∧ Sound pool' gs ∧
      pool'.pages = pool.pages ∧
      ((e = .blocked ∧ pool.isHeld p mode = true ∧ ∃ g ∈ gs, g.page = p) ∨
        ∃ cause, e = .refused cause ∧
          ((cause ≠ .poolFull ∧ pool.pages p = none) ∨ (cause = .poolFull ∧ Full gs)))) := by
  rcases ht : pool.table[p]? with _ | f
  · rw [fetch_of_miss ht]
    by_cases hp : p = .none
    · right
      subst hp
      exact ⟨_, pool, Action.bind_of_error (pinPage_none pool), h, rfl,
        .inr ⟨_, rfl, .inl ⟨nofun, h.pages_none⟩⟩⟩
    · rcases h.miss_cases hp ht with ⟨f, pool₁, hpin, hguard⟩ | ⟨e, pool', hpin, hs, hpages, hwhy⟩
      · left
        obtain ⟨pool', hlatch, hs, hpages⟩ := hguard mode
        refine ⟨⟨p, f, mode⟩, pool', ?_, rfl, rfl, hs, hpages⟩
        rw [Action.bind_of_ok hpin, hlatch]
      · exact .inr ⟨_, pool', Action.bind_of_error hpin, hs, hpages, .inr ⟨e, rfl, hwhy⟩⟩
  · by_cases htakes : pool.frames[f].latch.admits mode = true
    · left
      obtain ⟨pool', hrun, hs, hpages⟩ := h.hit_eq_ok ht htakes
      exact ⟨⟨p, f, mode⟩, pool', hrun, rfl, rfl, hs, hpages⟩
    · right
      have hheld : pool.isHeld p mode = true := by
        rw [isHeld_of_table ht]
        simpa using htakes
      refine ⟨.blocked, pool, fetch_of_held hheld, h, rfl, .inl ⟨rfl, hheld, ?_⟩⟩
      -- a latch that keeps somebody out has a holder
      by_contra hnone
      have hnil := h.modesOn_eq_nil ht fun g hg hgp => hnone ⟨g, hg, hgp⟩
      have hfree := (h.frame f).latch
      rw [hnil, Latch.fits_nil_iff] at hfree
      rw [hfree] at htakes
      exact htakes rfl

/-- A page that is allocated, and that nobody holds, is fetched unless every frame is guarded. -/
theorem fetch_eq_ok (h : Sound pool gs) (mode : Mode) {p : PageId} (hp : pool.pages p ≠ none)
    (hfree : ∀ g ∈ gs, g.page ≠ p) (hroom : ¬Full gs) :
    ∃ g pool', fetch mode p pool = .ok g pool' ∧ g.page = p ∧ g.mode = mode ∧
      Sound pool' (g :: gs) ∧ pool'.pages = pool.pages := by
  rcases h.fetch_cases mode p with hok | ⟨e, pool', -, -, -,
    ⟨-, -, g, hg, hgp⟩ | ⟨cause, -, ⟨-, hnone⟩ | ⟨-, hfull⟩⟩⟩
  · exact hok
  · exact absurd hgp (hfree g hg)
  · exact absurd hnone hp
  · exact absurd hfull hroom

/-- **A new page** was free, and has zero bytes. There is none only when all pages are allocated, or
every frame is guarded. -/
theorem newPage_cases (h : Sound pool gs) :
    (∃ g pool', newPage pool = .ok g pool' ∧ g.mode = .write ∧ pool.pages g.page = none ∧
      Sound pool' (g :: gs) ∧
      pool'.pages = Function.update pool.pages g.page (some (Block.zero pageSize))) ∨
    (∃ e pool', newPage pool = .error (.refused e) pool' ∧ Sound pool' gs ∧
      pool'.pages = pool.pages ∧
      ((e = .diskFull ∧ pool.members = range maxLogicalPages) ∨ (e = .poolFull ∧ Full gs))) := by
  rcases h.acquire_cases with ⟨f, pool₁, hacquire, h₁, hpages₁, -⟩ |
    ⟨pool₁, hacquire, h₁, hpages₁, hfull⟩
  · have hs : pool₁.space.Sound := h₁.space
    rcases hs.allocate_cases with ⟨halloc, hall⟩ | ⟨p, s, halloc, hs', -, hnot, -, hmem, hst, -⟩
    · right
      refine ⟨.diskFull, putBack f pool₁, ?_, h₁, hpages₁, .inl ⟨rfl, ?_⟩⟩
      · rw [newPage, Action.bind_of_ok hacquire,
          Action.bind_of_error (Action.onHalt_error (onSpace_error halloc))]
      · exact (members_eq_of_pages h.space hs hpages₁).symm.trans hall
    · left
      have hold : pool.pages p = none := hpages₁ ▸ pages_eq_none_iff.2 hnot
      have habsent : pool₁.table[p]? = none := by
        rcases ht : pool₁.table[p]? with _ | d
        · rfl
        · exact absurd (h₁.mem_of_table ht) hnot
      obtain ⟨h₂, hpages₂⟩ : Sound (putBack f { pool₁ with space := s }) gs ∧
          ∀ q, q ≠ p → ({ pool₁ with space := s } : Pool n m).pages q = pool₁.pages q :=
        h₁.space_allocated hs' hmem hst
      have hp : p.val.toNat ∈ s.members := by
        rw [hmem]
        exact mem_insert_self ..
      obtain ⟨pool', hlatch, h₃, hpages₃⟩ := h₂.install_eq_ok hp habsent (d := true) nofun .write
      refine ⟨⟨p, f, .write⟩, pool', ?_, rfl, hold, h₃, ?_⟩
      · rw [newPage, Action.bind_of_ok hacquire,
          Action.bind_of_ok (Action.onHalt_ok (onSpace_ok halloc))]
        exact hlatch
      · rw [hpages₃, ← hpages₁]
        funext q
        by_cases hq : q = p
        · rw [hq, Function.update_self, Function.update_self]
        · rw [Function.update_of_ne hq, Function.update_of_ne hq]
          exact hpages₂ q hq
  · right
    exact ⟨_, pool₁, Action.bind_of_error hacquire, h₁, hpages₁, .inr ⟨rfl, hfull⟩⟩

/-! ## Calls that returned -/

variable {pool' : Pool n m} {p : PageId}

/-- A page that was fetched is under the guard. -/
theorem of_fetch (h : Sound pool gs) {mode : Mode} {g : Guard n}
    (hrun : fetch mode p pool = .ok g pool') :
    g.page = p ∧ g.mode = mode ∧ Sound pool' (g :: gs) ∧ pool'.pages = pool.pages := by
  rcases h.fetch_cases mode p with ⟨g', pool₁, hok, hgp, hgm, hs₁, hpages⟩ | ⟨e, pool₁, herror, -⟩
  · rw [hok] at hrun
    cases hrun
    exact ⟨hgp, hgm, hs₁, hpages⟩
  · rw [herror] at hrun
    cases hrun

/-- A page that was looked at is allocated. -/
theorem of_view (h : Sound pool gs) {α : Type} {look : Page → Except Halt α} {a : α}
    (hrun : view p look pool = .ok a pool') :
    ∃ page, pool.pages p = some page ∧ look page = .ok a ∧ Sound pool' gs ∧
      pool'.pages = pool.pages := by
  obtain ⟨g, pool₁, hfetch, hinspect⟩ := Action.bind_eq_ok_iff.1 hrun
  obtain ⟨rfl, -, hs₁, hpages₁⟩ := h.of_fetch hfetch
  obtain ⟨hlook, rfl⟩ := of_inspect hinspect
  obtain ⟨hs', hpages'⟩ := hs₁.release
  refine ⟨pool₁.bytes g, ?_, hlook, hs', hpages'.trans hpages₁⟩
  rw [← hpages₁]
  exact hs₁.pages_guard List.mem_cons_self

/-- **A page that was updated** has the bytes that the change made of those it had. -/
theorem of_update (h : Sound pool gs) {change : Page → Except Halt Page}
    (hrun : update p change pool = .ok () pool') :
    ∃ page page', pool.pages p = some page ∧ change page = .ok page' ∧ Sound pool' gs ∧
      pool'.pages = Function.update pool.pages p (some page') := by
  obtain ⟨g, pool₁, hfetch, hedit⟩ := Action.bind_eq_ok_iff.1 hrun
  obtain ⟨rfl, hmode, hs₁, hpages₁⟩ := h.of_fetch hfetch
  have hpage : pool.pages g.page = some (pool₁.bytes g) := by
    rw [← hpages₁]
    exact hs₁.pages_guard List.mem_cons_self
  cases hchange : change (pool₁.bytes g) with
  | error e =>
    obtain ⟨pool₂, hstop, -⟩ := hs₁.edit_eq_error List.mem_cons_self hmode hchange
    rw [holding, Action.atEnd_error hstop] at hedit
    cases hedit
  | ok page' =>
    obtain ⟨pool₂, hdone, hs₂, hpages₂⟩ := hs₁.edit_eq_ok List.mem_cons_self hmode change hchange
    rw [holding, Action.atEnd_ok hdone] at hedit
    cases hedit
    obtain ⟨hs', hpages'⟩ := hs₂.release
    exact ⟨_, page', hpage, hchange, hs', by rw [hpages', hpages₂, hpages₁]⟩

end Sound

end PageStore.Pool
