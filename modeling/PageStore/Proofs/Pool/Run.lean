import PageStore.Proofs.Pool.Fetch
import PageStore.Proofs.Pool.Upkeep

/-!
# A pool over its whole life

A run makes calls on a pool, writes through guards and gives them back in any order, and closes
and opens the pool again as often as it likes. A `Ledger` keeps what the caller may rely on: for
each page that was created or written the bytes that its last writer left, and for each guard that
is out the bytes that it shows. `refines_ledger` explains every answer of every run by it.
-/

namespace PageStore

/-! ## Runs -/

/-- What can be done to an open pool. Guards are numbered, the newest first. -/
inductive PoolCall where
  | newPage
  | fetch (mode : Mode) (p : PageId)
  /-- changes the bytes under a write guard -/
  | edit (i : Nat) (change : Page → Except Halt Page)
  /-- gives a guard back -/
  | drop (i : Nat)
  | flush (p : PageId)
  | flushAll
  | delete (p : PageId)
  | allocate
  | deallocate (p : PageId)
  /-- gives all guards back, closes the pool and the space, and opens them again, with settings
  that are accepted -/
  | reopen (config : PoolConfig) (disk : SpaceConfig)
    (accepted : config.validate = .ok () ∧ disk.validate = .ok ())

/-- The value that a call returns. -/
inductive PoolReply where
  | done
  /-- there is no guard that allows the call -/
  | idle
  | page (p : PageId)
  | flag (b : Bool)
  | count (k : Nat)

/-- An open pool of any size, and the guards that are out. -/
structure OpenPool where
  /-- number of frames -/
  frames : Nat
  /-- number of slots for bitmaps -/
  slots : Nat
  /-- the pool -/
  pool : Pool frames slots
  /-- the guards -/
  guards : List (Guard frames)

/-- How a call ends: with a reply, or not. -/
abbrev PoolAnswer : Type := Except Halt PoolReply

namespace PoolReply

variable {n m : Nat}

/-- The answer of an action that hands out no guard, and the pool that it leaves. -/
def ofResult {α : Type} (reply : α → PoolReply) (guards : List (Guard n)) :
    EStateM.Result Halt (Pool n m) α → PoolAnswer × OpenPool
  | .ok a pool => (.ok (reply a), ⟨n, m, pool, guards⟩)
  | .error e pool => (.error e, ⟨n, m, pool, guards⟩)

/-- The answer of an action that hands out a guard, and the pool that it leaves. -/
def ofGuard (guards : List (Guard n)) :
    EStateM.Result Halt (Pool n m) (Guard n) → PoolAnswer × OpenPool
  | .ok g pool => (.ok (page g.page), ⟨n, m, pool, g :: guards⟩)
  | .error e pool => (.error e, ⟨n, m, pool, guards⟩)

end PoolReply

/-- Opens a pool on the file at a path. -/
def OpenPool.start (config : PoolConfig) (disk : SpaceConfig) (v : Volume) :
    Except StoreError OpenPool := do
  let space ← Space.mount disk v
  let pool ← Pool.create config space
  return ⟨_, _, pool, []⟩

/-- Gives all guards back and closes the pool and the space. -/
def OpenPool.stop (o : OpenPool) : Volume :=
  (o.guards.foldl (fun pool g => pool.release g) o.pool).close.unmount

/-- Makes a call. -/
def PoolCall.run : PoolCall → OpenPool → PoolAnswer × OpenPool
  | newPage, ⟨_, _, pool, guards⟩ => PoolReply.ofGuard guards (Pool.newPage pool)
  | fetch mode p, ⟨_, _, pool, guards⟩ => PoolReply.ofGuard guards (Pool.fetch mode p pool)
  | edit i change, ⟨n, m, pool, guards⟩ =>
    match guards[i]? with
    | some ⟨p, f, .write⟩ =>
      PoolReply.ofResult (fun _ => .done) guards (Pool.edit ⟨p, f, .write⟩ change pool)
    | _ => (.ok .idle, ⟨n, m, pool, guards⟩)
  | drop i, ⟨n, m, pool, guards⟩ =>
    match guards[i]? with
    | some g => (.ok .done, ⟨n, m, pool.release g, guards.eraseIdx i⟩)
    | none => (.ok .idle, ⟨n, m, pool, guards⟩)
  | flush p, ⟨_, _, pool, guards⟩ => PoolReply.ofResult .flag guards (Pool.flush p pool)
  | flushAll, ⟨_, _, pool, guards⟩ => PoolReply.ofResult .count guards (Pool.flushAll pool)
  | delete p, ⟨_, _, pool, guards⟩ => PoolReply.ofResult .flag guards (Pool.delete p pool)
  | allocate, ⟨_, _, pool, guards⟩ =>
    PoolReply.ofResult .page guards (Pool.onSpace Space.allocate pool)
  | deallocate p, ⟨_, _, pool, guards⟩ =>
    PoolReply.ofResult (fun _ => .done) guards (Pool.deallocate p pool)
  | reopen config disk _, o =>
    match OpenPool.start config disk o.stop with
    | .ok o => (.ok .done, o)
    | .error e => (.error (.refused e), o)

/-! ## The ledger that explains a run -/

/-- What a guard that is out shows. -/
structure Held where
  /-- the page -/
  page : PageId
  /-- what the guard allows -/
  mode : Mode
  /-- the bytes -/
  bytes : Page

/-- What the caller may rely on. -/
structure Ledger where
  /-- the bytes that the last writer of a page left, for the pages that were created or written
  and not deleted since -/
  known : PageId → Option Page
  /-- the guards that are out -/
  held : List Held

/-- A writer that gives its guard back leaves its bytes. -/
def Held.leave (h : Held) (known : PageId → Option Page) : PageId → Option Page :=
  match h.mode with
  | .read => known
  | .write => Function.update known h.page (some h.bytes)

/-- The answer that a call has to give when the caller relies on `l`, and what it may rely on
afterwards. -/
def PoolCall.Expected (l : Ledger) : PoolCall → PoolAnswer → Ledger → Prop
  | newPage, answer, l' =>
    (∃ p, answer = .ok (.page p) ∧ l' =
      ⟨Function.update l.known p (some (Block.zero pageSize)),
        ⟨p, .write, Block.zero pageSize⟩ :: l.held⟩) ∨
    (∃ e, answer = .error e ∧ l' = l)
  | fetch mode p, answer, l' =>
    (∃ bytes, answer = .ok (.page p) ∧ (∀ b, l.known p = some b → bytes = b) ∧
      l' = { l with held := ⟨p, mode, bytes⟩ :: l.held }) ∨
    (∃ e, answer = .error e ∧ l' = l)
  | edit i change, answer, l' =>
    match l.held[i]? with
    | some ⟨p, .write, bytes⟩ =>
      match change bytes with
      | .ok bytes => answer = .ok .done ∧ l' = { l with held := l.held.set i ⟨p, .write, bytes⟩ }
      | .error e => answer = .error e ∧ l' = l
    | _ => answer = .ok .idle ∧ l' = l
  | drop i, answer, l' =>
    match l.held[i]? with
    | some h => answer = .ok .done ∧ l' = ⟨h.leave l.known, l.held.eraseIdx i⟩
    | none => answer = .ok .idle ∧ l' = l
  | delete p, answer, l' =>
    (answer = .ok (.flag true) ∧ l' = { l with known := Function.update l.known p none }) ∨
    (answer ≠ .ok (.flag true) ∧ l' = l)
  | deallocate p, answer, l' =>
    (answer = .ok .done ∧ l' = { l with known := Function.update l.known p none }) ∨
    (∃ e, answer = .error e ∧ l' = l)
  | reopen _ _ _, answer, l' =>
    answer = .ok .done ∧ l' = ⟨l.held.foldl (fun known h => h.leave known) l.known, []⟩
  | flush _, _, l' => l' = l
  | flushAll, _, l' => l' = l
  | allocate, _, l' => l' = l

/-- The guards that are out show the bytes in the ledger. -/
def OpenPool.Shows (o : OpenPool) (l : Ledger) : Prop :=
  o.guards.map (fun g => ⟨g.page, g.mode, o.pool.bytes g⟩) = l.held

/-- Every call of a run is answered as expected, and the guards show what is expected, before the
first call and after each. -/
def OpenPool.Explained (o : OpenPool) (l : Ledger) : List PoolCall → Prop
  | [] => o.Shows l
  | call :: calls => o.Shows l ∧ ∃ l', call.Expected l (call.run o).1 l' ∧
      (call.run o).2.Explained l' calls

/-! ## What the caller may rely on -/

namespace Pool

variable {n m : Nat} {pool pool' : Pool n m} {gs gs' : List (Guard n)} {g : Guard n}
  {known : PageId → Option Page}

/-- What the guard shows. -/
def shown (pool : Pool n m) (g : Guard n) : Held := ⟨g.page, g.mode, pool.bytes g⟩

/-- Every page in the ledger is allocated, and has the bytes in the ledger as long as no writer
holds it. -/
def Knows (pool : Pool n m) (gs : List (Guard n)) (known : PageId → Option Page) : Prop :=
  ∀ p b, known p = some b → ∃ page, pool.pages p = some page ∧
    ((∀ g ∈ gs, g.page = p → g.mode = .read) → page = b)

/-- What a guard shows depends on its page alone. -/
theorem shown_eq (h : Sound pool gs) (h' : Sound pool' gs') (hg : g ∈ gs) (hg' : g ∈ gs')
    (hp : pool'.pages g.page = pool.pages g.page) : pool'.shown g = pool.shown g := by
  rw [h.pages_guard hg, h'.pages_guard hg'] at hp
  rw [shown, shown, Option.some.inj hp]

theorem map_shown_eq (h : Sound pool gs) (h' : Sound pool' gs')
    {l : List (Guard n)} (hl : ∀ g ∈ l, g ∈ gs ∧ g ∈ gs')
    (hp : ∀ g ∈ l, pool'.pages g.page = pool.pages g.page) :
    l.map pool'.shown = l.map pool.shown :=
  List.map_congr_left fun g hg => shown_eq h h' (hl g hg).1 (hl g hg).2 (hp g hg)

/-- What is known stays known when no page changes and no guard is given back. -/
theorem Knows.of_subset (hk : Knows pool gs known) (hp : pool'.pages = pool.pages)
    (hsub : ∀ g ∈ gs, g ∈ gs') : Knows pool' gs' known := by
  intro p b hb
  obtain ⟨page, hpage, hread⟩ := hk p b hb
  exact ⟨page, hp ▸ hpage, fun hg => hread fun d hd => hg d (hsub d hd)⟩

/-- What is known of one page is replaced, when only that page changed. -/
theorem Knows.update (hk : Knows pool gs known) {p : PageId} {v : Option Page}
    (hv : ∀ b, v = some b → pool'.pages p = some b)
    (hothers : ∀ q, q ≠ p → pool'.pages q = pool.pages q)
    (hsub : ∀ g ∈ gs, g.page ≠ p → g ∈ gs') : Knows pool' gs' (Function.update known p v) := by
  intro q b hb
  by_cases hq : q = p
  · rw [hq, Function.update_self] at hb
    rw [hq]
    exact ⟨b, hv b hb, fun _ => rfl⟩
  · rw [Function.update_of_ne hq] at hb
    rw [hothers q hq]
    obtain ⟨page, hpage, hread⟩ := hk q b hb
    exact ⟨page, hpage, fun hg => hread fun d hd hdq => hg d (hsub d hd (hdq ▸ hq)) hdq⟩

/-- A known page without writers has the bytes that are known. -/
theorem Knows.eq_of_fetch (hk : Knows pool gs known) (h : Sound pool' (g :: gs))
    (hp : pool'.pages = pool.pages) {b : Page} (hb : known g.page = some b) :
    pool'.bytes g = b := by
  obtain ⟨page, hpage, hread⟩ := hk _ b hb
  rw [← hp, h.pages_guard List.mem_cons_self] at hpage
  rw [Option.some.inj hpage]
  refine hread fun d hd hdp => ?_
  rcases hm : d.mode with _ | _
  · rfl
  · exact absurd hdp (h.page_ne_of_write hd (.inr hm))

/-- A guard that is given back leaves its bytes behind. -/
theorem Knows.release (hk : Knows pool (g :: gs) known) (h : Sound pool (g :: gs)) :
    Knows (pool.release g) gs ((pool.shown g).leave known) := by
  obtain ⟨h', hpages⟩ := h.release
  rcases hm : g.mode with _ | _
  · intro p b hb
    simp only [shown, Held.leave, hm] at hb
    obtain ⟨page, hpage, hread⟩ := hk p b hb
    refine ⟨page, hpages ▸ hpage, fun hg => hread fun d hd hdp => ?_⟩
    rcases List.mem_cons.1 hd with rfl | hd
    · exact hm
    · exact hg d hd hdp
  · simp only [shown, Held.leave, hm]
    refine hk.update (fun b hb => ?_) (fun q _ => by rw [hpages]) fun d hd hne => ?_
    · rw [hpages, h.pages_guard List.mem_cons_self]
      exact hb
    · exact (List.mem_cons.1 hd).resolve_left fun e => hne (e ▸ rfl)

/-- All guards are given back, one after the other. -/
theorem Sound.release_all {gs : List (Guard n)} {pool : Pool n m} (h : Sound pool gs) :
    Sound (gs.foldl (fun pool g => pool.release g) pool) [] ∧
      (gs.foldl (fun pool g => pool.release g) pool).pages = pool.pages := by
  induction gs generalizing pool with
  | nil => exact ⟨h, rfl⟩
  | cons g gs ih =>
    obtain ⟨h', hpages⟩ := h.release
    exact ⟨(ih h').1, (ih h').2.trans hpages⟩

/-- What is known then is what the guards showed. -/
theorem Knows.release_all {gs : List (Guard n)} {pool : Pool n m} {known : PageId → Option Page}
    (h : Sound pool gs) (hk : Knows pool gs known) :
    Knows (gs.foldl (fun pool g => pool.release g) pool) []
      ((gs.map pool.shown).foldl (fun known d => d.leave known) known) := by
  induction gs generalizing pool known with
  | nil => exact hk
  | cons g gs ih =>
    obtain ⟨h', hpages⟩ := h.release
    have hsame : gs.map (pool.release g).shown = gs.map pool.shown :=
      map_shown_eq h h' (fun d hd => ⟨.tail _ hd, hd⟩) fun _ _ => by rw [hpages]
    have hrest := ih h' (hk.release h)
    rw [hsame] at hrest
    exact hrest

end Pool

/-! ## Opening again -/

/-- A pool opens on a space that can be mounted. -/
theorem OpenPool.start_eq_ok {config : PoolConfig} {disk : SpaceConfig} {v : Volume}
    {s : Space disk.bitmapFrames} (hconfig : config.validate = .ok ())
    (hmount : Space.mount disk v = .ok s) : OpenPool.start config disk v =
      .ok ⟨_, _, Pool.empty config.poolSize config.policy s, []⟩ := by
  rw [start, hmount]
  simp only [bind, Except.bind, Pool.create, hconfig]
  rfl

/-- A pool that was opened just now has no pages. -/
theorem OpenPool.of_start {config : PoolConfig} {disk : SpaceConfig} {v : Volume} {o : OpenPool}
    (h : start config disk v = .ok o) :
    ∃ space, o = ⟨_, disk.bitmapFrames, Pool.empty config.poolSize config.policy space, []⟩ := by
  obtain ⟨space, -, hcreate⟩ := of_bind_eq_ok h
  obtain ⟨pool, hpool, hopen⟩ := of_bind_eq_ok hcreate
  obtain ⟨-, -, hempty⟩ := of_bind_eq_ok hpool
  cases hempty
  cases hopen
  exact ⟨space, rfl⟩

/-- **A pool that is opened again** has the pages that it had. -/
theorem OpenPool.start_stop {o : OpenPool} (h : o.pool.Sound o.guards) {config : PoolConfig}
    {disk : SpaceConfig} (hconfig : config.validate = .ok ()) (hdisk : disk.validate = .ok ()) :
    ∃ o', OpenPool.start config disk o.stop = .ok o' ∧ o'.frames = config.poolSize ∧
      o'.guards = [] ∧ o'.pool.Sound o'.guards ∧ o'.pool.pages = o.pool.pages := by
  obtain ⟨h', hpages⟩ := h.release_all
  obtain ⟨hspace, hmem, hst⟩ := h'.close
  obtain ⟨s, hmount, hs, ha⟩ := hspace.mount_unmount hdisk
  obtain ⟨hempty, hcon⟩ := Pool.sound_empty hs config.poolSize config.policy
  refine ⟨_, start_eq_ok hconfig hmount, rfl, rfl, hempty, Eq.trans ?_ hpages⟩
  refine Pool.pages_congr (ha.members_eq.trans hmem) fun q hq => ?_
  rw [hcon, ha.stored_eq q (h'.isInRange_of_mem hq), hst q hq]

/-! ## One step -/

/-- The pool is sound, the guards show what they should, and the ledger is right about the
pages. -/
structure OpenPool.Reflects (o : OpenPool) (l : Ledger) : Prop where
  sound : o.pool.Sound o.guards
  held : o.guards.map o.pool.shown = l.held
  knows : o.pool.Knows o.guards l.known

namespace OpenPool.Reflects

variable {n m : Nat} {pool pool' : Pool n m} {gs : List (Guard n)} {l : Ledger} {o : OpenPool}

/-- A step without an effect on any page or guard. -/
theorem of_pages (h : Reflects ⟨n, m, pool, gs⟩ l) (h' : pool'.Sound gs)
    (hp : pool'.pages = pool.pages) : Reflects ⟨n, m, pool', gs⟩ l where
  sound := h'
  held := (Pool.map_shown_eq h.sound h' (fun _ hg => ⟨hg, hg⟩) fun _ _ => by rw [hp]).trans h.held
  knows := h.knows.of_subset hp fun _ => id

/-- A page that nobody holds goes away, or comes in place of none. -/
theorem of_others (h : Reflects ⟨n, m, pool, gs⟩ l) (h' : pool'.Sound gs) {p : PageId}
    (hp : ∀ g ∈ gs, g.page ≠ p) (hothers : ∀ q, q ≠ p → pool'.pages q = pool.pages q) :
    Reflects ⟨n, m, pool', gs⟩ { l with known := Function.update l.known p none } where
  sound := h'
  held := (Pool.map_shown_eq h.sound h' (fun _ hg => ⟨hg, hg⟩)
    fun g hg => hothers _ (hp g hg)).trans h.held
  knows := h.knows.update nofun hothers fun _ hg _ => hg

/-- A page that was deleted is not known any more. -/
theorem of_deleted (h : Reflects ⟨n, m, pool, gs⟩ l) (h' : pool'.Sound gs) {p : PageId}
    (hp : pool'.pages = Function.update pool.pages p none) :
    Reflects ⟨n, m, pool', gs⟩ { l with known := Function.update l.known p none } := by
  refine h.of_others h' (fun g hg hgp => ?_) fun q hq => by rw [hp, Function.update_of_ne hq]
  have := h'.pages_guard hg
  rw [hgp, hp, Function.update_self] at this
  cases this

theorem newPage (h : Reflects ⟨n, m, pool, gs⟩ l) :
    ∃ l', PoolCall.newPage.Expected l (PoolCall.newPage.run ⟨n, m, pool, gs⟩).1 l' ∧
      Reflects (PoolCall.newPage.run ⟨n, m, pool, gs⟩).2 l' := by
  have hs : pool.Sound gs := h.sound
  rcases hs.newPage_cases with ⟨⟨p, f, mode⟩, pool', hrun, rfl, hnone, h', hp⟩ |
    ⟨e, pool', hrun, h', hp, -⟩
  · rw [PoolCall.run, hrun]
    have hothers : ∀ q, q ≠ p → pool'.pages q = pool.pages q := fun q hq => by
      rw [hp, Function.update_of_ne hq]
    have hself : pool'.pages p = some (Block.zero pageSize) := by rw [hp, Function.update_self]
    have hne : ∀ g ∈ gs, g.page ≠ p := fun g hg hgp => by
      have := hs.pages_guard hg
      rw [hgp, hnone] at this
      cases this
    refine ⟨_, .inl ⟨p, rfl, rfl⟩, h', ?_, h.knows.update ?_ hothers fun g hg _ => .tail _ hg⟩
    · have hold := Pool.map_shown_eq hs h' (fun d hd => ⟨hd, .tail _ hd⟩)
        fun d hd => hothers _ (hne d hd)
      have hnew := (h'.pages_guard List.mem_cons_self).symm.trans hself
      change pool'.shown _ :: gs.map pool'.shown = _
      rw [hold, h.held, Pool.shown, Option.some.inj hnew]
    · rintro b ⟨⟩
      exact hself
  · rw [PoolCall.run, hrun]
    exact ⟨l, .inr ⟨_, rfl, rfl⟩, h.of_pages h' hp⟩

theorem fetch (h : Reflects ⟨n, m, pool, gs⟩ l) (mode : Mode) (p : PageId) :
    ∃ l', (PoolCall.fetch mode p).Expected l ((PoolCall.fetch mode p).run ⟨n, m, pool, gs⟩).1 l' ∧
      Reflects ((PoolCall.fetch mode p).run ⟨n, m, pool, gs⟩).2 l' := by
  have hs : pool.Sound gs := h.sound
  rcases hs.fetch_cases mode p with ⟨g, pool', hrun, rfl, rfl, h', hp⟩ |
    ⟨e, pool', hrun, h', hp, -⟩
  · rw [PoolCall.run, hrun]
    refine ⟨_, .inl ⟨pool'.bytes g, rfl, fun b hb => h.knows.eq_of_fetch h' hp hb, rfl⟩, h', ?_,
      h.knows.of_subset hp fun _ => List.mem_cons_of_mem _⟩
    have hold := Pool.map_shown_eq hs h' (fun d hd => ⟨hd, .tail _ hd⟩) fun _ _ => by rw [hp]
    change pool'.shown g :: gs.map pool'.shown = _
    rw [hold, h.held]
    rfl
  · rw [PoolCall.run, hrun]
    exact ⟨l, .inr ⟨_, rfl, rfl⟩, h.of_pages h' hp⟩

/-- The ledger has an entry for each guard. -/
theorem getElem?_held (h : Reflects ⟨n, m, pool, gs⟩ l) (i : Nat) :
    l.held[i]? = gs[i]?.map pool.shown := by
  rw [← h.held, List.getElem?_map]

/-- The order of the guards does not matter, so any guard can come first. -/
theorem guard_first {i : Nat} {g : Guard n} (hi : gs[i]? = some g) :
    gs.Perm (g :: gs.eraseIdx i) := by
  obtain ⟨hlt, rfl⟩ := List.getElem?_eq_some_iff.1 hi
  exact (List.getElem_cons_eraseIdx_perm hlt).symm

theorem edit (h : Reflects ⟨n, m, pool, gs⟩ l) (i : Nat) (change : Page → Except Halt Page) :
    ∃ l', (PoolCall.edit i change).Expected l
        ((PoolCall.edit i change).run ⟨n, m, pool, gs⟩).1 l' ∧
      Reflects ((PoolCall.edit i change).run ⟨n, m, pool, gs⟩).2 l' := by
  have hs : pool.Sound gs := h.sound
  have hheld := h.getElem?_held i
  rcases hi : gs[i]? with _ | ⟨p, f, mode⟩
  · rw [hi] at hheld
    simp only [PoolCall.run, PoolCall.Expected, hi, hheld, Option.map_none]
    exact ⟨l, ⟨trivial, rfl⟩, h⟩
  rw [hi] at hheld
  rcases mode with _ | _
  · simp only [PoolCall.run, PoolCall.Expected, hi, hheld, Option.map_some, Pool.shown]
    exact ⟨l, ⟨trivial, rfl⟩, h⟩
  let g : Guard n := ⟨p, f, .write⟩
  have hg : g ∈ gs := List.mem_of_getElem? hi
  rcases hc : change (pool.bytes g) with e | data
  · obtain ⟨pool', hrun, h', hp⟩ := hs.edit_eq_error hg rfl hc
    simp only [PoolCall.run, PoolCall.Expected, hi, hheld, Option.map_some, Pool.shown, hc, hrun, g]
    exact ⟨l, ⟨rfl, rfl⟩, h.of_pages h' hp⟩
  · obtain ⟨pool', hrun, h', hp⟩ := hs.edit_eq_ok hg rfl _ hc
    simp only [PoolCall.run, PoolCall.Expected, hi, hheld, Option.map_some, Pool.shown, hc, hrun, g,
      PoolReply.ofResult]
    refine ⟨_, ⟨trivial, rfl⟩, h', ?_, ?_⟩
    · refine List.ext_getElem? fun j => ?_
      have hj := h.getElem?_held j
      rw [List.getElem?_map, List.getElem?_set, hj]
      by_cases hij : i = j
      · obtain ⟨hlt, -⟩ := List.getElem?_eq_some_iff.1 hheld
        have hnew := h'.pages_guard hg
        rw [hp, Function.update_self] at hnew
        rw [if_pos hij, if_pos hlt, ← hij, hi, Option.map_some, Pool.shown, ← Option.some.inj hnew]
      · rw [if_neg hij]
        rcases hd : gs[j]? with _ | d
        · rfl
        · -- every other guard is on another page
          have hmem : d ∈ gs.eraseIdx i :=
            List.mem_eraseIdx_iff_getElem?.2 ⟨j, Ne.symm hij, hd⟩
          have hne := (hs.perm (guard_first hi)).page_ne_of_write hmem (.inl rfl)
          have hd' := List.mem_of_getElem? hd
          refine congrArg some (Pool.shown_eq hs h' hd' hd' ?_)
          rw [hp, Function.update_of_ne hne]
    · intro q b hb
      obtain ⟨page, hpage, hread⟩ := h.knows q b hb
      by_cases hq : q = p
      · rw [hp, hq, Function.update_self]
        exact ⟨data, rfl, fun hall => absurd (hall g hg rfl) nofun⟩
      · rw [hp, Function.update_of_ne hq]
        exact ⟨page, hpage, hread⟩

theorem drop (h : Reflects ⟨n, m, pool, gs⟩ l) (i : Nat) :
    ∃ l', (PoolCall.drop i).Expected l ((PoolCall.drop i).run ⟨n, m, pool, gs⟩).1 l' ∧
      Reflects ((PoolCall.drop i).run ⟨n, m, pool, gs⟩).2 l' := by
  have hheld := h.getElem?_held i
  rcases hi : gs[i]? with _ | g
  · rw [hi] at hheld
    simp only [PoolCall.run, PoolCall.Expected, hi, hheld, Option.map_none]
    exact ⟨l, ⟨trivial, rfl⟩, h⟩
  rw [hi] at hheld
  simp only [PoolCall.run, PoolCall.Expected, hi, hheld, Option.map_some]
  have hfirst := guard_first hi
  have hs := h.sound.perm hfirst
  obtain ⟨h', hp⟩ := hs.release
  refine ⟨_, ⟨trivial, rfl⟩, h', ?_, (h.knows.of_subset rfl fun _ => hfirst.mem_iff.1).release hs⟩
  have hsame := Pool.map_shown_eq hs h' (fun d hd => ⟨.tail _ hd, hd⟩) fun _ _ => by rw [hp]
  rw [hsame, ← h.held, List.eraseIdx_map]

theorem delete (h : Reflects ⟨n, m, pool, gs⟩ l) (p : PageId) :
    ∃ l', (PoolCall.delete p).Expected l ((PoolCall.delete p).run ⟨n, m, pool, gs⟩).1 l' ∧
      Reflects ((PoolCall.delete p).run ⟨n, m, pool, gs⟩).2 l' := by
  have hs : pool.Sound gs := h.sound
  rcases hs.delete_cases p with ⟨pool', hrun, h', hp⟩ | ⟨pool', hrun, h', hp, -⟩ |
    ⟨e, pool', hrun, h', hp, -⟩
  · rw [PoolCall.run, hrun]
    exact ⟨_, .inl ⟨rfl, rfl⟩, h.of_deleted h' hp⟩
  · rw [PoolCall.run, hrun]
    exact ⟨l, .inr ⟨nofun, rfl⟩, h.of_pages h' hp⟩
  · rw [PoolCall.run, hrun]
    exact ⟨l, .inr ⟨nofun, rfl⟩, h.of_pages h' hp⟩

theorem deallocate (h : Reflects ⟨n, m, pool, gs⟩ l) (p : PageId) :
    ∃ l', (PoolCall.deallocate p).Expected l
        ((PoolCall.deallocate p).run ⟨n, m, pool, gs⟩).1 l' ∧
      Reflects ((PoolCall.deallocate p).run ⟨n, m, pool, gs⟩).2 l' := by
  have hs : pool.Sound gs := h.sound
  rcases hs.delete_cases p with ⟨pool', hrun, h', hp⟩ | ⟨pool', hrun, h', hp, -⟩ |
    ⟨e, pool', hrun, h', hp, -⟩
  · rw [PoolCall.run, Pool.Sound.deallocate_of_true hrun]
    exact ⟨_, .inl ⟨rfl, rfl⟩, h.of_deleted h' hp⟩
  · rw [PoolCall.run, Pool.Sound.deallocate_of_false hrun]
    exact ⟨l, .inr ⟨_, rfl, rfl⟩, h.of_pages h' hp⟩
  · rw [PoolCall.run, Pool.Sound.deallocate_of_error hrun]
    exact ⟨l, .inr ⟨_, rfl, rfl⟩, h.of_pages h' hp⟩

theorem allocate (h : Reflects ⟨n, m, pool, gs⟩ l) :
    Reflects (PoolCall.allocate.run ⟨n, m, pool, gs⟩).2 l := by
  have hs : pool.Sound gs := h.sound
  rcases hs.space.allocate_cases with ⟨hrun, -⟩ | ⟨p, s, hrun, hs', -, hnot, -, hmem, hst, -⟩
  · rw [PoolCall.run, Pool.onSpace_error hrun]
    exact h
  · rw [PoolCall.run, Pool.onSpace_ok hrun]
    obtain ⟨h', hothers⟩ := hs.space_allocated hs' hmem hst
    have hnone : pool.pages p = none := Pool.pages_eq_none_iff.2 hnot
    have hunknown : l.known p = none := by
      rcases hk : l.known p with _ | b
      · rfl
      · obtain ⟨page, hpage, -⟩ := h.knows p b hk
        rw [hnone] at hpage
        cases hpage
    have hl : l = { l with known := Function.update l.known p none } := by
      rw [Function.update_eq_self_iff.2 hunknown.symm]
    rw [hl]
    refine h.of_others h' (fun g hg hgp => ?_) hothers
    have := hs.pages_guard hg
    rw [hgp, hnone] at this
    cases this

theorem reopen (h : Reflects o l) (config : PoolConfig) (disk : SpaceConfig)
    (accepted : config.validate = .ok () ∧ disk.validate = .ok ()) :
    ∃ l', (PoolCall.reopen config disk accepted).Expected l
        ((PoolCall.reopen config disk accepted).run o).1 l' ∧
      Reflects ((PoolCall.reopen config disk accepted).run o).2 l' := by
  obtain ⟨o', hstart, -, hguards, hs, hpages⟩ := OpenPool.start_stop h.sound accepted.1 accepted.2
  have hknown := h.knows.release_all h.sound
  obtain ⟨-, hreleased⟩ := h.sound.release_all
  simp only [PoolCall.run, PoolCall.Expected, hstart]
  refine ⟨_, ⟨trivial, rfl⟩, hs, congrArg (List.map o'.pool.shown) hguards, fun q b hb => ?_⟩
  rw [← h.held] at hb
  obtain ⟨page, hpage, hread⟩ := hknown q b hb
  rw [hreleased, ← hpages] at hpage
  exact ⟨page, hpage, fun _ => hread nofun⟩

/-- **One call.** It is answered as expected, and the ledger expected after it is right. -/
theorem step (h : o.Reflects l) (call : PoolCall) :
    ∃ l', call.Expected l (call.run o).1 l' ∧ (call.run o).2.Reflects l' := by
  obtain ⟨n, m, pool, gs⟩ := o
  have hs : pool.Sound gs := h.sound
  cases call with
  | newPage => exact h.newPage
  | fetch mode p => exact h.fetch mode p
  | edit i change => exact h.edit i change
  | drop i => exact h.drop i
  | flush p =>
    refine ⟨l, rfl, ?_⟩
    rcases hs.flush_keeps p with ⟨b, pool', hrun, h', hp⟩ | ⟨e, hrun⟩
    · rw [PoolCall.run, hrun]
      exact h.of_pages h' hp
    · rw [PoolCall.run, hrun]
      exact h
  | flushAll =>
    obtain ⟨pool', hrun, h', hflushed⟩ := hs.flushAll_eq_ok
    refine ⟨l, rfl, ?_⟩
    rw [PoolCall.run, hrun]
    exact h.of_pages h' hflushed.pages_eq
  | delete p => exact h.delete p
  | allocate => exact ⟨l, rfl, h.allocate⟩
  | deallocate p => exact h.deallocate p
  | reopen config disk accepted => exact h.reopen config disk accepted

/-- A pool that a ledger is right about is explained by it, whatever calls follow. -/
theorem explained (calls : List PoolCall) (h : o.Reflects l) : o.Explained l calls := by
  induction calls generalizing o l with
  | nil => exact h.held
  | cons call calls ih =>
    obtain ⟨l', hexpected, hnext⟩ := h.step call
    exact ⟨h.held, l', hexpected, ih hnext⟩

end OpenPool.Reflects

/-- The pool after calls of any kind. -/
def OpenPool.after (o : OpenPool) : List PoolCall → OpenPool
  | [] => o
  | call :: calls => (call.run o).2.after calls

/-- Calls that follow are made on what the calls before them left. -/
theorem OpenPool.after_append (o : OpenPool) (calls later : List PoolCall) :
    o.after (calls ++ later) = (o.after calls).after later := by
  induction calls generalizing o with
  | nil => rfl
  | cons first calls ih => exact ih (first.run o).2

/-- The last call is made on what the calls before it left. -/
theorem OpenPool.after_concat (o : OpenPool) (calls : List PoolCall) (call : PoolCall) :
    o.after (calls ++ [call]) = (call.run (o.after calls)).2 :=
  o.after_append calls [call]

theorem OpenPool.after_newPage {o : OpenPool} {g : Guard o.frames} {pool : Pool o.frames o.slots}
    (hnew : Pool.newPage o.pool = .ok g pool) (calls : List PoolCall) :
    o.after (.newPage :: calls) =
      OpenPool.after ⟨o.frames, o.slots, pool, g :: o.guards⟩ calls := by
  have hrun : PoolCall.newPage.run o =
      (.ok (.page g.page), ⟨o.frames, o.slots, pool, g :: o.guards⟩) := by
    change PoolReply.ofGuard o.guards (Pool.newPage o.pool) = _
    rw [hnew]
    rfl
  rw [OpenPool.after, hrun]

theorem OpenPool.after_fetch {o : OpenPool} {mode : Mode} {p : PageId} {g : Guard o.frames}
    {pool : Pool o.frames o.slots} (hfetch : Pool.fetch mode p o.pool = .ok g pool)
    (calls : List PoolCall) :
    o.after (.fetch mode p :: calls) =
      OpenPool.after ⟨o.frames, o.slots, pool, g :: o.guards⟩ calls := by
  have hrun : (PoolCall.fetch mode p).run o =
      (.ok (.page g.page), ⟨o.frames, o.slots, pool, g :: o.guards⟩) := by
    change PoolReply.ofGuard o.guards (Pool.fetch mode p o.pool) = _
    rw [hfetch]
    rfl
  rw [OpenPool.after, hrun]

theorem OpenPool.sound_after {o : OpenPool} {l : Ledger} (h : o.Reflects l)
    (calls : List PoolCall) : (o.after calls).pool.Sound (o.after calls).guards := by
  induction calls generalizing o l with
  | nil => exact h.sound
  | cons call calls ih =>
    obtain ⟨l', -, h'⟩ := h.step call
    exact ih h'

/-- A pool can be opened on a new file, and has no pages then. -/
theorem OpenPool.start_fresh {config : PoolConfig} {disk : SpaceConfig}
    (hconfig : config.validate = .ok ()) (hdisk : disk.validate = .ok ()) {v : Volume}
    (hv : v.openFile = .ok {}) :
    ∃ o, OpenPool.start config disk v = .ok o ∧ o.frames = config.poolSize ∧
      o.Reflects ⟨fun _ => none, []⟩ := by
  obtain ⟨s, hmount, hs, -, -⟩ := Space.Sound.mount_fresh hdisk hv
  obtain ⟨hempty, -⟩ := Pool.sound_empty hs config.poolSize config.policy
  exact ⟨_, start_eq_ok hconfig hmount, rfl, hempty, rfl, nofun⟩

/-- No page of a new file is allocated. -/
theorem OpenPool.members_fresh {config : PoolConfig} {disk : SpaceConfig}
    (hconfig : config.validate = .ok ()) (hdisk : disk.validate = .ok ()) {v : Volume}
    (hv : v.openFile = .ok {}) {o : OpenPool} (ho : OpenPool.start config disk v = .ok o) :
    o.pool.members = ∅ := by
  obtain ⟨s, hmount, -, hmembers, -⟩ := Space.Sound.mount_fresh hdisk hv
  rw [start_eq_ok hconfig hmount] at ho
  cases ho
  exact hmembers

/-- **A pool keeps what was written.** On a new file, whatever settings the pool and the space are
opened with, every run of calls is explained by the ledger, which is empty at first: a page that is
fetched shows the bytes that its last writer left, or zeros since it was created, and a guard shows
the bytes of its page for as long as it is out. -/
theorem Pool.refines_ledger {config : PoolConfig} {disk : SpaceConfig}
    (hconfig : config.validate = .ok ()) (hdisk : disk.validate = .ok ()) {v : Volume}
    (hv : v.openFile = .ok {}) (calls : List PoolCall) :
    ∃ o, OpenPool.start config disk v = .ok o ∧ o.Explained ⟨fun _ => none, []⟩ calls := by
  obtain ⟨o, hstart, -, h⟩ := OpenPool.start_fresh hconfig hdisk hv
  exact ⟨o, hstart, h.explained calls⟩

/-- A pool with one frame, in which a page is created and then found again. -/
theorem Pool.refines_ledger_one :
    ∃ o, OpenPool.start ⟨1, .lru⟩ ⟨1⟩ .missing = .ok o ∧
      o.Explained ⟨fun _ => none, []⟩ [.newPage, .drop 0, .fetch .read ⟨0⟩] :=
  @Pool.refines_ledger ⟨1, .lru⟩ ⟨1⟩ rfl rfl .missing rfl _

end PageStore
