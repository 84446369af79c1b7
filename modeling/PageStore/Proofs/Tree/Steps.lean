import PageStore.Proofs.Pool.Fetch
import PageStore.Proofs.Pool.Upkeep
import PageStore.Proofs.Tree.Stored

/-!
# Steps of a tree on its pages

What a tree does with one page: look at it, change it, free it, or take a new one. A sound pool is
a map of pages here, and nothing is left of frames but the room that a step needs: `Room gs k` says
that the guards `gs` leave `k` frames to others.

An action `Ends` with a value, or it stops. Given room, only taking a new page can be refused, and
only when the disk is full (`FullDisk`); an action that takes none always returns (`Crowded`).
-/

namespace PageStore

variable {n m : Nat}

namespace Pool

/-! ## Room -/

/-- At least `k` frames are held by none of the guards. -/
def Room (gs : List (Guard n)) (k : Nat) : Prop := (gs.map Guard.frame).toFinset.card + k ≤ n

variable {gs : List (Guard n)} {g : Guard n} {k : Nat}

theorem Room.mono {k' : Nat} (h : Room gs k) (hk : k' ≤ k) : Room gs k' :=
  Nat.le_trans (Nat.add_le_add_left hk _) h

/-- One more guard takes one frame at most. -/
theorem Room.cons (h : Room gs (k + 1)) (g : Guard n) : Room (g :: gs) k := by
  have hcard : ((g :: gs).map Guard.frame).toFinset.card ≤
      (gs.map Guard.frame).toFinset.card + 1 := by
    rw [List.map_cons, List.toFinset_cons]
    exact Finset.card_insert_le ..
  unfold Room at h ⊢
  omega

theorem Room.not_full (h : Room gs (k + 1)) : ¬Full gs := by
  intro hfull
  have huniv : (gs.map Guard.frame).toFinset = Finset.univ := Finset.eq_univ_of_forall fun f => by
    obtain ⟨g, hg, rfl⟩ := hfull f
    exact List.mem_toFinset.2 (List.mem_map_of_mem hg)
  unfold Room at h
  rw [huniv, Finset.card_univ, Fintype.card_fin] at h
  omega

/-- There is always room for nothing more. -/
theorem Room.zero (gs : List (Guard n)) : Room gs 0 := by
  rw [Room, Nat.add_zero]
  exact (Finset.card_le_univ _).trans_eq (Fintype.card_fin n)

/-- A guard on a page of its own has a frame of its own. -/
theorem Sound.room_of_apart {pool : Pool n m} (h : pool.Sound (g :: gs))
    (hapart : ∀ g' ∈ gs, g'.page ≠ g.page) (hroom : Room (g :: gs) k) : Room gs (k + 1) := by
  have hout : g.frame ∉ (gs.map Guard.frame).toFinset := fun hin => by
    obtain ⟨g', hg', hframe⟩ := List.mem_map.1 (List.mem_toFinset.1 hin)
    refine hapart g' hg' ?_
    rw [← (h.guard g' (.tail _ hg')).2, hframe, (h.guard g List.mem_cons_self).2]
  unfold Room at hroom ⊢
  rw [List.map_cons, List.toFinset_cons, Finset.card_insert_of_notMem hout] at hroom
  omega

/-- The frame of a guard to write is its own. -/
theorem Sound.room_of_write {pool : Pool n m} (h : pool.Sound (g :: gs)) (hw : g.mode = .write)
    (hroom : Room (g :: gs) k) : Room gs (k + 1) :=
  h.room_of_apart (fun _ hd => h.page_ne_of_write hd (.inl hw)) hroom

/-! ## Ways out -/

end Pool

/-- **How an action ends**: with a value and a state as `Q` says, or it stops as `stop` says. -/
def Ends {σ α : Type} (stop : Halt → σ → Prop) (Q : α → σ → Prop) : EStateM.Result Halt σ α → Prop
  | .ok a s => Q a s
  | .error e s => stop e s

namespace Ends

variable {σ α β : Type} {stop stop' : Halt → σ → Prop} {Q Q' : α → σ → Prop} {R : β → σ → Prop}

theorem imp {r : EStateM.Result Halt σ α} (h : Ends stop Q r) (hstop : ∀ e s, stop e s → stop' e s)
    (hQ : ∀ a s, Q a s → Q' a s) : Ends stop' Q' r := by
  cases r with
  | ok a s => exact hQ a s h
  | error e s => exact hstop e s h

theorem mono {r : EStateM.Result Halt σ α} (h : Ends stop Q r) (hQ : ∀ a s, Q a s → Q' a s) :
    Ends stop Q' r := h.imp (fun _ _ => id) hQ

theorem of_eq_ok {act : Action σ α} {s s' : σ} {a : α} (h : act s = .ok a s') (hQ : Q a s') :
    Ends stop Q (act s) := by
  rw [h]
  exact hQ

theorem of_eq_error {act : Action σ α} {s s' : σ} {e : Halt} (h : act s = .error e s')
    (hs : stop e s') :
    Ends stop Q (act s) := by
  rw [h]
  exact hs

/-- What nothing stops returns. -/
theorem exists_ok {r : EStateM.Result Halt σ α} (h : Ends stop Q r) (hstop : ∀ e s, ¬stop e s) :
    ∃ a s, r = .ok a s ∧ Q a s := by
  cases r with
  | ok a s => exact ⟨a, s, rfl, h⟩
  | error e s => exact absurd h (hstop e s)

/-- **Sequencing.** -/
theorem bind {act : Action σ α} {next : α → Action σ β} {s : σ} (h : Ends stop Q (act s))
    (hnext : ∀ a s', Q a s' → Ends stop R (next a s')) : Ends stop R ((act >>= next) s) := by
  cases hr : act s with
  | ok a s' =>
    rw [hr] at h
    rw [Action.bind_of_ok hr]
    exact hnext a s' h
  | error e s' =>
    rw [hr] at h
    rw [Action.bind_of_error hr]
    exact h

end Ends

namespace Pool

variable {gs : List (Guard n)} {g : Guard n} {k : Nat} {α β : Type} {pool : Pool n m}
  {Q : α → Pool n m → Prop} {R : β → Pool n m → Prop}

/-- Given room for `k` guards more, an action stops only because every page of the disk is
allocated. -/
def FullDisk (gs : List (Guard n)) (k : Nat) (e : Halt) (pool : Pool n m) : Prop :=
  Room gs k → e = .refused .diskFull ∧ pool.Sound gs ∧ pool.members = Finset.range maxLogicalPages

/-- Given room for `k` guards more, nothing stops an action. -/
def Crowded (gs : List (Guard n)) (k : Nat) (_ : Halt) (_ : Pool n m) : Prop := ¬Room gs k

theorem FullDisk.mono {k' : Nat} {e : Halt} (h : FullDisk gs k e pool) (hk : k ≤ k') :
    FullDisk gs k' e pool := fun hroom => h (hroom.mono hk)

theorem Crowded.fullDisk {k' : Nat} {e : Halt} (h : Crowded gs k e pool) (hk : k ≤ k') :
    FullDisk gs k' e pool := fun hroom => absurd (hroom.mono hk) h

/-- What is known of an action given room is known of it anyway when it takes the room to return. -/
theorem ends_of_room {r : EStateM.Result Halt (Pool n m) α}
    (h : Room gs k → Ends (Crowded gs k) Q r)
    (hroom : ∀ a pool, r = .ok a pool → Room gs k) : Ends (Crowded gs k) Q r := by
  cases r with
  | ok a pool => exact h (hroom a pool rfl)
  | error e pool => exact fun hk => h hk hk

/-- An action under a guard gives the guard back on either way out. -/
theorem holding_ends {R : α → PageMap → Prop} {act : Action (Pool n m) α}
    (h : Ends (FullDisk (g :: gs) k) (fun a pool' => pool'.Sound (g :: gs) ∧ R a pool'.pages)
      (act pool)) :
    Ends (FullDisk gs (k + 1)) (fun a pool' => pool'.Sound gs ∧ R a pool'.pages)
      (holding g act pool) := by
  cases hr : act pool with
  | ok a pool' =>
    rw [hr] at h
    obtain ⟨hs, hpages⟩ := Sound.release h.1
    rw [Pool.holding, Action.atEnd_ok hr]
    exact ⟨hs, by rw [hpages]; exact h.2⟩
  | error e pool' =>
    rw [hr] at h
    rw [Pool.holding, Action.atEnd_error hr]
    intro hroom
    obtain ⟨he, hsound, hfull⟩ := h (hroom.cons g)
    obtain ⟨hs, hpages⟩ := Sound.release hsound
    exact ⟨he, hs, (members_eq_of_pages hsound.space hs.space hpages).trans hfull⟩

/-- An action that returns under a guard gives the guard back. -/
theorem holding_eq_ok {act : Action (Pool n m) α} {a : α} {P : PageMap}
    (h : ∃ pool', act pool = .ok a pool' ∧ pool'.Sound (g :: gs) ∧ pool'.pages = P) :
    ∃ pool', holding g act pool = .ok a pool' ∧ pool'.Sound gs ∧ pool'.pages = P := by
  obtain ⟨pool', hrun, hs, rfl⟩ := h
  obtain ⟨hs', hpages⟩ := hs.release
  exact ⟨_, Action.atEnd_ok hrun, hs', hpages⟩

/-- An action that stops under a guard gives the guard back. -/
theorem holding_eq_error {act : Action (Pool n m) α} {e : Halt} {P : PageMap}
    (h : ∃ pool', act pool = .error e pool' ∧ pool'.Sound (g :: gs) ∧ pool'.pages = P) :
    ∃ pool', holding g act pool = .error e pool' ∧ pool'.Sound gs ∧ pool'.pages = P := by
  obtain ⟨pool', hrun, hs, rfl⟩ := h
  obtain ⟨hs', hpages⟩ := hs.release
  exact ⟨_, Action.atEnd_error hrun, hs', hpages⟩

/-- What returned under a guard gave the guard back. -/
theorem of_holding {act : Action (Pool n m) α} {a : α} {pool' : Pool n m}
    (hrun : holding g act pool = .ok a pool') :
    ∃ pool₁, act pool = .ok a pool₁ ∧ pool' = pool₁.release g := by
  cases hact : act pool with
  | ok b pool₁ =>
    rw [holding, Action.atEnd_ok hact] at hrun
    cases hrun
    exact ⟨pool₁, rfl, rfl⟩
  | error e pool₁ =>
    rw [holding, Action.atEnd_error hact] at hrun
    cases hrun

/-- A look at a guarded page gives the guard back. -/
theorem inspect_eq_ok (look : Page → Except Halt α) {a : α} (hlook : look (pool.bytes g) = .ok a)
    (h : pool.Sound (g :: gs)) :
    ∃ pool', inspect g look pool = .ok a pool' ∧ pool'.Sound gs ∧ pool'.pages = pool.pages := by
  refine holding_eq_ok ⟨pool, ?_, h, rfl⟩
  rw [Action.get_bind]
  exact Action.liftM_ok hlook _

end Pool

/-! ## Pages of a tree -/

namespace Tree

open Pool

variable {α : Type} {pool : Pool n m} {gs : List (Guard n)} {g : Guard n} {p : PageId} {page : Page}

/-- An allocated page that no guard is out on is fetched, when there is a frame for it. -/
theorem fetch_eq_ok (h : pool.Sound gs) (hp : pool.pages p = some page)
    (hfree : ∀ g ∈ gs, g.page ≠ p) (hroom : Room gs 1) (mode : Mode) :
    ∃ g pool', fetch mode p pool = .ok g pool' ∧ g.page = p ∧ g.mode = mode ∧
      pool'.Sound (g :: gs) ∧ pool'.pages = pool.pages ∧ pool'.bytes g = page := by
  obtain ⟨g, pool', hrun, hgp, hgm, hs, hpages⟩ := h.fetch_eq_ok mode
    (by rw [hp]; exact Option.some_ne_none page) hfree hroom.not_full
  refine ⟨g, pool', ?_, hgp, hgm, hs, hpages, ?_⟩
  · rw [fetch, hrun]
  · have hbytes := hs.pages_guard List.mem_cons_self
    rw [hgp, hpages, hp] at hbytes
    exact (Option.some.inj hbytes).symm

/-- A page that the pool refuses is refused to a tree, for a cause that may be another. -/
theorem exists_fetch_eq_error {mode : Mode} {e : Halt} {pool' : Pool n m}
    (hrun : Pool.fetch mode p pool = .error e pool') :
    ∃ e', fetch mode p pool = .error e' pool' := by
  rw [fetch, hrun]
  cases e <;> exact ⟨_, rfl⟩

/-- A page that was fetched is under the guard. -/
theorem of_fetch {mode : Mode} (hs : pool.Sound gs)
    (hrun : Tree.fetch mode p pool = .ok g pool') :
    g.page = p ∧ g.mode = mode ∧ pool'.Sound (g :: gs) ∧ pool'.pages = pool.pages := by
  rw [Tree.fetch] at hrun
  cases hfetch : Pool.fetch mode p pool with
  | ok g' pool₁ =>
    rw [hfetch] at hrun
    cases hrun
    exact hs.of_fetch hfetch
  | error e pool₁ =>
    rw [hfetch] at hrun
    cases e <;> cases hrun

/-- **Without room** nothing begins that fetches an allocated page of its own. -/
theorem fetch_bind_eq_error {next : Guard n → Action (Pool n m) α} (h : pool.Sound gs)
    (hp : pool.pages p ≠ none) (hfree : ∀ g ∈ gs, g.page ≠ p) (hroom : ¬Room gs 1) (mode : Mode) :
    ∃ pool', (fetch mode p >>= next) pool = .error (.refused .poolFull) pool' ∧ pool'.Sound gs ∧
      pool'.pages = pool.pages := by
  rcases h.fetch_cases mode p with ⟨g, pool', -, rfl, -, hs, -⟩ |
    ⟨e, pool', hrun, hs, hpages, ⟨-, -, g, hg, hgp⟩ | ⟨cause, rfl, ⟨-, hnone⟩ | ⟨rfl, -⟩⟩⟩
  · exact absurd (hs.room_of_apart hfree (.zero _)) hroom
  · exact absurd hgp (hfree g hg)
  · exact absurd hnone hp
  · have hfetch : fetch mode p pool = .error (.refused .poolFull) pool' := by
      rw [fetch, hrun]
      rfl
    exact ⟨pool', Action.bind_of_error hfetch, hs, hpages⟩

/-- Looking at a page. -/
theorem view_eq_ok {look : Page → Except Halt α} {a : α} (h : pool.Sound gs)
    (hp : pool.pages p = some page) (hlook : look page = .ok a) (hfree : ∀ g ∈ gs, g.page ≠ p)
    (hroom : Room gs 1) :
    ∃ pool', view p look pool = .ok a pool' ∧ pool'.Sound gs ∧ pool'.pages = pool.pages := by
  obtain ⟨g, pool₁, hfetch, -, -, h₁, hpages₁, hbytes⟩ := fetch_eq_ok h hp hfree hroom .read
  obtain ⟨pool₂, hinspect, h₂, hpages₂⟩ := inspect_eq_ok look (hbytes ▸ hlook) h₁
  refine ⟨pool₂, ?_, h₂, hpages₂.trans hpages₁⟩
  rw [view, Action.bind_of_ok hfetch]
  exact hinspect

/-- Looking at a page in which something is wrong. -/
theorem view_eq_error {look : Page → Except Halt α} {e : Halt} (h : pool.Sound gs)
    (hp : pool.pages p = some page) (hlook : look page = .error e) (hfree : ∀ g ∈ gs, g.page ≠ p)
    (hroom : Room gs 1) : ∃ pool', view p look pool = .error e pool' := by
  obtain ⟨g, pool₁, hfetch, -, -, -, -, hbytes⟩ := fetch_eq_ok h hp hfree hroom .read
  exact ⟨_, (Action.bind_of_ok hfetch).trans (inspect_eq_error (hbytes ▸ hlook))⟩

/-- Looking at a page under a guard. -/
theorem peek_eq_ok (look : Page → Except Halt α) {a : α} (hlook : look (pool.bytes g) = .ok a) :
    peek g look pool = .ok a pool := by
  refine Action.onHalt_ok ?_
  rw [Action.get_bind]
  exact Action.liftM_ok hlook _

end Tree

namespace Pool

variable {pool : Pool n m} {gs : List (Guard n)} {g : Guard n}

/-- The bytes under a guard are those of its page. -/
theorem Sound.bytes_of_pages {g : Guard n} {page : Page} (hs : pool.Sound gs) (hg : g ∈ gs)
    (hp : pool.pages g.page = some page) : pool.bytes g = page := by
  rw [hs.pages_guard hg] at hp
  exact Option.some.inj hp

/-- Other bytes for a page under a write guard. -/
theorem Sound.put (h : pool.Sound gs) (hg : g ∈ gs) (hw : g.mode = .write) (data : Page) :
    (pool.put g data).Sound gs ∧
      (pool.put g data).pages = Function.update pool.pages g.page (some data) := by
  obtain ⟨pool', hrun, hs, hpages⟩ := h.edit_eq_ok hg hw (fun _ => .ok data) rfl
  have hput : pool' = pool.put g data := by
    have : edit g (fun _ => .ok data) pool = .ok () (pool.put g data) := rfl
    rw [this] at hrun
    cases hrun
    rfl
  exact hput ▸ ⟨hs, hpages⟩

/-- A page that nobody holds is looked at. -/
theorem Sound.view_eq_ok {α : Type} {p : PageId} {page : Page} {look : Page → Except Halt α} {a : α}
    (h : pool.Sound gs) (hp : pool.pages p = some page) (hlook : look page = .ok a)
    (hfree : ∀ g ∈ gs, g.page ≠ p) (hroom : Room gs 1) :
    ∃ pool', view p look pool = .ok a pool' ∧ pool'.Sound gs ∧ pool'.pages = pool.pages := by
  obtain ⟨g, pool₁, hfetch, rfl, -, h₁, hpages₁⟩ :=
    h.fetch_eq_ok .read (hp ▸ nofun) hfree hroom.not_full
  have hbytes := h₁.bytes_of_pages List.mem_cons_self (hpages₁ ▸ hp)
  obtain ⟨pool', hrun, hs, hpages⟩ := inspect_eq_ok look (hbytes ▸ hlook) h₁
  exact ⟨pool', (Action.bind_of_ok hfetch).trans hrun, hs, hpages.trans hpages₁⟩

/-- A page that nobody holds is changed. -/
theorem Sound.update_eq_ok {p : PageId} {page page' : Page} {change : Page → Except Halt Page}
    (h : pool.Sound gs) (hp : pool.pages p = some page) (hchange : change page = .ok page')
    (hfree : ∀ g ∈ gs, g.page ≠ p) (hroom : Room gs 1) :
    ∃ pool', update p change pool = .ok () pool' ∧ pool'.Sound gs ∧
      pool'.pages = Function.update pool.pages p (some page') := by
  obtain ⟨g, pool₁, hfetch, rfl, hmode, h₁, hpages₁⟩ :=
    h.fetch_eq_ok .write (hp ▸ nofun) hfree hroom.not_full
  have hbytes := h₁.bytes_of_pages List.mem_cons_self (hpages₁ ▸ hp)
  obtain ⟨pool₂, hedit, h₂, hpages₂⟩ :=
    h₁.edit_eq_ok List.mem_cons_self hmode change (hbytes ▸ hchange)
  rw [update, Action.bind_of_ok hfetch]
  exact holding_eq_ok ⟨pool₂, hedit, h₂, by rw [hpages₂, hpages₁]⟩

/-- A disk that is not full has a new page. -/
theorem Sound.newPage_eq_ok (h : pool.Sound gs)
    (hdisk : pool.members ≠ Finset.range maxLogicalPages) (hroom : Room gs 1) :
    ∃ g pool', newPage pool = .ok g pool' ∧ g.mode = .write ∧ pool.pages g.page = none ∧
      pool'.Sound (g :: gs) ∧
      pool'.pages = Function.update pool.pages g.page (some (Block.zero pageSize)) := by
  rcases h.newPage_cases with hnew | ⟨e, pool', -, -, -, ⟨-, hall⟩ | ⟨-, hfull⟩⟩
  · exact hnew
  · exact absurd hall hdisk
  · exact absurd hfull hroom.not_full

/-- A page that was new has a guard of its own, and the disk was not full. -/
theorem Sound.of_newPage {pool' : Pool n m} (hs : pool.Sound gs)
    (hrun : newPage pool = .ok g pool') :
    pool.members ≠ Finset.range maxLogicalPages ∧ Room gs 1 := by
  rcases hs.newPage_cases with ⟨g', pool₁, hnew, hmode, hnone, hs₁, hpages⟩ | ⟨e, pool₁, herror, -⟩
  · rw [hnew] at hrun
    cases hrun
    refine ⟨fun hfull => pages_eq_none_iff.1 hnone ?_, hs₁.room_of_write hmode (.zero _)⟩
    rw [hfull]
    exact Finset.mem_range.2 (hs₁.space.lt_of_mem (hs₁.mem_of_guard List.mem_cons_self))
  · rw [herror] at hrun
    cases hrun

/-- Without a frame there is no new page. -/
theorem Sound.newPage_eq_poolFull (hs : pool.Sound gs)
    (hdisk : pool.members ≠ Finset.range maxLogicalPages) (hroom : ¬Room gs 1) :
    ∃ pool', newPage pool = .error (.refused .poolFull) pool' ∧ pool'.Sound gs ∧
      pool'.pages = pool.pages := by
  rcases hs.newPage_cases with ⟨g, pool', hnew, -⟩ | ⟨e, pool', hrun, hs', hpages, hwhy⟩
  · exact absurd (hs.of_newPage hnew).2 hroom
  · obtain ⟨-, hall⟩ | ⟨rfl, -⟩ := hwhy
    · exact absurd hall hdisk
    · exact ⟨pool', hrun, hs', hpages⟩

/-- A new page has a guard of its own, unless the disk is full. -/
theorem newPage_ends (h : pool.Sound gs) :
    Ends (FullDisk gs 1) (fun g pool' => g.mode = .write ∧ pool.pages g.page = none ∧
      pool'.Sound (g :: gs) ∧
      pool'.pages = Function.update pool.pages g.page (some (Block.zero pageSize)))
      (newPage pool) := by
  rcases h.newPage_cases with ⟨g, pool', hrun, hmode, hnone, hs, hpages⟩ |
    ⟨e, pool', hrun, hs, hpages, ⟨rfl, hfull⟩ | ⟨-, hfull⟩⟩
  · rw [hrun]
    exact ⟨hmode, hnone, hs, hpages⟩
  · rw [hrun]
    exact fun _ => ⟨rfl, hs, (members_eq_of_pages h.space hs.space hpages).trans hfull⟩
  · rw [hrun]
    exact fun hroom => absurd hfull hroom.not_full

end Pool

namespace Tree

open Pool

variable {pool : Pool n m} {gs : List (Guard n)} {g : Guard n} {p : PageId} {page : Page}

theorem freePage_eq_ok (h : pool.Sound gs) (hp : pool.pages p = some page)
    (hfree : ∀ g ∈ gs, g.page ≠ p) : ∃ pool', freePage p pool = .ok () pool' ∧ pool'.Sound gs ∧
      pool'.pages = Function.update pool.pages p none := by
  have hsome : pool.pages p ≠ none := by rw [hp]; exact Option.some_ne_none page
  rcases h.delete_cases p with ⟨pool', hrun, hs, hpages⟩ | ⟨pool', -, -, -, hnone⟩ |
    ⟨e, pool', -, -, -, ⟨-, hnone⟩ | ⟨-, g, hg, hgp⟩⟩
  · refine ⟨pool', ?_, hs, hpages⟩
    rw [freePage, Action.bind_of_ok hrun]
    rfl
  · exact absurd hnone hsome
  · exact absurd hnone hsome
  · exact absurd hgp (hfree g hg)

/-- Another parent for a node. -/
theorem setParent_eq_ok {parent : PageId} {page' : Page} (h : pool.Sound gs)
    (hp : pool.pages p = some page) (hset : NodeHeader.setParent page parent = .ok page')
    (hfree : ∀ g ∈ gs, g.page ≠ p) (hroom : Room gs 1) :
    ∃ pool', setParent p parent pool = .ok () pool' ∧ pool'.Sound gs ∧
      pool'.pages = Function.update pool.pages p (some page') := by
  obtain ⟨g, pool₁, hfetch, rfl, hmode, h₁, hpages₁, hbytes⟩ := fetch_eq_ok h hp hfree hroom .write
  obtain ⟨pool₂, hedit, h₂, hpages₂⟩ := h₁.edit_eq_ok List.mem_cons_self hmode
    (fun page => NodeHeader.setParent page parent) (by rw [hbytes, hset])
  rw [setParent, Action.bind_of_ok hfetch]
  exact holding_eq_ok ⟨pool₂, hedit, h₂, by rw [hpages₂, hpages₁]⟩

end Tree

end PageStore
