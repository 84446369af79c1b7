import PageStore.Proofs.Tree.Readers
import PageStore.Proofs.Tree.Run

/-!
# Frames that a tree borrows

Whatever the pages of a tree are, a call on it has one guard at a time on its way down, two where a
node splits, and three where two nodes are repaired under their parent. `Pool.Borrows gs k act` says
that an action gives back every guard that it takes, also when it is refused, and is not short of
frames when the guards `gs` of others leave `k` of them. Of an action that aborts or hangs nothing
is said.

Readers borrow one frame, since to fetch a page and to give the guard back is all that they do.
-/

namespace PageStore

open Pool PageStore.Action

variable {n m : Nat} {α : Type}

namespace Pool

variable {gs : List (Guard n)} {k k' : Nat}

/-! ## Guards that come back -/

/-- The guards that are out. -/
abbrev Out (gs : List (Guard n)) (pool : Pool n m) : Prop := pool.Sound gs

/-- **The accounts are square** when an action is refused: the guards `gs` are out, and if they
leave `k` frames to others, the cause is not that there was none. -/
def Squared (gs : List (Guard n)) (k : Nat) (e : Halt) (pool : Pool n m) : Prop :=
  ∀ cause, e = .refused cause → pool.Sound gs ∧ (Room gs k → cause ≠ .poolFull)

/-- **The action borrows** `k` frames at most, and gives them back when it returns or is refused. -/
def Borrows (gs : List (Guard n)) (k : Nat) (act : Action (Pool n m) α) : Prop :=
  Ensures (Squared gs k) (Out gs) act fun _ => Out gs

/-- Who needs `k` frames is not short of them when there are more. -/
theorem Squared.mono {e : Halt} {pool : Pool n m} (h : Squared gs k e pool) (hk : k ≤ k') :
    Squared gs k' e pool := fun cause he =>
  ⟨(h cause he).1, fun hroom => (h cause he).2 (hroom.mono hk)⟩

theorem Squared.of_sound {e : Halt} {pool : Pool n m} (hs : pool.Sound gs)
    (he : Room gs k → e ≠ .refused .poolFull) : Squared gs k e pool := fun _ hcause =>
  ⟨hs, fun hroom hfull => he hroom (hfull ▸ hcause)⟩

end Pool

theorem Action.Ensures.atMost {gs : List (Guard n)} {k k' : Nat} {P : Pool n m → Prop}
    {act : Action (Pool n m) α} {Q : α → Pool n m → Prop} (h : Ensures (Squared gs k) P act Q)
    (hk : k ≤ k') : Ensures (Squared gs k') P act Q :=
  h.imp_stop fun _ _ hs => hs.mono hk

namespace Pool

variable {gs : List (Guard n)} {g : Guard n} {k : Nat} {act : Action (Pool n m) α}
  {P : Pool n m → Prop}

theorem borrows_pure (a : α) : Borrows gs k (pure a : Action (Pool n m) α) :=
  Ensures.of_pure fun _ => id

theorem borrows_throw {e : Halt} (he : e ≠ .refused .poolFull) :
    Borrows gs k (throw e : Action (Pool n m) α) :=
  Ensures.of_throw fun _ hs => .of_sound hs fun _ => he

/-- A computation on bytes needs no frames. -/
theorem borrows_lift {r : Except Halt α} (hr : BlamesBytes r) :
    Borrows gs k (liftM r : Action (Pool n m) α) := by
  intro pool hs
  cases r with
  | ok a => exact hs
  | error e => exact .of_sound hs fun _ he => hr.ne_poolFull (he ▸ rfl)

theorem borrows_check {r : Except StoreError α} (hr : r ≠ .error .poolFull) :
    Borrows gs k (liftM r : Action (Pool n m) α) :=
  .of_check fun _ _ he hs => .of_sound hs fun _ hfull => hr (Halt.refused.inj hfull ▸ he)

/-- A guard that is taken back on every way out was borrowed. -/
theorem ensures_holding (h : Ensures (Squared (g :: gs) k) P act fun _ => Out (g :: gs)) :
    Ensures (Squared gs (k + 1)) P (holding g act) fun _ => Out gs := by
  intro pool hs
  have hends := h pool hs
  cases hr : act pool with
  | ok a pool' =>
    rw [hr] at hends
    exact .of_eq_ok (Action.atEnd_ok hr) (Sound.release hends).1
  | error e pool' =>
    rw [hr] at hends
    refine .of_eq_error (Action.atEnd_error hr) fun cause he => ?_
    obtain ⟨hs', hcause⟩ := hends cause he
    exact ⟨(Sound.release hs').1, fun hroom => hcause (hroom.cons g)⟩

/-! ## Actions of the pool -/

/-- A frame is wanting for a new page only where every frame is guarded. -/
theorem ensures_newPage : Ensures (Squared gs 1) (Out gs) (newPage (n := n) (m := m)) fun g pool =>
    g.mode = .write ∧ Out (g :: gs) pool := by
  intro pool hs
  rcases hs.newPage_cases with ⟨g, pool', hrun, hmode, -, hs', -⟩ |
    ⟨e, pool', hrun, hs', -, ⟨rfl, -⟩ | ⟨-, hfull⟩⟩
  · exact .of_eq_ok hrun ⟨hmode, hs'⟩
  · exact .of_eq_error hrun (.of_sound hs' nofun)
  · exact .of_eq_error hrun (.of_sound hs' fun hroom => absurd hfull hroom.not_full)

/-- So it is for a page that is not in a frame yet. -/
theorem ensures_fetch (mode : Mode) (p : PageId) :
    Ensures (Squared gs 1) (Out gs) (fetch (m := m) mode p) fun g pool =>
      g.mode = mode ∧ Out (g :: gs) pool := by
  intro pool hs
  rcases hs.fetch_cases mode p with ⟨g, pool', hrun, -, hmode, hs', -⟩ |
    ⟨e, pool', hrun, hs', -, ⟨rfl, -⟩ | ⟨cause, rfl, ⟨hcause, -⟩ | ⟨-, hfull⟩⟩⟩
  · exact .of_eq_ok hrun ⟨hmode, hs'⟩
  · exact .of_eq_error hrun (.of_sound hs' nofun)
  · exact .of_eq_error hrun (.of_sound hs' fun _ he => hcause (Halt.refused.inj he))
  · exact .of_eq_error hrun (.of_sound hs' fun hroom => absurd hfull hroom.not_full)

theorem borrows_put (hg : g ∈ gs) (hw : g.mode = .write) (data : Page) :
    Borrows (m := m) gs k (modify (put g data)) := fun _ hs => (Sound.put hs hg hw data).1

theorem borrows_mark (hg : g ∈ gs) (hw : g.mode = .write) :
    Borrows (m := m) gs k (modify (mark g)) := fun _ hs => (Sound.mark hs hg hw).1

theorem borrows_edit (hg : g ∈ gs) (hw : g.mode = .write) {change : Page → Except Halt Page}
    (hchange : ∀ page, change page ≠ .error (.refused .poolFull)) :
    Borrows (m := m) gs k (edit g change) := by
  intro pool hs
  cases hc : change (pool.bytes g) with
  | ok data =>
    obtain ⟨pool', hrun, hs', -⟩ := Sound.edit_eq_ok hs hg hw change hc
    exact .of_eq_ok hrun hs'
  | error e =>
    obtain ⟨pool', hrun, hs', -⟩ := Sound.edit_eq_error hs hg hw hc
    exact .of_eq_error hrun (.of_sound hs' fun _ he => hchange _ (he ▸ hc))

theorem ensures_inspect {look : Page → Except Halt α} (hlook : ∀ page, BlamesBytes (look page)) :
    Ensures (Squared gs k) (Out (g :: gs)) (inspect (m := m) g look) fun _ => Out gs :=
  inspect_ensures hlook (fun _ hs => (Sound.release hs).1) fun _ _ he hs => .of_sound hs fun _ => he

theorem borrows_update (p : PageId) {change : Page → Except Halt Page}
    (hchange : ∀ page, change page ≠ .error (.refused .poolFull)) :
    Borrows (m := m) gs 1 (update p change) :=
  (ensures_fetch .write p).bind fun _ => .of_and fun hw =>
    ensures_holding (borrows_edit List.mem_cons_self hw hchange)

end Pool

/-- **A place in a tree** is a guard on a leaf, or none, next to the guards `gs` of others. -/
def Pool.OutAt (gs : List (Guard n)) (place : Option (Guard n)) (pool : Pool n m) : Prop :=
  Out (place.toList ++ gs) pool ∧ ∀ g ∈ place, g.OnLeaf pool

namespace Tree

variable {gs : List (Guard n)} {g : Guard n} {k fuel : Nat}

/-! ## Pages of a tree -/

/-- Damage to the tree is not a want of frames. -/
theorem ensures_fetch (mode : Mode) (p : PageId) :
    Ensures (Squared gs 1) (Out gs) (fetch (m := m) mode p) fun g pool =>
      g.mode = mode ∧ Out (g :: gs) pool := by
  intro pool hs
  have hends := Pool.ensures_fetch (m := m) mode p pool hs
  rw [fetch]
  cases hr : Pool.fetch mode p pool with
  | ok g pool' =>
    rw [hr] at hends
    exact hends
  | error e pool' =>
    rw [hr] at hends
    cases e with
    | refused cause =>
      obtain ⟨hs', hcause⟩ := hends cause rfl
      refine .of_sound hs' fun hroom he => hcause hroom ?_
      cases cause <;> first | rfl | cases he
    | fault => rintro _ ⟨⟩
    | blocked => rintro _ ⟨⟩
    | endless => rintro _ ⟨⟩

theorem borrows_view {look : Page → Except Halt α} (hlook : ∀ page, BlamesBytes (look page))
    (p : PageId) : Borrows (m := m) gs 1 (view p look) :=
  (ensures_fetch .read p).bind fun _ => .of_and fun _ => ensures_inspect hlook

theorem borrows_setParent (p parent : PageId) : Borrows (m := m) gs 1 (setParent p parent) :=
  (ensures_fetch .write p).bind fun _ => .of_and fun hw =>
    ensures_holding (borrows_edit List.mem_cons_self hw fun page =>
      (NodeHeader.blames_setParent page parent).ne_poolFull)

/-- A page is freed without a frame. -/
theorem borrows_freePage (p : PageId) : Borrows (m := m) gs k (freePage p) := by
  have hdelete : Borrows (m := m) gs k (Pool.delete p) := by
    intro pool hs
    rcases hs.delete_cases p with ⟨pool', hrun, hs', -⟩ | ⟨pool', hrun, hs', -⟩ |
      ⟨e, pool', hrun, hs', -, ⟨rfl, -⟩ | ⟨rfl, -⟩⟩
    · exact .of_eq_ok hrun hs'
    · exact .of_eq_ok hrun hs'
    · exact .of_eq_error hrun (.of_sound hs' nofun)
    · exact .of_eq_error hrun (.of_sound hs' nofun)
  refine hdelete.bind fun deleted => ?_
  cases deleted with
  | true => exact borrows_pure ()
  | false => exact borrows_throw nofun

theorem borrows_checkRoot (t : Tree) : Borrows (m := m) gs 1 t.checkRoot := by
  rw [checkRoot]
  split
  · refine (borrows_view blames_keySizeOf t.root).bind fun found => ?_
    split
    · refine borrows_throw ?_
      rintro ⟨⟩
    · exact borrows_pure ()
  · exact borrows_pure ()

theorem create_ne_poolFull (order : KeyOrder) (keySize : Nat) (limits : TreeConfig) :
    create order keySize limits ≠ .error .poolFull := by
  have hresolve : ∀ leaf internal, limits.resolve leaf internal ≠ .error .poolFull := by
    intro leaf internal
    simp only [TreeConfig.resolve]
    split
    · rintro ⟨⟩
    · split
      · rintro ⟨⟩
      · rintro ⟨⟩
  intro h
  rw [create] at h
  split at h
  · cases h
  · generalize hr : limits.resolve (NodeKind.leaf.capacity keySize)
      (NodeKind.internal.capacity keySize)
      = resolved at h
    cases resolved with
    | ok found => cases h
    | error e =>
      cases h
      exact hresolve _ _ hr

theorem borrows_attach (order : KeyOrder) (keySize : Nat) (limits : TreeConfig) (root : PageId) :
    Borrows (m := m) gs 1 (attach order keySize limits root) :=
  (borrows_check (create_ne_poolFull order keySize limits)).bind fun _ =>
    (borrows_checkRoot _).bind fun _ => borrows_pure _

/-! ## Recorded roots -/

theorem borrows_persistRoot (t : Tree) : Borrows (m := m) gs 1 t.persistRoot := by
  rw [persistRoot]
  split
  · exact borrows_pure ()
  · refine borrows_update _ fun page => ?_
    split
    · rintro ⟨⟩
    · rintro ⟨⟩

theorem borrows_register (t : Tree) (page : PageId) (index : UInt32) :
    Borrows (m := m) gs 1 (t.register page index) := by
  refine Ensures.bind ((Pool.ensures_fetch .read page).bind fun _ => .of_and fun _ =>
    ensures_inspect fun _ => .ok _) fun recorded => ?_
  cases recorded with
  | none => exact (borrows_persistRoot _).bind fun _ => borrows_pure _
  | some root => exact (borrows_checkRoot _).bind fun _ => borrows_pure _

/-! ## Reading -/

/-- A look under a guard, which is let go of if the look stops. -/
theorem ensures_peek {look : Page → Except Halt α} (hlook : ∀ page, BlamesBytes (look page)) :
    Ensures (Squared gs k) (Out (g :: gs)) (peek (m := m) g look) fun a pool =>
      look (pool.bytes g) = .ok a ∧ Out (g :: gs) pool :=
  peek_ensures hlook (fun _ hs => (Sound.release hs).1) fun _ _ he hs => .of_sound hs fun _ => he

/-- **Readers have one guard at a time**, and give it back. -/
theorem readers_borrow (gs : List (Guard n)) :
    KeptByReaders (n := n) (m := m) (Squared gs 1) fun place => Out (place.toList ++ gs) where
  fetch p := (ensures_fetch .read p).imp fun _ _ => And.right
  release _ _ hs := (Sound.release hs).1
  refuse _ _ he hs := .of_sound hs fun _ => he
  hang _ := nofun

theorem borrows_get? (t : Tree) (key : Key) : Borrows (m := m) gs 1 (t.get? key) :=
  (readers_borrow gs).get? t key

theorem borrows_height (t : Tree) : Borrows (m := m) gs 1 t.height := (readers_borrow gs).height t

theorem borrows_entries (t : Tree) : Borrows (m := m) gs 1 t.entries :=
    (readers_borrow gs).entries t

theorem borrows_range (t : Tree) (low high : Key) : Borrows (m := m) gs 1 (t.range low high) :=
  (readers_borrow gs).range t low high

theorem borrows_verify (t : Tree) : Borrows (m := m) gs 1 t.verify := (readers_borrow gs).verify t

end Tree

namespace Cursor

variable {gs : List (Guard n)}

/-- **A step of an iterator** that finds an entry leaves one guard, on a leaf, and one that finds
the end leaves none. -/
theorem ensures_next (c : Cursor n) :
    Ensures (Squared gs 1) (Out (c.leaf.toList ++ gs)) (c.next (m := m)) fun found pool =>
      found.1.isSome = found.2.leaf.isSome ∧ OutAt gs found.2.leaf pool :=
  (Tree.readers_borrow gs).next c

/-- An iterator that is dropped leaves no guard. -/
theorem sound_close {c : Cursor n} {pool : Pool n m} (hs : pool.Sound (c.leaf.toList ++ gs)) :
    (c.close pool).Sound gs := (Tree.readers_borrow gs).close hs

end Cursor

namespace Tree

variable {gs : List (Guard n)}

/-! ## Destroying -/

theorem borrows_freeBelow (fuel : Nat) (p : PageId) : Borrows (m := m) gs 1 (freeBelow fuel p) := by
  induction fuel generalizing p with
  | zero => exact .of_throw fun _ _ => nofun
  | succ fuel ih =>
    exact (borrows_view blames_childPages p).bind fun children =>
      (Ensures.forM children ih).bind fun _ => borrows_freePage p

end Tree

end PageStore
