import PageStore.Proofs.Tree.Blame
import PageStore.Proofs.Tree.Halting

/-!
# Reading a tree, guard by guard

Lookups, iterators, walks and checks of a tree have one guard at a time, for reading, and do no more
with the pool than to fetch a page and to give the guard back. What these two keep, all of them
keep, whatever the pages are: `KeptByReaders`, and one lemma for each reader.

`Action.Ensures` is how it is said what an action keeps, from one state to the next or to the one in
which it stops.
-/

namespace PageStore

open Pool

variable {n m : Nat} {σ α β : Type}

/-! ## What an action ensures -/

namespace Action

/-- **What an action ensures**: from a state as `P` says, it ends as `Q` says or stops as `stop`
says. -/
def Ensures (stop : Halt → σ → Prop) (P : σ → Prop) (act : Action σ α) (Q : α → σ → Prop) : Prop :=
  ∀ s, P s → Ends stop Q (act s)

namespace Ensures

variable {stop stop' : Halt → σ → Prop} {P I : σ → Prop} {act : Action σ α} {next : α → Action σ β}
  {Q : α → σ → Prop} {R : β → σ → Prop}

theorem imp_stop (h : Ensures stop P act Q) (hstop : ∀ e s, stop e s → stop' e s) :
    Ensures stop' P act Q := fun s hs => (h s hs).imp hstop fun _ _ => id

theorem imp {Q' : α → σ → Prop} (h : Ensures stop P act Q) (hQ : ∀ a s, Q a s → Q' a s) :
    Ensures stop P act Q' := fun s hs => (h s hs).imp (fun _ _ => id) hQ

theorem of_imp (hP : ∀ s, P s → I s) (h : Ensures stop I act Q) : Ensures stop P act Q :=
  fun s hs => h s (hP s hs)

/-- **Sequencing.** -/
theorem bind (h : Ensures stop P act Q) (hnext : ∀ a, Ensures stop (Q a) (next a) R) :
    Ensures stop P (act >>= next) R := fun s hs => (h s hs).bind fun a s' => hnext a s'

theorem of_pure {a : α} (h : ∀ s, P s → Q a s) : Ensures stop P (pure a : Action σ α) Q := h

theorem of_throw {e : Halt} (h : ∀ s, P s → stop e s) : Ensures stop P (throw e : Action σ α) Q := h

/-- Looking at the state changes nothing. -/
theorem get_bind {next : σ → Action σ β} (h : ∀ s, Ensures stop P (next s) R) :
    Ensures stop P (get >>= next) R := fun s hs => h s s hs

theorem modify_bind {f : σ → σ} {next : Unit → Action σ β} (h : ∀ s, P s → I (f s))
    (hnext : Ensures stop I (next ()) R) : Ensures stop P (modify f >>= next) R :=
  fun s hs => hnext (f s) (h s hs)

/-- A check changes nothing. -/
theorem of_check {r : Except StoreError α} (h : ∀ e s, r = .error e → P s → stop (.refused e) s) :
    Ensures stop P (liftM r : Action σ α) fun _ => P := by
  intro s hs
  cases r with
  | ok a => exact hs
  | error e => exact h e s rfl hs

/-- A fact about the values so far is one about every state. -/
theorem of_and {φ : Prop} (h : φ → Ensures stop P act Q) :
    Ensures stop (fun s => φ ∧ P s) act Q := fun s hs => h hs.1 s hs.2

/-- What each step of a loop keeps, the loop does. -/
theorem foldlM {f : β → α → Action σ β} (l : List α)
    (hstep : ∀ b a, Ensures stop P (f b a) fun _ => P) (b : β) :
    Ensures stop P (l.foldlM f b) fun _ => P := fun _ hs =>
  Ends.foldlM (fun a _ b => hstep b a) hs

theorem forM {f : α → Action σ PUnit} (l : List α) (hstep : ∀ a, Ensures stop P (f a) fun _ => P) :
    Ensures stop P (l.forM f) fun _ => P := by
  induction l with
  | nil => exact fun _ hs => hs
  | cons a l ih => exact (hstep a).bind fun _ => ih

end Ensures

end Action

open PageStore.Action

/-- The page under the guard is a leaf. -/
def Guard.OnLeaf (g : Guard n) (pool : Pool n m) : Prop :=
  NodeHeader.kind (pool.bytes g) = .ok .leaf

/-- **A place in a tree** is a guard on a leaf, or none. -/
def Pool.Placed (I : Option (Guard n) → Pool n m → Prop) (place : Option (Guard n))
    (pool : Pool n m) : Prop :=
  I place pool ∧ ∀ g ∈ place, g.OnLeaf pool

/-- **What readers keep.** `I none` is said of a pool in which they have no guard, and `I (some g)`
of one in which they have `g`. -/
structure Pool.KeptByReaders (stop : Halt → Pool n m → Prop)
    (I : Option (Guard n) → Pool n m → Prop) :
    Prop where
  /-- a page is fetched for reading, or the reader stops -/
  fetch : ∀ p, Ensures stop (I none) (Tree.fetch .read p) fun g => I (some g)
  /-- the guard is given back -/
  release : ∀ g pool, I (some g) pool → I none (pool.release g)
  /-- a reader may stop without a guard, for any cause but a want of frames -/
  refuse : ∀ e pool, e ≠ .refused .poolFull → I none pool → stop e pool
  /-- nothing is said of a reader that never comes back -/
  hang : ∀ pool, stop .endless pool

section Looks

variable {stop : Halt → Pool n m → Prop} {I J : Pool n m → Prop} {g : Guard n}
  {look : Page → Except Halt α} (hlook : ∀ page, BlamesBytes (look page))
  (hrelease : ∀ pool, I pool → J (pool.release g))
  (hrefuse : ∀ e pool, e ≠ .refused .poolFull → J pool → stop e pool)

include hlook hrelease hrefuse

/-- A look under a guard, which is let go of if the look stops. -/
theorem Tree.peek_ensures : Ensures stop I (peek g look) fun a pool =>
    look (pool.bytes g) = .ok a ∧ I pool := by
  intro pool hs
  cases hr : look (pool.bytes g) with
  | ok a => exact .of_eq_ok (peek_eq_ok look hr) ⟨hr, hs⟩
  | error e =>
    have hrun : peek g look pool = .error e (pool.release g) := by
      refine Action.onHalt_error ?_
      rw [Action.get_bind]
      exact Action.liftM_error hr _
    exact .of_eq_error hrun
      (hrefuse e _ (fun he => (hlook _).ne_poolFull (he ▸ hr)) (hrelease _ hs))

/-- A look under a guard, which is let go of in any case. -/
theorem Pool.inspect_ensures : Ensures stop I (inspect g look) fun _ => J := by
  intro pool hs
  cases hr : look (pool.bytes g) with
  | ok a =>
    have hrun : inspect g look pool = .ok a (pool.release g) := by
      refine Action.atEnd_ok ?_
      rw [Action.get_bind]
      exact Action.liftM_ok hr _
    exact .of_eq_ok hrun (hrelease _ hs)
  | error e =>
    exact .of_eq_error (inspect_eq_error hr)
      (hrefuse e _ (fun he => (hlook _).ne_poolFull (he ▸ hr)) (hrelease _ hs))

end Looks

namespace Tree

theorem checkKey_ne_poolFull (t : Tree) (key : Key) : t.checkKey key ≠ .error .poolFull := by
  rw [checkKey]
  split
  · rintro ⟨⟩
  · rintro ⟨⟩

/-- Only a leaf leads nowhere. -/
theorem kind_of_route {t : Tree} {key : Option Key} {page : Page}
    (h : t.route key page = .ok none) : NodeHeader.kind page = .ok .leaf := by
  obtain ⟨kind, hkind, h⟩ := of_bind_eq_ok h
  cases kind with
  | leaf => exact hkind
  | internal =>
    obtain ⟨node, -, h⟩ := of_bind_eq_ok h
    cases key <;>
    · obtain ⟨i, -, h⟩ := of_bind_eq_ok h
      obtain ⟨child, -, h⟩ := of_bind_eq_ok h
      cases h

end Tree

/-- Only in a leaf there are entries. -/
theorem Cursor.kind_of_look {offset : Nat} {page : Page} {found : Entry ⊕ PageId}
    (h : look offset page = .ok found) : NodeHeader.kind page = .ok .leaf := by
  obtain ⟨leaf, hleaf, -⟩ := of_bind_eq_ok h
  exact (Node.of_ofBlock hleaf).2.1

namespace Pool.KeptByReaders

variable {stop : Halt → Pool n m → Prop} {I : Option (Guard n) → Pool n m → Prop}
  {look : Page → Except Halt α} {g : Guard n}

section Readers

variable (hk : KeptByReaders stop I)

include hk

/-- A computation on bytes. -/
theorem lift {r : Except Halt α} (hr : BlamesBytes r) :
    Ensures stop (I none) (liftM r : Action (Pool n m) α) fun _ => I none := by
  intro pool hs
  cases r with
  | ok a => exact hs
  | error e => exact hk.refuse e pool (fun he => hr.ne_poolFull (he ▸ rfl)) hs

theorem check {r : Except StoreError α} (hr : r ≠ .error .poolFull) :
    Ensures stop (I none) (liftM r : Action (Pool n m) α) fun _ => I none :=
  .of_check fun _ _ he hs => hk.refuse _ _ (fun hfull => hr (Halt.refused.inj hfull ▸ he)) hs

theorem peek (hlook : ∀ page, BlamesBytes (look page)) :
    Ensures stop (I (some g)) (Tree.peek g look) fun a pool =>
      look (pool.bytes g) = .ok a ∧ I (some g) pool :=
  Tree.peek_ensures hlook (hk.release g) hk.refuse

theorem inspect (hlook : ∀ page, BlamesBytes (look page)) :
    Ensures stop (I (some g)) (Pool.inspect g look) fun _ => I none :=
  Pool.inspect_ensures hlook (hk.release g) hk.refuse

theorem view (hlook : ∀ page, BlamesBytes (look page)) (p : PageId) :
    Ensures stop (I none) (Tree.view p look) fun _ => I none :=
  (hk.fetch p).bind fun _ => hk.inspect hlook

/-! ### Going down -/

/-- **A descent** keeps one guard, on a leaf. -/
theorem descend (t : Tree) (key : Option Key) (fuel : Nat) (p : PageId) :
    Ensures stop (I none) (t.descend key fuel p) fun g => Placed I (some g) := by
  induction fuel generalizing p with
  | zero => exact .of_throw fun pool _ => hk.hang pool
  | succ fuel ih =>
    refine (hk.fetch p).bind fun g => (hk.peek (t.blames_route key)).bind fun way => ?_
    -- the guard is kept on a leaf, and let go of before a child is fetched
    cases way with
    | none =>
      refine .of_pure ?_
      rintro pool ⟨hroute, hs⟩
      refine ⟨hs, ?_⟩
      rintro _ ⟨⟩
      exact Tree.kind_of_route hroute
    | some way => exact .modify_bind (fun _ hs => hk.release _ _ hs.2) (ih way.2)

theorem findLeaf (t : Tree) (key : Option Key) :
    Ensures stop (I none) (t.findLeaf key) fun place pool =>
      place.isNone = t.isEmpty ∧ Placed I place pool := by
  rw [Tree.findLeaf]
  by_cases hempty : t.isEmpty = true
  · rw [if_pos hempty]
    refine .of_pure fun pool hs => ⟨hempty.symm, hs, ?_⟩
    rintro _ ⟨⟩
  · rw [if_neg hempty]
    exact (hk.descend t key Tree.descentBound t.root).bind fun g =>
      .of_pure fun pool hs => ⟨(Bool.eq_false_of_not_eq_true hempty).symm, hs⟩

theorem get? (t : Tree) (key : Key) : Ensures stop (I none) (t.get? key) fun _ => I none := by
  refine (hk.check (t.checkKey_ne_poolFull key)).bind fun _ => ?_
  refine (hk.findLeaf t (some key)).bind fun place => ?_
  cases place with
  | none => exact .of_pure fun pool hs => hs.2.1
  | some g =>
    refine .of_imp (fun _ hs => hs.2.1) (hk.inspect (g := g) fun page => ?_)
    refine (Node.blames_ofBlock _ _).bind fun leaf => ?_
    refine (Leaf.blames_search leaf t.order key).bind fun place => ?_
    cases place <;> simp

theorem heightFrom (t : Tree) (fuel : Nat) (p : PageId) :
    Ensures stop (I none) (t.heightFrom fuel p) fun _ => I none := by
  induction fuel generalizing p with
  | zero => exact .of_throw fun pool _ => hk.hang pool
  | succ fuel ih =>
    refine (hk.view (t.blames_route none) p).bind fun way => ?_
    cases way with
    | none => exact .of_pure fun _ => id
    | some way => exact (ih way.2).bind fun _ => .of_pure fun _ => id

theorem height (t : Tree) : Ensures stop (I none) t.height fun _ => I none := by
  rw [Tree.height]
  split
  · exact .of_pure fun _ => id
  · exact hk.heightFrom t Tree.descentBound t.root

/-! ### Walking -/

/-- **A step of an iterator** that finds an entry leaves one guard, on a leaf, and one that finds
the end leaves none. -/
theorem advance (fuel : Nat) (g : Guard n) (offset : Nat) :
    Ensures stop (I (some g)) (Cursor.advance fuel g offset) fun found pool =>
      found.1.isSome = found.2.leaf.isSome ∧ Placed I found.2.leaf pool := by
  induction fuel generalizing g offset with
  | zero => exact .of_throw fun pool _ => hk.hang pool
  | succ fuel ih =>
    refine (hk.peek (Cursor.blames_look offset)).bind fun found => ?_
    cases found with
    | inl entry =>
      refine .of_pure ?_
      rintro pool ⟨hlook, hs⟩
      refine ⟨rfl, hs, ?_⟩
      rintro _ ⟨⟩
      exact Cursor.kind_of_look hlook
    -- the leaf is let go of before the next one is fetched, so one frame is enough
    | inr next =>
      refine .modify_bind (I := I none) (fun _ hs => hk.release _ _ hs.2) ?_
      split
      · exact (hk.fetch next).bind fun g => ih g 0
      · exact .of_pure fun pool hs => ⟨rfl, hs, nofun⟩

theorem next (c : Cursor n) :
    Ensures stop (I c.leaf) (c.next (m := m)) fun found pool =>
      found.1.isSome = found.2.leaf.isSome ∧ Placed I found.2.leaf pool := by
  obtain ⟨leaf, offset⟩ := c
  cases leaf with
  | none => exact .of_pure fun pool hs => ⟨rfl, hs, nofun⟩
  | some g => exact hk.advance Cursor.stepBound g offset

/-- An iterator that is dropped leaves no guard. -/
theorem close {c : Cursor n} {pool : Pool n m} (hs : I c.leaf pool) : I none (c.close pool) := by
  obtain ⟨leaf, offset⟩ := c
  cases leaf with
  | none => exact hs
  | some g => exact hk.release g pool hs

theorem first (t : Tree) : Ensures stop (I none) t.first fun c pool =>
    c.isEnd = t.isEmpty ∧ Placed I c.leaf pool :=
  (hk.findLeaf t none).bind fun _ => .of_pure fun _ hs => hs

theorem locate (t : Tree) (key : Key) : Ensures stop (I none) (t.locate key) fun place pool =>
    place.isNone = t.isEmpty ∧ Placed I (place.map Prod.fst) pool := by
  refine (hk.check (t.checkKey_ne_poolFull key)).bind fun _ => ?_
  refine (hk.findLeaf t (some key)).bind fun leaf => ?_
  cases leaf with
  | none => exact .of_pure fun pool hs => hs
  | some g =>
    refine .of_imp (fun _ hs => ⟨hs.1, hs.2.1⟩) (.of_and fun hempty =>
      (hk.peek (g := g) fun page => ?_).bind fun place => ?_)
    · exact (Node.blames_ofBlock _ _).bind fun leaf => Leaf.blames_search leaf t.order key
    · refine .of_pure ?_
      rintro pool ⟨hlook, hs⟩
      refine ⟨hempty, hs, ?_⟩
      rintro _ ⟨⟩
      obtain ⟨leaf, hleaf, -⟩ := of_bind_eq_ok hlook
      exact (Node.of_ofBlock hleaf).2.1

/-- An iterator at the entry of a key, or at the end if the key is absent. -/
theorem seekExact (t : Tree) (key : Key) : Ensures stop (I none) (t.seekExact key) fun c pool =>
    (t.isEmpty = true → c.isEnd = true) ∧ Placed I c.leaf pool := by
  refine (hk.locate t key).bind fun place => ?_
  obtain _ | ⟨g, place⟩ := place
  · exact .of_pure fun _ hs => ⟨fun _ => rfl, hs.2⟩
  refine .of_and fun hsome => ?_
  have hempty : ¬t.isEmpty = true := fun hempty => nomatch hsome.trans hempty
  cases place with
  | found i => exact .of_pure fun _ hs => ⟨fun h => absurd h hempty, hs⟩
  | missing i =>
    exact .modify_bind (I := I none) (fun _ hs => hk.release _ _ hs.1)
      (.of_pure fun _ hs => ⟨fun _ => rfl, hs, nofun⟩)

theorem seek (t : Tree) (key : Key) : Ensures stop (I none) (t.seek key) fun c pool =>
    c.isEnd = t.isEmpty ∧ Placed I c.leaf pool := by
  refine (hk.locate t key).bind fun place => ?_
  obtain _ | ⟨g, place⟩ := place
  · exact .of_pure fun _ hs => hs
  · exact .of_pure fun _ hs => hs

/-- **A walk** gives the guard of its iterator back at the end. -/
theorem collect (t : Tree) (last : Option Key) (fuel : Nat) (c : Cursor n) :
    Ensures stop (I c.leaf) (t.collect last fuel c) fun _ => I none := by
  induction fuel generalizing c with
  | zero =>
    exact .modify_bind (I := fun _ => True) (fun _ _ => trivial)
      (.of_throw fun pool _ => hk.hang pool)
  | succ fuel ih =>
    refine (hk.next c).bind fun found => ?_
    obtain ⟨entry, c'⟩ := found
    cases entry with
    | none =>
      refine .of_pure ?_
      rintro pool ⟨hend, hs, -⟩
      have hnone : c'.leaf = none := Option.not_isSome_iff_eq_none.1 (hend ▸ Bool.false_ne_true)
      rwa [hnone] at hs
    | some entry =>
      refine .of_imp (I := I c'.leaf) (fun _ hs => hs.2.1) ?_
      dsimp only
      split
      · exact .modify_bind (I := I none) (fun _ hs => hk.close hs) (.of_pure fun _ => id)
      · exact (ih c').bind fun rest => .of_pure fun _ => id

theorem entries (t : Tree) : Ensures stop (I none) t.entries fun _ => I none :=
  (hk.first t).bind fun c => .of_imp (fun _ hs => hs.2.1) (hk.collect t none Tree.walkBound c)

theorem range (t : Tree) (low high : Key) :
    Ensures stop (I none) (t.range low high) fun _ => I none :=
  (hk.check (t.checkKey_ne_poolFull high)).bind fun _ => (hk.seek t low).bind fun c =>
    .of_imp (fun _ hs => hs.2.1) (hk.collect t (some high) Tree.walkBound c)

/-! ### Verifying -/

theorem surveyBelow (t : Tree) (fuel : Nat) (v : Visit) (s : Survey) :
    Ensures stop (I none) (t.surveyBelow fuel v s) fun _ => I none := by
  induction fuel generalizing v s with
  | zero => exact .of_throw fun pool _ => hk.hang pool
  | succ fuel ih =>
    -- the guard on a node is back before its children are looked at
    refine (hk.view (t.blames_examine v) v.page).bind fun found => ?_
    cases found with
    | leaf entries next => exact hk.lift (s.blames_addLeaf v entries next)
    | internal records => exact .foldlM _ (fun s child => ih _ s) s

theorem verify (t : Tree) : Ensures stop (I none) t.verify fun _ => I none := by
  rw [Tree.verify]
  split
  · exact .of_pure fun _ => id
  · exact (hk.surveyBelow t Tree.descentBound _ _).bind fun s =>
      (hk.lift (blames_checkChain _)).bind fun _ => .of_pure fun _ => id

end Readers

end Pool.KeptByReaders

end PageStore
