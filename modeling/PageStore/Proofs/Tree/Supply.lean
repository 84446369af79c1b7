import PageStore.Proofs.Tree.Edits
import PageStore.Proofs.Tree.Readers
import PageStore.Proofs.Tree.Untouched

/-!
# Pages that insertions take

An insertion takes at most one new page for each level of the tree, and one for a new root:
`Tree.stocked_insertBelow`, `Index.Occupies.insert_spends`. So the disk does not run full under an
insertion when there are more pages to spare than that, and with two frames to spare the insertion
returns: `Index.CanGrow.insert_eq_ok`. A tree has fewer levels than pages, so a run of insertions
returns when the pages can be doubled that often: `Index.CanGrow.inserts_eq_ok`.

What is left to spend is counted down from one bound for the whole call, `Pool.Stocked`, so that the
bound on what is allocated when the call stops is the same everywhere.
-/

namespace PageStore

open Pool PageStore.Action

variable {n m : Nat} {α : Type} {gs gs' : List (Guard n)} {g : Guard n} {pool pool' : Pool n m}
  {c r : Nat} {p : PageId} {tree : Tree} {key : Key} {row : RowId} {x y : Index n m}
  {l : List PageId} {E : List (Key × RowId)}

/-! ## Allocated pages -/

namespace Pool

/-- One page more at most is allocated when only one has changed. -/
theorem Sound.card_update_le (hs : pool.Sound gs) (hs' : pool'.Sound gs') {b : Page}
    (hpages : pool'.pages = Function.update pool.pages p (some b)) :
    pool'.members.card ≤ pool.members.card + 1 := by
  refine (Finset.card_le_card fun i hi => ?_).trans (Finset.card_insert_le p.val.toNat _)
  obtain ⟨hlt, hpage⟩ := (mem_members_iff hs'.space).1 hi
  rw [Finset.mem_insert]
  by_cases hp : (⟨UInt32.ofNat i⟩ : PageId) = p
  · have hval : (UInt32.ofNat i).toNat = i :=
      UInt32.toNat_ofNat_of_lt' (Nat.lt_trans hlt (by decide))
    exact .inl (hp ▸ hval.symm)
  · rw [hpages, Function.update_of_ne hp] at hpage
    exact .inr ((mem_members_iff hs.space).2 ⟨hlt, hpage⟩)

/-- Other bytes for an allocated page allocate nothing. -/
theorem Sound.members_update_eq (hs : pool.Sound gs) (hs' : pool'.Sound gs') {b : Page}
    (hp : pool.pages p ≠ none) (hpages : pool'.pages = Function.update pool.pages p (some b)) :
    pool'.members = pool.members := by
  refine members_eq_of_none hs.space hs'.space fun q => ?_
  rw [hpages]
  by_cases hq : q = p
  · rw [hq, Function.update_self]
    exact iff_of_false (Option.some_ne_none b) hp
  · rw [Function.update_of_ne hq]

/-- To give a guard back allocates nothing. -/
@[simp] theorem members_release (g : Guard n) (pool : Pool n m) :
    (pool.release g).members = pool.members := by
  simp only [release, unpin]
  split
  · rfl
  · split
    · rfl
    · split <;> rfl

/-- No more than `c` pages are allocated when an action stops. -/
def Spared (c : Nat) (_ : Halt) (pool : Pool n m) : Prop := pool.members.card ≤ c

/-- With `r` pages more, there are no more than `c`. -/
def Stocked (gs : List (Guard n)) (c r : Nat) (pool : Pool n m) : Prop :=
  pool.Sound gs ∧ pool.members.card + r ≤ c

namespace Stocked

theorem spared (h : pool.Stocked gs c r) (e : Halt) : Spared c e pool :=
  (Nat.le_add_right _ r).trans h.2

theorem of_le {r' : Nat} (h : pool.Stocked gs c r) (hr : r' ≤ r) : pool.Stocked gs c r' :=
  ⟨h.1, (Nat.add_le_add_left hr _).trans h.2⟩

theorem of_members (h : pool.Stocked gs c r) (hs : pool'.Sound gs')
    (hmembers : pool'.members = pool.members) : pool'.Stocked gs' c r := ⟨hs, hmembers ▸ h.2⟩

theorem of_pages (h : pool.Stocked gs c r) (hs : pool'.Sound gs')
    (hpages : pool'.pages = pool.pages) : pool'.Stocked gs' c r :=
  h.of_members hs (members_eq_of_pages h.1.space hs.space hpages)

theorem of_untouched (h : pool.Stocked gs c r) {e : Halt} (hu : Untouched gs' pool.pages e pool') :
    Spared c e pool' := (h.of_pages hu.1 hu.2).spared e

theorem release (h : pool.Stocked (g :: gs) c r) : (pool.release g).Stocked gs c r := by
  obtain ⟨hs, hpages⟩ := h.1.release
  exact h.of_pages hs hpages

end Stocked

/-! ## What actions of the pool take -/

theorem stocked_pure (a : α) : Ensures (Spared c) (Stocked gs c r)
    (pure a : Action (Pool n m) α) fun _ => Stocked gs c r := .of_pure fun _ => id

theorem stocked_lift (result : Except Halt α) : Ensures (Spared c) (Stocked gs c r)
    (liftM result : Action (Pool n m) α) fun _ => Stocked gs c r := by
  intro pool h
  cases result with
  | ok a => exact h
  | error e => exact h.spared e

theorem stocked_holding {act : Action (Pool n m) α} {P : Pool n m → Prop}
    (hact : Ensures (Spared c) P act fun _ => Stocked (g :: gs) c r) :
    Ensures (Spared c) P (holding g act) fun _ => Stocked gs c r := by
  intro pool h
  have hends := hact pool h
  cases hr : act pool with
  | ok a pool' =>
    rw [hr] at hends
    exact .of_eq_ok (Action.atEnd_ok hr) (Stocked.release hends)
  | error e pool' =>
    rw [hr] at hends
    refine .of_eq_error (Action.atEnd_error hr) ?_
    rw [Spared, members_release]
    exact hends

/-- **A new page** is one of those that may be allocated. -/
theorem stocked_newPage : Ensures (Spared c) (Stocked gs c (r + 1)) (newPage (n := n) (m := m))
    fun s pool => s.mode = .write ∧ pool.Stocked (s :: gs) c r := by
  intro pool h
  rcases h.1.newPage_cases with ⟨s, pool', hrun, hmode, -, hs', hpages⟩ |
    ⟨e, pool', hrun, hs', hpages, -⟩
  · have hcard := h.1.card_update_le hs' hpages
    have hmost := h.2
    exact .of_eq_ok hrun ⟨hmode, hs', by omega⟩
  · exact .of_eq_error hrun (h.of_untouched ⟨hs', hpages⟩)

theorem stocked_fetch (mode : Mode) (p : PageId) : Ensures (Spared c) (Stocked gs c r)
    (fetch (m := m) mode p) fun g pool => g.mode = mode ∧ pool.Stocked (g :: gs) c r := by
  intro pool h
  rcases h.1.fetch_cases mode p with ⟨g, pool', hrun, -, hmode, hs', hpages⟩ |
    ⟨e, pool', hrun, hs', hpages, -⟩
  · exact .of_eq_ok hrun ⟨hmode, h.of_pages hs' hpages⟩
  · exact .of_eq_error hrun (h.of_untouched ⟨hs', hpages⟩)

theorem stocked_put (hg : g ∈ gs) (hw : g.mode = .write) (data : Page) :
    Ensures (Spared c) (Stocked gs c r) (modify (put (m := m) g data)) fun _ => Stocked gs c r := by
  intro pool h
  obtain ⟨hs', hpages⟩ := h.1.put hg hw data
  have hp : pool.pages g.page ≠ none := h.1.pages_guard hg ▸ Option.some_ne_none _
  exact h.of_members hs' (h.1.members_update_eq hs' hp hpages)

theorem stocked_edit (hg : g ∈ gs) (hw : g.mode = .write) (change : Page → Except Halt Page) :
    Ensures (Spared c) (Stocked gs c r) (edit (m := m) g change) fun _ => Stocked gs c r := by
  intro pool h
  cases hc : change (pool.bytes g) with
  | ok data =>
    obtain ⟨pool', hrun, hs', hpages⟩ := h.1.edit_eq_ok hg hw change hc
    have hp : pool.pages g.page ≠ none := h.1.pages_guard hg ▸ Option.some_ne_none _
    exact .of_eq_ok hrun (h.of_members hs' (h.1.members_update_eq hs' hp hpages))
  | error e =>
    obtain ⟨pool', hrun, hs', hpages⟩ := h.1.edit_eq_error hg hw hc
    exact .of_eq_error hrun ((h.of_pages hs' hpages).spared e)

theorem stocked_update (p : PageId) (change : Page → Except Halt Page) :
    Ensures (Spared c) (Stocked gs c r) (update (n := n) (m := m) p change)
      fun _ => Stocked gs c r := by
  rw [update]
  exact (stocked_fetch .write p).bind fun g => .of_and fun hw =>
    stocked_holding (stocked_edit List.mem_cons_self hw change)

end Pool

namespace Tree

variable (t : Tree)

theorem stocked_fetch (mode : Mode) (p : PageId) : Ensures (Spared c) (Stocked gs c r)
    (fetch (m := m) mode p) fun g pool => g.mode = mode ∧ pool.Stocked (g :: gs) c r :=
  fun _ h => (fetch_untouched h.1 mode p).imp (fun _ _ => h.of_untouched) fun _ _ hg =>
    ⟨hg.1, h.of_pages hg.2.1 hg.2.2⟩

theorem stocked_peek (look : Page → Except Halt α) : Ensures (Spared c) (Stocked (g :: gs) c r)
    (peek (m := m) g look) fun _ => Stocked (g :: gs) c r :=
  fun _ h => (peek_untouched h.1 look).imp (fun _ _ => h.of_untouched) fun _ _ he => he ▸ h

theorem stocked_setParent (p parent : PageId) : Ensures (Spared c) (Stocked gs c r)
    (setParent (m := m) p parent) fun _ => Stocked gs c r :=
  (stocked_fetch .write p).bind fun _ => .of_and fun hw =>
    stocked_holding (stocked_edit List.mem_cons_self hw _)

theorem stocked_persistRoot : Ensures (Spared c) (Stocked gs c r) (t.persistRoot (m := m))
    fun _ => Stocked gs c r := by
  rw [persistRoot]
  split
  · exact stocked_pure ()
  · exact stocked_update _ _

/-! ## What an insertion takes -/

/-- A leaf that splits takes a page. -/
theorem stocked_insertIntoLeaf (hw : g.mode = .write) (key : Key) (row : RowId) :
    Ensures (Spared c) (Stocked (g :: gs) c (r + 1)) (t.insertIntoLeaf (m := m) g key row)
      fun _ => Stocked gs c r := by
  refine stocked_holding (.get_bind fun pool => ?_)
  refine (stocked_lift _).bind fun leaf => (stocked_lift _).bind fun place => ?_
  have hless : ∀ pool : Pool n m, pool.Stocked (g :: gs) c (r + 1) → pool.Stocked (g :: gs) c r :=
    fun _ h => h.of_le (Nat.le_succ r)
  cases place with
  | found i => exact .of_pure hless
  | missing i =>
    dsimp only
    split
    · refine .of_imp hless ((stocked_lift _).bind fun leaf => ?_)
      exact (stocked_put List.mem_cons_self hw _).bind fun _ => stocked_pure _
    · refine stocked_newPage.bind fun s => .of_and fun hws => stocked_holding ?_
      refine (stocked_lift _).bind fun leaf => (stocked_lift _).bind fun halves => ?_
      refine (stocked_put (.tail _ List.mem_cons_self) hw _).bind fun _ => ?_
      refine (stocked_put List.mem_cons_self hws _).bind fun _ => ?_
      exact (stocked_lift _).bind fun _ => stocked_pure _

theorem stocked_insertChild (hw : g.mode = .write) (separator : Key) (right : PageId) :
    Ensures (Spared c) (Stocked (g :: gs) c (r + 1)) (t.insertChild (m := m) g separator right)
      fun _ => Stocked gs c r := by
  refine stocked_holding (.get_bind fun pool => ?_)
  refine (stocked_lift _).bind fun node => (stocked_lift _).bind fun i => ?_
  dsimp only
  split
  · refine .of_imp (fun _ h => h.of_le (Nat.le_succ r)) ((stocked_lift _).bind fun node => ?_)
    exact (stocked_put List.mem_cons_self hw _).bind fun _ => stocked_pure _
  · refine stocked_newPage.bind fun s => .of_and fun hws => stocked_holding ?_
    refine (stocked_lift _).bind fun node => (stocked_lift _).bind fun halves => ?_
    refine (stocked_put (.tail _ List.mem_cons_self) hw _).bind fun _ => ?_
    refine (stocked_put List.mem_cons_self hws _).bind fun _ => ?_
    exact (stocked_lift _).bind fun _ => stocked_pure _

theorem stocked_insertIntoInternal (p : PageId) (separator : Key) (right : PageId) :
    Ensures (Spared c) (Stocked gs c (r + 1)) (t.insertIntoInternal (m := m) p separator right)
      fun _ => Stocked gs c r := by
  refine (stocked_fetch .write p).bind fun g => .of_and fun hw => ?_
  refine (stocked_insertChild t hw separator right).bind fun done => ?_
  obtain ⟨done, moved⟩ := done
  cases done with
  | duplicate => exact stocked_pure _
  | inserted => exact stocked_pure _
  | split separator sibling =>
    exact (Ensures.forM moved fun child => stocked_setParent child sibling).bind fun _ =>
      stocked_pure _

/-- **Below a node** an insertion takes a page for each level at most. -/
theorem stocked_insertBelow (key : Key) (row : RowId) (fuel : Nat) (p : PageId) :
    Ensures (Spared c) (Stocked gs c (r + fuel)) (t.insertBelow (m := m) key row fuel p)
      fun _ => Stocked gs c r := by
  induction fuel generalizing p r with
  | zero => exact .of_throw fun _ h => h.spared _
  | succ fuel ih =>
    refine (stocked_fetch .write p).bind fun g => .of_and fun hw => ?_
    refine (stocked_peek _).bind fun way => ?_
    cases way with
    | none =>
      refine .of_imp (fun _ h => h.of_le ?_) (stocked_insertIntoLeaf t hw key row)
      omega
    -- the page that this level may take is kept while the level below works
    | some way =>
      have hbelow := ih (r := r + 1) way.2
      rw [Nat.succ_add_eq_add_succ] at hbelow
      refine .modify_bind (fun _ h => h.release) (hbelow.bind fun done => ?_)
      cases done with
      | duplicate => exact .of_pure fun _ h => h.of_le (Nat.le_succ r)
      | inserted => exact .of_pure fun _ h => h.of_le (Nat.le_succ r)
      | split separator right => exact stocked_insertIntoInternal t p separator right

theorem stocked_newLeaf (key : Key) (row : RowId) : Ensures (Spared c) (Stocked gs c (r + 1))
    (t.newLeaf (m := m) key row) fun _ => Stocked gs c r := by
  refine stocked_newPage.bind fun g => .of_and fun hw => stocked_holding ?_
  refine (stocked_lift _).bind fun leaf => ?_
  exact (stocked_put List.mem_cons_self hw _).bind fun _ => stocked_pure _

theorem stocked_newRoot (left : PageId) (separator : Key) (right : PageId) :
    Ensures (Spared c) (Stocked gs c (r + 1)) (t.newRoot (m := m) left separator right)
      fun _ => Stocked gs c r := by
  refine stocked_newPage.bind fun g => .of_and fun hw => stocked_holding ?_
  refine (stocked_lift _).bind fun node => ?_
  exact (stocked_put List.mem_cons_self hw _).bind fun _ => stocked_pure _

/-- An insertion that may go deeper does the same. -/
theorem insertBelow_within {fuel fuel' : Nat} (hle : fuel ≤ fuel') (p : PageId) :
    Action.Within (t.insertBelow key row fuel p : Action (Pool n m) Insertion)
      (t.insertBelow key row fuel' p) := by
  induction fuel generalizing fuel' p with
  | zero => exact fun pool => .inl ⟨pool, rfl⟩
  | succ fuel ih =>
    obtain ⟨fuel', rfl⟩ : ∃ k, fuel' = k + 1 := ⟨fuel' - 1, by omega⟩
    refine (Action.Within.refl _).bind fun g => (Action.Within.refl _).bind fun way => ?_
    cases way with
    | none => exact .refl _
    | some way =>
      exact (Action.Within.refl _).bind fun _ =>
        (ih (Nat.le_of_succ_le_succ hle) way.2).bind fun done => .refl _

/-- An insertion into a whole tree goes no deeper than the tree. -/
theorem Stands.insertBelow_eq {d : TreePlan} {h : Nat} {t : Shape h} (ht : tree.Stands pool gs d t)
    (hroom : Room gs 2) (hkey : key.length = tree.keySize) :
    tree.insertBelow key row descentBound t.page pool =
      tree.insertBelow key row (h + 1) t.page pool := by
  refine (tree.insertBelow_within (Nat.succ_le_of_lt ht.height_lt) _ pool).resolve_left ?_
  rintro ⟨pool', hstop⟩
  have hends := insertBelow_ends ht.follows (hkey.trans ht.follows.width) (Nat.lt_succ_self h)
    ht.has ht.within ht.sized (Nat.zero_le _) (ht.rank_lt hkey) row
  rw [hstop] at hends
  cases (hends hroom).1

end Tree

/-! ## Whole trees -/

namespace Index

theorem stocked_onPool {act : Action (Pool n m) α} {P : Pool n m → Prop} {Q : α → Pool n m → Prop}
    (h : Ensures (Spared c) P act Q) : Ensures (Stops (Spared c)) (fun x : Index n m => P x.pool)
      (onPool act) fun a x => Q a x.pool :=
  fun x hx => (onPool_ends (h x.pool hx)).mono fun _ _ hs => hs.2

theorem stocked_setRoot (root : PageId) : Ensures (Stops (Spared c))
    (fun x : Index n m => x.pool.Stocked gs c r) (setRoot root) fun _ x => x.pool.Stocked gs c r :=
  .modify_bind (fun _ => id) (.get_bind fun _ => stocked_onPool (Tree.stocked_persistRoot _))

/-- A root that grows takes a page. -/
theorem stocked_growRoot (separator : Key) (right : PageId) : Ensures (Stops (Spared c))
    (fun x : Index n m => x.pool.Stocked gs c (r + 1)) (growRoot separator right)
      fun _ x => x.pool.Stocked gs c r :=
  .get_bind fun _ => (stocked_onPool (Tree.stocked_newRoot _ _ separator right)).bind fun root =>
    (stocked_onPool (Tree.stocked_setParent _ _)).bind fun _ =>
      (stocked_onPool (Tree.stocked_setParent _ _)).bind fun _ => stocked_setRoot root

/-- **An insertion** takes no more pages than the tree has levels, and one for a new root. So it
takes no more than the tree has pages, and one. -/
theorem Occupies.insert_spends (hx : x.Occupies gs l E) (hroom : Room gs 2)
    (hkey : key.length = x.tree.keySize) (row : RowId) :
    Ends (Stops (Spared (x.pool.members.card + l.length + 1)))
      (fun _ y => y.pool.members.card ≤ x.pool.members.card + l.length + 1)
      (insert key row x) := by
  generalize hc : x.pool.members.card + l.length + 1 = c
  rcases hx.shape with ⟨hroot, -, rfl⟩ | ⟨d, h, t, ht, -, rfl⟩
  · have hstock : x.pool.Stocked gs c (0 + 1) := ⟨hx.sound, hc.le⟩
    rw [insert_of_empty hkey hroot]
    refine Ends.bind (stocked_onPool (x.tree.stocked_newLeaf key row) x hstock) fun root y hy => ?_
    exact Ends.bind (stocked_setRoot root y hy) fun _ _ hz => hz.2
  · have hlevels := ht.within.height_le
    have hstock : x.pool.Stocked gs c (0 + 1 + (h + 1)) := ⟨hx.sound, by omega⟩
    have hbelow := x.tree.stocked_insertBelow key row (h + 1) t.page x.pool hstock
    rw [← ht.insertBelow_eq hroom hkey, ← ht.root] at hbelow
    rw [insert_of_root hkey ht.not_isEmpty]
    refine Ends.bind (onPool_ends hbelow) fun done y hy => ?_
    cases done with
    | duplicate => exact hy.2.2.trans' (Nat.le_add_right _ _)
    | inserted => exact hy.2.2.trans' (Nat.le_add_right _ _)
    | split separator right =>
      exact Ends.bind (stocked_growRoot separator right y hy.2) fun _ _ hz => hz.2

end Index

/-! ## Recorded roots -/

/-- A root that grows does so without its record, up to a note at the end. -/
theorem Tree.growRoot_of_unrecorded {separator : Key} {right : PageId} {y₀ : Index n m}
    (hrun : Index.growRoot separator right ⟨tree.unrecorded, pool⟩ = .ok () y₀)
    (hset : ∃ z, Index.setRoot y₀.tree.root ⟨tree, y₀.pool⟩ = .ok () z) :
    ∃ y, Index.growRoot separator right ⟨tree, pool⟩ = .ok () y := by
  rw [Index.growRoot, Action.get_bind] at hrun ⊢
  dsimp only at hrun ⊢
  obtain ⟨root, x₁, hroot, hrun⟩ := Action.bind_eq_ok_iff.1 hrun
  obtain ⟨pool₁, hroot₁, rfl⟩ := Index.of_onPool hroot
  obtain ⟨⟨⟩, x₂, hleft, hrun⟩ := Action.bind_eq_ok_iff.1 hrun
  obtain ⟨pool₂, hleft₁, rfl⟩ := Index.of_onPool hleft
  obtain ⟨⟨⟩, x₃, hright, hrun⟩ := Action.bind_eq_ok_iff.1 hrun
  obtain ⟨pool₃, hright₁, rfl⟩ := Index.of_onPool hright
  rw [Index.setRoot_eq_ok (x := ⟨tree.unrecorded, pool₃⟩) rfl root] at hrun
  cases hrun
  obtain ⟨z, hset⟩ := hset
  have hroot' : tree.newRoot tree.root separator right pool = .ok root pool₁ := hroot₁
  have hleft' : Tree.setParent tree.root root pool₁ = .ok () pool₂ := hleft₁
  refine ⟨z, ?_⟩
  rw [Action.bind_of_ok (Index.onPool_eq_ok hroot'), Action.bind_of_ok (Index.onPool_eq_ok hleft'),
    Action.bind_of_ok (Index.onPool_eq_ok hright₁)]
  exact hset

/-- **An insertion that returns without the record** returns with it, if the new root can be
recorded. -/
theorem Tree.insert_of_unrecorded {added : Bool} {y₀ : Index n m}
    (hrun : Index.insert key row ⟨tree.unrecorded, pool⟩ = .ok added y₀)
    (hset : ∃ z, Index.setRoot y₀.tree.root ⟨tree, y₀.pool⟩ = .ok () z) :
    ∃ y, Index.insert key row ⟨tree, pool⟩ = .ok added y := by
  have hkey : key.length = tree.keySize := Index.width_of_insert hrun
  by_cases hempty : tree.isEmpty = true
  · have hroot : tree.root = .none := Tree.isEmpty_iff.1 hempty
    rw [Index.insert_of_empty (x := ⟨tree.unrecorded, pool⟩) hkey hroot] at hrun
    obtain ⟨root, x₂, hleaf, hrun⟩ := Action.bind_eq_ok_iff.1 hrun
    obtain ⟨pool₁, hleaf₁, rfl⟩ := Index.of_onPool hleaf
    rw [Action.bind_of_ok (Index.setRoot_eq_ok (x := ⟨tree.unrecorded, pool₁⟩) rfl root)] at hrun
    cases hrun
    obtain ⟨z, hset⟩ := hset
    have hleaf' : tree.newLeaf key row pool = .ok root pool₁ := hleaf₁
    refine ⟨z, ?_⟩
    rw [Index.insert_of_empty (x := ⟨tree, pool⟩) hkey hroot,
      Action.bind_of_ok (Index.onPool_eq_ok hleaf')]
    exact (Action.bind_of_ok hset).trans rfl
  · rw [Index.insert_of_root (x := ⟨tree.unrecorded, pool⟩) hkey hempty] at hrun
    obtain ⟨done, x₂, hbelow, hrun⟩ := Action.bind_eq_ok_iff.1 hrun
    obtain ⟨pool₁, hbelow₁, rfl⟩ := Index.of_onPool hbelow
    have hbelow' : tree.insertBelow key row Tree.descentBound tree.root pool = .ok done pool₁ := by
      rw [← Tree.insertBelow_unrecorded]
      exact hbelow₁
    have hstart := (Index.insert_of_root (x := ⟨tree, pool⟩) hkey hempty row).trans
      (Action.bind_of_ok (Index.onPool_eq_ok hbelow'))
    cases done with
    | duplicate =>
      cases hrun
      exact ⟨⟨tree, pool₁⟩, hstart⟩
    | inserted =>
      cases hrun
      exact ⟨⟨tree, pool₁⟩, hstart⟩
    | split separator right =>
      obtain ⟨⟨⟩, x₃, hgrow, hrun⟩ := Action.bind_eq_ok_iff.1 hrun
      cases hrun
      obtain ⟨y, hgrow'⟩ := Tree.growRoot_of_unrecorded hgrow hset
      exact ⟨y, hstart.trans ((Action.bind_of_ok hgrow').trans rfl)⟩

/-! ## Insertions that return -/

namespace Index

/-- **An index that can grow**: its record, if it has one, has an entry in a roots page that is none
of its own pages and that nobody holds. -/
structure CanGrow (x : Index n m) (gs : List (Guard n)) (l : List PageId)
    (E : List (Key × RowId)) : Prop where
  occupies : x.Occupies gs l E
  apart : x.RecordsApart l
  record : ∀ r, x.tree.registration = some r → (∀ g ∈ gs, g.page ≠ r.page) ∧
    ∃ b, x.pool.pages r.page = some b ∧ Roots.Distinct b ∧ Roots.get? b r.index ≠ none

/-- So it can after an insertion that returned. -/
theorem CanGrow.of_insert (hx : x.CanGrow gs l E) {added : Bool}
    (hrun : insert key row x = .ok added y) :
    (∃ l' E', y.CanGrow gs l' E') ∧ y.tree.keySize = x.tree.keySize := by
  obtain ⟨new, E', hleaves, -⟩ := hx.occupies.of_insert hx.apart hrun
  obtain ⟨root, htree⟩ := hleaves.tree
  refine ⟨⟨new, E', hleaves.occupies, hleaves.recordsApart hx.apart, fun r hr => ?_⟩,
    by rw [htree]⟩
  rw [hleaves.record] at hr
  obtain ⟨hfree, b, hb, hdistinct, hget⟩ := hx.record r hr
  obtain ⟨b', hb', ⟨-, rfl⟩ | hset⟩ := hleaves.roots r b hr hb
  · exact ⟨hfree, b', hb', hdistinct, hget⟩
  · obtain ⟨hdistinct', hget'⟩ := hdistinct.get?_set hset
    refine ⟨hfree, b', hb', hdistinct', ?_⟩
    rw [hget', if_pos rfl]
    exact Option.some_ne_none _

/-- An index takes up no more pages than are allocated. -/
theorem Occupies.length_le (hx : x.Occupies gs l E) : l.length ≤ x.pool.members.card := by
  rcases hx.shape with ⟨-, -, rfl⟩ | ⟨d, h, t, ht, -, rfl⟩
  · exact Nat.zero_le _
  · exact Pool.length_le_card ht.has.nodup ht.has.stored.allocated

/-- **An insertion returns** when two frames are free of guards, and when the disk has more pages to
spare than the tree takes up. -/
theorem CanGrow.insert_eq_ok (hx : x.CanGrow gs l E) (hroom : Room gs 2)
    (hkey : key.length = x.tree.keySize) (row : RowId)
    (hspare : x.pool.members.card + l.length + 1 < maxLogicalPages) :
    ∃ added y, insert key row x = .ok added y ∧
      y.pool.members.card ≤ x.pool.members.card + l.length + 1 := by
  obtain ⟨tree, pool⟩ := x
  have hbare := hx.occupies.by_true.unrecorded
  have hends := hbare.insert_ends tree.unrecorded.maintains_true rfl hkey row
  have hspends := hbare.occupies.insert_spends hroom hkey row
  cases hrun : insert key row ⟨tree.unrecorded, pool⟩ with
  | error e y =>
    rw [hrun] at hends hspends
    obtain ⟨-, -, hfull⟩ := hends hroom
    have hcard : y.pool.members.card ≤ pool.members.card + l.length + 1 := hspends
    rw [hfull, Finset.card_range] at hcard
    exact absurd hspare (Nat.not_lt_of_le hcard)
  | ok added y₀ =>
    rw [hrun] at hends hspends
    have hs₀ : y₀.pool.Sound gs ∧ ∃ new, Trades pool.pages y₀.pool.pages l new := by
      rcases hends.2 with ⟨-, -, new, hy, htrades⟩ | ⟨-, _, _, -, -, -, new, hy, htrades⟩
      · exact ⟨hy.sound, new, htrades⟩
      · exact ⟨hy.sound, new, htrades⟩
    obtain ⟨hs₀, new, htrades⟩ := hs₀
    have hset : ∃ z, setRoot y₀.tree.root ⟨tree, y₀.pool⟩ = .ok () z := by
      have hplace : ∀ r, ({ tree with root := y₀.tree.root } : Tree).registration = some r →
          (∀ g ∈ gs, g.page ≠ r.page) ∧ ∃ b, y₀.pool.pages r.page = some b ∧
            (Roots.count b < maxIndexRoots ∨ Roots.get? b r.index ≠ none) := fun r hr => by
        obtain ⟨hfree, b, hb, -, hget⟩ := hx.record r hr
        obtain ⟨hout, hne⟩ := hx.apart r hr
        exact ⟨hfree, b, (htrades.kept hout hne).2.trans hb, .inr hget⟩
      obtain ⟨pool', hpersist, -⟩ := Tree.persistRoot_eq_ok hs₀ (hroom.mono (by omega)) hplace
      refine ⟨⟨{ tree with root := y₀.tree.root }, pool'⟩, ?_⟩
      rw [setRoot, Action.modify_bind, Action.get_bind]
      exact onPool_eq_ok hpersist
    obtain ⟨y, hinsert⟩ := Tree.insert_of_unrecorded hrun hset
    refine ⟨added, y, hinsert, ?_⟩
    -- the note at the end allocates nothing
    obtain ⟨-, y₁, hrun₁, -, hnotes⟩ := Tree.echo_insert hinsert
    obtain ⟨-, rfl⟩ := EStateM.Result.ok.inj (hrun₁.symm.trans hrun)
    obtain ⟨hs, -, hallocated, -⟩ := hnotes.pages hs₀
    rw [members_eq_of_none hs₀.space hs.space fun q => not_iff_not.1 (hallocated q)]
    exact hspends

end Index

/-- **Insertions return**, one after the other, when two frames are free of guards, and when the
disk has so many pages that those which are allocated can be doubled for each of them. -/
theorem Index.CanGrow.inserts_eq_ok (entries : List (Key × RowId)) (hx : x.CanGrow gs l E)
    (hroom : Room gs 2) (hkeys : ∀ e ∈ entries, e.1.length = x.tree.keySize)
    (hspare : 2 ^ entries.length * (x.pool.members.card + 1) ≤ maxLogicalPages) :
    ∃ y, (TreeEdit.inserts entries).forM TreeEdit.run x = .ok () y ∧
      y.pool.members.card + 1 ≤ 2 ^ entries.length * (x.pool.members.card + 1) := by
  induction entries generalizing x l E with
  | nil => exact ⟨x, rfl, by simp⟩
  | cons e entries ih =>
    obtain ⟨hkey, hkeys⟩ := List.forall_mem_cons.1 hkeys
    rw [List.length_cons, pow_succ, mul_assoc] at hspare ⊢
    have hpages := hx.occupies.length_le
    have htwice : 2 * (x.pool.members.card + 1) ≤
        2 ^ entries.length * (2 * (x.pool.members.card + 1)) :=
      Nat.le_mul_of_pos_left _ (Nat.two_pow_pos _)
    obtain ⟨added, x₁, hinsert, hcard⟩ := hx.insert_eq_ok hroom hkey e.2 (by omega)
    obtain ⟨⟨l₁, E₁, hx₁⟩, hwidth⟩ := hx.of_insert hinsert
    have hless : 2 ^ entries.length * (x₁.pool.members.card + 1) ≤
        2 ^ entries.length * (2 * (x.pool.members.card + 1)) := Nat.mul_le_mul_left _ (by omega)
    obtain ⟨y, hrun, hmost⟩ := ih hx₁ (fun d hd => (hkeys d hd).trans hwidth.symm)
      (hless.trans hspare)
    have hedit : (TreeEdit.insert e.1 e.2).run x = .ok () x₁ :=
      (Action.bind_of_ok hinsert).trans rfl
    exact ⟨y, (Action.bind_of_ok hedit).trans hrun, hmost.trans hless⟩

/-- A few insertions return while one page is allocated at most. -/
theorem Index.CanGrow.inserts_few {entries : List (Key × RowId)} (hx : x.CanGrow gs l E)
    (hroom : Room gs 2) (hkeys : ∀ e ∈ entries, e.1.length = x.tree.keySize)
    (hfew : entries.length ≤ 20) (hcard : x.pool.members.card ≤ 1) :
    ∃ y, (TreeEdit.inserts entries).forM TreeEdit.run x = .ok () y ∧
      y.pool.members ≠ Finset.range maxLogicalPages := by
  have hspare : 2 ^ entries.length * (x.pool.members.card + 1) < maxLogicalPages :=
    calc 2 ^ entries.length * (x.pool.members.card + 1)
        ≤ 2 ^ 20 * 2 :=
          Nat.mul_le_mul (Nat.pow_le_pow_right Nat.two_pos hfew) (Nat.succ_le_succ hcard)
      _ < maxLogicalPages := by decide
  obtain ⟨y, hrun, hmost⟩ := hx.inserts_eq_ok entries hroom hkeys hspare.le
  refine ⟨y, hrun, fun hfull => ?_⟩
  rw [hfull, Finset.card_range] at hmost
  exact Nat.not_succ_le_self _ (hmost.trans hspare.le)

namespace Planting

variable {config : PoolConfig} {disk : SpaceConfig} {v : Volume} {o : OpenPool} {order : KeyOrder}
  {keySize : Nat} {limits : TreeConfig}

/-- On a new file with two frames, a tree without a record takes a few entries. -/
theorem inserts_fresh (hconfig : config.validate = .ok ()) (hdisk : disk.validate = .ok ())
    (hv : v.openFile = .ok {}) (ho : OpenPool.start config disk v = .ok o)
    (htwo : 2 ≤ config.poolSize) (hcreate : Tree.create order keySize limits = .ok tree)
    (entries : List (Key × RowId)) (hkeys : ∀ e ∈ entries, e.1.length = keySize)
    (hfew : entries.length ≤ 20) :
    tree.root = .none ∧ Planting.run ⟨order, keySize, limits, none⟩ o.pool = .ok tree o.pool ∧
      ∃ x, (TreeEdit.inserts entries).forM TreeEdit.run ⟨tree, o.pool⟩ = .ok () x ∧
        x.pool.members ≠ Finset.range maxLogicalPages ∧ (∃ root, x.tree = { tree with root }) ∧
        ∃ l E, x.CarriesBy x.tree.Uniform o.guards l E
          ((TreeEdit.inserts entries).foldl TreeEdit.after ∅) := by
  obtain ⟨o', hstart, -, hreflects⟩ := OpenPool.start_fresh hconfig hdisk hv
  obtain rfl : o = o' := Except.ok.inj (ho.symm.trans hstart)
  obtain ⟨-, hroot, -, hwidth, hnone⟩ := Tree.accepted_of_create hcreate
  have hplan := Planting.run_unrecorded ⟨order, keySize, limits, none⟩ hcreate rfl o.pool
  have hempty : Index.CarriesBy tree.Uniform ⟨tree, o.pool⟩ o.guards [] [] ∅ :=
    .of_planting hreflects.sound hplan hroot
  have hgrow : Index.CanGrow ⟨tree, o.pool⟩ o.guards [] [] :=
    ⟨hempty.carries.occupies, hempty.apart, fun r hr => by cases hnone.symm.trans hr⟩
  have hcard : o.pool.members.card ≤ 1 := by
    rw [OpenPool.members_fresh hconfig hdisk hv ho]
    exact Nat.zero_le 1
  obtain ⟨x, hrun, hspare⟩ := hgrow.inserts_few (OpenPool.room_fresh hconfig hdisk hv ho htwo)
    (fun e he => (hkeys e he).trans hwidth.symm) hfew hcard
  obtain ⟨hx, htree⟩ := hempty.uniform_of_edits _ hrun
  exact ⟨hroot, hplan, x, hrun, hspare, htree, hx⟩

/-- So does a tree whose root is recorded in the first page of the file. -/
theorem inserts_recorded (hconfig : config.validate = .ok ()) (hdisk : disk.validate = .ok ())
    (hv : v.openFile = .ok {}) (ho : OpenPool.start config disk v = .ok o)
    (htwo : 2 ≤ config.poolSize) (hcreate : Tree.create order keySize limits = .ok tree)
    (index : UInt32) (entries : List (Key × RowId)) (hkeys : ∀ e ∈ entries, e.1.length = keySize)
    (hfew : entries.length ≤ 20) :
    ∃ (r : Registration) (used : OpenPool) (planted : Tree) (pool : Pool used.frames used.slots)
      (x : Index used.frames used.slots), o.after [.newPage, .drop 0] = used ∧
      used.pool.pages r.page = some (Block.zero pageSize) ∧ Room used.guards config.poolSize ∧
      Planting.run ⟨order, keySize, limits, some r⟩ used.pool = .ok planted pool ∧
      (TreeEdit.inserts entries).forM TreeEdit.run ⟨planted, pool⟩ = .ok () x ∧
      x.tree.limits = tree.limits ∧ ∃ l E, x.CarriesBy x.tree.Uniform used.guards l E
        ((TreeEdit.inserts entries).foldl TreeEdit.after ∅) := by
  obtain ⟨hframes, -⟩ := OpenPool.guards_fresh hconfig hdisk hv ho
  have hroom : Room ([] : List (Guard o.frames)) config.poolSize := by simp [Room, hframes]
  obtain ⟨p, pool₁, hafter, hs₁, hpages₁⟩ :=
    OpenPool.first_page hconfig hdisk hv ho (Nat.le_of_succ_le htwo)
  have hzero : pool₁.pages p = some (Block.zero pageSize) := by rw [hpages₁, Function.update_self]
  obtain ⟨-, hroot, -, hwidth, -⟩ := Tree.accepted_of_create hcreate
  obtain ⟨pool₂, hplant, hs₂, b, hset, hpages₂⟩ :=
    Planting.run_eq_ok ⟨order, keySize, limits, some ⟨p, index⟩⟩ hs₁
      (hroom.mono (Nat.le_of_succ_le htwo)) hcreate rfl (List.forall_mem_nil _) hzero
      (Roots.get?_zero index) (by rw [Roots.count_zero]; decide)
  let planted : Tree := { tree with registration := some ⟨p, index⟩ }
  have hempty : Index.CarriesBy planted.Uniform ⟨planted, pool₂⟩ [] [] [] ∅ :=
    .of_planting hs₁ hplant hroot
  have hgrow : Index.CanGrow ⟨planted, pool₂⟩ [] [] [] := by
    refine ⟨hempty.carries.occupies, hempty.apart, ?_⟩
    rintro _ ⟨⟩
    obtain ⟨hdistinct, hget⟩ := Roots.distinct_zero.get?_set hset
    refine ⟨List.forall_mem_nil _, b, ?_, hdistinct, ?_⟩
    · rw [hpages₂, Function.update_self]
    · rw [hget, if_pos rfl]
      exact Option.some_ne_none _
  have hcard : pool₂.members.card ≤ 1 := by
    refine card_members_le (l := [p]) hs₂.space fun q hq => List.mem_singleton.2 ?_
    rw [hpages₂, hpages₁, Function.update_idem] at hq
    by_contra hne
    exact hq (Function.update_of_ne hne ..)
  obtain ⟨x, hrun, -⟩ := hgrow.inserts_few (hroom.mono htwo)
    (fun e he => (hkeys e he).trans hwidth.symm) hfew hcard
  obtain ⟨hx, root, htree⟩ := hempty.uniform_of_edits _ hrun
  have hlimits : x.tree.limits = tree.limits := by rw [htree]
  exact ⟨⟨p, index⟩, ⟨_, _, pool₁, _⟩, planted, pool₂, x, hafter, hzero, hroom, hplant, hrun,
    hlimits, hx⟩

end Planting

/-! ## A tree with four keys -/

/-- Four entries, which are too many for a leaf with room for three. -/
def tens : List (Key × RowId) :=
  [([10], ⟨⟨5⟩, 1⟩), ([20], ⟨⟨5⟩, 2⟩), ([30], ⟨⟨5⟩, 3⟩), ([40], ⟨⟨5⟩, 4⟩)]

/-- A pool with two frames, in which a tree gets them. -/
theorem Index.exists_tens : ∃ o tree x,
    OpenPool.start ⟨2, .lru⟩ ⟨1⟩ .missing = .ok o ∧
    Tree.create .bytewise 1 ⟨some 3, some 3⟩ = .ok tree ∧
    Planting.run ⟨.bytewise, 1, ⟨some 3, some 3⟩, none⟩ o.pool = .ok tree o.pool ∧
    tree.root = .none ∧ (TreeEdit.inserts tens).forM TreeEdit.run ⟨tree, o.pool⟩ = .ok () x ∧
    x.pool.members ≠ Finset.range maxLogicalPages ∧
    x.tree.limits = ⟨3, 3⟩ ∧ x.tree.keySize = 1 ∧
    ∃ l E, x.CarriesBy x.tree.Uniform o.guards l E
      ((TreeEdit.inserts tens).foldl TreeEdit.after ∅) := by
  obtain ⟨o, hstart, -⟩ := @OpenPool.start_fresh ⟨2, .lru⟩ ⟨1⟩ rfl rfl .missing rfl
  obtain ⟨tree, hcreate⟩ : ∃ t, Tree.create .bytewise 1 ⟨some 3, some 3⟩ = .ok t := ⟨_, rfl⟩
  obtain ⟨hroot, hplan, x, hrun, hspare, ⟨root, htree⟩, hx⟩ :=
    Planting.inserts_fresh rfl rfl rfl hstart (Nat.le_refl 2) hcreate tens (by decide) (by decide)
  have hlimits : x.tree.limits = ⟨3, 3⟩ := by
    rw [htree]
    exact Tree.limits_of_create hcreate
  have hwidth : x.tree.keySize = 1 := by
    rw [htree]
    exact (Tree.accepted_of_create hcreate).2.2.2.1
  exact ⟨o, tree, x, hstart, hcreate, hplan, hroot, hrun, hspare, hlimits, hwidth, hx⟩

/-- A new file in which a tree with a record gets them. -/
theorem Planting.tens_recorded {config : PoolConfig} {disk : SpaceConfig}
    (hconfig : config.validate = .ok ()) (hdisk : disk.validate = .ok ()) {v : Volume}
    (hv : v.openFile = .ok {}) {o : OpenPool} (ho : OpenPool.start config disk v = .ok o)
    (htwo : 2 ≤ config.poolSize) (index : UInt32) :
    ∃ (r : Registration) (used : OpenPool) (planted : Tree) (pool : Pool used.frames used.slots)
      (x : Index used.frames used.slots), o.after [.newPage, .drop 0] = used ∧
      used.pool.pages r.page = some (Block.zero pageSize) ∧ Room used.guards config.poolSize ∧
      Planting.run ⟨.bytewise, 1, ⟨some 3, some 3⟩, some r⟩ used.pool = .ok planted pool ∧
      (TreeEdit.inserts tens).forM TreeEdit.run ⟨planted, pool⟩ = .ok () x ∧
      x.tree.HasLevels x.pool.pages 2 := by
  obtain ⟨tree, hcreate⟩ : ∃ t, Tree.create .bytewise 1 ⟨some 3, some 3⟩ = .ok t := ⟨_, rfl⟩
  obtain ⟨r, used, planted, pool, x, hused, hzero, hroom, hplant, hrun, hlimits, l, E, hx⟩ :=
    inserts_recorded hconfig hdisk hv ho htwo hcreate index tens (by decide) (by decide)
  have hlevels := hx.hasLevels_two (hroom.mono (Nat.le_of_succ_le htwo))
    (hlimits.trans (Tree.limits_of_create hcreate)) (by decide) (by decide)
  exact ⟨r, used, planted, pool, x, hused, hzero, hroom, hplant, hrun, hlevels⟩

end PageStore
