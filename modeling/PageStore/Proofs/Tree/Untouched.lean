import PageStore.Proofs.Tree.Recorded
import PageStore.Proofs.Tree.Run

/-!
# Insertions that leave no trace

A node that has to split takes a new page before it changes. So an insertion that fails at its first
new page leaves every page as it was: `Index.Keeps.insert_untouched`. Only where one node has split
already is it too late for that. A frame to split in is there for every node if it is there for one,
so this happens only when the disk runs full in between: `Index.Keeps.insert_stops`.
-/

namespace PageStore

open Pool

variable {n m : Nat} {α : Type} {pool pool' : Pool n m} {gs : List (Guard n)} {g : Guard n}
  {P : PageMap} {p : PageId} {tree : Tree} {x : Index n m} {key : Key} {row : RowId}
  {E : List (Key × RowId)}

/-! ## Stopping without a trace -/

namespace Pool

/-- What stops leaves every page as it was. -/
def Untouched (gs : List (Guard n)) (P : PageMap) (_ : Halt) (pool : Pool n m) : Prop :=
  pool.Sound gs ∧ pool.pages = P

theorem holding_untouched {Q : α → Prop} {act : Action (Pool n m) α}
    (h : Ends (Untouched (g :: gs) P) (fun a pool' => pool'.Sound (g :: gs) ∧ Q a) (act pool)) :
    Ends (Untouched gs P) (fun a pool' => pool'.Sound gs ∧ Q a) (holding g act pool) := by
  cases hr : act pool with
  | ok a pool' =>
    rw [hr] at h
    obtain ⟨hs, -⟩ := Sound.release h.1
    exact .of_eq_ok (Action.atEnd_ok hr) ⟨hs, h.2⟩
  | error e pool' =>
    rw [hr] at h
    obtain ⟨hs, hpages⟩ := Sound.release h.1
    exact .of_eq_error (Action.atEnd_error hr) ⟨hs, hpages.trans h.2⟩

theorem liftM_untouched (hs : pool.Sound gs) (r : Except Halt α) :
    Ends (Untouched gs pool.pages) (fun _ pool' => pool' = pool)
      ((liftM r : Action (Pool n m) α) pool) := by
  cases r with
  | ok a => exact rfl
  | error e => exact ⟨hs, rfl⟩

/-- A node under a guard has no page to split into: every page of the disk is allocated, or there is
no frame for a second guard. -/
def Cramped (gs : List (Guard n)) (pool : Pool n m) : Prop :=
  pool.members = Finset.range maxLogicalPages ∨ ¬Room gs 2

theorem Cramped.of_pages (h : Cramped gs pool) (hs : pool.space.Sound) (hs' : pool'.space.Sound)
    (hpages : pool'.pages = pool.pages) : Cramped gs pool' :=
  h.imp_left fun hfull => (members_eq_of_pages hs hs' hpages).trans hfull

/-- Without such a page nothing happens. -/
theorem Cramped.newPage_eq_error (h : Cramped gs pool) (hs : pool.Sound (g :: gs))
    (hw : g.mode = .write) :
    ∃ e pool', newPage pool = .error e pool' ∧ Untouched (g :: gs) pool.pages e pool' := by
  rcases hs.newPage_cases with ⟨s, pool', hnew, -⟩ | ⟨e, pool', hrun, hs', hpages, -⟩
  · obtain ⟨hdisk, hone⟩ := hs.of_newPage hnew
    have htwo := hs.room_of_write hw hone
    exact (h.elim hdisk fun hroom => hroom htwo).elim
  · exact ⟨_, pool', hrun, hs', hpages⟩

end Pool

/-! ## Below a node -/

namespace Tree

theorem fetch_untouched (hs : pool.Sound gs) (mode : Mode) (p : PageId) :
    Ends (Untouched gs pool.pages) (fun g pool' => g.mode = mode ∧ pool'.Sound (g :: gs) ∧
      pool'.pages = pool.pages) (fetch mode p pool) := by
  rcases hs.fetch_cases mode p with ⟨g, pool', hrun, -, hmode, hs', hpages⟩ |
    ⟨e, pool', hrun, hs', hpages, -⟩
  · have hfetch : fetch mode p pool = .ok g pool' := by rw [fetch, hrun]
    exact .of_eq_ok hfetch ⟨hmode, hs', hpages⟩
  · obtain ⟨e', hfetch⟩ := exists_fetch_eq_error hrun
    exact .of_eq_error hfetch ⟨hs', hpages⟩

theorem peek_untouched (hs : pool.Sound (g :: gs)) (look : Page → Except Halt α) :
    Ends (Untouched gs pool.pages) (fun _ pool' => pool' = pool) (peek g look pool) := by
  cases hlook : look (pool.bytes g) with
  | ok a => exact .of_eq_ok (peek_eq_ok look hlook) rfl
  | error e =>
    obtain ⟨hs', hpages⟩ := hs.release
    have hrun : peek g look pool = .error e (pool.release g) := by
      refine Action.onHalt_error ?_
      rw [Action.get_bind]
      exact Action.liftM_error hlook _
    exact .of_eq_error hrun ⟨hs', hpages⟩

/-- A leaf does not split where there is no page for that, and takes the entry whole or not at
all. -/
theorem insertIntoLeaf_untouched (hc : Cramped gs pool) (hs : pool.Sound (g :: gs))
    (hw : g.mode = .write) :
    Ends (Untouched gs pool.pages) (fun done pool' => pool'.Sound gs ∧ done.Fits)
      (tree.insertIntoLeaf g key row pool) := by
  refine holding_untouched ?_
  rw [Action.get_bind]
  refine Ends.bind (liftM_untouched hs _) ?_
  rintro leaf _ rfl
  refine Ends.bind (liftM_untouched hs _) ?_
  rintro place _ rfl
  cases place with
  | found i => exact ⟨hs, nofun⟩
  | missing i =>
    dsimp only
    by_cases hfit : leaf.size < leaf.maxSize
    · rw [if_pos hfit]
      refine Ends.bind (liftM_untouched hs _) ?_
      rintro leaf' _ rfl
      rw [Action.modify_bind]
      exact ⟨(hs.put List.mem_cons_self hw leaf'.page).1, nofun⟩
    · rw [if_neg hfit]
      obtain ⟨e, pool', hnew, huntouched⟩ := hc.newPage_eq_error hs hw
      exact .of_eq_error (Action.bind_of_error hnew) huntouched

/-- **Below a node** no node splits where there is no page for that, and an insertion that fails
leaves every page as it was. -/
theorem insertBelow_untouched (hc : Cramped gs pool) (hs : pool.Sound gs) (fuel : Nat)
    (p : PageId) :
    Ends (Untouched gs pool.pages) (fun done pool' => pool'.Sound gs ∧ done.Fits)
      (tree.insertBelow key row fuel p pool) := by
  induction fuel generalizing pool p with
  | zero => exact ⟨hs, rfl⟩
  | succ fuel ih =>
    rw [insertBelow]
    refine Ends.bind (fetch_untouched hs .write p) ?_
    rintro g pool₁ ⟨hw, hs₁, hpages₁⟩
    rw [← hpages₁]
    refine Ends.bind (peek_untouched hs₁ _) ?_
    rintro route _ rfl
    have hc₁ := hc.of_pages hs.space hs₁.space hpages₁
    cases route with
    | none => exact insertIntoLeaf_untouched hc₁ hs₁ hw
    | some way =>
      obtain ⟨hs₂, hpages₂⟩ := hs₁.release
      rw [← hpages₂]
      dsimp only
      rw [Action.modify_bind]
      refine Ends.bind (ih (hc₁.of_pages hs₁.space hs₂.space hpages₂) hs₂ way.2) ?_
      rintro done pool₃ ⟨hs₃, hfits⟩
      cases done with
      | duplicate => exact ⟨hs₃, hfits⟩
      | inserted => exact ⟨hs₃, hfits⟩
      | split separator right => exact absurd rfl (hfits separator right)

end Tree

/-- A new leaf is made, or every page is as it was. -/
theorem Tree.newLeaf_untouched (ha : tree.Accepted) (hkey : key.length = tree.keySize)
    (hs : pool.Sound gs) :
    Ends (Untouched gs pool.pages) (fun _ _ => True) (tree.newLeaf key row pool) := by
  rcases hs.newPage_cases with ⟨g, pool₁, hnew, -⟩ | ⟨e, pool₁, hnew, hs₁, hpages₁, -⟩
  · obtain ⟨node, hinsert, -⟩ := Tree.leaf_eq_ok ha hkey g.page row
    exact .of_eq_ok (Tree.newLeaf_of_newPage hnew hinsert) trivial
  · exact .of_eq_error (Action.bind_of_error hnew) ⟨hs₁, hpages₁⟩

/-! ## The whole tree -/

namespace Index

/-- **Where no node can split**, an insertion that fails leaves every page as it was. -/
theorem Keeps.insert_untouched (hx : x.Keeps gs E) (hc : Cramped gs x.pool)
    (hkey : key.length = x.tree.keySize) :
    Ends (Stops (Untouched gs x.pool.pages)) (fun _ _ => True) (insert key row x) := by
  by_cases hempty : x.tree.isEmpty = true
  · rw [insert_of_empty hkey (Tree.isEmpty_iff.1 hempty)]
    refine Ends.bind (onPool_ends (Tree.newLeaf_untouched hx.accepted hkey hx.sound)) ?_
    rintro root ⟨_, pool₁⟩ ⟨rfl, -⟩
    exact .of_eq_ok (Action.bind_of_ok (setRoot_eq_ok (x := ⟨x.tree, pool₁⟩) hx.unrecorded root))
      trivial
  · rw [insert_of_root hkey hempty]
    refine Ends.bind (onPool_ends (Tree.insertBelow_untouched hc hx.sound _ _)) ?_
    rintro done ⟨_, pool₁⟩ ⟨rfl, -, hfits⟩
    cases done with
    | duplicate => exact trivial
    | inserted => exact trivial
    | split separator right => exact absurd rfl (hfits separator right)

/-- An action on the pool leaves the tree's own data alone on either way out. -/
theorem onPool_tree (act : Action (Pool n m) α) :
    Ends (fun _ y => y.tree = x.tree) (fun _ y => y.tree = x.tree) (onPool act x) := by
  cases hact : act x.pool with
  | ok a pool => exact .of_eq_ok (onPool_eq_ok hact) rfl
  | error e pool => exact .of_eq_error (onPool_eq_error hact) rfl

/-- The tree has its root until all else is done. -/
theorem growRoot_tree {separator : Key} {right : PageId} (hx : x.tree.registration = none) :
    Ends (fun _ y => y.tree = x.tree) (fun _ _ => True) (growRoot separator right x) := by
  rw [growRoot, Action.get_bind]
  refine Ends.bind (onPool_tree _) ?_
  rintro root ⟨_, pool₁⟩ rfl
  refine Ends.bind (onPool_tree _) ?_
  rintro _ ⟨_, pool₂⟩ rfl
  refine Ends.bind (onPool_tree _) ?_
  rintro _ ⟨_, pool₃⟩ rfl
  exact .of_eq_ok (setRoot_eq_ok (x := ⟨x.tree, pool₃⟩) hx root) trivial

theorem insert_tree (hx : x.tree.registration = none) (key : Key) (row : RowId) :
    Ends (fun _ y => y.tree = x.tree) (fun _ _ => True) (insert key row x) := by
  by_cases hkey : key.length = x.tree.keySize
  swap
  · exact .of_eq_error (insert_of_width hkey row) rfl
  by_cases hempty : x.tree.isEmpty = true
  · rw [insert_of_empty hkey (Tree.isEmpty_iff.1 hempty)]
    refine Ends.bind (onPool_tree _) ?_
    rintro root ⟨_, pool₁⟩ rfl
    exact .of_eq_ok (Action.bind_of_ok (setRoot_eq_ok (x := ⟨x.tree, pool₁⟩) hx root)) trivial
  · rw [insert_of_root hkey hempty]
    refine Ends.bind (onPool_tree _) ?_
    rintro done ⟨_, pool₁⟩ rfl
    cases done with
    | duplicate => exact trivial
    | inserted => exact trivial
    | split separator right => exact Ends.bind (growRoot_tree hx) fun _ _ _ => trivial

/-- **An insertion that failed** left every page as it was, or the disk ran full under it. -/
theorem Keeps.insert_stops (hx : x.Keeps gs E) (key : Key) (row : RowId) :
    Ends (fun e y => y.pool.Sound gs ∧ (y.pool.pages = x.pool.pages ∨ (e = .refused .diskFull ∧
      x.pool.members ≠ Finset.range maxLogicalPages ∧
      y.pool.members = Finset.range maxLogicalPages)))
      (fun _ _ => True) (insert key row x) := by
  by_cases hkey : key.length = x.tree.keySize
  swap
  · exact .of_eq_error (insert_of_width hkey row) ⟨hx.sound, .inl rfl⟩
  by_cases hc : Cramped gs x.pool
  · exact (hx.insert_untouched hc hkey).imp (fun e y hy => ⟨hy.1, .inl hy.2⟩) fun _ _ => id
  obtain ⟨hdisk, hroom⟩ := not_or.1 hc
  refine (insert_ends hx hkey row).imp (fun e y hfull => ?_) fun _ _ _ => trivial
  obtain ⟨he, hs, hall⟩ := hfull (not_not.1 hroom)
  exact ⟨hs, .inr ⟨he, hdisk, hall⟩⟩

end Index

end PageStore
