import PageStore.Proofs.Pool.Quiet
import PageStore.Proofs.Tree.Readers
import PageStore.Proofs.Tree.Recorded

/-!
# Calls that change nothing

A reader has guards that are for reading, and makes no page dirty: `Tree.readers_quiet`. An
insertion and a removal go down with guards that are for writing, and see in the leaf only whether
there is something to do. If there is not, no bytes were changed under any of the guards, and no
level on the way back has anything to mend: `Index.insert_quiet` and `Index.remove_quiet`.

An insertion and a removal are one scheme, `Tree.changeBelow`, so both are one induction.
-/

namespace PageStore

open Pool PageStore.Action

variable {n m : Nat} {α : Type} {gs : List (Guard n)} {P : PageMap} {D : Set PageId}
  {pool : Pool n m}
  {h width lo hi : Nat} {tree : Tree} {key : Key} {row : RowId} {l l' : List PageId} {page : Page}
  {p : PageId}

/-! ## Fetching -/

namespace Tree

/-- Fetching a page of a tree changes nothing. -/
theorem fetch_quiet (hq : pool.Quiet gs P D none) (mode : Mode) (p : PageId) :
    Ends (fun _ => Quiet gs P D none) (fun g pool' => g.page = p ∧ g.mode = mode ∧
      pool'.Quiet gs P D (some g)) (fetch mode p pool) := by
  rcases hq.fetch_cases mode p with ⟨g, pool', hrun, hfetched⟩ | ⟨e, pool', hrun, hq'⟩
  · have hfetch : fetch mode p pool = .ok g pool' := by rw [fetch, hrun]
    exact .of_eq_ok hfetch hfetched
  · obtain ⟨e', hfetch⟩ := exists_fetch_eq_error hrun
    exact .of_eq_error hfetch hq'

end Tree

/-- Who is refused leaves a quiet pool. -/
def Pool.Hushed (gs : List (Guard n)) (P : PageMap) (D : Set PageId) (e : Halt) (pool : Pool n m) :
    Prop := ∀ cause, e = .refused cause → pool.Quiet gs P D none

/-- A quiet pool with a reader, who has a guard or none. -/
def Pool.QuietAt (gs : List (Guard n)) (P : PageMap) (D : Set PageId) (place : Option (Guard n))
    (pool : Pool n m) : Prop := pool.Quiet gs P D place ∧ ∀ g ∈ place, g.mode = .read

/-- **Readers change nothing.** -/
theorem Tree.readers_quiet (gs : List (Guard n)) (P : PageMap) (D : Set PageId) :
    KeptByReaders (n := n) (m := m) (Hushed gs P D) (QuietAt gs P D) where
  fetch p pool hq := (fetch_quiet hq.1 .read p).imp (fun _ _ hq' _ _ => hq') fun g pool' hq' => by
    refine ⟨hq'.2.2, ?_⟩
    rintro _ ⟨⟩
    exact hq'.2.1
  release _ _ hq := ⟨hq.1.release, nofun⟩
  refuse _ _ _ hq _ _ := hq.1
  hang _ := nofun

/-- **What stops a call without a trace** is a want of frames, or that one of the pages is held. -/
def Pool.Barred (gs : List (Guard n)) (P : PageMap) (D : Set PageId) (l : List PageId) (_ : Halt)
    (pool : Pool n m) : Prop :=
  pool.Quiet gs P D none ∧ ¬(Room gs 1 ∧ ∀ g ∈ gs, g.page ∉ l)

theorem Pool.Barred.mono {e : Halt} (hb : Barred gs P D l e pool) (hl : ∀ q ∈ l, q ∈ l') :
    Barred gs P D l' e pool :=
  ⟨hb.1, fun hfree => hb.2 ⟨hfree.1, fun g hg hin => hfree.2 g hg (hl _ hin)⟩⟩

/-- An allocated page is fetched, if there is a frame for it and nobody holds it. -/
theorem Pool.Quiet.fetch_ends (hq : pool.Quiet gs P D none) (hp : P p = some page) (hin : p ∈ l)
    (mode : Mode) : Ends (Barred gs P D l) (fun g pool' => pool'.Quiet gs P D (some g) ∧
      pool'.bytes g = page) (Tree.fetch mode p pool) := by
  have hends := Tree.fetch_quiet hq mode p
  cases hrun : Tree.fetch mode p pool with
  | ok g pool' =>
    rw [hrun] at hends
    obtain ⟨rfl, -, hq'⟩ := hends
    exact ⟨hq', hq'.sound.bytes_of_pages List.mem_cons_self (hq'.pages_eq ▸ hp)⟩
  | error e pool' =>
    rw [hrun] at hends
    refine ⟨hends, fun ⟨hroom, hfree⟩ => ?_⟩
    obtain ⟨g, pool₁, hok, -⟩ := Tree.fetch_eq_ok hq.sound (hq.pages_eq ▸ hp)
      (fun g hg hgp => hfree g hg (hgp ▸ hin)) hroom mode
    rw [hrun] at hok
    cases hok

/-! ## A scheme of changes -/

namespace Tree

/-- **A change below a page**: it is made in the leaf of the key, and what it leaves of a level is
mended on the level above. -/
def changeBelow (t : Tree) (key : Key) (leaf : Guard n → Action (Pool n m) α)
    (mend : PageId → Nat → α → Action (Pool n m) α) : Nat → PageId → Action (Pool n m) α
  | 0, _ => throw .endless
  | fuel + 1, p => do
    let g ← fetch .write p
    match ← peek g (t.route (some key)) with
    | none => leaf g
    | some (i, child) =>
      modify (Pool.release g)
      mend p i (← t.changeBelow key leaf mend fuel child)

/-- A node that gets a new child may split. -/
def mendInsertion (t : Tree) (p : PageId) : Insertion → Action (Pool n m) Insertion
  | .split separator right => t.insertIntoInternal p separator right
  | done => return done

/-- A child that is short is repaired. -/
def mendRemoval (p : PageId) (i : Nat) : Removal → Action (Pool n m) Removal
  | .removed true => return .removed (← rebalance p i)
  | done => return done

theorem insertBelow_eq (fuel : Nat) (p : PageId) :
    (tree.insertBelow key row fuel p : Action (Pool n m) Insertion) =
      tree.changeBelow key (fun g => tree.insertIntoLeaf g key row)
        (fun p _ => tree.mendInsertion p)
        fuel p := by
  induction fuel generalizing p with
  | zero => rfl
  | succ fuel ih =>
    simp only [insertBelow, changeBelow, ih]
    rfl

theorem removeBelow_eq (fuel : Nat) (p : PageId) :
    (tree.removeBelow key fuel p : Action (Pool n m) Removal) =
      tree.changeBelow key (fun g => tree.removeFromLeaf g key) mendRemoval fuel p := by
  induction fuel generalizing p with
  | zero => rfl
  | succ fuel ih =>
    simp only [removeBelow, changeBelow, ih]
    rfl

end Tree

/-! ## Down to the leaf and back -/

namespace Legible

/-- The place of a key in the page of a leaf tells whether it is there. -/
theorem locate_eq_ok {t : Shape 0} (ht : Legible width P t) (hin : Within tree.order lo hi t)
    (hkey : key.length = width) : ∃ page, P t.page = some page ∧
      tree.route (some key) page = .ok none ∧ ∃ place, Leaf.locate tree.order key page = .ok place ∧
      (key ∈ t.entries.map Prod.fst ↔ place = .found place.index) := by
  obtain ⟨node, hd, hpage, hwidth, hblock, hholds⟩ := ht.reads
  have hroute : tree.route (some key) node.page = .ok none :=
    Tree.route_leaf hholds.states.kind_eq_ok (some key)
  rw [Items.records_zero] at hholds
  have hfinds : tree.Finds key t node.page [] t [] :=
    ⟨⟨node, hd, hblock, hholds, hwidth.trans hkey.symm⟩, rfl, nofun, nofun, hin.2.1⟩
  obtain ⟨pre, post, hpre, hpost, ⟨row, hcut, hfound, -⟩ | ⟨hcut, hmissing, -⟩⟩ := hfinds.place
  · refine ⟨node.page, hpage, hroute, _, hfound, iff_of_true ?_ rfl⟩
    rw [hcut]
    exact List.mem_map.2 ⟨(key, row), List.mem_append_right _ List.mem_cons_self, rfl⟩
  · refine ⟨node.page, hpage, hroute, _, hmissing, iff_of_false (fun hpresent => ?_) nofun⟩
    obtain ⟨⟨_, row⟩, hmem, rfl⟩ := List.mem_map.1 hpresent
    rw [List.flatMap_nil, List.nil_append] at hpre
    rw [List.flatMap_nil, List.append_nil] at hpost
    exact not_mem_of_place hpre hpost row (hcut ▸ hmem)

/-- The way of a key goes from a node to a child. -/
theorem exists_child {t : Shape (h + 1)} (ht : Legible width P t) (hin : Within tree.order lo hi t)
    (hkey : key.length = width) (hlo : lo ≤ tree.order.rank key) (hhi : tree.order.rank key < hi) :
    ∃ page pre i post a b, P t.page = some page ∧
      Leads tree.order lo hi (tree.order.rank key) t.items pre i post a b ∧ Legible width P i.2 ∧
      tree.route (some key) page = .ok (some (pre.length, i.2.page)) := by
  obtain ⟨pre, i, post, a, b, hcut, hpre, hpost, hole, hchild, ha, hb⟩ :=
    Spans.route within_lt hin hlo hhi
  obtain ⟨node, hd, hpage, hwidth, hblock, hholds⟩ := ht.reads
  have hmem : i ∈ t.items := hcut ▸ List.mem_append_right _ List.mem_cons_self
  rw [hcut] at hholds
  exact ⟨node.page, pre, i, post, a, b, hpage, ⟨hcut, hpre, hpost, hole, hchild, ha, hb⟩,
    ht.2 i hmem, Tree.route_internal hholds.states.kind_eq_ok hblock hholds
      (hkey.trans hwidth.symm) hpre hpost⟩

/-- **A change that the leaf has nothing to do for**, and that no level has anything to mend after,
changes nothing. What the leaf sees is whether the key is there. -/
theorem changeBelow_ends {leaf : Guard n → Action (Pool n m) α}
    {mend : PageId → Nat → α → Action (Pool n m) α} {done : α} {t : Shape h} {fuel : Nat}
    (hmend : ∀ p i, mend p i done = pure done)
    (hleaf : ∀ g (pool : Pool n m) place, Leaf.locate tree.order key (pool.bytes g) = .ok place →
      (key ∈ t.entries.map Prod.fst ↔ place = .found place.index) →
      leaf g pool = .ok done (pool.release g))
    (ht : Legible width P t) (hin : Within tree.order lo hi t) (hq : pool.Quiet gs P D none)
    (hfuel : h < fuel) (hkey : key.length = width) (hlo : lo ≤ tree.order.rank key)
    (hhi : tree.order.rank key < hi) :
    Ends (Barred gs P D t.pages) (fun a pool' => a = done ∧ pool'.Quiet gs P D none)
      (tree.changeBelow key leaf mend fuel t.page pool) := by
  induction h generalizing pool lo hi fuel with
  | zero =>
    match fuel, hfuel with
    | fuel + 1, _ =>
    obtain ⟨page, hpage, hroute, place, hlocate, hplace⟩ := ht.locate_eq_ok hin hkey
    refine Ends.bind (hq.fetch_ends hpage List.mem_cons_self .write) ?_
    rintro g pool₁ ⟨hq₁, rfl⟩
    rw [Action.bind_of_ok (Tree.peek_eq_ok _ hroute)]
    exact .of_eq_ok (hleaf g pool₁ place hlocate hplace) ⟨rfl, hq₁.release⟩
  | succ h ih =>
    match fuel, hfuel with
    | fuel + 1, hfuel =>
    obtain ⟨page, pre, i, post, a, b, hpage, hleads, hchild, hroute⟩ :=
      ht.exists_child hin hkey hlo hhi
    refine Ends.bind (hq.fetch_ends hpage List.mem_cons_self .write) ?_
    rintro g pool₁ ⟨hq₁, rfl⟩
    rw [Action.bind_of_ok (Tree.peek_eq_ok _ hroute)]
    dsimp only
    rw [Action.modify_bind]
    have hbelow := ih (fun g pool place hlocate hplace => hleaf g pool place hlocate
      (hleads.mem_keys_iff.trans hplace)) hchild hleads.within hq₁.release
      (Nat.lt_of_succ_lt_succ hfuel) hleads.lower hleads.upper
    have hpages : ∀ q ∈ i.2.pages, q ∈ t.pages := fun q hq => by
      refine .tail _ (List.mem_flatMap.2 ⟨i, ?_, hq⟩)
      exact hleads.cut ▸ List.mem_append_right _ List.mem_cons_self
    refine Ends.bind (hbelow.imp (fun _ _ hb => hb.mono hpages) fun _ _ => id) ?_
    rintro _ pool₂ ⟨rfl, hq₂⟩
    rw [hmend]
    exact ⟨rfl, hq₂⟩

end Legible

/-! ## Whole trees -/

/-- An action on the pool leaves the tree's own data alone, also when it stops. -/
theorem Index.onPool_keeps {stop : Halt → Pool n m → Prop} {Q : α → Pool n m → Prop}
    {act : Action (Pool n m) α} (hact : Ends stop Q (act pool)) :
    Ends (fun e y => y.tree = tree ∧ stop e y.pool) (fun a y => y.tree = tree ∧ Q a y.pool)
      (onPool act ⟨tree, pool⟩) := by
  cases hrun : act pool with
  | ok a pool' =>
    rw [hrun] at hact
    exact .of_eq_ok (onPool_eq_ok hrun) ⟨rfl, hact⟩
  | error e pool' =>
    rw [hrun] at hact
    exact .of_eq_error (onPool_eq_error hrun) ⟨rfl, hact⟩

namespace Tree

variable {g : Guard n} {i : Nat}

/-- A leaf that has the key takes no other entry for it. -/
theorem insertIntoLeaf_of_found
    (hlocate : Leaf.locate tree.order key (pool.bytes g) = .ok (.found i)) :
    tree.insertIntoLeaf g key row pool = .ok .duplicate (pool.release g) := by
  obtain ⟨leaf, hblock, hsearch⟩ := of_bind_eq_ok hlocate
  refine Action.atEnd_ok ?_
  rw [Action.get_bind, Action.bind_of_ok (Action.liftM_ok hblock _),
    Action.bind_of_ok (Action.liftM_ok hsearch _)]
  rfl

/-- A leaf that lacks the key loses nothing. -/
theorem removeFromLeaf_of_missing
    (hlocate : Leaf.locate tree.order key (pool.bytes g) = .ok (.missing i)) :
    tree.removeFromLeaf g key pool = .ok .notFound (pool.release g) := by
  obtain ⟨leaf, hblock, hsearch⟩ := of_bind_eq_ok hlocate
  refine Action.atEnd_ok ?_
  rw [Action.get_bind, Action.bind_of_ok (Action.liftM_ok hblock _),
    Action.bind_of_ok (Action.liftM_ok hsearch _)]
  rfl

namespace Readable

variable {t : Shape h}

/-- A change of a tree that can be read, for which there is nothing to do. -/
theorem changeBelow_ends {leaf : Guard n → Action (Pool n m) α}
    {mend : PageId → Nat → α → Action (Pool n m) α} {done : α} (hr : tree.Readable P t)
    (hq : pool.Quiet gs P D none) (hkey : key.length = tree.keySize)
    (hmend : ∀ p i, mend p i done = pure done)
    (hleaf : ∀ g (pool : Pool n m) place, Leaf.locate tree.order key (pool.bytes g) = .ok place →
      (key ∈ t.entries.map Prod.fst ↔ place = .found place.index) →
      leaf g pool = .ok done (pool.release g)) :
    Ends (Barred gs P D t.pages) (fun a pool' => a = done ∧ pool'.Quiet gs P D none)
      (tree.changeBelow key leaf mend descentBound tree.root pool) :=
  hr.root ▸ hr.legible.changeBelow_ends hmend hleaf hr.within hq hr.height hkey (Nat.zero_le _)
    (hkey ▸ tree.order.rank_lt_top key)

/-- **An insertion of a key that is there** changes nothing. -/
theorem insert_quiet (hr : tree.Readable P t) (hq : pool.Quiet gs P D none)
    (hkey : key.length = tree.keySize) (hpresent : key ∈ t.entries.map Prod.fst) (row : RowId) :
    Ends (fun e y => y.tree = tree ∧ Barred gs P D t.pages e y.pool)
      (fun added y => added = false ∧ y.tree = tree ∧ y.pool.Quiet gs P D none)
      (Index.insert key row ⟨tree, pool⟩) := by
  have hbelow : Ends (Barred gs P D t.pages)
      (fun done pool' => done = .duplicate ∧ pool'.Quiet gs P D none)
      (tree.insertBelow key row descentBound tree.root pool) := by
    rw [insertBelow_eq]
    refine hr.changeBelow_ends hq hkey (fun _ _ => rfl) fun g pool place hlocate hplace => ?_
    rw [hplace.1 hpresent] at hlocate
    exact insertIntoLeaf_of_found hlocate
  rw [Index.insert_of_root (x := ⟨tree, pool⟩) hkey hr.not_isEmpty]
  refine Ends.bind (Index.onPool_keeps hbelow) ?_
  rintro _ ⟨_, pool'⟩ ⟨rfl, rfl, hq'⟩
  exact ⟨rfl, rfl, hq'⟩

/-- **A removal of a key that is not there** changes nothing. -/
theorem remove_quiet (hr : tree.Readable P t) (hq : pool.Quiet gs P D none)
    (hkey : key.length = tree.keySize) (habsent : key ∉ t.entries.map Prod.fst) :
    Ends (fun e y => y.tree = tree ∧ Barred gs P D t.pages e y.pool)
      (fun found y => found = false ∧ y.tree = tree ∧ y.pool.Quiet gs P D none)
      (Index.remove key ⟨tree, pool⟩) := by
  have hbelow : Ends (Barred gs P D t.pages)
      (fun done pool' => done = .notFound ∧ pool'.Quiet gs P D none)
      (tree.removeBelow key descentBound tree.root pool) := by
    rw [removeBelow_eq]
    refine hr.changeBelow_ends hq hkey (fun _ _ => rfl) fun g pool place hlocate hplace => ?_
    cases place with
    | found i => exact absurd (hplace.2 rfl) habsent
    | missing i => exact removeFromLeaf_of_missing hlocate
  rw [Index.remove_of_root (x := ⟨tree, pool⟩) hkey hr.not_isEmpty]
  refine Ends.bind (Index.onPool_keeps hbelow) ?_
  rintro _ ⟨_, pool'⟩ ⟨rfl, rfl, hq'⟩
  exact ⟨rfl, rfl, hq'⟩

end Readable

end Tree

end PageStore
