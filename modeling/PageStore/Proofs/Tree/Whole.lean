import PageStore.Proofs.Tree.Insert
import PageStore.Proofs.Tree.Remove

/-!
# Whole trees

A tree with entries has a root without a parent, and the range of all keys. `Index.Keeps` says that
an index is such a tree, or has no root and no entries; it is what every insertion and every removal
preserves: `Index.insert_ends` and `Index.remove_ends`.

The root is the only node that appears and disappears at the top, so the nodes at the heights below
keep their largest size while the tree grows and shrinks, and a new root brings its own.
-/

namespace PageStore

open Pool

variable {n m : Nat} {d d' : TreePlan} {P : PageMap} {h : Nat} {p parent next : PageId}
  {lo hi : Nat}
  {pool : Pool n m} {gs : List (Guard n)} {tree : Tree} {key : Key} {E : List (Key × RowId)}
  {x : Index n m}

/-! ## Settings -/

/-- The least number of items of a root. -/
def rootLeast : Nat → Nat
  | 0 => 1
  | _ + 1 => 2

theorem rootLeast_pos (h : Nat) : 0 < rootLeast h := by
  cases h with
  | zero => exact Nat.one_pos
  | succ h => exact Nat.two_pos

theorem two_le_rootLeast (hh : 0 < h) : 2 ≤ rootLeast h := by
  match h, hh with
  | h + 1, _ => exact Nat.le_refl 2

theorem TreePlan.Fits.rootLeast_le (hd : d.Fits) (h : Nat) : rootLeast h ≤ d.min h := by
  cases h with
  | zero =>
    have := (hd.capacity_pos 0).1
    rw [rootLeast, TreePlan.min, minSize]
    omega
  | succ h => exact hd.two_le_min (Nat.succ_pos h)

/-- The largest size of new nodes at a height. -/
def NodeLimits.at : NodeLimits → Nat → Nat
  | limits, 0 => limits.leafMax
  | limits, _ + 1 => limits.internalMax

/-- New nodes of the tree can split, and have room for one item more than their largest size. -/
structure Tree.Accepted (tree : Tree) : Prop where
  width : 0 < tree.keySize
  least : ∀ h, leastMax h ≤ tree.limits.at h
  most : ∀ h, tree.limits.at h ≤ (levelKind h).capacity tree.keySize

/-- The root does not matter to new nodes, nor does the place where it is recorded. -/
theorem Tree.Accepted.handle (ha : tree.Accepted) (root : PageId)
    (registration : Option Registration) : { tree with root, registration }.Accepted :=
  ⟨ha.width, ha.least, ha.most⟩

theorem Tree.Accepted.withRoot (ha : tree.Accepted) (root : PageId) : { tree with root }.Accepted :=
  ha.handle root tree.registration

/-- Nodes of either kind hold at least one record. -/
theorem Tree.Accepted.capacity_pos (ha : tree.Accepted) (h : Nat) :
    0 < (levelKind h).capacity tree.keySize := by
  have hleast := ha.least h
  have hmost := ha.most h
  have htwo : 0 < leastMax h := by cases h <;> exact Nat.succ_pos _
  omega

/-- A tree that can be created is accepted, and has no root. -/
theorem Tree.accepted_of_create {order : KeyOrder} {keySize : Nat} {config : TreeConfig}
    (hc : Tree.create order keySize config = .ok tree) :
    tree.Accepted ∧ tree.root = .none ∧ tree.order = order ∧ tree.keySize = keySize ∧
      tree.registration = none := by
  rw [Tree.create] at hc
  by_cases hzero : keySize = 0
  · rw [if_pos hzero] at hc
    cases hc
  rw [if_neg hzero] at hc
  cases hl : config.resolve (NodeKind.leaf.capacity keySize)
    (NodeKind.internal.capacity keySize) with
  | error e =>
    rw [hl] at hc
    cases hc
  | ok limits =>
    rw [hl] at hc
    cases hc
    obtain ⟨hleast, hmost, hleast', hmost'⟩ := TreeConfig.bounds_of_resolve hl
    refine ⟨⟨Nat.pos_of_ne_zero hzero, fun h => ?_, fun h => ?_⟩, rfl, rfl, rfl, rfl⟩
    · cases h with
      | zero => exact hleast
      | succ h => exact hleast'
    · cases h with
      | zero => exact hmost
      | succ h => exact hmost'

/-- The plan of a tree that gets a new root at a height: below, nodes are as large as they were. -/
def Tree.planFrom (tree : Tree) (h : Nat) (max : Nat → Nat) : TreePlan where
  order := tree.order
  width := tree.keySize
  max k := if k < h then max k else tree.limits.at k

theorem Tree.Accepted.follows (ha : tree.Accepted) {max : Nat → Nat}
    (hleast : ∀ k < h, leastMax k ≤ max k)
    (hmost : ∀ k < h, max k ≤ (levelKind k).capacity tree.keySize) :
    tree.Follows (tree.planFrom h max) := by
  refine ⟨rfl, rfl, ha.width, fun k => ?_, fun k => ?_⟩
  · rw [planFrom]
    dsimp only
    split
    · next hk => exact hleast k hk
    · exact ha.least k
  · rw [planFrom]
    dsimp only
    split
    · next hk => exact hmost k hk
    · exact ha.most k

/-- The plan of a tree that gets its first node. -/
theorem Tree.Accepted.follows_first (ha : tree.Accepted) :
    tree.Follows (tree.planFrom 0 fun _ => 0) :=
  ha.follows (by omega) (by omega)

/-- Largest sizes at a height and above do not matter below it. -/
theorem Filled.of_max {l : Items h} (hf : Filled d l) (hmax : ∀ k < h, d'.max k = d.max k) :
    Filled d' l := by
  induction h with
  | zero => trivial
  | succ h ih =>
    intro i hi
    obtain ⟨hleast, hmost, hbelow⟩ := hf i hi
    rw [TreePlan.min] at hleast ⊢
    rw [hmax h (Nat.lt_succ_self h)]
    exact ⟨hleast, hmost, ih hbelow fun k hk => hmax k (Nat.lt_succ_of_lt hk)⟩

theorem Content.Sized.of_max {t : Shape h} {least : Nat} (hs : t.Sized d least)
    (hmax : ∀ k ≤ h, d'.max k = d.max k) : t.Sized d' least :=
  ⟨hs.least, by rw [hmax h (Nat.le_refl h)]; exact hs.most,
    hs.below.of_max fun k hk => hmax k (Nat.le_of_lt hk)⟩

/-! ## Trees with a root -/

/-- The pool holds a tree with this root node. -/
structure Tree.Stands (tree : Tree) (pool : Pool n m) (gs : List (Guard n)) (d : TreePlan)
    (t : Shape h) : Prop where
  follows : tree.Follows d
  root : tree.root = t.page
  has : pool.Has gs d .none .none t
  within : Within d.order 0 (KeyOrder.top d.width) t
  sized : t.Sized d (rootLeast h)

theorem Tree.Stands.rank_lt {t : Shape h} (hs : tree.Stands pool gs d t)
    (hkey : key.length = tree.keySize) : d.order.rank key < KeyOrder.top d.width := by
  rw [← hs.follows.width, ← hkey]
  exact d.order.rank_lt_top key

/-- There are no more pages in a list without repeats than allocated ones. -/
theorem Pool.length_le_card {l : List PageId} (hnd : l.Nodup) (hl : ∀ p ∈ l, pool.pages p ≠ none) :
    l.length ≤ pool.members.card := by
  have hinj : (l.map fun p => p.val.toNat).Nodup := by
    refine hnd.map fun p q hpq => ?_
    cases p
    cases q
    exact congrArg PageId.mk (UInt32.toNat_inj.1 hpq)
  have hsub : (l.map fun p => p.val.toNat).toFinset ⊆ pool.members := by
    intro i hi
    obtain ⟨p, hp, rfl⟩ := List.mem_map.1 (List.mem_toFinset.1 hi)
    exact Pool.pages_ne_none_iff.1 (hl p hp)
  have hcard := Finset.card_le_card hsub
  rwa [List.toFinset_card_of_nodup hinj, List.length_map] at hcard

/-- There are at most as many allocated pages as on a disk. -/
theorem Pool.Sound.card_le (hs : pool.Sound gs) : pool.members.card ≤ maxLogicalPages := by
  have hsub : pool.members ⊆ Finset.range maxLogicalPages := fun _ hi =>
    Finset.mem_range.2 (hs.space.lt_of_mem hi)
  exact (Finset.card_le_card hsub).trans_eq (Finset.card_range _)

theorem Pool.Sound.length_le_of_nodup (hs : pool.Sound gs) {l : List PageId} (hnd : l.Nodup)
    (hl : ∀ p ∈ l, pool.pages p ≠ none) : l.length ≤ maxLogicalPages :=
  (Pool.length_le_card hnd hl).trans hs.card_le

theorem Pool.Has.length_le {t : Shape h} (hh : pool.Has gs d parent next t) :
    t.pages.length ≤ maxLogicalPages := hh.sound.length_le_of_nodup hh.nodup hh.stored.allocated

/-- A descent has steps enough. -/
theorem Tree.Stands.height_lt {t : Shape h} (hs : tree.Stands pool gs d t) :
    h < Tree.descentBound := by
  have hlevels := hs.within.height_le
  have hpages := hs.has.length_le
  rw [Tree.descentBound]
  omega

theorem Tree.Stands.not_isEmpty {t : Shape h} (hs : tree.Stands pool gs d t) :
    ¬tree.isEmpty = true := by
  rw [Tree.isEmpty_iff, hs.root]
  exact hs.has.page_ne_none

theorem Tree.Stands.root_allocated {t : Shape h} (hs : tree.Stands pool gs d t) :
    pool.pages tree.root ≠ none := hs.root ▸ hs.has.allocated

theorem Tree.Stands.root_free {t : Shape h} (hs : tree.Stands pool gs d t) :
    ∀ g ∈ gs, g.page ≠ tree.root := hs.root ▸ hs.has.free

/-! ## Indexes -/

/-- **What every index is**: it has a root node and the entries below it, or no root and no
entries. -/
structure Index.Keeps (x : Index n m) (gs : List (Guard n)) (E : List (Key × RowId)) : Prop where
  sound : x.pool.Sound gs
  accepted : x.tree.Accepted
  unrecorded : x.tree.registration = none
  shape : (x.tree.root = .none ∧ E = []) ∨
    ∃ (d : TreePlan) (h : Nat) (t : Shape h), x.tree.Stands x.pool gs d t ∧ t.entries = E

/-- An index whose tree takes up these pages and has these entries. -/
structure Index.Occupies (x : Index n m) (gs : List (Guard n)) (l : List PageId)
    (E : List (Key × RowId)) : Prop where
  sound : x.pool.Sound gs
  accepted : x.tree.Accepted
  shape : (x.tree.root = .none ∧ E = [] ∧ l = []) ∨
    ∃ (d : TreePlan) (h : Nat) (t : Shape h), x.tree.Stands x.pool gs d t ∧ t.entries = E ∧
      t.pages = l

/-- An index whose tree takes up these pages and has these entries, and whose height and plan have a
property. -/
structure Index.OccupiesBy (Q : Nat → TreePlan → Prop) (x : Index n m) (gs : List (Guard n))
    (l : List PageId) (E : List (Key × RowId)) : Prop where
  sound : x.pool.Sound gs
  accepted : x.tree.Accepted
  shape : (x.tree.root = .none ∧ E = [] ∧ l = []) ∨
    ∃ (d : TreePlan) (h : Nat) (t : Shape h), x.tree.Stands x.pool gs d t ∧ t.entries = E ∧
      t.pages = l ∧ Q h d

/-- A property of heights and plans that a tree has as long as it grows and shrinks: a first leaf
has it, and so has a tree with a root more or less than one that has it. -/
structure Tree.Maintains (tree : Tree) (Q : Nat → TreePlan → Prop) : Prop where
  leaf : Q 0 (tree.planFrom 0 fun _ => 0)
  grow : ∀ {h d}, Q h d → Q (h + 1) (tree.planFrom (h + 1) d.max)
  shrink : ∀ {h d}, Q (h + 1) d → Q h d

/-- The root does not matter to plans, nor does the place where it is recorded. -/
theorem Tree.Maintains.handle {Q : Nat → TreePlan → Prop} (hQ : tree.Maintains Q) (root : PageId)
    (registration : Option Registration) : { tree with root, registration }.Maintains Q :=
  ⟨hQ.leaf, hQ.grow, hQ.shrink⟩

theorem Tree.maintains_true (tree : Tree) : tree.Maintains fun _ _ => True :=
  ⟨trivial, fun _ => trivial, fun _ => trivial⟩

theorem Index.Keeps.occupies (hx : x.Keeps gs E) : ∃ l, x.Occupies gs l E := by
  rcases hx.shape with ⟨hroot, hE⟩ | ⟨d, h, t, ht, hE⟩
  · exact ⟨[], hx.sound, hx.accepted, .inl ⟨hroot, hE, rfl⟩⟩
  · exact ⟨t.pages, hx.sound, hx.accepted, .inr ⟨d, h, t, ht, hE, rfl⟩⟩

theorem Index.OccupiesBy.occupies {Q : Nat → TreePlan → Prop} {l : List PageId}
    (hx : x.OccupiesBy Q gs l E) : x.Occupies gs l E :=
  ⟨hx.sound, hx.accepted, hx.shape.imp_right fun ⟨d, h, t, ht, hE, hl, _⟩ => ⟨d, h, t, ht, hE, hl⟩⟩

theorem Index.Occupies.by_true {l : List PageId} (hx : x.Occupies gs l E) :
    x.OccupiesBy (fun _ _ => True) gs l E :=
  ⟨hx.sound, hx.accepted,
    hx.shape.imp_right fun ⟨d, h, t, ht, hE, hl⟩ => ⟨d, h, t, ht, hE, hl, trivial⟩⟩

theorem Index.Occupies.keeps {l : List PageId} (hx : x.Occupies gs l E)
    (hnone : x.tree.registration = none) : x.Keeps gs E :=
  ⟨hx.sound, hx.accepted, hnone, hx.shape.imp (fun hs => ⟨hs.1, hs.2.1⟩)
    fun ⟨d, h, t, ht, hE, _⟩ => ⟨d, h, t, ht, hE⟩⟩

namespace Index

variable {α : Type} {stop : Halt → Pool n m → Prop}

/-- How an action on an index stops is a matter of the pool. -/
abbrev Stops (stop : Halt → Pool n m → Prop) (e : Halt) (x : Index n m) : Prop := stop e x.pool

/-- An action on the pool leaves the tree's own data alone. -/
theorem onPool_ends {act : Action (Pool n m) α} {Q : α → Pool n m → Prop}
    (h : Ends stop Q (act x.pool)) :
    Ends (Stops stop) (fun a y => y.tree = x.tree ∧ Q a y.pool) (onPool act x) := by
  cases hr : act x.pool with
  | ok a pool =>
    rw [hr] at h
    rw [onPool, Action.focus_ok hr]
    exact ⟨rfl, h⟩
  | error e pool =>
    rw [hr] at h
    rw [onPool, Action.focus_error hr]
    exact h

theorem onPool_eq_error {act : Action (Pool n m) α} {e : Halt} {pool : Pool n m}
    (h : act x.pool = .error e pool) : onPool act x = .error e ⟨x.tree, pool⟩ :=
      Action.focus_error h

theorem onPool_eq_ok {act : Action (Pool n m) α} {a : α} {pool : Pool n m}
    (h : act x.pool = .ok a pool) : onPool act x = .ok a ⟨x.tree, pool⟩ := Action.focus_ok h

theorem of_onPool {act : Action (Pool n m) α} {a : α} {y : Index n m}
    (hrun : onPool act ⟨tree, pool⟩ = .ok a y) : ∃ pool', act pool = .ok a pool' ∧
    y = ⟨tree, pool'⟩ := by
  cases hact : act pool with
  | ok b pool' =>
    rw [onPool_eq_ok hact] at hrun
    cases hrun
    exact ⟨pool', rfl, rfl⟩
  | error e pool' =>
    rw [onPool_eq_error hact] at hrun
    cases hrun

/-- Nothing is recorded of a tree that has no place for it. -/
theorem setRoot_eq_ok (hx : x.tree.registration = none) (root : PageId) :
    setRoot root x = .ok () ⟨{ x.tree with root }, x.pool⟩ := by
  have hpersist : Tree.persistRoot { x.tree with root } x.pool = .ok () x.pool := by
    rw [Tree.persistRoot]
    simp only [hx]
    rfl
  rw [setRoot, Action.modify_bind, Action.get_bind]
  exact onPool_eq_ok hpersist

/-! ### How the two calls run -/

/-- What is left of an insertion when the subtree at the root was changed. -/
def insertAbove : Insertion → Action (Index n m) Bool
  | .duplicate => return false
  | .inserted => return true
  | .split separator right => do
    growRoot separator right
    return true

/-- A key of another width is refused. -/
theorem insert_of_width (hkey : key.length ≠ x.tree.keySize) (row : RowId) :
    insert key row x = .error (.refused (.keySize x.tree.keySize key.length)) x := by
  rw [insert, Action.get_bind]
  exact Action.bind_of_error (Action.check_error (Tree.checkKey_eq_error hkey) x)

theorem width_of_insert {row : RowId} {added : Bool} {y : Index n m}
    (hrun : insert key row x = .ok added y) : key.length = x.tree.keySize := by
  by_contra hkey
  rw [insert_of_width hkey row] at hrun
  cases hrun

/-- The first key is put into a leaf that becomes the root. -/
theorem insert_of_empty (hkey : key.length = x.tree.keySize) (hroot : x.tree.root = .none)
    (row : RowId) :
    insert key row x = (do setRoot (← onPool (x.tree.newLeaf key row)); return true) x := by
  rw [insert, Action.get_bind, Action.bind_of_ok (Action.check_ok (Tree.checkKey_eq_ok hkey) x),
    if_pos (Tree.isEmpty_iff.2 hroot)]

/-- Another key goes down from the root, and the root grows if it had to split. -/
theorem insert_of_root (hkey : key.length = x.tree.keySize) (hempty : ¬x.tree.isEmpty = true)
    (row : RowId) : insert key row x =
      (onPool (x.tree.insertBelow key row Tree.descentBound x.tree.root) >>= insertAbove) x := by
  rw [insert, Action.get_bind, Action.bind_of_ok (Action.check_ok (Tree.checkKey_eq_ok hkey) x),
    if_neg hempty]
  rfl

/-- What is left of a removal when the subtree at the root was changed. -/
def removeAbove : Removal → Action (Index n m) Bool
  | .notFound => return false
  | .removed _ => do
    shrinkRoot
    return true

/-- A key of another width is refused. -/
theorem remove_of_width (hkey : key.length ≠ x.tree.keySize) :
    remove key x = .error (.refused (.keySize x.tree.keySize key.length)) x := by
  rw [remove, Action.get_bind]
  exact Action.bind_of_error (Action.check_error (Tree.checkKey_eq_error hkey) x)

theorem width_of_remove {found : Bool} {y : Index n m} (hrun : remove key x = .ok found y) :
    key.length = x.tree.keySize := by
  by_contra hkey
  rw [remove_of_width hkey] at hrun
  cases hrun

/-- A tree without a root has no key to give up. -/
theorem remove_of_empty (hkey : key.length = x.tree.keySize) (hroot : x.tree.root = .none) :
    remove key x = .ok false x := by
  rw [remove, Action.get_bind, Action.bind_of_ok (Action.check_ok (Tree.checkKey_eq_ok hkey) x),
    if_pos (Tree.isEmpty_iff.2 hroot)]
  rfl

/-- Otherwise the removal goes down from the root, and the root gives way if it is superfluous. -/
theorem remove_of_root (hkey : key.length = x.tree.keySize) (hempty : ¬x.tree.isEmpty = true) :
    remove key x =
      (onPool (x.tree.removeBelow key Tree.descentBound x.tree.root) >>= removeAbove) x := by
  rw [remove, Action.get_bind, Action.bind_of_ok (Action.check_ok (Tree.checkKey_eq_ok hkey) x),
    if_neg hempty]
  rfl

end Index

/-! ## The first leaf -/

/-- The bytes of a leaf with one entry that has no node above it. -/
theorem Tree.leaf_eq_ok (ha : tree.Accepted) (hkey : key.length = tree.keySize) (p : PageId)
    (row : RowId) : ∃ node : Leaf,
      Leaf.insert (Node.fresh .leaf p .none tree.limits.leafMax tree.keySize) 0 key row = .ok node ∧
      node.Holds ((tree.planFrom 0 fun _ => 0).header 0 p .none .none) [(key, row)] := by
  have hfollows := ha.follows_first
  exact Items.insert_eq_ok hfollows.fits [] [] (hfollows.fits.fresh (h := 0) p .none).1
    (Nat.zero_le _) (key, .ofRow row) hkey

/-- A new page becomes that leaf. -/
theorem Tree.newLeaf_of_newPage {g : Guard n} {pool₁ : Pool n m} {row : RowId} {node : Leaf}
    (hnew : newPage pool = .ok g pool₁)
    (hinsert : Leaf.insert (Node.fresh .leaf g.page .none tree.limits.leafMax tree.keySize)
      0 key row = .ok node) :
    tree.newLeaf key row pool = .ok g.page ((pool₁.put g node.page).release g) := by
  rw [Tree.newLeaf, Action.bind_of_ok hnew]
  refine Action.atEnd_ok ?_
  rw [Action.bind_of_ok (Action.liftM_ok hinsert _)]
  rfl

/-- A page with the bytes of such a leaf is a tree. -/
theorem Tree.stands_leaf (ha : tree.Accepted) (hkey : key.length = tree.keySize)
    (hs : pool.Sound gs) (hfree : ∀ g ∈ gs, g.page ≠ p) {node : Leaf} {row : RowId}
    (hp : pool.pages p = some node.page)
    (hn : node.Holds ((tree.planFrom 0 fun _ => 0).header 0 p .none .none) [(key, row)]) :
    { tree with root := p }.Stands pool gs (tree.planFrom 0 fun _ => 0)
      (Content.node (h := 0) p [(key, .ofRow row)]) := by
  have hfollows := ha.follows_first
  have hrank : tree.order.rank key < KeyOrder.top tree.keySize := hkey ▸ tree.order.rank_lt_top key
  refine ⟨⟨rfl, rfl, hfollows.fits⟩, rfl,
    ⟨hs, .of_holds hp hn, List.nodup_singleton _, fun k hk hin => ?_⟩, ⟨?_, ?_, ?_⟩,
    ⟨Nat.le_refl _, ?_, trivial⟩⟩
  · exact hfree k hk (List.mem_singleton.1 hin)
  · exact Nat.lt_of_le_of_lt (Nat.zero_le _) hrank
  · exact List.pairwise_singleton ..
  · exact List.forall_mem_singleton.2 ⟨Nat.zero_le _, hrank⟩
  · exact Nat.le_trans (Nat.le_succ 1) (hfollows.fits.capacity_pos 0).1

/-- **A new leaf** with one entry is a tree. -/
theorem Tree.newLeaf_ends (ha : tree.Accepted) (hkey : key.length = tree.keySize)
    (hs : pool.Sound gs) (row : RowId) :
    Ends (FullDisk gs 1) (fun root pool' => pool'.Sound gs ∧ ∃ t : Shape 0,
      { tree with root }.Stands pool' gs (tree.planFrom 0 fun _ => 0) t ∧
      t.entries = [(key, row)] ∧ Trades pool.pages pool'.pages [] t.pages)
      (tree.newLeaf key row pool) := by
  rw [Tree.newLeaf]
  refine Ends.bind (newPage_ends hs) fun g pool₁ hnew => ?_
  obtain ⟨hmode, hnone, hs₁, hpages₁⟩ := hnew
  obtain ⟨node, hinsert, hholds⟩ := Tree.leaf_eq_ok ha hkey g.page row
  obtain ⟨hs₂, hpages₂⟩ := hs₁.put List.mem_cons_self hmode node.page
  have hap : ∀ k ∈ gs, k.page ≠ g.page := fun k hk e => by
    have := hs.pages_guard hk
    rw [e, hnone] at this
    cases this
  refine (holding_ends (g := g) (R := fun root P => root = g.page ∧
    P = Function.update pool.pages g.page (some node.page)) ?_).mono ?_
  · rw [Action.bind_of_ok (Action.liftM_ok hinsert _), Action.modify_bind]
    refine ⟨hs₂, rfl, ?_⟩
    rw [hpages₂, hpages₁, Function.update_idem]
  rintro root pool' ⟨hs', rfl, hpages'⟩
  have hpage : pool'.pages g.page = some node.page := by rw [hpages', Function.update_self]
  exact ⟨hs', _, Tree.stands_leaf ha hkey hs' hap hpage hholds, rfl,
    hpages' ▸ Trades.allocate hnone [] node.page⟩

/-- A new node above two others. -/
theorem Tree.newRoot_ends (hfollows : tree.Follows d)
    (hmax : d.max (h + 1) = tree.limits.internalMax)
    (hs : pool.Sound gs) (left right : PageId) (hkey : key.length = d.width) :
    Ends (FullDisk gs 1) (fun root pool' => pool'.Sound gs ∧ Room gs 1 ∧ pool.pages root = none ∧
      ∃ (node : Internal) (first : Key),
      pool'.pages = Function.update pool.pages root (some node.page) ∧
        node.Holds (d.header (h + 1) root .none .none) [(first, left), (key, right)])
      (tree.newRoot left key right pool) := by
  rw [Tree.newRoot]
  refine Ends.bind (newPage_ends hs) fun g pool₁ hnew => ?_
  obtain ⟨hmode, hnone, hs₁, hpages₁⟩ := hnew
  obtain ⟨hfresh, hfit⟩ := hfollows.fits.fresh (h := h + 1) g.page .none
  obtain ⟨node, first, hpopulate, hholds⟩ := Internal.populate_eq_ok hfresh
    (hfit 2 (hfollows.fits.capacity_pos (h + 1)).1) left right hkey
  have hpopulate' : Internal.populate (Node.fresh .internal g.page .none tree.limits.internalMax
      tree.keySize) left key right = .ok node := by
    rw [← hmax, hfollows.width]
    exact hpopulate
  obtain ⟨hs₂, hpages₂⟩ := hs₁.put List.mem_cons_self hmode node.page
  refine (holding_ends (g := g) (R := fun root P => root = g.page ∧
    P = Function.update pool.pages g.page (some node.page)) ?_).mono ?_
  · rw [Action.bind_of_ok (Action.liftM_ok hpopulate' _), Action.modify_bind]
    refine ⟨hs₂, rfl, ?_⟩
    rw [hpages₂, hpages₁, Function.update_idem]
  rintro root pool' ⟨hs', rfl, hpages'⟩
  exact ⟨hs', hs₁.room_of_write hmode (.zero _), hnone, node, first, hpages', hholds⟩

/-- **Two trees get a node above them.** -/
theorem Stored.adopt_eq_ok {l r : Shape h} {q next' : PageId} (hl : Stored d pool.pages p next' l)
    (hr : Stored d pool.pages q next r) (hs : pool.Sound gs) (hnd : (l.pages ++ r.pages).Nodup)
    (hap : ∀ g ∈ gs, g.page ∉ l.pages ++ r.pages) (hroom : Room gs 1) (root : PageId) :
    ∃ pool₁ pool₂, Tree.setParent l.page root pool = .ok () pool₁ ∧
      Tree.setParent r.page root pool₁ = .ok () pool₂ ∧ pool₂.Sound gs ∧
      Stored d pool₂.pages root next' l ∧ Stored d pool₂.pages root next r ∧
      ∀ q, q ≠ l.page → q ≠ r.page → pool₂.pages q = pool.pages q := by
  obtain ⟨hndl, hndr, hdisj⟩ := List.nodup_append.1 hnd
  obtain ⟨pool₁, hset₁, hs₁, hl₁, hkept₁⟩ := hl.setParent_eq_ok root hs hndl
    (fun g hg e => hap g hg (e ▸ List.mem_append_left _ List.mem_cons_self)) hroom
  have hr₁ : Stored d pool₁.pages q next r := hr.congr fun q hq =>
    hkept₁ q fun e => hdisj _ List.mem_cons_self q hq e.symm
  obtain ⟨pool₂, hset₂, hs₂, hr₂, hkept₂⟩ := hr₁.setParent_eq_ok root hs₁ hndr
    (fun g hg e => hap g hg (e ▸ List.mem_append_right _ List.mem_cons_self)) hroom
  have hl₂ : Stored d pool₂.pages root next' l := hl₁.congr fun q hq =>
    hkept₂ q fun e => hdisj q hq _ List.mem_cons_self e
  exact ⟨pool₁, pool₂, hset₁, hset₂, hs₂, hl₂, hr₂, fun q hql hqr =>
    (hkept₂ q hqr).trans (hkept₁ q hql)⟩

/-- A tree can be planned with a level more, on which there is nothing yet. -/
theorem Tree.Accepted.grown (ha : tree.Accepted) (hf : tree.Follows d) (h : Nat) :
    tree.Follows (tree.planFrom (h + 1) d.max) ∧
      (tree.planFrom (h + 1) d.max).max (h + 1) = tree.limits.internalMax ∧
      ∀ k ≤ h, (tree.planFrom (h + 1) d.max).max k = d.max k :=
  ⟨ha.follows (fun k _ => hf.fits.least k) fun k _ => hf.width ▸ hf.fits.most k,
    if_neg (Nat.lt_irrefl _), fun _ hk => if_pos (Nat.lt_succ_of_le hk)⟩

theorem Content.pages_two {root : PageId} {l : Shape h} {i : Key × Shape h} {first : Key} :
    (Content.node (h := h + 1) root [(first, l), i]).pages = root :: (l.pages ++ i.2.pages) := by
  rw [Content.pages, Content.items_node, Items.pages_cons, Items.pages_cons, Items.pages_nil,
    List.append_nil, Content.page_node]

/-- A page with the bytes of a node above two trees is a tree. -/
theorem Tree.stands_two (hf : tree.Follows d) (hf' : tree.Follows d')
    (hbelow : ∀ k ≤ h, d'.max k = d.max k)
    (hs : pool.Sound gs) {l : Shape h} {i : Key × Shape h} {first : Key}
    (hap : ∀ g ∈ gs, g.page ∉ p :: (l.pages ++ i.2.pages))
    (hnd : (p :: (l.pages ++ i.2.pages)).Nodup)
    (hnode : NodeAt d' pool.pages p .none .none (h := h + 1) [(first, l), i])
    (hl : Stored d pool.pages p (Items.head .none [i]) l) (hi : Stored d pool.pages p .none i.2)
    (hrange : Spans d.order (Within d.order) 0 (KeyOrder.top d.width) [(first, l), i])
    (hsize : l.Sized d (d.min h)) (hfilled : Filled d [i]) :
    { tree with root := p }.Stands pool gs d' (Content.node (h := h + 1) p [(first, l), i]) := by
  have horder : d'.order = d.order := hf'.order.symm.trans hf.order
  have hwidth : d'.width = d.width := hf'.width.symm.trans hf.width
  have hmin : d'.min h = d.min h := by rw [TreePlan.min, TreePlan.min, hbelow h (Nat.le_refl h)]
  refine ⟨hf'.withRoot p, rfl, ⟨hs, ?_, ?_, ?_⟩, ?_, Nat.le_refl 2,
    (hf'.fits.capacity_pos (h + 1)).1,
    filled_cons.2 ⟨hmin ▸ hsize.of_max hbelow,
      hfilled.of_max fun k hk => hbelow k (Nat.le_of_lt_succ hk)⟩⟩
  · exact stored_iff.2 ⟨hnode, linked_cons.2 ⟨hl.of_max hwidth hbelow,
      linked_cons.2 ⟨hi.of_max hwidth hbelow, trivial⟩⟩⟩
  · rw [Content.pages_two]
    exact hnd
  · rw [Content.pages_two]
    exact hap
  · rw [← horder, ← hwidth] at hrange
    exact hrange

/-- **A new root** above a root that split. -/
theorem Index.growRoot_ends {Q : Nat → TreePlan → Prop} (hQ : x.tree.Maintains Q) (hplan : Q h d)
    (ha : x.tree.Accepted) (hx : x.tree.registration = none)
    (hfollows : x.tree.Follows d) {l : Shape h} {i : Key × Shape h} {least : Nat}
    {f : PageId} (hs : x.pool.Sound gs) (hap : ∀ g ∈ gs, g.page ∉ l.pages ++ Items.pages [i])
    (hc : Housed d x.pool.pages .none .none 0 (KeyOrder.top d.width) least x.tree.root f E l [i]) :
    Ends (Index.Stops (FullDisk gs 1)) (fun _ y => ∃ root new, y.tree = { x.tree with root } ∧
      y.OccupiesBy Q gs new E ∧ Trades x.pool.pages y.pool.pages (l.pages ++ Items.pages [i]) new)
      (Index.growRoot i.1 i.2.page x) := by
  obtain ⟨hfollows', habove, hbelow⟩ := ha.grown hfollows h
  have hwidth : x.tree.keySize = d.width := hfollows.width
  have hnd := hc.nodup
  rw [Items.pages_cons, Items.pages_nil, List.append_nil] at hnd hap ⊢
  have hi := (linked_cons.1 hc.linked).1
  rw [Index.growRoot, Action.get_bind]
  refine Ends.bind (Index.onPool_ends (Tree.newRoot_ends hfollows' habove hs x.tree.root i.2.page
    ((hc.width i List.mem_cons_self).trans hwidth.symm))) ?_
  rintro root ⟨tree, pool₁⟩ ⟨rfl, hs₁, hroom, hnone, node, first, hpages₁, hholds⟩
  -- the root is on a page of its own, as no page of the two trees was free
  have hout : ∀ q ∈ l.pages ++ i.2.pages, q ≠ root := fun q hq e =>
    (List.mem_append.1 hq).elim (hc.stored.allocated q) (hi.allocated q) (e ▸ hnone)
  have hkept₁ : ∀ q ∈ l.pages ++ i.2.pages, pool₁.pages q = x.pool.pages q := fun q hq => by
    rw [hpages₁, Function.update_of_ne (hout q hq)]
  obtain ⟨pool₂, pool₃, hset₂, hset₃, hs₃, hl₃, hi₃, hkept₃⟩ := Stored.adopt_eq_ok
    (hc.stored.congr fun q hq => hkept₁ q (List.mem_append_left _ hq))
    (hi.congr fun q hq => hkept₁ q (List.mem_append_right _ hq)) hs₁ hnd hap hroom root
  rw [hc.page] at hset₂
  have hroot : Index.setRoot root ⟨x.tree, pool₃⟩ = .ok () ⟨{ x.tree with root }, pool₃⟩ :=
    Index.setRoot_eq_ok (x := ⟨x.tree, pool₃⟩) hx root
  rw [Action.bind_of_ok (Index.onPool_eq_ok hset₂), Action.bind_of_ok (Index.onPool_eq_ok hset₃)]
  refine .of_eq_ok hroot ?_
  have hpage₃ : pool₃.pages root = some node.page := by
    rw [hkept₃ root (fun e => hout _ (List.mem_append_left _ List.mem_cons_self) e.symm)
      fun e => hout _ (List.mem_append_right _ List.mem_cons_self) e.symm, hpages₁,
        Function.update_self]
  have hnode : NodeAt (x.tree.planFrom (h + 1) d.max) pool₃.pages root .none .none (h := h + 1)
      [(first, l), i] := by
    rw [← hc.page] at hholds
    exact .of_holds hpage₃ hholds
  have hap' : ∀ g ∈ gs, g.page ∉ root :: (l.pages ++ i.2.pages) := fun g hg hin => by
    rcases List.mem_cons.1 hin with e | hin
    · have := hs.pages_guard hg
      rw [e, hnone] at this
      cases this
    · exact hap g hg hin
  have ht := Tree.stands_two hfollows hfollows' hbelow hs₃ hap'
    (List.nodup_cons.2 ⟨fun hin => hout root hin rfl, hnd⟩) hnode hl₃ hi₃ hc.range
    (by simpa using hc.size) hc.filled
  refine ⟨root, _, rfl, ⟨hs₃, ha.withRoot _, .inr ⟨_, _, _, ht, ?_, Content.pages_two,
    hQ.grow hplan⟩⟩, ?_⟩
  · rw [Content.entries, Content.items_node, Items.entries_cons]
    exact hc.entries
  · refine (hpages₁ ▸ Trades.allocate hnone _ node.page).trans (.inside fun q hq => ?_)
    obtain ⟨-, hq⟩ := not_or.1 (List.mem_cons.not.1 hq)
    obtain ⟨hql, hqi⟩ := not_or.1 (List.mem_append.not.1 hq)
    exact hkept₃ q (fun e => hql (e ▸ List.mem_cons_self)) fun e => hqi (e ▸ List.mem_cons_self)

/-! ## Inserting -/

/-- A root that stays in its page is still a root. -/
theorem Tree.Stands.of_housed {pool' : Pool n m} {t l : Shape h} {f : PageId} {least : Nat}
    (ht : tree.Stands pool gs d t) (hs : pool'.Sound gs)
    (htrades : Trades pool.pages pool'.pages t.pages l.pages)
    (hc : Housed d pool'.pages .none .none 0 (KeyOrder.top d.width) least t.page f E l [])
    (hleast : rootLeast h ≤ l.items.length) :
    tree.Stands pool' gs d l ∧ l.entries = E := by
  obtain ⟨mid, hin, rfl⟩ := hc.range
  have hnd := hc.nodup
  rw [Items.pages_nil, List.append_nil] at hnd
  refine ⟨⟨ht.follows, ht.root.trans hc.page.symm,
    ⟨hs, hc.stored, hnd, ht.has.apart_of_trades htrades⟩,
    hin, ⟨hleast, hc.size.most, hc.size.below⟩⟩, ?_⟩
  rw [← hc.entries, Items.entries_nil, List.append_nil]

/-- Only the pages of the tree matter. -/
theorem Tree.Stands.of_pages {pool' : Pool n m} {t : Shape h} (ht : tree.Stands pool gs d t)
    (hs : pool'.Sound gs) (hpages : pool'.pages = pool.pages) : tree.Stands pool' gs d t :=
  ⟨ht.follows, ht.root, ht.has.of_pages hs hpages, ht.within, ht.sized⟩

/-- **What an insertion leaves**: the key was there, or the entry is in its place. `Left` is what is
said of the entries. -/
def Inserted (o : KeyOrder) (E : List (Key × RowId)) (key : Key) (row : RowId)
    (Left : List (Key × RowId) → Prop) (added : Bool) : Prop :=
  (added = false ∧ (∃ row', (key, row') ∈ E) ∧ Left E) ∨
  (added = true ∧ ∃ pre post, E = pre ++ post ∧ Below o (o.rank key) pre ∧
    Above o (o.rank key) post ∧ Left (pre ++ (key, row) :: post))

theorem Inserted.imp {o : KeyOrder} {row : RowId} {added : Bool} {L L' : List (Key × RowId) → Prop}
    (hi : Inserted o E key row L added) (hL : ∀ E, L E → L' E) : Inserted o E key row L' added := by
  rcases hi with ⟨hadded, hmem, hE⟩ | ⟨hadded, pre, post, hcut, hpre, hpost, hE⟩
  · exact .inl ⟨hadded, hmem, hL _ hE⟩
  · exact .inr ⟨hadded, pre, post, hcut, hpre, hpost, hL _ hE⟩

/-- What an action leaves of an index that took up the pages `old`: the tree has another root,
maybe, and has traded its pages for others. -/
def Index.Left (x : Index n m) (gs : List (Guard n)) (old : List PageId) (y : Index n m)
    (E : List (Key × RowId)) : Prop :=
  ∃ new, y.Occupies gs new E ∧ Trades x.pool.pages y.pool.pages old new

/-- The same of an index whose height and plan have a property. -/
def Index.LeftBy (Q : Nat → TreePlan → Prop) (x : Index n m) (gs : List (Guard n))
    (old : List PageId) (y : Index n m) (E : List (Key × RowId)) : Prop :=
  ∃ new, y.OccupiesBy Q gs new E ∧ Trades x.pool.pages y.pool.pages old new

theorem Index.LeftBy.left {Q : Nat → TreePlan → Prop} {old : List PageId} {y : Index n m}
    (hl : x.LeftBy Q gs old y E) : x.Left gs old y E := by
  obtain ⟨new, hy, htrades⟩ := hl
  exact ⟨new, hy.occupies, htrades⟩

theorem Index.Left.keeps {old : List PageId} {y : Index n m} (hl : x.Left gs old y E)
    (hx : x.tree.registration = none) (htree : ∃ root, y.tree = { x.tree with root }) :
    y.Keeps gs E := by
  obtain ⟨new, hy, -⟩ := hl
  obtain ⟨root, htree⟩ := htree
  exact hy.keeps (htree ▸ hx)

/-- **Inserting**, and the pages that it takes. -/
theorem Index.OccupiesBy.insert_ends {Q : Nat → TreePlan → Prop} (hQ : x.tree.Maintains Q)
    {old : List PageId} (hx : x.OccupiesBy Q gs old E) (hnone : x.tree.registration = none)
    (hkey : key.length = x.tree.keySize) (row : RowId) :
    Ends (Index.Stops (FullDisk gs 2)) (fun added y => (∃ root, y.tree = { x.tree with root }) ∧
      Inserted x.tree.order E key row (x.LeftBy Q gs old y) added) (Index.insert key row x) := by
  rcases hx.shape with ⟨hroot, rfl, rfl⟩ | ⟨d, h, t, ht, rfl, rfl, hplan⟩
  · rw [Index.insert_of_empty hkey hroot]
    refine Ends.bind ((Index.onPool_ends (Tree.newLeaf_ends hx.accepted hkey hx.sound row)).imp
      (fun e y hfull => hfull.mono (Nat.le_succ 1)) fun _ _ => id) ?_
    rintro root ⟨tree, pool'⟩ ⟨rfl, hs, t, ht, hentries, htrades⟩
    have hset : Index.setRoot root ⟨x.tree, pool'⟩ = .ok () ⟨{ x.tree with root }, pool'⟩ :=
      Index.setRoot_eq_ok (x := ⟨x.tree, pool'⟩) hnone root
    rw [Action.bind_of_ok hset]
    refine ⟨⟨root, rfl⟩, .inr ⟨rfl, [], [], rfl, nofun, nofun, t.pages, ?_, htrades⟩⟩
    exact ⟨hs, hx.accepted.withRoot _, .inr ⟨_, 0, t, ht, hentries, rfl, hQ.leaf⟩⟩
  rw [Index.insert_of_root hkey ht.not_isEmpty]
  refine Ends.bind (Index.onPool_ends (ht.root ▸ Tree.insertBelow_ends ht.follows
    (hkey.trans ht.follows.width) ht.height_lt ht.has ht.within ht.sized (Nat.zero_le _)
    (ht.rank_lt hkey) row)) ?_
  rintro done ⟨tree, pool'⟩ ⟨rfl, hs, ⟨rfl, hpages, hmem⟩ |
    ⟨pre, post, l, rest, hentries, hpre, hpost, rfl, htrades, hhoused⟩⟩
  · refine ⟨⟨x.tree.root, rfl⟩, .inl ⟨rfl, hmem, t.pages, ⟨hs, hx.accepted,
      .inr ⟨d, h, t, ht.of_pages hs hpages, rfl, rfl, hplan⟩⟩, ?_⟩⟩
    exact .inside fun q _ => congrFun hpages q
  rw [← ht.follows.order] at hpre hpost
  match rest, hhoused.one with
  | [], _ =>
    rw [Items.pages_nil, List.append_nil] at htrades
    have hleast := hhoused.size.least
    obtain ⟨ht', hE⟩ := ht.of_housed hs htrades hhoused hleast
    exact ⟨⟨x.tree.root, rfl⟩, .inr ⟨rfl, pre, post, hentries, hpre, hpost, l.pages,
      ⟨hs, hx.accepted, .inr ⟨d, h, l, ht', hE, rfl, hplan⟩⟩, htrades⟩⟩
  | [j], _ =>
    have hap := ht.has.apart_of_trades htrades
    rw [← ht.root] at hhoused
    refine Ends.bind ((Index.growRoot_ends (x := ⟨x.tree, pool'⟩) hQ hplan hx.accepted hnone
      ht.follows hs hap hhoused).imp (fun e y hfull => hfull.mono (Nat.le_succ 1)) fun _ _ => id) ?_
    rintro ⟨⟩ y ⟨root, new, htree, hy, hgrown⟩
    exact ⟨⟨root, htree⟩, .inr ⟨rfl, pre, post, hentries, hpre, hpost, new, hy,
      htrades.trans hgrown⟩⟩

theorem Index.insert_ends (hx : x.Keeps gs E) (hkey : key.length = x.tree.keySize) (row : RowId) :
    Ends (Stops (FullDisk gs 2)) (fun added y => (∃ root, y.tree = { x.tree with root }) ∧
      Inserted x.tree.order E key row (y.Keeps gs) added) (Index.insert key row x) := by
  obtain ⟨old, hold⟩ := hx.occupies
  refine (hold.by_true.insert_ends x.tree.maintains_true hx.unrecorded hkey row).mono
    fun added y hy => ?_
  exact ⟨hy.1, hy.2.imp fun E hleft => hleft.left.keeps hx.unrecorded hy.1⟩

/-! ## Removing -/

/-- A root that has what a root needs stays. -/
theorem Tree.rootHeir_stays (hd : d.Fits) {items : Items h} (hn : NodeAt d P p parent next items)
    (hlen : items.length ≤ d.max h) (hleast : rootLeast h ≤ items.length) :
    ∃ page, P p = some page ∧ Tree.rootHeir page = .ok none := by
  obtain ⟨node, hpage, hholds, hkind, hblock⟩ := hn.exists_node hd (Nat.le_succ_of_le hlen)
  have hsize : node.size = items.length := hholds.states.size.trans Items.length_records
  refine ⟨node.page, hpage, ?_⟩
  cases h with
  | zero =>
    have hpos : 0 < node.size := hsize ▸ hleast
    simp only [Tree.rootHeir, hkind, ok_bind, hblock, if_pos hpos]
    rfl
  | succ h =>
    have hpos : 1 < node.size := hsize ▸ hleast
    simp only [Tree.rootHeir, hkind, ok_bind, hblock, if_pos hpos]
    rfl

/-- An empty leaf gives way to no page. -/
theorem Tree.rootHeir_leaf (hd : d.Fits) (hn : NodeAt d P p parent next (h := 0) []) :
    ∃ page, P p = some page ∧ Tree.rootHeir page = .ok (some .none) := by
  obtain ⟨node, hpage, hholds, hkind, hblock⟩ := hn.exists_leaf hd (Nat.zero_le _)
  have hsize : ¬0 < node.size := by
    rw [hholds.states.size]
    decide
  refine ⟨node.page, hpage, ?_⟩
  simp only [Tree.rootHeir, hkind, ok_bind, hblock, if_neg hsize]
  rfl

/-- A root with a single child gives way to it. -/
theorem Tree.rootHeir_internal (hd : d.Fits) {i : Key × Shape h}
    (hn : NodeAt d P p parent next (h := h + 1) [i]) :
    ∃ page, P p = some page ∧ Tree.rootHeir page = .ok (some i.2.page) := by
  have hlen : ([i] : Items (h + 1)).length ≤ d.max (h + 1) + 1 := Nat.le_add_left ..
  obtain ⟨node, hpage, hholds, hkind, hblock⟩ := hn.exists_internal hd hlen
  have hsize : ¬1 < node.size := by
    rw [hholds.states.size]
    exact Nat.lt_irrefl 1
  have hchild : Internal.child node 0 = .ok i.2.page :=
    Internal.child_eq_ok hholds (r := Items.record i) rfl
  refine ⟨node.page, hpage, ?_⟩
  simp only [Tree.rootHeir, hkind, ok_bind, hblock, if_neg hsize, hchild]
  rfl

/-- The root is looked at, and every page stays as it is. -/
theorem Index.viewRoot_eq_ok (hs : x.pool.Sound gs) (hfree : ∀ g ∈ gs, g.page ≠ x.tree.root)
    (hroom : Room gs 1) {page : Page} {heir : Option PageId}
    (hpage : x.pool.pages x.tree.root = some page) (hheir : Tree.rootHeir page = .ok heir) :
    ∃ pool', onPool (Tree.view x.tree.root Tree.rootHeir) x = .ok heir ⟨x.tree, pool'⟩ ∧
      pool'.Sound gs ∧ pool'.pages = x.pool.pages := by
  obtain ⟨pool', hview, hs', hpages⟩ := Tree.view_eq_ok hs hpage hheir hfree hroom
  exact ⟨pool', Index.onPool_eq_ok hview, hs', hpages⟩

/-- An empty leaf is given up, and the tree has no root then. -/
theorem Index.shrinkRoot_leaf (hx : x.tree.registration = none) (hd : d.Fits) (hs : x.pool.Sound gs)
    (hfree : ∀ g ∈ gs, g.page ≠ x.tree.root) (hroom : Room gs 1)
    (hnode : NodeAt d x.pool.pages x.tree.root parent next (h := 0) []) :
    ∃ pool', Index.shrinkRoot x = .ok () ⟨{ x.tree with root := .none }, pool'⟩ ∧ pool'.Sound gs ∧
      Trades x.pool.pages pool'.pages [x.tree.root] [] := by
  obtain ⟨page, hpage, hheir⟩ := Tree.rootHeir_leaf hd hnode
  obtain ⟨pool₁, hview, hs₁, hpages₁⟩ := Index.viewRoot_eq_ok hs hfree hroom hpage hheir
  obtain ⟨pool₂, hdelete, hs₂, hpages₂⟩ := Tree.freePage_eq_ok hs₁ (hpages₁ ▸ hpage) hfree
  refine ⟨pool₂, ?_, hs₂, ?_⟩
  · rw [Index.shrinkRoot, Action.get_bind, Action.bind_of_ok hview]
    simp only [PageId.isSome_none, Bool.false_eq_true, if_false]
    exact (Action.bind_of_ok (Index.onPool_eq_ok hdelete)).trans
      (Index.setRoot_eq_ok (x := ⟨x.tree, pool₂⟩) hx .none)
  · rw [hpages₂, hpages₁]
    exact .free _ _ _

/-- A root with a single child is given up, and the child is the root then. -/
theorem Index.shrinkRoot_internal (hx : x.tree.registration = none) (hd : d.Fits)
    (hs : x.pool.Sound gs)
    {i : Key × Shape h} (hap : ∀ g ∈ gs, g.page ∉ x.tree.root :: i.2.pages) (hroom : Room gs 1)
    (hnode : NodeAt d x.pool.pages x.tree.root parent next (h := h + 1) [i])
    (hi : Stored d x.pool.pages p .none i.2) (hnd : (x.tree.root :: i.2.pages).Nodup) :
    ∃ pool', Index.shrinkRoot x = .ok () ⟨{ x.tree with root := i.2.page }, pool'⟩ ∧
      pool'.Has gs d .none .none i.2 ∧
      Trades x.pool.pages pool'.pages (x.tree.root :: i.2.pages) i.2.pages := by
  obtain ⟨hout, hndi⟩ := List.nodup_cons.1 hnd
  have hfree : ∀ g ∈ gs, g.page ≠ x.tree.root := fun g hg e => hap g hg (e ▸ List.mem_cons_self)
  obtain ⟨page, hpage, hheir⟩ := Tree.rootHeir_internal hd hnode
  obtain ⟨pool₁, hview, hs₁, hpages₁⟩ := Index.viewRoot_eq_ok hs hfree hroom hpage hheir
  rw [← hpages₁] at hi
  obtain ⟨pool₂, hset₂, hs₂, hi₂, hkept₂⟩ := hi.setParent_eq_ok .none hs₁ hndi
    (fun g hg e => hap g hg (.tail _ (e ▸ List.mem_cons_self))) hroom
  have hpage₂ : pool₂.pages x.tree.root = some page := by
    rw [hkept₂ x.tree.root fun e => hout (e ▸ List.mem_cons_self), hpages₁, hpage]
  obtain ⟨pool₃, hdelete, hs₃, hpages₃⟩ := Tree.freePage_eq_ok hs₂ hpage₂ hfree
  have hi₃ : Stored d pool₃.pages .none .none i.2 := hi₂.congr fun q hq => by
    rw [hpages₃, Function.update_of_ne fun (e : q = x.tree.root) => hout (e ▸ hq)]
  have hhas : pool₃.Has gs d .none .none i.2 :=
    ⟨hs₃, hi₃, hndi, fun g hg hin => hap g hg (.tail _ hin)⟩
  have hmoved : Trades x.pool.pages pool₂.pages (x.tree.root :: i.2.pages)
    (x.tree.root :: i.2.pages) :=
    .inside fun q hq => by rw [hkept₂ q fun e => hq (.tail _ (e ▸ List.mem_cons_self)), hpages₁]
  refine ⟨pool₃, ?_, hhas, hmoved.trans (hpages₃ ▸ .free _ _ _)⟩
  have hsome : i.2.page.isSome = true := PageId.isSome_iff.2 hhas.page_ne_none
  rw [Index.shrinkRoot, Action.get_bind, Action.bind_of_ok hview]
  simp only [hsome, if_true]
  rw [Action.bind_of_ok (Index.onPool_eq_ok hset₂), Action.bind_of_ok (Index.onPool_eq_ok hdelete)]
  exact Index.setRoot_eq_ok (x := ⟨x.tree, pool₃⟩) hx i.2.page

/-- **Replacing a superfluous root.** -/
theorem Index.shrinkRoot_eq_ok {Q : Nat → TreePlan → Prop} (hQ : x.tree.Maintains Q) (hplan : Q h d)
    (ha : x.tree.Accepted) (hx : x.tree.registration = none)
    (hfollows : x.tree.Follows d) (hroom : Room gs 1) {t l : Shape h} (hs : x.pool.Sound gs)
    (ht : x.tree.Stands pool gs d t) (htrades : Trades pool.pages x.pool.pages t.pages l.pages)
    (hc : Housed d x.pool.pages .none .none 0 (KeyOrder.top d.width) (rootLeast h - 1)
      t.page t.first E l []) :
    ∃ y new, Index.shrinkRoot x = .ok () y ∧ (∃ root, y.tree = { x.tree with root }) ∧
      y.OccupiesBy Q gs new E ∧ Trades x.pool.pages y.pool.pages l.pages new := by
  have hap := ht.has.apart_of_trades htrades
  have hroot : x.tree.root = l.page := ht.root.trans hc.page.symm
  have hfree : ∀ g ∈ gs, g.page ≠ x.tree.root := fun g hg e =>
    hap g hg (e.trans hroot ▸ List.mem_cons_self)
  have hnode := hc.stored.node
  rw [← hroot] at hnode
  by_cases hleast : rootLeast h ≤ l.items.length
  · obtain ⟨page, hpage, hheir⟩ := Tree.rootHeir_stays hfollows.fits hnode hc.size.most hleast
    obtain ⟨pool', hview, hs', hpages⟩ := Index.viewRoot_eq_ok hs hfree hroom hpage hheir
    obtain ⟨ht', hE⟩ := ht.of_housed hs htrades hc hleast
    refine ⟨⟨x.tree, pool'⟩, l.pages, ?_, ⟨x.tree.root, rfl⟩, ⟨hs', ha,
      .inr ⟨d, h, l, ht'.of_pages hs' hpages, hE, rfl, hplan⟩⟩, .inside fun q _ =>
        congrFun hpages q⟩
    rw [Index.shrinkRoot, Action.get_bind, Action.bind_of_ok hview]
    rfl
  have hE : l.entries = E := by rw [← hc.entries, Items.entries_nil, List.append_nil]
  -- one item less than a root needs is nothing in a leaf, and a single child in an internal node
  cases h with
  | zero =>
    have hnil : l.items = [] :=
      List.eq_nil_of_length_eq_zero (Nat.lt_one_iff.1 (Nat.lt_of_not_le hleast))
    have hone : l.pages = [x.tree.root] := hroot ▸ rfl
    obtain ⟨pool', hrun, hs', htrades'⟩ :=
      Index.shrinkRoot_leaf hx hfollows.fits hs hfree hroom (hnil ▸ hnode)
    refine ⟨_, [], hrun, ⟨_, rfl⟩, ⟨hs', ha.withRoot _, .inl ⟨rfl, ?_, rfl⟩⟩, hone ▸ htrades'⟩
    rw [← hE, Content.entries, hnil]
    rfl
  | succ h =>
    obtain ⟨i, hone⟩ := List.length_eq_one_iff.1 (Nat.le_antisymm
      (Nat.le_of_lt_succ (Nat.lt_of_not_le hleast)) hc.size.least)
    have hpages : l.pages = x.tree.root :: i.2.pages := by
      rw [Content.pages, hone, Items.pages_cons, Items.pages_nil, List.append_nil, hroot]
    obtain ⟨hnd, -⟩ := List.nodup_append.1 hc.nodup
    rw [hpages] at hnd hap
    obtain ⟨pool', hrun, hhas, htrades'⟩ := Index.shrinkRoot_internal hx hfollows.fits hs hap hroom
      (hone ▸ hnode) (linked_cons.1 (hone ▸ hc.stored.linked)).1 hnd
    obtain ⟨hsize, -⟩ := filled_cons.1 (hone ▸ hc.size.below)
    obtain ⟨mid, hin, rfl⟩ := hc.range
    have hin' : Spans d.order (Within d.order) 0 (KeyOrder.top d.width) [i] := hone ▸ hin
    obtain ⟨mid, hin', rfl⟩ := hin'
    have hsize' : i.2.Sized d (rootLeast h) :=
      ⟨Nat.le_trans (hfollows.fits.rootLeast_le h) hsize.least, hsize.most, hsize.below⟩
    refine ⟨_, i.2.pages, hrun, ⟨_, rfl⟩, ⟨hhas.sound, ha.withRoot _,
      .inr ⟨d, h, i.2, ⟨hfollows.withRoot _, rfl, hhas, hin', hsize'⟩, ?_, rfl, hQ.shrink hplan⟩⟩,
      hpages ▸ htrades'⟩
    have hall : l.entries = Items.entries [i] := by rw [Content.entries, hone]
    rw [← hE, hall, Items.entries_cons, Items.entries_nil, List.append_nil]

/-- **What a removal leaves**: there was no such key, or the other entries. `Left` is what is said
of them. -/
def Removed (o : KeyOrder) (E : List (Key × RowId)) (key : Key)
    (Left : List (Key × RowId) → Prop) (found : Bool) : Prop :=
  ∃ pre post, Below o (o.rank key) pre ∧ Above o (o.rank key) post ∧
    ((found = false ∧ E = pre ++ post ∧ Left E) ∨
      (found = true ∧ (∃ row, E = pre ++ (key, row) :: post) ∧ Left (pre ++ post)))

theorem Removed.imp {o : KeyOrder} {found : Bool} {L L' : List (Key × RowId) → Prop}
    (hr : Removed o E key L found) (hL : ∀ E, L E → L' E) : Removed o E key L' found := by
  obtain ⟨pre, post, hpre, hpost, ⟨hfound, hcut, hE⟩ | ⟨hfound, hcut, hE⟩⟩ := hr
  · exact ⟨pre, post, hpre, hpost, .inl ⟨hfound, hcut, hL _ hE⟩⟩
  · exact ⟨pre, post, hpre, hpost, .inr ⟨hfound, hcut, hL _ hE⟩⟩

/-- **Removing**, and the pages that it gives back. -/
theorem Index.OccupiesBy.remove_ends {Q : Nat → TreePlan → Prop} (hQ : x.tree.Maintains Q)
    {old : List PageId} (hx : x.OccupiesBy Q gs old E) (hnone : x.tree.registration = none)
    (hkey : key.length = x.tree.keySize) :
    Ends (Index.Stops (Crowded gs 3)) (fun found y => (∃ root, y.tree = { x.tree with root }) ∧
      Removed x.tree.order E key (x.LeftBy Q gs old y) found) (Index.remove key x) := by
  rcases hx.shape with ⟨hroot, rfl, rfl⟩ | ⟨d, h, t, ht, rfl, rfl, hplan⟩
  · refine .of_eq_ok (Index.remove_of_empty hkey hroot) ?_
    exact ⟨⟨x.tree.root, rfl⟩, [], [], nofun, nofun, .inl ⟨rfl, rfl, [], hx, .refl _ _⟩⟩
  rw [Index.remove_of_root hkey ht.not_isEmpty]
  refine Ends.bind (Index.onPool_ends (ht.root ▸ Tree.removeBelow_ends ht.follows
    (hkey.trans ht.follows.width) ht.height_lt ht.has ht.within ht.sized
    (ht.follows.fits.rootLeast_le h) two_le_rootLeast (Nat.zero_le _) (ht.rank_lt hkey))) ?_
  rintro done ⟨tree, pool'⟩ ⟨rfl, hs, ⟨rfl, hpages, pre, post, hentries, hpre, hpost⟩ |
    ⟨pre, row, post, short, l, hentries, hpre, hpost, rfl, -, htrades, hhoused⟩⟩
  · rw [← ht.follows.order] at hpre hpost
    have hkept : Index.OccupiesBy Q ⟨x.tree, pool'⟩ gs t.pages t.entries :=
      ⟨hs, hx.accepted, .inr ⟨d, h, t, ht.of_pages hs hpages, rfl, rfl, hplan⟩⟩
    exact ⟨⟨x.tree.root, rfl⟩, pre, post, hpre, hpost, .inl ⟨rfl, hentries, t.pages, hkept,
      .inside fun q _ => congrFun hpages q⟩⟩
  · rw [← ht.follows.order] at hpre hpost
    by_cases hroom : Room gs 1
    · obtain ⟨y, new, hshrink, htree, hy, hshrunk⟩ := Index.shrinkRoot_eq_ok (x := ⟨x.tree, pool'⟩)
        hQ hplan hx.accepted hnone ht.follows hroom hs ht htrades hhoused
      rw [Index.removeAbove, Action.bind_of_ok hshrink]
      exact ⟨htree, pre, post, hpre, hpost,
        .inr ⟨rfl, ⟨row, hentries⟩, new, hy, htrades.trans hshrunk⟩⟩
    · have hroot : x.tree.root = l.page := ht.root.trans hhoused.page.symm
      have hfree : ∀ g ∈ gs, g.page ≠ x.tree.root := fun g hg e =>
        ht.has.apart_of_trades htrades g hg (e.trans hroot ▸ List.mem_cons_self)
      obtain ⟨pool₁, hview, -⟩ := Tree.fetch_bind_eq_error hs
        (hroot ▸ hhoused.stored.allocated _ List.mem_cons_self) hfree hroom .read
      have hshrink : Index.shrinkRoot ⟨x.tree, pool'⟩ =
          .error (.refused .poolFull) ⟨x.tree, pool₁⟩ := by
        rw [Index.shrinkRoot, Action.get_bind]
        exact Action.bind_of_error (Index.onPool_eq_error hview)
      exact .of_eq_error (Action.bind_of_error hshrink) fun hk => hroom (hk.mono (by omega))

theorem Index.remove_ends (hx : x.Keeps gs E) (hkey : key.length = x.tree.keySize) :
    Ends (Stops (Crowded gs 3)) (fun found y => (∃ root, y.tree = { x.tree with root }) ∧
      Removed x.tree.order E key (y.Keeps gs) found) (Index.remove key x) := by
  obtain ⟨old, hold⟩ := hx.occupies
  refine (hold.by_true.remove_ends x.tree.maintains_true hx.unrecorded hkey).mono
    fun found y hy => ?_
  exact ⟨hy.1, hy.2.imp fun E hleft => hleft.left.keeps hx.unrecorded hy.1⟩

end PageStore
