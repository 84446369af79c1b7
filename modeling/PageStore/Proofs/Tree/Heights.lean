import Mathlib.Algebra.Order.BigOperators.Group.List
import Mathlib.Tactic.Ring
import PageStore.Proofs.Tree.Reach

/-!
# Levels and entries

All leaves of a tree are at one depth, and its nodes have between a least and a largest number of
items. So the number of levels bounds the number of entries from both sides. Only the root may have
less than the least number; with more than one level it has two children at least.

* `Tree.HasLevels`: walks from the root come to leaves on the last level, and on no other;
* `Legible.heightFrom_eq_ok`: that level is what a walk by first children counts;
* `Filled.length_entries_le`, `Filled.le_length_entries`: how many entries a node of a height has
  room for, and how many it has at least.

The largest sizes of all nodes at a height are those of new nodes as long as the settings of the
tree stay the same: `Tree.Uniform`.
-/

namespace PageStore

open Pool

variable {n m : Nat} {P : PageMap} {h k width lo hi : Nat} {p q : PageId} {pool : Pool n m}
  {gs : List (Guard n)} {tree : Tree} {d : TreePlan}

/-! ## Walks that are counted -/

/-- A walk by so many child pointers comes from a page to another. -/
inductive Descends (P : PageMap) : Nat → PageId → PageId → Prop
  | here (p : PageId) : Descends P 0 p p
  | down {k : Nat} {p c q : PageId} {page : Page} {children : List PageId} (hpage : P p = some page)
    (hchildren : Tree.childPages page = .ok children) (hc : c ∈ children)
    (hq : Descends P k c q) : Descends P (k + 1) p q

/-- The tree has its leaves on the last of so many levels. -/
structure Tree.HasLevels (tree : Tree) (P : PageMap) (levels : Nat) : Prop where
  /-- a walk from the root comes to a leaf when it has come to the last level -/
  leaf_iff : ∀ {k q}, Descends P k tree.root q →
    ∃ page, P q = some page ∧ (NodeHeader.kind page = .ok .leaf ↔ k + 1 = levels)
  /-- some walk comes there -/
  last : ∃ k q, Descends P k tree.root q ∧ k + 1 = levels

/-- **Walks below a node that can be read** come to leaves at its height. -/
theorem Legible.leaf_iff {t : Shape h} (ht : Legible width P t) (hq : Descends P k t.page q) :
    ∃ page, P q = some page ∧ (NodeHeader.kind page = .ok .leaf ↔ k = h) := by
  induction h generalizing k with
  | zero =>
    obtain ⟨node, hd, hpage, -, -, hholds⟩ := ht.reads
    have hkind := hholds.states.kind_eq_ok
    cases hq with
    | here => exact ⟨node.page, hpage, iff_of_true hkind rfl⟩
    | down hpage' hchildren hc hq =>
      rw [Option.some.inj (hpage'.symm.trans hpage), Tree.childPages_leaf hkind] at hchildren
      cases hchildren
      cases hc
  | succ h ih =>
    obtain ⟨node, hd, hpage, -, hblock, hholds⟩ := ht.reads
    have hkind := hholds.states.kind_eq_ok
    cases hq with
    | here =>
      refine ⟨node.page, hpage, iff_of_false (fun hleaf => ?_) (Nat.succ_ne_zero h).symm⟩
      rw [hkind] at hleaf
      cases hleaf
    | down hpage' hchildren hc hq =>
      rw [Option.some.inj (hpage'.symm.trans hpage),
        Tree.childPages_internal hkind hblock hholds] at hchildren
      cases hchildren
      obtain ⟨i, hi, rfl⟩ := List.mem_map.1 hc
      obtain ⟨page, hlast, hiff⟩ := ih (ht.2 i hi) hq
      exact ⟨page, hlast, hiff.trans Nat.succ_inj.symm⟩

/-- Some walk comes to a leaf. -/
theorem Legible.exists_descends {t : Shape h} {o : KeyOrder} (ht : Legible width P t)
    (hin : Within o lo hi t) : ∃ q, Descends P h t.page q := by
  induction h generalizing lo hi with
  | zero => exact ⟨t.page, .here _⟩
  | succ h ih =>
    obtain ⟨i, l, hcut⟩ := List.exists_cons_of_ne_nil (Spans.ne_nil hin)
    have hi : i ∈ t.items := hcut ▸ List.mem_cons_self
    obtain ⟨a, b, hchild⟩ := Spans.range_of_mem hin i hi
    obtain ⟨q, hq⟩ := ih (ht.2 i hi) hchild
    obtain ⟨page, hpage, hchildren⟩ := ht.childPages_eq_ok
    exact ⟨q, .down hpage hchildren (List.mem_map_of_mem hi) hq⟩

/-- **A tree that can be read** has a level more than its height. -/
theorem Tree.Readable.hasLevels {t : Shape h} (hr : tree.Readable P t) :
    tree.HasLevels P (h + 1) := by
  refine ⟨fun hq => ?_, ?_⟩
  · rw [hr.root] at hq
    obtain ⟨page, hpage, hiff⟩ := hr.legible.leaf_iff hq
    exact ⟨page, hpage, hiff.trans Nat.succ_inj.symm⟩
  · obtain ⟨q, hq⟩ := hr.legible.exists_descends hr.within
    exact ⟨h, q, hr.root ▸ hq, rfl⟩

/-! ## Counting levels -/

/-- **The levels below a node** are counted by going to its first child. -/
theorem Legible.heightFrom_eq_ok (tree : Tree) {t : Shape h} {fuel : Nat} {o : KeyOrder}
    (ht : Legible width pool.pages t) (hin : Within o lo hi t) (hs : pool.Sound gs)
    (hfree : ∀ g ∈ gs, g.page ∉ t.pages) (hroom : Room gs 1) (hfuel : h < fuel) :
    ∃ pool', tree.heightFrom fuel t.page pool = .ok (h + 1) pool' ∧ pool'.Sound gs ∧
      pool'.pages = pool.pages := by
  have hout : ∀ g ∈ gs, g.page ≠ t.page := fun g hg hgp => hfree g hg (hgp ▸ List.mem_cons_self)
  obtain ⟨fuel, rfl⟩ := Nat.exists_eq_add_one_of_ne_zero (Nat.ne_zero_of_lt hfuel)
  induction h generalizing pool lo hi fuel with
  | zero =>
    obtain ⟨node, hd, hpage, -, -, hholds⟩ := ht.reads
    obtain ⟨pool', hview, hs', hpages⟩ := Tree.view_eq_ok hs hpage
      (Tree.route_leaf hholds.states.kind_eq_ok none : tree.route none node.page = _) hout hroom
    refine ⟨pool', ?_, hs', hpages⟩
    rw [Tree.heightFrom, Action.bind_of_ok hview]
    rfl
  | succ h ih =>
    obtain ⟨node, hd, hpage, -, hblock, hholds⟩ := ht.reads
    obtain ⟨i, l, hcut⟩ := List.exists_cons_of_ne_nil (Spans.ne_nil hin)
    have hi : i ∈ t.items := hcut ▸ List.mem_cons_self
    obtain ⟨a, b, hchild⟩ := Spans.range_of_mem hin i hi
    have hroute : tree.route none node.page = .ok (some (0, i.2.page)) := by
      have hfirst : Internal.child node 0 = .ok i.2.page := by
        refine Internal.child_eq_ok hholds (r := Items.record i) ?_
        rw [hcut]
        rfl
      simp only [Tree.route, hholds.states.kind_eq_ok, ok_bind, hblock, hfirst]
      rfl
    obtain ⟨pool₁, hview, hs₁, hpages₁⟩ := Tree.view_eq_ok hs hpage hroute hout hroom
    have hsub : ∀ g ∈ gs, g.page ∉ i.2.pages := fun g hg hmem =>
      hfree g hg (.tail _ (List.mem_flatMap.2 ⟨i, hi, hmem⟩))
    have hdown : ∃ pool', tree.heightFrom fuel i.2.page pool₁ = .ok (h + 1) pool' ∧
        pool'.Sound gs ∧ pool'.pages = pool₁.pages := by
      obtain ⟨fuel, rfl⟩ := Nat.exists_eq_add_one_of_ne_zero
        (Nat.ne_zero_of_lt (Nat.lt_of_succ_lt_succ hfuel))
      exact ih (hpages₁ ▸ ht.2 i hi) hchild hs₁ hsub
        (fun g hg hgp => hsub g hg (hgp ▸ List.mem_cons_self)) fuel (Nat.lt_of_succ_lt_succ hfuel)
    obtain ⟨pool', hrun, hs', hpages'⟩ := hdown
    refine ⟨pool', ?_, hs', hpages'.trans hpages₁⟩
    rw [Tree.heightFrom, Action.bind_of_ok hview]
    exact (Action.bind_of_ok hrun).trans rfl

/-- **The height of a tree that can be read.** -/
theorem Tree.Readable.height_eq_ok {t : Shape h} (hr : tree.Readable pool.pages t)
    (hs : pool.Sound gs) (hfree : ∀ g ∈ gs, g.page ∉ t.pages) (hroom : Room gs 1) :
    ∃ pool', tree.height pool = .ok (h + 1) pool' := by
  obtain ⟨pool', hrun, -⟩ := hr.legible.heightFrom_eq_ok tree hr.within hs hfree hroom hr.height
  refine ⟨pool', ?_⟩
  rw [Tree.height, if_neg hr.not_isEmpty, hr.root]
  exact hrun

/-! ## Counting entries -/

theorem Items.length_entries_succ (l : Items (h + 1)) :
    l.entries.length = (l.map fun i => i.2.entries.length).sum := List.length_flatMap

/-- **Room for entries.** Items of a height lead to so many entries at most. -/
theorem Filled.length_entries_le {L I : Nat} {l : Items h} (hl : Filled d l) (hleaf : d.max 0 = L)
    (hinternal : ∀ k < h, d.max (k + 1) = I) (hlen : l.length ≤ d.max h) :
    l.entries.length ≤ L * I ^ h := by
  induction h with
  | zero =>
    rw [pow_zero, mul_one, ← hleaf]
    exact hlen
  | succ h ih =>
    have hchild : ∀ i ∈ l, i.2.entries.length ≤ L * I ^ h := by
      intro i hi
      obtain ⟨-, hmost, hbelow⟩ := hl i hi
      exact ih hbelow (fun k hk => hinternal k (Nat.lt_succ_of_lt hk)) hmost
    have hsum := List.sum_le_card_nsmul (l.map fun i => i.2.entries.length) (L * I ^ h)
      (List.forall_mem_map.2 hchild)
    rw [List.length_map, Nat.nsmul_eq_mul] at hsum
    calc l.entries.length = (l.map fun i => i.2.entries.length).sum := Items.length_entries_succ l
      _ ≤ l.length * (L * I ^ h) := hsum
      _ ≤ I * (L * I ^ h) := Nat.mul_le_mul_right _ (hinternal h (Nat.lt_succ_self h) ▸ hlen)
      _ = L * I ^ (h + 1) := by ring

/-- **Entries there have to be.** Each node below, which is no root, has so many at least. -/
theorem Filled.le_length_entries {L I : Nat} {l : Items (h + 1)} (hl : Filled d l)
    (hleaf : d.max 0 = L) (hinternal : ∀ k < h, d.max (k + 1) = I) :
    l.length * (minSize I ^ h * minSize L) ≤ l.entries.length := by
  induction h with
  | zero =>
    have hchild : ∀ i ∈ l, minSize L ≤ i.2.entries.length := fun i hi => hleaf ▸ (hl i hi).1
    have hsum := List.card_nsmul_le_sum (l.map fun i => i.2.entries.length) (minSize L)
      (List.forall_mem_map.2 hchild)
    rw [List.length_map, Nat.nsmul_eq_mul] at hsum
    rw [pow_zero, one_mul, Items.length_entries_succ]
    exact hsum
  | succ h ih =>
    have hchild : ∀ i ∈ l, minSize I ^ (h + 1) * minSize L ≤ i.2.entries.length := by
      intro i hi
      obtain ⟨hleast, -, hbelow⟩ := hl i hi
      have hmin : minSize I ≤ i.2.items.length := by
        rw [TreePlan.min, hinternal h (Nat.lt_succ_self h)] at hleast
        exact hleast
      calc minSize I ^ (h + 1) * minSize L = minSize I * (minSize I ^ h * minSize L) := by ring
        _ ≤ i.2.items.length * (minSize I ^ h * minSize L) := Nat.mul_le_mul_right _ hmin
        _ ≤ i.2.entries.length := ih hbelow fun k hk => hinternal k (Nat.lt_succ_of_lt hk)
    have hsum := List.card_nsmul_le_sum (l.map fun i => i.2.entries.length)
      (minSize I ^ (h + 1) * minSize L) (List.forall_mem_map.2 hchild)
    rw [List.length_map, Nat.nsmul_eq_mul] at hsum
    rw [Items.length_entries_succ]
    exact hsum

/-! ## Trees whose settings stay the same -/

/-- The largest sizes of the nodes of the tree are those of new nodes. -/
def Tree.Uniform (tree : Tree) (h : Nat) (d : TreePlan) : Prop :=
  ∀ k ≤ h, d.max k = tree.limits.at k

/-- New nodes do not spoil that. -/
theorem Tree.maintains_uniform (tree : Tree) : tree.Maintains tree.Uniform where
  leaf := by
    intro k _
    rw [planFrom]
    dsimp only
    rw [if_neg (Nat.not_lt_zero k)]
  grow := by
    intro h d hd k hk
    rw [planFrom]
    dsimp only
    split
    · next hlt => exact hd k (Nat.le_of_lt_succ hlt)
    · rfl
  shrink := fun hd k hk => hd k (Nat.le_succ_of_le hk)

/-- The number of levels is logarithmic in the number of entries: `n` of them, in nodes with at most
`L` entries in a leaf and at most `I` children. -/
structure IsLogarithmic (levels n L I : Nat) : Prop where
  /-- full nodes have no more -/
  most : n ≤ L * I ^ (levels - 1)
  /-- a root with two children, and nodes that are half full, have no less -/
  least : 2 ≤ levels → 2 * minSize I ^ (levels - 2) * minSize L ≤ n

/-- **The levels of a tree** whose nodes are as large as new ones. -/
theorem Tree.Stands.isLogarithmic {t : Shape h} (ht : tree.Stands pool gs d t)
    (hd : tree.Uniform h d) :
    IsLogarithmic (h + 1) t.entries.length tree.limits.leafMax tree.limits.internalMax := by
  have hleaf : d.max 0 = tree.limits.leafMax := hd 0 (Nat.zero_le h)
  have hinternal : ∀ k < h, d.max (k + 1) = tree.limits.internalMax := fun k hk => hd (k + 1) hk
  refine ⟨ht.sized.below.length_entries_le hleaf hinternal ht.sized.most, fun htwo => ?_⟩
  obtain ⟨h, rfl⟩ := Nat.exists_eq_add_one_of_ne_zero (Nat.ne_of_gt (Nat.lt_of_succ_lt_succ htwo))
  have hroot : 2 ≤ t.items.length := ht.sized.least
  calc 2 * minSize tree.limits.internalMax ^ h * minSize tree.limits.leafMax
      = 2 * (minSize tree.limits.internalMax ^ h * minSize tree.limits.leafMax) := mul_assoc ..
    _ ≤ t.items.length * (minSize tree.limits.internalMax ^ h * minSize tree.limits.leafMax) :=
      Nat.mul_le_mul_right _ hroot
    _ ≤ t.entries.length :=
      ht.sized.below.le_length_entries hleaf fun k hk => hinternal k (Nat.lt_succ_of_lt hk)

/-- **One level** is enough for entries that are too few for two leaves. -/
theorem IsLogarithmic.le_one {levels n L I : Nat} (h : IsLogarithmic levels n L I)
    (hI : 0 < minSize I) (hfew : n < 2 * minSize L) : levels ≤ 1 := by
  by_contra hlevels
  have hleast := h.least (Nat.lt_of_not_le hlevels)
  have hpow : 2 * minSize L ≤ 2 * minSize I ^ (levels - 2) * minSize L :=
    Nat.mul_le_mul_right _ (Nat.le_mul_of_pos_right 2 (Nat.pow_pos hI))
  omega

/-- **Two levels** are what entries need that are too many for a leaf, and too few for a root with
half full nodes on two levels below it. -/
theorem IsLogarithmic.eq_two {levels n L I : Nat} (h : IsLogarithmic levels n L I) (hmore : L < n)
    (hfew : n < 2 * minSize I * minSize L) : levels = 2 := by
  have hmost := h.most
  obtain _ | _ | _ | k := levels
  · rw [Nat.zero_sub, pow_zero, mul_one] at hmost
    omega
  · rw [Nat.sub_self, pow_zero, mul_one] at hmost
    omega
  · rfl
  · have hleast : 2 * minSize I ^ (k + 1) * minSize L ≤ n := h.least (by omega)
    have hpow : minSize I ≤ minSize I ^ (k + 1) := Nat.le_self_pow (Nat.succ_ne_zero k) _
    have hroot : 2 * minSize I * minSize L ≤ 2 * minSize I ^ (k + 1) * minSize L :=
      Nat.mul_le_mul_right _ (Nat.mul_le_mul_left 2 hpow)
    omega

/-! ## Settings -/

theorem TreeConfig.of_resolve {c : TreeConfig} {leafCapacity internalCapacity : Nat}
    {l : NodeLimits} (h : c.resolve leafCapacity internalCapacity = .ok l) :
    l = ⟨c.leafMax.getD leafCapacity, c.internalMax.getD internalCapacity⟩ := by
  simp only [resolve] at h
  split at h
  · cases h
  · split at h <;> cases h
    rfl

theorem Tree.limits_of_create {order : KeyOrder} {keySize : Nat} {config : TreeConfig}
    (h : Tree.create order keySize config = .ok tree) :
    tree.limits = ⟨config.leafMax.getD (NodeKind.leaf.capacity keySize),
      config.internalMax.getD (NodeKind.internal.capacity keySize)⟩ := by
  rw [Tree.create] at h
  split at h
  · cases h
  · obtain ⟨limits, hresolve, hret⟩ := of_bind_eq_ok h
    cases hret
    exact TreeConfig.of_resolve hresolve

end PageStore
