import PageStore.Proofs.Tree.Map
import PageStore.Proofs.Tree.Reading

/-!
# Repairing one short child

A node is in order except that one of its children is an item short: `Lacks`. The child is repaired
with the sibling before it, or with the one behind it if it is the first, as `Window.Regroups` says.
The node is left in order, with the same entries in the same leaves, except one that was merged
away, and the rest of the disk is not touched: `Restored`. `Tree.rebalance_restores` is about a node
anywhere in a tree, at any height, the root included.
-/

namespace PageStore

open Pool Window

variable {n m : Nat} {d : TreePlan} {P P' : PageMap} {h : Nat} {p parent next : PageId}
  {lo hi : Nat} {pool : Pool n m} {gs : List (Guard n)} {pre post new rest : Items (h + 1)}
  {x y : Key × Shape h} {t : Shape h} {short : Bool} {moved : List (PageId × PageId)}

/-- The child `i` is one item short, and the node and all that is below it is in order otherwise.
The node has a sibling to repair the child with, and may be a root that has no more than that. -/
structure Lacks (d : TreePlan) (P : PageMap) (p parent next : PageId) (lo hi : Nat)
    (pre : Items (h + 1)) (i : Key × Shape h) (post : Items (h + 1)) : Prop where
  node : NodeAt d P p parent next (pre ++ i :: post)
  hangs : Hangs d P p next lo hi (pre ++ i :: post)
  two : 2 ≤ (pre ++ i :: post).length
  most : (pre ++ i :: post).length ≤ d.max (h + 1)
  short : i.2.items.length + 1 = d.min h
  below : Filled d i.2.items
  before : Filled d pre
  behind : Filled d post

/-- What a node is left with whose children `x` and `y` became `new`, while the children `moved`
changed nodes. -/
structure Restored (d : TreePlan) (P P' : PageMap) (p parent next : PageId) (lo hi : Nat)
    (pre : Items (h + 1)) (x y : Key × Shape h) (post new : Items (h + 1))
    (moved : List (PageId × PageId)) : Prop where
  node : NodeAt d P' p parent next (pre ++ new ++ post)
  /-- every node below states its parent and every leaf the next one, and separators bound what is
  beside them -/
  hangs : Hangs d P' p next lo hi (pre ++ new ++ post)
  filled : Filled d (pre ++ new ++ post)
  entries : Items.entries (pre ++ new ++ post) = Items.entries (pre ++ x :: y :: post)
  /-- a leaf that is merged away is taken out of the chain -/
  leaves : Items.leaves (pre ++ new ++ post) =
    if x.2.items.length + y.2.items.length ≤ d.max h then
      (Items.leaves (pre ++ x :: y :: post)).filter (· ≠ y.2.page)
    else Items.leaves (pre ++ x :: y :: post)
  chain : Strand d.width P' next (Items.leafNodes (pre ++ new ++ post))
  freed : P' y.2.page = none ↔ x.2.items.length + y.2.items.length ≤ d.max h
  told : ∀ c ∈ moved, ∃ page, P' c.1 = some page ∧ NodeHeader.parent page = .ok c.2
  others : ∀ q, q ∉ p :: x.2.page :: y.2.page :: moved.map Prod.fst → P' q = P q

/-! ## Children that changed nodes -/

/-- The nodes below items name the node that the items are in. -/
theorem Linked.parent_eq_ok {l : Items h} (hl : Linked d P p next l) {c : PageId}
    (hc : c ∈ l.children) : ∃ page, P c = some page ∧ NodeHeader.parent page = .ok p := by
  cases h with
  | zero => cases hc
  | succ h =>
    obtain ⟨i, hi, rfl⟩ := List.mem_map.1 hc
    obtain ⟨next', hstored⟩ := Row.of_mem hl hi
    obtain ⟨page, hpage, hholds⟩ := hstored.node
    exact ⟨page, hpage, hholds.states.parent_eq_ok⟩

namespace Window.Regroups

/-- A child that moved is below its new parent. -/
theorem exists_of_moved (hr : Regroups d short x y new moved) {c : PageId × PageId}
    (hc : c ∈ moved) : ∃ i ∈ new, c.1 ∈ i.2.items.children ∧ c.2 = i.2.page := by
  cases hr with
  | join _ =>
    obtain ⟨q, hq, rfl⟩ := List.mem_map.1 hc
    refine ⟨_, List.mem_singleton_self _, ?_, rfl⟩
    rw [joined, Content.items_node, Items.children_append, Items.children_rejoin]
    exact List.mem_append_right _ hq
  | first _ _ =>
    obtain ⟨q, hq, rfl⟩ := List.mem_map.1 hc
    refine ⟨_, List.mem_cons_self, ?_, rfl⟩
    rw [Content.items_node, Items.children_append]
    exact List.mem_append_right _ hq
  | @last _ _ c l _ _ =>
    obtain ⟨q, hq, rfl⟩ := List.mem_map.1 hc
    refine ⟨_, .tail _ (List.mem_singleton_self _), ?_, rfl⟩
    exact (Items.children_append [c] (y.2.items.rejoin y.1)).symm ▸ List.mem_append_left _ hq

/-- A child that moved names its new parent. -/
theorem told (hr : Regroups d short x y new moved) (hl : Linked d P p next new) :
    ∀ c ∈ moved, ∃ page, P c.1 = some page ∧ NodeHeader.parent page = .ok c.2 := by
  intro c hc
  obtain ⟨i, hi, hchild, hparent⟩ := hr.exists_of_moved hc
  obtain ⟨next', hstored⟩ := Row.of_mem hl hi
  exact hparent ▸ hstored.linked.parent_eq_ok hchild

/-! ## The chain of leaves -/

/-- The items in a row stay the same, but for the key between the two. -/
theorem items_eq (hr : Regroups d short x y new moved) :
    new.flatMap (fun i => i.2.items) = x.2.items ++ y.2.items.rejoin y.1 := by
  cases hr with
  | join _ => exact List.append_nil _
  | first _ hcut => simp [hcut]
  | last _ hcut => simp [hcut]

/-- The second node is left exactly if the two do not fit in one. -/
theorem pages_eq (hr : Regroups d short x y new moved) : new.map (fun i => i.2.page) =
    if x.2.items.length + y.2.items.length ≤ d.max h then [x.2.page] else [x.2.page, y.2.page] := by
  cases hr with
  | join hfit => rw [if_pos hfit]; rfl
  | first hbig _ => rw [if_neg (Nat.not_le_of_lt hbig)]; rfl
  | last hbig _ => rw [if_neg (Nat.not_le_of_lt hbig)]; rfl

/-- **The leaves of the two** are those that there were, without one that was merged away. -/
theorem leaves_eq (hr : Regroups d short x y new moved) (hnd : (x.2.pages ++ y.2.pages).Nodup) :
    Items.leaves new = if x.2.items.length + y.2.items.length ≤ d.max h then
      (x.2.leaves ++ y.2.leaves).filter (· ≠ y.2.page) else x.2.leaves ++ y.2.leaves := by
  obtain ⟨-, hy, hdisj⟩ := List.nodup_append.1 hnd
  have hleft : ∀ q ∈ x.2.leaves, q ≠ y.2.page := fun q hq =>
    hdisj q (x.2.leaves_sublist.subset hq) _ List.mem_cons_self
  cases h with
  | zero =>
    have hpages : Items.leaves new = new.map fun i => i.2.page := List.map_eq_flatMap.symm
    rw [hpages, hr.pages_eq]
    refine if_congr Iff.rfl ?_ rfl
    have hne := hleft x.2.page List.mem_cons_self
    simp [Content.leaves, hne]
  | succ h =>
    have hitems : Items.leaves new = Items.leaves (new.flatMap fun i => i.2.items) :=
      (List.flatMap_assoc ..).symm
    have hsame : Items.leaves new = x.2.leaves ++ y.2.leaves := by
      rw [hitems, hr.items_eq, Items.leaves_append, Items.leaves_rejoin]
      rfl
    rw [hsame]
    refine (ite_eq_right_iff.2 fun _ => List.filter_eq_self.2 fun q hq => decide_eq_true ?_).symm
    rcases List.mem_append.1 hq with hq | hq
    · exact hleft q hq
    · rintro rfl
      exact (List.nodup_cons.1 hy).1 (Items.leaves_sublist _ |>.subset hq)

end Window.Regroups

/-! ## The node above -/

/-- Leaves beside the two are not the second of the two. -/
theorem Window.filter_leaves (w : Window d P p parent next lo hi pre x y post) :
    (Items.leaves (pre ++ x :: y :: post)).filter (· ≠ y.2.page) =
      Items.leaves pre ++ (x.2.leaves ++ y.2.leaves).filter (· ≠ y.2.page) ++
        Items.leaves post := by
  have hall := w.hangs.nodup
  rw [pages_window] at hall
  obtain ⟨hleft, -, hbehind⟩ := List.nodup_append.1 hall
  obtain ⟨-, -, hbefore⟩ := List.nodup_append.1 hleft
  have hin : y.2.page ∈ x.2.pages ++ y.2.pages := List.mem_append_right _ List.mem_cons_self
  have hpre : ∀ q ∈ Items.leaves pre, q ≠ y.2.page := fun q hq =>
    hbefore q (.tail _ ((Items.leaves_sublist pre).subset hq)) _ hin
  have hpost : ∀ q ∈ Items.leaves post, q ≠ y.2.page := fun q hq e =>
    hbehind _ (List.mem_append_right _ hin) q ((Items.leaves_sublist post).subset hq) e.symm
  have hcut : Items.leaves (pre ++ x :: y :: post) =
      Items.leaves pre ++ (x.2.leaves ++ y.2.leaves) ++ Items.leaves post := by
    rw [Items.leaves_append, List.append_assoc, List.append_assoc]
    rfl
  rw [hcut, List.filter_append, List.filter_append,
    List.filter_eq_self.2 fun q hq => decide_eq_true (hpre q hq),
    List.filter_eq_self.2 fun q hq => decide_eq_true (hpost q hq)]

/-- **Mending restores the node.** -/
theorem Mends.restored (m : Mends d P P' p parent next lo hi pre x y post t rest)
    (w : Window d P p parent next lo hi pre x y post) (hd : d.Fits)
    (hr : Regroups d short x y ((x.1, t) :: rest) moved) (hpre : Filled d pre)
    (hpost : Filled d post)
    (hfreed : P' y.2.page = none ↔ x.2.items.length + y.2.items.length ≤ d.max h)
    (hothers : ∀ q, q ∉ p :: x.2.page :: y.2.page :: moved.map Prod.fst → P' q = P q) :
    Restored d P P' p parent next lo hi pre x y post ((x.1, t) :: rest) moved := by
  have hrow : pre ++ (x.1, t) :: (rest ++ post) = pre ++ ((x.1, t) :: rest) ++ post :=
    (List.append_assoc pre ((x.1, t) :: rest) post).symm
  have hnode := m.node
  have hhangs := m.hangs
  have hentries := m.entries_eq
  rw [hrow] at hnode hhangs hentries
  have hfilled : Filled d (pre ++ ((x.1, t) :: rest) ++ post) :=
    filled_append.2 ⟨filled_append.2 ⟨hpre, m.filled⟩, hpost⟩
  have hcount : (pre ++ ((x.1, t) :: rest) ++ post).length ≤ d.max (h + 1) := by
    have hmost := w.most
    have hone := m.one
    simp only [List.length_append, List.length_cons] at hmost ⊢
    omega
  have hstored : Stored d P' parent next (Content.node p (pre ++ ((x.1, t) :: rest) ++ post)) :=
    stored_iff.2 ⟨hnode, hhangs.linked⟩
  have hsized : (Content.node p (pre ++ ((x.1, t) :: rest) ++ post)).Sized d 0 :=
    ⟨Nat.zero_le _, hcount, hfilled⟩
  refine ⟨hnode, hhangs, hfilled, hentries, ?_, hstored.strand hd hsized.capped hhangs.ordered,
    hfreed, hr.told (linked_append.1 (linked_append.1 hhangs.linked).1).2, hothers⟩
  rw [Items.leaves_append, Items.leaves_append, hr.leaves_eq (List.nodup_cons.1 w.nodup).2,
    w.filter_leaves]
  split
  · rfl
  · rw [Items.leaves_append, List.append_assoc, List.append_assoc]
    rfl

/-- **A short child is repaired and nothing is lost.** A node anywhere in a tree has a child that is
one item short, and three frames are free of guards. The child and its sibling before it, or behind
it if it is the first, are joined if they fit in one node, and share one item otherwise. The node is
left in order, and reports whether it is short now. -/
theorem Tree.rebalance_restores (hd : d.Fits) (hs : pool.Sound gs) (hroom : Room gs 3)
    {i : Key × Shape h} (hlacks : Lacks d pool.pages p parent next lo hi pre i post)
    (hap : ∀ g ∈ gs, g.page ∉ p :: Items.pages (pre ++ i :: post)) :
    ∃ before x y behind new moved pool', pre ++ i :: post = before ++ x :: y :: behind ∧
      before.length = pre.length - 1 ∧ Regroups d (pre.length = 0) x y new moved ∧
      Tree.rebalance p pre.length pool =
        .ok (decide ((before ++ new ++ behind).length < d.min (h + 1))) pool' ∧
      pool'.Sound gs ∧
      Restored d pool.pages pool'.pages p parent next lo hi before x y behind new moved := by
  have hshort := hlacks.short
  have hmin : d.min h ≤ d.max h := by
    have := (hd.capacity_pos h).1
    rw [TreePlan.min, minSize]
    omega
  obtain ⟨before, x, y, behind, hcut, hindex, w, hboth, hbefore, hbehind⟩ :=
    Window.of_short hlacks.node hlacks.hangs hlacks.most hlacks.two hlacks.before hlacks.behind
      ⟨by omega, by omega, hlacks.below⟩ (by omega)
  obtain ⟨t, rest, moved, pool', hr, hrun, hs', m, hfreed, hothers⟩ :=
    w.mends hd hs hroom (hcut ▸ hap) hindex hboth
  refine ⟨before, x, y, behind, (x.1, t) :: rest, moved, pool', hcut, hindex.symm, hr, ?_, hs',
    m.restored w hd hr hbefore hbehind hfreed hothers⟩
  rw [hrun, List.append_assoc]
  rfl

/-! ## A pool with three nodes -/

/-- A root with two leaves, of which the first is an item short. The second gives it one. -/
theorem Tree.rebalance_restores_one : ∃ (d : TreePlan) (n m : Nat) (pool pool' : Pool n m)
    (p a b : PageId) (x y : Key × Shape 0),
    x = ([0], Content.node a [([3], Content.ofRow ⟨⟨9⟩, 1⟩)]) ∧
    y = ([5], Content.node b [([5], Content.ofRow ⟨⟨9⟩, 2⟩), ([6], Content.ofRow ⟨⟨9⟩, 3⟩),
      ([7], Content.ofRow ⟨⟨9⟩, 4⟩)]) ∧
    d.Fits ∧ pool.Sound [] ∧ Room ([] : List (Guard n)) 3 ∧
    Lacks d pool.pages p .none .none 0 256 [] x [y] ∧ Tree.rebalance p 0 pool = .ok false pool' ∧
    Restored d pool.pages pool'.pages p .none .none 0 256 [] x y []
      [([0], Content.node a [([3], Content.ofRow ⟨⟨9⟩, 1⟩), ([5], Content.ofRow ⟨⟨9⟩, 2⟩)]),
        ([6], Content.node b [([6], Content.ofRow ⟨⟨9⟩, 3⟩),
          ([7], Content.ofRow ⟨⟨9⟩, 4⟩)])] [] := by
  obtain ⟨o, hstart, hframes, -⟩ := @OpenPool.start_fresh ⟨3, .lru⟩ ⟨1⟩ rfl rfl .missing rfl
  have hroom : Room ([] : List (Guard o.frames)) 3 := hframes.ge
  obtain ⟨l, hlen, hnd, hbytes⟩ :=
    OpenPool.exists_chosen (k := 3) rfl rfl rfl hstart (by decide) (by decide)
  obtain ⟨p, a, b, rfl⟩ := List.length_eq_three.1 hlen
  simp only [List.nodup_cons, List.mem_cons, List.not_mem_nil, or_false, not_or] at hnd
  obtain ⟨⟨hpa, hpb⟩, hab, -⟩ := hnd
  have hd : TreePlan.Fits ⟨.bytewise, 1, fun _ => 3⟩ := by
    refine ⟨Nat.one_pos, fun h => ?_, fun h => ?_⟩
    · cases h with
      | zero => exact (by decide : leastMax 0 ≤ 3)
      | succ h => exact Nat.le_refl 3
    · cases h with
      | zero => exact (by decide : 3 ≤ NodeKind.leaf.capacity 1)
      | succ h => exact (by decide : 3 ≤ NodeKind.internal.capacity 1)
  obtain ⟨root, hroot⟩ := hd.exists_node (h := 1) p .none .none
    [([0], Content.node a [([3], Content.ofRow ⟨⟨9⟩, 1⟩)]),
      ([5], Content.node b [([5], Content.ofRow ⟨⟨9⟩, 2⟩), ([6], Content.ofRow ⟨⟨9⟩, 3⟩),
        ([7], Content.ofRow ⟨⟨9⟩, 4⟩)])] (Nat.le_succ 2) (by simp)
  obtain ⟨left, hleft⟩ := hd.exists_node (h := 0) a p b [([3], Content.ofRow ⟨⟨9⟩, 1⟩)] (by decide)
    (by simp)
  obtain ⟨right, hright⟩ := hd.exists_node (h := 0) b p .none
    [([5], Content.ofRow ⟨⟨9⟩, 2⟩), ([6], Content.ofRow ⟨⟨9⟩, 3⟩), ([7], Content.ofRow ⟨⟨9⟩, 4⟩)]
    (by decide) (by simp)
  obtain ⟨-, pool, -, hs, hpages⟩ := hbytes fun q =>
    if q = p then root.page else if q = a then left.page else right.page
  have hlacks : Lacks ⟨.bytewise, 1, fun _ => 3⟩ pool.pages p .none .none 0 256 []
      ([0], Content.node a [([3], Content.ofRow ⟨⟨9⟩, 1⟩)])
      [([5], Content.node b [([5], Content.ofRow ⟨⟨9⟩, 2⟩), ([6], Content.ofRow ⟨⟨9⟩, 3⟩),
        ([7], Content.ofRow ⟨⟨9⟩, 4⟩)])] := by
    refine ⟨.of_holds ?_ hroot, ⟨⟨.of_holds ?_ hleft, .of_holds ?_ hright, trivial⟩, ?_, ?_⟩,
      Nat.le_refl 2, Nat.le_succ 2, (rfl : 1 + 1 = minSize 3), trivial, List.forall_mem_nil _, ?_⟩
    · rw [hpages p (by simp), if_pos rfl]
    · rw [hpages _ (by simp), Content.page_node, if_neg (Ne.symm hpa), if_pos rfl]
    · rw [hpages _ (by simp), Content.page_node, if_neg (Ne.symm hpb), if_neg (Ne.symm hab)]
    · refine ⟨5, ⟨by decide, List.pairwise_singleton .., ?_⟩,
        (by decide : KeyOrder.bytewise.rank [5] = 5), 256, ⟨by decide, ?_, ?_⟩, rfl⟩
      · exact List.forall_mem_singleton.2 (by decide)
      · rw [Content.items_node, Sorted]
        decide
      · rw [Content.items_node]
        decide
    · simp [Items.pages, hpa, hpb, hab]
    · exact filled_cons.2 ⟨⟨(by decide : minSize 3 ≤ 3), Nat.le_refl 3, trivial⟩,
        List.forall_mem_nil _⟩
  obtain ⟨before, x, y, behind, new, moved, pool', hcut, hindex, hr, hrun, -, hrestored⟩ :=
    Tree.rebalance_restores hd hs hroom hlacks (List.forall_mem_nil _)
  obtain rfl : before = [] := List.length_eq_zero_iff.1 hindex
  obtain ⟨hx, hrest⟩ := List.cons.inj hcut
  obtain ⟨hy, rfl⟩ := List.cons.inj hrest
  subst hx hy
  cases hr with
  | join hfit => exact absurd hfit (by decide : ¬1 + 3 ≤ 3)
  | first _ hcut =>
    obtain ⟨rfl, hrest⟩ := List.cons.inj hcut
    obtain ⟨rfl, rfl⟩ := List.cons.inj hrest
    exact ⟨_, _, _, pool, pool', p, a, b, _, _, rfl, rfl, hd, hs, hroom, hlacks, hrun, hrestored⟩

end PageStore
