import PageStore.Proofs.Tree.Mend

/-!
# Rebalancing

A child that is one item short is repaired together with a neighbour. The two are joined when their
items fit in one node, and share them otherwise; either way no node below the parent is short
afterwards: `rebalance_ends`.
-/

namespace PageStore

open Pool

variable {n m : Nat} {d : TreePlan} {P P' : PageMap} {h : Nat} {p parent next : PageId}
  {lo hi : Nat} {pool : Pool n m} {gs : List (Guard n)} {pre post rest : Items (h + 1)}
  {x y : Key × Shape h} {t : Shape h}

/-- Two neighbouring children of a stored node, and all that a repair of the two relies on. -/
structure Window (d : TreePlan) (P : PageMap) (p parent next : PageId) (lo hi : Nat)
    (pre : Items (h + 1)) (x y : Key × Shape h) (post : Items (h + 1)) : Prop where
  node : NodeAt d P p parent next (pre ++ x :: y :: post)
  hangs : Hangs d P p next lo hi (pre ++ x :: y :: post)
  most : (pre ++ x :: y :: post).length ≤ d.max (h + 1)
  left : x.2.Sized d (d.min h - 1)
  right : y.2.Sized d (d.min h - 1)

/-- What a repair makes of the two: one node, or a node and one more, none of them short. -/
structure Mends (d : TreePlan) (P P' : PageMap) (p parent next : PageId) (lo hi : Nat)
    (pre : Items (h + 1)) (x y : Key × Shape h) (post : Items (h + 1)) (t : Shape h)
    (rest : Items (h + 1)) : Prop where
  node : NodeAt d P' p parent next (pre ++ (x.1, t) :: (rest ++ post))
  hangs : Hangs d P' p next lo hi (pre ++ (x.1, t) :: (rest ++ post))
  trades : Trades P P' (p :: Items.pages (pre ++ x :: y :: post))
    (p :: Items.pages (pre ++ (x.1, t) :: (rest ++ post)))
  first : t.first = x.2.first
  entries : t.entries ++ Items.entries rest = x.2.entries ++ y.2.entries
  filled : Filled d ((x.1, t) :: rest)
  one : rest.length ≤ 1

namespace Window

theorem stored (w : Window d P p parent next lo hi pre x y post) :
    Stored d P p y.2.first x.2 ∧ Stored d P p (post.head next) y.2 := by
  obtain ⟨hx, hrest⟩ := linked_cons.1 (linked_append.1 w.hangs.linked).2
  exact ⟨hx, (linked_cons.1 hrest).1⟩

theorem width (w : Window d P p parent next lo hi pre x y post) : y.1.length = d.width := by
  obtain ⟨page, -, hholds⟩ := w.node
  refine hholds.width (Items.record y) ?_
  rw [Items.records]
  exact List.mem_map_of_mem (by simp)

theorem nodup (w : Window d P p parent next lo hi pre x y post) :
    (p :: (x.2.pages ++ y.2.pages)).Nodup := by
  have hall := w.hangs.nodup
  rw [pages_window] at hall
  refine hall.sublist ?_
  rw [List.append_assoc, List.cons_append]
  exact (((List.sublist_append_left ..).trans (List.sublist_append_right ..))).cons_cons p

theorem nonempty (w : Window d P p parent next lo hi pre x y post) (hd : d.Fits) (hh : 0 < h) :
    x.2.items ≠ [] ∧ y.2.items ≠ [] := by
  have hmin := hd.two_le_min hh
  have hleft := w.left.least
  have hright := w.right.least
  constructor <;> refine List.ne_nil_of_length_pos ?_ <;> omega

/-- The node and the two children are on three pages. -/
theorem pages_ne (w : Window d P p parent next lo hi pre x y post) :
    p ≠ x.2.page ∧ p ≠ y.2.page ∧ x.2.page ≠ y.2.page := by
  obtain ⟨hp, hnd⟩ := List.nodup_cons.1 w.nodup
  exact ⟨fun e => hp (e ▸ List.mem_append_left _ List.mem_cons_self),
    fun e => hp (e ▸ List.mem_append_right _ List.mem_cons_self),
    (List.nodup_append.1 hnd).2.2 _ List.mem_cons_self _ List.mem_cons_self⟩

/-- What is below the two is on other pages than the three. -/
theorem below_ne (w : Window d P p parent next lo hi pre x y post) {q : PageId}
    (hq : q ∈ x.2.items.pages ++ y.2.items.pages) : q ≠ p ∧ q ≠ x.2.page ∧ q ≠ y.2.page := by
  obtain ⟨hp, hnd⟩ := List.nodup_cons.1 w.nodup
  obtain ⟨hndx, hndy, hdisj⟩ := List.nodup_append.1 hnd
  rcases List.mem_append.1 hq with hq | hq
  · exact ⟨fun e => hp (e ▸ List.mem_append_left _ (.tail _ hq)),
      fun e => (List.nodup_cons.1 hndx).1 (e ▸ hq), hdisj q (.tail _ hq) _ List.mem_cons_self⟩
  · exact ⟨fun e => hp (e ▸ List.mem_append_right _ (.tail _ hq)),
      fun e => hdisj _ List.mem_cons_self q (.tail _ hq) e.symm,
      fun e => (List.nodup_cons.1 hndy).1 (e ▸ hq)⟩

/-- The row below the first of the two goes on in the row below the second. -/
theorem row_left (w : Window d P p parent next lo hi pre x y post) (hd : d.Fits)
    (hkept : ∀ q ∈ x.2.items.pages, P' q = P q) :
    Linked d P' x.2.page (y.2.items.head (post.head next)) x.2.items :=
  ((linked_first fun hh => (w.nonempty hd hh).2).1 w.stored.1.linked).congr hkept

theorem row_right (w : Window d P p parent next lo hi pre x y post)
    (hkept : ∀ q ∈ y.2.items.pages, P' q = P q) : Linked d P' y.2.page (post.head next) y.2.items :=
  w.stored.2.linked.congr hkept

/-- The first part of a rebalancing depends on the repair of the two nodes alone. -/
theorem begin (w : Window d pool.pages p parent next lo hi pre x y post) (hd : d.Fits)
    (hs : pool.Sound gs) (hroom : Room gs 3)
    (hap : ∀ g ∈ gs, g.page ∉ p :: Items.pages (pre ++ x :: y :: post)) {childIndex : Nat}
    (hindex : childIndex - 1 = pre.length) :
    ∃ (node : Internal) (left right : Node (levelKind h)),
      node.Holds (d.header (h + 1) p parent next) (Items.records (pre ++ x :: y :: post)) ∧
      left.Holds (d.header h x.2.page p y.2.first) x.2.items.records ∧
      right.Holds (d.header h y.2.page p (post.head next)) y.2.items.records ∧
      ∀ out node', repairAt h left right y.1 (childIndex = 0) = .ok out →
        Internal.afterRepair node pre.length out.separator = .ok node' →
        ∃ pool', Tree.rebalance p childIndex pool = Tree.followUp
            (Tree.aftermath ⟨pre.length, x.2.page, y.2.page, y.1⟩ node' out) pool' ∧
          pool'.Sound gs ∧ pool'.pages =
            Tree.mended pool.pages p ⟨pre.length, x.2.page, y.2.page, y.1⟩ node' out := by
  obtain ⟨hx, hy⟩ := w.stored
  obtain ⟨node, hpage, hholds, -, hblock⟩ := w.node.exists_internal hd (Nat.le_succ_of_le w.most)
  obtain ⟨left, hpagel, hleft, hkind, hblockl⟩ :=
    hx.node.exists_node hd (Nat.le_succ_of_le w.left.most)
  obtain ⟨right, hpager, hright, -, hblockr⟩ :=
    hy.node.exists_node hd (Nat.le_succ_of_le w.right.most)
  obtain ⟨hpx, hpy, hxy⟩ := w.pages_ne
  have hxin : x.2.page ∈ x.2.pages ++ y.2.pages := List.mem_append_left _ List.mem_cons_self
  have hyin : y.2.page ∈ x.2.pages ++ y.2.pages := List.mem_append_right _ List.mem_cons_self
  have hin : ∀ q ∈ x.2.pages ++ y.2.pages, q ∈ p :: Items.pages (pre ++ x :: y :: post) :=
    fun q hq => by
      rw [pages_window]
      exact List.mem_append_left _ (List.mem_append_right _ hq)
  refine ⟨node, left, right, hholds, hleft, hright, fun out node' hout hafter => ?_⟩
  exact Tree.rebalance_eq hs hroom hholds hpage hpagel hpager hblock hkind hblockl hblockr
    (fun g hg => ⟨fun e => hap g hg (e ▸ List.mem_cons_self), fun e => hap g hg (e ▸ hin _ hxin),
      fun e => hap g hg (e ▸ hin _ hyin)⟩) hpx hpy hxy hindex hout hafter

/-! ### Joining -/

/-- The first of two nodes with the items of both. -/
def joined (x y : Key × Shape h) : Shape h :=
  Content.node x.2.page (x.2.items ++ y.2.items.rejoin y.1)

theorem pages_joined (x y : Key × Shape h) :
    (joined x y).pages = x.2.pages ++ Items.pages y.2.items := by
  rw [Content.pages, Content.pages, joined, Content.page_node, Content.items_node,
    Items.pages_append, Items.pages_rejoin, List.cons_append]

theorem length_joined (x y : Key × Shape h) :
    (joined x y).items.length = x.2.items.length + y.2.items.length := by
  rw [joined, Content.items_node, List.length_append, Items.length_rejoin]

/-- **The two are one node**, once the pages are as they should be. -/
theorem mends_join (w : Window d P p parent next lo hi pre x y post) (hd : d.Fits)
    (hleast : d.min h ≤ x.2.items.length + y.2.items.length)
    (hmost : x.2.items.length + y.2.items.length ≤ d.max h)
    (hnode : NodeAt d P' p parent next (pre ++ x :: post))
    (hleft : NodeAt d P' x.2.page p (post.head next) (joined x y).items)
    (hfreed : P' y.2.page = none)
    (hrow : Linked d P' x.2.page (post.head next) y.2.items)
    (hkept : ∀ q, q ∉ y.2.pages → q ≠ p → q ≠ x.2.page → P' q = P q) :
    Mends d P P' p parent next lo hi pre x y post (joined x y) [] := by
  obtain ⟨-, hnd⟩ := List.nodup_cons.1 w.nodup
  obtain ⟨-, -, hdisj⟩ := List.nodup_append.1 hnd
  have hne := w.nonempty hd
  have hfirst : (joined x y).first = x.2.first := Content.first_append _ _ fun hh => (hne hh).1
  have hlinked : Linked d P' x.2.page (y.2.items.head (post.head next)) x.2.items :=
    w.row_left hd fun q hq => by
      obtain ⟨hqp, hqx, -⟩ := w.below_ne (List.mem_append_left _ hq)
      exact hkept q (fun hin => hdisj q (.tail _ hq) q hin rfl) hqp hqx
  have hstored : Stored d P' p (post.head next) (joined x y) := by
    refine stored_iff.2 ⟨hleft, linked_append.2 ⟨?_, linked_rejoin.2 hrow⟩⟩
    rw [Items.head_rejoin]
    exact hlinked
  -- the left node keeps its page and the right node's page, the only one to go, is freed
  obtain ⟨hhangs, htrades⟩ := w.hangs.mend P' (joined x y) [] (by
    intro q hq
    rw [List.mem_cons, List.mem_append, not_or, not_or] at hq
    exact hkept q hq.2.2 hq.1 fun e => hq.2.1 (e ▸ List.mem_cons_self)) (by
    intro q hq
    rw [Items.pages_nil, List.append_nil, pages_joined] at hq
    exact (List.mem_append.1 hq).elim (List.mem_append_left _) fun hin =>
      List.mem_append_right _ (.tail _ hin)) (by
    rw [Items.pages_nil, List.append_nil, pages_joined]
    exact hnd.sublist ((List.sublist_cons_self ..).append_left _)) (by
    intro q hq hq'
    rw [Items.pages_nil, List.append_nil, pages_joined] at hq'
    obtain ⟨hqx, hqy⟩ := not_or.1 (List.mem_append.not.1 hq')
    rcases List.mem_cons.1 ((List.mem_append.1 hq).resolve_left hqx) with rfl | hin
    · exact hfreed
    · exact absurd hin hqy) (linked_cons.2 ⟨hstored, trivial⟩) hfirst
    fun a mid b hxin hkey hyin => ⟨b, hxin.join hyin hkey, rfl⟩
  have hrecords : Items.records (pre ++ (x.1, joined x y) :: post) =
      Items.records (pre ++ x :: post) := Items.records_child rfl
  refine ⟨?_, hhangs, htrades, hfirst, ?_, filled_cons.2 ⟨⟨?_, ?_, ?_⟩, nofun⟩, Nat.zero_le _⟩
  · obtain ⟨page, hpage, hholds⟩ := hnode
    exact ⟨page, hpage, hrecords.symm ▸ hholds⟩
  · rw [Items.entries_nil, List.append_nil, Content.entries, joined, Content.items_node,
      Items.entries_append, Items.entries_rejoin]
    rfl
  · rw [length_joined]
    exact hleast
  · rw [length_joined]
    exact hmost
  · exact filled_append.2 ⟨w.left.below, filled_rejoin.2 w.right.below⟩

/-- **Two nodes that fit in one** become one. -/
theorem join (w : Window d pool.pages p parent next lo hi pre x y post) (hd : d.Fits)
    (hs : pool.Sound gs) (hroom : Room gs 3)
    (hap : ∀ g ∈ gs, g.page ∉ p :: Items.pages (pre ++ x :: y :: post)) {childIndex : Nat}
    (hindex : childIndex - 1 = pre.length)
    (hleast : d.min h ≤ x.2.items.length + y.2.items.length)
    (hfit : x.2.items.length + y.2.items.length ≤ d.max h) :
    ∃ pool', Tree.rebalance p childIndex pool =
        .ok (decide ((pre ++ (x.1, joined x y) :: post).length < d.min (h + 1))) pool' ∧
      pool'.Sound gs ∧
      Mends d pool.pages pool'.pages p parent next lo hi pre x y post (joined x y) [] ∧
      pool'.pages y.2.page = none ∧ ∀ q, q ∉ p :: x.2.page :: y.2.page :: y.2.items.children →
        pool'.pages q = pool.pages q := by
  obtain ⟨node, left, right, hnode, hleft, hright, hbegin⟩ := w.begin hd hs hroom hap hindex
  obtain ⟨hpx, hpy, hxy⟩ := w.pages_ne
  obtain ⟨-, hndy, -⟩ := List.nodup_append.1 (List.nodup_cons.1 w.nodup).2
  obtain ⟨-, hndrow⟩ := List.nodup_cons.1 hndy
  obtain ⟨out, hout, hsep, htoLeft, htoRight, hjoined⟩ :=
    repairAt_join hd hleft hright hfit (fun hh => (w.nonempty hd hh).2) w.width (childIndex = 0)
  obtain ⟨node', hafter, hnode'⟩ := Tree.afterRepair_join hnode
  obtain ⟨pool₁, hrun, hs₁, hpages₁⟩ := hbegin out node' hout (hsep ▸ hafter)
  have hapy : ∀ g ∈ gs, g.page ∉ y.2.pages := fun g hg hin => hap g hg (by
    rw [pages_window]
    exact List.mem_append_left _ (List.mem_append_right _ (List.mem_append_right _ hin)))
  -- the emptied page is freed, and the children of its node learn of their new parent
  obtain ⟨pool₂, hfree, hs₂, hpages₂⟩ := Tree.freePage_eq_ok hs₁ (p := y.2.page)
    (by rw [hpages₁]; exact Tree.mended_right) fun g hg e => hapy g hg (e ▸ List.mem_cons_self)
  have hkept : ∀ q, q ≠ p → q ≠ x.2.page → q ≠ y.2.page → pool₂.pages q = pool.pages q :=
    fun q hqp hqx hqy => by
      rw [hpages₂, Function.update_of_ne hqy, hpages₁]
      exact Tree.mended_other hqp hqx hqy
  have hrow : Linked d pool₂.pages y.2.page (post.head next) y.2.items := w.row_right fun q hq => by
    obtain ⟨hqp, hqx, hqy⟩ := w.below_ne (List.mem_append_right _ hq)
    exact hkept q hqp hqx hqy
  obtain ⟨pool₃, hmoved, hs₃, hrow₃, hkept₃⟩ := Items.setParents_eq_ok hs₂ hrow hndrow
    (fun g hg hin => hapy g hg (.tail _ hin)) (hroom.mono (by omega)) x.2.page
  have hcount : node'.size = (pre ++ (x.1, joined x y) :: post).length := by
    rw [hnode'.states.size, Items.length_records, List.length_append, List.length_append,
      List.length_cons, List.length_cons]
  have hmax : node'.maxSize = d.max (h + 1) := hnode'.states.maxSize
  have hbelow : ∀ q ∈ y.2.items.children, q ≠ p ∧ q ≠ x.2.page ∧ q ≠ y.2.page := fun q hq =>
    w.below_ne (List.mem_append_right _ (Items.children_subset hq))
  have hfreed : pool₃.pages y.2.page = none := by
    rw [hkept₃ _ fun hin => (hbelow _ hin).2.2 rfl, hpages₂, Function.update_self]
  refine ⟨pool₃, ?_, hs₃, w.mends_join hd hleast hfit (.of_holds ?_ hnode') (.of_holds ?_ hjoined)
    hfreed hrow₃ fun q hqy hqp hqx => ?_, hfreed, fun q hq => ?_⟩
  · rw [hrun, ← hcount, TreePlan.min, ← hmax]
    simp only [Tree.followUp, Tree.aftermath, hsep, htoLeft, htoRight, List.map_nil,
      List.append_nil, Option.isNone_none, if_true]
    rw [Action.bind_of_ok hfree, Action.bind_of_ok hmoved]
    rfl
  · rw [hkept₃ p fun hin => (hbelow p hin).1 rfl, hpages₂,
      Function.update_of_ne hpy, hpages₁, Tree.mended_parent hpx hpy]
  · rw [hkept₃ _ fun hin => (hbelow _ hin).2.1 rfl, hpages₂,
      Function.update_of_ne hxy, hpages₁]
    exact Tree.mended_left hxy
  · rw [hkept₃ q fun hin => hqy (.tail _ (Items.children_subset hin))]
    exact hkept q hqp hqx fun e => hqy (e ▸ List.mem_cons_self)
  · simp only [List.mem_cons, not_or] at hq
    obtain ⟨hqp, hqx, hqy, hqmoved⟩ := hq
    rw [hkept₃ q hqmoved]
    exact hkept q hqp hqx hqy

/-! ### Sharing -/

variable {short : Bool} {l r : Items h} {z : Key × Content h}

/-- The pages of two nodes that shared their items. -/
theorem pages_shared (hshare : Share short x.2.items (y.2.items.rejoin y.1) l (z :: r)) :
    ((Content.node x.2.page l).pages ++ Items.pages [(z.1, Content.node y.2.page (z :: r))]).Perm
      (x.2.pages ++ y.2.pages) := by
  have hrow : l.pages ++ Items.pages (z :: r) = x.2.items.pages ++ y.2.items.pages := by
    rw [← Items.pages_append, hshare.append_eq, Items.pages_append, Items.pages_rejoin]
  rw [Items.pages_cons, Items.pages_nil, List.append_nil]
  refine List.perm_middle.trans ?_
  change (y.2.page :: x.2.page :: (l.pages ++ Items.pages (z :: r))).Perm _
  rw [hrow]
  have hback : (x.2.pages ++ y.2.pages).Perm
      (y.2.page :: (x.2.pages ++ y.2.items.pages)) := List.perm_middle
  exact hback.symm

/-- **The two have other items**, once the pages are as they should be. -/
theorem mends_share (w : Window d P p parent next lo hi pre x y post) (hd : d.Fits)
    (hshare : Share short x.2.items (y.2.items.rejoin y.1) l (z :: r))
    (hlenl : d.min h ≤ l.length ∧ l.length ≤ d.max h)
    (hlenr : d.min h ≤ r.length + 1 ∧ r.length + 1 ≤ d.max h)
    (hnode : NodeAt d P' p parent next (pre ++ x :: (z.1, y.2) :: post))
    (hleft : NodeAt d P' x.2.page p y.2.first l)
    (hright : NodeAt d P' y.2.page p (post.head next) (z :: r))
    (hrowl : Linked d P' x.2.page (Items.head (post.head next) (z :: r)) l)
    (hrowr : Linked d P' y.2.page (post.head next) (z :: r))
    (hkept : ∀ q, q ∉ p :: (x.2.pages ++ y.2.pages) → P' q = P q) :
    Mends d P P' p parent next lo hi pre x y post (Content.node x.2.page l)
      [(z.1, Content.node y.2.page (z :: r))] := by
  have hperm := pages_shared hshare
  have hne := w.nonempty hd
  have hpos : l ≠ [] := by
    have := (hd.capacity_pos h).1
    rw [TreePlan.min, minSize] at hlenl
    exact List.ne_nil_of_length_pos (by omega)
  have hfirst : (Content.node x.2.page l).first = x.2.first := by
    rw [← Content.first_append x.2.page (z :: r) fun _ => hpos, hshare.append_eq]
    exact Content.first_append _ _ fun hh => (hne hh).1
  have hstored : Stored d P' p (Content.node y.2.page (z :: r)).first
      (Content.node x.2.page l) := by
    refine stored_iff.2 ⟨?_, (linked_first fun _ => List.cons_ne_nil z r).2 hrowl⟩
    cases h with
    | zero => exact hleft
    | succ h => exact hleft
  -- no page is freed, and the range of the whole is cut at the key that now starts the right node
  obtain ⟨hhangs, htrades⟩ := w.hangs.mend P' (Content.node x.2.page l)
    [(z.1, Content.node y.2.page (z :: r))] hkept (fun q => hperm.mem_iff.1)
    (hperm.nodup_iff.2 (List.nodup_cons.1 w.nodup).2)
    (fun q hq hq' => absurd (hperm.mem_iff.2 hq) hq')
    (linked_cons.2 ⟨hstored, linked_cons.2 ⟨stored_iff.2 ⟨hright, hrowr⟩, trivial⟩⟩) hfirst
    fun a mid b hxin hkey hyin => by
      have hboth := hxin.join hyin hkey
      rw [← hshare.append_eq] at hboth
      obtain ⟨hlow, hhigh⟩ := hboth.cut hpos
      exact ⟨d.order.rank z.1, hlow, rfl, b, hhigh, rfl⟩
  have hbelow : Filled d (l ++ z :: r) := by
    rw [hshare.append_eq]
    exact filled_append.2 ⟨w.left.below, filled_rejoin.2 w.right.below⟩
  obtain ⟨hfl, hfr⟩ := filled_append.1 hbelow
  refine ⟨?_, hhangs, htrades, hfirst, ?_, filled_cons.2 ⟨⟨hlenl.1, hlenl.2, hfl⟩,
    filled_cons.2 ⟨⟨hlenr.1, hlenr.2, hfr⟩, List.forall_mem_nil _⟩⟩, Nat.le_refl _⟩
  · obtain ⟨page, hpage, hholds⟩ := hnode
    refine ⟨page, hpage, ?_⟩
    rw [Items.records_append] at hholds ⊢
    exact hholds
  · rw [Items.entries_cons, Items.entries_nil, List.append_nil]
    have := congrArg Items.entries hshare.append_eq
    rw [Items.entries_append, Items.entries_append, Items.entries_rejoin] at this
    exact this

/-- Who is short has an item more after sharing, and who gave it is not short. -/
theorem share_lengths (w : Window d P p parent next lo hi pre x y post)
    (hshare : Share short x.2.items (y.2.items.rejoin y.1) l (z :: r))
    (hshort : if short then x.2.items.length < d.min h else y.2.items.length < d.min h)
    (hbig : d.max h < x.2.items.length + y.2.items.length) :
    (d.min h ≤ l.length ∧ l.length ≤ d.max h) ∧
      d.min h ≤ r.length + 1 ∧ r.length + 1 ≤ d.max h := by
  obtain ⟨hsum, hfirst, hlast⟩ := hshare.length_eq
  rw [Items.length_rejoin, List.length_cons] at hsum hlast
  have hmin : d.min h = (d.max h + 1) / 2 := rfl
  have hleft := w.left.least
  have hright := w.right.least
  have hleft' := w.left.most
  have hright' := w.right.most
  cases short with
  | true =>
    have hone := hfirst rfl
    rw [if_pos rfl] at hshort
    omega
  | false =>
    have hone := hlast rfl
    rw [if_neg Bool.false_ne_true] at hshort
    omega

/-- The neighbour of a short child can give an item away. -/
theorem gives (hd : d.Fits) {childIndex : Nat}
    (hshort : if childIndex = 0 then x.2.items.length < d.min h else y.2.items.length < d.min h)
    (hbig : d.max h < x.2.items.length + y.2.items.length) :
    if decide (childIndex = 0) then 2 ≤ y.2.items.length else 1 ≤ x.2.items.length := by
  have hmin : d.min h = (d.max h + 1) / 2 := rfl
  have htwo := (hd.capacity_pos h).1
  by_cases hzero : childIndex = 0
  · rw [if_pos hzero] at hshort
    rw [if_pos (decide_eq_true hzero)]
    omega
  · rw [if_neg hzero] at hshort
    rw [if_neg (mt of_decide_eq_true hzero)]
    omega

/-- **Two nodes that do not fit in one** share their items. -/
theorem share (w : Window d pool.pages p parent next lo hi pre x y post) (hd : d.Fits)
    (hs : pool.Sound gs) (hroom : Room gs 3)
    (hap : ∀ g ∈ gs, g.page ∉ p :: Items.pages (pre ++ x :: y :: post)) {childIndex : Nat}
    (hindex : childIndex - 1 = pre.length)
    (hshort : if childIndex = 0 then x.2.items.length < d.min h else y.2.items.length < d.min h)
    (hbig : d.max h < x.2.items.length + y.2.items.length) :
    ∃ l z r pool', Share (childIndex = 0) x.2.items (y.2.items.rejoin y.1) l (z :: r) ∧
      Tree.rebalance p childIndex pool = .ok (decide ((pre ++ (x.1, Content.node x.2.page l) ::
        (z.1, Content.node y.2.page (z :: r)) :: post).length < d.min (h + 1))) pool' ∧
      pool'.Sound gs ∧
      Mends d pool.pages pool'.pages p parent next lo hi pre x y post (Content.node x.2.page l)
        [(z.1, Content.node y.2.page (z :: r))] ∧
      ∀ q, q ∉ p :: x.2.page :: y.2.page :: (Items.children (l.drop x.2.items.length) ++
        Items.children ((z :: r).take (r.length + 1 - y.2.items.length))) →
        pool'.pages q = pool.pages q := by
  obtain ⟨node, left, right, hnode, hleft, hright, hbegin⟩ := w.begin hd hs hroom hap hindex
  obtain ⟨hpx, hpy, hxy⟩ := w.pages_ne
  obtain ⟨-, hnd⟩ := List.nodup_cons.1 w.nodup
  obtain ⟨out, l, z, r, hout, hshare, hsep, htoLeft, htoRight, hl, hr⟩ :=
    repairAt_share hd hleft hright hbig w.left.most w.right.most (gives hd hshort hbig)
      (fun hh => (w.nonempty hd hh).2) w.width
  have hkey : z.1.length = d.width := hr.width (Items.record z) List.mem_cons_self
  obtain ⟨node', hafter, hnode'⟩ := Tree.afterRepair_share hnode hkey
  obtain ⟨pool₁, hrun, hs₁, hpages₁⟩ := hbegin out node' hout (hsep ▸ hafter)
  have hkept : ∀ q, q ≠ p → q ≠ x.2.page → q ≠ y.2.page → pool₁.pages q = pool.pages q :=
    fun q hqp hqx hqy => by
      rw [hpages₁]
      exact Tree.mended_other hqp hqx hqy
  have hbelow : ∀ q ∈ x.2.items.pages ++ y.2.items.pages, pool₁.pages q = pool.pages q := by
    intro q hq
    obtain ⟨hqp, hqx, hqy⟩ := w.below_ne hq
    exact hkept q hqp hqx hqy
  have hrowx : Linked d pool₁.pages x.2.page
      (Items.head (post.head next) (y.2.items.rejoin y.1)) x.2.items := by
    rw [Items.head_rejoin]
    exact w.row_left hd fun q hq => hbelow q (List.mem_append_left _ hq)
  have hrowy : Linked d pool₁.pages y.2.page (post.head next) (y.2.items.rejoin y.1) :=
    linked_rejoin.2 (w.row_right fun q hq => hbelow q (List.mem_append_right _ hq))
  have hsub : (x.2.items.pages ++ (y.2.items.rejoin y.1).pages).Sublist
      (x.2.pages ++ y.2.pages) := by
    rw [Items.pages_rejoin]
    exact (List.sublist_cons_self ..).append (List.sublist_cons_self ..)
  -- the children that changed sides learn of their new parent
  obtain ⟨pool₂, hmoved, hs₂, hrowl, hrowr, hkept₂⟩ := hshare.setParents_eq_ok hs₁ hrowx hrowy
    (hnd.sublist hsub) (fun g hg hin => hap g hg (by
      rw [pages_window]
      exact List.mem_append_left _ (List.mem_append_right _ (hsub.subset hin))))
    (hroom.mono (by omega))
  rw [Items.length_rejoin, List.length_cons] at hmoved hkept₂
  obtain ⟨hlenl, hlenr⟩ := w.share_lengths hshare (by simpa using hshort) hbig
  have hcount : node'.size = (pre ++ (x.1, Content.node x.2.page l) ::
      (z.1, Content.node y.2.page (z :: r)) :: post).length := by
    rw [hnode'.states.size, Items.length_records]
    simp only [List.length_append, List.length_cons]
  have hmax : node'.maxSize = d.max (h + 1) := hnode'.states.maxSize
  have hmem : ∀ q ∈ Items.children (l.drop x.2.items.length) ++
      Items.children ((z :: r).take (r.length + 1 - y.2.items.length)),
      q ∈ x.2.items.pages ++ y.2.items.pages := fun q hq => by
    have hin := hshare.moved_mem (q := q)
    rw [Items.length_rejoin, List.length_cons, Items.pages_rejoin] at hin
    exact hin hq
  have hsame : ∀ q, q = p ∨ q = x.2.page ∨ q = y.2.page → pool₂.pages q = pool₁.pages q :=
    fun q hq => hkept₂ q fun hin => by
      obtain ⟨hqp, hqx, hqy⟩ := w.below_ne (hmem q hin)
      exact hq.elim hqp fun hq => hq.elim hqx hqy
  refine ⟨l, z, r, pool₂, hshare, ?_, hs₂,
    w.mends_share hd hshare hlenl hlenr (.of_holds ?_ hnode') (.of_holds ?_ hl)
      (.of_holds ?_ hr) hrowl
      hrowr fun q hq => ?_, fun q hq => ?_⟩
  · rw [hrun, ← hcount, TreePlan.min, ← hmax]
    simp only [Tree.followUp, Tree.aftermath, hsep, htoLeft, htoRight, Option.isNone_some,
      Bool.false_eq_true, if_false]
    rw [Action.bind_of_ok hmoved]
    rfl
  · rw [hsame p (.inl rfl), hpages₁]
    exact Tree.mended_parent hpx hpy
  · rw [hsame _ (.inr (.inl rfl)), hpages₁]
    exact Tree.mended_left hxy
  · rw [hsame _ (.inr (.inr rfl)), hpages₁]
    exact Tree.mended_right
  · rw [List.mem_cons, not_or] at hq
    rw [hkept₂ q fun hin => hq.2 (hsub.subset (by rw [Items.pages_rejoin]; exact hmem q hin))]
    exact hkept q hq.1 (fun e => hq.2 (e ▸ List.mem_append_left _ List.mem_cons_self))
      fun e => hq.2 (e ▸ List.mem_append_right _ List.mem_cons_self)
  · simp only [List.mem_cons, not_or] at hq
    obtain ⟨hqp, hqx, hqy, hqmoved⟩ := hq
    rw [hkept₂ q hqmoved]
    exact hkept q hqp hqx hqy

/-! ### Either way -/

/-- **How two neighbours are grouped anew**: they are joined when their items fit in one node, and
otherwise the one that is not `short` gives an item away. Listed are the nodes that are left and the
children that change nodes, each with its new parent. -/
inductive Regroups (d : TreePlan) : Bool → Key × Shape h → Key × Shape h → Items (h + 1) →
    List (PageId × PageId) → Prop
  | join {short : Bool} {x y : Key × Shape h}
      (hfit : x.2.items.length + y.2.items.length ≤ d.max h) :
      Regroups d short x y [(x.1, joined x y)] (y.2.items.children.map (·, x.2.page))
  /-- the second node gives its first item -/
  | first {x y : Key × Shape h} {c z : Key × Content h} {r : Items h}
      (hbig : d.max h < x.2.items.length + y.2.items.length)
      (hcut : y.2.items.rejoin y.1 = c :: z :: r) :
      Regroups d true x y
        [(x.1, Content.node x.2.page (x.2.items ++ [c])), (z.1, Content.node y.2.page (z :: r))]
        ((Items.children [c]).map (·, x.2.page))
  /-- the first node gives its last item -/
  | last {x y : Key × Shape h} {c : Key × Content h} {l : Items h}
      (hbig : d.max h < x.2.items.length + y.2.items.length) (hcut : x.2.items = l ++ [c]) :
      Regroups d false x y
        [(x.1, Content.node x.2.page l), (c.1, Content.node y.2.page (c :: y.2.items.rejoin y.1))]
        ((Items.children [c]).map (·, y.2.page))

/-- What a share comes to. -/
theorem Regroups.of_share (hbig : d.max h < x.2.items.length + y.2.items.length)
    (hshare : Share short x.2.items (y.2.items.rejoin y.1) l (z :: r)) :
    ∃ moved, Regroups d short x y
      [(x.1, Content.node x.2.page l), (z.1, Content.node y.2.page (z :: r))] moved ∧
      moved.map Prod.fst = Items.children (l.drop x.2.items.length) ++
        Items.children ((z :: r).take (r.length + 1 - y.2.items.length)) := by
  have hnone : Items.children ([] : Items h) = [] := by cases h <;> rfl
  have hfst : ∀ (moved : List PageId) (q : PageId), (moved.map (·, q)).map Prod.fst = moved :=
    fun moved q => by rw [List.map_map]; exact List.map_id _
  generalize hx : x.2.items = l₀ at hshare
  generalize hy : y.2.items.rejoin y.1 = r₀ at hshare
  have hlength : y.2.items.length = r₀.length := by rw [← hy, Items.length_rejoin]
  rw [hlength]
  cases hshare with
  | first _ c _ =>
    subst hx
    refine ⟨_, .first hbig hy, ?_⟩
    rw [hfst, List.drop_left, List.length_cons, List.length_cons,
      Nat.sub_eq_zero_of_le (Nat.le_succ _), List.take_zero, hnone, List.append_nil]
  | last _ c _ =>
    subst hy
    refine ⟨_, .last hbig hx, ?_⟩
    rw [hfst, List.drop_eq_nil_of_le (by simp), hnone, Nat.add_sub_cancel_left]
    rfl

/-- The child at an index has too few items, and its neighbour in the window has enough. -/
def Short (d : TreePlan) (childIndex : Nat) (x y : Key × Shape h) : Prop :=
  if childIndex = 0 then x.2.items.length < d.min h ∧ d.min h ≤ y.2.items.length
  else d.min h ≤ x.2.items.length ∧ y.2.items.length < d.min h

/-- **Mending.** The two are grouped anew, and no page changes but theirs, that of their parent and
those of the children that moved. -/
theorem mends (w : Window d pool.pages p parent next lo hi pre x y post) (hd : d.Fits)
    (hs : pool.Sound gs) (hroom : Room gs 3)
    (hap : ∀ g ∈ gs, g.page ∉ p :: Items.pages (pre ++ x :: y :: post)) {childIndex : Nat}
    (hindex : childIndex - 1 = pre.length) (hshort : Short d childIndex x y) :
    ∃ t rest moved pool', Regroups d (childIndex = 0) x y ((x.1, t) :: rest) moved ∧
      Tree.rebalance p childIndex pool =
        .ok (decide ((pre ++ (x.1, t) :: (rest ++ post)).length < d.min (h + 1))) pool' ∧
      pool'.Sound gs ∧ Mends d pool.pages pool'.pages p parent next lo hi pre x y post t rest ∧
      (pool'.pages y.2.page = none ↔ x.2.items.length + y.2.items.length ≤ d.max h) ∧
      ∀ q, q ∉ p :: x.2.page :: y.2.page :: moved.map Prod.fst →
        pool'.pages q = pool.pages q := by
  rw [Short] at hshort
  by_cases hfit : x.2.items.length + y.2.items.length ≤ d.max h
  · have hleast : d.min h ≤ x.2.items.length + y.2.items.length := by
      split at hshort <;> omega
    obtain ⟨pool', hrun, hs', hmends, hfreed, hkept⟩ := w.join hd hs hroom hap hindex hleast hfit
    refine ⟨_, [], _, pool', .join hfit, hrun, hs', hmends, iff_of_true hfreed hfit, ?_⟩
    rw [List.map_map]
    exact (List.map_id y.2.items.children).symm ▸ hkept
  · have hbig := Nat.lt_of_not_le hfit
    obtain ⟨l, z, r, pool', hshare, hrun, hs', hmends, hkept⟩ := w.share hd hs hroom hap hindex
      (by split at hshort <;> simp_all) hbig
    obtain ⟨moved, hregroups, hmoved⟩ := Regroups.of_share hbig hshare
    have hstays : pool'.pages y.2.page ≠ none :=
      hmends.hangs.linked.allocated _
        (Items.page_mem_pages (i := (z.1, Content.node y.2.page (z :: r)))
        (by simp))
    exact ⟨_, [_], moved, pool', hregroups, hrun, hs', hmends, iff_of_false hstays hfit,
      hmoved ▸ hkept⟩

/-- **The sibling** that repairs a short child is the one before it, or the one behind it if it is
the first. -/
theorem of_short {i : Key × Shape h} (hnode : NodeAt d P p parent next (pre ++ i :: post))
    (hh : Hangs d P p next lo hi (pre ++ i :: post))
    (hmost : (pre ++ i :: post).length ≤ d.max (h + 1)) (htwo : 2 ≤ (pre ++ i :: post).length)
    (hpre : Filled d pre) (hpost : Filled d post) (hsize : i.2.Sized d (d.min h - 1))
    (hshort : i.2.items.length < d.min h) :
    ∃ before x y behind, pre ++ i :: post = before ++ x :: y :: behind ∧
      pre.length - 1 = before.length ∧ Window d P p parent next lo hi before x y behind ∧
      Short d pre.length x y ∧ Filled d before ∧ Filled d behind := by
  rcases List.eq_nil_or_concat' pre with rfl | ⟨pre, x, rfl⟩
  · -- the first child is repaired with the one behind it
    obtain ⟨y, post, rfl⟩ : ∃ y post', post = y :: post' :=
      List.exists_cons_of_length_pos (Nat.lt_of_succ_lt_succ htwo)
    obtain ⟨hy, hpost⟩ := filled_cons.1 hpost
    refine ⟨[], i, y, post, rfl, rfl,
      ⟨hnode, hh, hmost, hsize, Nat.le_trans (Nat.sub_le _ 1) hy.least, hy.most, hy.below⟩, ?_,
        hpre, hpost⟩
    rw [Short, if_pos List.length_nil]
    exact ⟨hshort, hy.least⟩
  · -- any other with the one before it
    obtain ⟨hpre, hx⟩ := filled_append.1 hpre
    obtain ⟨hx, -⟩ := filled_cons.1 hx
    rw [List.append_assoc] at hnode hh hmost
    refine ⟨pre, x, i, post, List.append_assoc .., by simp,
      ⟨hnode, hh, hmost, ⟨Nat.le_trans (Nat.sub_le _ 1) hx.least, hx.most, hx.below⟩, hsize⟩, ?_,
        hpre, hpost⟩
    rw [Short, if_neg (by simp)]
    exact ⟨hx.least, hshort⟩

end Window

theorem Mends.entries_eq (m : Mends d P P' p parent next lo hi pre x y post t rest) :
    Items.entries (pre ++ (x.1, t) :: (rest ++ post)) = Items.entries (pre ++ x :: y :: post) := by
  rw [Items.entries_append, Items.entries_append, Items.entries_cons, Items.entries_cons,
    Items.entries_cons, Items.entries_append, ← List.append_assoc t.entries, m.entries]
  simp only [List.append_assoc]

theorem Mends.first_eq (m : Mends d P P' p parent next lo hi pre x y post t rest) :
    (Content.node p (pre ++ (x.1, t) :: (rest ++ post))).first =
      (Content.node p (pre ++ x :: y :: post)).first := by
  cases pre with
  | nil => exact m.first
  | cons i pre => rfl

/-- **Rebalancing** leaves the node with its entries, and at most one child fewer. -/
theorem Window.rebalance_ends (w : Window d pool.pages p parent next lo hi pre x y post)
    (hd : d.Fits) (hs : pool.Sound gs)
    (hap : ∀ g ∈ gs, g.page ∉ p :: Items.pages (pre ++ x :: y :: post)) {childIndex least : Nat}
    (hindex : childIndex - 1 = pre.length) (hshort : Short d childIndex x y)
    (hpre : Filled d pre) (hpost : Filled d post)
    (hleast : least ≤ (pre ++ x :: y :: post).length) :
    Ends (Crowded gs 3) (fun short pool' => pool'.Sound gs ∧ ∃ l : Shape (h + 1),
      short = decide (l.items.length < d.min (h + 1)) ∧
      Trades pool.pages pool'.pages (p :: Items.pages (pre ++ x :: y :: post)) l.pages ∧
      Housed d pool'.pages parent next lo hi (least - 1) p
        (Content.node p (pre ++ x :: y :: post)).first (Items.entries (pre ++ x :: y :: post)) l [])
      (Tree.rebalance p childIndex pool) := by
  refine ends_of_room (fun hroom => ?_) fun _ _ hrun => Tree.room_of_rebalance hs hrun
  obtain ⟨t, rest, -, pool', -, hrun, hs', m, -⟩ := w.mends hd hs hroom hap hindex hshort
  have hone := m.one
  have hmost := w.most
  have hfilled : Filled d (pre ++ (x.1, t) :: (rest ++ post)) := by
    have hmid := filled_cons.1 m.filled
    exact filled_append.2 ⟨hpre, filled_cons.2 ⟨hmid.1, filled_append.2 ⟨hmid.2, hpost⟩⟩⟩
  have hlen : (pre ++ (x.1, t) :: (rest ++ post)).length =
      pre.length + (rest.length + post.length + 1) := by
    rw [List.length_append, List.length_cons, List.length_append]
  rw [List.length_append, List.length_cons, List.length_cons] at hleast hmost
  rw [hrun]
  refine ⟨hs', Content.node p (pre ++ (x.1, t) :: (rest ++ post)), rfl, m.trades, ?_⟩
  rw [← m.entries_eq, ← m.first_eq]
  exact m.hangs.housed m.node hfilled (by omega) (by omega)

end PageStore
