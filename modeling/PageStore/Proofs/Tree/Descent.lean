import PageStore.Proofs.Tree.Replace
import PageStore.Proofs.Tree.Steps

/-!
# Going down a tree

One step of a descent goes to the child whose range has the place of the key: `Tree.step_eq_ok`.
What an action does to that child, the node takes over: `Pool.Has.absorbs`.
-/

namespace PageStore

open Pool

variable {n m : Nat} {d : TreePlan} {P : PageMap} {h : Nat} {p parent next : PageId} {lo hi : Nat}
  {pool : Pool n m} {gs : List (Guard n)} {tree : Tree} {key : Key}

/-! ## Trees in pools -/

/-- The pool holds the nodes of a subtree, in pages that no guard is out on. -/
structure Pool.Has (pool : Pool n m) (gs : List (Guard n)) (d : TreePlan) (parent next : PageId)
    (t : Shape h) : Prop where
  sound : pool.Sound gs
  stored : Stored d pool.pages parent next t
  nodup : t.pages.Nodup
  apart : ∀ g ∈ gs, g.page ∉ t.pages

/-- The tree orders keys as the plan says, and they have the plan's width. -/
structure Tree.Follows (tree : Tree) (d : TreePlan) : Prop where
  order : tree.order = d.order
  width : tree.keySize = d.width
  fits : d.Fits

/-- The root does not matter to the plan. -/
theorem Tree.Follows.withRoot (hf : tree.Follows d) (root : PageId) :
    { tree with root }.Follows d :=
  ⟨hf.order, hf.width, hf.fits⟩

theorem TreePlan.Fits.capacity_pos (hd : d.Fits) (h : Nat) :
    2 ≤ d.max h ∧ 0 < (levelKind h).capacity d.width := by
  have hleast := hd.least h
  have hmost := hd.most h
  have htwo : 2 ≤ leastMax h := by
    cases h with
    | zero => exact Nat.le_refl _
    | succ h => exact Nat.le_succ 2
  omega

/-- An internal node that is one item short still has one. -/
theorem TreePlan.Fits.two_le_min (hd : d.Fits) (hh : 0 < h) : 2 ≤ d.min h := by
  match h, hh with
  | h + 1, _ =>
    have := hd.least (h + 1)
    rw [leastMax] at this
    rw [TreePlan.min, minSize]
    omega

theorem TreePlan.Fits.width_lt (hd : d.Fits) : d.width < pageSize :=
  NodeKind.keySize_lt_of_capacity_pos _ (hd.capacity_pos 0).2

/-- **The node in a page** is read as what the page holds. -/
theorem NodeAt.exists_node {l : Items h} (hn : NodeAt d P p parent next l) (hd : d.Fits)
    (hlen : l.length ≤ d.max h + 1) : ∃ node : Node (levelKind h), P p = some node.page ∧
      node.Holds (d.header h p parent next) l.records ∧
      NodeHeader.kind node.page = .ok (levelKind h) ∧
      Node.ofBlock (levelKind h) node.page = .ok node := by
  obtain ⟨page, hpage, hholds⟩ := hn
  refine ⟨⟨page, d.width⟩, hpage, hholds, hholds.states.kind_eq_ok,
    hholds.ofBlock_eq_ok hd.width hd.width_lt ?_⟩
  rw [Items.length_records]
  exact Nat.le_trans hlen (Nat.succ_le_succ (hd.most h))

theorem NodeAt.exists_leaf {l : Items 0} (hn : NodeAt d P p parent next l) (hd : d.Fits)
    (hlen : l.length ≤ d.max 0 + 1) : ∃ node : Leaf, P p = some node.page ∧
      node.Holds (d.header 0 p parent next) l.records ∧
      NodeHeader.kind node.page = .ok .leaf ∧ Node.ofBlock .leaf node.page = .ok node :=
  hn.exists_node hd hlen

theorem NodeAt.exists_internal {l : Items (h + 1)} (hn : NodeAt d P p parent next l) (hd : d.Fits)
    (hlen : l.length ≤ d.max (h + 1) + 1) : ∃ node : Internal, P p = some node.page ∧
      node.Holds (d.header (h + 1) p parent next) l.records ∧
      NodeHeader.kind node.page = .ok .internal ∧ Node.ofBlock .internal node.page = .ok node :=
  hn.exists_node hd hlen

/-! ## One step down -/

theorem Stored.node {t : Shape h} (hs : Stored d P parent next t) :
    NodeAt d P t.page parent next t.items := (stored_iff.1 hs).1

theorem Stored.linked {t : Shape h} (hs : Stored d P parent next t) :
    Linked d P t.page next t.items := (stored_iff.1 hs).2

theorem Items.records_zero (l : Items 0) : l.records = l := List.map_id _

/-- A leaf leads nowhere. -/
theorem Tree.route_leaf {page : Page} (hk : NodeHeader.kind page = .ok .leaf) (key : Option Key) :
    tree.route key page = .ok none := by
  rw [Tree.route, hk]
  rfl

/-- The child for a key is found in an internal node. -/
theorem Items.lookup_eq_ok {node : Internal} {hd : Header} {pre post : Items (h + 1)}
    {i : Key × Shape h} {o : KeyOrder} (hn : node.Holds hd (Items.records (pre ++ i :: post)))
    (hkey : key.length = hd.width) (hpre : ∀ e ∈ (pre ++ [i]).tail, o.rank e.1 ≤ o.rank key)
    (hpost : Above o (o.rank key) post) : Internal.lookup node o key = .ok pre.length := by
  have hcut : Items.records (pre ++ i :: post) =
      Items.records pre ++ Items.record i :: Items.records post := Items.records_append
  have htail : (Items.records pre ++ [Items.record i]).tail =
      (pre ++ [i]).tail.map Items.record := by
    rw [List.map_tail, List.map_append]
    rfl
  rw [hcut] at hn
  rw [← Items.length_records]
  refine Internal.lookup_eq_ok hn hkey ?_ ?_
  · refine htail ▸ List.forall_mem_map.2 fun e he => hpre e he
  · exact List.forall_mem_map.2 hpost

/-- An internal node leads to the last child whose key is not greater. -/
theorem Tree.route_internal {node : Internal} {hd : Header} {pre post : Items (h + 1)}
    {i : Key × Shape h} (hk : NodeHeader.kind node.page = .ok .internal)
    (hblock : Node.ofBlock .internal node.page = .ok node)
    (hn : node.Holds hd (Items.records (pre ++ i :: post))) (hkey : key.length = hd.width)
    (hpre : ∀ e ∈ (pre ++ [i]).tail, tree.order.rank e.1 ≤ tree.order.rank key)
    (hpost : Above tree.order (tree.order.rank key) post) :
    tree.route (some key) node.page = .ok (some (pre.length, i.2.page)) := by
  have hat : (Items.records (pre ++ i :: post))[pre.length]? = some (Items.record i) := by
    rw [Items.records, List.getElem?_map, List.getElem?_append_right (Nat.le_refl _), Nat.sub_self]
    rfl
  have hchild : Internal.child node pre.length = .ok i.2.page := Internal.child_eq_ok hn hat
  simp only [Tree.route, hk, ok_bind, hblock, Items.lookup_eq_ok hn hkey hpre hpost, hchild]
  rfl

namespace Pool.Has

variable {pool' : Pool n m} {t : Shape h}

theorem of_pages (hh : pool.Has gs d parent next t) (hs : pool'.Sound gs)
    (hp : pool'.pages = pool.pages) : pool'.Has gs d parent next t :=
  ⟨hs, hp ▸ hh.stored, hh.nodup, hh.apart⟩

theorem free (hh : pool.Has gs d parent next t) : ∀ g ∈ gs, g.page ≠ t.page :=
  fun g hg hp => hh.apart g hg (hp ▸ List.mem_cons_self)

/-- The items of the node hang below its page. -/
theorem hangs (hh : pool.Has gs d parent next t) (hin : Within d.order lo hi t) :
    Hangs d pool.pages t.page next lo hi t.items :=
  ⟨hh.stored.linked, hin, hh.nodup⟩

theorem allocated (hh : pool.Has gs d parent next t) : pool.pages t.page ≠ none :=
  hh.stored.allocated _ List.mem_cons_self

/-- The node is in a page. -/
theorem page_ne_none (hh : pool.Has gs d parent next t) : t.page ≠ .none :=
  hh.sound.ne_none_of_mem (Pool.pages_ne_none_iff.1 hh.allocated)

/-- A trade of the pages of the subtree leaves it apart from the guards. -/
theorem apart_of_trades {P : PageMap} {l : List PageId} (hh : pool.Has gs d parent next t)
    (ht : Trades pool.pages P t.pages l) : ∀ g ∈ gs, g.page ∉ l := fun g hg =>
  (ht.kept (hh.apart g hg) (by rw [hh.sound.pages_guard hg]; exact Option.some_ne_none _)).1

/-- The pool holds each child of a node. -/
theorem child {t : Shape (h + 1)} {pre post : Items (h + 1)} {i : Key × Shape h}
    (hh : pool.Has gs d parent next t) (hcut : t.items = pre ++ i :: post) :
    pool.Has gs d t.page (post.head next) i.2 := by
  have hlinked := hh.stored.linked
  rw [hcut] at hlinked
  have hpages : t.pages = t.page :: (Items.pages pre ++ (i.2.pages ++ Items.pages post)) := by
    rw [Content.pages, hcut, Items.pages_append, Items.pages_cons]
  have hsub : i.2.pages.Sublist t.pages := by
    rw [hpages]
    exact ((List.sublist_append_left ..).trans (List.sublist_append_right ..)).cons _
  exact ⟨hh.sound, (linked_cons.1 (linked_append.1 hlinked).2).1, hh.nodup.sublist hsub,
    fun g hg hin => hh.apart g hg (hsub.subset hin)⟩

end Pool.Has

/-- A descent stops at a leaf. -/
theorem Tree.stop_eq_ok (tree : Tree) (hd : d.Fits) (hroom : Room gs 1) {t : Shape 0}
    (hh : pool.Has gs d parent next t) (hlen : t.items.length ≤ d.max 0) (mode : Mode)
    (key : Option Key) :
    ∃ g pool', Tree.fetch mode t.page pool = .ok g pool' ∧ g.page = t.page ∧ g.mode = mode ∧
      pool'.Sound (g :: gs) ∧ pool'.pages = pool.pages ∧
      Tree.peek g (tree.route key) pool' = .ok none pool' := by
  obtain ⟨node, hpage, -, hkind, -⟩ := hh.stored.node.exists_leaf hd (Nat.le_succ_of_le hlen)
  obtain ⟨g, pool', hfetch, hgp, hgm, hs, hpages, hbytes⟩ :=
    Tree.fetch_eq_ok hh.sound hpage hh.free hroom mode
  exact ⟨g, pool', hfetch, hgp, hgm, hs, hpages,
    Tree.peek_eq_ok _ (hbytes ▸ Tree.route_leaf hkind key)⟩

/-- What an internal node does with the place `r`: it leads to the child `i`, whose range from `a`
up to `b` has the place in it. -/
structure Leads (o : KeyOrder) (lo hi r : Nat) (items pre : Items (h + 1)) (i : Key × Shape h)
    (post : Items (h + 1)) (a b : Nat) : Prop where
  cut : items = pre ++ i :: post
  before : ∀ e ∈ (pre ++ [i]).tail, o.rank e.1 ≤ r
  behind : Above o r post
  hole : Hole o (Within o) lo hi pre i.1 post a b
  within : Within o a b i.2
  lower : a ≤ r
  upper : r < b

/-- **One step of a descent.** -/
theorem Tree.step_eq_ok (htree : tree.Follows d) (hroom : Room gs 1) (hkey : key.length = d.width)
    {t : Shape (h + 1)} (hh : pool.Has gs d parent next t) (hin : Within d.order lo hi t)
    (hlen : t.items.length ≤ d.max (h + 1)) (hlo : lo ≤ d.order.rank key)
    (hhi : d.order.rank key < hi) (mode : Mode) :
    ∃ pre i post a b g pool', Leads d.order lo hi (d.order.rank key) t.items pre i post a b ∧
      Tree.fetch mode t.page pool = .ok g pool' ∧
      Tree.peek g (tree.route (some key)) pool' = .ok (some (pre.length, i.2.page)) pool' ∧
      (pool'.release g).Has gs d t.page (post.head next) i.2 ∧
      (pool'.release g).pages = pool.pages := by
  obtain ⟨pre, i, post, a, b, hcut, hpre, hpost, hole, hchild, ha, hb⟩ :=
    Spans.route within_lt hin hlo hhi
  obtain ⟨node, hpage, hholds, hkind, hblock⟩ :=
    hh.stored.node.exists_internal htree.fits (Nat.le_succ_of_le hlen)
  have hleads : Leads d.order lo hi (d.order.rank key) t.items pre i post a b :=
    ⟨hcut, hpre, hpost, hole, hchild, ha, hb⟩
  rw [hcut] at hholds
  rw [← htree.order] at hpre hpost
  obtain ⟨g, pool', hfetch, -, -, hs, hpages, hbytes⟩ :=
    Tree.fetch_eq_ok hh.sound hpage hh.free hroom mode
  obtain ⟨hs', hpages'⟩ := hs.release
  have hsame := hpages'.trans hpages
  refine ⟨pre, i, post, a, b, g, pool', hleads, hfetch, Tree.peek_eq_ok _ ?_,
    (hh.child hcut).of_pages hs' hsame, hsame⟩
  rw [hbytes]
  exact Tree.route_internal hkind hblock hholds hkey hpre hpost

/-- The child that a descent goes to is as large as every node below the root. -/
theorem Leads.sized {o : KeyOrder} {r a b : Nat} {items pre post : Items (h + 1)}
    {i : Key × Shape h} (hl : Leads o lo hi r items pre i post a b) (hf : Filled d items) :
    Filled d pre ∧ i.2.Sized d (d.min h) ∧ Filled d post := by
  rw [hl.cut, filled_append, filled_cons] at hf
  exact hf

/-- The entries beside the child are on their side of the place. -/
theorem Leads.beside {o : KeyOrder} {r a b : Nat} {items pre post : Items (h + 1)}
    {i : Key × Shape h} (hl : Leads o lo hi r items pre i post a b)
    {pre' post' : List (Key × RowId)} (hpre : Below o r pre') (hpost : Above o r post') :
    Below o r (Items.entries pre ++ pre') ∧ Above o r (post' ++ Items.entries post) := by
  obtain ⟨hlow, hhigh⟩ := hl.hole.entries
  refine ⟨List.forall_mem_append.2 ⟨fun e he => ?_, hpre⟩,
    List.forall_mem_append.2 ⟨hpost, fun e he => ?_⟩⟩
  · exact Nat.lt_of_lt_of_le (hlow e he) hl.lower
  · exact Nat.lt_of_lt_of_le hl.upper (hhigh e he)

/-- The entries of a node are those of the child between those beside it. -/
theorem Leads.entries_eq {o : KeyOrder} {r a b : Nat} {t : Shape (h + 1)} {pre post : Items (h + 1)}
    {i : Key × Shape h} (hl : Leads o lo hi r t.items pre i post a b) :
    t.entries = Items.entries pre ++ i.2.entries ++ Items.entries post := by
  rw [Content.entries, hl.cut, Items.entries_append, Items.entries_cons, List.append_assoc]

/-- The key that leads to a child is not among the entries beside it. -/
theorem Leads.notMem_beside {o : KeyOrder} {items pre post : Items (h + 1)} {i : Key × Shape h}
    {a b : Nat} (hl : Leads o lo hi (o.rank key) items pre i post a b) :
    key ∉ (Items.entries pre).map Prod.fst ∧ key ∉ (Items.entries post).map Prod.fst := by
  obtain ⟨hlow, hhigh⟩ := hl.hole.entries
  constructor
  · intro hin
    obtain ⟨e, he, rfl⟩ := List.mem_map.1 hin
    exact Nat.lt_irrefl _ ((hlow e he).trans_le hl.lower)
  · intro hin
    obtain ⟨e, he, rfl⟩ := List.mem_map.1 hin
    exact Nat.lt_irrefl _ (hl.upper.trans_le (hhigh e he))

/-- A key is among the entries of a node if it is among those of the child that the node leads
to. -/
theorem Leads.mem_keys_iff {o : KeyOrder} {t : Shape (h + 1)} {pre post : Items (h + 1)}
    {i : Key × Shape h} {a b : Nat} (hl : Leads o lo hi (o.rank key) t.items pre i post a b) :
    key ∈ t.entries.map Prod.fst ↔ key ∈ i.2.entries.map Prod.fst := by
  obtain ⟨hpre, hpost⟩ := hl.notMem_beside
  rw [hl.entries_eq, List.map_append, List.map_append, List.mem_append, List.mem_append]
  exact ⟨fun hin => (hin.resolve_right hpost).resolve_left hpre, fun hin => .inl (.inr hin)⟩

/-- **What a node is left with** when a child was replaced. -/
structure Absorbs (d : TreePlan) (P P' : PageMap) (parent next : PageId) (lo hi : Nat)
    (t : Shape (h + 1)) (pre : Items (h + 1)) (k : Key) (l : Shape h) (rest post : Items (h + 1))
    (E : List (Key × RowId)) : Prop where
  node : NodeAt d P' t.page parent next (pre ++ (k, l) :: post)
  hangs : Hangs d P' t.page next lo hi (pre ++ (k, l) :: (rest ++ post))
  trades : Trades P P' t.pages (t.page :: Items.pages (pre ++ (k, l) :: (rest ++ post)))
  first : (Content.node t.page (pre ++ (k, l) :: (rest ++ post))).first = t.first
  entries : Items.entries (pre ++ (k, l) :: (rest ++ post)) =
    Items.entries pre ++ E ++ Items.entries post
  count : (pre ++ (k, l) :: post).length = t.items.length

theorem Pool.Has.absorbs {t : Shape (h + 1)} {pre post rest : Items (h + 1)} {i : Key × Shape h}
    {l : Shape h} {r a b least : Nat} {E : List (Key × RowId)} (hh : pool.Has gs d parent next t)
    (hin : Within d.order lo hi t) (hl : Leads d.order lo hi r t.items pre i post a b)
    (ht : Trades pool.pages P i.2.pages (l.pages ++ rest.pages))
    (hc : Housed d P t.page (post.head next) a b least i.2.page i.2.first E l rest) :
    Absorbs d pool.pages P parent next lo hi t pre i.1 l rest post E := by
  have hcut := hl.cut
  obtain ⟨hangs, htrades, hkept⟩ := (hcut ▸ hh.hangs hin).replace hh.allocated hl.hole ht hc
  refine ⟨hc.nodeAt (hcut ▸ hh.stored.node) hkept, hangs, ?_, ?_, hc.entries_eq pre post, ?_⟩
  · rw [Content.pages, hcut]
    exact htrades
  · rw [hc.first_eq t.page pre post, ← hcut]
    rfl
  · rw [hcut, List.length_append, List.length_append, List.length_cons, List.length_cons]

/-! ## Parents of moved children -/

/-- Another parent for a subtree. -/
theorem Stored.setParent_eq_ok {t : Shape h} (parent' : PageId) (hs : pool.Sound gs)
    (ht : Stored d pool.pages parent next t) (hnd : t.pages.Nodup)
    (hfree : ∀ g ∈ gs, g.page ≠ t.page) (hroom : Room gs 1) :
    ∃ pool', Tree.setParent t.page parent' pool = .ok () pool' ∧ pool'.Sound gs ∧
      Stored d pool'.pages parent' next t ∧ ∀ q, q ≠ t.page → pool'.pages q = pool.pages q := by
  obtain ⟨⟨page, hpage, hholds⟩, hlinked⟩ := stored_iff.1 ht
  obtain ⟨page', hset, hholds'⟩ := hholds.setParent_eq_ok parent'
  obtain ⟨pool', hrun, hs', hpages⟩ := Tree.setParent_eq_ok hs hpage hset hfree hroom
  refine ⟨pool', hrun, hs', stored_iff.2 ⟨⟨page', ?_, hholds'⟩, hlinked.congr fun q hq => ?_⟩,
    fun q hq => ?_⟩
  · rw [hpages, Function.update_self]
  · have hne : q ≠ t.page := fun e => (List.nodup_cons.1 hnd).1 (e ▸ hq)
    rw [hpages, Function.update_of_ne hne]
  · rw [hpages, Function.update_of_ne hq]

/-- Another parent for every subtree of a row. -/
theorem Linked.setParents_eq_ok {l : Items (h + 1)} (parent' : PageId) (hs : pool.Sound gs)
    (hl : Linked d pool.pages parent next l) (hnd : (Items.pages l).Nodup)
    (hap : ∀ g ∈ gs, g.page ∉ Items.pages l) (hroom : Room gs 1) :
    ∃ pool',
      (l.map fun i => i.2.page).forM (fun c => Tree.setParent c parent') pool = .ok () pool' ∧
      pool'.Sound gs ∧ Linked d pool'.pages parent' next l ∧
      ∀ q, (∀ i ∈ l, q ≠ i.2.page) → pool'.pages q = pool.pages q := by
  induction l generalizing pool with
  | nil => exact ⟨pool, rfl, hs, trivial, fun _ _ => rfl⟩
  | cons i l ih =>
    rw [Items.pages_cons] at hnd hap
    obtain ⟨hndi, hndl, hdisj⟩ := List.nodup_append.1 hnd
    obtain ⟨hi, hrest⟩ := linked_cons.1 hl
    have hpagei : i.2.page ∈ i.2.pages := List.mem_cons_self
    obtain ⟨pool₁, hset, hs₁, hi₁, hkept₁⟩ := hi.setParent_eq_ok parent' hs hndi
      (fun g hg hgp => hap g hg (List.mem_append_left _ (hgp ▸ hpagei))) hroom
    have hrest₁ : Linked d pool₁.pages parent next l := hrest.congr fun q hq =>
      hkept₁ q fun e => hdisj i.2.page hpagei q hq e.symm
    obtain ⟨pool₂, hrun, hs₂, hrest₂, hkept₂⟩ := ih hs₁ hrest₁ hndl
      fun g hg hin => hap g hg (List.mem_append_right _ hin)
    refine ⟨pool₂, ?_, hs₂, linked_cons.2 ⟨hi₁.congr fun q hq => ?_, hrest₂⟩, fun q hq => ?_⟩
    · exact (Action.bind_of_ok hset).trans hrun
    · exact hkept₂ q fun j hj e => hdisj q hq q (e ▸ Items.page_mem_pages hj) rfl
    · obtain ⟨hqi, hql⟩ := List.forall_mem_cons.1 hq
      rw [hkept₂ q hql, hkept₁ q hqi]

/-! ## Entries as a map -/

/-- The map with exactly these entries. -/
def Shows (l : List (Key × RowId)) (M : Key → Option RowId) : Prop :=
  ∀ key row, M key = some row ↔ (key, row) ∈ l

end PageStore
