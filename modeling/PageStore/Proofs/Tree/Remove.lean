import PageStore.Proofs.Tree.Rebalance

/-!
# Removing keeps a tree in order

A removal below a node leaves the node in its page, with one entry fewer and at most one item
fewer: `removeBelow_ends`. Whether it has too few items then is what the removal reports, and its
parent repairs it if so.
-/

namespace PageStore

open Pool

variable {n m : Nat} {d : TreePlan} {P P' : PageMap} {h : Nat} {p parent next : PageId}
  {lo hi least : Nat} {pool : Pool n m} {gs : List (Guard n)} {tree : Tree} {key : Key}

/-! ## Leaves -/

/-- A removal from a leaf finds no such key, or the leaf keeps the other entries. -/
def LeafRemoves (d : TreePlan) (P P' : PageMap) (p parent next : PageId) (items : Items 0)
    (key : Key) (done : Removal) : Prop :=
  (done = .notFound ∧ P' = P ∧ ∃ pre post, items = pre ++ post ∧
    Below d.order (d.order.rank key) pre ∧ Above d.order (d.order.rank key) post) ∨
  ∃ pre row post, items = pre ++ (key, row) :: post ∧ Below d.order (d.order.rank key) pre ∧
    Above d.order (d.order.rank key) post ∧
    done = .removed (decide ((pre ++ post).length < d.min 0)) ∧
    NodeAt d P' p parent next (pre ++ post) ∧ ∀ q, q ≠ p → P' q = P q

/-- **Removing from a leaf.** -/
theorem Tree.removeFromLeaf_eq_ok (htree : tree.Follows d) (hkey : key.length = d.width)
    {g : Guard n} {items : Items 0} (hs : pool.Sound (g :: gs)) (hw : g.mode = .write)
    (hnode : NodeAt d pool.pages g.page parent next items) (hsorted : Sorted d.order items)
    (hlen : items.length ≤ d.max 0) :
    ∃ done pool', tree.removeFromLeaf g key pool = .ok done pool' ∧ pool'.Sound gs ∧
      LeafRemoves d pool.pages pool'.pages g.page parent next items key done := by
  obtain ⟨node, hpage, hholds, -, hblock⟩ := hnode.exists_leaf htree.fits (Nat.le_succ_of_le hlen)
  have hbytes := hs.bytes_of_pages List.mem_cons_self hpage
  rw [Items.records_zero] at hholds
  rcases Leaf.search_cases hholds hsorted hkey with
    ⟨pre, row, post, rfl, hpre, hpost, hsearch⟩ | ⟨pre, post, rfl, hpre, hpost, hsearch⟩
  · rw [← htree.order] at hsearch
    obtain ⟨node', hremove, hholds'⟩ := Node.Holds.remove_eq_ok (k := .leaf) pre hholds
    have hremove' : node.remove pre.length = .ok node' := hremove
    obtain ⟨hs', hpages'⟩ := hs.put List.mem_cons_self hw node'.page
    have hsize : node'.size = (pre ++ post).length := hholds'.states.size
    have hmax : node'.maxSize = d.max 0 := hholds'.states.maxSize
    obtain ⟨pool', hrun, hs'', hpages''⟩ : ∃ pool', tree.removeFromLeaf g key pool =
        .ok (.removed (decide ((pre ++ post).length < d.min 0))) pool' ∧ pool'.Sound gs ∧
        pool'.pages = Function.update pool.pages g.page (some node'.page) := by
      refine holding_eq_ok ⟨pool.put g node'.page, ?_, hs', hpages'⟩
      rw [Action.get_bind, hbytes, Action.bind_of_ok (Action.liftM_ok hblock _),
        Action.bind_of_ok (Action.liftM_ok hsearch _)]
      dsimp only
      rw [Action.bind_of_ok (Action.liftM_ok hremove' _), Action.modify_bind, Node.minSize, hsize,
        hmax]
      rfl
    refine ⟨_, pool', hrun, hs'', .inr ⟨pre, row, post, rfl, hpre, hpost, rfl, ?_, fun q hq => ?_⟩⟩
    · have hsame : Items.records (h := 0) (pre ++ post) = pre ++ post := Items.records_zero _
      refine NodeAt.of_holds (h := 0) ?_ (hsame.symm ▸ hholds')
      rw [hpages'', Function.update_self]
    · rw [hpages'', Function.update_of_ne hq]
  · rw [← htree.order] at hsearch
    obtain ⟨pool', hrun, hs', hpages'⟩ : ∃ pool', tree.removeFromLeaf g key pool =
        .ok .notFound pool' ∧ pool'.Sound gs ∧ pool'.pages = pool.pages := by
      refine holding_eq_ok ⟨pool, ?_, hs, rfl⟩
      rw [Action.get_bind, hbytes, Action.bind_of_ok (Action.liftM_ok hblock _),
        Action.bind_of_ok (Action.liftM_ok hsearch _)]
      rfl
    exact ⟨_, pool', hrun, hs', .inl ⟨rfl, hpages', pre, post, rfl, hpre, hpost⟩⟩

/-! ## Going down and coming back -/

/-- A removal below a node finds no such key, or the node is left with the other entries. It
reports whether the node is short. -/
def Removes (d : TreePlan) (P P' : PageMap) (parent next : PageId) (lo hi least : Nat) (t : Shape h)
    (key : Key) (done : Removal) : Prop :=
  (done = .notFound ∧ P' = P ∧ ∃ pre post, t.entries = pre ++ post ∧
    Below d.order (d.order.rank key) pre ∧ Above d.order (d.order.rank key) post) ∨
  ∃ (pre : List (Key × RowId)) (row : RowId) (post : List (Key × RowId)) (short : Bool)
    (l : Shape h), t.entries = pre ++ (key, row) :: post ∧ Below d.order (d.order.rank key) pre ∧
    Above d.order (d.order.rank key) post ∧ done = .removed short ∧
    (if short then l.items.length < d.min h else least ≤ l.items.length) ∧
    Trades P P' t.pages l.pages ∧
    Housed d P' parent next lo hi (least - 1) t.page t.first (pre ++ post) l []

/-- Entries without one of them keep the order. -/
theorem Ranged.drop {o : KeyOrder} {pre post : List (Key × RowId)} {e : Key × RowId}
    (hr : Ranged o lo hi (pre ++ e :: post)) : Ranged o lo hi (pre ++ post) := by
  have hsub : (pre ++ post).Sublist (pre ++ e :: post) :=
    (List.sublist_cons_self e post).append_left _
  exact ⟨hr.1.sublist hsub, fun e he => hr.2 e (hsub.subset he)⟩

/-- **A short child is repaired** by its parent. -/
theorem Tree.rebalance_ends (hd : d.Fits) (hs : pool.Sound gs)
    {pre post : Items (h + 1)} {i : Key × Shape h}
    (hap : ∀ g ∈ gs, g.page ∉ p :: Items.pages (pre ++ i :: post))
    (hnode : NodeAt d pool.pages p parent next (pre ++ i :: post))
    (hh : Hangs d pool.pages p next lo hi (pre ++ i :: post))
    (hmost : (pre ++ i :: post).length ≤ d.max (h + 1)) (htwo : 2 ≤ (pre ++ i :: post).length)
    (hleast : least ≤ (pre ++ i :: post).length) (hpre : Filled d pre) (hpost : Filled d post)
    (hsize : i.2.Sized d (d.min h - 1)) (hshort : i.2.items.length < d.min h) :
    Ends (Crowded gs 3) (fun short pool' => pool'.Sound gs ∧ ∃ l : Shape (h + 1),
      short = decide (l.items.length < d.min (h + 1)) ∧
      Trades pool.pages pool'.pages (p :: Items.pages (pre ++ i :: post)) l.pages ∧
      Housed d pool'.pages parent next lo hi (least - 1) p
        (Content.node p (pre ++ i :: post)).first (Items.entries (pre ++ i :: post)) l [])
      (Tree.rebalance p pre.length pool) := by
  obtain ⟨before, x, y, behind, hcut, hindex, w, hboth, hbefore, hbehind⟩ :=
    Window.of_short hnode hh hmost htwo hpre hpost hsize hshort
  rw [hcut] at hap hleast ⊢
  exact w.rebalance_ends hd hs hap hindex hboth hbefore hbehind hleast

/-- What a removal reports of a node: it is short, or it has entries enough. -/
theorem report {k least most : Nat} (h : least ≤ most) :
    if decide (k < most) then k < most else least ≤ k := by
  by_cases hshort : k < most
  · rw [if_pos (decide_eq_true hshort)]
    exact hshort
  · rw [if_neg (mt of_decide_eq_true hshort)]
    exact Nat.le_trans h (Nat.le_of_not_lt hshort)

/-- A leaf that lost an entry is a whole tree that lost it. -/
theorem LeafRemoves.removes {t : Shape 0} {done : Removal}
    (hdone : LeafRemoves d P P' t.page parent next t.items key done) (hin : Within d.order lo hi t)
    (hsize : t.Sized d least) (hleast : least ≤ d.min 0) :
    Removes d P P' parent next lo hi least t key done := by
  obtain hmissing | ⟨pre, row, post, hcut, hpre, hpost, rfl, hnode, hkept⟩ := hdone
  · exact .inl hmissing
  have hrange : Ranged d.order lo hi (pre ++ (key, row) :: post) := hcut ▸ hin.2
  have hhangs : Hangs d P' t.page next lo hi (h := 0) (pre ++ post) :=
    ⟨trivial, ⟨hin.1, hrange.drop⟩, List.nodup_singleton _⟩
  have hcount : t.items.length = (pre ++ post).length + 1 := by
    rw [hcut, List.length_append, List.length_append, List.length_cons]
    rfl
  have hsmall := hsize.least
  have hlarge := hsize.most
  refine .inr ⟨pre, row, post, _, Content.node t.page (h := 0) (pre ++ post), hcut, hpre, hpost,
    rfl, ?_, Trades.inside fun q hq => hkept q fun e => hq (e ▸ List.mem_cons_self),
    hhangs.housed hnode trivial (by omega) (by omega)⟩
  rw [Content.items_node]
  exact report hleast

/-- `pre` and `post` are the entries before and behind that of a key. -/
structure Flanks (o : KeyOrder) (key : Key) (row : RowId) (all pre post : List (Key × RowId)) :
    Prop where
  cut : all = pre ++ (key, row) :: post
  below : Below o (o.rank key) pre
  above : Above o (o.rank key) post

/-- What is beside the entry in a child is beside it in the whole node. -/
theorem Leads.flanks {t : Shape (h + 1)} {pre post : Items (h + 1)} {i : Key × Shape h} {a b : Nat}
    {o : KeyOrder} {row : RowId} {before behind : List (Key × RowId)}
    (hl : Leads o lo hi (o.rank key) t.items pre i post a b)
    (hf : Flanks o key row i.2.entries before behind) :
    Flanks o key row t.entries (Items.entries pre ++ before) (behind ++ Items.entries post) where
  cut := by
    rw [hl.entries_eq, hf.cut]
    simp only [List.append_assoc, List.cons_append]
  below := (hl.beside hf.below hf.above).1
  above := (hl.beside hf.below hf.above).2

section Above

variable {t : Shape (h + 1)} {pre post : Items (h + 1)} {k : Key} {l : Shape h} {row : RowId}
  {before behind : List (Key × RowId)}

/-- Above a child in one page there are as many items as before. -/
theorem Absorbs.single {E : List (Key × RowId)}
    (hab : Absorbs d P P' parent next lo hi t pre k l [] post E) :
    Hangs d P' t.page next lo hi (pre ++ (k, l) :: post) ∧
      Trades P P' t.pages (t.page :: Items.pages (pre ++ (k, l) :: post)) ∧
      (Content.node t.page (pre ++ (k, l) :: post)).first = t.first ∧
      (pre ++ (k, l) :: post).entries = Items.entries pre ++ E ++ Items.entries post :=
  ⟨hab.hangs, hab.trades, hab.first, hab.entries⟩

/-- **A child that is not short** is left as it is. -/
theorem Absorbs.removes
    (hab : Absorbs d P P' parent next lo hi t pre k l [] post (before ++ behind))
    (hf : Flanks d.order key row t.entries (Items.entries pre ++ before)
      (behind ++ Items.entries post))
    (hsize : t.Sized d least) (hpre : Filled d pre) (hpost : Filled d post)
    (hl : l.Sized d (d.min h)) :
    Removes d P P' parent next lo hi least t key (.removed false) := by
  obtain ⟨hangs, htrades, hfirst, hentries⟩ := hab.single
  have hsmall := hsize.least
  have hlarge := hsize.most
  rw [← hab.count] at hsmall hlarge
  have hfilled : Filled d (pre ++ (k, l) :: post) :=
    filled_append.2 ⟨hpre, filled_cons.2 ⟨hl, hpost⟩⟩
  have hdone := hangs.housed hab.node hfilled (Nat.le_trans (Nat.sub_le least 1) hsmall) hlarge
  rw [hfirst, hentries, List.append_assoc, List.append_assoc, ← List.append_assoc] at hdone
  refine .inr ⟨_, row, _, false, Content.node t.page (pre ++ (k, l) :: post), hf.cut, hf.below,
    hf.above, rfl, ?_, htrades, hdone⟩
  rw [if_neg Bool.false_ne_true]
  exact hsmall

/-- **A child that is short** is repaired, which may leave the node short in turn. -/
theorem Absorbs.rebalance_ends (hd : d.Fits) (hs : pool.Sound gs)
    (hab : Absorbs d P pool.pages parent next lo hi t pre k l [] post (before ++ behind))
    (hap : ∀ g ∈ gs, g.page ∉ t.page :: Items.pages (pre ++ (k, l) :: post))
    (hf : Flanks d.order key row t.entries (Items.entries pre ++ before)
      (behind ++ Items.entries post))
    (hsize : t.Sized d least) (hleast : least ≤ d.min (h + 1)) (htwo : 2 ≤ least)
    (hpre : Filled d pre)
    (hpost : Filled d post) (hl : l.Sized d (d.min h - 1)) (hshort : l.items.length < d.min h) :
    Ends (Crowded gs 3) (fun short pool' => pool'.Sound gs ∧
      Removes d P pool'.pages parent next lo hi least t key (.removed short))
      (Tree.rebalance t.page pre.length pool) := by
  obtain ⟨hangs, htrades, hfirst, hentries⟩ := hab.single
  have hsmall := hsize.least
  have hlarge := hsize.most
  rw [← hab.count] at hsmall hlarge
  refine (Tree.rebalance_ends hd hs hap hab.node hangs hlarge (Nat.le_trans htwo hsmall)
    hsmall hpre hpost
    hl hshort).imp (fun _ _ => id) ?_
  rintro _ pool' ⟨hs', l', rfl, htrades', hhoused⟩
  rw [hfirst, hentries, List.append_assoc, List.append_assoc, ← List.append_assoc] at hhoused
  exact ⟨hs', .inr ⟨_, row, _, _, l', hf.cut, hf.below, hf.above, rfl, report hleast,
    htrades.trans htrades', hhoused⟩⟩

end Above

/-- **Removing below a leaf** is removing from it. -/
theorem Tree.removeBelow_leaf_eq_ok (htree : tree.Follows d) (hroom : Room gs 1)
    (hkey : key.length = d.width) {t : Shape 0} (hh : pool.Has gs d parent next t)
    (hin : Within d.order lo hi t) (hmost : t.items.length ≤ d.max 0) (fuel : Nat) :
    ∃ done pool', tree.removeBelow key (fuel + 1) t.page pool = .ok done pool' ∧ pool'.Sound gs ∧
      LeafRemoves d pool.pages pool'.pages t.page parent next t.items key done := by
  obtain ⟨g, pool₁, hfetch, hgp, hmode, hs, hpages, hpeek⟩ :=
    Tree.stop_eq_ok tree htree.fits hroom hh hmost .write (some key)
  have hnode : NodeAt d pool₁.pages g.page parent next t.items := by
    rw [hpages, hgp]
    exact hh.stored.node
  obtain ⟨done, pool', hrun, hs', hdone⟩ :=
    removeFromLeaf_eq_ok htree hkey hs hmode hnode hin.2.1 hmost
  rw [hgp, hpages] at hdone
  refine ⟨done, pool', ?_, hs', hdone⟩
  rw [Tree.removeBelow, Action.bind_of_ok hfetch, Action.bind_of_ok hpeek]
  exact hrun

/-- **Removing below a node.** -/
theorem Tree.removeBelow_ends (htree : tree.Follows d)
    (hkey : key.length = d.width) {t : Shape h} {fuel : Nat} (hfuel : h < fuel)
    (hh : pool.Has gs d parent next t) (hin : Within d.order lo hi t) (hsize : t.Sized d least)
    (hleast : least ≤ d.min h) (htwo : 0 < h → 2 ≤ least) (hlo : lo ≤ d.order.rank key)
    (hhi : d.order.rank key < hi) :
    Ends (Crowded gs 3) (fun done pool' => pool'.Sound gs ∧
      Removes d pool.pages pool'.pages parent next lo hi least t key done)
      (tree.removeBelow key fuel t.page pool) := by
  by_cases hroom : Room gs 1
  swap
  · -- without a frame the first fetch stops, at any depth
    match fuel, hfuel with
    | fuel + 1, _ =>
    obtain ⟨pool', hrun, -⟩ := Tree.fetch_bind_eq_error hh.sound hh.allocated hh.free hroom .write
    rw [Tree.removeBelow]
    exact .of_eq_error hrun fun hk => hroom (hk.mono (by omega))
  induction h generalizing pool parent next lo hi fuel least with
  | zero =>
    match fuel, hfuel with
    | fuel + 1, _ =>
    obtain ⟨done, pool', hrun, hs', hdone⟩ :=
      Tree.removeBelow_leaf_eq_ok htree hroom hkey hh hin hsize.most fuel
    exact .of_eq_ok hrun ⟨hs', hdone.removes hin hsize hleast⟩
  | succ h ih =>
    match fuel, hfuel with
    | fuel + 1, hfuel =>
    obtain ⟨pre, i, post, a, b, g, pool₁, hleads, hfetch, hpeek, hchild, hpages⟩ :=
      Tree.step_eq_ok htree hroom hkey hh hin hsize.most hlo hhi .write
    obtain ⟨hfpre, hsizei, hfpost⟩ := hleads.sized hsize.below
    rw [Tree.removeBelow, Action.bind_of_ok hfetch, Action.bind_of_ok hpeek]
    dsimp only
    rw [Action.modify_bind]
    -- the child may lose an entry more than its least, as it is no root
    refine Ends.bind (ih (Nat.lt_of_succ_lt_succ hfuel) hchild hleads.within hsizei (Nat.le_refl _)
      htree.fits.two_le_min hleads.lower hleads.upper) ?_
    rw [hpages]
    rintro done pool₂ ⟨hs₂, ⟨rfl, hP, before, behind, hentries, hbefore, hbehind⟩ |
      ⟨before, row, behind, short, l, hentries, hbefore, hbehind, rfl, hshort, htrades, hhoused⟩⟩
    · obtain ⟨hbelow, habove⟩ := hleads.beside hbefore hbehind
      refine ⟨hs₂, .inl ⟨rfl, hP, _, _, ?_, hbelow, habove⟩⟩
      rw [hleads.entries_eq, hentries]
      simp only [List.append_assoc]
    have hf := hleads.flanks ⟨hentries, hbefore, hbehind⟩
    have hab : Absorbs d pool.pages pool₂.pages parent next lo hi t pre i.1 l [] post
        (before ++ behind) := hh.absorbs hin hleads (by simpa using htrades) hhoused
    have hweak : l.Sized d (d.min h - 1) := by simpa using hhoused.size
    cases short with
    | false =>
      rw [if_neg Bool.false_ne_true] at hshort
      exact ⟨hs₂, hab.removes hf hsize hfpre hfpost ⟨hshort, hweak.most, hweak.below⟩⟩
    | true =>
      rw [if_pos rfl] at hshort
      have hap := hh.apart_of_trades hab.trades
      exact Ends.bind (hab.rebalance_ends htree.fits hs₂ hap hf hsize hleast
        (htwo (Nat.succ_pos h)) hfpre hfpost hweak hshort) fun _ _ => id

end PageStore
