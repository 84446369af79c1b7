import PageStore.Proofs.Tree.Whole
import PageStore.Tree.Verify

/-!
# Every tree is well formed

`verify` finds nothing to refuse in a tree that a pool holds, and answers the number of its entries:
`Tree.Stands.verify_eq_ok`. A survey goes through the leaves from left to right, so what it adds up
below a node is told by the entries and by the leaves below it, each with the one behind it.
-/

namespace PageStore

open Pool

variable {n m : Nat} {d : TreePlan} {o : KeyOrder} {P : PageMap} {h lo hi : Nat}
  {p parent next : PageId}
  {pool : Pool n m} {gs : List (Guard n)} {tree : Tree} {E : List (Key × RowId)}

theorem ensure_eq_ok {holds : Bool} (hb : holds = true) (p : PageId) (rule : TreeRule) :
    ensure holds p rule = .ok () := if_pos hb

/-! ## Keys between bounds -/

/-- The bounds that there are have the width of keys and are not inside the range. -/
structure Bounds (o : KeyOrder) (width : Nat) (lower upper : Option Key) (lo hi : Nat) : Prop where
  lower : ∀ k ∈ lower, k.length = width ∧ o.rank k ≤ lo
  upper : ∀ k ∈ upper, k.length = width ∧ hi ≤ o.rank k

/-- The key of an item bounds what is before it from above. -/
theorem Bounds.before {width : Nat} {lower upper : Option Key} {key : Key}
    (hb : Bounds o width lower upper lo hi) (hkey : key.length = width) :
    Bounds o width lower (some key) lo (o.rank key) :=
  ⟨hb.lower, fun _ hk => Option.some.inj hk ▸ ⟨hkey, Nat.le_refl _⟩⟩

/-- It bounds what is behind it from below. -/
theorem Bounds.behind {width : Nat} {lower upper : Option Key} {key : Key}
    (hb : Bounds o width lower upper lo hi) (hkey : key.length = width) :
    Bounds o width (some key) upper (o.rank key) hi :=
  ⟨fun _ hk => Option.some.inj hk ▸ ⟨hkey, Nat.le_refl _⟩, hb.upper⟩

/-- Keys that increase in a range are in order between its bounds. -/
theorem checkKeys_eq_ok {α : Type} {l : List (Key × α)} {width : Nat} {lower upper : Option Key}
    (hb : Bounds o width lower upper lo hi) (hl : Sorted o l) (hw : ∀ e ∈ l, e.1.length = width)
    (hrange : ∀ e ∈ l, lo ≤ o.rank e.1 ∧ o.rank e.1 < hi) (previous : Option Key)
    (hprevious : ∀ k ∈ previous, k.length = width ∧ Above o (o.rank k) l) :
    checkKeys o p lower upper previous (l.map Prod.fst) = .ok () := by
  induction l generalizing previous with
  | nil => rfl
  | cons e l ih =>
    obtain ⟨hfirst, hrest⟩ := List.pairwise_cons.1 hl
    obtain ⟨hwe, hwl⟩ := List.forall_mem_cons.1 hw
    obtain ⟨⟨hlow, hhigh⟩, hrange⟩ := List.forall_mem_cons.1 hrange
    have horder : (previous.all fun k => o.compare k e.1 = .lt) = true :=
      (Option.all_eq_true _ _).2 fun k hk => by
        obtain ⟨hwk, habove⟩ := hprevious k hk
        exact decide_eq_true ((KeyOrder.compare_eq_lt_iff (hwk.trans hwe.symm)).2
          (habove e List.mem_cons_self))
    have hlower : (lower.all fun k => o.compare e.1 k ≠ .lt) = true :=
      (Option.all_eq_true _ _).2 fun k hk => by
        obtain ⟨hwk, hle⟩ := hb.lower k hk
        exact decide_eq_true ((KeyOrder.compare_eq_lt_iff (hwe.trans hwk.symm)).not.2 (by omega))
    have hupper : (upper.all fun k => o.compare e.1 k = .lt) = true :=
      (Option.all_eq_true _ _).2 fun k hk => by
        obtain ⟨hwk, hle⟩ := hb.upper k hk
        exact decide_eq_true ((KeyOrder.compare_eq_lt_iff (hwe.trans hwk.symm)).2 (by omega))
    have hnext := ih hrest hwl hrange (some e.1) fun k hk => by
      obtain rfl : e.1 = k := Option.some.inj hk
      exact ⟨hwe, hfirst⟩
    rw [List.map_cons, checkKeys, ensure_eq_ok horder, ok_bind, ensure_eq_ok hlower, ok_bind,
      ensure_eq_ok hupper, ok_bind]
    exact hnext

/-! ## The chain of leaves -/

/-- The leaves of a node and below, from left to right. -/
def Content.leaves : {h : Nat} → Shape h → List PageId
  | 0, t => [t.page]
  | _ + 1, t => t.items.flatMap fun i => leaves i.2

/-- The leaves below items, from left to right. -/
def Items.leaves (l : Items (h + 1)) : List PageId := l.flatMap fun i => i.2.leaves

theorem Items.leaves_append (l l' : Items (h + 1)) : leaves (l ++ l') = leaves l ++ leaves l' :=
  List.flatMap_append

@[simp] theorem Items.leaves_rejoin (key : Key) (l : Items (h + 1)) :
    leaves (l.rejoin key) = leaves l := by
  cases l <;> rfl

/-- Pages in a row, each with the next one, and the last with the page behind the row. -/
def chained (next : PageId) : List PageId → List (PageId × PageId)
  | [] => []
  | p :: l => (p, l.head?.getD next) :: chained next l

theorem chained_append (l l' : List PageId) :
    chained next (l ++ l') = chained (l'.head?.getD next) l ++ chained next l' := by
  induction l with
  | nil => rfl
  | cons p l ih =>
    rw [List.cons_append, chained, ih, chained]
    cases l <;> rfl

/-- A row that ends with no page is a chain. -/
theorem checkChain_eq_ok (l : List PageId) : checkChain (chained .none l) = .ok () := by
  induction l with
  | nil => rfl
  | cons p l ih =>
    cases l with
    | nil => exact ensure_eq_ok rfl p .chainEnd
    | cons q l =>
      have hlink : decide ((q :: l).head?.getD .none = q) = true := decide_eq_true rfl
      rw [chained, chained, checkChain, ensure_eq_ok hlink, ok_bind]
      exact ih

/-- The first of the leaves. -/
theorem Content.head?_leaves {t : Shape h} (ht : Within o lo hi t) :
    t.leaves.head? = some t.first := by
  induction h generalizing lo hi with
  | zero => rfl
  | succ h ih =>
    obtain ⟨i, l, hl⟩ := List.exists_cons_of_ne_nil (Spans.ne_nil ht)
    rw [Within, hl] at ht
    obtain ⟨mid, hi, -⟩ := ht
    rw [Content.leaves, Content.first, hl, List.flatMap_cons, List.head?_append, ih hi]
    rfl

/-- The leaves below items start with the first one below them. -/
theorem Items.head?_leaves {l : Items (h + 1)} (hl : ∀ i ∈ l, ∃ lo hi, Within o lo hi i.2)
    (next : PageId) : (leaves l).head?.getD next = l.head next := by
  cases l with
  | nil => rfl
  | cons i l =>
    obtain ⟨a, b, hi⟩ := hl i List.mem_cons_self
    rw [leaves, List.flatMap_cons, List.head?_append, Content.head?_leaves hi]
    rfl

/-! ## What a survey adds up -/

/-- The survey after some entries more, in leaves of a depth that link like this. -/
def Survey.add (s : Survey) (depth entries : Nat) (links : List (PageId × PageId)) : Survey where
  entries := s.entries + entries
  depth := some depth
  leaves := s.leaves ++ links.toArray

theorem Survey.add_add (s : Survey) (depth e e' : Nat) (l l' : List (PageId × PageId)) :
    (s.add depth e l).add depth e' l' = s.add depth (e + e') (l ++ l') := by
  simp only [add, Nat.add_assoc, Array.append_assoc, List.append_toArray]

theorem Survey.addLeaf_eq_ok {s : Survey} {v : Visit} (hdepth : ∀ k ∈ s.depth, k = v.depth)
    (entries : Nat) (next : PageId) :
    s.addLeaf v entries next = .ok (s.add v.depth entries [(v.page, next)]) := by
  have hall : (s.depth.all (· = v.depth)) = true :=
    (Option.all_eq_true _ _).2 fun k hk => decide_eq_true (hdepth k hk)
  rw [addLeaf, ensure_eq_ok hall, ok_bind, Array.push_eq_append]
  rfl

/-! ## Nodes by themselves -/

/-- The visit goes to the node of a subtree, knowing its parent and its range. The node may have too
few items, but not too many. -/
structure Visit.Meets (v : Visit) (pool : Pool n m) (gs : List (Guard n)) (d : TreePlan)
    (next : PageId) (lo hi : Nat) (t : Shape h) : Prop where
  page : v.page = t.page
  has : pool.Has gs d v.parent next t
  within : Within d.order lo hi t
  bounds : Bounds d.order d.width v.lower v.upper lo hi
  most : t.items.length ≤ d.max h

/-- The least number of items of a node in its place: a root may have fewer than others. -/
def Visit.least (v : Visit) (d : TreePlan) (h : Nat) : Nat :=
  if v.parent.isSome then d.min h else rootLeast h

/-- The visit goes to the node of a subtree in which all nodes have items enough. -/
structure Visit.Reaches (v : Visit) (pool : Pool n m) (gs : List (Guard n)) (d : TreePlan)
    (next : PageId) (lo hi : Nat) (t : Shape h) : Prop where
  page : v.page = t.page
  has : pool.Has gs d v.parent next t
  within : Within d.order lo hi t
  bounds : Bounds d.order d.width v.lower v.upper lo hi
  sized : t.Sized d (v.least d h)

namespace Visit

variable {v : Visit}

theorem Reaches.meets {t : Shape h} (hv : v.Reaches pool gs d next lo hi t) :
    v.Meets pool gs d next lo hi t :=
  ⟨hv.page, hv.has, hv.within, hv.bounds, hv.sized.most⟩

/-- Nothing is wrong with the header of a node, nor with its number of items unless it has too
few. -/
theorem header {l : Items h} {node : Node (levelKind h)} (hpage : v.page = p)
    (hmost : l.length ≤ d.max h) (htree : tree.Follows d)
    (hn : node.Holds (d.header h p v.parent next) l.records) :
    decide (node.id = v.page) = true ∧ decide (node.parent = v.parent) = true ∧
      decide (node.keySize = tree.keySize) = true ∧ decide (node.size ≤ node.maxSize) = true ∧
      decide ((if v.parent.isSome then node.minSize else rootLeast h) ≤ node.size) =
        decide (v.least d h ≤ l.length) := by
  have hstates := hn.states
  rw [Items.length_records] at hstates
  have hmin : node.minSize = d.min h := by rw [Node.minSize, hstates.maxSize]; rfl
  rw [hmin, hstates.size, hstates.maxSize]
  simp only [decide_eq_true_eq]
  exact ⟨hstates.id.trans hpage.symm, hstates.parent, hstates.keySize.trans htree.width.symm,
    hmost, rfl⟩

/-- Nothing is wrong with an internal node that has children enough, taken by itself, when its keys
are in order. Its children need not be nodes. -/
theorem examine_internal_eq_ok {P : PageMap} {l : Items (h + 1)}
    (hn : NodeAt d P p v.parent next l) (hpage : v.page = p) (htree : tree.Follows d)
    (hmost : l.length ≤ d.max (h + 1)) (henough : v.least d (h + 1) ≤ l.length)
    (hkeys : checkKeys tree.order v.page v.lower v.upper none (l.records.tail.map Prod.fst) =
      .ok ()) :
    ∃ page, P p = some page ∧ tree.examine v page = .ok (.internal l.records) := by
  obtain ⟨node, hp, hholds, hkind, hblock⟩ :=
    hn.exists_internal htree.fits (Nat.le_succ_of_le hmost)
  obtain ⟨hid, hparent, hwidth, hmost, hleast⟩ := header hpage hmost htree hholds
  have hleast : decide ((if v.parent.isSome then node.minSize else 2) ≤ node.size) = true :=
    hleast.trans (decide_eq_true henough)
  refine ⟨node.page, hp, ?_⟩
  rw [Tree.examine, hkind, ok_bind]
  dsimp only
  rw [Tree.examineInternal, hblock, ok_bind, ensure_eq_ok hid, ok_bind, ensure_eq_ok hparent,
    ok_bind, ensure_eq_ok hwidth, ok_bind, ensure_eq_ok hmost, ok_bind, ensure_eq_ok hleast,
    ok_bind, Internal.entries_eq_ok hholds, ok_bind, hkeys, ok_bind]
  rfl

namespace Meets

/-- Nothing is wrong with a leaf that has entries enough. -/
theorem examine_leaf {t : Shape 0} (hv : v.Meets pool gs d next lo hi t) (htree : tree.Follows d)
    (henough : v.least d 0 ≤ t.items.length) : ∃ page, pool.pages t.page = some page ∧
      tree.examine v page = .ok (.leaf t.items.length next) := by
  obtain ⟨node, hpage, hholds, hkind, hblock⟩ :=
    hv.has.stored.node.exists_leaf htree.fits (Nat.le_succ_of_le hv.most)
  obtain ⟨hid, hparent, hwidth, hmost, hleast⟩ := header hv.page hv.most htree hholds
  have hleast : decide ((if v.parent.isSome then node.minSize else 1) ≤ node.size) = true :=
    hleast.trans (decide_eq_true henough)
  rw [Items.records_zero] at hholds
  have hkeys : Leaf.keys node = .ok (t.items.map Prod.fst) := hholds.keys_eq_ok
  have hchecked : checkKeys tree.order v.page v.lower v.upper none (t.items.map Prod.fst) =
      .ok () := by
    rw [htree.order]
    exact checkKeys_eq_ok hv.bounds hv.within.2.1 hholds.width hv.within.2.2 none nofun
  refine ⟨node.page, hpage, ?_⟩
  rw [Tree.examine, hkind, ok_bind]
  dsimp only
  rw [Tree.examineLeaf, hblock, ok_bind, ensure_eq_ok hid, ok_bind, ensure_eq_ok hparent, ok_bind,
    ensure_eq_ok hwidth, ok_bind, ensure_eq_ok hmost, ok_bind, ensure_eq_ok hleast, ok_bind, hkeys,
    ok_bind, hchecked, ok_bind, hholds.states.size, hholds.next_eq]
  rfl

/-- A leaf that has too few entries is refused. -/
theorem examine_short {t : Shape 0} (hv : v.Meets pool gs d next lo hi t) (htree : tree.Follows d)
    (hshort : ¬v.least d 0 ≤ t.items.length) : ∃ page, pool.pages t.page = some page ∧
      tree.examine v page = refuse (.tree (.broken t.page .leafLeast)) := by
  obtain ⟨node, hpage, hholds, hkind, hblock⟩ :=
    hv.has.stored.node.exists_leaf htree.fits (Nat.le_succ_of_le hv.most)
  obtain ⟨hid, hparent, hwidth, hmost, hleast⟩ := header hv.page hv.most htree hholds
  have hleast : decide ((if v.parent.isSome then node.minSize else 1) ≤ node.size) = false :=
    hleast.trans (decide_eq_false hshort)
  refine ⟨node.page, hpage, ?_⟩
  rw [Tree.examine, hkind, ok_bind]
  dsimp only
  rw [Tree.examineLeaf, hblock, ok_bind, ensure_eq_ok hid, ok_bind, ensure_eq_ok hparent, ok_bind,
    ensure_eq_ok hwidth, ok_bind, ensure_eq_ok hmost, ok_bind, hleast, hv.page]
  rfl

/-- Nothing is wrong with an internal node that has children enough, taken by itself. -/
theorem examine_internal {t : Shape (h + 1)} (hv : v.Meets pool gs d next lo hi t)
    (htree : tree.Follows d) (henough : v.least d (h + 1) ≤ t.items.length) :
    ∃ page, pool.pages t.page = some page ∧
      tree.examine v page = .ok (.internal t.items.records) := by
  have hnode := hv.has.stored.node
  refine examine_internal_eq_ok hnode hv.page htree hv.most henough ?_
  obtain ⟨hsorted, hrange⟩ := Spans.keys_tail within_lt hv.within
  have htail : t.items.records.tail = t.items.tail.map Items.record := List.map_tail.symm
  have hsorted' : Sorted d.order t.items.records.tail := htail ▸ List.pairwise_map.2 hsorted
  obtain ⟨page, -, hholds⟩ := hnode
  rw [htree.order]
  refine checkKeys_eq_ok hv.bounds hsorted' (fun e he => ?_) (htail ▸ ?_) none nofun
  · exact hholds.width e (List.mem_of_mem_tail he)
  · exact List.forall_mem_map.2 hrange

end Meets

end Visit

/-! ## Walking through a tree -/

/-- The pool holds the first subtree below a node. -/
theorem Hangs.has {i : Key × Shape h} {l : Items (h + 1)}
    (hl : Hangs d pool.pages p next lo hi (i :: l)) (hs : pool.Sound gs)
    (hap : ∀ g ∈ gs, g.page ∉ Items.pages (i :: l)) : pool.Has gs d p (Items.head next l) i.2 := by
  have hnd := hl.nodup
  rw [Items.pages_cons] at hnd hap
  exact ⟨hs, (linked_cons.1 hl.linked).1, hnd.sublist ((List.sublist_append_left ..).cons _),
    fun g hg hin => hap g hg (List.mem_append_left _ hin)⟩

/-- It has the keys up to that of the second one, from which on the others have theirs. -/
theorem Hangs.second {i j : Key × Shape h} {l : Items (h + 1)}
    (hl : Hangs d P p next lo hi (i :: j :: l)) :
    Within d.order lo (d.order.rank j.1) i.2 ∧ Hangs d P p next (d.order.rank j.1) hi (j :: l) := by
  obtain ⟨mid, hin, hrest⟩ := hl.ordered
  obtain ⟨rfl, hspans⟩ := chain_cons.1 hrest
  have hnd := hl.nodup
  rw [Items.pages_cons] at hnd
  exact ⟨hin, (linked_cons.1 hl.linked).2, hspans,
    hnd.sublist ((List.sublist_append_right ..).cons_cons _)⟩

/-- What a survey of the nodes from a page on down has to find, for every node at this height that
it is sent to at this depth. -/
def Tree.Surveys (tree : Tree) (gs : List (Guard n)) (d : TreePlan) (h fuel depth : Nat) : Prop :=
  ∀ {pool : Pool n m} {next : PageId} {lo hi : Nat} {t : Shape h} {v : Visit} {s : Survey},
    v.Reaches pool gs d next lo hi t → v.depth = depth → (∀ k ∈ s.depth, k = depth + h) →
    ∃ pool', tree.surveyBelow fuel v s pool =
        .ok (s.add (depth + h) t.entries.length (chained next t.leaves)) pool' ∧
      pool'.Sound gs ∧ pool'.pages = pool.pages

/-- **The children of a node** are surveyed from left to right. -/
theorem Tree.surveyChildren_eq_ok {fuel depth : Nat}
    (hone : tree.Surveys (n := n) (m := m) gs d h fuel depth) (hp : p ≠ .none) {l : Items (h + 1)}
    {lower upper : Option Key} {s : Survey} (hs : pool.Sound gs)
    (hl : Hangs d pool.pages p next lo hi l) (hap : ∀ g ∈ gs, g.page ∉ l.pages) (hf : Filled d l)
    (hw : ∀ i ∈ l, i.1.length = d.width) (hb : Bounds d.order d.width lower upper lo hi)
    (hdepth : ∀ k ∈ s.depth, k = depth + h) :
    ∃ pool', ((childSpans lower upper l.records).foldlM (fun s (child, lower, upper) =>
        tree.surveyBelow fuel ⟨child, p, lower, upper, depth⟩ s) s :
          Action (Pool n m) Survey) pool =
        .ok (s.add (depth + h) l.entries.length (chained next l.leaves)) pool' ∧
      pool'.Sound gs ∧ pool'.pages = pool.pages := by
  -- on the children, with the bounds and the running totals free: the key of the next child
  -- closes the range of this one and opens the range of the rest
  induction l generalizing pool lo lower s with
  | nil => exact absurd rfl (Spans.ne_nil hl.ordered)
  | cons i l ih =>
    obtain ⟨hsized, hfl⟩ := filled_cons.1 hf
    have hhas := hl.has hs hap
    have hleast : ∀ lower upper, Visit.least ⟨i.2.page, p, lower, upper, depth⟩ d h = d.min h :=
      fun _ _ => if_pos (PageId.isSome_iff.2 hp)
    cases l with
    | nil =>
      obtain ⟨_, hin, rfl⟩ := hl.ordered
      obtain ⟨pool', hrun, hs', hpages⟩ := hone (v := ⟨i.2.page, p, lower, upper, depth⟩)
        ⟨rfl, hhas, hin, hb, (hleast _ _).symm ▸ hsized⟩ rfl hdepth
      refine ⟨pool', ?_, hs', hpages⟩
      rw [Items.entries_cons, Items.entries_nil, List.append_nil, Items.leaves, List.flatMap_cons,
        List.flatMap_nil, List.append_nil]
      exact (Action.bind_of_ok hrun).trans rfl
    | cons j l =>
      obtain ⟨hin, hrest⟩ := hl.second
      have hwj := hw j (.tail _ List.mem_cons_self)
      obtain ⟨pool₁, hrun₁, hs₁, hpages₁⟩ := hone (v := ⟨i.2.page, p, lower, some j.1, depth⟩)
        ⟨rfl, hhas, hin, hb.before hwj, (hleast _ _).symm ▸ hsized⟩ rfl hdepth
      obtain ⟨pool₂, hrun₂, hs₂, hpages₂⟩ := ih hs₁ (hpages₁ ▸ hrest)
        (fun g hg hin => hap g hg (List.mem_append_right _ hin)) hfl (fun k hk => hw k (.tail _ hk))
        (hb.behind hwj)
        (s := s.add (depth + h) i.2.entries.length (chained (Items.head next (j :: l)) i.2.leaves))
        (fun k hk => (Option.some.inj hk).symm)
      refine ⟨pool₂, ?_, hs₂, hpages₂.trans hpages₁⟩
      have hlinks : chained next (Items.leaves (i :: j :: l)) =
          chained (Items.head next (j :: l)) i.2.leaves ++ chained next
              (Items.leaves (j :: l)) := by
        rw [← Items.head?_leaves hrest.ordered.range_of_mem, ← chained_append]
        rfl
      rw [Items.entries_cons, List.length_append, hlinks, ← Survey.add_add]
      exact (Action.bind_of_ok hrun₁).trans hrun₂

/-- **Surveying a subtree** finds its entries and its leaves. -/
theorem Tree.surveyBelow_eq_ok (htree : tree.Follows d) (hroom : Room gs 1) {fuel : Nat}
    (hfuel : h < fuel) (depth : Nat) : tree.Surveys (n := n) (m := m) gs d h fuel depth := by
  induction h generalizing fuel depth with
  | zero =>
    intro pool next lo hi t v s hv hdepth hs
    match fuel, hfuel with
    | fuel + 1, _ =>
    obtain ⟨page, hpage, hexamine⟩ := hv.meets.examine_leaf htree hv.sized.least
    obtain ⟨pool', hview, hs', hpages⟩ :=
      Tree.view_eq_ok hv.has.sound hpage hexamine hv.has.free hroom
    rw [← hv.page] at hview
    refine ⟨pool', ?_, hs', hpages⟩
    subst hdepth
    rw [Tree.surveyBelow, Action.bind_of_ok hview]
    have hadd := Survey.addLeaf_eq_ok (v := v) hs t.items.length next
    rw [hv.page] at hadd
    exact Action.liftM_ok hadd _
  | succ h ih =>
    intro pool next lo hi t v s hv hdepth hs
    match fuel, hfuel with
    | fuel + 1, hfuel =>
    obtain ⟨page, hpage, hexamine⟩ := hv.meets.examine_internal htree hv.sized.least
    obtain ⟨pool₁, hview, hs₁, hpages₁⟩ :=
      Tree.view_eq_ok hv.has.sound hpage hexamine hv.has.free hroom
    rw [← hv.page] at hview
    have hhas := hv.has.of_pages hs₁ hpages₁
    obtain ⟨_, -, hholds⟩ := hhas.stored.node
    obtain ⟨pool₂, hrun, hs₂, hpages₂⟩ := Tree.surveyChildren_eq_ok
      (ih (Nat.lt_of_succ_lt_succ hfuel) (depth + 1)) hhas.page_ne_none hs₁ (hhas.hangs hv.within)
      (fun g hg hin => hhas.apart g hg (.tail _ hin)) hv.sized.below
      (fun i hi => hholds.width _ (List.mem_map_of_mem hi)) hv.bounds fun k hk => by
        rw [hs k hk]
        omega
    refine ⟨pool₂, ?_, hs₂, hpages₂.trans hpages₁⟩
    rw [Tree.surveyBelow, Action.bind_of_ok hview]
    dsimp only
    have hsum : depth + (h + 1) = depth + 1 + h := by omega
    rw [hv.page, hdepth, hsum]
    exact hrun

/-- **A tree is well formed**, and verifying it counts its entries. -/
theorem Tree.Stands.verify_eq_ok {t : Shape h} (ht : tree.Stands pool gs d t) (hroom : Room gs 1) :
    ∃ pool', tree.verify pool = .ok t.entries.length pool' ∧ pool'.Sound gs ∧
      pool'.pages = pool.pages := by
  obtain ⟨pool', hrun, hs, hpages⟩ := Tree.surveyBelow_eq_ok ht.follows hroom ht.height_lt 1
    (v := ⟨tree.root, .none, none, none, 1⟩) (s := {})
    ⟨ht.root, ht.has, ht.within, ⟨nofun, nofun⟩, ht.sized⟩ rfl nofun
  refine ⟨pool', ?_, hs, hpages⟩
  rw [Tree.verify, if_neg ht.not_isEmpty, Action.bind_of_ok hrun]
  have hchain : checkChain (Survey.add {} (1 + h) t.entries.length
      (chained .none t.leaves)).leaves.toList = .ok () := by
    rw [Survey.add, Array.toList_append]
    exact checkChain_eq_ok t.leaves
  rw [Action.bind_of_ok (Action.liftM_ok hchain _), Survey.add, Nat.zero_add]
  rfl

/-- Without room no survey begins. -/
theorem Tree.verify_eq_error (hs : pool.Sound gs) (hempty : ¬tree.isEmpty = true)
    (hp : pool.pages tree.root ≠ none) (hfree : ∀ g ∈ gs, g.page ≠ tree.root) (hroom : ¬Room gs 1) :
    ∃ pool', tree.verify pool = .error (.refused .poolFull) pool' := by
  have hsurvey : ∃ pool',
      tree.surveyBelow Tree.descentBound ⟨tree.root, .none, none, none, 1⟩ {} pool =
        .error (.refused .poolFull) pool' := by
    obtain ⟨pool', hview, -⟩ := Tree.fetch_bind_eq_error hs hp hfree hroom .read
    rw [Tree.descentBound, Tree.surveyBelow]
    exact ⟨pool', Action.bind_of_error hview⟩
  obtain ⟨pool', hrun⟩ := hsurvey
  refine ⟨pool', ?_⟩
  rw [Tree.verify, if_neg hempty, Action.bind_of_error hrun]

/-- **Every index is well formed.** -/
theorem Index.Keeps.verify_ends {x : Index n m} (hx : x.Keeps gs E) :
    Ends (Crowded gs 1) (fun count pool => count = E.length ∧ pool.Sound gs ∧
      pool.pages = x.pool.pages)
      (x.tree.verify x.pool) := by
  rcases hx.shape with ⟨hroot, rfl⟩ | ⟨d, h, t, ht, rfl⟩
  · rw [Tree.verify, if_pos (Tree.isEmpty_iff.2 hroot)]
    exact ⟨rfl, hx.sound, rfl⟩
  by_cases hroom : Room gs 1
  · obtain ⟨pool, hrun, hs, hpages⟩ := ht.verify_eq_ok hroom
    exact .of_eq_ok hrun ⟨rfl, hs, hpages⟩
  · obtain ⟨pool, hrun⟩ :=
      Tree.verify_eq_error hx.sound ht.not_isEmpty ht.root_allocated ht.root_free hroom
    exact .of_eq_error hrun hroom

end PageStore
