import PageStore.Proofs.Tree.Descent

/-!
# Inserting keeps a tree in order

An insertion below a node leaves the node with one entry more, in its page or in two, and nothing
outside changes: `insertBelow_ends`. The items that the node has to take are put in order first;
where they go is decided by their number alone (`Housed`).
-/

namespace PageStore

open Pool

variable {n m : Nat} {d : TreePlan} {P P' P'' : PageMap} {h : Nat} {p parent next : PageId}
  {lo hi least : Nat} {pool : Pool n m} {gs : List (Guard n)} {tree : Tree} {key : Key}

/-! ## Items in one node or in two -/

/-- What an insertion reports of the node that it left. -/
def Insertion.ofRest : Items (h + 1) → Insertion
  | [] => .inserted
  | i :: _ => .split i.1 i.2.page

/-- The node did not split. -/
def Insertion.Fits (done : Insertion) : Prop := ∀ separator right, done ≠ .split separator right

/-- Half of the items of an overfull node are enough for a node. -/
theorem TreePlan.Fits.halves (hd : d.Fits) {a b : Nat} (hsum : a + b = d.max h + 1)
    (ha : a = d.min h) : 1 ≤ a ∧ a ≤ d.max h ∧ d.min h ≤ b ∧ b ≤ d.max h := by
  have htwo := (hd.capacity_pos h).1
  rw [TreePlan.min, minSize] at *
  omega

theorem housed_two {l r : Items h} {x : Key × Content h} {s : PageId} (hd : d.Fits)
    (hleft : NodeAt d P p parent (Content.node s (x :: r)).first l)
    (hright : NodeAt d P s parent next (x :: r)) (hl : Linked d P p (Items.head next (x :: r)) l)
    (hr : Linked d P s next (x :: r)) (hord : Ordered d.order lo hi (l ++ x :: r))
    (hfilled : Filled d (l ++ x :: r)) (hkeep : l.length = d.min h)
    (hsum : (l ++ x :: r).length = d.max h + 1)
    (hnd : (s :: p :: Items.pages (l ++ x :: r)).Nodup) (hw : x.1.length = d.width) :
    Housed d P parent next lo hi least p (Content.node p (l ++ x :: r)).first
      (l ++ x :: r).entries (Content.node p l) [(x.1, Content.node s (x :: r))] := by
  rw [List.length_append] at hsum
  obtain ⟨hpos, hleft', hleast, hright'⟩ := hd.halves hsum hkeep
  have hne : l ≠ [] := List.ne_nil_of_length_pos hpos
  obtain ⟨hlow, hhigh⟩ := hord.cut hne
  obtain ⟨hfl, hfr⟩ := filled_append.1 hfilled
  refine ⟨rfl, (Content.first_append p _ fun _ => hne).symm, ?_, Nat.le_refl _,
    ?_, ?_, ?_, ?_, ?_, ?_, ?_⟩
  · rw [Items.entries_cons, Items.entries_nil, List.append_nil, Items.entries_append]
    rfl
  · simpa using hw
  · refine stored_iff.2 ⟨hleft, ?_⟩
    cases h with
    | zero => trivial
    | succ h => exact hl
  · exact linked_cons.2 ⟨stored_iff.2 ⟨hright, hr⟩, trivial⟩
  · exact ⟨d.order.rank x.1, hlow, rfl, hi, hhigh, rfl⟩
  · exact ⟨Nat.le_of_eq hkeep.symm, hleft', hfl⟩
  · exact filled_cons.2 ⟨⟨hleast, hright', hfr⟩, nofun⟩
  · have hperm : (p :: Items.pages l ++ (s :: Items.pages (x :: r) ++ [])).Perm
        (s :: p :: Items.pages (l ++ x :: r)) := by
      rw [List.append_nil, Items.pages_append]
      exact List.perm_middle
    rw [Items.pages_cons, Items.pages_nil]
    exact hperm.nodup_iff.2 hnd

/-! ## Putting an item into a node -/

/-- The node in page `p` took its items: all of them, or the first half `l`, while the others are in
the new node `rest`. Nodes below are left as they are. -/
def Takes (d : TreePlan) (P P' : PageMap) (p parent next : PageId) (items l : Items h)
    (rest : Items (h + 1)) : Prop :=
  (rest = [] ∧ l = items ∧ items.length ≤ d.max h ∧ (∀ q, q ≠ p → P' q = P q) ∧
    NodeAt d P' p parent next items) ∨
  ∃ x r s, rest = [(x.1, Content.node s (x :: r))] ∧ items = l ++ x :: r ∧ l.length = d.min h ∧
    items.length = d.max h + 1 ∧ P s = none ∧ (∀ q, q ≠ p → q ≠ s → P' q = P q) ∧
    NodeAt d P' p parent s l ∧ NodeAt d P' s parent next (x :: r)

/-- A new node is on a page that none of the items was on. -/
theorem Hangs.notMem_of_free {items : Items h} {s : PageId} (hh : Hangs d P p next lo hi items)
    (hp : P p ≠ none) (hs : P s = none) : s ∉ p :: Items.pages items := fun hin => by
  rcases List.mem_cons.1 hin with rfl | hin
  · exact hp hs
  · exact hh.linked.allocated s hin hs

/-- A node that split has one page more. -/
theorem trades_two {l r : Items h} {x : Key × Content h} {s : PageId} (hs : P s = none)
    (hsame : ∀ q, q ≠ p → q ≠ s → P' q = P q)
    (hkeep : ∀ q, q ∉ Items.pages (x :: r) → P'' q = P' q) :
    Trades P P'' (p :: Items.pages (l ++ x :: r))
      ((Content.node p l).pages ++ Items.pages [(x.1, Content.node s (x :: r))]) := by
  have hold : ∀ q, q ∈ p :: Items.pages (l ++ x :: r) ↔
      q = p ∨ q ∈ l.pages ∨ q ∈ Items.pages (x :: r) := fun q => by
    rw [Items.pages_append, List.mem_cons, List.mem_append]
  have hnew : ∀ q, q ∈ (Content.node p l).pages ++ Items.pages [(x.1, Content.node s (x :: r))] ↔
      q = p ∨ q ∈ l.pages ∨ q = s ∨ q ∈ Items.pages (x :: r) := fun q => by
    rw [Items.pages_cons, Items.pages_nil, List.append_nil, List.mem_append, Content.pages,
      Content.pages, List.mem_cons, List.mem_cons, or_assoc]
    rfl
  refine ⟨fun q hq hq' => ?_, fun q hq hq' => ?_, fun q hq hq' => ?_⟩
  · have hout := (hnew q).not.1 hq'
    rw [hkeep q fun hin => hout (.inr (.inr (.inr hin)))]
    exact hsame q (fun e => hout (.inl e)) fun e => hout (.inr (.inr (.inl e)))
  · rcases (hnew q).1 hq with e | hin | rfl | hin
    · exact absurd ((hold q).2 (.inl e)) hq'
    · exact absurd ((hold q).2 (.inr (.inl hin))) hq'
    · exact hs
    · exact absurd ((hold q).2 (.inr (.inr hin))) hq'
  · refine absurd ((hnew q).2 ?_) hq'
    exact ((hold q).1 hq).imp_right fun h => h.imp_right .inr

/-- **What is housed.** The items that moved to a new node have their subtrees under it in the
end. -/
theorem Takes.housed (P'' : PageMap) (hd : d.Fits) {items l : Items h} {rest : Items (h + 1)}
    (ht : Takes d P P' p parent next items l rest) (hh : Hangs d P p next lo hi items)
    (hp : P p ≠ none) (hfilled : Filled d items) (hleast : least ≤ items.length)
    (hmoved : ∀ i ∈ rest, Linked d P'' i.2.page next i.2.items)
    (hkept : ∀ q, (∀ i ∈ rest, q ∉ Items.pages i.2.items) → P'' q = P' q) :
    Trades P P'' (p :: items.pages) ((Content.node p l).pages ++ Items.pages rest) ∧
      Housed d P'' parent next lo hi least p (Content.node p items).first items.entries
        (Content.node p l) rest := by
  obtain ⟨hpout, hnd⟩ := List.nodup_cons.1 hh.nodup
  rcases ht with ⟨rfl, rfl, hmost, hsame, hnode⟩ |
    ⟨x, r, s, rfl, rfl, hl, hlen, hs, hsame, hleft, hright⟩
  · have hkeep : ∀ q, P'' q = P' q := fun q => hkept q nofun
    refine ⟨?_, Hangs.housed ⟨?_, hh.ordered, hh.nodup⟩ (hnode.congr (hkeep p))
      hfilled hleast hmost⟩
    · rw [Items.pages_nil, List.append_nil]
      exact Trades.inside fun q hq => (hkeep q).trans (hsame q fun e => hq (e ▸ List.mem_cons_self))
    · exact hh.linked.congr fun q hq => (hkeep q).trans (hsame q fun e => hpout (e ▸ hq))
  have hsout := hh.notMem_of_free hp hs
  have hkeep : ∀ q, q ∉ Items.pages (x :: r) → P'' q = P' q :=
    fun q hq => hkept q (by simpa using hq)
  have hin : ∀ q, q ∈ l.pages ∨ q ∈ Items.pages (x :: r) → q ∈ Items.pages (l ++ x :: r) := by
    intro q hq
    rw [Items.pages_append]
    exact List.mem_append.2 hq
  have hpr : p ∉ Items.pages (x :: r) := fun hq => hpout (hin p (.inr hq))
  have hsr : s ∉ Items.pages (x :: r) := fun hq => hsout (.tail _ (hin s (.inr hq)))
  rw [Items.pages_append] at hnd
  refine ⟨trades_two hs hsame hkeep, housed_two hd ?_ (hright.congr (hkeep s hsr)) ?_
    (hmoved _ List.mem_cons_self) hh.ordered hfilled hl hlen
    (List.nodup_cons.2 ⟨hsout, hh.nodup⟩) ?_⟩
  · cases h with
    | zero => exact hleft.congr (hkeep p hpr)
    | succ h => exact hleft.congr (hkeep p hpr)
  · refine (linked_append.1 hh.linked).1.congr fun q hq => ?_
    rw [hkeep q fun hq' => (List.nodup_append.1 hnd).2.2 q hq q hq' rfl]
    exact hsame q (fun e => hpout (hin p (.inl (e ▸ hq)))) fun e =>
      hsout (.tail _ (hin s (.inl (e ▸ hq))))
  · obtain ⟨page, -, hholds⟩ := hright
    exact hholds.width (Items.record x) List.mem_cons_self

/-- The subtrees that moved to a new node are as they were. -/
theorem Takes.moved {items l : Items h} {rest : Items (h + 1)}
    (ht : Takes d P P' p parent next items l rest) (hh : Hangs d P p next lo hi items)
    (hp : P p ≠ none) (i : Key × Shape h) (more : Items (h + 1)) (hi : rest = i :: more) :
    more = [] ∧ Linked d P' p next i.2.items ∧
      (Items.pages i.2.items).Sublist (Items.pages items) := by
  rcases ht with ⟨rfl, -⟩ | ⟨x, r, s, rfl, rfl, -, -, hs, hsame, -⟩
  · cases hi
  obtain ⟨rfl, rfl⟩ := List.cons.inj hi
  have hsub : (Items.pages (x :: r)).Sublist (Items.pages (l ++ x :: r)) := by
    rw [Items.pages_append]
    exact List.sublist_append_right _ _
  refine ⟨rfl, (linked_append.1 hh.linked).2.congr fun q hq => hsame q ?_ ?_, hsub⟩
  · rintro rfl
    exact (List.nodup_cons.1 hh.nodup).1 (hsub.subset hq)
  · rintro rfl
    exact hh.notMem_of_free hp hs (.tail _ (hsub.subset hq))

theorem TreePlan.Fits.max_lt (hd : d.Fits) (h : Nat) : d.max h < 2 ^ 32 :=
  ((hd.most h).trans_lt (NodeKind.capacity_lt _ _)).trans (by decide)

/-- A node with at most its largest number of items has room for one more. -/
theorem Items.insert_eq_ok (hd : d.Fits) {node : Node (levelKind h)} (pre post : Items h)
    (hn : node.Holds (d.header h p parent next) (Items.records (pre ++ post)))
    (hlen : (pre ++ post).length ≤ d.max h) (x : Key × Content h) (hx : x.1.length = d.width) :
    ∃ node', node.insertRecord pre.length x.1 ((levelKind h).encode x.2.payload) = .ok node' ∧
      node'.Holds (d.header h p parent next) (Items.records (pre ++ x :: post)) := by
  have hkey : node.keySize = d.width := hn.states.keySize
  rw [Items.records_append] at hn
  have hroom : node.offset ((Items.records pre ++ Items.records post).length + 1) ≤ pageSize := by
    refine node.offset_le_pageSize (by rw [hkey]; exact (hd.capacity_pos h).2) ?_
    rw [hkey, ← Items.records_append, Items.length_records]
    exact Nat.succ_le_succ (Nat.le_trans hlen (hd.most h))
  obtain ⟨node', hrun, hn'⟩ := hn.insertRecord_eq_ok (Items.records pre) (Items.records post)
    (Items.record x) hx hroom
  rw [Items.length_records] at hrun
  refine ⟨node', hrun, ?_⟩
  rw [Items.records_append]
  exact hn'

/-- An overfull list of items is cut behind the least number of them. -/
theorem TreePlan.Fits.exists_halves (hd : d.Fits) {items : Items h}
    (hlen : items.length = d.max h + 1) :
    ∃ l x r, items = l ++ x :: r ∧ l.length = d.min h := by
  have htwo := (hd.capacity_pos h).1
  have hmin : d.min h < items.length := by
    rw [TreePlan.min, minSize]
    omega
  obtain ⟨l, back, hl, hcut⟩ := exists_cut items (d.min h) (Nat.le_of_lt hmin)
  rcases back with _ | ⟨x, r⟩
  · rw [hcut, List.append_nil, hl] at hmin
    exact absurd hmin (Nat.lt_irrefl _)
  · exact ⟨l, x, r, hcut, hl⟩

/-- A new node has room for half of the items. -/
theorem TreePlan.Fits.fresh (hd : d.Fits) (s parent : PageId) :
    (Node.fresh (levelKind h) s parent (d.max h) d.width).Holds (d.header h s parent .none) [] ∧
      ∀ count, count ≤ d.max h →
        (Node.fresh (levelKind h) s parent (d.max h) d.width).offset count ≤ pageSize := by
  constructor
  · have := Node.holds_fresh (levelKind h) s parent (hd.max_lt h)
      (Nat.lt_trans hd.width_lt (by decide) : d.width < 2 ^ 32)
    cases h with
    | zero => exact this
    | succ h => exact this
  · intro count hcount
    refine Node.offset_le_pageSize _ (hd.capacity_pos h).2 ?_
    exact Nat.le_succ_of_le (Nat.le_trans hcount (hd.most h))

/-- **Splitting a leaf.** -/
theorem Leaf.split_eq_ok (hd : d.Fits) {node : Leaf} {l r : Items 0} {x : Key × Content 0}
    (hn : node.Holds (d.header 0 p parent next) (Items.records (l ++ x :: r)))
    (hl : l.length = d.min 0) (hsum : (l ++ x :: r).length = d.max 0 + 1) (s : PageId) :
    ∃ node' sib, Leaf.giveUpper node (Node.fresh .leaf s node.parent node.maxSize d.width) =
        .ok (node', sib) ∧ node'.Holds (d.header 0 p parent s) l.records ∧
      sib.Holds (d.header 0 s parent next) (Items.records (x :: r)) ∧ sib.key 0 = .ok x.1 := by
  rw [List.length_append] at hsum
  obtain ⟨hfresh, hroom⟩ := hd.fresh (h := 0) s parent
  have hparent : node.parent = parent := hn.states.parent
  have hmax : node.maxSize = d.max 0 := hn.states.maxSize
  rw [Items.records_append] at hn
  obtain ⟨node', sib, hgive, hnode', hsib⟩ := Leaf.giveUpper_eq_ok hn hfresh
    (Items.length_records.trans hl) rfl
    (hroom _ (by rw [Items.length_records]; exact (hd.halves hsum hl).2.2.2))
  rw [hparent, hmax]
  exact ⟨node', sib, hgive, hnode', hsib, hsib.key_of_getElem? rfl⟩

/-- **Splitting an internal node.** -/
theorem Internal.split_eq_ok (hd : d.Fits) {node : Internal} {l r : Items (h + 1)}
    {x : Key × Shape h} (hn : node.Holds (d.header (h + 1) p parent next)
      (Items.records (l ++ x :: r)))
    (hl : l.length = d.min (h + 1)) (hsum : (l ++ x :: r).length = d.max (h + 1) + 1) (s : PageId) :
    ∃ node' sib, Internal.giveUpper node
        (Node.fresh .internal s node.parent node.maxSize d.width) =
        .ok (node', sib, (x :: r).map fun i => i.2.page) ∧
      node'.Holds (d.header (h + 1) p parent s) (Items.records l) ∧
      sib.Holds (d.header (h + 1) s parent next) (Items.records (x :: r)) ∧
      sib.key 0 = .ok x.1 := by
  rw [List.length_append] at hsum
  obtain ⟨hfresh, hroom⟩ := hd.fresh (h := h + 1) s parent
  have hparent : node.parent = parent := hn.states.parent
  have hmax : node.maxSize = d.max (h + 1) := hn.states.maxSize
  rw [Items.records_append] at hn
  obtain ⟨node', sib, hgive, hnode', hsib⟩ := Internal.giveUpper_eq_ok hn hfresh
    (Items.length_records.trans hl) rfl
    (hroom _ (by rw [Items.length_records]; exact (hd.halves hsum hl).2.2.2))
  have hmoved : (Items.records (x :: r)).map Prod.snd = (x :: r).map fun i => i.2.page :=
    List.map_map
  rw [hparent, hmax, ← hmoved]
  exact ⟨node', sib, hgive, hnode', hsib, hsib.key_of_getElem? (r := Items.record x) rfl⟩

/-- An insertion into a leaf finds the key there, or the leaf took the entry in its place. -/
def LeafInserts (d : TreePlan) (P : PageMap) (p parent next : PageId) (items : Items 0) (key : Key)
    (row : RowId) (done : Insertion) (P' : PageMap) : Prop :=
  (done = .duplicate ∧ P' = P ∧ ∃ row', (key, row') ∈ items) ∨
  ∃ pre post l rest, items = pre ++ post ∧ Below d.order (d.order.rank key) pre ∧
    Above d.order (d.order.rank key) post ∧ done = Insertion.ofRest rest ∧
    Takes d P P' p parent next (pre ++ (key, .ofRow row) :: post) l rest

/-- The pages after a node took its items into its page. -/
theorem takes_one {items : Items h} {node : Node (levelKind h)} (hlen : items.length ≤ d.max h)
    (hP : P' = Function.update P p (some node.page))
    (hnode : node.Holds (d.header h p parent next) items.records) :
    Takes d P P' p parent next items items [] := by
  refine .inl ⟨rfl, rfl, hlen, fun q hq => ?_, NodeAt.of_holds ?_ hnode⟩
  · rw [hP, Function.update_of_ne hq]
  · rw [hP, Function.update_self]

/-- The pages after a node gave the upper half of its items to a new node. -/
theorem takes_two {items l r : Items h} {x : Key × Content h} {s : PageId} {page : Page}
    {node sib : Node (levelKind h)} {blank : Page}
    (hcut : items = l ++ x :: r) (hl : l.length = d.min h)
    (hlen : items.length = d.max h + 1) (hp : P p = some page) (hs : P s = none)
    (hP : P' = Function.update
      (Function.update (Function.update P s (some blank)) p (some node.page))
      s (some sib.page))
    (hnode : node.Holds (d.header h p parent s) l.records)
    (hsib : sib.Holds (d.header h s parent next) (Items.records (x :: r))) :
    Takes d P P' p parent next items l [(x.1, Content.node s (x :: r))] := by
  have hne : p ≠ s := fun hps => by
    rw [← hps, hp] at hs
    cases hs
  refine .inr ⟨x, r, s, rfl, hcut, hl, hlen, hs, fun q hqp hqs => ?_, ?_, ?_⟩
  · rw [hP, Function.update_of_ne hqs, Function.update_of_ne hqp, Function.update_of_ne hqs]
  · refine NodeAt.of_holds ?_ hnode
    rw [hP, Function.update_of_ne hne, Function.update_self]
  · refine NodeAt.of_holds ?_ hsib
    rw [hP, Function.update_self]

/-- A search among the entries of a leaf. -/
theorem Items.search_cases {node : Leaf} {hd : Header} {o : KeyOrder} {items : Items 0}
    (hholds : node.Holds hd items.records) (hsorted : Sorted o items)
    (hkey : key.length = hd.width) :
    (∃ (pre : Items 0) (row : RowId) (post : Items 0), items = pre ++ (key, .ofRow row) :: post ∧
      Below o (o.rank key) pre ∧ Above o (o.rank key) post ∧
      Leaf.search node o key = .ok (.found pre.length)) ∨
    (∃ pre post : Items 0, items = pre ++ post ∧ Below o (o.rank key) pre ∧
      Above o (o.rank key) post ∧ Leaf.search node o key = .ok (.missing pre.length)) := by
  rw [Items.records_zero] at hholds
  exact Leaf.search_cases hholds hsorted hkey

/-- **A leaf that has room**, or the key, does not split. -/
theorem Tree.insertIntoLeaf_eq_ok (htree : tree.Follows d) (hkey : key.length = d.width)
    {g : Guard n} {items : Items 0} (hs : pool.Sound (g :: gs)) (hw : g.mode = .write)
    (hnode : NodeAt d pool.pages g.page parent next items) (hsorted : Sorted d.order items)
    (hlen : items.length ≤ d.max 0)
    (hfit : (∃ row', (key, row') ∈ items) ∨ items.length < d.max 0) (row : RowId) :
    ∃ done pool', tree.insertIntoLeaf g key row pool = .ok done pool' ∧ done.Fits ∧
      pool'.Sound gs ∧
      LeafInserts d pool.pages g.page parent next items key row done pool'.pages := by
  obtain ⟨node, hpage, hholds, -, hblock⟩ := hnode.exists_leaf htree.fits (Nat.le_succ_of_le hlen)
  have hbytes := hs.bytes_of_pages List.mem_cons_self hpage
  rcases Items.search_cases hholds hsorted hkey with
    ⟨pre, row', post, rfl, -, -, hsearch⟩ | ⟨pre, post, rfl, hpre, hpost, hsearch⟩
  · rw [← htree.order] at hsearch
    obtain ⟨pool', hrun, hs', hpages'⟩ : ∃ pool', tree.insertIntoLeaf g key row pool =
        .ok .duplicate pool' ∧ pool'.Sound gs ∧ pool'.pages = pool.pages := by
      refine holding_eq_ok ⟨pool, ?_, hs, rfl⟩
      rw [Action.get_bind, hbytes, Action.bind_of_ok (Action.liftM_ok hblock _),
        Action.bind_of_ok (Action.liftM_ok hsearch _)]
      rfl
    exact ⟨_, pool', hrun, nofun, hs',
      .inl ⟨rfl, hpages', row', List.mem_append_right _ List.mem_cons_self⟩⟩
  have hless : (pre ++ post).length < d.max 0 :=
    hfit.resolve_left fun ⟨row', hin⟩ => not_mem_of_place hpre hpost row' hin
  rw [← htree.order] at hsearch
  obtain ⟨node₁, hinsert, hholds₁⟩ :=
    Items.insert_eq_ok htree.fits _ _ hholds hlen (key, .ofRow row) hkey
  have hinsert' : Leaf.insert node pre.length key row = .ok node₁ := hinsert
  have hsize : node.size = (pre ++ post).length := hholds.states.size.trans Items.length_records
  have hmax : node.maxSize = d.max 0 := hholds.states.maxSize
  obtain ⟨hs₁, hpages₁⟩ := hs.put List.mem_cons_self hw node₁.page
  obtain ⟨pool', hrun, hs', hpages'⟩ : ∃ pool', tree.insertIntoLeaf g key row pool =
      .ok .inserted pool' ∧ pool'.Sound gs ∧
      pool'.pages = Function.update pool.pages g.page (some node₁.page) := by
    refine holding_eq_ok ⟨pool.put g node₁.page, ?_, hs₁, hpages₁⟩
    rw [Action.get_bind, hbytes, Action.bind_of_ok (Action.liftM_ok hblock _),
      Action.bind_of_ok (Action.liftM_ok hsearch _)]
    dsimp only
    rw [hsize, hmax, if_pos hless, Action.bind_of_ok (Action.liftM_ok hinsert' _),
      Action.modify_bind]
    rfl
  refine ⟨_, pool', hrun, nofun, hs',
    .inr ⟨pre, post, _, [], rfl, hpre, hpost, rfl, takes_one ?_ hpages' hholds₁⟩⟩
  simp only [List.length_append, List.length_cons] at hless ⊢
  omega

/-- **A leaf without room** needs a frame for the other half. -/
theorem Tree.insertIntoLeaf_eq_error (htree : tree.Follows d) (hkey : key.length = d.width)
    {g : Guard n} {items : Items 0} (hs : pool.Sound (g :: gs))
    (hnode : NodeAt d pool.pages g.page parent next items) (hsorted : Sorted d.order items)
    (hfull : items.length = d.max 0) (hmissing : ∀ row', (key, row') ∉ items)
    (hdisk : pool.members ≠ Finset.range maxLogicalPages) (hroom : ¬Room (g :: gs) 1)
    (row : RowId) :
    ∃ pool', tree.insertIntoLeaf g key row pool = .error (.refused .poolFull) pool' := by
  obtain ⟨node, hpage, hholds, -, hblock⟩ :=
    hnode.exists_leaf htree.fits (hfull.le.trans (Nat.le_succ _))
  have hbytes := hs.bytes_of_pages List.mem_cons_self hpage
  have hsize : node.size = items.length := hholds.states.size.trans Items.length_records
  have hmax : node.maxSize = d.max 0 := hholds.states.maxSize
  have hnot : ¬node.size < node.maxSize := by
    rw [hsize, hmax, hfull]
    exact Nat.lt_irrefl _
  rcases Items.search_cases hholds hsorted hkey with
    ⟨pre, row', post, rfl, -⟩ | ⟨pre, post, -, -, -, hsearch⟩
  · exact absurd (List.mem_append_right _ List.mem_cons_self) (hmissing row')
  rw [← htree.order] at hsearch
  obtain ⟨pool', hnew, -⟩ := hs.newPage_eq_poolFull hdisk hroom
  refine ⟨pool'.release g, Action.atEnd_error ?_⟩
  rw [Action.get_bind, hbytes, Action.bind_of_ok (Action.liftM_ok hblock _),
    Action.bind_of_ok (Action.liftM_ok hsearch _)]
  dsimp only
  rw [if_neg hnot]
  exact Action.bind_of_error hnew

/-- **Inserting into a leaf.** -/
theorem Tree.insertIntoLeaf_ends (htree : tree.Follows d) (hkey : key.length = d.width)
    {g : Guard n} {items : Items 0} (hs : pool.Sound (g :: gs)) (hw : g.mode = .write)
    (hnode : NodeAt d pool.pages g.page parent next items)
    (hsorted : Sorted d.order items) (hlen : items.length ≤ d.max 0) (row : RowId) :
    Ends (FullDisk gs 2) (fun done pool' => pool'.Sound gs ∧
      LeafInserts d pool.pages g.page parent next items key row done pool'.pages)
      (tree.insertIntoLeaf g key row pool) := by
  by_cases hfit : (∃ row', (key, row') ∈ items) ∨ items.length < d.max 0
  · obtain ⟨done, pool', hrun, -, hdone⟩ :=
      insertIntoLeaf_eq_ok htree hkey hs hw hnode hsorted hlen hfit row
    exact .of_eq_ok hrun hdone
  obtain ⟨hmissing, hfull⟩ := not_or.1 hfit
  obtain ⟨node, hpage, hholds, -, hblock⟩ := hnode.exists_leaf htree.fits (Nat.le_succ_of_le hlen)
  have hbytes := hs.bytes_of_pages List.mem_cons_self hpage
  rcases Items.search_cases hholds hsorted hkey with
    ⟨pre, row', post, rfl, -⟩ | ⟨pre, post, rfl, hpre, hpost, hsearch⟩
  · exact absurd ⟨row', List.mem_append_right _ List.mem_cons_self⟩ hmissing
  rw [← htree.order] at hsearch
  obtain ⟨node₁, hinsert, hholds₁⟩ :=
    Items.insert_eq_ok htree.fits _ _ hholds hlen (key, .ofRow row) hkey
  have hinsert' : Leaf.insert node pre.length key row = .ok node₁ := hinsert
  have hsize : node.size = (pre ++ post).length := hholds.states.size.trans Items.length_records
  have hmax : node.maxSize = d.max 0 := hholds.states.maxSize
  refine holding_ends (R := LeafInserts d pool.pages g.page parent next (pre ++ post) key row) ?_
  rw [Action.get_bind, hbytes, Action.bind_of_ok (Action.liftM_ok hblock _),
    Action.bind_of_ok (Action.liftM_ok hsearch _)]
  dsimp only
  rw [hsize, hmax, if_neg hfull]
  -- a full leaf gives half of its entries to a new one
  have hlen₁ : (pre ++ (key, Content.ofRow row) :: post).length = d.max 0 + 1 := by
    simp only [List.length_append, List.length_cons] at hfull hlen ⊢
    omega
  obtain ⟨l, x, r, hcut, hl⟩ := htree.fits.exists_halves hlen₁
  rw [hcut] at hholds₁ hlen₁
  refine Ends.bind (newPage_ends hs) fun s pool₁ hnew => ?_
  obtain ⟨hsw, hnone, hs₁, hpages₁⟩ := hnew
  obtain ⟨node₂, sib, hgive, hholds₂, hsib, hkey₀⟩ :=
    Leaf.split_eq_ok htree.fits hholds₁ hl hlen₁ s.page
  refine holding_ends (R := LeafInserts d pool.pages g.page parent next (pre ++ post) key row) ?_
  rw [Action.bind_of_ok (Action.liftM_ok hinsert' _), htree.width,
    Action.bind_of_ok (Action.liftM_ok hgive _)]
  obtain ⟨hs₂, hpages₂⟩ := hs₁.put (.tail _ List.mem_cons_self) hw node₂.page
  obtain ⟨hs₃, hpages₃⟩ := hs₂.put List.mem_cons_self hsw sib.page
  rw [Action.modify_bind, Action.modify_bind, Action.bind_of_ok (Action.liftM_ok hkey₀ _)]
  rw [hpages₂, hpages₁] at hpages₃
  refine ⟨hs₃, .inr ⟨pre, post, l, [(x.1, .node s.page (x :: r))], rfl, hpre, hpost, rfl, ?_⟩⟩
  exact takes_two hcut hl (hcut ▸ hlen₁) hpage hnone hpages₃ hholds₂ hsib

/-- The children that changed parents when a node split. -/
def movedTo (rest : Items (h + 2)) : List PageId :=
  rest.flatMap fun i => i.2.items.map fun j => j.2.page

/-- **Inserting a child** into an internal node. The children that move do not know yet. -/
theorem Tree.insertChild_ends (htree : tree.Follows d) {g : Guard n} {pre post : Items (h + 1)}
    {i j : Key × Shape h} (hs : pool.Sound (g :: gs)) (hw : g.mode = .write)
    (hnode : NodeAt d pool.pages g.page parent next (pre ++ i :: post))
    (hkey : j.1.length = d.width)
    (hpre : ∀ e ∈ (pre ++ [i]).tail, d.order.rank e.1 ≤ d.order.rank j.1)
    (hpost : Above d.order (d.order.rank j.1) post)
    (hlen : (pre ++ i :: post).length ≤ d.max (h + 1)) :
    Ends (FullDisk gs 2) (fun out pool' => pool'.Sound gs ∧ ∃ l rest,
      out = (Insertion.ofRest rest, movedTo rest) ∧
      Takes d pool.pages pool'.pages g.page parent next (pre ++ i :: j :: post) l rest)
      (tree.insertChild g j.1 j.2.page pool) := by
  obtain ⟨node, hpage, hholds, -, hblock⟩ :=
    hnode.exists_internal htree.fits (Nat.le_succ_of_le hlen)
  have hbytes := hs.bytes_of_pages List.mem_cons_self hpage
  have hlookup : Internal.lookup node tree.order j.1 = .ok pre.length := by
    rw [htree.order]
    exact Items.lookup_eq_ok hholds hkey hpre hpost
  have hcut : pre ++ i :: post = (pre ++ [i]) ++ post := by rw [List.append_assoc]; rfl
  have hcut₁ : pre ++ i :: j :: post = (pre ++ [i]) ++ j :: post := by rw [List.append_assoc]; rfl
  have hsize : node.size = (pre ++ i :: post).length :=
    hholds.states.size.trans Items.length_records
  have hmax : node.maxSize = d.max (h + 1) := hholds.states.maxSize
  have hlen₂ : (pre ++ i :: j :: post).length = (pre ++ i :: post).length + 1 := by
    simp only [List.length_append, List.length_cons]
    omega
  rw [hcut] at hholds
  obtain ⟨node₁, hinsert, hholds₁⟩ :=
    Items.insert_eq_ok htree.fits _ _ hholds (hcut ▸ hlen) j hkey
  rw [← hcut₁] at hholds₁
  have hinsert' : Internal.insert node (pre.length + 1) j.1 j.2.page = .ok node₁ := by
    rw [List.length_append] at hinsert
    exact hinsert
  refine holding_ends (R := fun out P' => ∃ l rest, out = (Insertion.ofRest rest, movedTo rest) ∧
    Takes d pool.pages P' g.page parent next (pre ++ i :: j :: post) l rest) ?_
  rw [Action.get_bind, hbytes, Action.bind_of_ok (Action.liftM_ok hblock _),
    Action.bind_of_ok (Action.liftM_ok hlookup _), hsize, hmax]
  by_cases hfit : (pre ++ i :: post).length < d.max (h + 1)
  · rw [if_pos hfit, Action.bind_of_ok (Action.liftM_ok hinsert' _), Action.modify_bind]
    obtain ⟨hs', hpages'⟩ := hs.put List.mem_cons_self hw node₁.page
    exact ⟨hs', _, [], rfl, takes_one (hlen₂ ▸ hfit) hpages' hholds₁⟩
  -- a full node gives half of its children to a new one
  have hlen₁ : (pre ++ i :: j :: post).length = d.max (h + 1) + 1 := by omega
  obtain ⟨l, x, r, hhalves, hl⟩ := htree.fits.exists_halves hlen₁
  rw [hhalves] at hholds₁
  rw [if_neg hfit]
  refine Ends.bind (newPage_ends hs) fun s pool₁ hnew => ?_
  obtain ⟨hsw, hnone, hs₁, hpages₁⟩ := hnew
  obtain ⟨node₂, sib, hgive, hholds₂, hsib, hkey₀⟩ :=
    Internal.split_eq_ok htree.fits hholds₁ hl (hhalves ▸ hlen₁) s.page
  refine holding_ends (R := fun out P' => ∃ l rest, out = (Insertion.ofRest rest, movedTo rest) ∧
    Takes d pool.pages P' g.page parent next (pre ++ i :: j :: post) l rest) ?_
  rw [Action.bind_of_ok (Action.liftM_ok hinsert' _), htree.width,
    Action.bind_of_ok (Action.liftM_ok hgive _)]
  obtain ⟨hs₂, hpages₂⟩ := hs₁.put (.tail _ List.mem_cons_self) hw node₂.page
  obtain ⟨hs₃, hpages₃⟩ := hs₂.put List.mem_cons_self hsw sib.page
  rw [hpages₂, hpages₁] at hpages₃
  dsimp only
  rw [Action.modify_bind, Action.modify_bind, Action.bind_of_ok (Action.liftM_ok hkey₀ _)]
  refine ⟨hs₃, l, [(x.1, .node s.page (x :: r))], ?_,
    takes_two hhalves hl hlen₁ hpage hnone hpages₃ hholds₂ hsib⟩
  simp [movedTo, Insertion.ofRest]

/-- **Inserting a child and telling the moved children.** -/
theorem Tree.insertIntoInternal_ends (htree : tree.Follows d) {pre post : Items (h + 1)}
    {i j : Key × Shape h} (hs : pool.Sound gs) (hroom : Room gs 1)
    (hap : ∀ g ∈ gs, g.page ∉ p :: Items.pages (pre ++ i :: j :: post))
    (hnode : NodeAt d pool.pages p parent next (pre ++ i :: post)) (hkey : j.1.length = d.width)
    (hpre : ∀ e ∈ (pre ++ [i]).tail, d.order.rank e.1 ≤ d.order.rank j.1)
    (hpost : Above d.order (d.order.rank j.1) post)
    (hleast : least ≤ (pre ++ i :: post).length) (hmost : (pre ++ i :: post).length ≤ d.max (h + 1))
    (hh : Hangs d pool.pages p next lo hi (pre ++ i :: j :: post))
    (hfilled : Filled d (pre ++ i :: j :: post)) :
    Ends (FullDisk gs 2) (fun done pool' => pool'.Sound gs ∧
      ∃ (l : Shape (h + 1)) (rest : Items (h + 2)), done = Insertion.ofRest rest ∧
      Trades pool.pages pool'.pages (p :: Items.pages (pre ++ i :: j :: post))
        (l.pages ++ Items.pages rest) ∧
      Housed d pool'.pages parent next lo hi least p (Content.node p (pre ++ i :: j :: post)).first
        (Items.entries (pre ++ i :: j :: post)) l rest)
      (tree.insertIntoInternal p j.1 j.2.page pool) := by
  have ⟨page, hpage, _⟩ := hnode
  have hnd := (List.nodup_cons.1 hh.nodup).2
  have hlen : least ≤ (pre ++ i :: j :: post).length := by
    simp only [List.length_append, List.length_cons] at hleast ⊢
    omega
  obtain ⟨g, pool₁, hfetch, rfl, hmode, hs₁, hpages₁, -⟩ := Tree.fetch_eq_ok hs hpage
    (fun g hg hgp => hap g hg (hgp ▸ List.mem_cons_self)) hroom .write
  rw [Tree.insertIntoInternal, Action.bind_of_ok hfetch]
  refine Ends.bind (insertChild_ends htree hs₁ hmode (by rwa [hpages₁]) hkey hpre hpost hmost)
    fun out pool₂ hout => ?_
  obtain ⟨hs₂, l, rest, rfl, htakes⟩ := hout
  rw [hpages₁] at htakes
  have hsome : pool.pages g.page ≠ none := by rw [hpage]; exact Option.some_ne_none page
  have hmoved := htakes.moved hh hsome
  have hfinal := fun P'' => htakes.housed P'' htree.fits hh hsome hfilled hlen
  -- without a split no child moves; with one, the children of the new node take it as parent
  match rest with
  | [] =>
    obtain ⟨htrades, hhoused⟩ := hfinal pool₂.pages nofun fun _ _ => rfl
    exact ⟨hs₂, _, [], rfl, htrades, hhoused⟩
  | k :: rest =>
    obtain ⟨rfl, hlinked, hsub⟩ := hmoved k rest rfl
    obtain ⟨pool₃, hrun, hs₃, hlinked₃, hkept⟩ := Linked.setParents_eq_ok k.2.page hs₂ hlinked
      (hnd.sublist hsub) (fun g hg hin => hap g hg (.tail _ (hsub.subset hin)))
      hroom
    obtain ⟨htrades, hhoused⟩ := hfinal pool₃.pages (by simpa using hlinked₃)
      fun q hq => hkept q fun c hc e => hq k List.mem_cons_self (e ▸ Items.page_mem_pages hc)
    have hmovedTo : movedTo [k] = k.2.items.map fun c => c.2.page := List.append_nil _
    change Ends (FullDisk gs 2) _ (((movedTo [k]).forM (fun c => Tree.setParent c k.2.page) >>=
      fun _ => pure (Insertion.ofRest [k])) pool₂)
    rw [hmovedTo, Action.bind_of_ok hrun]
    exact ⟨hs₃, _, [k], rfl, htrades, hhoused⟩

/-- **Taking what a child became** behind it, if it split. -/
theorem Tree.absorb_ends (htree : tree.Follows d) (hroom : Room gs 1)
    {pre post rest : Items (h + 1)} {i : Key × Shape h} (hs : pool.Sound gs)
    (hap : ∀ g ∈ gs, g.page ∉ p :: Items.pages (pre ++ i :: (rest ++ post)))
    (hnode : NodeAt d pool.pages p parent next (pre ++ i :: post)) (hone : rest.length ≤ 1)
    (hwidth : ∀ j ∈ rest, j.1.length = d.width) (hleast : least ≤ (pre ++ i :: post).length)
    (hmost : (pre ++ i :: post).length ≤ d.max (h + 1))
    (hh : Hangs d pool.pages p next lo hi (pre ++ i :: (rest ++ post)))
    (hfilled : Filled d (pre ++ i :: (rest ++ post))) :
    Ends (FullDisk gs 2) (fun done pool' => pool'.Sound gs ∧
      ∃ (l : Shape (h + 1)) (rest' : Items (h + 2)),
      done = Insertion.ofRest rest' ∧
      Trades pool.pages pool'.pages (p :: Items.pages (pre ++ i :: (rest ++ post)))
        (l.pages ++ Items.pages rest') ∧
      Housed d pool'.pages parent next lo hi least p
        (Content.node p (pre ++ i :: (rest ++ post))).first
        (Items.entries (pre ++ i :: (rest ++ post))) l rest')
      ((match Insertion.ofRest rest with
        | .split separator right => tree.insertIntoInternal p separator right
        | done => pure done) pool) := by
  match rest, hone with
  | [], _ =>
    refine ⟨hs, Content.node p (pre ++ i :: post), [], rfl, ?_, ?_⟩
    · rw [Items.pages_nil, List.append_nil]
      exact Trades.refl ..
    · exact hh.housed hnode hfilled hleast hmost
  | [j], _ =>
    have hsorted := (hh.ordered.keys_tail within_lt).1
    have hsplit : (pre ++ i :: ([j] ++ post)).tail = (pre ++ [i]).tail ++ j :: post := by
      rw [← List.tail_append_of_ne_nil (by simp), List.append_assoc]
      rfl
    rw [hsplit] at hsorted
    obtain ⟨-, hright, hbetween⟩ := List.pairwise_append.1 hsorted
    exact insertIntoInternal_ends htree hs hroom hap hnode (hwidth j List.mem_cons_self)
      (fun e he => Nat.le_of_lt (hbetween e he j List.mem_cons_self))
      (List.pairwise_cons.1 hright).1 hleast hmost hh hfilled

/-! ## Going down and coming back -/

/-- An insertion below a node finds the key there, or the node has the entry in its place. -/
def Inserts (d : TreePlan) (P P' : PageMap) (parent next : PageId) (lo hi least : Nat) (t : Shape h)
    (key : Key) (row : RowId) (done : Insertion) : Prop :=
  (done = .duplicate ∧ P' = P ∧ ∃ row', (key, row') ∈ t.entries) ∨
  ∃ (pre post : List (Key × RowId)) (l : Shape h) (rest : Items (h + 1)), t.entries = pre ++ post ∧
    Below d.order (d.order.rank key) pre ∧ Above d.order (d.order.rank key) post ∧
    done = Insertion.ofRest rest ∧ Trades P P' t.pages (l.pages ++ Items.pages rest) ∧
    Housed d P' parent next lo hi least t.page t.first (pre ++ (key, row) :: post) l rest

/-- An entry in its place keeps the order. -/
theorem Ranged.place {o : KeyOrder} {pre post : List (Key × RowId)}
    (hr : Ranged o lo hi (pre ++ post))
    (hpre : Below o (o.rank key) pre) (hpost : Above o (o.rank key) post) (hlo : lo ≤ o.rank key)
    (hhi : o.rank key < hi) (row : RowId) : Ranged o lo hi (pre ++ (key, row) :: post) := by
  obtain ⟨hsorted, hrange⟩ := hr
  obtain ⟨hleft, hright, hbetween⟩ := List.pairwise_append.1 hsorted
  obtain ⟨hlow, hhigh⟩ := List.forall_mem_append.1 hrange
  refine ⟨List.pairwise_append.2 ⟨hleft, List.pairwise_cons.2 ⟨hpost, hright⟩,
    fun e he => List.forall_mem_cons.2 ⟨hpre e he, hbetween e he⟩⟩,
    List.forall_mem_append.2 ⟨hlow, List.forall_mem_cons.2 ⟨⟨hlo, hhi⟩, hhigh⟩⟩⟩

/-- A leaf that took an entry is a whole tree that took it. -/
theorem LeafInserts.inserts (hd : d.Fits) {t : Shape 0} {row : RowId} {done : Insertion}
    (hdone : LeafInserts d P t.page parent next t.items key row done P') (hp : P t.page ≠ none)
    (hin : Within d.order lo hi t) (hsize : t.Sized d least) (hlo : lo ≤ d.order.rank key)
    (hhi : d.order.rank key < hi) : Inserts d P P' parent next lo hi least t key row done := by
  obtain hdup | ⟨pre, post, l, rest, hcut, hpre, hpost, rfl, htakes⟩ := hdone
  · exact .inl hdup
  have hcount : least ≤ (pre ++ (key, Content.ofRow row) :: post).length := by
    have := hsize.least
    rw [hcut, List.length_append] at this
    rw [List.length_append, List.length_cons]
    omega
  have hhangs : Hangs d P t.page next lo hi (pre ++ (key, Content.ofRow row) :: post) :=
    ⟨trivial, ⟨hin.1, (hcut ▸ hin.2 : Ranged ..).place hpre hpost hlo hhi row⟩,
      List.nodup_singleton _⟩
  obtain ⟨htrades, hhoused⟩ :=
    htakes.housed P' hd hhangs hp trivial hcount (fun _ _ => trivial) fun _ _ => rfl
  exact .inr ⟨pre, post, _, rest, hcut, hpre, hpost, rfl, htrades, hhoused⟩

/-- **At a leaf** the insertion ends, whatever fuel is left. -/
theorem Tree.insertBelow_leaf_eq_ok (htree : tree.Follows d) (hroom : Room gs 1)
    (hkey : key.length = d.width) {t : Shape 0} (hh : pool.Has gs d parent next t)
    (hin : Within d.order lo hi t) (hmost : t.items.length ≤ d.max 0)
    (hfit : (∃ row', (key, row') ∈ t.items) ∨ t.items.length < d.max 0) (row : RowId)
    (fuel : Nat) :
    ∃ done pool', tree.insertBelow key row (fuel + 1) t.page pool = .ok done pool' ∧ done.Fits ∧
      pool'.Sound gs ∧
      LeafInserts d pool.pages t.page parent next t.items key row done pool'.pages := by
  obtain ⟨g, pool₁, hfetch, hgp, hmode, hs, hpages, hpeek⟩ :=
    Tree.stop_eq_ok tree htree.fits hroom hh hmost .write (some key)
  have hnode : NodeAt d pool₁.pages g.page parent next t.items := by
    rw [hpages, hgp]
    exact hh.stored.node
  obtain ⟨done, pool', hrun, hfits, hs', hdone⟩ :=
    insertIntoLeaf_eq_ok htree hkey hs hmode hnode hin.2.1 hmost hfit row
  rw [hgp, hpages] at hdone
  refine ⟨done, pool', ?_, hfits, hs', hdone⟩
  rw [Tree.insertBelow, Action.bind_of_ok hfetch, Action.bind_of_ok hpeek]
  exact hrun

/-- A full leaf does not split where the guards leave one frame. -/
theorem Tree.insertBelow_leaf_eq_error (htree : tree.Follows d) (hone : Room gs 1)
    (hroom : ¬Room gs 2) (hdisk : pool.members ≠ Finset.range maxLogicalPages)
    (hkey : key.length = d.width) {t : Shape 0} (hh : pool.Has gs d parent next t)
    (hin : Within d.order lo hi t) (hfull : t.items.length = d.max 0)
    (hmissing : ∀ row', (key, row') ∉ t.items) (row : RowId) (fuel : Nat) :
    ∃ pool', tree.insertBelow key row (fuel + 1) t.page pool =
      .error (.refused .poolFull) pool' := by
  obtain ⟨g, pool₁, hfetch, hgp, hmode, hs, hpages, hpeek⟩ :=
    Tree.stop_eq_ok tree htree.fits hone hh hfull.le .write (some key)
  have hnode : NodeAt d pool₁.pages g.page parent next t.items := by
    rw [hpages, hgp]
    exact hh.stored.node
  have hmembers := members_eq_of_pages hh.sound.space hs.space hpages
  obtain ⟨pool', hrun⟩ := insertIntoLeaf_eq_error htree hkey hs hnode hin.2.1 hfull hmissing
    (hmembers ▸ hdisk) (fun hthree => hroom (hs.room_of_write hmode hthree)) row
  refine ⟨pool', ?_⟩
  rw [Tree.insertBelow, Action.bind_of_ok hfetch, Action.bind_of_ok hpeek]
  exact hrun

/-- **Inserting below a node.** -/
theorem Tree.insertBelow_ends (htree : tree.Follows d)
    (hkey : key.length = d.width) {t : Shape h} {fuel : Nat} (hfuel : h < fuel)
    (hh : pool.Has gs d parent next t) (hin : Within d.order lo hi t) (hsize : t.Sized d least)
    (hlo : lo ≤ d.order.rank key) (hhi : d.order.rank key < hi) (row : RowId) :
    Ends (FullDisk gs 2) (fun done pool' => pool'.Sound gs ∧
      Inserts d pool.pages pool'.pages parent next lo hi least t key row done)
      (tree.insertBelow key row fuel t.page pool) := by
  by_cases hroom : Room gs 1
  swap
  · -- without a frame the first fetch stops, at any depth
    match fuel, hfuel with
    | fuel + 1, _ =>
    obtain ⟨pool', hrun, -⟩ := Tree.fetch_bind_eq_error hh.sound hh.allocated hh.free hroom .write
    rw [Tree.insertBelow]
    exact .of_eq_error hrun fun hk => absurd (hk.mono (Nat.le_succ 1)) hroom
  induction h generalizing pool parent next lo hi fuel least with
  | zero =>
    match fuel, hfuel with
    | fuel + 1, _ =>
    obtain ⟨g, pool₁, hfetch, hgp, hmode, hs, hpages, hpeek⟩ :=
      Tree.stop_eq_ok tree htree.fits hroom hh hsize.most .write (some key)
    have hnode : NodeAt d pool₁.pages g.page parent next t.items := by
      rw [hpages, hgp]
      exact hh.stored.node
    rw [Tree.insertBelow, Action.bind_of_ok hfetch, Action.bind_of_ok hpeek]
    refine (insertIntoLeaf_ends htree hkey hs hmode hnode hin.2.1 hsize.most row).mono ?_
    rw [hgp, hpages]
    rintro done pool' ⟨hs', hdone⟩
    exact ⟨hs', hdone.inserts htree.fits hh.allocated hin hsize hlo hhi⟩
  | succ h ih =>
    match fuel, hfuel with
    | fuel + 1, hfuel =>
    obtain ⟨pre, i, post, a, b, g, pool₁, hleads, hfetch, hpeek, hchild, hpages⟩ :=
      Tree.step_eq_ok htree hroom hkey hh hin hsize.most hlo hhi .write
    obtain ⟨hfpre, hsizei, hfpost⟩ := hleads.sized hsize.below
    rw [Tree.insertBelow, Action.bind_of_ok hfetch, Action.bind_of_ok hpeek]
    dsimp only
    rw [Action.modify_bind]
    refine Ends.bind (ih (Nat.lt_of_succ_lt_succ hfuel) hchild hleads.within hsizei hleads.lower
      hleads.upper) ?_
    rw [hpages]
    rintro done pool₂ ⟨hs₂, ⟨rfl, hP, row', hmem⟩ |
      ⟨pre', post', l, rest, hentries, hpre', hpost', rfl, htrades, hhoused⟩⟩
    · refine ⟨hs₂, .inl ⟨rfl, hP, row', ?_⟩⟩
      rw [hleads.entries_eq]
      exact List.mem_append_left _ (List.mem_append_right _ hmem)
    have htakes := hh.absorbs hin hleads htrades hhoused
    obtain ⟨hbelow, habove⟩ := hleads.beside hpre' hpost'
    have hfilled : Filled d (pre ++ (i.1, l) :: (rest ++ post)) := filled_append.2 ⟨hfpre,
      filled_cons.2 ⟨by simpa using hhoused.size, filled_append.2 ⟨hhoused.filled, hfpost⟩⟩⟩
    refine (absorb_ends htree hroom hs₂ (fun g hg => hh.apart_of_trades htakes.trades g hg)
      htakes.node hhoused.one hhoused.width (htakes.count ▸ hsize.least) (htakes.count ▸ hsize.most)
      htakes.hangs hfilled).mono ?_
    rintro done pool₃ ⟨hs₃, l', rest', rfl, htrades₃, hhoused₃⟩
    refine ⟨hs₃, .inr ⟨Items.entries pre ++ pre', post' ++ Items.entries post, l', rest', ?_,
      hbelow, habove, rfl, htakes.trades.trans htrades₃, ?_⟩⟩
    · rw [hleads.entries_eq, hentries]
      simp only [List.append_assoc]
    · rw [htakes.first, htakes.entries] at hhoused₃
      simpa only [List.append_assoc, List.cons_append] using hhoused₃

end PageStore
