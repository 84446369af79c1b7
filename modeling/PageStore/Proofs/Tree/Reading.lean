import PageStore.Proofs.Tree.Survey

/-!
# Reading a tree

What a lookup and a walk find depends on less than what changes a tree: on the items of the nodes
and on the links between the leaves, but not on parents, on largest sizes, or on how full the nodes
are. `Legible` and `Strand` say what is needed. Other guards may be out on the pages as long as they
are for reading.

`Tree.Readable` puts them together for a whole tree, and `Tree.Readable.get?_eq_ok` is what a lookup
answers then. A tree that a pool holds is readable: `Tree.Stands.readable`.
-/

namespace PageStore

open Pool

variable {n m : Nat} {P P' : PageMap} {h width lo hi : Nat} {p next : PageId} {pool : Pool n m}
  {gs : List (Guard n)} {g : Guard n} {tree : Tree} {key : Key}

/-! ## What can be read -/

/-- The page is a node with these items, whatever else its header states. -/
def Reads (width : Nat) (P : PageMap) (p : PageId) (l : Items h) : Prop :=
  ∃ (node : Node (levelKind h)) (hd : Header), P p = some node.page ∧ hd.width = width ∧
    Node.ofBlock (levelKind h) node.page = .ok node ∧ node.Holds hd l.records

/-- The pages are the nodes of a subtree. -/
def Legible (width : Nat) (P : PageMap) : {h : Nat} → Shape h → Prop
  | 0, t => Reads width P t.page t.items
  | _ + 1, t => Reads width P t.page t.items ∧ ∀ i ∈ t.items, Legible width P i.2

/-- The page is a leaf that links to `next`. -/
def Links (width : Nat) (P : PageMap) (next : PageId) (t : Shape 0) : Prop :=
  ∃ (node : Leaf) (hd : Header), P t.page = some node.page ∧ hd.width = width ∧ hd.next = next ∧
    Node.ofBlock .leaf node.page = .ok node ∧ node.Holds hd t.items

/-- Each leaf links to the one behind it, and the last one to `next`. -/
def Strand (width : Nat) (P : PageMap) (next : PageId) : List (Shape 0) → Prop
  | [] => True
  | t :: l => Links width P ((l.map Content.page).head?.getD next) t ∧ Strand width P next l

/-- The leaves of a node and below, from left to right. -/
def Content.leafNodes : {h : Nat} → Shape h → List (Shape 0)
  | 0, t => [t]
  | _ + 1, t => t.items.flatMap fun i => leafNodes i.2

/-- The leaves below items, from left to right. -/
def Items.leafNodes (l : Items (h + 1)) : List (Shape 0) := l.flatMap fun i => i.2.leafNodes

/-- Every guard on one of the pages is for reading. -/
def Unwritten (gs : List (Guard n)) (l : List PageId) : Prop :=
  ∀ g ∈ gs, g.page ∈ l → g.mode = .read

theorem Unwritten.mono {l l' : List PageId} (hu : Unwritten gs l) (hl : ∀ q ∈ l', q ∈ l) :
    Unwritten gs l' := fun g hg hin => hu g hg (hl _ hin)

theorem Unwritten.of_apart {l : List PageId} (ha : ∀ g ∈ gs, g.page ∉ l) : Unwritten gs l :=
  fun g hg hin => absurd hin (ha g hg)

theorem Legible.reads {t : Shape h} (ht : Legible width P t) : Reads width P t.page t.items := by
  cases h with
  | zero => exact ht
  | succ h => exact ht.1

theorem Legible.congr {t : Shape h} (ht : Legible width P t) (hP : ∀ q ∈ t.pages, P' q = P q) :
    Legible width P' t := by
  have hreads : Reads width P' t.page t.items := by
    obtain ⟨node, hd, hpage, hrest⟩ := ht.reads
    exact ⟨node, hd, (hP _ List.mem_cons_self).trans hpage, hrest⟩
  induction h with
  | zero => exact hreads
  | succ h ih =>
    refine ⟨hreads, fun i hi => ih (ht.2 i hi) (fun q hq => hP q ?_) ?_⟩
    · exact .tail _ (List.mem_flatMap.2 ⟨i, hi, hq⟩)
    · obtain ⟨node, hd, hpage, hrest⟩ := (ht.2 i hi).reads
      refine ⟨node, hd, (hP _ ?_).trans hpage, hrest⟩
      exact .tail _ (List.mem_flatMap.2 ⟨i, hi, List.mem_cons_self⟩)

theorem strand_append {l l' : List (Shape 0)} : Strand width P next (l ++ l') ↔
    Strand width P ((l'.map Content.page).head?.getD next) l ∧ Strand width P next l' := by
  induction l with
  | nil => exact (and_iff_right trivial).symm
  | cons t l ih =>
    rw [List.cons_append, Strand, Strand, ih, and_assoc]
    cases l <;> rfl

theorem Content.entries_eq_flatMap (t : Shape h) :
    t.entries = t.leafNodes.flatMap Content.entries := by
  induction h with
  | zero => exact (List.append_nil _).symm
  | succ h ih =>
    rw [Content.entries, Content.leafNodes, List.flatMap_assoc, Items.entries]
    exact List.flatMap_congr fun i _ => ih i.2

theorem Items.entries_eq_flatMap (l : Items (h + 1)) :
    l.entries = l.leafNodes.flatMap Content.entries :=
  Content.entries_eq_flatMap (Content.node .none l)

/-- Cutting the leaves cuts the entries. -/
theorem Content.entries_of_leafNodes {t : Shape h} {before behind : List (Shape 0)} {leaf : Shape 0}
    (hcut : t.leafNodes = before ++ leaf :: behind) :
    t.entries = before.flatMap entries ++ leaf.entries ++ behind.flatMap entries := by
  rw [entries_eq_flatMap, hcut, List.flatMap_append, List.flatMap_cons, List.append_assoc]

/-- The leaves are pages of the tree. -/
theorem Content.page_mem_of_leafNodes {t : Shape h} {s : Shape 0} (hs : s ∈ t.leafNodes) :
    s.page ∈ t.pages := by
  induction h with
  | zero =>
    obtain rfl : s = t := List.mem_singleton.1 hs
    exact List.mem_cons_self
  | succ h ih =>
    obtain ⟨i, hi, hin⟩ := List.mem_flatMap.1 hs
    exact .tail _ (List.mem_flatMap.2 ⟨i, hi, ih hin⟩)

/-! ## Fetching a page to read it -/

/-- An allocated page that nobody writes is fetched for reading, when there is a frame for it. -/
theorem Tree.fetch_read_eq_ok {page : Page} (hs : pool.Sound gs) (hp : pool.pages p = some page)
    (hu : Unwritten gs [p]) (hroom : Room gs 1) :
    ∃ g pool', Tree.fetch .read p pool = .ok g pool' ∧ g.page = p ∧ g.mode = .read ∧
      pool'.Sound (g :: gs) ∧ pool'.pages = pool.pages ∧ pool'.bytes g = page := by
  have hbytes : ∀ {g : Guard n} {pool' : Pool n m}, g.page = p → pool'.Sound (g :: gs) →
      pool'.pages = pool.pages → pool'.bytes g = page := fun hgp hs' hpages =>
    hs'.bytes_of_pages List.mem_cons_self (by rw [hgp, hpages, hp])
  rcases ht : pool.table[p]? with _ | f
  · have hfree : ∀ g ∈ gs, g.page ≠ p := by
      rintro g hg rfl
      rw [hs.table_guard hg] at ht
      cases ht
    exact Tree.fetch_eq_ok hs hp hfree hroom .read
  · have hadmits : pool.frames[f].latch.admits .read = true := by
      -- the guards on the frame are those on the page, and a writer would be among them
      refine Latch.admits_read_iff.2 fun changed hlatch => ?_
      have hfits := (hs.frame f).latch
      rw [hlatch] at hfits
      have hmodes : modesOn gs f = [.write] := hfits
      have hmem : Mode.write ∈ modesOn gs f := hmodes ▸ List.mem_cons_self
      obtain ⟨g, hfound, hw⟩ := List.mem_map.1 hmem
      obtain ⟨hg, hframe⟩ := List.mem_filter.1 hfound
      obtain rfl : g.frame = f := of_decide_eq_true hframe
      have hgp : g.page = p := (hs.guard g hg).2.symm.trans ((hs.table_iff p _).1 ht).2
      rw [hu g hg (List.mem_singleton.2 hgp)] at hw
      cases hw
    obtain ⟨pool', hrun, hs', hpages⟩ := hs.hit_eq_ok ht hadmits
    refine ⟨_, pool', ?_, rfl, rfl, hs', hpages, hbytes rfl hs' hpages⟩
    rw [Tree.fetch, hrun]

/-! ## Going down -/

/-- A descent stops at a leaf. -/
theorem Legible.stop_eq_ok (tree : Tree) {t : Shape 0} (ht : Legible width pool.pages t)
    (hs : pool.Sound gs)
    (hu : Unwritten gs t.pages) (hroom : Room gs 1) (key : Option Key) (fuel : Nat) :
    ∃ g pool', tree.descend key (fuel + 1) t.page pool = .ok g pool' ∧ g.page = t.page ∧
      pool'.Sound (g :: gs) ∧ pool'.pages = pool.pages := by
  obtain ⟨node, hd, hpage, -, -, hholds⟩ := ht.reads
  obtain ⟨g, pool', hfetch, hgp, -, hs', hpages, hbytes⟩ := Tree.fetch_read_eq_ok hs hpage
    (hu.mono fun q hq => List.mem_singleton.1 hq ▸ List.mem_cons_self) hroom
  have hroute : tree.route key node.page = .ok none := Tree.route_leaf hholds.states.kind_eq_ok key
  have hpeek := Tree.peek_eq_ok (tree.route key) (hbytes ▸ hroute)
  refine ⟨g, pool', ?_, hgp, hs', hpages⟩
  rw [Tree.descend, Action.bind_of_ok hfetch, Action.bind_of_ok hpeek]
  rfl

/-- A descent goes on with the child that the node leads to. -/
theorem Legible.step_eq_ok (tree : Tree) {t : Shape (h + 1)} (ht : Legible width pool.pages t)
    (hs : pool.Sound gs) (hu : Unwritten gs t.pages) (hroom : Room gs 1) (key : Option Key)
    {k : Nat} {i : Key × Shape h} (hi : i ∈ t.items)
    (hroute : ∀ (node : Internal) (hd : Header), hd.width = width → node.Holds hd t.items.records →
      Node.ofBlock .internal node.page = .ok node →
      tree.route key node.page = .ok (some (k, i.2.page))) :
    ∃ pool', pool'.Sound gs ∧ pool'.pages = pool.pages ∧ Legible width pool'.pages i.2 ∧
      Unwritten gs i.2.pages ∧ ∀ fuel,
        tree.descend key (fuel + 1) t.page pool = tree.descend key fuel i.2.page pool' := by
  obtain ⟨node, hd, hpage, hwidth, hblock, hholds⟩ := ht.reads
  obtain ⟨g, pool', hfetch, -, -, hs', hpages, hbytes⟩ := Tree.fetch_read_eq_ok hs hpage
    (hu.mono fun q hq => List.mem_singleton.1 hq ▸ List.mem_cons_self) hroom
  have hpeek := Tree.peek_eq_ok (tree.route key) (hbytes ▸ hroute node hd hwidth hholds hblock)
  obtain ⟨hs'', hpages'⟩ := hs'.release
  refine ⟨pool'.release g, hs'', hpages'.trans hpages, ?_, hu.mono fun q hq => ?_, fun fuel => ?_⟩
  · rw [hpages', hpages]
    exact ht.2 i hi
  · exact .tail _ (List.mem_flatMap.2 ⟨i, hi, hq⟩)
  · rw [Tree.descend, Action.bind_of_ok hfetch, Action.bind_of_ok hpeek]
    rfl

/-- **Going down to the leaf of a key.** The leaves before it have smaller keys, and the leaves
behind it greater ones. -/
theorem Legible.descend_eq_ok {t : Shape h} {fuel : Nat} (ht : Legible width pool.pages t)
    (hin : Within tree.order lo hi t) (hs : pool.Sound gs) (hu : Unwritten gs t.pages)
    (hroom : Room gs 1) (hfuel : h < fuel) (hkey : key.length = width)
    (hlo : lo ≤ tree.order.rank key) (hhi : tree.order.rank key < hi) :
    ∃ g pool' before behind, ∃ leaf : Shape 0,
      tree.descend (some key) fuel t.page pool = .ok g pool' ∧ pool'.Sound (g :: gs) ∧
      pool'.pages = pool.pages ∧ g.page = leaf.page ∧ Reads width pool.pages leaf.page leaf.items ∧
      t.leafNodes = before ++ leaf :: behind ∧
      Below tree.order (tree.order.rank key) (before.flatMap Content.entries) ∧
      Above tree.order (tree.order.rank key) (behind.flatMap Content.entries) ∧
      Sorted tree.order leaf.entries := by
  induction h generalizing pool lo hi fuel with
  | zero =>
    match fuel, hfuel with
    | fuel + 1, _ =>
    obtain ⟨g, pool', hrun, hgp, hs', hpages⟩ := ht.stop_eq_ok tree hs hu hroom (some key) fuel
    exact ⟨g, pool', [], [], t, hrun, hs', hpages, hgp, ht, rfl, nofun, nofun, hin.2.1⟩
  | succ h ih =>
    match fuel, hfuel with
    | fuel + 1, hfuel =>
    obtain ⟨pre, i, post, a, b, hcut, hpre, hpost, hole, hchild, ha, hb⟩ :=
      Spans.route within_lt hin hlo hhi
    have hleads : Leads tree.order lo hi (tree.order.rank key) t.items pre i post a b :=
      ⟨hcut, hpre, hpost, hole, hchild, ha, hb⟩
    have hmem : i ∈ t.items := by
      rw [hcut]
      exact List.mem_append_right _ List.mem_cons_self
    obtain ⟨pool₁, hs₁, hpages₁, ht₁, hu₁, hdown⟩ := ht.step_eq_ok tree hs hu hroom (some key) hmem
      (fun node hd hwidth hholds hblock => by
        rw [hcut] at hholds
        exact Tree.route_internal hholds.states.kind_eq_ok hblock hholds (hkey.trans hwidth.symm)
          hpre hpost)
    obtain ⟨g, pool', before, behind, leaf, hrun, hs', hpages', hgp, hreads, hleaves, hbelow,
      habove, hsorted⟩ := ih ht₁ hchild hs₁ hu₁ (Nat.lt_of_succ_lt_succ hfuel) ha hb
    obtain ⟨hlow, hhigh⟩ := hleads.beside hbelow habove
    rw [Items.entries_eq_flatMap, ← List.flatMap_append] at hlow hhigh
    refine ⟨g, pool', Items.leafNodes pre ++ before, behind ++ Items.leafNodes post, leaf,
      (hdown fuel).trans hrun, hs', hpages'.trans hpages₁, hgp, hpages₁ ▸ hreads, ?_, hlow, hhigh,
      hsorted⟩
    rw [Content.leafNodes, hcut, List.flatMap_append, List.flatMap_cons, hleaves]
    simp only [Items.leafNodes, List.append_assoc, List.cons_append]

/-- **Going down to the first leaf.** -/
theorem Legible.descend_first_eq_ok {t : Shape h} {fuel : Nat} (ht : Legible width pool.pages t)
    (hin : Within tree.order lo hi t) (hs : pool.Sound gs) (hu : Unwritten gs t.pages)
    (hroom : Room gs 1) (hfuel : h < fuel) :
    ∃ g pool', ∃ (leaf : Shape 0) (rest : List (Shape 0)), t.leafNodes = leaf :: rest ∧
      tree.descend none fuel t.page pool = .ok g pool' ∧ g.page = leaf.page ∧
      pool'.Sound (g :: gs) ∧ pool'.pages = pool.pages := by
  induction h generalizing pool lo hi fuel with
  | zero =>
    match fuel, hfuel with
    | fuel + 1, _ =>
    obtain ⟨g, pool', hrun, hgp, hs', hpages⟩ := ht.stop_eq_ok tree hs hu hroom none fuel
    exact ⟨g, pool', t, [], rfl, hrun, hgp, hs', hpages⟩
  | succ h ih =>
    match fuel, hfuel with
    | fuel + 1, hfuel =>
    obtain ⟨i, post, hcut⟩ := List.exists_cons_of_ne_nil (Spans.ne_nil hin)
    have hspans : Spans tree.order (Within tree.order) lo hi (i :: post) := hcut ▸ hin
    obtain ⟨mid, hchild, -⟩ := hspans
    have hmem : i ∈ t.items := hcut ▸ List.mem_cons_self
    obtain ⟨pool₁, hs₁, hpages₁, ht₁, hu₁, hdown⟩ :=
      ht.step_eq_ok tree hs hu hroom none (k := 0) hmem
      (fun node hd hwidth hholds hblock => by
        have hat : t.items.records[0]? = some (Items.record i) := by
          rw [hcut]
          rfl
        have hfirst : Internal.child node 0 = .ok i.2.page := Internal.child_eq_ok hholds hat
        simp only [Tree.route, hholds.states.kind_eq_ok, ok_bind, hblock, hfirst]
        rfl)
    obtain ⟨g, pool', leaf, rest, hleaf, hrun, hgp, hs', hpages'⟩ :=
      ih ht₁ hchild hs₁ hu₁ (Nat.lt_of_succ_lt_succ hfuel)
    refine ⟨g, pool', leaf, rest ++ Items.leafNodes post, ?_, (hdown fuel).trans hrun, hgp, hs',
      hpages'.trans hpages₁⟩
    rw [Content.leafNodes, hcut, List.flatMap_cons, hleaf]
    rfl

/-! ## Whole trees -/

/-- The place of a key in the bytes of a leaf. -/
def Leaf.locate (order : KeyOrder) (key : Key) (page : Page) : Except Halt LeafPlace := do
  Leaf.search (← Node.ofBlock .leaf page) order key

/-- The row of a key in the bytes of a leaf. -/
def Leaf.lookup (order : KeyOrder) (key : Key) (page : Page) : Except Halt (Option RowId) := do
  let leaf ← Node.ofBlock .leaf page
  match ← Leaf.search leaf order key with
  | .found i => return some (← Leaf.row leaf i)
  | .missing _ => return none

/-- **The leaf that a key belongs in.** It is in this page, the leaves before it have smaller keys,
and the leaves behind it greater ones. -/
structure Tree.Finds (tree : Tree) (key : Key) (t : Shape h) (page : Page) (before : List (Shape 0))
    (leaf : Shape 0) (behind : List (Shape 0)) : Prop where
  node : ∃ (node : Leaf) (hd : Header), Node.ofBlock .leaf page = .ok node ∧
    node.Holds hd leaf.entries ∧ hd.width = key.length
  cut : t.leafNodes = before ++ leaf :: behind
  below : Below tree.order (tree.order.rank key) (before.flatMap Content.entries)
  above : Above tree.order (tree.order.rank key) (behind.flatMap Content.entries)
  sorted : Sorted tree.order leaf.entries

/-- **A key has its place in its leaf**, and that is its place among all entries. -/
theorem Tree.Finds.place {t : Shape h} {page : Page} {before behind : List (Shape 0)}
    {leaf : Shape 0} (hf : tree.Finds key t page before leaf behind) :
    ∃ pre post, Below tree.order (tree.order.rank key) (before.flatMap Content.entries ++ pre) ∧
      Above tree.order (tree.order.rank key) (post ++ behind.flatMap Content.entries) ∧
      ((∃ row, leaf.entries = pre ++ (key, row) :: post ∧
          Leaf.locate tree.order key page = .ok (.found pre.length) ∧
          Leaf.lookup tree.order key page = .ok (some row)) ∨
        (leaf.entries = pre ++ post ∧
          Leaf.locate tree.order key page = .ok (.missing pre.length) ∧
          Leaf.lookup tree.order key page = .ok none)) := by
  obtain ⟨node, hd, hblock, hholds, hwidth⟩ := hf.node
  rcases Leaf.search_cases hholds hf.sorted hwidth.symm with
    ⟨pre, row, post, hcut, hpre, hpost, hsearch⟩ | ⟨pre, post, hcut, hpre, hpost, hsearch⟩
  all_goals
    rw [hcut] at hholds
    refine ⟨pre, post, List.forall_mem_append.2 ⟨hf.below, hpre⟩,
      List.forall_mem_append.2 ⟨hpost, hf.above⟩, ?_⟩
  · have hat : (pre ++ (key, row) :: post)[pre.length]? = some (key, row) := by simp
    refine .inl ⟨row, hcut, ?_, ?_⟩
    · rw [Leaf.locate, hblock]
      exact hsearch
    · rw [Leaf.lookup, hblock, ok_bind, hsearch, ok_bind]
      simp only [Leaf.row_eq_ok hholds hat, ok_bind]
      rfl
  · refine .inr ⟨hcut, ?_, ?_⟩
    · rw [Leaf.locate, hblock]
      exact hsearch
    · rw [Leaf.lookup, hblock, ok_bind, hsearch]
      rfl

/-- What readers of a tree need: the nodes below its root hold keys in order, all of its leaves are
at one depth and linked from left to right, and no page is two of them. -/
structure Tree.Readable (tree : Tree) (P : PageMap) (t : Shape h) : Prop where
  root : tree.root = t.page
  page : t.page ≠ .none
  height : h < Tree.descentBound
  legible : Legible tree.keySize P t
  within : Within tree.order 0 (KeyOrder.top tree.keySize) t
  strand : Strand tree.keySize P .none t.leafNodes
  nodup : (t.leafNodes.map Content.page).Nodup

namespace Tree.Readable

variable {t : Shape h}

theorem not_isEmpty (hr : tree.Readable P t) : ¬tree.isEmpty = true := by
  rw [Tree.isEmpty_iff, hr.root]
  exact hr.page

/-- The keys of the tree increase. -/
theorem sorted (hr : tree.Readable P t) : Sorted tree.order t.entries := hr.within.entries.1

/-- **The leaf of a key**, under a guard. -/
theorem findLeaf_eq_ok (hr : tree.Readable pool.pages t) (hs : pool.Sound gs)
    (hu : Unwritten gs t.pages) (hroom : Room gs 1) (hkey : key.length = tree.keySize) :
    ∃ g pool' before leaf behind, tree.findLeaf (some key) pool = .ok (some g) pool' ∧
      pool'.Sound (g :: gs) ∧ pool'.pages = pool.pages ∧ g.page = leaf.page ∧
      tree.Finds key t (pool'.bytes g) before leaf behind := by
  have hrank : tree.order.rank key < KeyOrder.top tree.keySize := hkey ▸ tree.order.rank_lt_top key
  obtain ⟨g, pool', before, behind, leaf, hrun, hs', hpages, hgp, hreads, hleaves, hbelow, habove,
    hsorted⟩ := hr.legible.descend_eq_ok hr.within hs hu hroom hr.height hkey (Nat.zero_le _) hrank
  obtain ⟨node, hd, hpage, hwidth, hblock, hholds⟩ := hreads
  have hbytes : pool'.bytes g = node.page :=
    hs'.bytes_of_pages List.mem_cons_self (by rw [hgp, hpages, hpage])
  rw [Items.records_zero] at hholds
  refine ⟨g, pool', before, leaf, behind, ?_, hs', hpages, hgp,
    ⟨node, hd, hbytes ▸ hblock, hholds, hwidth.trans hkey.symm⟩, hleaves, hbelow, habove, hsorted⟩
  rw [Tree.findLeaf, if_neg hr.not_isEmpty, hr.root, Action.bind_of_ok hrun]
  rfl

/-- **What a lookup answers.** -/
theorem get?_eq_ok (hr : tree.Readable pool.pages t) (hs : pool.Sound gs)
    (hu : Unwritten gs t.pages) (hroom : Room gs 1) (hkey : key.length = tree.keySize)
    {M : Key → Option RowId} (hM : Shows t.entries M) :
    ∃ pool', tree.get? key pool = .ok (M key) pool' ∧ pool'.Sound gs ∧
      pool'.pages = pool.pages := by
  obtain ⟨g, pool₁, before, leaf, behind, hleaf, hs₁, hpages, -, hfinds⟩ :=
    hr.findLeaf_eq_ok hs hu hroom hkey
  have hlook : Leaf.lookup tree.order key (pool₁.bytes g) = .ok (M key) := by
    have hentries := Content.entries_of_leafNodes hfinds.cut
    obtain ⟨pre, post, hpre, hpost, ⟨row, hcut, -, hlookup⟩ | ⟨hcut, -, hlookup⟩⟩ := hfinds.place
    · rw [hlookup, (hM key row).2 (by rw [hentries, hcut]; simp)]
    · have hnone : M key = none := Option.eq_none_iff_forall_ne_some.2 fun row hrow => by
        have hmem := (hM key row).1 hrow
        rw [hentries, hcut, List.append_assoc, List.append_assoc, ← List.append_assoc] at hmem
        exact not_mem_of_place hpre hpost row hmem
      rw [hlookup, hnone]
  obtain ⟨pool', hinspect, hs', hpages'⟩ := inspect_eq_ok (Leaf.lookup tree.order key) hlook hs₁
  have hcheck : tree.checkKey key = .ok () := Tree.checkKey_eq_ok hkey
  refine ⟨pool', ?_, hs', hpages'.trans hpages⟩
  rw [Tree.get?, Action.bind_of_ok (Action.check_ok hcheck pool), Action.bind_of_ok hleaf]
  exact hinspect

end Tree.Readable

/-- A check of a key that passed. -/
theorem Tree.of_checkKey {σ : Type} {s s' : σ} {u : Unit}
    (hrun : (liftM (tree.checkKey key) : Action σ Unit) s = .ok u s') :
    key.length = tree.keySize ∧ s' = s := by
  by_cases hkey : key.length = tree.keySize
  · have hcheck : tree.checkKey key = .ok () := Tree.checkKey_eq_ok hkey
    rw [Action.check_ok hcheck] at hrun
    cases hrun
    exact ⟨hkey, rfl⟩
  · have hcheck : tree.checkKey key = .error (.keySize tree.keySize key.length) :=
      Tree.checkKey_eq_error hkey
    rw [Action.check_error hcheck] at hrun
    cases hrun

/-- A key of another width is refused. -/
theorem Tree.get?_of_width (hkey : key.length ≠ tree.keySize) :
    tree.get? key pool = .error (.refused (.keySize tree.keySize key.length)) pool := by
  have hcheck : tree.checkKey key = .error (.keySize tree.keySize key.length) :=
    Tree.checkKey_eq_error hkey
  exact Action.bind_of_error (Action.check_error hcheck pool)

/-- A tree without keys has no row for any. -/
theorem Tree.get?_of_empty (hroot : tree.root = .none) (hkey : key.length = tree.keySize) :
    tree.get? key pool = .ok none pool := by
  have hcheck : tree.checkKey key = .ok () := Tree.checkKey_eq_ok hkey
  have hleaf : tree.findLeaf (some key) pool = .ok none pool := by
    rw [Tree.findLeaf, if_pos (Tree.isEmpty_iff.2 hroot)]
    rfl
  rw [Tree.get?, Action.bind_of_ok (Action.check_ok hcheck pool), Action.bind_of_ok hleaf]
  rfl

section Crowded

variable (hs : pool.Sound gs) (hempty : ¬tree.isEmpty = true) (hp : pool.pages tree.root ≠ none)
  (hfree : ∀ g ∈ gs, g.page ≠ tree.root) (hroom : ¬Room gs 1)

include hs hempty hp hfree hroom

/-- Without room nobody gets to a leaf. -/
theorem Tree.findLeaf_eq_error (key : Option Key) :
    ∃ pool', tree.findLeaf key pool = .error (.refused .poolFull) pool' := by
  have hdescend : ∃ pool', tree.descend key Tree.descentBound tree.root pool =
      .error (.refused .poolFull) pool' ∧ pool'.Sound gs ∧ pool'.pages = pool.pages := by
    rw [Tree.descentBound, Tree.descend]
    exact Tree.fetch_bind_eq_error hs hp hfree hroom .read
  obtain ⟨pool', hrun, -⟩ := hdescend
  refine ⟨pool', ?_⟩
  rw [Tree.findLeaf, if_neg hempty, Action.bind_of_error hrun]

theorem Tree.get?_eq_error (hkey : key.length = tree.keySize) :
    ∃ pool', tree.get? key pool = .error (.refused .poolFull) pool' := by
  have hcheck : tree.checkKey key = .ok () := Tree.checkKey_eq_ok hkey
  obtain ⟨pool', hleaf⟩ := Tree.findLeaf_eq_error hs hempty hp hfree hroom (some key)
  refine ⟨pool', ?_⟩
  rw [Tree.get?, Action.bind_of_ok (Action.check_ok hcheck pool), Action.bind_of_error hleaf]

end Crowded

/-! ## Trees in pools -/

section Stored

variable {d : TreePlan} {parent : PageId} {least : Nat} {t : Shape h}

/-- A node that is stored is read as it is. -/
theorem NodeAt.reads {l : Items h} (hn : NodeAt d P p parent next l) (hd : d.Fits)
    (hlen : l.length ≤ d.max h) : Reads d.width P p l := by
  obtain ⟨node, hpage, hholds, -, hblock⟩ := hn.exists_node hd (Nat.le_succ_of_le hlen)
  exact ⟨node, _, hpage, rfl, hblock, hholds⟩

/-- No node has more items than its largest number of them. -/
def Content.Capped (d : TreePlan) : {h : Nat} → Shape h → Prop
  | 0, t => t.items.length ≤ d.max 0
  | h + 1, t => t.items.length ≤ d.max (h + 1) ∧ ∀ i ∈ t.items, Capped d i.2

theorem Content.Capped.most (ht : t.Capped d) : t.items.length ≤ d.max h := by
  cases h with
  | zero => exact ht
  | succ h => exact ht.1

theorem Content.Sized.capped (ht : t.Sized d least) : t.Capped d := by
  induction h generalizing least with
  | zero => exact ht.most
  | succ h ih =>
    refine ⟨ht.most, fun i hi => ?_⟩
    obtain ⟨hleast, hmost, hbelow⟩ := ht.below i hi
    exact ih ⟨hleast, hmost, hbelow⟩

theorem Stored.legible (hs : Stored d P parent next t) (hd : d.Fits) (ht : t.Capped d) :
    Legible d.width P t := by
  induction h generalizing parent next with
  | zero => exact hs.node.reads hd ht.most
  | succ h ih =>
    refine ⟨hs.node.reads hd ht.most, fun i hi => ?_⟩
    obtain ⟨next', hstored⟩ := Row.of_mem hs.2 hi
    exact ih hstored (ht.2 i hi)

/-- The pages of the leaves. -/
theorem Content.map_page_leafNodes (t : Shape h) : t.leafNodes.map Content.page = t.leaves := by
  induction h with
  | zero => rfl
  | succ h ih =>
    rw [Content.leafNodes, Content.leaves, List.map_flatMap]
    exact List.flatMap_congr fun i _ => ih i.2

theorem Items.map_page_leafNodes (l : Items (h + 1)) :
    l.leafNodes.map Content.page = l.leaves := by
  rw [Items.leafNodes, Items.leaves, List.map_flatMap]
  exact List.flatMap_congr fun i _ => i.2.map_page_leafNodes

/-- Leaves below items are linked from left to right when those below each item are. -/
theorem Linked.strand {o : KeyOrder} {l : Items (h + 1)} (hl : Linked d P parent next l)
    (hin : ∀ i ∈ l, ∃ lo hi, Within o lo hi i.2)
    (hone : ∀ i ∈ l, ∀ {next : PageId}, Stored d P parent next i.2 →
      Strand d.width P next i.2.leafNodes) : Strand d.width P next (Items.leafNodes l) := by
  induction l with
  | nil => trivial
  | cons i l ih =>
    obtain ⟨hstored, hlinked⟩ := linked_cons.1 hl
    obtain ⟨-, hrest⟩ := List.forall_mem_cons.1 hin
    have hbehind : ((Items.leafNodes l).map Content.page).head?.getD next = Items.head next l := by
      rw [Items.map_page_leafNodes, Items.head?_leaves hrest]
    refine strand_append.2 ⟨?_, ih hlinked hrest fun j hj => hone j (.tail _ hj)⟩
    have hfirst := hone i List.mem_cons_self hstored
    rwa [← hbehind] at hfirst

/-- The leaves of a stored tree are linked from left to right. -/
theorem Stored.strand (hs : Stored d P parent next t) (hd : d.Fits) (ht : t.Capped d)
    (hin : Within d.order lo hi t) : Strand d.width P next t.leafNodes := by
  induction h generalizing parent next lo hi with
  | zero =>
    obtain ⟨node, hpage, hholds, -, hblock⟩ := hs.node.exists_leaf hd (Nat.le_succ_of_le ht.most)
    rw [Items.records_zero] at hholds
    exact ⟨⟨node, _, hpage, rfl, rfl, hblock, hholds⟩, trivial⟩
  | succ h ih =>
    refine hs.linked.strand (Spans.range_of_mem hin) fun i hi next hstored => ?_
    obtain ⟨a, b, hchild⟩ := Spans.range_of_mem hin i hi
    exact ih hstored (ht.2 i hi) hchild

/-- Nodes have children. -/
theorem TreePlan.Fits.min_pos (hd : d.Fits) (h : Nat) : 0 < d.min h := by
  have := hd.capacity_pos h
  rw [TreePlan.min, minSize]
  omega

/-- A tree whose nodes are large enough has entries. -/
theorem Content.Sized.entries_ne_nil (ht : t.Sized d least) (hd : d.Fits) (hleast : 0 < least) :
    t.entries ≠ [] := by
  induction h generalizing least with
  | zero =>
    intro hnil
    have hlength : t.entries.length = t.items.length := rfl
    have := ht.least
    rw [← hlength, hnil, List.length_nil] at this
    omega
  | succ h ih =>
    obtain ⟨i, l, hl⟩ := List.exists_cons_of_length_pos (Nat.lt_of_lt_of_le hleast ht.least)
    obtain ⟨hmin, hmost, hbelow⟩ := ht.below i (hl ▸ List.mem_cons_self)
    intro hnil
    rw [Content.entries, hl, Items.entries_cons, List.append_eq_nil_iff] at hnil
    exact ih ⟨hmin, hmost, hbelow⟩ (hd.min_pos h) hnil.1

/-- The leaves below items are some of the pages there, if those of each node are. -/
theorem Items.leaves_sublist_of {l : Items (h + 1)} (hone : ∀ i ∈ l, i.2.leaves.Sublist i.2.pages) :
    (Items.leaves l).Sublist l.pages := by
  induction l with
  | nil => exact List.nil_sublist _
  | cons i l ih =>
    obtain ⟨hi, hl⟩ := List.forall_mem_cons.1 hone
    rw [Items.pages_cons, Items.leaves, List.flatMap_cons]
    exact hi.append (ih hl)

/-- The leaves are some of the pages of a tree. -/
theorem Content.leaves_sublist (t : Shape h) : t.leaves.Sublist t.pages := by
  induction h with
  | zero => exact (List.nil_sublist _).cons_cons _
  | succ h ih => exact .cons _ (Items.leaves_sublist_of fun i _ => ih i.2)

theorem Items.leaves_sublist (l : Items (h + 1)) : (Items.leaves l).Sublist l.pages :=
  leaves_sublist_of fun i _ => i.2.leaves_sublist

end Stored

/-- **A tree that a pool holds** is readable wherever its pages have the same bytes. -/
theorem Tree.Stands.readable_of {d : TreePlan} {t : Shape h} (ht : tree.Stands pool gs d t)
    (hP : ∀ q ∈ t.pages, P q = pool.pages q) : tree.Readable P t where
  root := ht.root
  page := ht.has.page_ne_none
  height := ht.height_lt
  legible := ht.follows.width ▸
    (ht.has.stored.congr hP).legible ht.follows.fits ht.sized.capped
  within := by
    rw [ht.follows.width, ht.follows.order]
    exact ht.within
  strand := ht.follows.width ▸
    (ht.has.stored.congr hP).strand ht.follows.fits ht.sized.capped ht.within
  nodup := t.map_page_leafNodes ▸ ht.has.nodup.sublist t.leaves_sublist

theorem Tree.Stands.readable {d : TreePlan} {t : Shape h} (ht : tree.Stands pool gs d t) :
    tree.Readable pool.pages t := ht.readable_of fun _ _ => rfl

/-- No guard is out on the pages of a tree that a pool holds. -/
theorem Tree.Stands.unwritten {d : TreePlan} {t : Shape h} (ht : tree.Stands pool gs d t) :
    Unwritten gs t.pages := Unwritten.of_apart ht.has.apart

end PageStore
