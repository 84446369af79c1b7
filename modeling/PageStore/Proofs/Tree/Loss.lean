import PageStore.Proofs.Tree.Refusal

/-!
# Removals that fail

A removal takes the entry out of its leaf first, and repairs the leaf afterwards. A repair holds
three pages at once. Where the guards leave one frame or two, every repair stops before it changed
anything, but the entry is out of the leaf by then, and the leaf stays with too few entries:
`Tree.Spoils`. What is left can be read, and verifying it finds the short leaf: `Index.Loses`. So a
removal that fails has changed nothing only if it never got to a leaf: `Index.remove_fails`. It does
fail at a leaf below the root with no entry to spare, `Content.Tight`: `Index.remove_tight`.
-/

namespace PageStore

open Pool

variable {n m : Nat} {α : Type} {d : TreePlan} {P P' : PageMap} {h lo hi least : Nat}
  {p q parent next : PageId} {pool pool' : Pool n m} {gs : List (Guard n)} {g : Guard n}
  {tree : Tree} {x y : Index n m} {key : Key} {E : List (Key × RowId)} {e : Halt}

/-! ## A short leaf -/

/-- The leaf in page `q` has too few entries, and all other nodes have items enough. -/
def Content.Short (d : TreePlan) (q : PageId) : {h : Nat} → Nat → Shape h → Prop
  | 0, least, t => t.page = q ∧ t.items.length < least ∧ t.items.length ≤ d.max 0
  | h + 1, least, t => least ≤ t.items.length ∧ t.items.length ≤ d.max (h + 1) ∧
    ∃ (pre : Items (h + 1)) (i : Key × Shape h) (post : Items (h + 1)), t.items = pre ++ i :: post ∧
      Filled d pre ∧ Short d q (d.min h) i.2 ∧ Filled d post

theorem Content.Short.most {t : Shape h} (ht : t.Short d q least) : t.items.length ≤ d.max h := by
  cases h with
  | zero => exact ht.2.2
  | succ h => exact ht.2.1

theorem Content.Short.capped {t : Shape h} (ht : t.Short d q least) : t.Capped d := by
  induction h generalizing least with
  | zero => exact ht.most
  | succ h ih =>
    obtain ⟨-, hmost, pre, i, post, hcut, hpre, hi, hpost⟩ := ht
    have hbeside : ∀ {l : Items (h + 1)}, Filled d l → ∀ j ∈ l, j.2.Capped d := fun hl j hj => by
      obtain ⟨hleast, hmost, hbelow⟩ := hl j hj
      exact Content.Sized.capped ⟨hleast, hmost, hbelow⟩
    refine ⟨hmost, ?_⟩
    rw [hcut]
    exact List.forall_mem_append.2 ⟨hbeside hpre, List.forall_mem_cons.2 ⟨ih hi, hbeside hpost⟩⟩

/-! ## Verifying finds it -/

/-- **The children of a node** are surveyed up to the first that is refused. -/
theorem Tree.surveyChildren_eq_error {fuel depth : Nat}
    (hone : tree.Surveys (n := n) (m := m) gs d h fuel depth) (hp : p ≠ .none)
    {pre post : Items (h + 1)} {i : Key × Shape h} {lower upper : Option Key} {s : Survey}
    (hbad : ∀ {pool : Pool n m} {next : PageId} {lo hi : Nat} {lower upper : Option Key}
      {s : Survey}, Visit.Meets ⟨i.2.page, p, lower, upper, depth⟩ pool gs d next lo hi i.2 →
      (∀ k ∈ s.depth, k = depth + h) → ∃ pool',
        tree.surveyBelow fuel ⟨i.2.page, p, lower, upper, depth⟩ s pool = .error e pool')
    (hs : pool.Sound gs) (hl : Hangs d pool.pages p next lo hi (pre ++ i :: post))
    (hap : ∀ g ∈ gs, g.page ∉ Items.pages (pre ++ i :: post)) (hf : Filled d pre)
    (hmost : i.2.items.length ≤ d.max h) (hw : ∀ j ∈ pre ++ i :: post, j.1.length = d.width)
    (hb : Bounds d.order d.width lower upper lo hi) (hdepth : ∀ k ∈ s.depth, k = depth + h) :
    ∃ pool', ((childSpans lower upper (Items.records (pre ++ i :: post))).foldlM
        (fun s (child, lower, upper) => tree.surveyBelow fuel ⟨child, p, lower, upper, depth⟩ s) s :
        Action (Pool n m) Survey) pool = .error e pool' := by
  -- on the children before the bad one: each is surveyed with success and leaves the pages alone,
  -- so the bad one is still met as it stands
  induction pre generalizing pool lo lower s with
  | nil =>
    rw [List.nil_append] at hl hap
    have hhas := hl.has hs hap
    cases post with
    | nil =>
      obtain ⟨_, hin, rfl⟩ := hl.ordered
      obtain ⟨pool', hrun⟩ := hbad ⟨rfl, hhas, hin, hb, hmost⟩ hdepth
      exact ⟨pool', Action.bind_of_error hrun⟩
    | cons j post =>
      have hwj := hw j (.tail _ List.mem_cons_self)
      obtain ⟨pool', hrun⟩ := hbad ⟨rfl, hhas, hl.second.1, hb.before hwj, hmost⟩ hdepth
      exact ⟨pool', Action.bind_of_error hrun⟩
  | cons c pre ih =>
    obtain ⟨j, l, hjl⟩ : ∃ j l, pre ++ i :: post = j :: l :=
      List.exists_cons_of_ne_nil (List.append_ne_nil_of_right_ne_nil _ (List.cons_ne_nil i post))
    obtain ⟨hsized, hfpre⟩ := filled_cons.1 hf
    rw [List.cons_append] at hl hap hw ⊢
    have hhas := hl.has hs hap
    obtain ⟨hin, hrest⟩ := Hangs.second (hjl ▸ hl)
    have hwj := hw j (.tail _ (hjl ▸ List.mem_cons_self))
    have hleast : Visit.least ⟨c.2.page, p, lower, some j.1, depth⟩ d h = d.min h :=
      if_pos (PageId.isSome_iff.2 hp)
    obtain ⟨pool₁, hrun₁, hs₁, hpages₁⟩ := hone (v := ⟨c.2.page, p, lower, some j.1, depth⟩)
      ⟨rfl, hhas, hin, hb.before hwj, hleast.symm ▸ hsized⟩ rfl hdepth
    obtain ⟨pool₂, hrun₂⟩ := ih hs₁ (hpages₁ ▸ hjl ▸ hrest)
      (fun g hg hin => hap g hg (List.mem_append_right _ hin)) hfpre (fun k hk => hw k (.tail _ hk))
      (hb.behind hwj)
      (s := s.add (depth + h) c.2.entries.length
        (chained (Items.head next (pre ++ i :: post)) c.2.leaves))
      (fun k hk => (Option.some.inj hk).symm)
    rw [hjl] at hrun₁ hrun₂ ⊢
    exact ⟨pool₂, (Action.bind_of_ok hrun₁).trans hrun₂⟩

/-- **Surveying a subtree** with a short leaf stops there. A whole tree that is a leaf is not
meant. -/
theorem Tree.surveyBelow_eq_error (htree : tree.Follows d) (hroom : Room gs 1) {fuel : Nat}
    (hfuel : h < fuel) {t : Shape h} {v : Visit} {s : Survey} (hv : v.Meets pool gs d next lo hi t)
    (hshort : t.Short d q (v.least d h)) (hs : ∀ k ∈ s.depth, k = v.depth + h) :
    ∃ pool',
      tree.surveyBelow fuel v s pool = .error (.refused (.tree (.broken q .leafLeast))) pool' := by
  induction h generalizing pool fuel lo hi next v s with
  | zero =>
    obtain ⟨fuel, rfl⟩ := Nat.exists_eq_add_one_of_ne_zero (Nat.ne_zero_of_lt hfuel)
    obtain ⟨rfl, hfew, -⟩ := hshort
    obtain ⟨page, hpage, hexamine⟩ := hv.examine_short htree (Nat.not_le_of_lt hfew)
    obtain ⟨pool', hview⟩ := Tree.view_eq_error hv.has.sound hpage hexamine hv.has.free hroom
    rw [Tree.surveyBelow, hv.page]
    exact ⟨pool', Action.bind_of_error hview⟩
  | succ h ih =>
    obtain ⟨fuel, rfl⟩ := Nat.exists_eq_add_one_of_ne_zero (Nat.ne_zero_of_lt hfuel)
    obtain ⟨henough, -, pre, i, post, hcut, hpre, hi, hpost⟩ := hshort
    obtain ⟨page, hpage, hexamine⟩ := hv.examine_internal htree henough
    obtain ⟨pool₁, hview, hs₁, hpages₁⟩ :=
      Tree.view_eq_ok hv.has.sound hpage hexamine hv.has.free hroom
    rw [← hv.page] at hview
    have hhas := hv.has.of_pages hs₁ hpages₁
    obtain ⟨_, -, hholds⟩ := hhas.stored.node
    have hwidth : ∀ i ∈ t.items, i.1.length = d.width := fun i hi =>
      hholds.width _ (List.mem_map_of_mem hi)
    have hhangs := hhas.hangs hv.within
    have hap : ∀ g ∈ gs, g.page ∉ Items.pages t.items := fun g hg hin =>
      hhas.apart g hg (.tail _ hin)
    have hpage' := hhas.page_ne_none
    rw [← hv.page] at hpage' hhangs
    rw [hcut] at hwidth hhangs hap
    have hfuel' := Nat.lt_of_succ_lt_succ hfuel
    have hleast : ∀ lower upper,
        Visit.least ⟨i.2.page, v.page, lower, upper, v.depth + 1⟩ d h = d.min h :=
      fun _ _ => if_pos (PageId.isSome_iff.2 hpage')
    obtain ⟨pool₂, hrun⟩ := Tree.surveyChildren_eq_error
      (Tree.surveyBelow_eq_ok htree hroom hfuel' (v.depth + 1)) hpage'
      (fun {_ _ _ _ lower upper _} hmeets hdepth => ih hfuel' hmeets
        ((hleast lower upper).symm ▸ hi) hdepth)
      hs₁ hhangs hap hpre hi.most hwidth hv.bounds fun k hk => by
        rw [hs k hk]
        omega
    refine ⟨pool₂, ?_⟩
    rw [Tree.surveyBelow, Action.bind_of_ok hview, hcut]
    exact hrun

/-! ## Repairs without room -/

/-- **Without three frames** a repair of two neighbours stops before it changed anything. -/
theorem Tree.repair_eq_error (hd : d.Fits) (hs : pool.Sound gs) (hroom : ¬Room gs 3)
    {pre post : Items (h + 1)} {a b : Key × Shape h} {childIndex : Nat}
    (hindex : childIndex - 1 = pre.length)
    (hap : ∀ g ∈ gs, g.page ∉ p :: Items.pages (pre ++ a :: b :: post))
    (hnode : NodeAt d pool.pages p parent next (pre ++ a :: b :: post))
    (hh : Hangs d pool.pages p next lo hi (pre ++ a :: b :: post))
    (hmost : (pre ++ a :: b :: post).length ≤ d.max (h + 1)) :
    ∃ pool', Tree.rebalance p childIndex pool = .error (.refused .poolFull) pool' ∧ pool'.Sound gs ∧
      pool'.pages = pool.pages := by
  obtain ⟨parent', hpage, hholds, -, hblock⟩ := hnode.exists_internal hd (Nat.le_succ_of_le hmost)
  have hp : pool.pages p ≠ none := hpage ▸ nofun
  have hfree : ∀ g ∈ gs, g.page ≠ p := fun g hg e => hap g hg (e ▸ List.mem_cons_self)
  rw [Tree.rebalance]
  by_cases hone : Room gs 1
  swap
  · exact Tree.fetch_bind_eq_error hs hp hfree hone .write
  obtain ⟨gp, pool₁, hfetch, rfl, -, hs₁, hpages₁, hbytes⟩ :=
    Tree.fetch_eq_ok hs hpage hfree hone .write
  have hpa : ∀ q ∈ a.2.pages, q ∈ Items.pages (pre ++ a :: b :: post) := fun q hq =>
    List.mem_flatMap.2 ⟨a, by simp, hq⟩
  have hpb : ∀ q ∈ b.2.pages, q ∈ Items.pages (pre ++ a :: b :: post) := fun q hq =>
    List.mem_flatMap.2 ⟨b, by simp, hq⟩
  have hina := hpa a.2.page List.mem_cons_self
  have hinb := hpb b.2.page List.mem_cons_self
  have hout := (List.nodup_cons.1 hh.nodup).1
  have hab : a.2.page ≠ b.2.page := fun e => by
    have hnd := hh.nodup
    rw [pages_window, List.nodup_append, List.nodup_append] at hnd
    exact (List.nodup_append.1 hnd.1.2.1).2.2 _ List.mem_cons_self _ List.mem_cons_self e
  have hfree₁ : ∀ q ∈ Items.pages (pre ++ a :: b :: post), ∀ g ∈ gp :: gs, g.page ≠ q := by
    rintro q hq g (_ | ⟨_, hg⟩) rfl
    · exact hout hq
    · exact hap g hg (.tail _ hq)
  have hall : ∀ q ∈ Items.pages (pre ++ a :: b :: post), pool₁.pages q ≠ none := fun q hq =>
    hpages₁ ▸ hh.linked.allocated q hq
  have hguarded : ∃ pool', (do
      let s ← Internal.siblings gp.page childIndex ((← get).bytes gp)
      Tree.repairUnder gp s (childIndex = 0) : Action (Pool n m) Aftermath) pool₁ =
      .error (.refused .poolFull) pool' ∧ pool'.Sound (gp :: gs) ∧ pool'.pages = pool.pages := by
    rw [Action.get_bind, hbytes,
      Action.bind_of_ok (Action.liftM_ok (Tree.siblings_eq_ok hholds hblock hindex gp.page) _),
      Tree.repairUnder, ← hpages₁]
    by_cases htwo : Room (gp :: gs) 1
    swap
    · exact Tree.fetch_bind_eq_error hs₁ (hall _ hina) (hfree₁ _ hina) htwo .write
    obtain ⟨page, hleft⟩ := Option.ne_none_iff_exists'.1 (hall _ hina)
    obtain ⟨gl, pool₂, hfetchl, hgl, -, hs₂, hpages₂, -⟩ :=
      Tree.fetch_eq_ok hs₁ hleft (hfree₁ _ hina) htwo .write
    rw [Action.bind_of_ok hfetchl, ← hpages₂]
    refine holding_eq_error (Tree.fetch_bind_eq_error hs₂ (hpages₂ ▸ hall _ hinb) ?_ ?_ .write)
    · exact List.forall_mem_cons.2 ⟨hgl ▸ hab, hfree₁ _ hinb⟩
    · -- a third frame would be one more than the guards leave
      intro hthree
      refine hroom (hs₁.room_of_apart (fun g hg => hfree g hg) ?_)
      exact hs₂.room_of_apart (fun g hg => hgl ▸ hfree₁ _ hina g hg) hthree
  obtain ⟨pool₂, hrun, hs₂, hpages₂⟩ := holding_eq_error hguarded
  exact ⟨pool₂, (Action.bind_of_ok hfetch).trans (Action.bind_of_error hrun), hs₂, hpages₂⟩

/-- So does the repair of any child that has a sibling. -/
theorem Tree.rebalance_eq_error (hd : d.Fits) (hs : pool.Sound gs) (hroom : ¬Room gs 3)
    {pre post : Items (h + 1)} {i : Key × Shape h}
    (hap : ∀ g ∈ gs, g.page ∉ p :: Items.pages (pre ++ i :: post))
    (hnode : NodeAt d pool.pages p parent next (pre ++ i :: post))
    (hh : Hangs d pool.pages p next lo hi (pre ++ i :: post))
    (hmost : (pre ++ i :: post).length ≤ d.max (h + 1)) (htwo : 2 ≤ (pre ++ i :: post).length) :
    ∃ pool', Tree.rebalance p pre.length pool = .error (.refused .poolFull) pool' ∧ pool'.Sound gs ∧
      pool'.pages = pool.pages := by
  rcases List.eq_nil_or_concat' pre with rfl | ⟨pre, a, rfl⟩
  · match post, htwo with
    | b :: post, _ => exact Tree.repair_eq_error hd hs hroom rfl hap hnode hh hmost
  · rw [List.append_assoc] at hap hnode hh hmost
    exact Tree.repair_eq_error hd hs hroom (by simp) hap hnode hh hmost

/-! ## Below a node -/

/-- **What is left of a subtree** by a removal that took the entry of a key out of the leaf in page
`q` and could not repair it. -/
structure Spoils (d : TreePlan) (P P' : PageMap) (parent next : PageId) (lo hi least : Nat)
    (t : Shape h) (key : Key) (q : PageId) (t' : Shape h) : Prop where
  page : t'.page = t.page
  first : t'.first = t.first
  pages : t'.pages = t.pages
  stored : Stored d P' parent next t'
  within : Within d.order lo hi t'
  short : t'.Short d q least
  kept : ∀ p, p ∉ t.pages → P' p = P p
  entries : ∃ pre row post, Flanks d.order key row t.entries pre post ∧ t'.entries = pre ++ post

/-- A leaf that got too small is spoilt if nothing repairs it. -/
theorem LeafRemoves.spoils {t : Shape 0}
    (hdone : LeafRemoves d P P' t.page parent next t.items key (.removed true))
    (hin : Within d.order lo hi t) (hmost : t.items.length ≤ d.max 0) :
    ∃ t', Spoils d P P' parent next lo hi (d.min 0) t key t.page t' := by
  obtain ⟨⟨⟩, -⟩ | ⟨pre, row, post, hcut, hpre, hpost, hshort, hnode, hkept⟩ := hdone
  have hfew : (pre ++ post).length < d.min 0 := of_decide_eq_true (Removal.removed.inj hshort).symm
  have hrange : Ranged d.order lo hi (pre ++ (key, row) :: post) := hcut ▸ hin.2
  have hless : (pre ++ post).length ≤ d.max 0 := by
    rw [hcut, List.length_append, List.length_cons] at hmost
    rw [List.length_append]
    omega
  refine ⟨Content.node t.page (h := 0) (pre ++ post), rfl, rfl, rfl, hnode, ⟨hin.1, hrange.drop⟩,
    ⟨rfl, hfew, hless⟩,
    fun p hp => hkept p fun e => hp (e ▸ List.mem_cons_self), pre, row, post, ⟨hcut, hpre, hpost⟩,
      rfl⟩

/-- A node above a spoilt child is spoilt, and nothing else is wrong with it. -/
theorem Spoils.above {t : Shape (h + 1)} {pre post : Items (h + 1)} {i : Key × Shape h}
    {l : Shape h} {a b : Nat} (hh : pool.Has gs d parent next t)
    (hl : Leads d.order lo hi (d.order.rank key) t.items pre i post a b) (hsize : t.Sized d least)
    (hc : Spoils d pool.pages P t.page (post.head next) a b (d.min h) i.2 key q l) :
    Spoils d pool.pages P parent next lo hi least t key q
      (Content.node t.page (pre ++ (i.1, l) :: post)) := by
  obtain ⟨hpre, -, hpost⟩ := hl.sized hsize.below
  have hcut := hl.cut
  -- the child keeps its pages and its first leaf, so its neighbours and the node see no change
  have hpages : Items.pages (pre ++ (i.1, l) :: post) = Items.pages t.items := by
    rw [hcut, Items.pages_append, Items.pages_append, Items.pages_cons, Items.pages_cons, hc.pages]
  have hnd := hh.nodup
  rw [Content.pages, hcut, Items.pages_append, Items.pages_cons] at hnd
  obtain ⟨hpage, hpre', hrest⟩ : t.page ∉ i.2.pages ∧ (∀ q ∈ Items.pages pre, q ∉ i.2.pages) ∧
      ∀ q ∈ Items.pages post, q ∉ i.2.pages := by
    obtain ⟨hout, hnd⟩ := List.nodup_cons.1 hnd
    obtain ⟨-, hright, hbeside⟩ := List.nodup_append.1 hnd
    refine ⟨fun hin => hout (List.mem_append_right _ (List.mem_append_left _ hin)),
      fun q hq hin => hbeside q hq q (List.mem_append_left _ hin) rfl,
      fun q hq hin => (List.nodup_append.1 hright).2.2 q hin q hq rfl⟩
  obtain ⟨before, row, behind, hf, hentries⟩ := hc.entries
  refine ⟨rfl, ?_, ?_, stored_iff.2 ⟨?_, ?_⟩, ?_, ?_, fun p hp => ?_, _, row, _, hl.flanks hf, ?_⟩
  · have hfirst : t.first = (Content.node t.page (pre ++ i :: post)).first := by
      rw [← hcut]
      rfl
    rw [hfirst]
    cases pre with
    | nil => exact hc.first
    | cons j pre => rfl
  · exact congrArg (t.page :: ·) hpages
  · obtain ⟨page, hat, hholds⟩ := hh.stored.node.congr (hc.kept _ hpage)
    refine ⟨page, hat, ?_⟩
    rw [Content.items_node, Items.records_child hc.page, ← hcut]
    exact hholds
  · have hlinked := hh.stored.linked
    rw [hcut, List.append_cons] at hlinked
    have hmid := hlinked.replace [(i.1, l)] (fun q hq => hc.kept q (hq.elim (hpre' q) (hrest q)))
      (linked_cons.2 ⟨hc.stored, trivial⟩) hc.first
    rwa [List.append_assoc] at hmid
  · have hchild : Spans d.order (Within d.order) a b [(i.1, l)] := ⟨b, hc.within, rfl⟩
    exact hl.hole.fill (i := (i.1, l)) hchild
  · have hlength : (pre ++ (i.1, l) :: post).length = t.items.length := by
      rw [hcut, List.length_append, List.length_append, List.length_cons, List.length_cons]
    exact ⟨hlength ▸ hsize.least, hlength ▸ hsize.most, pre, (i.1, l), post, rfl, hpre, hc.short,
      hpost⟩
  · refine hc.kept p fun hin => hp (.tail _ ?_)
    rw [hcut]
    exact List.mem_flatMap.2 ⟨i, by simp, hin⟩
  · rw [Content.entries, Content.items_node, Items.entries_append, Items.entries_cons, hentries]
    simp only [List.append_assoc]

/-- It is not repaired without three frames. -/
theorem Spoils.rebalance_eq_error (hd : d.Fits) (hroom : ¬Room gs 3) {t : Shape (h + 1)}
    {pre post : Items (h + 1)} {i : Key × Shape h} {l : Shape h} {a b : Nat}
    (hh : pool.Has gs d parent next t)
    (hl : Leads d.order lo hi (d.order.rank key) t.items pre i post a b) (hsize : t.Sized d least)
    (htwo : 2 ≤ least) (hs : pool'.Sound gs)
    (hc : Spoils d pool.pages pool'.pages t.page (post.head next) a b (d.min h) i.2 key q l) :
    ∃ pool'', Tree.rebalance t.page pre.length pool' = .error (.refused .poolFull) pool'' ∧
      pool''.Sound gs ∧ pool''.pages = pool'.pages := by
  have habove := hc.above hh hl hsize
  have hlength : (pre ++ (i.1, l) :: post).length = t.items.length := by
    rw [hl.cut, List.length_append, List.length_append, List.length_cons, List.length_cons]
  have hnd := hh.nodup
  rw [← habove.pages] at hnd
  exact Tree.rebalance_eq_error hd hs hroom (fun g hg hin => hh.apart g hg (habove.pages ▸ hin))
    habove.stored.node ⟨habove.stored.linked, habove.within, hnd⟩ (hlength ▸ hsize.most)
    (hlength ▸ Nat.le_trans htwo hsize.least)

/-- **A removal below a node without three frames** stops only when it has spoilt a leaf. One that
left the node too small has done so, too, as it cannot have repaired anything. -/
theorem Tree.removeBelow_spoils (htree : tree.Follows d) (hone : Room gs 1) (hroom : ¬Room gs 3)
    (hkey : key.length = d.width) {t : Shape h} {fuel : Nat} (hfuel : h < fuel)
    (hh : pool.Has gs d parent next t) (hin : Within d.order lo hi t) (hsize : t.Sized d least)
    (htwo : 0 < h → 2 ≤ least) (hlo : lo ≤ d.order.rank key) (hhi : d.order.rank key < hi) :
    Ends (fun e pool' => e = .refused .poolFull ∧ pool'.Sound gs ∧ ∃ q t',
        Spoils d pool.pages pool'.pages parent next lo hi least t key q t')
      (fun done pool' => done = .removed true → pool'.Sound gs ∧ ∃ q t',
        Spoils d pool.pages pool'.pages parent next lo hi (d.min h) t key q t')
      (tree.removeBelow key fuel t.page pool) := by
  induction h generalizing pool parent next lo hi fuel least with
  | zero =>
    obtain ⟨fuel, rfl⟩ := Nat.exists_eq_add_one_of_ne_zero (Nat.ne_zero_of_lt hfuel)
    obtain ⟨done, pool', hrun, hs', hdone⟩ :=
      Tree.removeBelow_leaf_eq_ok htree hone hkey hh hin hsize.most fuel
    refine .of_eq_ok hrun ?_
    rintro rfl
    exact ⟨hs', _, hdone.spoils hin hsize.most⟩
  | succ h ih =>
    obtain ⟨fuel, rfl⟩ := Nat.exists_eq_add_one_of_ne_zero (Nat.ne_zero_of_lt hfuel)
    obtain ⟨pre, i, post, a, b, g, pool₁, hleads, hfetch, hpeek, hchild, hpages⟩ :=
      Tree.step_eq_ok htree hone hkey hh hin hsize.most hlo hhi .write
    obtain ⟨-, hsizei, -⟩ := hleads.sized hsize.below
    rw [Tree.removeBelow, Action.bind_of_ok hfetch, Action.bind_of_ok hpeek]
    dsimp only
    rw [Action.modify_bind]
    have hbelow := ih (Nat.lt_of_succ_lt_succ hfuel) hchild hleads.within hsizei
      htree.fits.two_le_min
      hleads.lower hleads.upper
    rw [hpages] at hbelow
    refine Ends.bind (hbelow.imp ?_ fun _ _ => id) ?_
    · rintro e pool₂ ⟨rfl, hs₂, q, l, hspoils⟩
      exact ⟨rfl, hs₂, q, _, hspoils.above hh hleads hsize⟩
    rintro done pool₂ hshort
    rcases done with _ | _ | _
    · rintro ⟨⟩
    · rintro ⟨⟩
    -- the leaf is short, and there is no room to repair it
    obtain ⟨hs₂, q, l, hspoils⟩ := hshort rfl
    obtain ⟨pool₃, hrun, hs₃, hpages₃⟩ :=
      hspoils.rebalance_eq_error htree.fits hroom hh hleads hsize (htwo (Nat.succ_pos h)) hs₂
    have habove := hspoils.above hh hleads hsize
    exact .of_eq_error (Action.bind_of_error hrun) ⟨rfl, hs₃, q, _, hpages₃ ▸ habove⟩

/-! ## Leaves without an entry to spare -/

/-- The leaf with the key has no entry to spare. -/
def Content.Tight (d : TreePlan) (key : Key) (t : Shape h) : Prop :=
  ∃ s ∈ t.leafNodes, key ∈ s.entries.map Prod.fst ∧ s.items.length ≤ d.min 0

/-- The way to that leaf is the way to the key. -/
theorem Leads.tight {o : KeyOrder} {t : Shape (h + 1)} {pre post : Items (h + 1)}
    {i : Key × Shape h} {a b : Nat} (hl : Leads o lo hi (o.rank key) t.items pre i post a b)
    (ht : t.Tight d key) : i.2.Tight d key := by
  obtain ⟨s, hs, hkey, hfew⟩ := ht
  obtain ⟨j, hj, hsj⟩ := List.mem_flatMap.1 hs
  have hin : ∀ {l : Items (h + 1)}, j ∈ l → key ∈ l.entries.map Prod.fst := fun hjl => by
    obtain ⟨e, he, hek⟩ := List.mem_map.1 hkey
    have hej : e ∈ j.2.entries := by
      rw [Content.entries_eq_flatMap]
      exact List.mem_flatMap.2 ⟨s, hsj, he⟩
    exact List.mem_map.2 ⟨e, List.mem_flatMap.2 ⟨j, hjl, hej⟩, hek⟩
  obtain ⟨hpre, hpost⟩ := hl.notMem_beside
  rw [hl.cut, List.mem_append, List.mem_cons] at hj
  rcases hj with hj | rfl | hj
  · exact absurd (hin hj) hpre
  · exact ⟨s, hsj, hkey, hfew⟩
  · exact absurd (hin hj) hpost

/-- **Without three frames** no entry can be removed from such a leaf below another node. -/
theorem Tree.removeBelow_tight (htree : tree.Follows d) (hone : Room gs 1) (hroom : ¬Room gs 3)
    (hkey : key.length = d.width) {t : Shape h} {fuel : Nat} (hfuel : h < fuel)
    (hh : pool.Has gs d parent next t) (hin : Within d.order lo hi t) (hsize : t.Sized d least)
    (htwo : 0 < h → 2 ≤ least) (hlo : lo ≤ d.order.rank key) (hhi : d.order.rank key < hi)
    (ht : t.Tight d key) :
    Ends (fun _ _ => True) (fun done _ => h = 0 ∧ done = .removed true)
      (tree.removeBelow key fuel t.page pool) := by
  induction h generalizing pool parent next lo hi fuel least with
  | zero =>
    obtain ⟨fuel, rfl⟩ := Nat.exists_eq_add_one_of_ne_zero (Nat.ne_zero_of_lt hfuel)
    obtain ⟨s, hs, hmem, hfew⟩ := ht
    obtain rfl : s = t := List.mem_singleton.1 hs
    obtain ⟨done, pool', hrun, -, hdone⟩ :=
      Tree.removeBelow_leaf_eq_ok htree hone hkey hh hin hsize.most fuel
    refine .of_eq_ok hrun ⟨rfl, ?_⟩
    obtain ⟨-, -, pre, post, hcut, hpre, hpost⟩ | ⟨pre, row, post, hcut, -, -, rfl, -⟩ := hdone
    · obtain ⟨⟨_, row⟩, hentry, rfl⟩ := List.mem_map.1 hmem
      have hin : (_, row) ∈ s.items := hentry
      rw [hcut] at hin
      exact absurd hin (not_mem_of_place hpre hpost row)
    · rw [hcut, List.length_append, List.length_cons] at hfew
      rw [decide_eq_true (by rw [List.length_append]; omega)]
  | succ h ih =>
    obtain ⟨fuel, rfl⟩ := Nat.exists_eq_add_one_of_ne_zero (Nat.ne_zero_of_lt hfuel)
    obtain ⟨pre, i, post, a, b, g, pool₁, hleads, hfetch, hpeek, hchild, hpages⟩ :=
      Tree.step_eq_ok htree hone hkey hh hin hsize.most hlo hhi .write
    obtain ⟨-, hsizei, -⟩ := hleads.sized hsize.below
    rw [Tree.removeBelow, Action.bind_of_ok hfetch, Action.bind_of_ok hpeek]
    dsimp only
    rw [Action.modify_bind]
    have hfuel' := Nat.lt_of_succ_lt_succ hfuel
    have hbelow := ih hfuel' hchild hleads.within hsizei htree.fits.two_le_min hleads.lower
      hleads.upper (hleads.tight ht)
    have hspoils := Tree.removeBelow_spoils htree hone hroom hkey hfuel' hchild hleads.within hsizei
      htree.fits.two_le_min hleads.lower hleads.upper
    cases hrun : tree.removeBelow key fuel i.2.page (pool₁.release g) with
    | error e pool₂ => exact .of_eq_error (Action.bind_of_error hrun) trivial
    | ok done pool₂ =>
      -- only a leaf comes back, and it is short
      rw [hrun] at hbelow hspoils
      obtain ⟨-, rfl⟩ := hbelow
      obtain ⟨hs₂, q, l, hc⟩ := hspoils rfl
      rw [hpages] at hc
      obtain ⟨pool₃, hrun₃, -⟩ := hc.rebalance_eq_error htree.fits hroom hh hleads hsize
        (htwo (Nat.succ_pos h)) hs₂
      exact .of_eq_error ((Action.bind_of_ok hrun).trans (Action.bind_of_error hrun₃)) trivial

/-- No leaf has an entry to spare when all of them have no more than two leaves need. -/
theorem Content.Sized.tight {t : Shape 1} (ht : t.Sized d 2) (hkey : key ∈ t.entries.map Prod.fst)
    (hfew : t.entries.length ≤ 2 * d.min 0) : t.Tight d key := by
  obtain ⟨e, he, rfl⟩ := List.mem_map.1 hkey
  obtain ⟨i, hi, hei⟩ := List.mem_flatMap.1 he
  obtain ⟨pre, post, hcut⟩ := List.append_of_mem hi
  have hleast := ht.least
  have hfilled := ht.below
  rw [hcut, filled_append, filled_cons] at hfilled
  rw [hcut, List.length_append, List.length_cons] at hleast
  have hbeside := Filled.le_length_entries (filled_append.2 ⟨hfilled.1, hfilled.2.2⟩) rfl
    (fun k hk => absurd hk (Nat.not_lt_zero k)) (I := 2)
  rw [pow_zero, one_mul, List.length_append, Items.entries_append, List.length_append] at hbeside
  have hone : d.min 0 ≤ (pre.length + post.length) * minSize (d.max 0) :=
    Nat.le_mul_of_pos_left _ (by omega)
  have hall : t.entries.length =
      (Items.entries pre).length + (i.2.entries.length + (Items.entries post).length) := by
    rw [Content.entries, hcut, Items.entries_append, Items.entries_cons, List.length_append,
      List.length_append]
  refine ⟨i.2, ?_, List.mem_map_of_mem hei, ?_⟩
  · exact List.mem_flatMap.2 ⟨i, hi, List.mem_singleton_self _⟩
  · have hlength : i.2.entries.length = i.2.items.length := rfl
    omega

/-! ## What is left of a tree -/

namespace Spoils

variable {t t' : Shape h}

/-- It can be read. -/
theorem readable (hc : Spoils d pool.pages P .none .none 0 (KeyOrder.top d.width) least t key q t')
    (ht : tree.Stands pool gs d t) : tree.Readable P t' where
  root := ht.root.trans hc.page.symm
  page := hc.page ▸ ht.has.page_ne_none
  height := ht.height_lt
  legible := ht.follows.width ▸ hc.stored.legible ht.follows.fits hc.short.capped
  within := by
    rw [ht.follows.width, ht.follows.order]
    exact hc.within
  strand := ht.follows.width ▸ hc.stored.strand ht.follows.fits hc.short.capped hc.within
  nodup := by
    have hnd := ht.has.nodup
    rw [← hc.pages] at hnd
    exact t'.map_page_leafNodes ▸ hnd.sublist t'.leaves_sublist

/-- No page was taken or given back. -/
theorem members_eq (hc : Spoils d pool.pages pool'.pages parent next lo hi least t key q t')
    (hh : pool.Has gs d parent next t) (hs : pool'.Sound gs) : pool'.members = pool.members := by
  refine members_eq_of_none hh.sound.space hs.space fun p => ?_
  by_cases hp : p ∈ t.pages
  · exact iff_of_false (hc.stored.allocated p (hc.pages ▸ hp)) (hh.stored.allocated p hp)
  · rw [hc.kept p hp]

/-- Verifying finds the leaf that is too small. -/
theorem verify_eq_error
    (hc : Spoils d pool.pages pool'.pages .none .none 0 (KeyOrder.top d.width) (rootLeast h) t
      key q t')
    (ht : tree.Stands pool gs d t) (hs : pool'.Sound gs) (hroom : Room gs 1) :
    ∃ pool'', tree.verify pool' = .error (.refused (.tree (.broken q .leafLeast))) pool'' := by
  have hnd := ht.has.nodup
  rw [← hc.pages] at hnd
  obtain ⟨pool'', hrun⟩ := Tree.surveyBelow_eq_error ht.follows hroom ht.height_lt
    (v := ⟨tree.root, .none, none, none, 1⟩) (s := {})
    ⟨ht.root.trans hc.page.symm,
      ⟨hs, hc.stored, hnd, fun g hg hin => ht.has.apart g hg (hc.pages ▸ hin)⟩,
      hc.within, ⟨nofun, nofun⟩, hc.short.most⟩ hc.short nofun
  refine ⟨pool'', ?_⟩
  rw [Tree.verify, if_neg ht.not_isEmpty, Action.bind_of_error hrun]

end Spoils

/-- **An entry is lost** between two states of an index: nobody finds it any more, the other entries
are where they were, and verifying finds a leaf with too few entries. -/
structure Index.Loses (x : Index n m) (key : Key) (y : Index n m) : Prop where
  tree : y.tree = x.tree
  members : y.pool.members = x.pool.members
  entries : ∃ pre row post,
    Action.outcome (x.tree.entries x.pool) = .ok (pre ++ (key, row) :: post) ∧
    Action.outcome (y.tree.entries y.pool) = .ok (pre ++ post) ∧
    Action.outcome (x.tree.get? key x.pool) = .ok (some row)
  gone : Action.outcome (y.tree.get? key y.pool) = .ok none
  others : ∀ k, k ≠ key →
    Action.outcome (y.tree.get? k y.pool) = Action.outcome (x.tree.get? k x.pool)
  verify : ∃ count q, Action.outcome (x.tree.verify x.pool) = .ok count ∧
    Action.outcome (y.tree.verify y.pool) = .error (.refused (.tree (.broken q .leafLeast)))

/-- An entry is lost between two states that list the same entries but for it. -/
theorem Index.loses_of_lists {pre post : List (Key × RowId)} {row : RowId} {o : KeyOrder}
    {count : Nat} (htree : y.tree = x.tree) (hmembers : y.pool.members = x.pool.members)
    (hkey : key.length = x.tree.keySize) (hf : Flanks o key row E pre post)
    (hx : x.tree.Lists x.pool E) (hy : y.tree.Lists y.pool (pre ++ post))
    (hverify : ∃ pool, x.tree.verify x.pool = .ok count pool)
    (hverify' : ∃ pool,
      y.tree.verify y.pool = .error (.refused (.tree (.broken q .leafLeast))) pool) :
    x.Loses key y := by
  obtain ⟨pool, hentries⟩ := hx.entries
  obtain ⟨pool', hentries'⟩ := hy.entries
  obtain ⟨found, pool₁, hget, hfound⟩ := hx.get? key hkey
  obtain ⟨found', pool₁', hget', hfound'⟩ := hy.get? key (htree ▸ hkey)
  obtain rfl : found = some row := (hfound row).2 (by rw [hf.cut]; simp)
  obtain rfl : found' = none := Option.eq_none_iff_forall_ne_some.2 fun r hr =>
    not_mem_of_place hf.below hf.above r ((hfound' r).1 hr)
  obtain ⟨pool₂, hverify⟩ := hverify
  obtain ⟨pool₂', hverify'⟩ := hverify'
  refine ⟨htree, hmembers, ⟨pre, row, post, ?_, ?_, ?_⟩, ?_, fun k hk => ?_, count, q, ?_, ?_⟩
  · rw [hentries, hf.cut]
    rfl
  · rw [hentries']
    rfl
  · rw [hget]
    rfl
  · rw [hget']
    rfl
  · by_cases hwidth : k.length = x.tree.keySize
    · obtain ⟨found, pool₃, hrun, hfound⟩ := hx.get? k hwidth
      obtain ⟨found', pool₃', hrun', hfound'⟩ := hy.get? k (htree ▸ hwidth)
      obtain rfl : found' = found := Option.ext fun r => by
        rw [hfound, hfound', hf.cut]
        simp [hk]
      rw [hrun, hrun']
      rfl
    · rw [htree, Tree.get?_of_width hwidth, Tree.get?_of_width hwidth]
      rfl
  · rw [hverify]
    rfl
  · rw [hverify']
    rfl

/-! ## The whole tree -/

namespace Index

/-- **A removal that failed** never got to the root, or the entry of the key is lost. -/
theorem Keeps.of_remove_error (hx : x.Keeps gs E) (hrun : remove key x = .error e y) :
    (x.Agrees y ∧ (key.length ≠ x.tree.keySize ∨ ¬Room gs 1)) ∨
      (e = .refused .poolFull ∧ Room gs 1 ∧ ¬Room gs 3 ∧ x.Loses key y) := by
  by_cases hkey : key.length = x.tree.keySize
  swap
  · rw [remove_of_width hkey] at hrun
    cases hrun
    exact .inl ⟨hx.agrees hx.sound rfl rfl, .inl hkey⟩
  have hroom : ¬Room gs 3 := by
    have hends := remove_ends hx hkey
    rw [hrun] at hends
    exact hends
  rcases hx.shape with ⟨hroot, -⟩ | ⟨d, h, t, ht, rfl⟩
  · rw [remove_of_empty hkey hroot] at hrun
    cases hrun
  rw [remove_of_root hkey ht.not_isEmpty] at hrun
  by_cases hone : Room gs 1
  swap
  · obtain ⟨pool', hfetch, hs, hpages⟩ :
        ∃ pool', x.tree.removeBelow key Tree.descentBound x.tree.root x.pool =
          .error (.refused .poolFull) pool' ∧ pool'.Sound gs ∧ pool'.pages = x.pool.pages := by
      rw [Tree.descentBound, Tree.removeBelow]
      exact Tree.fetch_bind_eq_error hx.sound ht.root_allocated ht.root_free hone .write
    rw [Action.bind_of_error (onPool_eq_error hfetch)] at hrun
    cases hrun
    exact .inl ⟨hx.agrees hs rfl hpages, .inr hone⟩
  have hwidth := hkey.trans ht.follows.width
  have hbelow := Tree.removeBelow_ends ht.follows hwidth ht.height_lt ht.has ht.within ht.sized
    (ht.follows.fits.rootLeast_le h) two_le_rootLeast (Nat.zero_le _) (ht.rank_lt hkey)
  have hspoils := Tree.removeBelow_spoils ht.follows hone hroom hwidth ht.height_lt ht.has ht.within
    ht.sized two_le_rootLeast (Nat.zero_le _) (ht.rank_lt hkey)
  rw [ht.root] at hrun
  cases hdone : x.tree.removeBelow key Tree.descentBound t.page x.pool with
  | error e' pool' =>
    rw [hdone] at hspoils
    rw [Action.bind_of_error (onPool_eq_error hdone)] at hrun
    cases hrun
    obtain ⟨he, hs, q, t', hc⟩ := hspoils
    obtain ⟨pre, row, post, hf, hentries⟩ := hc.entries
    have hunwritten : Unwritten gs t'.pages := by
      rw [hc.pages]
      exact ht.unwritten
    have hlists := (hc.readable ht).lists hs hunwritten hone
    rw [hentries] at hlists
    exact .inr ⟨he, hone, hroom,
      loses_of_lists rfl (hc.members_eq ht.has hs) hkey hf (hx.lists hone)
      hlists (hx.verify_eq_ok hone) (hc.verify_eq_error ht hs hone)⟩
  | ok done pool' =>
    -- the rest needs one frame at a time
    rw [hdone] at hbelow
    rw [Action.bind_of_ok (onPool_eq_ok hdone)] at hrun
    obtain ⟨hs, ⟨rfl, -⟩ | ⟨_, _, _, _, l, -, -, -, rfl, -, htrades, hhoused⟩⟩ := hbelow
    · cases hrun
    · obtain ⟨z, -, hshrink, -⟩ := shrinkRoot_eq_ok (x := ⟨x.tree, pool'⟩)
        x.tree.maintains_true trivial hx.accepted hx.unrecorded ht.follows hone hs ht
        htrades hhoused
      rw [removeAbove, Action.bind_of_ok hshrink] at hrun
      cases hrun

/-- **A removal from a leaf without an entry to spare** fails when the guards leave one frame or
two, and the leaf is not the root. -/
theorem remove_tight {d : TreePlan} {t : Shape (h + 1)} (ht : x.tree.Stands x.pool gs d t)
    (hone : Room gs 1) (hroom : ¬Room gs 3) (hkey : key.length = x.tree.keySize)
    (htight : t.Tight d key) : ∃ e y, remove key x = .error e y := by
  have hbelow := Tree.removeBelow_tight ht.follows hone hroom (hkey.trans ht.follows.width)
    ht.height_lt ht.has ht.within ht.sized two_le_rootLeast (Nat.zero_le _) (ht.rank_lt hkey) htight
  cases hrun : x.tree.removeBelow key Tree.descentBound t.page x.pool with
  | ok done pool =>
    rw [hrun] at hbelow
    exact absurd hbelow.1 (Nat.succ_ne_zero h)
  | error e pool =>
    rw [remove_of_root hkey ht.not_isEmpty, ht.root, Action.bind_of_error (onPool_eq_error hrun)]
    exact ⟨e, _, rfl⟩

/-- **A removal that fails may have lost its entry.** On a new file, after any use of the pool,
whatever settings the pool and the space are opened with: after any calls on a new tree that
returned, a removal that fails for the width of its key, or because the guards leave no frame at
all, leaves all that can be seen of the index as it was. The guards may also leave one frame or two,
which is too few to repair a leaf. A removal that fails for that has taken the entry out all the
same: it is gone, the others are there, and the tree is no longer well formed. -/
theorem remove_fails {config : PoolConfig} {disk : SpaceConfig} (hconfig : config.validate = .ok ())
    (hdisk : disk.validate = .ok ()) {v : Volume} (hv : v.openFile = .ok {}) (uses : List PoolCall)
    {order : KeyOrder} {keySize : Nat} {limits : TreeConfig} {tree : Tree}
    (htree : Tree.create order keySize limits = .ok tree) (calls : List TreeCall) :
    ∃ o, OpenPool.start config disk v = .ok o ∧
      ∀ replies x, calls.mapM TreeCall.run ⟨tree, (o.after uses).pool⟩ = .ok replies x →
        ∀ key e y, remove key x = .error e y →
          (x.Agrees y ∧ (key.length ≠ x.tree.keySize ∨ ¬Room (o.after uses).guards 1)) ∨
            (e = .refused .poolFull ∧ Room (o.after uses).guards 1 ∧ ¬Room (o.after uses).guards 3 ∧
              x.Loses key y) := by
  obtain ⟨o, hstart, -, h⟩ := OpenPool.start_fresh hconfig hdisk hv
  refine ⟨o, hstart, fun replies x hcalls key e y hrun => ?_⟩
  obtain ⟨E, hx, -⟩ :=
    (reflects_empty (OpenPool.sound_after h uses) htree).of_runs calls hcalls
  exact hx.of_remove_error hrun

/-- A pool with two frames, and a tree with two leaves, each with as few entries as it needs. A
removal takes one of the entries out, and no frame is left for the repair. -/
theorem remove_fails_one : ∃ o tree replies x y,
    OpenPool.start ⟨2, .lru⟩ ⟨1⟩ .missing = .ok o ∧
    Tree.create .bytewise 1 ⟨some 3, some 3⟩ = .ok tree ∧
    (tens.map fun e => TreeCall.map (.insert e.1 e.2)).mapM TreeCall.run ⟨tree, o.pool⟩ =
      .ok replies x ∧
    remove [10] x = .error (.refused .poolFull) y ∧ x.Loses [10] y := by
  obtain ⟨o, tree, x, hstart, hcreate, -, -, hedits, -, hlimits, hkeySize, l, E, hx⟩ := exists_tens
  have hone : Room o.guards 1 := OpenPool.room_fresh rfl rfl rfl hstart (Nat.le_succ 1)
  have hthree : ¬Room o.guards 3 := by
    rw [OpenPool.room_fresh_iff rfl rfl rfl hstart]
    decide
  obtain ⟨replies, hcalls⟩ := TreeEdit.exists_replies hedits
  obtain ⟨o', hstart', h⟩ := @remove_fails ⟨2, .lru⟩ ⟨1⟩ rfl rfl .missing rfl [] .bytewise 1
    ⟨some 3, some 3⟩ tree hcreate (tens.map fun e => .map (.insert e.1 e.2))
  obtain rfl : o = o' := Except.ok.inj (hstart.symm.trans hstart')
  have hkey : ([10] : Key).length = x.tree.keySize := hkeySize.symm
  obtain ⟨e, y, hrun⟩ : ∃ e y, remove [10] x = .error e y := by
    have hmem : ([10], ⟨⟨5⟩, 1⟩) ∈ E := (hx.shows _ _).1 (by decide)
    rcases hx.occupies.shape with ⟨-, rfl, -⟩ | ⟨d, h, t, ht, rfl, -, hd⟩
    · cases hmem
    · have hlength : t.entries.length = 4 := Shows.length_eq hx.shows ht.readable.sorted
      have hlog := ht.isLogarithmic hd
      rw [hlength, hlimits] at hlog
      obtain rfl : h = 1 := Nat.succ.inj (hlog.eq_two (by decide) (by decide))
      have hmin : d.min 0 = 2 := by
        rw [TreePlan.min, hd 0 (Nat.zero_le 1), hlimits]
        rfl
      exact remove_tight ht hone hthree hkey
        (ht.sized.tight (List.mem_map_of_mem hmem) (by rw [hlength, hmin]))
  obtain ⟨-, hwidth | hfull⟩ | ⟨rfl, -, -, hloses⟩ := h replies x hcalls [10] e y hrun
  · exact absurd hkey hwidth
  · exact absurd hone hfull
  · exact ⟨o, tree, replies, x, y, hstart, hcreate, hcalls, hrun, hloses⟩

end Index

end PageStore
