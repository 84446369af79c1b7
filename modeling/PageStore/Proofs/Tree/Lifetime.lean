import PageStore.Proofs.Tree.Whole
import PageStore.Tree.Destroy

/-!
# The lifetime of a tree

`Index.destroy` gives all pages of a tree back and touches no others, and a tree whose root is known
can be attached again with other limits. Both leave what `Index.Keeps` says: limits are for nodes to
come, and nodes that are there keep their own.
-/

namespace PageStore

open Pool

variable {n m : Nat} {d : TreePlan} {P : PageMap} {h least : Nat} {p parent next : PageId}
  {pool : Pool n m} {gs : List (Guard n)} {tree : Tree} {E : List (Key × RowId)} {x : Index n m}

/-! ## Freeing a tree -/

theorem Tree.childPages_leaf {page : Page} (hk : NodeHeader.kind page = .ok .leaf) :
    Tree.childPages page = .ok [] := by
  rw [Tree.childPages, hk]
  rfl

theorem Tree.childPages_internal {node : Internal} {hd : Header} {l : Items (h + 1)}
    (hk : NodeHeader.kind node.page = .ok .internal)
    (hblock : Node.ofBlock .internal node.page = .ok node) (hn : node.Holds hd l.records) :
    Tree.childPages node.page = .ok (l.map fun i => i.2.page) := by
  have hall : Internal.children node = .ok (l.records.map Prod.snd) := Internal.children_eq_ok hn
  rw [Tree.childPages, hk, ok_bind]
  dsimp only
  rw [hblock, ok_bind, hall, Items.records, List.map_map]
  rfl

/-- Freeing a page behind the pages below it. -/
theorem Tree.freePage_below {P₀ : PageMap} {l : List PageId} (hs : pool.Sound gs)
    (ht : Trades P₀ pool.pages l []) (hp : P₀ p ≠ none) (hnd : (p :: l).Nodup)
    (hfree : ∀ g ∈ gs, g.page ≠ p) : ∃ pool', Tree.freePage p pool = .ok () pool' ∧
      pool'.Sound gs ∧ Trades P₀ pool'.pages (p :: l) [] := by
  obtain ⟨page, hpage⟩ := Option.ne_none_iff_exists'.1 hp
  have hkept := (ht.kept (List.nodup_cons.1 hnd).1 hp).2
  obtain ⟨pool', hrun, hs', hpages⟩ := Tree.freePage_eq_ok hs (hkept.trans hpage) hfree
  refine ⟨pool', hrun, hs', ?_⟩
  have hbelow : Trades P₀ pool.pages ([p] ++ l ++ []) ([p] ++ [] ++ []) := ht.frame [p] []
  rw [List.append_nil] at hbelow
  exact hbelow.trans (hpages ▸ Trades.free pool.pages p [])

/-- **Freeing every subtree of a row.** -/
theorem Tree.freeRow_eq_ok {fuel : Nat}
    (hone : ∀ {pool : Pool n m} {next : PageId} {t : Shape h}, pool.Has gs d parent next t →
      t.Sized d (d.min h) → ∃ pool', Tree.freeBelow fuel t.page pool = .ok () pool' ∧
        pool'.Sound gs ∧ Trades pool.pages pool'.pages t.pages [])
    {l : Items (h + 1)} (hs : pool.Sound gs) (hl : Linked d pool.pages parent next l)
    (hf : Filled d l) (hnd : l.pages.Nodup) (hap : ∀ g ∈ gs, g.page ∉ l.pages) :
    ∃ pool', (l.map fun i => i.2.page).forM (Tree.freeBelow fuel) pool = .ok () pool' ∧
      pool'.Sound gs ∧ Trades pool.pages pool'.pages l.pages [] := by
  induction l generalizing pool with
  | nil => exact ⟨pool, rfl, hs, .refl _ _⟩
  | cons i l ih =>
    obtain ⟨hstored, hlinked⟩ := linked_cons.1 hl
    obtain ⟨hsized, hfl⟩ := filled_cons.1 hf
    rw [Items.pages_cons] at hnd hap ⊢
    obtain ⟨hndi, hndl, hdisj⟩ := List.nodup_append.1 hnd
    obtain ⟨pool₁, hrun₁, hs₁, ht₁⟩ := hone (t := i.2)
      ⟨hs, hstored, hndi, fun g hg hin => hap g hg (List.mem_append_left _ hin)⟩ hsized
    have hkept : ∀ q ∈ Items.pages l, pool₁.pages q = pool.pages q := fun q hq =>
      ht₁.others q (fun hin => hdisj q hin q hq rfl) List.not_mem_nil
    obtain ⟨pool₂, hrun₂, hs₂, ht₂⟩ := ih hs₁ (hlinked.congr hkept) hfl hndl
      fun g hg hin => hap g hg (List.mem_append_right _ hin)
    refine ⟨pool₂, (Action.bind_of_ok hrun₁).trans hrun₂, hs₂, ?_⟩
    have hfirst : Trades pool.pages pool₁.pages ([] ++ i.2.pages ++ Items.pages l)
        ([] ++ [] ++ Items.pages l) := ht₁.frame [] _
    exact hfirst.trans ht₂

/-- **Freeing a subtree** frees its pages, and no others. -/
theorem Tree.freeBelow_eq_ok (hd : d.Fits) (hroom : Room gs 1) {t : Shape h} {fuel : Nat}
    (hfuel : h < fuel) (hh : pool.Has gs d parent next t) (hsize : t.Sized d least) :
    ∃ pool', Tree.freeBelow fuel t.page pool = .ok () pool' ∧ pool'.Sound gs ∧
      Trades pool.pages pool'.pages t.pages [] := by
  induction h generalizing pool parent next fuel least with
  | zero =>
    match fuel, hfuel with
    | fuel + 1, _ =>
    obtain ⟨node, hpage, -, hkind, -⟩ :=
      hh.stored.node.exists_leaf hd (Nat.le_succ_of_le hsize.most)
    obtain ⟨pool₁, hview, hs₁, hpages₁⟩ :=
      Tree.view_eq_ok hh.sound hpage (Tree.childPages_leaf hkind) hh.free hroom
    obtain ⟨pool₂, hrun, hs₂, ht₂⟩ :=
      Tree.freePage_below hs₁ (hpages₁ ▸ Trades.refl _ []) hh.allocated
      hh.nodup hh.free
    refine ⟨pool₂, ?_, hs₂, ht₂⟩
    rw [Tree.freeBelow, Action.bind_of_ok hview]
    exact hrun
  | succ h ih =>
    match fuel, hfuel with
    | fuel + 1, hfuel =>
    obtain ⟨node, hpage, hholds, hkind, hblock⟩ :=
      hh.stored.node.exists_internal hd (Nat.le_succ_of_le hsize.most)
    obtain ⟨pool₁, hview, hs₁, hpages₁⟩ :=
      Tree.view_eq_ok hh.sound hpage (Tree.childPages_internal hkind hblock hholds) hh.free hroom
    have hh₁ := hh.of_pages hs₁ hpages₁
    obtain ⟨pool₂, hrow, hs₂, ht₂⟩ := Tree.freeRow_eq_ok
      (fun hh hsize => ih (Nat.lt_of_succ_lt_succ hfuel) hh hsize) hs₁ hh₁.stored.linked hsize.below
      (List.nodup_cons.1 hh.nodup).2 fun g hg hin => hh.apart g hg (.tail _ hin)
    obtain ⟨pool₃, hrun, hs₃, ht₃⟩ := Tree.freePage_below hs₂ ht₂ hh₁.allocated hh.nodup hh.free
    refine ⟨pool₃, ?_, hs₃, hpages₁ ▸ ht₃⟩
    rw [Tree.freeBelow, Action.bind_of_ok hview, Action.bind_of_ok hrow]
    exact hrun

/-- **Destroying a tree** gives all of its pages back. -/
theorem Index.Occupies.destroy_ends {old : List PageId} (hx : x.Occupies gs old E)
    (hnone : x.tree.registration = none) :
    Ends (Index.Stops (Crowded gs 1)) (fun _ y => y.tree = { x.tree with root := .none } ∧
      y.Occupies gs [] [] ∧ Trades x.pool.pages y.pool.pages old []) (Index.destroy x) := by
  have hclear : ∀ pool : Pool n m, pool.Sound gs →
      Index.Occupies ⟨{ x.tree with root := .none }, pool⟩ gs [] [] := fun pool hs =>
    ⟨hs, hx.accepted.withRoot _, .inl ⟨rfl, rfl, rfl⟩⟩
  rcases hx.shape with ⟨hroot, rfl, rfl⟩ | ⟨d, h, t, ht, rfl, rfl⟩
  · have hempty : ¬(!x.tree.isEmpty) = true := by
      rw [Tree.isEmpty_iff.2 hroot]
      decide
    have hrun : Index.destroy x = .ok () ⟨{ x.tree with root := .none }, x.pool⟩ := by
      rw [Index.destroy, Action.get_bind, if_neg hempty]
      dsimp only
      rw [Action.modify_bind, hnone]
      rfl
    exact .of_eq_ok hrun ⟨rfl, hclear _ hx.sound, .refl _ _⟩
  have hempty : (!x.tree.isEmpty) = true := by
    rw [Bool.eq_false_iff.2 ht.not_isEmpty]
    rfl
  by_cases hroom : Room gs 1
  · obtain ⟨pool', hfree, hs, htrades⟩ :=
      Tree.freeBelow_eq_ok ht.follows.fits hroom ht.height_lt ht.has ht.sized
    rw [← ht.root] at hfree
    have hrun : Index.destroy x = .ok () ⟨{ x.tree with root := .none }, pool'⟩ := by
      rw [Index.destroy, Action.get_bind, if_pos hempty,
        Action.bind_of_ok (Index.onPool_eq_ok hfree)]
      dsimp only
      rw [Action.modify_bind, hnone]
      rfl
    exact .of_eq_ok hrun ⟨rfl, hclear _ hs, htrades⟩
  · have hfree : ∃ pool', Tree.freeBelow Tree.descentBound x.tree.root x.pool =
        .error (.refused .poolFull) pool' := by
      obtain ⟨pool', hview, -⟩ :=
        Tree.fetch_bind_eq_error hx.sound ht.root_allocated ht.root_free hroom .read
      rw [Tree.descentBound, Tree.freeBelow]
      exact ⟨pool', Action.bind_of_error hview⟩
    obtain ⟨pool', hrun⟩ := hfree
    rw [Index.destroy, Action.get_bind, if_pos hempty]
    exact .of_eq_error (Action.bind_of_error (Index.onPool_eq_error hrun)) hroom

/-- A tree that was destroyed has no entries. -/
theorem Index.Keeps.destroy_ends (hx : x.Keeps gs E) :
    Ends (Stops (Crowded gs 1)) (fun _ y => y.tree = { x.tree with root := .none } ∧ y.Keeps gs [])
      (Index.destroy x) := by
  obtain ⟨old, hold⟩ := hx.occupies
  refine (hold.destroy_ends hx.unrecorded).mono fun _ y hy => ?_
  exact ⟨hy.1, hy.2.1.keeps (hy.1 ▸ hx.unrecorded)⟩

/-! ## Attaching a tree -/

/-- A node says how wide the keys of the tree are. -/
theorem NodeAt.keySizeOf_eq_ok {l : Items h} (hn : NodeAt d P p parent next l) (hd : d.Fits)
    (hlen : l.length ≤ d.max h) :
    ∃ page, P p = some page ∧ Tree.keySizeOf page = .ok d.width := by
  cases h with
  | zero =>
    obtain ⟨node, hpage, hholds, hkind, hblock⟩ := hn.exists_leaf hd (Nat.le_succ_of_le hlen)
    refine ⟨node.page, hpage, ?_⟩
    rw [Tree.keySizeOf, hkind, ok_bind]
    dsimp only
    rw [hblock, ok_bind, hholds.states.keySize]
    rfl
  | succ h =>
    obtain ⟨node, hpage, hholds, hkind, hblock⟩ := hn.exists_internal hd (Nat.le_succ_of_le hlen)
    refine ⟨node.page, hpage, ?_⟩
    rw [Tree.keySizeOf, hkind, ok_bind]
    dsimp only
    rw [hblock, ok_bind, hholds.states.keySize]
    rfl

/-- The root of a tree is a node of the tree's keys. -/
theorem Tree.Stands.checkRoot_ends {t : Shape h} (ht : tree.Stands pool gs d t) :
    Ends (Crowded gs 1) (fun _ pool' => pool'.Sound gs ∧ pool'.pages = pool.pages)
      (tree.checkRoot pool) := by
  have hsome : tree.root.isSome = true := by
    rw [ht.root]
    exact PageId.isSome_iff.2 ht.has.page_ne_none
  rw [Tree.checkRoot, if_pos hsome]
  by_cases hroom : Room gs 1
  · obtain ⟨page, hpage, hwidth⟩ := ht.has.stored.node.keySizeOf_eq_ok ht.follows.fits ht.sized.most
    obtain ⟨pool', hview, hs, hpages⟩ := Tree.view_eq_ok ht.has.sound hpage hwidth ht.has.free hroom
    rw [← ht.root] at hview
    rw [Action.bind_of_ok hview, if_neg (not_not.2 ht.follows.width.symm)]
    exact ⟨hs, hpages⟩
  · obtain ⟨pool', hview, -⟩ :=
      Tree.fetch_bind_eq_error ht.has.sound ht.root_allocated ht.root_free hroom .read
    exact .of_eq_error (Action.bind_of_error hview) hroom

/-- **Attaching a tree** under other limits, with keys of the same order and width, changes nothing
but the limits. -/
theorem Index.Keeps.attach_ends (hx : x.Keeps gs E) {config : TreeConfig}
    (hc : Tree.create x.tree.order x.tree.keySize config = .ok tree) :
    Ends (Crowded gs 1) (fun tree' pool => tree' = { tree with root := x.tree.root } ∧
      Index.Keeps ⟨tree', pool⟩ gs E)
      (Tree.attach x.tree.order x.tree.keySize config x.tree.root x.pool) := by
  obtain ⟨haccepted, -, horder, hwidth, hnone⟩ := Tree.accepted_of_create hc
  let tree' : Tree := { tree with root := x.tree.root }
  have haccepted' : tree'.Accepted := haccepted.withRoot _
  rw [Tree.attach, Action.bind_of_ok (Action.check_ok hc x.pool)]
  rcases hx.shape with ⟨hroot, rfl⟩ | ⟨d, h, t, ht, rfl⟩
  · have hempty : ¬tree'.root.isSome = true := by
      rw [hroot]
      decide
    have hcheck : tree'.checkRoot x.pool = .ok () x.pool := by
      rw [Tree.checkRoot, if_neg hempty]
      rfl
    refine .of_eq_ok (Action.bind_of_ok hcheck) ⟨rfl, hx.sound, haccepted', hnone,
      .inl ⟨hroot, rfl⟩⟩
  · have ht' : tree'.Stands x.pool gs d t :=
      ⟨⟨horder.trans ht.follows.order, hwidth.trans ht.follows.width, ht.follows.fits⟩, ht.root,
        ht.has, ht.within, ht.sized⟩
    refine Ends.bind ht'.checkRoot_ends fun _ pool ⟨hs, hpages⟩ => ?_
    exact ⟨rfl, hs, haccepted', hnone, .inr ⟨d, h, t, ht'.of_pages hs hpages, rfl⟩⟩

end PageStore
