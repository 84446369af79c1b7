import PageStore.Proofs.Tree.Descent
import PageStore.Tree.Remove

/-!
# Repairing two neighbours

Two children of a node, one of which has too few items, are joined or share their items: `Mends`.
The three pages are changed while all three are guarded, and what is left for later is to free the
page that was emptied and to tell the children that moved. `rebalance_eq` is about all of it.
-/

namespace PageStore

open Pool

variable {n m : Nat} {d : TreePlan} {P P' : PageMap} {h : Nat} {p parent next : PageId}
  {lo hi : Nat} {pool : Pool n m} {gs : List (Guard n)} {middle : Key} {short : Bool}

/-! ## Two nodes at a height -/

/-- The children that items lead to; rows are none. -/
def Items.children : {h : Nat} → Items h → List PageId
  | 0, _ => []
  | _ + 1, l => l.map fun i => i.2.page

theorem Items.children_subset {l : Items h} : l.children ⊆ l.pages := by
  cases h with
  | zero => exact List.nil_subset _
  | succ h =>
    intro q hq
    obtain ⟨i, hi, rfl⟩ := List.mem_map.1 hq
    exact Items.page_mem_pages hi

theorem Items.children_append (l l' : Items h) :
    (l ++ l').children = l.children ++ l'.children := by
  cases h with
  | zero => rfl
  | succ h => exact List.map_append

@[simp] theorem Items.children_rejoin (key : Key) (l : Items h) :
    (l.rejoin key).children = l.children := by
  cases h with
  | zero => rfl
  | succ h => cases l <;> rfl

/-- Repairs two neighbouring nodes at a height. -/
def repairAt : (h : Nat) → Node (levelKind h) → Node (levelKind h) → Key → Bool →
    Except Halt (Repair (levelKind h))
  | 0, left, right, _, short => Leaf.repair left right short
  | _ + 1, left, right, middle, short => Internal.repair left right middle short

theorem Items.records_rejoin (key : Key) (l : Items (h + 1)) :
    (l.rejoin key).records = rekey key l.records := by
  cases l with
  | nil => rfl
  | cons i l => rfl

theorem Share.of_map {α β : Type} {f : α → β} {l r : List α} {L R : List β}
    (hs : Share short (l.map f) (r.map f) L R) :
    ∃ l' r', Share short l r l' r' ∧ L = l'.map f ∧ R = r'.map f := by
  generalize hl : l.map f = l₀ at hs
  generalize hr : r.map f = r₀ at hs
  cases hs with
  | first _ x _ =>
    obtain ⟨y, r', rfl, rfl, rfl⟩ := List.map_eq_cons_iff.1 hr
    exact ⟨l ++ [y], r', .first l y r', by rw [List.map_append, hl]; rfl, rfl⟩
  | last _ x _ =>
    obtain ⟨l', y, rfl, rfl, hy⟩ := List.map_eq_append_iff.1 hl
    obtain ⟨y, rfl, rfl⟩ := List.map_eq_singleton_iff.1 hy
    exact ⟨l', y :: r, .last l' y r, rfl, by rw [List.map_cons, hr]⟩

variable {left right : Node (levelKind h)} {p' next' : PageId} {l r : Items h}

/-- **Joining two nodes.** -/
theorem repairAt_join (hd : d.Fits) (hl : left.Holds (d.header h p parent next) l.records)
    (hr : right.Holds (d.header h p' parent next') r.records) (hfit : l.length + r.length ≤ d.max h)
    (hne : 0 < h → r ≠ []) (hkey : middle.length = d.width) (short : Bool) :
    ∃ out, repairAt h left right middle short = .ok out ∧ out.separator = none ∧
      out.toLeft = r.children ∧ out.toRight = [] ∧
      out.left.Holds (d.header h p parent next') (Items.records (l ++ r.rejoin middle)) := by
  have hw : left.keySize = d.width := hl.states.keySize
  have hroom : left.offset (l.records.length + r.records.length) ≤ pageSize := by
    refine left.offset_le_pageSize (by rw [hw]; exact (hd.capacity_pos h).2) ?_
    rw [hw, Items.length_records, Items.length_records]
    exact Nat.le_succ_of_le (Nat.le_trans hfit (hd.most h))
  have hfit' : l.records.length + r.records.length ≤ d.max h := by
    rwa [Items.length_records, Items.length_records]
  rw [Items.records_append]
  cases h with
  | zero =>
    obtain ⟨out, hrun, hsep, hto, hto', hleft⟩ := Leaf.repair_join hl hr rfl hfit' hroom short
    exact ⟨out, hrun, hsep, hto, hto', hleft⟩
  | succ h =>
    have hne' : r.records ≠ [] := fun e => hne (Nat.succ_pos h) (List.map_eq_nil_iff.1 e)
    obtain ⟨out, hrun, hsep, hto, hto', hleft⟩ :=
      Internal.repair_join hl hr rfl hfit' hroom hne' hkey short
    refine ⟨out, hrun, hsep, hto.trans List.map_map, hto', ?_⟩
    rw [Items.records_rejoin]
    exact hleft

/-- **Sharing between two nodes.** -/
theorem repairAt_share (hd : d.Fits) (hl : left.Holds (d.header h p parent next) l.records)
    (hr : right.Holds (d.header h p' parent next') r.records) (hbig : d.max h < l.length + r.length)
    (hlmost : l.length ≤ d.max h) (hrmost : r.length ≤ d.max h)
    (hgives : if short then 2 ≤ r.length else 1 ≤ l.length) (hne : 0 < h → r ≠ [])
    (hkey : middle.length = d.width) :
    ∃ out l' z r', repairAt h left right middle short = .ok out ∧
      Share short l (r.rejoin middle) l' (z :: r') ∧ out.separator = some z.1 ∧
      out.toLeft = Items.children (l'.drop l.length) ∧
      out.toRight = Items.children ((z :: r').take (r'.length + 1 - r.length)) ∧
      out.left.Holds (d.header h p parent next) (Items.records l') ∧
      out.right.Holds (d.header h p' parent next') (Items.records (z :: r')) := by
  have hroom : ∀ (node : Node (levelKind h)) (k : Nat), node.keySize = d.width → k ≤ d.max h →
      node.offset (k + 1) ≤ pageSize := fun node k hw hk => by
    refine node.offset_le_pageSize (by rw [hw]; exact (hd.capacity_pos h).2) ?_
    rw [hw]
    exact Nat.succ_le_succ (Nat.le_trans hk (hd.most h))
  have hroom₁ := hroom left l.records.length hl.states.keySize (by rwa [Items.length_records])
  have hroom₂ := hroom right r.records.length hr.states.keySize (by rwa [Items.length_records])
  have hbig' : d.max h < l.records.length + r.records.length := by
    rwa [Items.length_records, Items.length_records]
  have hgives' : if short then 2 ≤ r.records.length else 1 ≤ l.records.length := by
    rwa [Items.length_records, Items.length_records]
  cases h with
  | zero =>
    obtain ⟨out, l', z, r', hrun, hshare, hsep, hto, hto', hleft, hright⟩ :=
      Leaf.repair_share hl hr rfl hbig' hroom₁ hroom₂ hgives'
    rw [Items.records_zero, Items.records_zero] at hshare
    exact ⟨out, l', z, r', hrun, hshare, hsep, hto, hto', (Items.records_zero l').symm ▸ hleft,
      (Items.records_zero (z :: r')).symm ▸ hright⟩
  | succ h =>
    have hne' : r.records ≠ [] := fun e => hne (Nat.succ_pos h) (List.map_eq_nil_iff.1 e)
    obtain ⟨out, L, z, R, hrun, hshare, hsep, hto, hto', hleft, hright⟩ :=
      Internal.repair_share hl hr rfl hbig' hroom₁ hroom₂ hgives' hne' hkey
    rw [← Items.records_rejoin] at hshare
    obtain ⟨l', r', hshare', rfl, hR⟩ := hshare.of_map
    obtain ⟨z, r', rfl, rfl, rfl⟩ := List.map_eq_cons_iff.1 hR.symm
    refine ⟨out, l', z, r', hrun, hshare', hsep, ?_, ?_, hleft, hright⟩
    · rw [hto, Items.length_records, ← List.map_drop]
      exact List.map_map
    · rw [hto', Items.length_records, List.length_map, ← List.map_cons, ← List.map_take]
      exact List.map_map

/-! ## Three guarded pages -/

namespace Tree

variable {k : NodeKind} {g gp gl gr : Guard n} {s : Siblings}

/-- A node that is going to change. -/
theorem nodeToEdit_eq_ok {node : Node k} (hs : pool.Sound gs) (hg : g ∈ gs) (hw : g.mode = .write)
    (hp : pool.pages g.page = some node.page) (hblock : Node.ofBlock k node.page = .ok node) :
    ∃ pool', nodeToEdit k g pool = .ok node pool' ∧ pool'.Sound gs ∧ pool'.pages = pool.pages := by
  obtain ⟨hs', hpages, -⟩ := hs.mark hg hw
  have hbytes := hs'.bytes_of_pages hg (hpages ▸ hp)
  refine ⟨pool.mark g, ?_, hs', hpages⟩
  rw [nodeToEdit, Action.modify_bind, Action.get_bind, hbytes]
  exact Action.liftM_ok hblock _

/-- What is left to do after a repair. -/
def aftermath (s : Siblings) (parent : Internal) (out : Repair k) : Aftermath where
  emptied := if out.separator.isNone then some s.right else none
  moved := out.toLeft.map (·, s.left) ++ out.toRight.map (·, s.right)
  underflow := parent.size < parent.minSize

/-- The pages after a repair. -/
def mended (P : PageMap) (p : PageId) (s : Siblings) (parent : Internal) (out : Repair k) :
    PageMap :=
  Function.update (Function.update (Function.update P p (some parent.page)) s.left
    (some out.left.page)) s.right (some out.right.page)

section Mended

variable {parent' : Internal} {out : Repair k} {q : PageId}

theorem mended_parent (hl : p ≠ s.left) (hr : p ≠ s.right) :
    mended P p s parent' out p = some parent'.page := by
  rw [mended, Function.update_of_ne hr, Function.update_of_ne hl, Function.update_self]

theorem mended_left (hne : s.left ≠ s.right) :
    mended P p s parent' out s.left = some out.left.page := by
  rw [mended, Function.update_of_ne hne, Function.update_self]

theorem mended_right : mended P p s parent' out s.right = some out.right.page :=
  Function.update_self ..

theorem mended_other (hp : q ≠ p) (hl : q ≠ s.left) (hr : q ≠ s.right) :
    mended P p s parent' out q = P q := by
  rw [mended, Function.update_of_ne hr, Function.update_of_ne hl, Function.update_of_ne hp]

end Mended

/-- Repairing two guarded nodes under a guarded parent. -/
theorem settle_eq_ok {left right : Node k} {parent parent' : Internal} {out : Repair k}
    (repair : Node k → Node k → Except Halt (Repair k)) (hs : pool.Sound (gr :: gl :: gp :: gs))
    (hmode : gp.mode = .write ∧ gl.mode = .write ∧ gr.mode = .write)
    (hleft : gl.page = s.left) (hright : gr.page = s.right)
    (hpl : pool.pages gl.page = some left.page) (hpr : pool.pages gr.page = some right.page)
    (hbl : Node.ofBlock k left.page = .ok left) (hbr : Node.ofBlock k right.page = .ok right)
    (hout : repair left right = .ok out)
    (hafter : Internal.afterRepair parent s.index out.separator = .ok parent') :
    ∃ pool', (do
        let left ← nodeToEdit k gl
        let right ← nodeToEdit k gr
        settle gp gl gr s parent (← (repair left right : Except Halt (Repair k)))) pool =
        .ok (aftermath s parent' out) pool' ∧
      pool'.Sound (gr :: gl :: gp :: gs) ∧
      pool'.pages = mended pool.pages gp.page s parent' out := by
  have hgl : gl ∈ gr :: gl :: gp :: gs := .tail _ List.mem_cons_self
  have hgp : gp ∈ gr :: gl :: gp :: gs := .tail _ (.tail _ List.mem_cons_self)
  obtain ⟨pool₁, hrun₁, hs₁, hpages₁⟩ := nodeToEdit_eq_ok hs hgl hmode.2.1 hpl hbl
  obtain ⟨pool₂, hrun₂, hs₂, hpages₂⟩ :=
    nodeToEdit_eq_ok hs₁ List.mem_cons_self hmode.2.2 (hpages₁ ▸ hpr) hbr
  obtain ⟨hs₃, hpages₃⟩ := hs₂.put hgp hmode.1 parent'.page
  obtain ⟨hs₄, hpages₄⟩ := hs₃.put hgl hmode.2.1 out.left.page
  obtain ⟨hs₅, hpages₅⟩ := hs₄.put List.mem_cons_self hmode.2.2 out.right.page
  refine ⟨_, ?_, hs₅, ?_⟩
  · rw [Action.bind_of_ok hrun₁, Action.bind_of_ok hrun₂,
      Action.bind_of_ok (Action.liftM_ok hout _),
      settle, Action.bind_of_ok (Action.liftM_ok hafter _), Action.modify_bind, Action.modify_bind,
      Action.modify_bind]
    rfl
  · rw [hpages₅, hpages₄, hpages₃, hpages₂, hpages₁, hleft, hright]
    rfl

/-- **Repairing two children** of a guarded node. -/
theorem repairUnder_eq_ok {left right : Node (levelKind h)} {parent parent' : Internal}
    {out : Repair (levelKind h)} (hs : pool.Sound (gp :: gs)) (hmode : gp.mode = .write)
    (hroom : Room gs 3) (hpp : pool.pages gp.page = some parent.page)
    (hpl : pool.pages s.left = some left.page) (hpr : pool.pages s.right = some right.page)
    (hbp : Node.ofBlock .internal parent.page = .ok parent)
    (hkind : NodeHeader.kind left.page = .ok (levelKind h))
    (hbl : Node.ofBlock (levelKind h) left.page = .ok left)
    (hbr : Node.ofBlock (levelKind h) right.page = .ok right)
    (hfree : ∀ g ∈ gp :: gs, g.page ≠ s.left ∧ g.page ≠ s.right) (hne : s.left ≠ s.right)
    (hout : repairAt h left right s.middle short = .ok out)
    (hafter : Internal.afterRepair parent s.index out.separator = .ok parent') :
    ∃ pool', repairUnder gp s short pool = .ok (aftermath s parent' out) pool' ∧
      pool'.Sound (gp :: gs) ∧ pool'.pages = mended pool.pages gp.page s parent' out := by
  obtain ⟨gl, pool₁, hfetchl, hgl, hmodel, hs₁, hpages₁, hbytesl⟩ :=
    fetch_eq_ok hs hpl (fun g hg => (hfree g hg).1) ((hroom.cons gp).mono (Nat.le_succ 1)) .write
  have hfree₁ : ∀ g ∈ gl :: gp :: gs, g.page ≠ s.right :=
    List.forall_mem_cons.2 ⟨hgl ▸ hne, fun g hg => (hfree g hg).2⟩
  obtain ⟨gr, pool₂, hfetchr, hgr, hmoder, hs₂, hpages₂, -⟩ :=
    fetch_eq_ok hs₁ (hpages₁ ▸ hpr) hfree₁ ((hroom.cons gp).cons gl) .write
  have hgl₂ : gl ∈ gr :: gl :: gp :: gs := .tail _ List.mem_cons_self
  have hbytes : pool₂.bytes gl = left.page :=
    hs₂.bytes_of_pages hgl₂ (by rw [hpages₂, hpages₁, hgl, hpl])
  have hgp₂ : gp ∈ gr :: gl :: gp :: gs := .tail _ (.tail _ List.mem_cons_self)
  obtain ⟨pool₃, hrun₃, hs₃, hpages₃⟩ := nodeToEdit_eq_ok hs₂ hgp₂ hmode
    (by rw [hpages₂, hpages₁, hpp]) hbp
  have hsame : pool₃.pages = pool.pages := hpages₃.trans (hpages₂.trans hpages₁)
  rw [repairUnder, Action.bind_of_ok hfetchl]
  refine holding_eq_ok ?_
  rw [Action.bind_of_ok hfetchr]
  refine holding_eq_ok ?_
  rw [Action.get_bind, hbytes, Action.bind_of_ok (Action.liftM_ok hkind _), Action.bind_of_ok hrun₃,
    ← hsame]
  rw [← hsame] at hpl hpr
  have hsettle := settle_eq_ok (fun l r => repairAt h l r s.middle short) hs₃
    ⟨hmode, hmodel, hmoder⟩ hgl hgr (hgl ▸ hpl) (hgr ▸ hpr) hbl hbr hout hafter
  cases h with
  | zero => exact hsettle
  | succ h => exact hsettle

/-- The siblings of a child are read from their parent. -/
theorem siblings_eq_ok {parent : Internal} {hd : Header} {pre post : Items (h + 1)}
    {x y : Key × Shape h} (hn : parent.Holds hd (Items.records (pre ++ x :: y :: post)))
    (hblock : Node.ofBlock .internal parent.page = .ok parent) {childIndex : Nat}
    (hindex : childIndex - 1 = pre.length) (p : PageId) :
    Internal.siblings p childIndex parent.page =
      .ok ⟨pre.length, x.2.page, y.2.page, y.1⟩ := by
  have hcut : Items.records (pre ++ x :: y :: post) =
      Items.records pre ++ Items.record x :: Items.record y :: Items.records post :=
    Items.records_append
  have hsize : parent.size = pre.length + (post.length + 2) := by
    rw [hn.states.size, Items.length_records, List.length_append, List.length_cons,
      List.length_cons]
  have hx : (Items.records (pre ++ x :: y :: post))[pre.length]? = some (Items.record x) := by
    rw [hcut, ← Items.length_records (l := pre), List.getElem?_append_right (Nat.le_refl _),
      Nat.sub_self]
    rfl
  have hy : (Items.records (pre ++ x :: y :: post))[pre.length + 1]? = some (Items.record y) := by
    rw [hcut, ← Items.length_records (l := pre), List.getElem?_append_right (Nat.le_add_right ..),
      Nat.add_sub_cancel_left]
    rfl
  have hleft : Internal.child parent pre.length = .ok x.2.page := Internal.child_eq_ok hn hx
  have hright : Internal.child parent (pre.length + 1) = .ok y.2.page := Internal.child_eq_ok hn hy
  have hmiddle : parent.key (pre.length + 1) = .ok y.1 := hn.key_of_getElem? hy
  have hlarge : ¬parent.size < 2 := by omega
  simp only [Internal.siblings, hblock, ok_bind, if_neg hlarge, hindex, hleft, hright, hmiddle]
  rfl

/-- A parent gives up the second of two children. -/
theorem afterRepair_join {node : Internal} {hd : Header} {pre post : Items (h + 1)}
    {x y : Key × Shape h} (hn : node.Holds hd (Items.records (pre ++ x :: y :: post))) :
    ∃ node', Internal.afterRepair node pre.length none = .ok node' ∧
      node'.Holds hd (Items.records (pre ++ x :: post)) := by
  rw [List.append_cons, Items.records_append] at hn
  obtain ⟨node', hrun, hholds⟩ := hn.remove_eq_ok
  rw [Items.length_records, List.length_append] at hrun
  refine ⟨node', hrun, ?_⟩
  rw [List.append_cons, Items.records_append]
  exact hholds

/-- A parent gets another key between two children. -/
theorem afterRepair_share {node : Internal} {hd : Header} {pre post : Items (h + 1)}
    {x y : Key × Shape h} (hn : node.Holds hd (Items.records (pre ++ x :: y :: post))) {key : Key}
    (hkey : key.length = hd.width) :
    ∃ node', Internal.afterRepair node pre.length (some key) = .ok node' ∧
      node'.Holds hd (Items.records (pre ++ x :: (key, y.2) :: post)) := by
  rw [List.append_cons, Items.records_append] at hn
  obtain ⟨node', hrun, hholds⟩ := hn.setKey_eq_ok _ hkey
  rw [Items.length_records, List.length_append] at hrun
  refine ⟨node', hrun, ?_⟩
  rw [List.append_cons, Items.records_append]
  exact hholds

/-- What follows the repair of two children once the three pages are released. -/
def followUp (done : Aftermath) : Action (Pool n m) Bool := do
  match done.emptied with
  | some page => freePage page
  | none => pure ()
  done.moved.forM fun (child, parent) => setParent child parent
  return done.underflow

variable {pre post : Items (h + 1)} {x y : Key × Shape h}

/-- The first part of a rebalancing: the three pages are changed. -/
theorem rebalance_eq {left right : Node (levelKind h)} {parent parent' : Internal}
    {out : Repair (levelKind h)} {hd : Header} (hs : pool.Sound gs) (hroom : Room gs 3)
    (hholds : parent.Holds hd (Items.records (pre ++ x :: y :: post)))
    (hpp : pool.pages p = some parent.page) (hpl : pool.pages x.2.page = some left.page)
    (hpr : pool.pages y.2.page = some right.page)
    (hbp : Node.ofBlock .internal parent.page = .ok parent)
    (hkind : NodeHeader.kind left.page = .ok (levelKind h))
    (hbl : Node.ofBlock (levelKind h) left.page = .ok left)
    (hbr : Node.ofBlock (levelKind h) right.page = .ok right)
    (hfree : ∀ g ∈ gs, g.page ≠ p ∧ g.page ≠ x.2.page ∧ g.page ≠ y.2.page)
    (hpx : p ≠ x.2.page) (hpy : p ≠ y.2.page) (hxy : x.2.page ≠ y.2.page) {childIndex : Nat}
    (hindex : childIndex - 1 = pre.length)
    (hout : repairAt h left right y.1 (childIndex = 0) = .ok out)
    (hafter : Internal.afterRepair parent pre.length out.separator = .ok parent') :
    ∃ pool', rebalance p childIndex pool =
        followUp (aftermath ⟨pre.length, x.2.page, y.2.page, y.1⟩ parent' out) pool' ∧
      pool'.Sound gs ∧
      pool'.pages = mended pool.pages p ⟨pre.length, x.2.page, y.2.page, y.1⟩ parent' out := by
  obtain ⟨gp, pool₁, hfetch, rfl, hmode, hs₁, hpages₁, hbytes⟩ :=
    fetch_eq_ok hs hpp (fun g hg => (hfree g hg).1) (hroom.mono (by omega)) .write
  rw [← hpages₁] at hpp hpl hpr ⊢
  have hunder := repairUnder_eq_ok (s := ⟨pre.length, x.2.page, y.2.page, y.1⟩) hs₁ hmode hroom hpp
    hpl hpr hbp hkind hbl hbr
    (List.forall_mem_cons.2 ⟨⟨hpx, hpy⟩, fun g hg => (hfree g hg).2⟩) hxy hout hafter
  have hsiblings := siblings_eq_ok hholds hbp hindex gp.page
  have hguarded : (do
      let s ← Internal.siblings gp.page childIndex ((← get).bytes gp)
      repairUnder gp s (childIndex = 0) : Action (Pool n m) Aftermath) pool₁ =
      repairUnder gp ⟨pre.length, x.2.page, y.2.page, y.1⟩ (childIndex = 0) pool₁ := by
    rw [Action.get_bind, hbytes, Action.bind_of_ok (Action.liftM_ok hsiblings _)]
  rw [← hguarded] at hunder
  obtain ⟨pool₂, hrun, hs₂, hpages₂⟩ := holding_eq_ok hunder
  refine ⟨pool₂, ?_, hs₂, hpages₂⟩
  rw [rebalance, Action.bind_of_ok hfetch, Action.bind_of_ok hrun]
  rfl

end Tree

/-! ## Three frames -/

/-- A repair has three nodes under guards at once. -/
theorem Tree.room_of_repairUnder {g : Guard n} {siblings : Siblings} {leftShort : Bool}
    {out : Aftermath} {pool' : Pool n m} (hs : pool.Sound (g :: gs)) (hw : g.mode = .write)
    (hrun : Tree.repairUnder g siblings leftShort pool = .ok out pool') : Room gs 3 := by
  obtain ⟨gl, pool₁, hleft, hrun⟩ := Action.bind_eq_ok_iff.1 hrun
  obtain ⟨-, hwl, hs₁, -⟩ := Tree.of_fetch hs hleft
  obtain ⟨pool₂, hunder, -⟩ := of_holding hrun
  obtain ⟨gr, pool₃, hright, -⟩ := Action.bind_eq_ok_iff.1 hunder
  obtain ⟨-, hwr, hs₂, -⟩ := Tree.of_fetch hs₁ hright
  exact hs.room_of_write hw (hs₁.room_of_write hwl (hs₂.room_of_write hwr (.zero _)))

theorem Tree.room_of_rebalance {childIndex : Nat} {short : Bool} {pool' : Pool n m}
    (hs : pool.Sound gs)
    (hrun : Tree.rebalance p childIndex pool = .ok short pool') : Room gs 3 := by
  obtain ⟨g, pool₁, hfetch, hrun⟩ := Action.bind_eq_ok_iff.1 hrun
  obtain ⟨-, hw, hs₁, -⟩ := Tree.of_fetch hs hfetch
  obtain ⟨out, pool₂, hunder, -⟩ := Action.bind_eq_ok_iff.1 hrun
  obtain ⟨pool₃, hunder, -⟩ := of_holding hunder
  rw [Action.get_bind] at hunder
  obtain ⟨siblings, pool₄, hlook, hrepair⟩ := Action.bind_eq_ok_iff.1 hunder
  obtain ⟨-, rfl⟩ := Action.lift_eq_ok_iff.1 hlook
  exact Tree.room_of_repairUnder hs₁ hw hrepair

/-! ## What a repair comes to -/

variable {pre post : Items (h + 1)} {x y : Key × Shape h}

/-- Another parent for the children that changed nodes. -/
theorem Items.setParents_eq_ok {a : Items h} (hs : pool.Sound gs)
    (ha : Linked d pool.pages parent next a) (hnd : a.pages.Nodup)
    (hap : ∀ g ∈ gs, g.page ∉ a.pages) (hroom : Room gs 1) (q : PageId) :
    ∃ pool', ((a.children.map (·, q)).forM fun (child, parent) => Tree.setParent child parent :
        Action (Pool n m) Unit) pool = .ok () pool' ∧ pool'.Sound gs ∧
        Linked d pool'.pages q next a ∧
      ∀ p, p ∉ a.children → pool'.pages p = pool.pages p := by
  cases h with
  | zero => exact ⟨pool, rfl, hs, trivial, fun _ _ => rfl⟩
  | succ h =>
    obtain ⟨pool', hrun, hs', hlinked, hkept⟩ := Linked.setParents_eq_ok q hs ha hnd hap hroom
    refine ⟨pool', ?_, hs', hlinked, fun p hp => hkept p fun i hi e => hp ?_⟩
    · rw [← hrun]
      exact congrFun (List.forM_map (m := Action (Pool n m))) pool
    · exact List.mem_map.2 ⟨i, hi, e.symm⟩

/-- Two neighbouring children in page order. -/
theorem pages_window (p : PageId) (pre post : Items (h + 1)) (x y : Key × Shape h) :
    p :: Items.pages (pre ++ x :: y :: post) =
      (p :: Items.pages pre) ++ (x.2.pages ++ y.2.pages) ++ Items.pages post := by
  simp only [Items.pages_append, Items.pages_cons, List.cons_append, List.append_assoc]

/-- **Mending.** Two neighbours are replaced by one or two nodes of the same pages and range. -/
theorem Hangs.mend (P' : PageMap) (t : Shape h) (rest : Items (h + 1))
    (hh : Hangs d P p next lo hi (pre ++ x :: y :: post))
    (hother : ∀ q, q ∉ p :: (x.2.pages ++ y.2.pages) → P' q = P q)
    (hsub : ∀ q ∈ t.pages ++ rest.pages, q ∈ x.2.pages ++ y.2.pages)
    (hnd : (t.pages ++ rest.pages).Nodup)
    (hfreed : ∀ q ∈ x.2.pages ++ y.2.pages, q ∉ t.pages ++ rest.pages → P' q = none)
    (hlinked : Linked d P' p (post.head next) ((x.1, t) :: rest)) (hfirst : t.first = x.2.first)
    (hrange : ∀ a mid b, Within d.order a mid x.2 → d.order.rank y.1 = mid →
      Within d.order mid b y.2 → Spans d.order (Within d.order) a b ((x.1, t) :: rest)) :
    Hangs d P' p next lo hi (pre ++ (x.1, t) :: (rest ++ post)) ∧
      Trades P P' (p :: Items.pages (pre ++ x :: y :: post))
        (p :: Items.pages (pre ++ (x.1, t) :: (rest ++ post))) := by
  have hnew : p :: Items.pages (pre ++ (x.1, t) :: (rest ++ post)) =
      (p :: Items.pages pre) ++ (t.pages ++ rest.pages) ++ Items.pages post := by
    simp only [Items.pages_append, Items.pages_cons, List.cons_append, List.append_assoc]
  obtain ⟨hlink, hord, hall⟩ := hh
  have hmid : pre ++ x :: y :: post = pre ++ [x, y] ++ post := by rw [List.append_assoc]; rfl
  rw [pages_window] at hall
  obtain ⟨hleft, -, hapart⟩ := List.nodup_append.1 hall
  obtain ⟨hpre, -, hapart'⟩ := List.nodup_append.1 hleft
  obtain ⟨hout, -⟩ := List.nodup_cons.1 hpre
  refine ⟨⟨?_, ?_, ?_⟩, ?_⟩
  · -- a page outside the two children keeps its content: pages of the subtree are distinct
    rw [hmid] at hlink
    have := Linked.replace ((x.1, t) :: rest) hlink (fun q hq => hother q fun hin => ?_)
      hlinked hfirst
    · rwa [List.append_assoc] at this
    · rw [List.mem_cons] at hin
      rcases hq with hq | hq
      · rcases hin with rfl | hin
        · exact hout hq
        · exact hapart' q (.tail _ hq) q hin rfl
      · rcases hin with rfl | hin
        · exact hapart q (List.mem_append_left _ List.mem_cons_self) q hq rfl
        · exact hapart q (List.mem_append_right _ hin) q hq rfl
  · have hord' : Spans d.order (Within d.order) lo hi (pre ++ (x :: [y] ++ post)) := hord
    obtain ⟨a, b, hole, mid, hx, hkey, c, hy, rfl⟩ := hord'.focus
    exact hole.fill (i := (x.1, t)) (hrange a mid c hx hkey hy)
  · rw [hnew]
    refine List.nodup_append.2 ⟨List.nodup_append.2 ⟨hpre, hnd, fun a ha b hb => ?_⟩,
      (List.nodup_append.1 hall).2.1, fun a ha b hb => ?_⟩
    · exact hapart' a ha b (hsub b hb)
    · refine hapart a ?_ b hb
      exact (List.mem_append.1 ha).elim (List.mem_append_left _) fun hin =>
        List.mem_append_right _ (hsub a hin)
  · rw [pages_window, hnew]
    refine ⟨fun q hq _ => hother q fun hin => hq ?_, fun q hq hq' => absurd ?_ hq',
      fun q hq hq' => hfreed q ?_ fun hin => hq' ?_⟩
    · rcases List.mem_cons.1 hin with rfl | hin
      · simp
      · simp only [List.mem_append] at hin ⊢
        exact .inl (.inr hin)
    · simp only [List.mem_append] at hq hsub ⊢
      exact hq.imp_left fun hq => hq.imp_right (hsub q)
    · simp only [List.mem_append] at hq hq' ⊢
      exact (hq.resolve_right fun hin => hq' (.inr hin)).resolve_left fun hin =>
        hq' (.inl (.inl hin))
    · simp only [List.mem_append] at hin ⊢
      exact .inl (.inr hin)

/-- The children that change nodes are below the two. -/
theorem Share.moved_mem {l r l' r' : Items h} (hshare : Share short l r l' r') {q : PageId}
    (hq : q ∈ Items.children (l'.drop l.length) ++ Items.children
      (r'.take (r'.length - r.length))) :
    q ∈ l.pages ++ r.pages := by
  rw [← Items.pages_append, ← hshare.append_eq, Items.pages_append]
  rcases List.mem_append.1 hq with hq | hq
  · rw [← List.take_append_drop l.length l', Items.pages_append]
    exact List.mem_append_left _ (List.mem_append_right _ (Items.children_subset hq))
  · rw [← List.take_append_drop (r'.length - r.length) r', Items.pages_append]
    exact List.mem_append_right _ (List.mem_append_left _ (Items.children_subset hq))

/-- The children that an item brings along to another node. -/
theorem Share.setParents_eq_ok {l r l' r' : Items h} {q q' : PageId}
    (hshare : Share short l r l' r')
    (hs : pool.Sound gs) (hl : Linked d pool.pages q (r.head next) l)
    (hr : Linked d pool.pages q' next r) (hnd : (l.pages ++ r.pages).Nodup)
    (hap : ∀ g ∈ gs, g.page ∉ l.pages ++ r.pages) (hroom : Room gs 1) :
    ∃ pool', (((Items.children (l'.drop l.length)).map (·, q) ++
        (Items.children (r'.take (r'.length - r.length))).map (·, q')).forM
        fun (child, parent) => Tree.setParent child parent : Action (Pool n m) Unit) pool =
        .ok () pool' ∧ pool'.Sound gs ∧ Linked d pool'.pages q (r'.head next) l' ∧
      Linked d pool'.pages q' next r' ∧
      ∀ p, p ∉ Items.children (l'.drop l.length) ++ Items.children
        (r'.take (r'.length - r.length)) →
        pool'.pages p = pool.pages p := by
  have hnone : Items.children ([] : Items h) = [] := by cases h <;> rfl
  cases hshare with
  -- exactly one child changes parent: the right node's first or the left node's last
  | first _ c _ =>
    have htail : Items.pages (c :: r') = Items.pages [c] ++ Items.pages r' :=
      Items.pages_append [c] r'
    have hhead : Items.head next (c :: r') = Items.head (r'.head next) [c] :=
      Items.head_append (l := [c])
    obtain ⟨hc, hr'⟩ := (linked_append (l := [c])).1 hr
    rw [htail] at hnd hap
    obtain ⟨-, hndr, hdisj⟩ := List.nodup_append.1 hnd
    obtain ⟨hndc, -, hdisj'⟩ := List.nodup_append.1 hndr
    rw [List.drop_left, List.length_cons, Nat.sub_eq_zero_of_le (Nat.le_succ _), List.take_zero,
      hnone, List.map_nil, List.append_nil, List.append_nil]
    obtain ⟨pool', hrun, hs', hc', hkept⟩ := Items.setParents_eq_ok hs hc hndc
      (fun g hg hin => hap g hg (List.mem_append_right _ (List.mem_append_left _ hin))) hroom q
    refine ⟨pool', hrun, hs', linked_append.2 ⟨?_, hc'⟩,
      hr'.congr fun p hp => hkept p fun hin => ?_, hkept⟩
    · rw [← hhead]
      exact hl.congr fun p hp => hkept p fun hin =>
        hdisj p hp p (List.mem_append_left _ (Items.children_subset hin)) rfl
    · exact hdisj' p (Items.children_subset hin) p hp rfl
  | last _ c _ =>
    have hhead : Items.head next (c :: r) = Items.head (r.head next) [c] :=
      Items.head_append (l := [c])
    obtain ⟨hl', hc⟩ := linked_append.1 hl
    rw [Items.pages_append] at hnd hap
    obtain ⟨hndl, -, hdisj⟩ := List.nodup_append.1 hnd
    obtain ⟨-, hndc, hdisj'⟩ := List.nodup_append.1 hndl
    rw [List.drop_eq_nil_of_le (by simp), List.length_cons, Nat.add_sub_cancel_left, hnone]
    obtain ⟨pool', hrun, hs', hc', hkept⟩ := Items.setParents_eq_ok hs hc hndc
      (fun g hg hin => hap g hg (List.mem_append_left _ (List.mem_append_right _ hin))) hroom q'
    refine ⟨pool', hrun, hs', ?_, (linked_append (l := [c])).2 ⟨hc', hr.congr fun p hp =>
      hkept p fun hin => ?_⟩, hkept⟩
    · rw [hhead]
      exact hl'.congr fun p hp => hkept p fun hin => hdisj' p hp p (Items.children_subset hin) rfl
    · exact hdisj p (List.mem_append_right _ (Items.children_subset hin)) p hp rfl

end PageStore
