import PageStore.Proofs.Tree.Pins

/-!
# Frames that a change of a tree borrows

An insertion splits one node at a time, and has a guard on the node and on its new sibling while it
does: `Index.borrows_insert`. A removal repairs one pair of nodes at a time, and has a guard on
their parent besides: `Index.borrows_remove`. The guard of a level is let go of before the level
below is entered, and taken again on the way up if there is something to do, so neither need grows
with the height of the tree.
-/

namespace PageStore

open Pool PageStore.Action

variable {n m : Nat} {α β : Type} {gs : List (Guard n)} {g : Guard n} {k : Nat}

namespace Tree

/-! ## Inserting -/

/-- A node that splits is under a guard, and so is the node that it gives records to. -/
theorem ensures_insertIntoLeaf (t : Tree) (hw : g.mode = .write) (key : Key) (row : RowId) :
    Ensures (Squared gs 2) (Out (g :: gs)) (t.insertIntoLeaf (m := m) g key row)
      fun _ => Out gs := by
  refine ensures_holding (.get_bind fun pool => ?_)
  refine (borrows_lift (Node.blames_ofBlock _ _)).bind fun leaf => ?_
  refine (borrows_lift (Leaf.blames_search _ _ _)).bind fun place => ?_
  cases place with
  | found i => exact borrows_pure _
  | missing i =>
    dsimp only
    split
    · refine (borrows_lift (Leaf.blames_insert _ _ _ _)).bind fun leaf => ?_
      exact (borrows_put List.mem_cons_self hw _).bind fun _ => borrows_pure _
    · refine ensures_newPage.bind fun s => .of_and fun hws => ensures_holding ?_
      refine (borrows_lift (Leaf.blames_insert _ _ _ _)).bind fun leaf => ?_
      refine (borrows_lift (Leaf.blames_giveUpper _ _)).bind fun halves => ?_
      refine (borrows_put (.tail _ List.mem_cons_self) hw _).bind fun _ => ?_
      refine (borrows_put List.mem_cons_self hws _).bind fun _ => ?_
      exact (borrows_lift (Node.blames_key _ _)).bind fun _ => borrows_pure _

theorem ensures_insertChild (t : Tree) (hw : g.mode = .write) (separator : Key) (right : PageId) :
    Ensures (Squared gs 2) (Out (g :: gs)) (t.insertChild (m := m) g separator right)
      fun _ => Out gs := by
  refine ensures_holding (.get_bind fun pool => ?_)
  refine (borrows_lift (Node.blames_ofBlock _ _)).bind fun node => ?_
  refine (borrows_lift (Internal.blames_lookup _ _ _)).bind fun i => ?_
  dsimp only
  split
  · refine (borrows_lift (Internal.blames_insert _ _ _ _)).bind fun node => ?_
    exact (borrows_put List.mem_cons_self hw _).bind fun _ => borrows_pure _
  · refine ensures_newPage.bind fun s => .of_and fun hws => ensures_holding ?_
    refine (borrows_lift (Internal.blames_insert _ _ _ _)).bind fun node => ?_
    refine (borrows_lift (Internal.blames_giveUpper _ _)).bind fun halves => ?_
    refine (borrows_put (.tail _ List.mem_cons_self) hw _).bind fun _ => ?_
    refine (borrows_put List.mem_cons_self hws _).bind fun _ => ?_
    exact (borrows_lift (Node.blames_key _ _)).bind fun _ => borrows_pure _

theorem borrows_insertIntoInternal (t : Tree) (p : PageId) (separator : Key) (right : PageId) :
    Borrows (m := m) gs 2 (t.insertIntoInternal p separator right) := by
  refine ((ensures_fetch .write p).atMost (Nat.le_succ 1)).bind fun g => .of_and fun hw => ?_
  refine (ensures_insertChild t hw separator right).bind fun done => ?_
  obtain ⟨done, moved⟩ := done
  cases done with
  | duplicate => exact borrows_pure _
  | inserted => exact borrows_pure _
  | split separator sibling =>
    have hmoved : Borrows (m := m) gs 1 (moved.forM fun child => setParent child sibling) :=
      Ensures.forM moved fun child => borrows_setParent child sibling
    exact (hmoved.atMost (Nat.le_succ 1)).bind fun _ => borrows_pure _

theorem borrows_insertBelow (t : Tree) (key : Key) (row : RowId) (fuel : Nat) (p : PageId) :
    Borrows (m := m) gs 2 (t.insertBelow key row fuel p) := by
  induction fuel generalizing p with
  | zero => exact .of_throw fun _ _ => nofun
  | succ fuel ih =>
    refine ((ensures_fetch .write p).atMost (Nat.le_succ 1)).bind fun g => .of_and fun hw => ?_
    refine (ensures_peek (t.blames_route (some key))).bind fun way => .of_imp (fun _ hs => hs.2) ?_
    cases way with
    | none => exact ensures_insertIntoLeaf t hw key row
    -- this level has no guard while the level below works, so the need does not add up
    | some way =>
      refine .modify_bind (fun _ hs => (Sound.release hs).1) ((ih way.2).bind fun done => ?_)
      cases done with
      | duplicate => exact borrows_pure _
      | inserted => exact borrows_pure _
      | split separator right => exact borrows_insertIntoInternal t p separator right

theorem borrows_newLeaf (t : Tree) (key : Key) (row : RowId) :
    Borrows (m := m) gs 1 (t.newLeaf key row) := by
  refine ensures_newPage.bind fun g => .of_and fun hw => ensures_holding ?_
  refine (borrows_lift (Leaf.blames_insert _ _ _ _)).bind fun leaf => ?_
  exact (borrows_put List.mem_cons_self hw _).bind fun _ => borrows_pure _

theorem borrows_newRoot (t : Tree) (left : PageId) (separator : Key) (right : PageId) :
    Borrows (m := m) gs 1 (t.newRoot left separator right) := by
  refine ensures_newPage.bind fun g => .of_and fun hw => ensures_holding ?_
  refine (borrows_lift (Internal.blames_populate _ _ _ _)).bind fun node => ?_
  exact (borrows_put List.mem_cons_self hw _).bind fun _ => borrows_pure _

/-! ## Removing -/

theorem borrows_nodeToEdit (kind : NodeKind) (hg : g ∈ gs) (hw : g.mode = .write) :
    Borrows (m := m) gs k (nodeToEdit kind g) :=
  (borrows_mark hg hw).bind fun _ => .get_bind fun _ =>
    borrows_lift (Node.blames_ofBlock _ _)

/-- The parent of two nodes that are repaired is under a guard, and so are both of them. -/
theorem ensures_repairUnder {gp : Guard n} (hw : gp.mode = .write) (s : Siblings)
    (leftShort : Bool) : Ensures (Squared (gp :: gs) 2) (Out (gp :: gs))
      (repairUnder (m := m) gp s leftShort) fun _ => Out (gp :: gs) := by
  refine ((ensures_fetch .write s.left).atMost (Nat.le_succ 1)).bind fun gl => .of_and fun hwl => ?_
  refine ensures_holding ?_
  refine (ensures_fetch .write s.right).bind fun gr => .of_and fun hwr => ensures_holding ?_
  have hp : gp ∈ gr :: gl :: gp :: gs := .tail _ (.tail _ List.mem_cons_self)
  have hl : gl ∈ gr :: gl :: gp :: gs := .tail _ List.mem_cons_self
  have hr : gr ∈ gr :: gl :: gp :: gs := List.mem_cons_self
  have hsettle : ∀ {kind : NodeKind} (parent : Internal) (r : Repair kind),
      Borrows (m := m) (gr :: gl :: gp :: gs) 0 (settle gp gl gr s parent r) := fun parent r =>
    (borrows_lift (Internal.blames_afterRepair _ _ _)).bind fun _ =>
      (borrows_put hp hw _).bind fun _ => (borrows_put hl hwl _).bind fun _ =>
        (borrows_put hr hwr _).bind fun _ => borrows_pure _
  refine .get_bind fun pool => ?_
  refine (borrows_lift (NodeHeader.blames_kind _)).bind fun kind => ?_
  refine (borrows_nodeToEdit .internal hp hw).bind fun parent => ?_
  cases kind with
  | leaf =>
    refine (borrows_nodeToEdit .leaf hl hwl).bind fun left => ?_
    refine (borrows_nodeToEdit .leaf hr hwr).bind fun right => ?_
    exact (borrows_lift (Leaf.blames_repair _ _ _)).bind fun r => hsettle parent r
  | internal =>
    refine (borrows_nodeToEdit .internal hl hwl).bind fun left => ?_
    refine (borrows_nodeToEdit .internal hr hwr).bind fun right => ?_
    exact (borrows_lift (Internal.blames_repair _ _ _ _)).bind fun r => hsettle parent r

theorem borrows_rebalance (p : PageId) (childIndex : Nat) :
    Borrows (m := m) gs 3 (rebalance p childIndex) := by
  refine ((ensures_fetch .write p).atMost (by decide)).bind fun gp => .of_and fun hw => ?_
  refine (ensures_holding (.get_bind fun pool =>
    (borrows_lift (Internal.blames_siblings _ _ _)).bind fun s =>
      ensures_repairUnder hw s _)).bind fun done => ?_
  have hmoved : Borrows (m := m) gs 3 (do
      done.moved.forM fun move => setParent move.1 move.2
      return done.underflow) :=
    ((Ensures.forM done.moved fun move => borrows_setParent move.1 move.2).atMost (by decide)).bind
      fun _ => borrows_pure _
  -- all three guards are back when the emptied page is freed
  cases hempty : done.emptied with
  | none => exact hmoved
  | some page => exact (borrows_freePage page).bind fun _ => hmoved

theorem ensures_removeFromLeaf (t : Tree) (hw : g.mode = .write) (key : Key) :
    Ensures (Squared gs 3) (Out (g :: gs)) (t.removeFromLeaf (m := m) g key) fun _ => Out gs := by
  refine ensures_holding (.get_bind fun pool => ?_)
  refine (borrows_lift (Node.blames_ofBlock _ _)).bind fun leaf => ?_
  refine (borrows_lift (Leaf.blames_search _ _ _)).bind fun place => ?_
  cases place with
  | missing i => exact borrows_pure _
  | found i =>
    refine (borrows_lift (Node.blames_remove _ _)).bind fun leaf => ?_
    exact (borrows_put List.mem_cons_self hw _).bind fun _ => borrows_pure _

theorem borrows_removeBelow (t : Tree) (key : Key) (fuel : Nat) (p : PageId) :
    Borrows (m := m) gs 3 (t.removeBelow key fuel p) := by
  induction fuel generalizing p with
  | zero => exact .of_throw fun _ _ => nofun
  | succ fuel ih =>
    refine ((ensures_fetch .write p).atMost (by decide)).bind fun g => .of_and fun hw => ?_
    refine (ensures_peek (t.blames_route (some key))).bind fun way => .of_imp (fun _ hs => hs.2) ?_
    cases way with
    | none => exact ensures_removeFromLeaf t hw key
    | some way =>
      obtain ⟨i, child⟩ := way
      -- the parent is fetched again for the repair, after the child has given everything back
      refine .modify_bind (fun _ hs => (Sound.release hs).1) ((ih child).bind fun done => ?_)
      obtain _ | _ | _ := done
      · exact borrows_pure _
      · exact borrows_pure _
      · exact (borrows_rebalance p i).bind fun _ => borrows_pure _

end Tree

/-! ## Whole calls -/

namespace Index

variable {k' : Nat} {act : Action (Index n m) α}

/-- **An action on an index borrows** `k` frames of the pool at most, and gives them back when it
returns or is refused. -/
def Borrows (gs : List (Guard n)) (k : Nat) (act : Action (Index n m) α) : Prop :=
  Ensures (Stops (Squared gs k)) (fun x => Out gs x.pool) act fun _ x => Out gs x.pool

theorem Borrows.atMost (h : Borrows gs k act) (hk : k ≤ k') : Borrows gs k' act :=
  h.imp_stop fun _ _ hs => hs.mono hk

theorem borrows_pure (a : α) : Borrows gs k (pure a : Action (Index n m) α) :=
  Ensures.of_pure fun _ => id

theorem borrows_onPool {act : Action (Pool n m) α} (h : Pool.Borrows gs k act) :
    Borrows gs k (onPool act) := fun x hx => (onPool_ends (h x.pool hx)).mono fun _ _ hs => hs.2

theorem borrows_checkKey (t : Tree) (key : Key) :
    Borrows gs k (liftM (t.checkKey key) : Action (Index n m) Unit) :=
  .of_check fun _ _ he hx => .of_sound hx fun _ hfull =>
    t.checkKey_ne_poolFull key (Halt.refused.inj hfull ▸ he)

theorem borrows_setRoot (root : PageId) : Borrows (m := m) gs 1 (setRoot root) :=
  .modify_bind (fun _ => id) (.get_bind fun _ => borrows_onPool (Tree.borrows_persistRoot _))

theorem borrows_growRoot (separator : Key) (right : PageId) :
    Borrows (m := m) gs 1 (growRoot separator right) :=
  .get_bind fun _ => (borrows_onPool (Tree.borrows_newRoot _ _ separator right)).bind fun root =>
    (borrows_onPool (Tree.borrows_setParent _ _)).bind fun _ =>
      (borrows_onPool (Tree.borrows_setParent _ _)).bind fun _ => borrows_setRoot root

/-- **Inserting needs two frames**, whatever the height of the tree is. -/
theorem borrows_insert (key : Key) (row : RowId) : Borrows (m := m) gs 2 (insert key row) := by
  refine .get_bind fun x => (borrows_checkKey x.tree key).bind fun _ => ?_
  split
  · exact ((borrows_onPool (Tree.borrows_newLeaf _ key row)).atMost (Nat.le_succ 1)).bind fun p =>
      ((borrows_setRoot p).atMost (Nat.le_succ 1)).bind fun _ => borrows_pure true
  · refine (borrows_onPool (Tree.borrows_insertBelow _ key row _ _)).bind fun done => ?_
    cases done with
    | duplicate => exact borrows_pure false
    | inserted => exact borrows_pure true
    | split separator right =>
      exact ((borrows_growRoot separator right).atMost (Nat.le_succ 1)).bind fun _ =>
        borrows_pure true

theorem borrows_shrinkRoot : Borrows (n := n) (m := m) gs 1 shrinkRoot := by
  refine .get_bind fun x => ?_
  refine (borrows_onPool (Tree.borrows_view Tree.blames_rootHeir _)).bind fun heir => ?_
  cases heir with
  | none => exact borrows_pure ()
  | some root =>
    have hrest : Borrows (m := m) gs 1 (do
        onPool (Tree.freePage x.tree.root)
        setRoot root) :=
      (borrows_onPool (Tree.borrows_freePage _)).bind fun _ => borrows_setRoot root
    dsimp only
    split
    · exact (borrows_onPool (Tree.borrows_setParent _ _)).bind fun _ => hrest
    · exact hrest

/-- **Removing needs three frames**, whatever the height of the tree is. -/
theorem borrows_remove (key : Key) : Borrows (m := m) gs 3 (remove key) := by
  refine .get_bind fun x => (borrows_checkKey x.tree key).bind fun _ => ?_
  split
  · exact borrows_pure false
  · refine (borrows_onPool (Tree.borrows_removeBelow _ key _ _)).bind fun done => ?_
    cases done with
    | notFound => exact borrows_pure false
    | removed underflow =>
      exact (borrows_shrinkRoot.atMost (by decide)).bind fun _ => borrows_pure true

theorem borrows_destroy : Borrows (n := n) (m := m) gs 1 destroy := by
  refine .get_bind fun x => ?_
  have hfree : Borrows (m := m) gs 1 (onPool (Tree.freeBelow Tree.descentBound x.tree.root)) :=
    borrows_onPool (Tree.borrows_freeBelow _ _)
  dsimp only
  cases x.tree.registration with
  | none =>
    split
    · exact hfree.bind fun _ => .modify_bind (fun _ => id) (borrows_pure ())
    · exact .modify_bind (fun _ => id) (borrows_pure ())
  | some r =>
    have hstrike : Borrows (m := m) gs 1 (onPool (update r.page fun page =>
        .ok ((Roots.erase page r.index).getD page))) := borrows_onPool (borrows_update r.page nofun)
    split
    · exact hfree.bind fun _ => .modify_bind (fun _ => id) hstrike
    · exact .modify_bind (fun _ => id) hstrike

theorem borrows_attach (limits : TreeConfig) : Borrows (m := m) gs 1 (attach limits) :=
  .get_bind fun _ => (borrows_onPool (Tree.borrows_attach _ _ limits _)).bind fun _ =>
    .modify_bind (fun _ => id) (borrows_pure ())

end Index

end PageStore
