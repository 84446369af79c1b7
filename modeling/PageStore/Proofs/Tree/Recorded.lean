import PageStore.Proofs.Pool.Fetch
import PageStore.Proofs.Roots
import PageStore.Proofs.Tree.Lifetime
import PageStore.Proofs.Tree.Reading

/-!
# Trees with a recorded root

A tree whose root is recorded does with its pages what it would do without the record. Only the last
step of a call goes to the roots page, and changes there at most the root of the tree's own index:
`Roots.Signs` says how when the root is another one, `Roots.Strikes` when there is no tree any more.
So what is known of a call on a tree without a record holds for the tree with one, up to that page:
`Index.Occupies.inserted`, `Index.Occupies.removed`, `Index.Occupies.of_destroy`.
-/

namespace PageStore

open Pool

variable {n m : Nat} {α β : Type} {pool pool' : Pool n m} {gs : List (Guard n)} {tree : Tree}
  {x y : Index n m} {key : Key} {row : RowId} {root : PageId} {E : List (Key × RowId)}
  {old new : List PageId} {r : Registration} {b b' : Page}

/-! ## Changes of a roots page -/

namespace Roots

/-- A change of a roots page that keeps to one index: the others have the roots that they had. -/
def KeepsTo (r : Registration) (b b' : Page) : Prop :=
  Distinct b → Distinct b' ∧ ∀ j, j ≠ r.index → get? b' j = get? b j

/-- The root is put into its record, if it is another one than before. -/
def Signs (before after : PageId) (r : Registration) (b b' : Page) : Prop :=
  (after = before ∧ b' = b) ∨ Roots.set b r.index after = some b'

/-- The record is struck. -/
def Strikes (r : Registration) (b b' : Page) : Prop := b' = (Roots.erase b r.index).getD b

theorem KeepsTo.refl (r : Registration) (b : Page) : KeepsTo r b b := fun hd => ⟨hd, fun _ _ => rfl⟩

theorem keepsTo_set (h : Roots.set b r.index root = some b') : KeepsTo r b b' := by
  intro hd
  obtain ⟨hd', hget⟩ := hd.get?_set h
  exact ⟨hd', fun j hj => (hget j).trans (if_neg hj)⟩

theorem Signs.keepsTo {before after : PageId} (h : Signs before after r b b') : KeepsTo r b b' := by
  rcases h with ⟨-, rfl⟩ | hset
  · exact .refl r b'
  · exact keepsTo_set hset

theorem Strikes.keepsTo (h : Strikes r b b') : KeepsTo r b b' := by
  intro hd
  obtain rfl := h
  cases herase : Roots.erase b r.index with
  | none => exact ⟨hd, fun _ _ => rfl⟩
  | some b' =>
    obtain ⟨hd', hget⟩ := hd.get?_erase herase
    exact ⟨hd', fun j hj => (hget j).trans (if_neg hj)⟩

end Roots

/-! ## Notes -/

/-- Nothing was changed but the roots page, maybe, and that only as `C` says. -/
def Notes (C : Registration → Page → Page → Prop) (record : Option Registration)
    (pool pool' : Pool n m) : Prop :=
  (pool' = pool ∧ ∀ r, record = some r → ∀ b, C r b b) ∨
  ∃ r change, record = some r ∧ Pool.update r.page change pool = .ok () pool' ∧
    ∀ b b', change b = .ok b' → C r b b'

/-- Where there is no record, nothing is noted. -/
theorem Notes.of_none (C : Registration → Page → Page → Prop) (pool : Pool n m) :
    Notes C none pool pool := .inl ⟨rfl, nofun⟩

/-- The root stayed, and nothing was noted. -/
theorem Notes.same (root : PageId) (record : Option Registration) (pool : Pool n m) :
    Notes (Roots.Signs root root) record pool pool := .inl ⟨rfl, fun _ _ _ => .inl ⟨rfl, rfl⟩⟩

/-- The roots page with a root in its record. -/
def Roots.note (r : Registration) (root : PageId) (b : Page) : Except Halt Page :=
  match Roots.set b r.index root with
  | some page => .ok page
  | none => refuse (.settings (.rootsFull r.page r.index))

theorem Roots.note_eq_ok_iff {r : Registration} {b b' : Page} :
    Roots.note r root b = .ok b' ↔ Roots.set b r.index root = some b' := by
  rw [Roots.note]
  cases Roots.set b r.index root with
  | none =>
    constructor
    · intro h
      cases h
    · intro h
      cases h
  | some page => rw [Except.ok.injEq, Option.some.injEq]

/-- Recording a root is a note. -/
theorem Tree.notes_of_persistRoot (before : PageId) (hrun : tree.persistRoot pool = .ok () pool') :
    Notes (Roots.Signs before tree.root) tree.registration pool pool' := by
  rw [Tree.persistRoot] at hrun
  cases hreg : tree.registration with
  | none =>
    rw [hreg] at hrun
    cases hrun
    exact .of_none _ _
  | some r =>
    rw [hreg] at hrun
    exact .inr ⟨r, Roots.note r tree.root, rfl, hrun, fun b b' hb' =>
      .inr (Roots.note_eq_ok_iff.1 hb')⟩

/-- A root can be recorded in a roots page with room for it that nobody holds. -/
theorem Tree.persistRoot_eq_ok (hs : pool.Sound gs) (hroom : Room gs 1)
    (hrecord : ∀ r, tree.registration = some r → (∀ g ∈ gs, g.page ≠ r.page) ∧
      ∃ b, pool.pages r.page = some b ∧
        (Roots.count b < maxIndexRoots ∨ Roots.get? b r.index ≠ none)) :
    ∃ pool', tree.persistRoot pool = .ok () pool' ∧ pool'.Sound gs ∧
      ∀ r b, tree.registration = some r → pool.pages r.page = some b →
        ∃ b', Roots.set b r.index tree.root = some b' ∧
          pool'.pages = Function.update pool.pages r.page (some b') := by
  rw [Tree.persistRoot]
  cases hreg : tree.registration with
  | none => exact ⟨pool, rfl, hs, fun r b hr => by cases hr⟩
  | some r =>
    obtain ⟨hfree, b, hb, hplace⟩ := hrecord r hreg
    obtain ⟨b', hset⟩ := Roots.exists_set hplace tree.root
    have hnote := Roots.note_eq_ok_iff.2 hset
    obtain ⟨pool', hupdate, hs', hpages⟩ := hs.update_eq_ok hb hnote hfree hroom
    refine ⟨pool', hupdate, hs', fun r₁ b₁ hr₁ hb₁ => ?_⟩
    obtain rfl := Option.some.inj hr₁
    obtain rfl := Option.some.inj (hb.symm.trans hb₁)
    exact ⟨b', hset, hpages⟩

/-- **What a note changes**: no page but the roots page. -/
theorem Notes.pages {C : Registration → Page → Page → Prop} {record : Option Registration}
    (hn : Notes C record pool pool') (hs : pool.Sound gs) :
    pool'.Sound gs ∧
    (∀ q, (∀ r, record = some r → q ≠ r.page) → pool'.pages q = pool.pages q) ∧
    (∀ q, pool'.pages q ≠ none ↔ pool.pages q ≠ none) ∧
    ∀ r b, record = some r → pool.pages r.page = some b →
      ∃ b', pool'.pages r.page = some b' ∧ C r b b' := by
  rcases hn with ⟨rfl, hkept⟩ | ⟨r, change, hreg, hrun, hchanged⟩
  · exact ⟨hs, fun _ _ => rfl, fun _ => Iff.rfl, fun r b hr hb => ⟨b, hb, hkept r hr b⟩⟩
  · obtain ⟨page, page', hpage, hchange, hs', hpages⟩ := hs.of_update hrun
    refine ⟨hs', fun q hq => ?_, fun q => ?_, fun r' b hr' hb => ?_⟩
    · rw [hpages, Function.update_of_ne (hq r hreg)]
    · by_cases hq : q = r.page
      · subst hq
        rw [hpages, Function.update_self, hpage]
        exact iff_of_true nofun nofun
      · rw [hpages, Function.update_of_ne hq]
    · obtain rfl := Option.some.inj (hreg.symm.trans hr')
      obtain rfl := Option.some.inj (hpage.symm.trans hb)
      exact ⟨page', by rw [hpages, Function.update_self], hchanged page page' hchange⟩

/-! ## Calls on a tree without its record -/

/-- The tree without the place where its root is recorded. -/
def Tree.unrecorded (t : Tree) : Tree := { t with registration := none }

/-- An action that returned would have done the same without the record, up to a note at the end. -/
def Tree.Echo (t : Tree) (C : Registration → Page → Page → Prop) (act : Action (Index n m) α)
    (pool : Pool n m) (a : α) (y : Index n m) : Prop :=
  ∃ y₀, act ⟨t.unrecorded, pool⟩ = .ok a y₀ ∧
    y.tree = { y₀.tree with registration := t.registration } ∧ Notes C t.registration y₀.pool y.pool

/-- Another root is recorded at the end. -/
theorem Tree.echo_setRoot (hrun : Index.setRoot root ⟨tree, pool⟩ = .ok () y) :
    tree.Echo (Roots.Signs tree.root y.tree.root) (Index.setRoot root) pool () y := by
  rw [Index.setRoot, Action.modify_bind, Action.get_bind] at hrun
  obtain ⟨pool₁, hpersist, rfl⟩ := Index.of_onPool hrun
  have hset : Index.setRoot root (⟨tree.unrecorded, pool⟩ : Index n m) =
      .ok () ⟨{ tree.unrecorded with root }, pool⟩ := Index.setRoot_eq_ok rfl root
  have hnotes := Tree.notes_of_persistRoot tree.root hpersist
  exact ⟨_, hset, rfl, hnotes⟩

/-! ## Inserting -/

theorem Tree.insertBelow_unrecorded (fuel : Nat) (p : PageId) :
    (tree.unrecorded.insertBelow key row fuel p : Action (Pool n m) Insertion) =
      tree.insertBelow key row fuel p := by
  induction fuel generalizing p with
  | zero => rfl
  | succ fuel ih =>
    simp only [Tree.insertBelow, ih]
    rfl

theorem Tree.echo_growRoot {separator : Key} {right : PageId}
    (hrun : Index.growRoot separator right ⟨tree, pool⟩ = .ok () y) :
    tree.Echo (Roots.Signs tree.root y.tree.root) (Index.growRoot separator right) pool () y := by
  rw [Index.growRoot, Action.get_bind] at hrun
  dsimp only at hrun
  obtain ⟨root, x₁, hroot, hrun⟩ := Action.bind_eq_ok_iff.1 hrun
  obtain ⟨pool₁, hroot₁, rfl⟩ := Index.of_onPool hroot
  obtain ⟨⟨⟩, x₂, hleft, hrun⟩ := Action.bind_eq_ok_iff.1 hrun
  obtain ⟨pool₂, hleft₁, rfl⟩ := Index.of_onPool hleft
  obtain ⟨⟨⟩, x₃, hright, hrun⟩ := Action.bind_eq_ok_iff.1 hrun
  obtain ⟨pool₃, hright₁, rfl⟩ := Index.of_onPool hright
  obtain ⟨y₀, hset, htree, hnotes⟩ := Tree.echo_setRoot hrun
  refine ⟨y₀, ?_, htree, hnotes⟩
  have hroot' : tree.unrecorded.newRoot tree.unrecorded.root separator right pool =
      .ok root pool₁ := hroot₁
  rw [Index.growRoot, Action.get_bind]
  dsimp only
  rw [Action.bind_of_ok (Index.onPool_eq_ok hroot')]
  have hleft' : Index.onPool (Tree.setParent tree.unrecorded.root root) ⟨tree.unrecorded, pool₁⟩ =
    .ok () ⟨tree.unrecorded, pool₂⟩ := Index.onPool_eq_ok hleft₁
  rw [Action.bind_of_ok hleft', Action.bind_of_ok (Index.onPool_eq_ok hright₁)]
  exact hset

/-- An insertion that returned was given a key of the tree's width. -/
theorem Tree.echo_insert {added : Bool} (hrun : Index.insert key row ⟨tree, pool⟩ = .ok added y) :
    key.length = tree.keySize ∧
      tree.Echo (Roots.Signs tree.root y.tree.root) (Index.insert key row) pool added y := by
  have hkey : key.length = tree.keySize := Index.width_of_insert hrun
  have hkey' : key.length = tree.unrecorded.keySize := hkey
  refine ⟨hkey, ?_⟩
  -- every step but a change of root is the same run; a change of root is echoed in the registry
  by_cases hempty : tree.isEmpty = true
  · have hroot : tree.root = .none := Tree.isEmpty_iff.1 hempty
    have hroot' : tree.unrecorded.root = .none := hroot
    rw [Index.insert_of_empty (x := ⟨tree, pool⟩) hkey hroot] at hrun
    obtain ⟨root, x₂, hleaf, hrun⟩ := Action.bind_eq_ok_iff.1 hrun
    obtain ⟨pool₁, hleaf₁, rfl⟩ := Index.of_onPool hleaf
    obtain ⟨⟨⟩, x₃, hset, hrun⟩ := Action.bind_eq_ok_iff.1 hrun
    cases hrun
    obtain ⟨y₀, hset₁, htree, hnotes⟩ := Tree.echo_setRoot hset
    refine ⟨y₀, ?_, htree, hnotes⟩
    have hleaf' : tree.unrecorded.newLeaf key row pool = .ok root pool₁ := hleaf₁
    rw [Index.insert_of_empty (x := ⟨tree.unrecorded, pool⟩) hkey' hroot',
      Action.bind_of_ok (Index.onPool_eq_ok hleaf')]
    exact (Action.bind_of_ok hset₁).trans rfl
  · rw [Index.insert_of_root (x := ⟨tree, pool⟩) hkey hempty] at hrun
    obtain ⟨done, x₂, hbelow, hrun⟩ := Action.bind_eq_ok_iff.1 hrun
    obtain ⟨pool₁, hbelow₁, rfl⟩ := Index.of_onPool hbelow
    have hempty' : ¬tree.unrecorded.isEmpty = true := hempty
    have hbelow' : tree.unrecorded.insertBelow key row Tree.descentBound tree.unrecorded.root pool =
        .ok done pool₁ := by
      rw [Tree.insertBelow_unrecorded]
      exact hbelow₁
    have hstart := (Index.insert_of_root (x := ⟨tree.unrecorded, pool⟩) hkey' hempty' row).trans
      (Action.bind_of_ok (Index.onPool_eq_ok hbelow'))
    cases done with
    | duplicate =>
      cases hrun
      exact ⟨⟨tree.unrecorded, pool₁⟩, hstart, rfl, .same _ _ _⟩
    | inserted =>
      cases hrun
      exact ⟨⟨tree.unrecorded, pool₁⟩, hstart, rfl, .same _ _ _⟩
    | split separator right =>
      obtain ⟨⟨⟩, x₃, hgrow, hrun⟩ := Action.bind_eq_ok_iff.1 hrun
      cases hrun
      obtain ⟨y₀, hgrow₁, htree, hnotes⟩ := Tree.echo_growRoot hgrow
      exact ⟨y₀, hstart.trans ((Action.bind_of_ok hgrow₁).trans rfl), htree, hnotes⟩

/-- **The first insertion** returns if the disk has a page to give, and if the root has a record to
be put into. -/
theorem Index.insert_first (ha : tree.Accepted) (hroot : tree.root = .none) (hs : pool.Sound gs)
    (hroom : Room gs 1) (hdisk : pool.members ≠ Finset.range maxLogicalPages)
    (hkey : key.length = tree.keySize) (row : RowId)
    (hrecord : ∀ r, tree.registration = some r → (∀ g ∈ gs, g.page ≠ r.page) ∧
      ∃ b, pool.pages r.page = some b ∧ Roots.get? b r.index ≠ none) :
    ∃ y, Index.insert key row ⟨tree, pool⟩ = .ok true y := by
  obtain ⟨g, pool₁, hnew, hmode, hnone, hs₁, hpages₁⟩ := hs.newPage_eq_ok hdisk hroom
  obtain ⟨node, hinsert, -⟩ := Tree.leaf_eq_ok ha hkey g.page row
  obtain ⟨hs₂, hpages₂⟩ := hs₁.put List.mem_cons_self hmode node.page
  obtain ⟨hs₃, hpages₃⟩ := hs₂.release
  have hleaf := Tree.newLeaf_of_newPage hnew hinsert
  have hplace : ∀ r, ({ tree with root := g.page } : Tree).registration = some r →
      (∀ g ∈ gs, g.page ≠ r.page) ∧ ∃ b, ((pool₁.put g node.page).release g).pages r.page = some b ∧
        (Roots.count b < maxIndexRoots ∨ Roots.get? b r.index ≠ none) := fun r hr => by
    obtain ⟨hfree, b, hb, hget⟩ := hrecord r hr
    have hne : r.page ≠ g.page := fun e => by
      rw [e, hnone] at hb
      cases hb
    refine ⟨hfree, b, ?_, .inr hget⟩
    rw [hpages₃, hpages₂, hpages₁, Function.update_of_ne hne, Function.update_of_ne hne, hb]
  obtain ⟨pool₄, hpersist, -⟩ := Tree.persistRoot_eq_ok hs₃ hroom hplace
  have hset : Index.setRoot g.page ⟨tree, (pool₁.put g node.page).release g⟩ =
      .ok () ⟨{ tree with root := g.page }, pool₄⟩ := by
    rw [Index.setRoot, Action.modify_bind, Action.get_bind]
    exact Index.onPool_eq_ok hpersist
  refine ⟨⟨{ tree with root := g.page }, pool₄⟩, ?_⟩
  rw [Index.insert_of_empty (x := ⟨tree, pool⟩) hkey hroot,
    Action.bind_of_ok (Index.onPool_eq_ok hleaf)]
  exact (Action.bind_of_ok hset).trans rfl

/-! ## Removing -/

theorem Tree.removeBelow_unrecorded (fuel : Nat) (p : PageId) :
    (tree.unrecorded.removeBelow key fuel p : Action (Pool n m) Removal) =
      tree.removeBelow key fuel p := by
  induction fuel generalizing p with
  | zero => rfl
  | succ fuel ih =>
    simp only [Tree.removeBelow, ih]
    rfl

/-- A page that was the root is freed. -/
theorem Tree.echo_freeRoot {p : PageId}
    (hrun : (do Index.onPool (Tree.freePage p); Index.setRoot root) ⟨tree, pool⟩ = .ok () y) :
    tree.Echo (Roots.Signs tree.root y.tree.root)
      (do Index.onPool (Tree.freePage p); Index.setRoot root) pool () y := by
  obtain ⟨⟨⟩, x₁, hfree, hrun⟩ := Action.bind_eq_ok_iff.1 hrun
  obtain ⟨pool₁, hfree₁, rfl⟩ := Index.of_onPool hfree
  obtain ⟨y₀, hset, htree, hnotes⟩ := Tree.echo_setRoot hrun
  refine ⟨y₀, ?_, htree, hnotes⟩
  rw [Action.bind_of_ok (Index.onPool_eq_ok hfree₁)]
  exact hset

/-- What is left of shrinking the root when its heir is known. -/
def Index.giveWay (old : PageId) : Option PageId → Action (Index n m) Unit
  | none => return
  | some root => do
    if root.isSome then Index.onPool (Tree.setParent root PageId.none)
    Index.onPool (Tree.freePage old)
    Index.setRoot root

theorem Index.shrinkRoot_of_heir {heir : Option PageId}
    (hview : Tree.view tree.root Tree.rootHeir pool = .ok heir pool') :
    Index.shrinkRoot ⟨tree, pool⟩ = Index.giveWay tree.root heir ⟨tree, pool'⟩ := by
  rw [Index.shrinkRoot, Action.get_bind]
  dsimp only
  rw [Action.bind_of_ok (Index.onPool_eq_ok hview)]
  rfl

theorem Tree.echo_shrinkRoot (hrun : Index.shrinkRoot ⟨tree, pool⟩ = .ok () y) :
    tree.Echo (Roots.Signs tree.root y.tree.root) Index.shrinkRoot pool () y := by
  rw [Index.shrinkRoot, Action.get_bind] at hrun
  dsimp only at hrun
  obtain ⟨heir, x₁, hview, hrun⟩ := Action.bind_eq_ok_iff.1 hrun
  obtain ⟨pool₁, hview₁, rfl⟩ := Index.of_onPool hview
  have hview' : Tree.view tree.unrecorded.root Tree.rootHeir pool = .ok heir pool₁ := hview₁
  have hstart := Index.shrinkRoot_of_heir hview'
  cases heir with
  | none =>
    cases hrun
    exact ⟨⟨tree.unrecorded, pool₁⟩, hstart, rfl, .same _ _ _⟩
  | some root =>
    dsimp only [Index.giveWay] at hrun hstart
    by_cases hsome : root.isSome = true
    · simp only [hsome, if_true] at hrun hstart
      obtain ⟨⟨⟩, x₂, hparent, hrun⟩ := Action.bind_eq_ok_iff.1 hrun
      obtain ⟨pool₂, hparent₁, rfl⟩ := Index.of_onPool hparent
      obtain ⟨y₀, hfree, htree, hnotes⟩ := Tree.echo_freeRoot hrun
      refine ⟨y₀, hstart.trans ?_, htree, hnotes⟩
      rw [Action.bind_of_ok (Index.onPool_eq_ok hparent₁)]
      exact hfree
    · simp only [hsome] at hrun hstart
      obtain ⟨y₀, hfree, htree, hnotes⟩ := Tree.echo_freeRoot hrun
      exact ⟨y₀, hstart.trans hfree, htree, hnotes⟩

/-- A removal that returned was given a key of the tree's width. -/
theorem Tree.echo_remove {found : Bool} (hrun : Index.remove key ⟨tree, pool⟩ = .ok found y) :
    key.length = tree.keySize ∧
      tree.Echo (Roots.Signs tree.root y.tree.root) (Index.remove key) pool found y := by
  have hkey : key.length = tree.keySize := Index.width_of_remove hrun
  have hkey' : key.length = tree.unrecorded.keySize := hkey
  refine ⟨hkey, ?_⟩
  by_cases hempty : tree.isEmpty = true
  · have hroot : tree.root = .none := Tree.isEmpty_iff.1 hempty
    have hroot' : tree.unrecorded.root = .none := hroot
    rw [Index.remove_of_empty (x := ⟨tree, pool⟩) hkey hroot] at hrun
    cases hrun
    exact ⟨⟨tree.unrecorded, pool⟩, Index.remove_of_empty hkey' hroot', rfl, .same _ _ _⟩
  · rw [Index.remove_of_root (x := ⟨tree, pool⟩) hkey hempty] at hrun
    obtain ⟨done, x₂, hbelow, hrun⟩ := Action.bind_eq_ok_iff.1 hrun
    obtain ⟨pool₁, hbelow₁, rfl⟩ := Index.of_onPool hbelow
    have hempty' : ¬tree.unrecorded.isEmpty = true := hempty
    have hbelow' : tree.unrecorded.removeBelow key Tree.descentBound tree.unrecorded.root pool =
        .ok done pool₁ := by
      rw [Tree.removeBelow_unrecorded]
      exact hbelow₁
    have hstart := (Index.remove_of_root (x := ⟨tree.unrecorded, pool⟩) hkey' hempty').trans
      (Action.bind_of_ok (Index.onPool_eq_ok hbelow'))
    cases done with
    | notFound =>
      cases hrun
      exact ⟨⟨tree.unrecorded, pool₁⟩, hstart, rfl, .same _ _ _⟩
    | removed short =>
      obtain ⟨⟨⟩, x₃, hshrink, hrun⟩ := Action.bind_eq_ok_iff.1 hrun
      cases hrun
      obtain ⟨y₀, hshrink₁, htree, hnotes⟩ := Tree.echo_shrinkRoot hshrink
      exact ⟨y₀, hstart.trans ((Action.bind_of_ok hshrink₁).trans rfl), htree, hnotes⟩

/-! ## Destroying -/

/-- The root is given up, and so is its record. -/
def Index.forget : Action (Index n m) Unit := do
  let t := (← get).tree
  modify fun x => { x with tree := { x.tree with root := PageId.none } }
  match t.registration with
  | none => return
  | some r =>
    Index.onPool <| Pool.update r.page fun page => .ok ((Roots.erase page r.index).getD page)

theorem Tree.echo_forget (hrun : Index.forget ⟨tree, pool⟩ = .ok () y) :
    tree.Echo Roots.Strikes Index.forget pool () y := by
  rw [Index.forget, Action.get_bind] at hrun
  dsimp only at hrun
  rw [Action.modify_bind] at hrun
  refine ⟨⟨{ tree.unrecorded with root := .none }, pool⟩, rfl, ?_⟩
  cases hreg : tree.registration with
  | none =>
    rw [hreg] at hrun
    cases hrun
    exact ⟨rfl, .of_none _ _⟩
  | some r =>
    rw [hreg] at hrun
    obtain ⟨pool₁, hupdate, rfl⟩ := Index.of_onPool hrun
    refine ⟨rfl, .inr ⟨r, _, rfl, hupdate, ?_⟩⟩
    rintro b b' ⟨⟩
    rfl

theorem Tree.echo_destroy (hrun : Index.destroy ⟨tree, pool⟩ = .ok () y) :
    tree.Echo Roots.Strikes Index.destroy pool () y := by
  rw [Index.destroy, Action.get_bind] at hrun
  dsimp only at hrun
  by_cases hempty : (!tree.isEmpty) = true
  · rw [if_pos hempty] at hrun
    obtain ⟨⟨⟩, x₁, hfree, hrun⟩ := Action.bind_eq_ok_iff.1 hrun
    obtain ⟨pool₁, hfree₁, rfl⟩ := Index.of_onPool hfree
    have hforget : Index.forget ⟨tree, pool₁⟩ = .ok () y := hrun
    obtain ⟨y₀, hforget₁, htree, hnotes⟩ := Tree.echo_forget hforget
    refine ⟨y₀, ?_, htree, hnotes⟩
    have hempty' : (!tree.unrecorded.isEmpty) = true := hempty
    have hfree' : Tree.freeBelow Tree.descentBound tree.unrecorded.root pool = .ok () pool₁ :=
      hfree₁
    rw [Index.destroy, Action.get_bind]
    dsimp only
    rw [if_pos hempty', Action.bind_of_ok (Index.onPool_eq_ok hfree')]
    exact hforget₁
  · rw [if_neg hempty] at hrun
    have hforget : Index.forget ⟨tree, pool⟩ = .ok () y := hrun
    obtain ⟨y₀, hforget₁, htree, hnotes⟩ := Tree.echo_forget hforget
    refine ⟨y₀, ?_, htree, hnotes⟩
    have hempty' : ¬(!tree.unrecorded.isEmpty) = true := hempty
    rw [Index.destroy, Action.get_bind]
    dsimp only
    rw [if_neg hempty']
    exact hforget₁

/-! ## What a call leaves -/

/-- A tree stands on its own pages, wherever they are: in another pool too, and for another handle
on the same root. -/
theorem Tree.Stands.carry {d : TreePlan} {h : Nat} {t : Shape h} (ht : tree.Stands pool gs d t)
    {n' m' : Nat} {pool' : Pool n' m'} {gs' : List (Guard n')} {tree' : Tree} (hs : pool'.Sound gs')
    (hP : ∀ q ∈ t.pages, pool'.pages q = pool.pages q) (hapart : ∀ g ∈ gs', g.page ∉ t.pages)
    (hroot : tree'.root = tree.root) (horder : tree'.order = tree.order)
    (hwidth : tree'.keySize = tree.keySize) : tree'.Stands pool' gs' d t :=
  ⟨⟨horder.trans ht.follows.order, hwidth.trans ht.follows.width, ht.follows.fits⟩,
    hroot.trans ht.root, ⟨hs, ht.has.stored.congr hP, ht.has.nodup, hapart⟩, ht.within, ht.sized⟩

namespace Index

variable {Q : Nat → TreePlan → Prop}

/-- Nobody holds a page of an index. -/
theorem Occupies.free (hx : x.Occupies gs old E) : ∀ g ∈ gs, g.page ∉ old := by
  rcases hx.shape with ⟨-, -, rfl⟩ | ⟨d, h, t, ht, -, rfl⟩
  · exact fun _ _ => List.not_mem_nil
  · exact ht.has.apart

/-- An index depends on its own pages and its root only, and not on the pool around them. -/
theorem OccupiesBy.carry (hx : x.OccupiesBy Q gs old E) {n' m' : Nat} {gs' : List (Guard n')}
    {y : Index n' m'} (hs : y.pool.Sound gs') (hP : ∀ q ∈ old, y.pool.pages q = x.pool.pages q)
    (hfree : ∀ g ∈ gs', g.page ∉ old) (ha : y.tree.Accepted) (hroot : y.tree.root = x.tree.root)
    (horder : y.tree.order = x.tree.order) (hwidth : y.tree.keySize = x.tree.keySize) :
    y.OccupiesBy Q gs' old E := by
  refine ⟨hs, ha, ?_⟩
  rcases hx.shape with ⟨hempty, hrest⟩ | ⟨d, h, t, ht, hE, rfl, hplan⟩
  · exact .inl ⟨hroot.trans hempty, hrest⟩
  · exact .inr ⟨d, h, t, ht.carry hs hP hfree hroot horder hwidth, hE, rfl, hplan⟩

theorem Occupies.carry (hx : x.Occupies gs old E) {n' m' : Nat} {gs' : List (Guard n')}
    {y : Index n' m'} (hs : y.pool.Sound gs') (hP : ∀ q ∈ old, y.pool.pages q = x.pool.pages q)
    (hfree : ∀ g ∈ gs', g.page ∉ old) (ha : y.tree.Accepted) (hroot : y.tree.root = x.tree.root)
    (horder : y.tree.order = x.tree.order) (hwidth : y.tree.keySize = x.tree.keySize) :
    y.Occupies gs' old E :=
  (hx.by_true.carry hs hP hfree ha hroot horder hwidth).occupies

/-- Nor does it depend on where the root is recorded. -/
theorem OccupiesBy.congr (hx : x.OccupiesBy Q gs old E) (hs : pool.Sound gs)
    (hP : ∀ q ∈ old, pool.pages q = x.pool.pages q) (record : Option Registration) :
    OccupiesBy Q ⟨{ x.tree with registration := record }, pool⟩ gs old E :=
  hx.carry hs hP hx.occupies.free (hx.accepted.handle _ _) rfl rfl rfl

theorem Occupies.congr (hx : x.Occupies gs old E) (hs : pool.Sound gs)
    (hP : ∀ q ∈ old, pool.pages q = x.pool.pages q) (record : Option Registration) :
    Occupies ⟨{ x.tree with registration := record }, pool⟩ gs old E :=
  (hx.by_true.congr hs hP record).occupies

/-- Every page that an index takes up is allocated. -/
theorem Occupies.allocated (hx : x.Occupies gs old E) : ∀ q ∈ old, x.pool.pages q ≠ none := by
  rcases hx.shape with ⟨-, -, rfl⟩ | ⟨d, h, t, ht, -, rfl⟩
  · nofun
  · exact ht.has.stored.allocated

/-- An index without entries takes up no pages. -/
theorem Occupies.eq_nil (hx : x.Occupies gs old []) : old = [] := by
  rcases hx.shape with ⟨-, -, rfl⟩ | ⟨d, h, t, ht, hE, -⟩
  · rfl
  · exact absurd hE (ht.sized.entries_ne_nil ht.follows.fits (rootLeast_pos h))

/-- So its height and plan may have any property. -/
theorem Occupies.by_of_nil (hx : x.Occupies gs old []) : x.OccupiesBy Q gs old [] := by
  refine ⟨hx.sound, hx.accepted, ?_⟩
  rcases hx.shape with hempty | ⟨d, h, t, ht, hE, -⟩
  · exact .inl hempty
  · exact absurd hE (ht.sized.entries_ne_nil ht.follows.fits (rootLeast_pos h))

/-- The roots page of a tree is allocated, and is none of the tree's own pages. -/
def RecordsApart (x : Index n m) (old : List PageId) : Prop :=
  ∀ r, x.tree.registration = some r → r.page ∉ old ∧ x.pool.pages r.page ≠ none

/-- **What a call leaves** of an index that took up the pages `old`: it takes up pages that it had
or that were free, and no others have changed, but for the roots page, which changed as `C` says. -/
structure Leaves (x : Index n m) (C : Registration → Page → Page → Prop) (gs : List (Guard n))
    (old : List PageId) (y : Index n m) (new : List PageId) (E : List (Key × RowId)) : Prop where
  occupies : y.Occupies gs new E
  tree : ∃ root, y.tree = { x.tree with root }
  apart : ∀ q, q ∉ old → x.pool.pages q ≠ none → q ∉ new
  others : ∀ q, q ∉ old → x.pool.pages q ≠ none →
    (∀ r, x.tree.registration = some r → q ≠ r.page) → y.pool.pages q = x.pool.pages q
  roots : ∀ r b, x.tree.registration = some r → x.pool.pages r.page = some b →
    ∃ b', y.pool.pages r.page = some b' ∧ C r b b'
  allocated : ∀ q, y.pool.pages q ≠ none ↔ q ∈ new ∨ (q ∉ old ∧ x.pool.pages q ≠ none)

section Leaves

variable {C C' : Registration → Page → Page → Prop}

theorem Leaves.record (hl : x.Leaves C gs old y new E) :
    y.tree.registration = x.tree.registration := by
  obtain ⟨root, htree⟩ := hl.tree
  rw [htree]

theorem Leaves.mono (hl : x.Leaves C gs old y new E) (hC : ∀ r b b', C r b b' → C' r b b') :
    x.Leaves C' gs old y new E where
  __ := hl
  roots r b hr hb := by
    obtain ⟨b', hb', hchange⟩ := hl.roots r b hr hb
    exact ⟨b', hb', hC r b b' hchange⟩

/-- The roots page stays apart from the tree's own pages. -/
theorem Leaves.recordsApart (hl : x.Leaves C gs old y new E) (hown : x.RecordsApart old) :
    y.RecordsApart new := by
  intro r hr
  rw [hl.record] at hr
  obtain ⟨hout, hne⟩ := hown r hr
  exact ⟨hl.apart _ hout hne, (hl.allocated _).2 (.inr ⟨hout, hne⟩)⟩

/-- A note at the end of a call. -/
theorem LeftBy.leaves {y₀ : Index n m} (hl : LeftBy Q ⟨tree.unrecorded, pool⟩ gs old y₀ E)
    (hown : RecordsApart ⟨tree, pool⟩ old) (htree : ∃ root, y₀.tree = { tree.unrecorded with root })
    (hreg : y.tree = { y₀.tree with registration := tree.registration })
    (hnotes : Notes C tree.registration y₀.pool y.pool) :
    ∃ new, Leaves ⟨tree, pool⟩ C gs old y new E ∧ y.OccupiesBy Q gs new E := by
  obtain ⟨new, hy₀, htrades⟩ := hl
  obtain ⟨root, htree⟩ := htree
  obtain ⟨hs, hothers, hallocated, hroots⟩ := hnotes.pages hy₀.sound
  have hkept : ∀ r, tree.registration = some r → r.page ∉ new ∧
    y₀.pool.pages r.page = pool.pages r.page :=
    fun r hr => htrades.kept (hown r hr).1 (hown r hr).2
  have hy : OccupiesBy Q ⟨{ y₀.tree with registration := tree.registration }, y.pool⟩ gs new E :=
    hy₀.congr hs (fun q hq => hothers q fun r hr e => (hkept r hr).1 (e ▸ hq)) _
  obtain ⟨ytree, ypool⟩ := y
  obtain rfl := hreg
  refine ⟨new, ⟨hy.occupies, ⟨root, by rw [htree]; rfl⟩, fun q hq hne => (htrades.kept hq hne).1,
    fun q hq hne hr => ?_, fun r b hr hb => ?_, fun q => ?_⟩, hy⟩
  · exact (hothers q hr).trans (htrades.kept hq hne).2
  · exact hroots r b hr ((hkept r hr).2.trans hb)
  · rw [hallocated]
    constructor
    · intro hq
      by_cases hnew : q ∈ new
      · exact .inl hnew
      · have hold : q ∉ old := fun hold => hq (htrades.freed q hold hnew)
        exact .inr ⟨hold, htrades.others q hold hnew ▸ hq⟩
    · rintro (hnew | ⟨hold, hq⟩)
      · exact hy₀.occupies.allocated q hnew
      · exact (htrades.kept hold hq).2 ▸ hq

/-- The tree may be taken for one without a record. -/
theorem OccupiesBy.unrecorded (hx : OccupiesBy Q ⟨tree, pool⟩ gs old E) :
    OccupiesBy Q ⟨tree.unrecorded, pool⟩ gs old E := hx.congr hx.sound (fun _ _ => rfl) none

end Leaves

/-- **An insertion that returned.** -/
theorem OccupiesBy.inserted (hQ : x.tree.Maintains Q) (hx : x.OccupiesBy Q gs old E)
    (hown : x.RecordsApart old) {added : Bool} (hrun : Index.insert key row x = .ok added y) :
    Inserted x.tree.order E key row (fun E' => ∃ new,
      x.Leaves (Roots.Signs x.tree.root y.tree.root) gs old y new E' ∧ y.OccupiesBy Q gs new E')
      added := by
  obtain ⟨tree, pool⟩ := x
  obtain ⟨hkey, y₀, hrun₀, hreg, hnotes⟩ := Tree.echo_insert hrun
  have hends := hx.unrecorded.insert_ends (hQ.handle tree.root none) rfl hkey row
  rw [hrun₀] at hends
  obtain ⟨htree, hinserted⟩ := hends
  exact hinserted.imp fun E' hleft => hleft.leaves hown htree hreg hnotes

theorem Occupies.inserted (hx : x.Occupies gs old E) (hown : x.RecordsApart old) {added : Bool}
    (hrun : Index.insert key row x = .ok added y) :
    Inserted x.tree.order E key row
      (fun E' => ∃ new, x.Leaves (Roots.Signs x.tree.root y.tree.root) gs old y new E') added := by
  refine (hx.by_true.inserted x.tree.maintains_true hown hrun).imp fun E' hleft => ?_
  obtain ⟨new, hnew, -⟩ := hleft
  exact ⟨new, hnew⟩

/-- An insertion that returned left an entry at least. -/
theorem Occupies.of_insert (hx : x.Occupies gs old E) (hown : x.RecordsApart old) {added : Bool}
    (hrun : Index.insert key row x = .ok added y) :
    ∃ new E', x.Leaves (Roots.Signs x.tree.root y.tree.root) gs old y new E' ∧ E' ≠ [] := by
  rcases hx.inserted hown hrun with
    ⟨-, ⟨row', hmem⟩, new, hnew⟩ | ⟨-, pre, post, -, -, -, new, hnew⟩
  · exact ⟨new, _, hnew, List.ne_nil_of_mem hmem⟩
  · exact ⟨new, _, hnew, List.append_ne_nil_of_right_ne_nil _ (List.cons_ne_nil _ _)⟩

/-- **A removal that returned.** -/
theorem OccupiesBy.removed (hQ : x.tree.Maintains Q) (hx : x.OccupiesBy Q gs old E)
    (hown : x.RecordsApart old) {found : Bool} (hrun : Index.remove key x = .ok found y) :
    Removed x.tree.order E key (fun E' => ∃ new,
      x.Leaves (Roots.Signs x.tree.root y.tree.root) gs old y new E' ∧ y.OccupiesBy Q gs new E')
      found := by
  obtain ⟨tree, pool⟩ := x
  obtain ⟨hkey, y₀, hrun₀, hreg, hnotes⟩ := Tree.echo_remove hrun
  have hends := hx.unrecorded.remove_ends (hQ.handle tree.root none) rfl hkey
  rw [hrun₀] at hends
  obtain ⟨htree, hremoved⟩ := hends
  exact hremoved.imp fun E' hleft => hleft.leaves hown htree hreg hnotes

theorem Occupies.removed (hx : x.Occupies gs old E) (hown : x.RecordsApart old) {found : Bool}
    (hrun : Index.remove key x = .ok found y) :
    Removed x.tree.order E key
      (fun E' => ∃ new, x.Leaves (Roots.Signs x.tree.root y.tree.root) gs old y new E') found := by
  refine (hx.by_true.removed x.tree.maintains_true hown hrun).imp fun E' hleft => ?_
  obtain ⟨new, hnew, -⟩ := hleft
  exact ⟨new, hnew⟩

theorem Occupies.of_remove (hx : x.Occupies gs old E) (hown : x.RecordsApart old) {found : Bool}
    (hrun : Index.remove key x = .ok found y) :
    ∃ new E', x.Leaves (Roots.Signs x.tree.root y.tree.root) gs old y new E' := by
  obtain ⟨pre, post, -, -, ⟨-, -, new, hnew⟩ | ⟨-, -, new, hnew⟩⟩ := hx.removed hown hrun
  · exact ⟨new, _, hnew⟩
  · exact ⟨new, _, hnew⟩

/-- **A tree that was destroyed** has no pages. -/
theorem Occupies.of_destroy (hx : x.Occupies gs old E) (hown : x.RecordsApart old)
    (hrun : Index.destroy x = .ok () y) : x.Leaves Roots.Strikes gs old y [] [] := by
  obtain ⟨tree, pool⟩ := x
  obtain ⟨y₀, hrun₀, hreg, hnotes⟩ := Tree.echo_destroy hrun
  have hends := hx.by_true.unrecorded.occupies.destroy_ends rfl
  rw [hrun₀] at hends
  obtain ⟨htree, hy, htrades⟩ := hends
  have hleft : LeftBy (fun _ _ => True) ⟨tree.unrecorded, pool⟩ gs old y₀ [] :=
    ⟨[], hy.by_true, htrades⟩
  obtain ⟨new, hnew, -⟩ := hleft.leaves hown ⟨_, htree⟩ hreg hnotes
  obtain rfl := hnew.occupies.eq_nil
  exact hnew

end Index

end PageStore
