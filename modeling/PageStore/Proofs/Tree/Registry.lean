import PageStore.Proofs.Tree.Supply

/-!
# The record of a tree leads back to it

A tree that is set up with a record in a roots page keeps its root there. `Index.Registered` says
what the page records after each change: the root that the tree has, which is none when removals
emptied it, or nothing from the time that the tree was destroyed until the next insertion. Every
change that returns preserves it: `Registered.of_edit`, `Registered.of_edits`.

Whoever opens the file again then finds the tree by its record alone, with the root and the entries
that it had: `Index.record_leads_back`.
-/

namespace PageStore

open Pool

variable {n m : Nat} {pool pool' : Pool n m} {gs : List (Guard n)} {tree : Tree} {x y : Index n m}
  {old new : List PageId} {E E' : List (Key × RowId)} {r : Registration} {b b' : Page}
  {root : PageId} {order : KeyOrder} {keySize : Nat} {limits : TreeConfig} {struck : Bool}

/-! ## What a record says -/

/-- Whether the record of a tree is struck after a change: destroying the tree strikes it, and an
insertion writes it again. -/
def TreeEdit.strikes : Bool → TreeEdit → Bool
  | _, .insert _ _ => false
  | struck, .remove _ => struck
  | _, .destroy => true

/-- What is recorded of a tree: its root, which may be none, or nothing. -/
def Tree.recorded (t : Tree) (struck : Bool) : Option PageId := if struck then none else some t.root

theorem Roots.Signs.sole {before after : PageId} (h : Signs before after r b b')
    (hb : Sole b r.index (some before)) : Sole b' r.index (some after) := by
  rcases h with ⟨rfl, rfl⟩ | hset
  · exact hb
  · exact hb.set hset

theorem Roots.Strikes.sole {recorded : Option PageId} (h : Strikes r b b')
    (hb : Sole b r.index recorded) : Sole b' r.index none := by
  obtain rfl := h
  exact hb.erase

namespace Index

/-- An index without a root is one without entries. -/
theorem Occupies.root_eq_none_iff (hx : x.Occupies gs old E) : x.tree.root = .none ↔ E = [] := by
  rcases hx.shape with ⟨hroot, hE, -⟩ | ⟨d, h, t, ht, rfl, -⟩
  · exact iff_of_true hroot hE
  · refine iff_of_false ?_ (ht.sized.entries_ne_nil ht.follows.fits (rootLeast_pos h))
    rw [ht.root]
    exact ht.has.page_ne_none

/-- Nothing is removed from an index without a root. -/
theorem eq_of_remove {key : Key} {found : Bool} (hroot : x.tree.root = .none)
    (hrun : Index.remove key x = .ok found y) : y = x := by
  rw [remove_of_empty (width_of_remove hrun) hroot] at hrun
  cases hrun
  rfl

/-- **What is always true of a tree with a record**, if the roots page has no other records. -/
structure Registered (x : Index n m) (gs : List (Guard n)) (order : KeyOrder) (keySize : Nat)
    (r : Registration) (struck : Bool) (old : List PageId) (E : List (Key × RowId)) : Prop where
  occupies : x.Occupies gs old E
  order_eq : x.tree.order = order
  keySize_eq : x.tree.keySize = keySize
  record : x.tree.registration = some r
  apart : r.page ∉ old
  page : ∃ b, x.pool.pages r.page = some b ∧ Roots.Sole b r.index (x.tree.recorded struck)
  empty : struck = true → x.tree.root = .none

namespace Registered

theorem recordsApart (hx : x.Registered gs order keySize r struck old E) : x.RecordsApart old := by
  intro r' hr'
  obtain rfl := Option.some.inj (hx.record.symm.trans hr')
  obtain ⟨b, hb, -⟩ := hx.page
  exact ⟨hx.apart, hb ▸ Option.some_ne_none b⟩

/-- A call leaves a tree with a record that says what it should. -/
theorem of_leaves (hx : x.Registered gs order keySize r struck old E)
    {C : Registration → Page → Page → Prop} (hl : x.Leaves C gs old y new E') {struck' : Bool}
    (hpage : ∀ b b', Roots.Sole b r.index (x.tree.recorded struck) → C r b b' →
      Roots.Sole b' r.index (y.tree.recorded struck'))
    (hempty : struck' = true → y.tree.root = .none) :
    y.Registered gs order keySize r struck' new E' := by
  obtain ⟨b, hb, hsole⟩ := hx.page
  obtain ⟨b', hb', hchange⟩ := hl.roots r b hx.record hb
  obtain ⟨root, htree⟩ := hl.tree
  have hapart := hl.apart r.page hx.apart (hb ▸ Option.some_ne_none b)
  refine ⟨hl.occupies, ?_, ?_, hl.record.trans hx.record, hapart,
    ⟨b', hb', hpage b b' hsole hchange⟩, hempty⟩
  · exact (congrArg Tree.order htree).trans hx.order_eq
  · exact (congrArg Tree.keySize htree).trans hx.keySize_eq

/-- **A change that returned.** -/
theorem of_edit (hx : x.Registered gs order keySize r struck old E) {edit : TreeEdit}
    (hrun : edit.run x = .ok () y) :
    ∃ new E', y.Registered gs order keySize r (edit.strikes struck) new E' := by
  cases edit with
  | insert key row =>
    obtain ⟨added, y', hinsert, hret⟩ := Action.bind_eq_ok_iff.1 hrun
    cases hret
    obtain ⟨new, E', hl, hne⟩ := hx.occupies.of_insert hx.recordsApart hinsert
    have hroot : y.tree.root ≠ .none := hl.occupies.root_eq_none_iff.not.2 hne
    refine ⟨new, E', hx.of_leaves hl (fun b b' hb hsigns => ?_) fun h =>
      absurd h Bool.false_ne_true⟩
    cases struck with
    | false => exact hsigns.sole hb
    | true =>
      -- there was no root, so the new one has been recorded
      rcases hsigns with ⟨hsame, -⟩ | hset
      · exact absurd (hsame.trans (hx.empty rfl)) hroot
      · exact hb.set hset
  | remove key =>
    obtain ⟨found, y', hremove, hret⟩ := Action.bind_eq_ok_iff.1 hrun
    cases hret
    cases struck with
    | false =>
      obtain ⟨new, E', hl⟩ := hx.occupies.of_remove hx.recordsApart hremove
      exact ⟨new, E', hx.of_leaves hl (fun b b' hb hsigns => hsigns.sole hb)
        fun h => absurd h Bool.false_ne_true⟩
    | true =>
      obtain rfl := eq_of_remove (hx.empty rfl) hremove
      exact ⟨old, E, hx⟩
  | destroy =>
    have hl := hx.occupies.of_destroy hx.recordsApart hrun
    exact ⟨[], [], hx.of_leaves hl (fun b b' hb hstrikes => hstrikes.sole hb)
      fun _ => hl.occupies.root_eq_none_iff.2 rfl⟩

/-- **A run of changes.** -/
theorem of_edits (edits : List TreeEdit) (hx : x.Registered gs order keySize r struck old E)
    (hrun : edits.forM TreeEdit.run x = .ok () y) :
    ∃ new E', y.Registered gs order keySize r (edits.foldl TreeEdit.strikes struck) new E' := by
  induction edits generalizing x struck old E with
  | nil =>
    cases hrun
    exact ⟨old, E, hx⟩
  | cons edit edits ih =>
    obtain ⟨⟨⟩, x₁, hedit, hrun⟩ := Action.bind_eq_ok_iff.1 hrun
    obtain ⟨new, E', hx₁⟩ := hx.of_edit hedit
    exact ih hx₁ hrun

end Registered

end Index

/-! ## Setting a tree up -/

/-- A root that was recorded is in the roots page. -/
theorem Tree.of_persistRoot (hs : pool.Sound gs) (hrecord : tree.registration = some r)
    (hrun : tree.persistRoot pool = .ok () pool') :
    ∃ b b', pool.pages r.page = some b ∧ Roots.set b r.index tree.root = some b' ∧
      pool'.Sound gs ∧ pool'.pages = Function.update pool.pages r.page (some b') := by
  rw [Tree.persistRoot, hrecord] at hrun
  have hupdate : Pool.update r.page (Roots.note r tree.root) pool = .ok () pool' := hrun
  obtain ⟨b, b', hb, hnote, hs', hpages⟩ := hs.of_update hupdate
  exact ⟨b, b', hb, Roots.note_eq_ok_iff.1 hnote, hs', hpages⟩

/-- **A tree that was set up** on a roots page of zeros is in it. -/
theorem Planting.registered (hs : pool.Sound gs)
    (hzero : pool.pages r.page = some (Block.zero pageSize))
    (hrun : Planting.run ⟨order, keySize, limits, some r⟩ pool = .ok tree pool') :
    0 < n ∧ Index.Registered ⟨tree, pool'⟩ gs order keySize r false [] [] := by
  rw [Planting.run] at hrun
  cases hcreate : Tree.create order keySize limits with
  | error e =>
    rw [Action.bind_of_error (Action.check_error hcreate pool)] at hrun
    cases hrun
  | ok t =>
    rw [Action.bind_of_ok (Action.check_ok hcreate pool)] at hrun
    obtain ⟨haccepted, hroot, horder, hwidth, -⟩ := Tree.accepted_of_create hcreate
    obtain ⟨recorded, pool₁, hview, hrun⟩ := Action.bind_eq_ok_iff.1 hrun
    obtain ⟨g, -⟩ := Action.bind_eq_ok_iff.1 hview
    obtain ⟨page, hpage, hlook, hs₁, hpages₁⟩ := hs.of_view hview
    obtain rfl := Option.some.inj (hzero.symm.trans hpage)
    obtain rfl : none = recorded := (Roots.get?_zero r.index).symm.trans (Except.ok.inj hlook)
    obtain ⟨⟨⟩, pool₂, hpersist, hret⟩ := Action.bind_eq_ok_iff.1 hrun
    cases hret
    obtain ⟨b, b', hb, hset, hs₂, hpages₂⟩ := Tree.of_persistRoot hs₁ rfl hpersist
    rw [hpages₁, hzero] at hb
    obtain rfl := Option.some.inj hb
    have ha : Tree.Accepted { t with registration := some r } := haccepted.handle _ _
    have hrecorded : pool'.pages r.page = some b' := by rw [hpages₂, Function.update_self]
    exact ⟨g.frame.pos, ⟨hs₂, ha, .inl ⟨hroot, rfl, rfl⟩⟩, horder, hwidth, rfl, List.not_mem_nil,
      ⟨b', hrecorded, (Roots.Sole.zero _).set hset⟩, fun h => absurd h Bool.false_ne_true⟩

/-! ## Coming back -/

namespace Index

/-- The root of an index is a node of its keys, or none. -/
theorem Occupies.checkRoot_eq_ok (hx : x.Occupies gs old E) (hroom : Room gs 1) :
    ∃ pool', x.tree.checkRoot x.pool = .ok () pool' ∧ pool'.Sound gs ∧
      pool'.pages = x.pool.pages := by
  rcases hx.shape with ⟨hroot, -, -⟩ | ⟨d, h, t, ht, -, -⟩
  · have hnone : ¬x.tree.root.isSome = true := PageId.isSome_iff.not_left.2 hroot
    refine ⟨x.pool, ?_, hx.sound, rfl⟩
    rw [Tree.checkRoot, if_neg hnone]
    rfl
  · obtain ⟨⟨⟩, pool', hrun, hkept⟩ := ht.checkRoot_ends.exists_ok fun e pool' hc => hc hroom
    exact ⟨pool', hrun, hkept⟩

/-- A root that is recorded becomes the root of the tree. -/
theorem Occupies.register_eq_ok
    (hx : Occupies ⟨{ tree with root, registration := some r }, pool⟩ gs old E) (hroom : Room gs 1)
    (hfree : ∀ g ∈ gs, g.page ≠ r.page) (hb : pool.pages r.page = some b)
    (hget : Roots.get? b r.index = some root) :
    ∃ pool', tree.register r.page r.index pool =
        .ok { tree with root, registration := some r } pool' ∧ pool'.Sound gs ∧
      pool'.pages = pool.pages := by
  let look : Page → Except Halt (Option PageId) := fun bytes => .ok (Roots.get? bytes r.index)
  have hlook : look b = .ok (some root) := congrArg Except.ok hget
  obtain ⟨pool₁, hview, hs₁, hpages₁⟩ := hx.sound.view_eq_ok hb hlook hfree hroom
  have hx₁ := hx.congr hs₁ (fun q _ => congrFun hpages₁ q) (some r)
  obtain ⟨pool₂, hcheck, hs₂, hpages₂⟩ := hx₁.checkRoot_eq_ok hroom
  refine ⟨pool₂, ?_, hs₂, hpages₂.trans hpages₁⟩
  rw [Tree.register, Action.bind_of_ok hview]
  exact (Action.bind_of_ok hcheck).trans rfl

/-- **Setting the tree up again**, over a pool with the same pages, gives it its root back. -/
theorem Registered.run_eq_ok (hx : x.Registered gs order keySize r struck old E) {n' m' : Nat}
    {pool : Pool n' m'} (hs : pool.Sound []) (hpages : pool.pages = x.pool.pages)
    (hroom : Room ([] : List (Guard n')) 1)
    (hcreate : Tree.create order keySize limits = .ok tree) :
    ∃ tree' pool', Planting.run ⟨order, keySize, limits, some r⟩ pool = .ok tree' pool' ∧
      tree'.root = x.tree.root ∧ Occupies ⟨tree', pool'⟩ [] old E := by
  obtain ⟨haccepted, hnone, horder, hwidth, -⟩ := Tree.accepted_of_create hcreate
  obtain ⟨b, hb, hsole⟩ := hx.page
  rw [← hpages] at hb
  have hnil : ∀ g ∈ ([] : List (Guard n')), g.page ≠ r.page := List.forall_mem_nil _
  let tree' : Tree := { tree with root := x.tree.root, registration := some r }
  have hcarry : ∀ pool' : Pool n' m', pool'.Sound [] →
      (∀ q ∈ old, pool'.pages q = x.pool.pages q) → Occupies ⟨tree', pool'⟩ [] old E :=
    fun pool' hs' hP => hx.occupies.carry hs' hP (List.forall_mem_nil _) (haccepted.handle _ _) rfl
      (horder.trans hx.order_eq.symm) (hwidth.trans hx.keySize_eq.symm)
  -- a root that is recorded is taken over, and one that is not is recorded again
  cases struck with
  | false =>
    have hy := hcarry pool hs fun q _ => congrFun hpages q
    obtain ⟨pool', hregister, hs', hpages'⟩ := hy.register_eq_ok hroom hnil hb hsole.get?_eq
    refine ⟨tree', pool', ?_, rfl, hcarry pool' hs' fun q _ => ?_⟩
    · rw [Planting.run, Action.bind_of_ok (Action.check_ok hcreate pool)]
      exact hregister
    · rw [hpages', hpages]
  | true =>
    have hcount : Roots.count b < maxIndexRoots := by
      rw [hsole.count_eq_zero]
      decide
    obtain ⟨pool', hrun, hs', b', -, hpages'⟩ := Planting.run_eq_ok
      ⟨order, keySize, limits, some r⟩ hs hroom hcreate rfl hnil hb hsole.get?_eq hcount
    have hroot : x.tree.root = tree.root := (hx.empty rfl).trans hnone.symm
    refine ⟨tree', pool', ?_, rfl, hcarry pool' hs' fun q hq => ?_⟩
    · rw [hrun, ← hroot]
    · have hne : q ≠ r.page := fun e => hx.apart (e ▸ hq)
      rw [hpages', Function.update_of_ne hne, hpages]

end Index

/-! ## Every point of every run -/

/-- **The record leads back to the tree.** The roots page records the root that the tree has, or
nothing when the record is struck. When the guards are given back, and the pool and the space are
closed and opened again with any settings, a tree that is set up with this record has the same root
and the same entries, and verifies. -/
structure Index.LeadsBack (x : Index n m) (gs : List (Guard n)) (order : KeyOrder) (keySize : Nat)
    (r : Registration) (struck : Bool) : Prop where
  /-- what the roots page says -/
  record : ∃ b, x.pool.pages r.page = some b ∧ Roots.get? b r.index = x.tree.recorded struck
  /-- what the tree lists, and what a tree lists that is found by the record -/
  reopens : ∃ E, (Room gs 1 → x.tree.Lists x.pool E) ∧
    x.tree.Lists (gs.foldl (fun pool g => pool.release g) x.pool) E ∧
    ∀ (config : PoolConfig) (disk : SpaceConfig) (limits : TreeConfig) (fresh : Tree),
      config.validate = .ok () → disk.validate = .ok () →
      Tree.create order keySize limits = .ok fresh →
      ∃ o tree pool, OpenPool.start config disk (OpenPool.stop ⟨n, m, x.pool, gs⟩) = .ok o ∧
        Planting.run ⟨order, keySize, limits, some r⟩ o.pool = .ok tree pool ∧
        tree.root = x.tree.root ∧ tree.Lists pool E ∧
        ∃ pool', tree.verify pool = .ok E.length pool'

theorem Index.Registered.leadsBack (hx : x.Registered gs order keySize r struck old E)
    (hn : 0 < n) :
    x.LeadsBack gs order keySize r struck := by
  obtain ⟨b, hb, hsole⟩ := hx.page
  obtain ⟨hs, hpages⟩ := hx.occupies.sound.release_all
  have hempty : ∀ {k : Nat}, 0 < k → Room ([] : List (Guard k)) 1 := fun hk => by
    simpa [Room] using Nat.succ_le_of_lt hk
  refine ⟨⟨b, hb, hsole.get?_eq⟩, E, fun hroom => hx.occupies.lists hroom, ?_,
    fun config disk limits fresh hconfig hdisk hcreate => ?_⟩
  · have hy : Occupies ⟨x.tree, gs.foldl (fun pool g => pool.release g) x.pool⟩ [] old E :=
      hx.occupies.carry hs (fun q _ => congrFun hpages q) (List.forall_mem_nil _)
        hx.occupies.accepted rfl rfl rfl
    exact hy.lists (hempty hn)
  · obtain ⟨o, hstart, hframes, hguards, hs', hpages'⟩ :=
      OpenPool.start_stop (o := ⟨n, m, x.pool, gs⟩) hx.occupies.sound hconfig hdisk
    have hroom : Room ([] : List (Guard o.frames)) 1 :=
      hempty (hframes ▸ (PoolConfig.validate_eq_ok_iff.1 hconfig).1)
    obtain ⟨tree, pool, hrun, hroot, hy⟩ := hx.run_eq_ok (hguards ▸ hs') hpages' hroom hcreate
    exact ⟨o, tree, pool, hstart, hrun, hroot, hy.lists hroom, hy.verify_eq_ok hroom⟩

/-- **The record of a tree always leads back to it.** On a new file, after any use of the pool, a
tree is set up with a record in a roots page of zeros. After every run of insertions, removals and
destructions that all return, the roots page records the root that the tree has, or nothing from a
destruction until the next insertion, and leads back to the tree whatever settings the file is
opened again with. -/
theorem Index.record_leads_back {config : PoolConfig} {disk : SpaceConfig}
    (hconfig : config.validate = .ok ()) (hdisk : disk.validate = .ok ()) {v : Volume}
    (hv : v.openFile = .ok {}) (uses : List PoolCall) (order : KeyOrder) (keySize : Nat)
    (limits : TreeConfig) (r : Registration) :
    ∃ o, OpenPool.start config disk v = .ok o ∧
      ((o.after uses).pool.pages r.page = some (Block.zero pageSize) →
        ∀ tree pool, Planting.run ⟨order, keySize, limits, some r⟩ (o.after uses).pool =
          .ok tree pool →
        ∀ (edits : List TreeEdit) (x : Index _ _),
          edits.forM TreeEdit.run ⟨tree, pool⟩ = .ok () x →
          x.LeadsBack (o.after uses).guards order keySize r
            (edits.foldl TreeEdit.strikes false)) := by
  obtain ⟨o, hstart, -, ho⟩ := OpenPool.start_fresh hconfig hdisk hv
  refine ⟨o, hstart, fun hzero tree pool hplant edits x hrun => ?_⟩
  obtain ⟨hn, hx⟩ := Planting.registered (OpenPool.sound_after ho uses) hzero hplant
  obtain ⟨old, E, hx⟩ := hx.of_edits edits hrun
  exact hx.leadsBack hn

/-- A pool with two frames, and a tree whose root is a leaf first, and then a new node above it. -/
theorem Index.record_leads_back_one : ∃ o r used tree pool x,
    OpenPool.start ⟨2, .lru⟩ ⟨1⟩ .missing = .ok o ∧ o.after [.newPage, .drop 0] = used ∧
    used.pool.pages r.page = some (Block.zero pageSize) ∧
    Planting.run ⟨.bytewise, 1, ⟨some 3, some 3⟩, some r⟩ used.pool = .ok tree pool ∧
    (TreeEdit.inserts tens).forM TreeEdit.run ⟨tree, pool⟩ = .ok () x ∧
    x.tree.HasLevels x.pool.pages 2 ∧ x.LeadsBack used.guards .bytewise 1 r false := by
  obtain ⟨o, hstart, -⟩ := @OpenPool.start_fresh ⟨2, .lru⟩ ⟨1⟩ rfl rfl .missing rfl
  obtain ⟨r, used, tree, pool, x, rfl, hzero, -, hplant, hedits, hlevels⟩ :=
    Planting.tens_recorded rfl rfl rfl hstart (Nat.le_refl 2) 5
  obtain ⟨o', hstart', h⟩ := @Index.record_leads_back ⟨2, .lru⟩ ⟨1⟩ rfl rfl .missing rfl
    [.newPage, .drop 0] .bytewise 1 ⟨some 3, some 3⟩ r
  obtain rfl : o = o' := Except.ok.inj (hstart.symm.trans hstart')
  exact ⟨o, r, _, tree, pool, x, hstart, rfl, hzero, hplant, hedits, hlevels,
    h hzero tree pool hplant (TreeEdit.inserts tens) x hedits⟩

end PageStore
