import PageStore.Proofs.Tree.Supply

/-!
# Insertions that fail

An insertion that left every page as it was has changed nothing that can be read from the tree:
`Index.Agrees`. So an insertion that fails has changed nothing, or the disk ran full under it:
`Index.insert_fails`. A leaf that has to split in a pool with one frame is a case of the former:
`Index.Small.insert_eq_error`.
-/

namespace PageStore

open Pool

variable {n m : Nat} {α : Type} {pool : Pool n m} {gs : List (Guard n)} {tree : Tree}
  {x y : Index n m} {key : Key} {row : RowId} {l : List PageId} {E : List (Key × RowId)}
  {M : RowMap} {e : Halt}

/-! ## What can be seen of a tree -/

/-- What a call answered, or why it stopped. -/
def Action.outcome {σ : Type} : EStateM.Result Halt σ α → Except Halt α
  | .ok a _ => .ok a
  | .error e _ => .error e

/-- **Two states of an index agree** in all that can be seen of them: the root, the allocated pages,
the row of every key, what a walk yields, and what verifying answers. -/
structure Index.Agrees (x y : Index n m) : Prop where
  tree : y.tree = x.tree
  members : y.pool.members = x.pool.members
  get? : ∀ key, Action.outcome (y.tree.get? key y.pool) = Action.outcome (x.tree.get? key x.pool)
  entries : Action.outcome (y.tree.entries y.pool) = Action.outcome (x.tree.entries x.pool)
  verify : Action.outcome (y.tree.verify y.pool) = Action.outcome (x.tree.verify x.pool)

/-- Two states agree that list the same entries. -/
theorem Index.agrees_of_lists (htree : y.tree = x.tree) (hmembers : y.pool.members = x.pool.members)
    (hx : x.tree.Lists x.pool E) (hy : y.tree.Lists y.pool E)
    (hverify : ∃ pool, x.tree.verify x.pool = .ok E.length pool)
    (hverify' : ∃ pool, y.tree.verify y.pool = .ok E.length pool) : x.Agrees y := by
  refine ⟨htree, hmembers, fun key => ?_, ?_, ?_⟩
  · by_cases hkey : key.length = x.tree.keySize
    · obtain ⟨found, pool, hrun, hfound⟩ := hx.get? key hkey
      obtain ⟨found', pool', hrun', hfound'⟩ := hy.get? key (htree ▸ hkey)
      obtain rfl : found' = found := Option.ext fun row => (hfound' row).trans (hfound row).symm
      rw [hrun, hrun']
      rfl
    · rw [htree, Tree.get?_of_width hkey, Tree.get?_of_width hkey]
      rfl
  · obtain ⟨pool, hrun⟩ := hx.entries
    obtain ⟨pool', hrun'⟩ := hy.entries
    rw [hrun, hrun']
    rfl
  · obtain ⟨pool, hrun⟩ := hverify
    obtain ⟨pool', hrun'⟩ := hverify'
    rw [hrun, hrun']
    rfl

namespace Index

theorem Keeps.lists (hx : x.Keeps gs E) (hroom : Room gs 1) : x.tree.Lists x.pool E := by
  rcases hx.shape with ⟨hroot, rfl⟩ | ⟨d, h, t, ht, rfl⟩
  · exact Tree.lists_of_empty hroot
  · exact ht.readable.lists hx.sound ht.unwritten hroom

theorem Keeps.verify_eq_ok (hx : x.Keeps gs E) (hroom : Room gs 1) :
    ∃ pool, x.tree.verify x.pool = .ok E.length pool := by
  obtain ⟨_, pool, hrun, rfl, -⟩ := hx.verify_ends.exists_ok fun _ _ hc => hc hroom
  exact ⟨pool, hrun⟩

/-- **Readers see the pages** of an index, and nothing else of the pool. -/
theorem Keeps.agrees (hx : x.Keeps gs E) (hs : y.pool.Sound gs) (htree : y.tree = x.tree)
    (hpages : y.pool.pages = x.pool.pages) : x.Agrees y := by
  have hy : y.Keeps gs E := by
    have hkeeps := hx.of_pages hs hpages
    rwa [← htree] at hkeeps
  have hmembers := members_eq_of_pages hx.sound.space hs.space hpages
  by_cases hroom : Room gs 1
  · exact agrees_of_lists htree hmembers (hx.lists hroom) (hy.lists hroom) (hx.verify_eq_ok hroom)
      (hy.verify_eq_ok hroom)
  rcases hx.shape with ⟨hroot, rfl⟩ | ⟨d, h, t, ht, rfl⟩
  · have hroot' : y.tree.root = .none := htree ▸ hroot
    have hverify : ∀ {z : Index n m}, z.tree.root = .none → z.tree.verify z.pool = .ok 0 z.pool :=
      fun hz => by
        rw [Tree.verify, if_pos (Tree.isEmpty_iff.2 hz)]
        rfl
    exact agrees_of_lists htree hmembers (Tree.lists_of_empty hroot) (Tree.lists_of_empty hroot')
      ⟨_, hverify hroot⟩ ⟨_, hverify hroot'⟩
  -- nobody can look at a page
  have ht' : y.tree.Stands y.pool gs d t := htree ▸ ht.of_pages hs hpages
  refine ⟨htree, hmembers, fun key => ?_, ?_, ?_⟩
  · by_cases hkey : key.length = x.tree.keySize
    · obtain ⟨pool, hrun⟩ :=
        Tree.get?_eq_error hx.sound ht.not_isEmpty ht.root_allocated ht.root_free hroom hkey
      obtain ⟨pool', hrun'⟩ :=
        Tree.get?_eq_error hs ht'.not_isEmpty ht'.root_allocated ht'.root_free hroom (htree ▸ hkey)
      rw [hrun, hrun']
      rfl
    · rw [htree, Tree.get?_of_width hkey, Tree.get?_of_width hkey]
      rfl
  · obtain ⟨pool, hrun⟩ :=
      Tree.entries_eq_error hx.sound ht.not_isEmpty ht.root_allocated ht.root_free hroom
    obtain ⟨pool', hrun'⟩ :=
      Tree.entries_eq_error hs ht'.not_isEmpty ht'.root_allocated ht'.root_free hroom
    rw [hrun, hrun']
    rfl
  · obtain ⟨pool, hrun⟩ :=
      Tree.verify_eq_error hx.sound ht.not_isEmpty ht.root_allocated ht.root_free hroom
    obtain ⟨pool', hrun'⟩ :=
      Tree.verify_eq_error hs ht'.not_isEmpty ht'.root_allocated ht'.root_free hroom
    rw [hrun, hrun']
    rfl

/-- **An insertion that fails** leaves all that can be seen of an index, or the disk ran full under
it. -/
theorem Keeps.of_insert_error (hx : x.Keeps gs E) (hrun : insert key row x = .error e y) :
    x.Agrees y ∨ (e = .refused .diskFull ∧ y.tree = x.tree ∧
      x.pool.members ≠ Finset.range maxLogicalPages ∧
      y.pool.members = Finset.range maxLogicalPages) := by
  have htree := insert_tree hx.unrecorded key row
  have hstops := hx.insert_stops key row
  rw [hrun] at htree hstops
  obtain ⟨hs, hpages | ⟨he, hdisk, hfull⟩⟩ := hstops
  · exact .inl (hx.agrees hs htree hpages)
  · exact .inr ⟨he, htree, hdisk, hfull⟩

/-! ## One leaf -/

/-- **An index of one leaf at most**, in a file without other pages. Nodes have room for `L` items,
which are too few for two leaves. -/
structure Small (x : Index n m) (gs : List (Guard n)) (L : Nat) (l : List PageId)
    (E : List (Key × RowId)) (M : RowMap) : Prop where
  carries : x.CarriesBy x.tree.Uniform gs l E M
  alone : ∀ q, x.pool.pages q ≠ none → q ∈ l
  unrecorded : x.tree.registration = none
  limits : x.tree.limits = ⟨L, L⟩
  half : L < 2 * minSize L
  card_le : M.keys.card ≤ L

namespace Small

variable {L : Nat}

/-- It has no root, or its root is a leaf. -/
theorem shape (hx : x.Small gs L l E M) :
    (x.tree.root = .none ∧ M.keys.card = 0 ∧ l = []) ∨
      ∃ (d : TreePlan) (t : Shape 0), x.tree.Stands x.pool gs d t ∧ t.entries = E ∧
        t.items.length = M.keys.card ∧ d.max 0 = L ∧ l = [t.page] := by
  rcases hx.carries.occupies.shape with ⟨hroot, rfl, rfl⟩ | ⟨d, h, t, ht, rfl, rfl, hd⟩
  · exact .inl ⟨hroot, (Shows.length_eq (o := x.tree.order) hx.carries.shows .nil).symm, rfl⟩
  · have hcard := Shows.length_eq hx.carries.shows ht.readable.sorted
    have hlog : IsLogarithmic (h + 1) M.keys.card L L := by
      have hlevels := ht.isLogarithmic hd
      rwa [hcard, hx.limits] at hlevels
    have hhalf := hx.half
    obtain rfl : h = 0 := Nat.le_zero.1 (Nat.le_of_succ_le_succ
      (hlog.le_one (by omega) (hx.card_le.trans_lt hhalf)))
    refine .inr ⟨d, t, ht, rfl, hcard, ?_, rfl⟩
    rw [hd 0 (Nat.le_refl 0), hx.limits]
    rfl

/-- The disk has other pages to give. -/
theorem members_ne (hx : x.Small gs L l E M) : x.pool.members ≠ Finset.range maxLogicalPages := by
  have hless : l.length ≤ 1 := by
    rcases hx.shape with ⟨-, -, rfl⟩ | ⟨d, t, -, -, -, -, rfl⟩
    · exact Nat.zero_le 1
    · exact Nat.le_refl 1
  exact members_ne_range_of_length hx.carries.occupies.sound.space (hless.trans_lt (by decide))
    hx.alone

/-- **One frame is enough** as long as the leaf has room. -/
theorem insert_eq_ok (hx : x.Small gs L l E M) (hroom : Room gs 1)
    (hkey : key.length = x.tree.keySize) (hfew : M.keys.card < L) (row : RowId) :
    ∃ added y, insert key row x = .ok added y := by
  rcases hx.shape with ⟨hroot, -⟩ | ⟨d, t, ht, -, hlength, hmax, -⟩
  · have hrecord : ∀ r, x.tree.registration = some r → (∀ g ∈ gs, g.page ≠ r.page) ∧
        ∃ b, x.pool.pages r.page = some b ∧ Roots.get? b r.index ≠ none :=
      fun r hr => by cases hx.unrecorded.symm.trans hr
    obtain ⟨y, hrun⟩ := insert_first hx.carries.occupies.accepted hroot hx.carries.occupies.sound
      hroom hx.members_ne hkey row hrecord
    exact ⟨true, y, hrun⟩
  · obtain ⟨done, pool, hrun, hfits, -⟩ := Tree.insertBelow_leaf_eq_ok ht.follows hroom
      (hkey.trans ht.follows.width) ht.has ht.within ht.sized.most
      (.inr (hlength.trans_lt (hmax ▸ hfew))) row maxLogicalPages
    rw [insert_of_root hkey ht.not_isEmpty, ht.root]
    cases done with
    | duplicate => exact ⟨false, _, Action.bind_of_ok (onPool_eq_ok hrun)⟩
    | inserted => exact ⟨true, _, Action.bind_of_ok (onPool_eq_ok hrun)⟩
    | split separator right => exact absurd rfl (hfits separator right)

/-- What an insertion leaves of it. -/
theorem of_insert (hx : x.Small gs L l E M) (hfew : M.keys.card < L) {added : Bool}
    (hrun : insert key row x = .ok added y) :
    (∃ l' E', y.Small gs L l' E' ((TreeEdit.insert key row).after M)) ∧
      y.tree.keySize = x.tree.keySize := by
  have hedit : (TreeEdit.insert key row).run x = .ok () y := (Action.bind_of_ok hrun).trans rfl
  obtain ⟨C, l', E', hleaves, hy⟩ := hx.carries.of_edit x.tree.maintains_uniform hedit
  obtain ⟨root, htree⟩ := hleaves.tree
  have hsame : y.tree.Uniform = x.tree.Uniform := by
    rw [htree]
    rfl
  refine ⟨⟨l', E', hsame ▸ hy, fun q hq => ?_, ?_, ?_, hx.half, ?_⟩, by rw [htree]⟩
  · refine ((hleaves.allocated q).1 hq).resolve_right fun hin => ?_
    exact hin.1 (hx.alone q hin.2)
  · rw [htree]
    exact hx.unrecorded
  · rw [htree]
    exact hx.limits
  · exact (TreeEdit.card_after_insert_le M key row).trans hfew

/-- **A run of insertions** fills the leaf. -/
theorem inserts_eq_ok (entries : List (Key × RowId)) (hx : x.Small gs L l E M)
    (hroom : Room gs 1) (hkeys : ∀ e ∈ entries, e.1.length = x.tree.keySize)
    (hfew : M.keys.card + entries.length ≤ L) :
    ∃ y, (TreeEdit.inserts entries).forM TreeEdit.run x = .ok () y ∧
      y.tree.keySize = x.tree.keySize ∧
      ∃ l' E', y.Small gs L l' E' ((TreeEdit.inserts entries).foldl TreeEdit.after M) := by
  induction entries generalizing x l E M with
  | nil => exact ⟨x, rfl, rfl, l, E, hx⟩
  | cons e entries ih =>
    obtain ⟨hkey, hkeys⟩ := List.forall_mem_cons.1 hkeys
    rw [List.length_cons] at hfew
    obtain ⟨added, x₁, hinsert⟩ := hx.insert_eq_ok hroom hkey (by omega) e.2
    obtain ⟨⟨l₁, E₁, hx₁⟩, hwidth⟩ := hx.of_insert (by omega) hinsert
    have hcard := TreeEdit.card_after_insert_le M e.1 e.2
    obtain ⟨y, hrun, hsame, hy⟩ := ih hx₁ (fun d hd => (hkeys d hd).trans hwidth.symm) (by omega)
    have hedit : (TreeEdit.insert e.1 e.2).run x = .ok () x₁ :=
      (Action.bind_of_ok hinsert).trans rfl
    exact ⟨y, (Action.bind_of_ok hedit).trans hrun, hsame.trans hwidth, hy⟩

/-- **A full leaf** cannot split in one frame. -/
theorem insert_eq_error (hx : x.Small gs L l E M) (hone : Room gs 1) (htwo : ¬Room gs 2)
    (hkey : key.length = x.tree.keySize) (hfull : M.keys.card = L) (hmissing : key ∉ M)
    (row : RowId) : ∃ y, insert key row x = .error (.refused .poolFull) y := by
  rcases hx.shape with ⟨-, hnone, -⟩ | ⟨d, t, ht, rfl, hlength, hmax, -⟩
  · have hhalf := hx.half
    rw [← hfull, hnone] at hhalf
    exact absurd hhalf (by decide)
  · have hout : ∀ row', (key, row') ∉ t.items := fun row' hin =>
      hmissing (Finmap.mem_of_lookup_eq_some ((hx.carries.shows key row').2 hin))
    obtain ⟨pool, hrun⟩ := Tree.insertBelow_leaf_eq_error ht.follows hone htwo hx.members_ne
      (hkey.trans ht.follows.width) ht.has ht.within (hlength.trans (hfull.trans hmax.symm)) hout
      row maxLogicalPages
    rw [insert_of_root hkey ht.not_isEmpty, ht.root]
    exact ⟨_, Action.bind_of_error (onPool_eq_error hrun)⟩

end Small

/-! ## Any failed insertion -/

/-- **A failed insertion changes nothing, unless the disk ran full under it.** On a new file, after
any use of the pool, whatever settings the pool and the space are opened with: after any calls on a
new tree that returned, however little room the guards leave, an insertion that fails leaves the
tree, the allocated pages and all that can be read from the tree as they were. The one exception is
a disk that had a page left for the first node to split and none for a later one. -/
theorem insert_fails {config : PoolConfig} {disk : SpaceConfig} (hconfig : config.validate = .ok ())
    (hdisk : disk.validate = .ok ()) {v : Volume} (hv : v.openFile = .ok {}) (uses : List PoolCall)
    {order : KeyOrder} {keySize : Nat} {limits : TreeConfig} {tree : Tree}
    (htree : Tree.create order keySize limits = .ok tree) (calls : List TreeCall) :
    ∃ o, OpenPool.start config disk v = .ok o ∧
      ∀ replies x, calls.mapM TreeCall.run ⟨tree, (o.after uses).pool⟩ = .ok replies x →
        ∀ key row e y, insert key row x = .error e y →
          x.Agrees y ∨ (e = .refused .diskFull ∧ y.tree = x.tree ∧
            x.pool.members ≠ Finset.range maxLogicalPages ∧
            y.pool.members = Finset.range maxLogicalPages) := by
  obtain ⟨o, hstart, -, h⟩ := OpenPool.start_fresh hconfig hdisk hv
  refine ⟨o, hstart, fun replies x hcalls key row e y hrun => ?_⟩
  obtain ⟨E, hx, -⟩ :=
    (reflects_empty (OpenPool.sound_after h uses) htree).of_runs calls hcalls
  exact hx.of_insert_error hrun

/-- A pool with one frame, and a tree with three keys whose leaf cannot split for a fourth. -/
theorem insert_fails_one : ∃ o tree replies x y,
    OpenPool.start ⟨1, .lru⟩ ⟨1⟩ .missing = .ok o ∧
    Tree.create .bytewise 1 ⟨some 3, some 3⟩ = .ok tree ∧
    ((tens.take 3).map fun e => TreeCall.map (.insert e.1 e.2)).mapM TreeCall.run ⟨tree, o.pool⟩ =
      .ok replies x ∧
    insert [40] ⟨⟨5⟩, 4⟩ x = .error (.refused .poolFull) y ∧ x.Agrees y := by
  obtain ⟨o, hstart, -, hreflects⟩ := @OpenPool.start_fresh ⟨1, .lru⟩ ⟨1⟩ rfl rfl .missing rfl
  have hone : Room o.guards 1 := OpenPool.room_fresh rfl rfl rfl hstart (Nat.le_refl 1)
  have htwo : ¬Room o.guards 2 := by
    rw [OpenPool.room_fresh_iff rfl rfl rfl hstart]
    decide
  obtain ⟨tree, hcreate⟩ : ∃ t, Tree.create .bytewise 1 ⟨some 3, some 3⟩ = .ok t := ⟨_, rfl⟩
  obtain ⟨haccepted, hroot, -, hkeySize, hnone⟩ := Tree.accepted_of_create hcreate
  have hplan := Planting.run_unrecorded ⟨.bytewise, 1, ⟨some 3, some 3⟩, none⟩ hcreate rfl o.pool
  have hsmall : Small ⟨tree, o.pool⟩ o.guards 3 [] [] ∅ := by
    refine ⟨.of_planting hreflects.sound hplan hroot, fun q hq => ?_, hnone,
      Tree.limits_of_create hcreate, by decide, by decide⟩
    exact absurd (OpenPool.pages_fresh rfl rfl rfl hstart q) hq
  have hkeys : ∀ e ∈ tens.take 3, e.1.length = tree.keySize := by
    rw [hkeySize]
    decide
  obtain ⟨x, hedits, hwidth, l, E, hx⟩ := hsmall.inserts_eq_ok (tens.take 3) hone hkeys (by decide)
  obtain ⟨replies, hcalls⟩ := TreeEdit.exists_replies hedits
  have hkey : ([40] : Key).length = x.tree.keySize := hkeySize.symm.trans hwidth.symm
  obtain ⟨y, hrun⟩ := hx.insert_eq_error hone htwo hkey (by decide) (by decide) ⟨⟨5⟩, 4⟩
  obtain ⟨o', hstart', h⟩ := @insert_fails ⟨1, .lru⟩ ⟨1⟩ rfl rfl .missing rfl [] .bytewise 1
    ⟨some 3, some 3⟩ tree hcreate ((tens.take 3).map fun e => .map (.insert e.1 e.2))
  obtain rfl : o = o' := Except.ok.inj (hstart.symm.trans hstart')
  have hagrees := (h replies x hcalls [40] ⟨⟨5⟩, 4⟩ _ y hrun).resolve_right fun hdisk => by
    cases hdisk.1
  exact ⟨o, tree, replies, x, y, hstart, hcreate, hcalls, hrun, hagrees⟩

end Index

end PageStore
