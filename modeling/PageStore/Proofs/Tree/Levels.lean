import PageStore.Proofs.Tree.Registry

/-!
# How many levels a tree has

The number of levels of a tree is logarithmic in the number of its entries.
`Index.height_logarithmic` is about trees after any run of changes, whose nodes are as large as the
settings say that they were set up with.
-/

namespace PageStore

open Pool

variable {n m : Nat} {pool : Pool n m} {gs : List (Guard n)} {tree : Tree}

/-! ## Settings -/

/-- The largest size of the leaves of a tree that is set up so. -/
def Planting.leafMax (plan : Planting) : Nat :=
  plan.limits.leafMax.getD (NodeKind.leaf.capacity plan.keySize)

/-- The largest number of children of its internal nodes. -/
def Planting.internalMax (plan : Planting) : Nat :=
  plan.limits.internalMax.getD (NodeKind.internal.capacity plan.keySize)

/-- New nodes of a tree are as large as its settings say. -/
theorem Planting.limits_eq {plan : Planting} {pool' : Pool n m} (hs : pool.Sound gs)
    (hrun : plan.run pool = .ok tree pool') (hroot : tree.root = .none) :
    tree.limits = ⟨plan.leafMax, plan.internalMax⟩ := by
  obtain ⟨t, hcreate, rfl, -⟩ := Planting.created hs hrun hroot
  have hlimits := Tree.limits_of_create hcreate
  exact hlimits

/-! ## The first key -/

namespace Index

variable {x y : Index n m} {l : List PageId} {E : List Entry} {M : RowMap}
  {Q : Nat → TreePlan → Prop}

/-- An insertion into a tree without keys needs a frame. -/
theorem room_of_insert {key : Key} {row : RowId} {added : Bool} (hs : x.pool.Sound gs)
    (hroot : x.tree.root = .none) (hrun : x.insert key row = .ok added y) : Room gs 1 := by
  rw [insert_of_empty (width_of_insert hrun) hroot] at hrun
  obtain ⟨root, x₂, hleaf, -⟩ := Action.bind_eq_ok_iff.1 hrun
  obtain ⟨pool', hnew, -⟩ := of_onPool hleaf
  rw [Tree.newLeaf] at hnew
  obtain ⟨g, pool₁, hpage, -⟩ := Action.bind_eq_ok_iff.1 hnew
  exact (hs.of_newPage hpage).2

/-- So does any change that makes the first entry. -/
theorem CarriesBy.room_of_edit (hx : x.CarriesBy Q gs l E ∅) {edit : TreeEdit}
    (hrun : edit.run x = .ok () y) (hM : edit.after ∅ ≠ ∅) : Room gs 1 := by
  have hE : E = [] := List.eq_nil_iff_forall_not_mem.2 fun e he => by
    have := (hx.shows e.1 e.2).2 he
    simp at this
  have hroot : x.tree.root = .none := hx.occupies.occupies.root_eq_none_iff.2 hE
  cases edit with
  | insert key row =>
    obtain ⟨added, y', hinsert, -⟩ := Action.bind_eq_ok_iff.1 hrun
    exact room_of_insert hx.occupies.sound hroot hinsert
  | remove key => exact absurd (erase_of_notMem Finmap.notMem_empty) hM
  | destroy => exact absurd rfl hM

/-- **Keys need a frame.** Changes that make some of an index without keys do not all return while
every frame has a guard. -/
theorem CarriesBy.room_of_edits (edits : List TreeEdit) (hQ : x.tree.Maintains Q)
    (hx : x.CarriesBy Q gs l E M) (hrun : edits.forM TreeEdit.run x = .ok () y)
    (hM : edits.foldl TreeEdit.after M ≠ ∅) : M ≠ ∅ ∨ Room gs 1 := by
  induction edits generalizing x l E M with
  | nil => exact .inl hM
  | cons edit edits ih =>
    obtain ⟨⟨⟩, x₁, hedit, hrun⟩ := Action.bind_eq_ok_iff.1 hrun
    obtain ⟨C, l₁, E₁, hleaves, hx₁⟩ := hx.of_edit hQ hedit
    obtain ⟨root, htree⟩ := hleaves.tree
    have hQ₁ : x₁.tree.Maintains Q := htree ▸ hQ.handle root x.tree.registration
    rcases ih hQ₁ hx₁ hrun hM with hafter | hroom
    · by_cases hempty : M = ∅
      · subst hempty
        exact .inr (hx.room_of_edit hedit hafter)
      · exact .inl hempty
    · exact .inr hroom

/-- **The height is logarithmic.** On a new file, after any use of the pool, whatever settings the
pool and the space are opened with: a tree is set up without keys, with or without a record of its
root. After every run of insertions, removals and destructions that all return, if it has keys, all
of its leaves are on one level, which is the height that is answered, and the number of levels is
logarithmic in the number of keys. -/
theorem height_logarithmic {config : PoolConfig} {disk : SpaceConfig}
    (hconfig : config.validate = .ok ()) (hdisk : disk.validate = .ok ()) {v : Volume}
    (hv : v.openFile = .ok {}) (uses : List PoolCall) (plan : Planting) :
    ∃ o, OpenPool.start config disk v = .ok o ∧ ∀ tree pool,
      plan.run (o.after uses).pool = .ok tree pool → tree.root = .none →
      ∀ (edits : List TreeEdit) (x : Index _ _), edits.forM TreeEdit.run ⟨tree, pool⟩ = .ok () x →
        ∀ n, n = (edits.foldl TreeEdit.after ∅).keys.card → n ≠ 0 →
          ∃ levels, x.tree.HasLevels x.pool.pages levels ∧
            IsLogarithmic levels n plan.leafMax plan.internalMax ∧
            ∃ pool', x.tree.height x.pool = .ok levels pool' := by
  obtain ⟨o, hstart, -, h⟩ := OpenPool.start_fresh hconfig hdisk hv
  refine ⟨o, hstart, ?_⟩
  rintro tree pool hplan hroot edits x hrun n rfl hkeys
  have hsound := OpenPool.sound_after h uses
  have hempty : CarriesBy tree.Uniform ⟨tree, pool⟩ (o.after uses).guards [] [] ∅ :=
    .of_planting hsound hplan hroot
  have hroom : Room (o.after uses).guards 1 := by
    refine (hempty.room_of_edits edits tree.maintains_uniform hrun fun hM => ?_).resolve_left
      fun hne => hne rfl
    rw [hM] at hkeys
    exact hkeys rfl
  obtain ⟨⟨l, E, hx⟩, root, htree⟩ := hempty.uniform_of_edits edits hrun
  have hlimits : x.tree.limits = tree.limits := by rw [htree]
  have hlevels := hx.height hkeys hroom
  rw [hlimits, Planting.limits_eq hsound hplan hroot] at hlevels
  exact hlevels

/-- A tree with four keys, whose leaves have three entries at most, has two levels. -/
theorem height_logarithmic_one : ∃ o tree x,
    OpenPool.start ⟨2, .lru⟩ ⟨1⟩ .missing = .ok o ∧
    Planting.run ⟨.bytewise, 1, ⟨some 3, some 3⟩, none⟩ o.pool = .ok tree o.pool ∧
    (TreeEdit.inserts tens).forM TreeEdit.run ⟨tree, o.pool⟩ = .ok () x ∧
    x.tree.HasLevels x.pool.pages 2 ∧ IsLogarithmic 2 4 3 3 ∧
    ∃ pool', x.tree.height x.pool = .ok 2 pool' := by
  obtain ⟨o, tree, x, hstart, -, hplan, hroot, hedits, -⟩ := exists_tens
  obtain ⟨o', hstart', h⟩ := @height_logarithmic ⟨2, .lru⟩ ⟨1⟩ rfl rfl .missing rfl []
    ⟨.bytewise, 1, ⟨some 3, some 3⟩, none⟩
  obtain rfl : o = o' := Except.ok.inj (hstart.symm.trans hstart')
  obtain ⟨levels, hlevels, hlog, hheight⟩ :=
    h tree o.pool hplan hroot (TreeEdit.inserts tens) x hedits 4 rfl (by decide)
  obtain rfl : levels = 2 := hlog.eq_two (by decide) (by decide)
  exact ⟨o, tree, x, hstart, hplan, hedits, hlevels, hlog, hheight⟩

end Index

end PageStore
