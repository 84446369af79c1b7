import PageStore.Proofs.Forest
import PageStore.Proofs.Tree.Heights
import PageStore.Proofs.Tree.Run

/-!
# Trees that were changed

After any run of changes that return, the entries of a tree are those of the map that the changes
make: `Index.Carries`. With them goes any property of heights and plans that growing and shrinking
keep: `Index.CarriesBy`.
-/

namespace PageStore

open Pool

variable {n m : Nat} {pool : Pool n m} {gs : List (Guard n)} {tree : Tree} {x y : Index n m}
  {l : List PageId} {E : List Entry} {M : RowMap} {Q : Nat → TreePlan → Prop}

/-- What the change makes of a map. An insertion keeps the row of a key that is present. -/
def TreeEdit.after (M : RowMap) : TreeEdit → RowMap
  | insert key row => MapCall.after M (.insert key row)
  | remove key => MapCall.after M (.remove key)
  | destroy => ∅

/-- The insertions of some entries, one after the other. -/
def TreeEdit.inserts (entries : List (Key × RowId)) : List TreeEdit :=
  entries.map fun e => .insert e.1 e.2

/-- What is inserted is inserted by calls, too. -/
theorem TreeEdit.exists_replies {entries : List (Key × RowId)}
    (hrun : (TreeEdit.inserts entries).forM TreeEdit.run x = .ok () y) :
    ∃ replies, (entries.map fun e => TreeCall.map (.insert e.1 e.2)).mapM TreeCall.run x =
      .ok replies y := by
  induction entries generalizing x with
  | nil =>
    cases hrun
    exact ⟨[], rfl⟩
  | cons e entries ih =>
    obtain ⟨⟨⟩, x₁, hedit, hrun⟩ := Action.bind_eq_ok_iff.1 hrun
    obtain ⟨added, x₂, hinsert, hret⟩ := Action.bind_eq_ok_iff.1 hedit
    cases hret
    obtain ⟨replies, hrest⟩ := ih hrun
    have hmap : (MapCall.insert e.1 e.2).run x = .ok (.flag added) x₁ :=
      (Action.bind_of_ok hinsert).trans rfl
    have hcall : (TreeCall.map (.insert e.1 e.2)).run x = .ok (.map (.flag added)) x₁ :=
      (Action.bind_of_ok hmap).trans rfl
    refine ⟨.map (.flag added) :: replies, ?_⟩
    rw [List.map_cons, List.mapM_cons, Action.bind_of_ok hcall]
    exact (Action.bind_of_ok hrest).trans rfl

/-- An insertion makes one key more at most. -/
theorem TreeEdit.card_after_insert_le (M : RowMap) (key : Key) (row : RowId) :
    ((TreeEdit.insert key row).after M).keys.card ≤ M.keys.card + 1 := by
  rw [TreeEdit.after, MapCall.after]
  split
  · exact Nat.le_succ _
  · refine (Finset.card_le_card fun k hk => ?_).trans (Finset.card_insert_le key M.keys)
    rw [Finmap.mem_keys, Finmap.mem_insert] at hk
    rwa [Finset.mem_insert, Finmap.mem_keys]

namespace Index

/-- The index takes up these pages, its record lies outside of them, and its entries are those of
the map. -/
structure Carries (x : Index n m) (gs : List (Guard n)) (l : List PageId) (E : List Entry)
    (M : RowMap) : Prop where
  occupies : x.Occupies gs l E
  apart : x.RecordsApart l
  shows : Shows E fun key => M.lookup key

/-- The same of an index whose height and plan have a property. -/
structure CarriesBy (Q : Nat → TreePlan → Prop) (x : Index n m) (gs : List (Guard n))
    (l : List PageId) (E : List Entry) (M : RowMap) : Prop where
  occupies : x.OccupiesBy Q gs l E
  apart : x.RecordsApart l
  shows : Shows E fun key => M.lookup key

theorem CarriesBy.carries (hx : x.CarriesBy Q gs l E M) : x.Carries gs l E M :=
  ⟨hx.occupies.occupies, hx.apart, hx.shows⟩

/-- What a call leaves of an index with the entries of a map. -/
theorem CarriesBy.of_leaves {C : Registration → Page → Page → Prop} {l' : List PageId}
    {E' : List Entry} {M' : RowMap} (hx : x.CarriesBy Q gs l E M) (hl : x.Leaves C gs l y l' E')
    (hQ : y.OccupiesBy Q gs l' E') (hM : Shows E' fun key => M'.lookup key) :
    ∃ C l' E', x.Leaves C gs l y l' E' ∧ y.CarriesBy Q gs l' E' M' :=
  ⟨C, l', E', hl, hQ, hl.recordsApart hx.apart, hM⟩

/-- **One change** makes of the entries what it makes of the map. -/
theorem CarriesBy.of_edit (hQ : x.tree.Maintains Q) (hx : x.CarriesBy Q gs l E M) {edit : TreeEdit}
    (hrun : edit.run x = .ok () y) :
    ∃ C l' E', x.Leaves C gs l y l' E' ∧ y.CarriesBy Q gs l' E' (edit.after M) := by
  cases edit with
  | insert key row =>
    obtain ⟨added, y', hinsert, hret⟩ := Action.bind_eq_ok_iff.1 hrun
    cases hret
    rcases hx.occupies.inserted hQ hx.apart hinsert with
      ⟨-, ⟨row', hmem⟩, new, hnew, hby⟩ | ⟨-, pre, post, rfl, hpre, hpost, new, hnew, hby⟩
    · have hin : key ∈ M := Finmap.mem_of_lookup_eq_some ((hx.shows key row').2 hmem)
      refine hx.of_leaves hnew hby ?_
      rw [TreeEdit.after, MapCall.after, if_pos hin]
      exact hx.shows
    · have hout : key ∉ M := hx.shows.notMem hpre hpost
      refine hx.of_leaves hnew hby ?_
      rw [TreeEdit.after, MapCall.after, if_neg hout]
      exact hx.shows.insert hpre hpost
  | remove key =>
    obtain ⟨found, y', hremove, hret⟩ := Action.bind_eq_ok_iff.1 hrun
    cases hret
    obtain ⟨pre, post, hpre, hpost, ⟨-, rfl, new, hnew, hby⟩ | ⟨-, ⟨row, rfl⟩, new, hnew, hby⟩⟩ :=
      hx.occupies.removed hQ hx.apart hremove
    · refine hx.of_leaves hnew hby ?_
      rw [TreeEdit.after, MapCall.after, erase_of_notMem (hx.shows.notMem hpre hpost)]
      exact hx.shows
    · exact hx.of_leaves hnew hby (hx.shows.erase hpre hpost)
  | destroy =>
    have hnew := hx.occupies.occupies.of_destroy hx.apart hrun
    exact hx.of_leaves hnew hnew.occupies.by_of_nil shows_empty

/-- **A run of changes.** -/
theorem CarriesBy.of_edits (edits : List TreeEdit) (hQ : x.tree.Maintains Q)
    (hx : x.CarriesBy Q gs l E M) (hrun : edits.forM TreeEdit.run x = .ok () y) :
    (∃ l' E', y.CarriesBy Q gs l' E' (edits.foldl TreeEdit.after M)) ∧
      ∃ root, y.tree = { x.tree with root } := by
  induction edits generalizing x l E M with
  | nil =>
    cases hrun
    exact ⟨⟨l, E, hx⟩, _, rfl⟩
  | cons edit edits ih =>
    obtain ⟨⟨⟩, x₁, hedit, hrun⟩ := Action.bind_eq_ok_iff.1 hrun
    obtain ⟨C, l₁, E₁, hleaves, hx₁⟩ := hx.of_edit hQ hedit
    obtain ⟨root, htree⟩ := hleaves.tree
    have hQ₁ : x₁.tree.Maintains Q := htree ▸ hQ.handle root x.tree.registration
    obtain ⟨hy, root', htree'⟩ := ih hQ₁ hx₁ hrun
    exact ⟨hy, root', by rw [htree', htree]⟩

/-- Changes leave the nodes as large as new ones. -/
theorem CarriesBy.uniform_of_edits (edits : List TreeEdit)
    (hx : x.CarriesBy x.tree.Uniform gs l E M) (hrun : edits.forM TreeEdit.run x = .ok () y) :
    (∃ l' E', y.CarriesBy y.tree.Uniform gs l' E' (edits.foldl TreeEdit.after M)) ∧
      ∃ root, y.tree = { x.tree with root } := by
  obtain ⟨hy, root, htree⟩ := hx.of_edits edits x.tree.maintains_uniform hrun
  have hsame : y.tree.Uniform = x.tree.Uniform := by
    rw [htree]
    rfl
  exact ⟨hsame ▸ hy, root, htree⟩

/-- **A tree that was set up without keys** has the entries of the empty map. -/
theorem CarriesBy.of_planting {plan : Planting} {pool' : Pool n m} (hs : pool.Sound gs)
    (hplan : plan.run pool = .ok tree pool') (hroot : tree.root = .none) :
    CarriesBy Q ⟨tree, pool'⟩ gs [] [] ∅ := by
  obtain ⟨hprepared, haccepted, hrecord, hallocated, -, -⟩ := Planting.of_run hs hplan hroot
  refine ⟨⟨hprepared.sound, haccepted, .inl ⟨hroot, rfl, rfl⟩⟩, fun r hr => ?_, shows_empty⟩
  exact ⟨List.not_mem_nil, (hprepared.allocated _).2 (hallocated r (hrecord.symm.trans hr))⟩

/-- The keys of an index increase. -/
theorem Occupies.increasing (hx : x.Occupies gs l E) :
    E.Pairwise fun e e' => x.tree.order.compare e.1 e'.1 = .lt := by
  rcases hx.shape with ⟨-, rfl, -⟩ | ⟨d, h, t, ht, rfl, -⟩
  · exact .nil
  · exact ht.readable.increasing

/-- **The height of an index** with the entries of a map. -/
theorem CarriesBy.height (hx : x.CarriesBy x.tree.Uniform gs l E M) (hM : M.keys.card ≠ 0)
    (hroom : Room gs 1) :
    ∃ levels, x.tree.HasLevels x.pool.pages levels ∧
      IsLogarithmic levels M.keys.card x.tree.limits.leafMax x.tree.limits.internalMax ∧
      ∃ pool', x.tree.height x.pool = .ok levels pool' := by
  have hshows : Shows E fun key => M.lookup key := hx.shows
  rcases hx.occupies.shape with ⟨-, rfl, -⟩ | ⟨d, h, t, ht, rfl, -, hd⟩
  · rw [← Shows.length_eq (o := x.tree.order) hshows .nil] at hM
    exact absurd rfl hM
  · have hr := ht.readable
    have hlog := ht.isLogarithmic hd
    rw [Shows.length_eq hshows hr.sorted] at hlog
    exact ⟨h + 1, hr.hasLevels, hlog, hr.height_eq_ok hx.occupies.sound ht.has.apart hroom⟩

/-- An index has two levels when its keys are too many for one, and too few for three. -/
theorem CarriesBy.hasLevels_two (hx : x.CarriesBy x.tree.Uniform gs l E M) (hroom : Room gs 1)
    {L I : Nat} (hlimits : x.tree.limits = ⟨L, I⟩) (hmore : L < M.keys.card)
    (hfew : M.keys.card < 2 * minSize I * minSize L) : x.tree.HasLevels x.pool.pages 2 := by
  obtain ⟨levels, hlevels, hlog, -⟩ := hx.height (Nat.ne_zero_of_lt hmore) hroom
  rw [hlimits] at hlog
  exact hlog.eq_two hmore hfew ▸ hlevels

end Index

end PageStore
