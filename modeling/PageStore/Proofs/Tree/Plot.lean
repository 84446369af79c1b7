import PageStore.Proofs.Tree.Thrift

/-!
# Trees in a pool with other uses

Between the changes of a tree the pool goes on: callers of its own, other trees and open iterators
take frames and give them back. `Plot.Becomes` is what becomes of a tree and its pool when both go
on in turn. All that is asked of the others is that they keep off the pages of the tree, and then
the entries are those of the map that the changes make, whatever guards are out by then:
`Plot.Becomes.carries`.
-/

namespace PageStore

open Pool

variable {l : List PageId} {E : List Entry} {M : RowMap} {Q : Nat → TreePlan → Prop}

/-- A tree, and the open pool that has its pages. -/
structure Plot where
  /-- the tree -/
  tree : Tree
  /-- the pool, and the guards that are out -/
  pool : OpenPool

namespace Plot

variable {p p₀ : Plot} {o : OpenPool} {edits edits' : List TreeEdit}

/-- The tree, with the pool. -/
def index (p : Plot) : Index p.pool.frames p.pool.slots := ⟨p.tree, p.pool.pool⟩

/-- The page belongs to the tree: walks from its root come to it. -/
def Owns (p : Plot) (q : PageId) : Prop :=
  p.tree.root ≠ .none ∧ WalksTo p.pool.pool.pages p.tree.root q

/-- **Others leave the tree readable**: its pages have the bytes that they had, and nobody writes to
them. -/
structure LeftReadable (p : Plot) (o : OpenPool) : Prop where
  bytes : ∀ q, p.Owns q → o.pool.pages q = p.pool.pool.pages q
  unwritten : ∀ g ∈ o.guards, p.Owns g.page → g.mode = .read

/-- **Others keep off the tree**: its pages have the bytes that they had, nobody holds them, and the
page of its record is still there. -/
structure KeptOff (p : Plot) (o : OpenPool) : Prop where
  bytes : ∀ q, p.Owns q → o.pool.pages q = p.pool.pool.pages q
  free : ∀ g ∈ o.guards, ¬p.Owns g.page
  record : ∀ r, p.tree.registration = some r → o.pool.pages r.page ≠ none

/-- **What becomes of a plot** by changes of its tree that return, one after the other, and by moves
of others that keep off the tree, at any time. -/
inductive Becomes (p₀ : Plot) : List TreeEdit → Plot → Prop
  | here : Becomes p₀ [] p₀
  | edit {edits : List TreeEdit} {p : Plot} {change : TreeEdit}
    {x : Index p.pool.frames p.pool.slots} (h : Becomes p₀ edits p)
    (hrun : change.run p.index = .ok () x) :
    Becomes p₀ (edits ++ [change]) ⟨x.tree, ⟨_, _, x.pool, p.pool.guards⟩⟩
  | others {edits : List TreeEdit} {p : Plot} {moves : List Move} {o : OpenPool}
    (h : Becomes p₀ edits p) (hrun : p.pool.through moves = some o) (hoff : p.KeptOff o) :
    Becomes p₀ edits ⟨p.tree, o⟩

/-- Changes may follow each other without other moves in between. -/
theorem Becomes.run {x : Index p.pool.frames p.pool.slots} (h : p₀.Becomes edits p)
    (hrun : edits'.forM TreeEdit.run p.index = .ok () x) :
    p₀.Becomes (edits ++ edits') ⟨x.tree, ⟨_, _, x.pool, p.pool.guards⟩⟩ := by
  induction edits' generalizing edits p with
  | nil =>
    cases hrun
    rw [List.append_nil]
    exact h
  | cons change edits' ih =>
    obtain ⟨⟨⟩, x₁, hchange, hrun⟩ := Action.bind_eq_ok_iff.1 hrun
    have hrest := ih (h.edit hchange) hrun
    rw [List.append_cons]
    exact hrest

/-- **What others leave** of a tree that they keep off. -/
theorem KeptOff.carries (hoff : p.KeptOff o) (hx : p.index.CarriesBy Q p.pool.guards l E M)
    (hs : o.pool.Sound o.guards) : Index.CarriesBy Q ⟨p.tree, o.pool⟩ o.guards l E M := by
  have howns : ∀ q, p.Owns q ↔ q ∈ l := fun q => hx.carries.occupies.walksTo_iff
  refine ⟨hx.occupies.carry hs (fun q hq => hoff.bytes q ((howns q).2 hq))
    (fun g hg hin => hoff.free g hg ((howns _).2 hin)) hx.occupies.accepted rfl rfl rfl,
    fun r hr => ?_, hx.shows⟩
  exact ⟨(hx.apart r hr).1, hoff.record r hr⟩

/-- **The entries are those of the map** that the changes make, whatever others did in between. -/
theorem Becomes.carries (hQ : p₀.tree.Maintains Q) (h : p₀.Becomes edits p)
    (hx : p₀.index.CarriesBy Q p₀.pool.guards l E M) :
    (∃ l' E', p.index.CarriesBy Q p.pool.guards l' E' (edits.foldl TreeEdit.after M)) ∧
      ∃ root, p.tree = { p₀.tree with root } := by
  induction h with
  | here => exact ⟨⟨l, E, hx⟩, _, rfl⟩
  | @edit edits p change x h hrun ih =>
    obtain ⟨⟨l₁, E₁, hx₁⟩, root, htree⟩ := ih
    have hQ₁ : p.tree.Maintains Q := htree ▸ hQ.handle root p₀.tree.registration
    obtain ⟨C, l₂, E₂, hleaves, hx₂⟩ := hx₁.of_edit hQ₁ hrun
    obtain ⟨root', htree'⟩ := hleaves.tree
    have hafter : x.tree = { p.tree with root := root' } := htree'
    rw [List.foldl_append]
    exact ⟨⟨l₂, E₂, hx₂⟩, root', by rw [hafter, htree]⟩
  | others h hrun hoff ih =>
    obtain ⟨⟨l₁, E₁, hx₁⟩, hsame⟩ := ih
    have hs := OpenPool.sound_through _ hx₁.occupies.sound hrun
    exact ⟨⟨l₁, E₁, hoff.carries hx₁ hs⟩, hsame⟩

/-- A page that somebody takes is none of the tree's. -/
theorem KeptOff.of_newPage {n m : Nat} {tree : Tree} {pool pool' : Pool n m}
    {gs : List (Guard n)} {g : Guard n} (hx : Index.Carries ⟨tree, pool⟩ gs l E M)
    (hfresh : pool.pages g.page = none)
    (hpages : pool'.pages = Function.update pool.pages g.page (some (Block.zero pageSize))) :
    KeptOff ⟨tree, ⟨n, m, pool, gs⟩⟩ ⟨n, m, pool', g :: gs⟩ := by
  have hin : ∀ q, Owns ⟨tree, ⟨n, m, pool, gs⟩⟩ q → q ∈ l := fun q => hx.occupies.walksTo_iff.1
  have hout : g.page ∉ l := fun hmem => hx.occupies.allocated _ hmem hfresh
  refine ⟨fun q hq => ?_, List.forall_mem_cons.2 ⟨fun hg => hout (hin _ hg), fun g' hg' hown =>
    hx.occupies.free g' hg' (hin _ hown)⟩, fun r hr => ?_⟩
  · have hne : q ≠ g.page := fun e => hout (e ▸ hin q hq)
    exact (congrFun hpages q).trans (Function.update_of_ne hne ..)
  · have hallocated := (hx.apart r hr).2
    have hne : r.page ≠ g.page := fun e => hallocated (e ▸ hfresh)
    change pool'.pages r.page ≠ none
    rw [hpages, Function.update_of_ne hne]
    exact hallocated

/-- A tree with two levels in a pool with two frames, of which somebody else holds one. -/
theorem exists_tens : ∃ o tree p,
    OpenPool.start ⟨2, .lru⟩ ⟨1⟩ .missing = .ok o ∧
    Planting.run ⟨.bytewise, 1, ⟨some 3, some 3⟩, none⟩ o.pool = .ok tree o.pool ∧
    tree.root = .none ∧ Becomes ⟨tree, o⟩ (TreeEdit.inserts tens) p ∧
    p.tree.HasLevels p.pool.pool.pages 2 ∧ Room p.pool.guards 1 ∧ ¬Room p.pool.guards 2 := by
  obtain ⟨o, tree, x, hstart, -, hplan, hroot, hedits, hspare, hlimits, -, l, E, hx⟩ :=
    Index.exists_tens
  obtain ⟨hframes, hguards⟩ := OpenPool.guards_fresh rfl rfl rfl hstart
  have hroom : Room o.guards 1 := OpenPool.room_fresh rfl rfl rfl hstart (Nat.le_succ 1)
  obtain ⟨g, pool, hnew, -, hfresh, hs, hpages⟩ := hx.occupies.sound.newPage_eq_ok hspare hroom
  have hoff := KeptOff.of_newPage hx.carries hfresh hpages
  have hmove : (Move.use .newPage).run ⟨_, _, x.pool, o.guards⟩ =
      some ⟨_, _, pool, g :: o.guards⟩ := by
    change some (PoolReply.ofGuard o.guards (newPage x.pool)).2 = _
    rw [hnew]
    rfl
  have hthrough : OpenPool.through [.use .newPage] ⟨_, _, x.pool, o.guards⟩ =
      some ⟨_, _, pool, g :: o.guards⟩ := (congrArg (· >>= _) hmove).trans rfl
  have hone : Room (g :: o.guards) 1 := by
    rw [hguards, Room]
    simp [hframes]
  have htwo : ¬Room (g :: o.guards) 2 := by
    rw [hguards, Room]
    simp [hframes]
  have hy : Index.CarriesBy x.tree.Uniform ⟨x.tree, pool⟩ (g :: o.guards) l E
      ((TreeEdit.inserts tens).foldl TreeEdit.after ∅) := hoff.carries hx hs
  have hlevels : x.tree.HasLevels pool.pages 2 :=
    hy.hasLevels_two (x := ⟨x.tree, pool⟩) hone hlimits (by decide) (by decide)
  exact ⟨o, tree, _, hstart, hplan, hroot, .others (Becomes.here.run hedits) hthrough hoff, hlevels,
    hone, htwo⟩

end Plot

end PageStore
