import PageStore.Proofs.Pool.Books
import PageStore.Proofs.Tree.Frames
import PageStore.Proofs.Tree.Supply

/-!
# How many frames a tree needs

A pool has callers of its own and any number of trees, and iterators stay open between their calls.
`OpenPool.always_thrifty`: whatever was done with the pool, a tree is looked at with one frame that
is free of guards, gets an entry with two, and loses one with three. When the call comes back, the
guards that were out before account for every pin. An iterator has one pin, on a leaf, as long as it
has entries to give, and none from then on.

How many frames a call takes does not depend on the bytes in them, so nothing is supposed of the
tree: calls that returned may have led to it, or it is a damaged one, with its root recorded or not.
-/

namespace PageStore

open Pool PageStore.Action

variable {n m : Nat} {σ α : Type} {gs : List (Guard n)}

/-! ## Calls -/

/-- What a tree can be asked for, apart from an iterator. -/
inductive TreeRequest where
  | call (c : TreeCall)
  /-- every entry -/
  | entries
  /-- the entries between two keys -/
  | range (low high : Key)
  | height

namespace TreeRequest

/-- Makes the call. -/
def run : TreeRequest → Action (Index n m) Unit
  | call c => do let _ ← c.run
  | entries => do let _ ← Index.onPool (← get).tree.entries
  | range low high => do let _ ← Index.onPool ((← get).tree.range low high)
  | height => do let _ ← Index.onPool (← get).tree.height

/-- How many frames the call needs: one to look at a page, two to split one, and three to repair two
under their parent. -/
def frames : TreeRequest → Nat
  | call (.map (.insert _ _)) => 2
  | call (.map (.remove _)) => 3
  | _ => 1

theorem run_map {x y : Index n m} {call : MapCall} {reply : MapReply}
    (hrun : call.run x = .ok reply y) : (TreeRequest.call (.map call)).run x = .ok () y := by
  have hcall : (TreeCall.map call).run x = .ok (.map reply) y := (Action.bind_of_ok hrun).trans rfl
  exact (Action.bind_of_ok hcall).trans rfl

end TreeRequest

/-- Where an iterator starts. -/
inductive IterStart where
  /-- at the first entry -/
  | first
  /-- at the entry of a key, or at the end if the key is absent -/
  | exact (key : Key)
  /-- at the first entry whose key is not less -/
  | bound (key : Key)

namespace IterStart

/-- Opens an iterator. -/
def run : IterStart → Tree → Action (Pool n m) (Cursor n)
  | first, t => t.first
  | exact key, t => t.seekExact key
  | bound key, t => t.seek key

/-- A new iterator is in a leaf unless the tree has no keys, or lacks the one that is asked for. -/
def Begins (t : Tree) (c : Cursor n) : IterStart → Prop
  | exact _ => t.isEmpty = true → c.isEnd = true
  | _ => c.isEnd = t.isEmpty

end IterStart

/-! ## What is promised -/

/-- **The guards account for every pin**: each is on a page in a frame, and a page in a frame has as
many pins as there are guards on it. -/
structure Pool.PinnedBy (pool : Pool n m) (gs : List (Guard n)) : Prop where
  /-- a guard is on the frame of its page -/
  guards : ∀ g ∈ gs, (g.page, g.frame) ∈ pool.cached
  /-- one pin for each guard -/
  count : ∀ e ∈ pool.cached, pool.pinCount? e.1 = some (gs.countP fun g => g.page = e.1)

/-- **A refusal leaves no pin behind**, and a want of frames is its cause only if the guards leave
fewer than `k`. A call that aborts or hangs does not come back to its caller. -/
def Pool.Repaid (gs : List (Guard n)) (k : Nat) (e : Halt) (pool : Pool n m) : Prop :=
  ∀ cause, e = .refused cause → pool.PinnedBy gs ∧ (Room gs k → cause ≠ .poolFull)

/-- **An iterator in use has one pin**, on a leaf, and one at its end has none. -/
structure Cursor.Pins (c : Cursor n) (gs : List (Guard n)) (pool : Pool n m) : Prop where
  /-- its guard, if it has one, is on a leaf -/
  leaf : ∀ g ∈ c.leaf, g.OnLeaf pool
  /-- nothing else is pinned besides what the guards of others are on -/
  pinned : pool.PinnedBy (c.leaf.toList ++ gs)

/-- **Trees are thrifty with the frames of a pool.** -/
structure OpenPool.Thrifty (o : OpenPool) : Prop where
  /-- the guards that are out account for every pin -/
  pinned : o.pool.PinnedBy o.guards
  /-- they do so after a call on a tree, which is not short of frames when it has those it needs -/
  request : ∀ (tree : Tree) (request : TreeRequest),
    Ends (Index.Stops (Repaid o.guards request.frames)) (fun _ x => x.pool.PinnedBy o.guards)
      (request.run ⟨tree, o.pool⟩)
  /-- an iterator is opened with one frame, and keeps it -/
  iterator : ∀ (tree : Tree) (start : IterStart),
    Ends (Repaid o.guards 1) (fun c pool => start.Begins tree c ∧ c.Pins o.guards pool)
      (start.run tree o.pool)
  /-- it gives the frame back before it takes another, and keeps one as long as it gives entries -/
  next : ∀ (c : Cursor o.frames) (others : List (Guard o.frames)),
    (c.leaf.toList ++ others).Perm o.guards →
    Ends (Repaid others 1)
      (fun found pool => found.1.isSome = found.2.leaf.isSome ∧ found.2.Pins others pool)
      (c.next o.pool)
  /-- it keeps nothing when it is dropped -/
  drop : ∀ (c : Cursor o.frames) (others : List (Guard o.frames)),
    (c.leaf.toList ++ others).Perm o.guards → (c.close o.pool).PinnedBy others

namespace Pool

variable {pool : Pool n m} {k : Nat} {e : Halt}

theorem Sound.pinnedBy (h : pool.Sound gs) : pool.PinnedBy gs where
  guards _ hg := mem_cached_iff.2 (h.table_guard hg)
  count _ he := h.pinCount?_eq (mem_cached_iff.1 he)

theorem Squared.repaid (h : Squared gs k e pool) : Repaid gs k e pool := fun cause he =>
  ⟨(h cause he).1.pinnedBy, (h cause he).2⟩

theorem OutAt.pins {c : Cursor n} (h : OutAt gs c.leaf pool) : c.Pins gs pool := ⟨h.2, h.1.pinnedBy⟩

end Pool

/-! ## Each call -/

theorem TreeCall.borrows_run (call : TreeCall) :
    Index.Borrows (m := m) gs (TreeRequest.call call).frames call.run := by
  rcases call with (⟨key, row⟩ | key | key) | _ | limits | _
  · exact ((Index.borrows_insert key row).bind fun _ => Index.borrows_pure _).bind
      fun _ => Index.borrows_pure _
  · exact ((Index.borrows_remove key).bind fun _ => Index.borrows_pure _).bind
      fun _ => Index.borrows_pure _
  · exact (Ensures.get_bind fun x => (Index.borrows_onPool (x.tree.borrows_get? key)).bind
      fun _ => Index.borrows_pure _).bind fun _ => Index.borrows_pure _
  · exact Index.borrows_destroy.bind fun _ => Index.borrows_pure _
  · exact (Index.borrows_attach limits).bind fun _ => Index.borrows_pure _
  · exact .get_bind fun x => (Index.borrows_onPool x.tree.borrows_verify).bind
      fun _ => Index.borrows_pure _

/-- **A request borrows** the frames that it needs. -/
theorem TreeRequest.borrows_run (request : TreeRequest) :
    Index.Borrows (m := m) gs request.frames request.run := by
  cases request with
  | call c => exact c.borrows_run.bind fun _ => Index.borrows_pure ()
  | entries =>
    exact .get_bind fun x => (Index.borrows_onPool x.tree.borrows_entries).bind fun _ =>
      Index.borrows_pure ()
  | range low high =>
    exact .get_bind fun x => (Index.borrows_onPool (x.tree.borrows_range low high)).bind fun _ =>
      Index.borrows_pure ()
  | height =>
    exact .get_bind fun x => (Index.borrows_onPool x.tree.borrows_height).bind fun _ =>
      Index.borrows_pure ()

/-- Opening an iterator keeps what readers keep. -/
theorem IterStart.kept_run {stop : Halt → Pool n m → Prop}
    {I : Option (Guard n) → Pool n m → Prop} (hk : KeptByReaders stop I) (start : IterStart)
    (t : Tree) : Ensures stop (I none) (start.run t) fun c pool =>
      start.Begins t c ∧ Placed I c.leaf pool := by
  cases start with
  | first => exact hk.first t
  | exact key => exact hk.seekExact t key
  | bound key => exact hk.seek t key

theorem IterStart.ensures_run (start : IterStart) (t : Tree) :
    Ensures (Squared gs 1) (Out gs) (start.run (m := m) t) fun c pool =>
      start.Begins t c ∧ OutAt gs c.leaf pool := start.kept_run (Tree.readers_borrow gs) t

theorem Planting.borrows_run (plan : Planting) : Pool.Borrows (m := m) gs 1 plan.run := by
  obtain ⟨order, keySize, limits, record⟩ := plan
  refine (borrows_check (Tree.create_ne_poolFull order keySize limits)).bind fun tree => ?_
  cases record with
  | none => exact borrows_pure tree
  | some r => exact tree.borrows_register r.page r.index

/-- A sound pool keeps the promise. -/
theorem OpenPool.thrifty_of_sound {o : OpenPool} (h : o.pool.Sound o.guards) : o.Thrifty where
  pinned := h.pinnedBy
  request tree request := (request.borrows_run ⟨tree, o.pool⟩ h).imp (fun _ _ => Squared.repaid)
    fun _ _ => Sound.pinnedBy
  iterator tree start := (start.ensures_run tree o.pool h).imp (fun _ _ => Squared.repaid)
    fun _ _ hc => ⟨hc.1, hc.2.pins⟩
  next c _ hperm := (c.ensures_next o.pool (h.perm hperm.symm)).imp (fun _ _ => Squared.repaid)
    fun _ _ hc => ⟨hc.1, hc.2.pins⟩
  drop _ _ hperm := (Cursor.sound_close (h.perm hperm.symm)).pinnedBy

/-! ## Runs -/

/-- What can be done with a pool that holds trees. -/
inductive Move where
  | use (call : PoolCall)
  | plant (plan : Planting)
  | ask (tree : Tree) (request : TreeRequest)
  /-- opens an iterator, whose guard is out from then on -/
  | iterate (tree : Tree) (start : IterStart)
  /-- asks the iterator whose guard has a number, and which is at an offset of its leaf, for an
  entry -/
  | next (i : Nat) (offset : Nat)

/-- The pool that a call leaves when it comes back. The guards `gs` are out, and those that the call
hands out. -/
def OpenPool.behind (pool : σ → Pool n m) (held : α → List (Guard n)) (gs : List (Guard n)) :
    EStateM.Result Halt σ α → Option OpenPool
  | .ok a s => some ⟨n, m, pool s, held a ++ gs⟩
  | .error (.refused _) s => some ⟨n, m, pool s, gs⟩
  | .error _ _ => none

/-- Makes a move, unless it is a call that does not come back. -/
def Move.run : Move → OpenPool → Option OpenPool
  | use call, o => some (call.run o).2
  | plant plan, ⟨_, _, pool, gs⟩ => OpenPool.behind id (fun _ => []) gs (plan.run pool)
  | ask tree request, ⟨_, _, pool, gs⟩ =>
    OpenPool.behind Index.pool (fun _ => []) gs (request.run ⟨tree, pool⟩)
  | iterate tree start, ⟨_, _, pool, gs⟩ =>
    OpenPool.behind id (fun c => c.leaf.toList) gs (start.run tree pool)
  | next i offset, ⟨n, m, pool, gs⟩ =>
    match gs[i]? with
    | some g =>
      OpenPool.behind id (fun found => found.2.leaf.toList) (gs.eraseIdx i)
        (Cursor.next ⟨some g, offset⟩ pool)
    | none => some ⟨n, m, pool, gs⟩

/-- The pool after moves of any kind, if all of them come back. -/
def OpenPool.through (moves : List Move) (o : OpenPool) : Option OpenPool :=
  moves.foldlM (fun o move => move.run o) o

namespace OpenPool

variable {o o' : OpenPool}

/-- What a call leaves is sound if the call keeps to what it borrows. -/
theorem sound_behind {k : Nat} {pool : σ → Pool n m} {held : α → List (Guard n)}
    {r : EStateM.Result Halt σ α}
    (h : Ends (fun e s => Squared gs k e (pool s)) (fun a s => Out (held a ++ gs) (pool s)) r)
    (hr : behind pool held gs r = some o') : o'.pool.Sound o'.guards := by
  cases r with
  | ok a s =>
    cases hr
    exact h
  | error e s =>
    cases e with
    | refused cause =>
      cases hr
      exact (h cause rfl).1
    | fault => cases hr
    | blocked => cases hr
    | endless => cases hr

/-- **One move** keeps the pool sound. -/
theorem sound_move (h : o.pool.Sound o.guards) (move : Move) (hrun : move.run o = some o') :
    o'.pool.Sound o'.guards := by
  obtain ⟨n, m, pool, gs⟩ := o
  cases move with
  | use call =>
    cases hrun
    obtain ⟨_, -, hnext⟩ := (reflects_of_sound h).step call
    exact hnext.sound
  | plant plan => exact sound_behind (plan.borrows_run pool h) hrun
  | ask tree request => exact sound_behind (request.borrows_run ⟨tree, pool⟩ h) hrun
  | iterate tree start =>
    exact sound_behind ((start.ensures_run tree pool h).mono fun _ _ hc => hc.2.1) hrun
  | next i offset =>
    rw [Move.run] at hrun
    rcases hi : gs[i]? with _ | g
    · rw [hi] at hrun
      cases hrun
      exact h
    · rw [hi] at hrun
      have hs := h.perm (Reflects.guard_first hi)
      have hnext := Cursor.ensures_next ⟨some g, offset⟩ pool hs
      exact sound_behind (hnext.mono fun _ _ hc => hc.2.1) hrun

/-- **Every run of moves** keeps the pool sound. -/
theorem sound_through (moves : List Move) (h : o.pool.Sound o.guards)
    (hrun : o.through moves = some o') : o'.pool.Sound o'.guards := by
  induction moves generalizing o with
  | nil =>
    cases hrun
    exact h
  | cons move moves ih =>
    rw [through, List.foldlM_cons, Option.bind_eq_bind, Option.bind_eq_some_iff] at hrun
    obtain ⟨o₁, hmove, hrest⟩ := hrun
    exact ih (sound_move h move hmove) hrest

/-- Requests of trees to insert entries, one each. -/
def insertions (trees : List Tree) (entries : List (Key × RowId)) : List Move :=
  List.zipWith (fun t e => .ask t (.call (.map (.insert e.1 e.2)))) trees entries

/-- Insertions into an index are requests of its tree, with the root that it has by then. -/
theorem exists_insertions {x y : Index n m} {entries : List (Key × RowId)}
    (hrun : (TreeEdit.inserts entries).forM TreeEdit.run x = .ok () y) (gs : List (Guard n)) :
    ∃ trees, through (insertions trees entries) ⟨n, m, x.pool, gs⟩ = some ⟨n, m, y.pool, gs⟩ ∧
      trees.length = entries.length := by
  induction entries generalizing x with
  | nil =>
    cases hrun
    exact ⟨[], rfl, rfl⟩
  | cons e entries ih =>
    obtain ⟨⟨⟩, x₁, hedit, hrun⟩ := Action.bind_eq_ok_iff.1 hrun
    obtain ⟨added, x₂, hinsert, hret⟩ := Action.bind_eq_ok_iff.1 hedit
    cases hret
    obtain ⟨trees, hrest, hlength⟩ := ih hrun
    have hmap : (MapCall.insert e.1 e.2).run x = .ok (.flag added) x₁ :=
      (Action.bind_of_ok hinsert).trans rfl
    have hask : (Move.ask x.tree (.call (.map (.insert e.1 e.2)))).run ⟨n, m, x.pool, gs⟩ =
        some ⟨n, m, x₁.pool, gs⟩ := by
      change behind Index.pool _ _ (TreeRequest.run _ x) = _
      rw [TreeRequest.run_map hmap]
      rfl
    exact ⟨x.tree :: trees, (congrArg (· >>= _) hask).trans hrest, congrArg (· + 1) hlength⟩

/-- **Trees are always thrifty.** On a new file, with whatever settings the pool and the space are
opened: after any use of the pool, by callers of its own, by trees and by their iterators, no call
on a tree is refused for want of a frame when the guards that are out leave one to look, two to
insert and three to remove. When it is back, with an answer or refused, the pins in the pool are
those of the guards that were out before. An iterator has one pin more, on a leaf, until it gives no
more entries or is dropped. -/
theorem always_thrifty {config : PoolConfig} {disk : SpaceConfig}
    (hconfig : config.validate = .ok ()) (hdisk : disk.validate = .ok ()) {v : Volume}
    (hv : v.openFile = .ok {}) :
    ∃ o, OpenPool.start config disk v = .ok o ∧
      ∀ (moves : List Move) (o' : OpenPool), o.through moves = some o' → o'.Thrifty := by
  obtain ⟨o, hstart, -, h⟩ := start_fresh hconfig hdisk hv
  exact ⟨o, hstart, fun moves _ hrun => thrifty_of_sound (sound_through moves h.sound hrun)⟩

/-- A pool with three frames, and a tree with a record whose leaf splits. -/
theorem always_thrifty_one : ∃ o r trees o', ∃ t : Tree,
    OpenPool.start ⟨3, .lru⟩ ⟨1⟩ .missing = .ok o ∧
    o.through ([.use .newPage, .use (.drop 0), .plant ⟨.bytewise, 1, ⟨some 3, some 3⟩, some r⟩] ++
      insertions trees tens) = some o' ∧ trees.length = 4 ∧ t.HasLevels o'.pool.pages 2 ∧
    Room o'.guards 3 ∧ o'.Thrifty := by
  obtain ⟨o, hstart, h⟩ := @always_thrifty ⟨3, .lru⟩ ⟨1⟩ rfl rfl .missing rfl
  obtain ⟨r, used, tree, pool, x, rfl, -, hroom, hplant, hedits, hlevels⟩ :=
    Planting.tens_recorded rfl rfl rfl hstart (Nat.le_succ 2) 5
  obtain ⟨trees, hinsertions, hlength⟩ :=
    exists_insertions hedits (o.after [.newPage, .drop 0]).guards
  have hplanted : o.through [.use .newPage, .use (.drop 0),
      .plant ⟨.bytewise, 1, ⟨some 3, some 3⟩, some r⟩] =
      some ⟨_, _, pool, (o.after [.newPage, .drop 0]).guards⟩ := by
    change (behind id _ _ (Planting.run _ (o.after [.newPage, .drop 0]).pool) >>= _) = _
    rw [hplant]
    rfl
  have hthrough : o.through ([.use .newPage, .use (.drop 0),
      .plant ⟨.bytewise, 1, ⟨some 3, some 3⟩, some r⟩] ++ insertions trees tens) =
      some ⟨_, _, x.pool, (o.after [.newPage, .drop 0]).guards⟩ := by
    rw [through, List.foldlM_append]
    exact (congrArg (· >>= _) hplanted).trans hinsertions
  exact ⟨o, r, trees, _, x.tree, hstart, hthrough, hlength, hlevels, hroom, h _ _ hthrough⟩

end OpenPool

end PageStore
