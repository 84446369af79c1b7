import PageStore.Proofs.Tree.Quiet
import PageStore.Proofs.Tree.Scan

/-!
# Looking at a tree

Besides its readers there are calls that find nothing to do: the insertion of a key that is there,
and the removal of one that is not. Together they are the glances at a tree, with any number of
iterators open in between. `Session.AtRest` is what each of them keeps, whether it is answered or
refused: the tree is as it was, and so is the pool but for where its pages are cached.

`Index.always_inert` is about trees after any run of changes, and about full flushes with glances in
between, which have nothing to write.
-/

namespace PageStore

open Pool PageStore.Action

variable {n m : Nat} {σ α : Type} {gs : List (Guard n)} {P : PageMap} {D : Set PageId}
  {pool : Pool n m} {tree : Tree} {key : Key} {l : List PageId} {E : List Entry} {M : RowMap}
  {x y : Index n m}

/-! ## Requests that ask for no change -/

namespace TreeRequest

/-- A request that has nothing to do in a tree with the entries of a map. -/
def Idle (M : RowMap) : TreeRequest → Prop
  | call (.map (.insert key _)) => key ∈ M
  | call (.map (.remove key)) => key ∉ M
  | call .destroy => False
  | call (.attach _) => False
  | _ => True

/-- The keys of the request have a width. -/
def HasWidth (width : Nat) : TreeRequest → Prop
  | call (.map c) => c.key.length = width
  | range low high => low.length = width ∧ high.length = width
  | _ => True

end TreeRequest

/-- **A tree in these pages**, which anyone can read, and which has the entries of a map. -/
def Tree.Carries (tree : Tree) (P : PageMap) (l : List PageId) (M : RowMap) : Prop :=
  (tree.root = .none ∧ ∀ key, key ∉ M) ∨ ∃ (h : Nat) (t : Shape h), tree.Readable P t ∧
    t.pages = l ∧ Shows t.entries fun key => M.lookup key

theorem Shows.mem_keys_iff (hM : Shows E fun key => M.lookup key) :
    key ∈ E.map Prod.fst ↔ key ∈ M := by
  rw [Finmap.mem_iff]
  constructor
  · intro hin
    obtain ⟨⟨_, row⟩, hmem, rfl⟩ := List.mem_map.1 hin
    exact ⟨row, (hM _ row).2 hmem⟩
  · rintro ⟨row, hrow⟩
    exact List.mem_map.2 ⟨(key, row), (hM key row).1 hrow, rfl⟩

/-- An index with the entries of a map is a tree in its pages. -/
theorem Index.Carries.tree_carries (hx : x.Carries gs l E M) : x.tree.Carries x.pool.pages l M := by
  rcases hx.occupies.shape with ⟨hroot, rfl, -⟩ | ⟨d, h, t, ht, rfl, rfl⟩
  · exact .inl ⟨hroot, fun key hin => List.not_mem_nil (hx.shows.mem_keys_iff.2 hin)⟩
  · exact .inr ⟨h, t, ht.readable, rfl, hx.shows⟩

/-- The index has the tree, and its pool is quiet. -/
def Index.AtRest (tree : Tree) (gs : List (Guard n)) (P : PageMap) (D : Set PageId)
    (x : Index n m) :
    Prop := x.tree = tree ∧ x.pool.Quiet gs P D none

/-- Who is refused leaves the index so. -/
def Index.Hushed (tree : Tree) (gs : List (Guard n)) (P : PageMap) (D : Set PageId) (e : Halt)
    (x : Index n m) : Prop := ∀ cause, e = .refused cause → x.AtRest tree gs P D

namespace Tree.Carries

/-- **An insertion of a key of the map** is answered with false, and changes nothing. -/
theorem insert_ends (hc : tree.Carries P l M) (hq : pool.Quiet gs P D none) (hin : key ∈ M)
    (row : RowId) : Ends (fun e y => y.tree = tree ∧ Barred gs P D l e y.pool)
      (fun added y => added = false ∧ y.AtRest tree gs P D)
      (Index.insert key row ⟨tree, pool⟩) := by
  rcases hc with ⟨-, hempty⟩ | ⟨h, t, hr, rfl, hM⟩
  · exact absurd hin (hempty key)
  have hpresent := hM.mem_keys_iff.2 hin
  obtain ⟨e, he, rfl⟩ := List.mem_map.1 hpresent
  exact hr.insert_quiet hq (hr.legible.length_key e he) hpresent row

/-- **A removal of another key** is answered with false, and changes nothing. -/
theorem remove_ends (hc : tree.Carries P l M) (hq : pool.Quiet gs P D none)
    (hkey : key.length = tree.keySize) (hout : key ∉ M) :
    Ends (fun e y => y.tree = tree ∧ Barred gs P D l e y.pool)
      (fun found y => found = false ∧ y.AtRest tree gs P D) (Index.remove key ⟨tree, pool⟩) := by
  rcases hc with ⟨hroot, -⟩ | ⟨h, t, hr, rfl, hM⟩
  · exact .of_eq_ok (Index.remove_of_empty (x := ⟨tree, pool⟩) hkey hroot) ⟨rfl, rfl, hq⟩
  · exact hr.remove_quiet hq hkey (mt hM.mem_keys_iff.1 hout)

end Tree.Carries

namespace Index

variable {β : Type}

/-- What a reader does on the pool of an index. -/
theorem onPool_atRest (hq : pool.Quiet gs P D none) {act : Action (Pool n m) α}
    (hact : Ensures (Pool.Hushed gs P D) (QuietAt gs P D none) act fun _ => QuietAt gs P D none) :
    Ends (Hushed tree gs P D) (fun _ y => y.AtRest tree gs P D) (onPool act ⟨tree, pool⟩) :=
  (onPool_keeps (hact pool ⟨hq, nofun⟩)).imp (fun _ _ hy cause he => ⟨hy.1, hy.2 cause he⟩)
    fun _ _ hy => ⟨hy.1, hy.2.1⟩

/-- What is made of the answer does not matter to what is left. -/
theorem atRest_bind {act : Action (Index n m) α} {f : α → β}
    (hact : Ends (Hushed tree gs P D) (fun _ y => y.AtRest tree gs P D) (act x)) :
    Ends (Hushed tree gs P D) (fun _ y => y.AtRest tree gs P D)
      ((do return f (← act) : Action (Index n m) β) x) := hact.bind fun _ _ => id

end Index

section Requests

variable (hc : tree.Carries P l M) (hq : pool.Quiet gs P D none)

include hc hq

theorem MapCall.run_atRest {call : MapCall} (hidle : (TreeRequest.call (.map call)).Idle M) :
    Ends (Index.Hushed tree gs P D) (fun _ y => y.AtRest tree gs P D) (call.run ⟨tree, pool⟩) := by
  cases call with
  | insert key row =>
    refine Index.atRest_bind ?_
    exact (hc.insert_ends hq hidle row).imp (fun e y hb _ _ => ⟨hb.1, hb.2.1⟩) fun _ _ hq' => hq'.2
  | remove key =>
    refine Index.atRest_bind ?_
    by_cases hkey : key.length = tree.keySize
    · exact (hc.remove_ends hq hkey hidle).imp (fun e y hb _ _ => ⟨hb.1, hb.2.1⟩)
        fun _ _ hq' => hq'.2
    · exact .of_eq_error (Index.remove_of_width (x := ⟨tree, pool⟩) hkey) fun _ _ => ⟨rfl, hq⟩
  | get key =>
    rw [MapCall.run, Action.get_bind]
    exact Index.atRest_bind (Index.onPool_atRest hq ((Tree.readers_quiet gs P D).get? tree key))

/-- **A request that has nothing to do** leaves the index at rest, be it answered or refused. -/
theorem TreeRequest.run_atRest {request : TreeRequest} (hidle : request.Idle M) :
    Ends (Index.Hushed tree gs P D) (fun _ y => y.AtRest tree gs P D)
      (request.run ⟨tree, pool⟩) := by
  have hk := Tree.readers_quiet (m := m) gs P D
  cases request with
  | call call =>
    refine Index.atRest_bind ?_
    cases call with
    | map call => exact Index.atRest_bind (MapCall.run_atRest hc hq hidle)
    | destroy => exact hidle.elim
    | attach limits => exact hidle.elim
    | verify =>
      rw [TreeCall.run, Action.get_bind]
      exact Index.atRest_bind (Index.onPool_atRest hq (hk.verify tree))
  | entries =>
    rw [TreeRequest.run, Action.get_bind]
    exact Index.atRest_bind (Index.onPool_atRest hq (hk.entries tree))
  | range low high =>
    rw [TreeRequest.run, Action.get_bind]
    exact Index.atRest_bind (Index.onPool_atRest hq (hk.range tree low high))
  | height =>
    rw [TreeRequest.run, Action.get_bind]
    exact Index.atRest_bind (Index.onPool_atRest hq (hk.height tree))

end Requests

/-! ## Sessions -/

/-- An index, and the iterators that are open on it. -/
structure Session (n m : Nat) where
  index : Index n m
  cursors : List (Cursor n)

/-- What can be done with a tree that is only looked at. -/
inductive Glance where
  | ask (request : TreeRequest)
  /-- opens an iterator -/
  | iterate (start : IterStart)
  /-- asks the iterator with a number for an entry -/
  | next (i : Nat)
  | drop (i : Nat)

/-- The guards of open iterators. -/
def Cursor.held (cursors : List (Cursor n)) : List (Guard n) :=
  cursors.flatMap fun c => c.leaf.toList

/-- What a call leaves that comes back, answered or refused. -/
def Session.behind (answered : α → σ → Session n m) (refused : σ → Session n m) :
    EStateM.Result Halt σ α → Option (Session n m)
  | .ok a s => some (answered a s)
  | .error (.refused _) s => some (refused s)
  | .error _ _ => none

namespace Glance

/-- The glance has nothing to do in a tree with the entries of a map. -/
def Idle (M : RowMap) : Glance → Prop
  | ask request => request.Idle M
  | _ => True

/-- Takes a glance, unless it is a call that does not come back. The iterator that was asked last is
the first one, and it is at its end if it was refused. -/
def run : Glance → Session n m → Option (Session n m)
  | ask request, ⟨x, cursors⟩ =>
    Session.behind (fun _ y => ⟨y, cursors⟩) (fun y => ⟨y, cursors⟩) (request.run x)
  | iterate start, ⟨⟨tree, pool⟩, cursors⟩ =>
    Session.behind (fun c pool => ⟨⟨tree, pool⟩, c :: cursors⟩)
      (fun pool => ⟨⟨tree, pool⟩, cursors⟩) (start.run tree pool)
  | next i, ⟨⟨tree, pool⟩, cursors⟩ =>
    match cursors[i]? with
    | some c =>
      Session.behind (fun found pool => ⟨⟨tree, pool⟩, found.2 :: cursors.eraseIdx i⟩)
        (fun pool => ⟨⟨tree, pool⟩, .ended :: cursors.eraseIdx i⟩) (c.next pool)
    | none => some ⟨⟨tree, pool⟩, cursors⟩
  | drop i, ⟨⟨tree, pool⟩, cursors⟩ =>
    match cursors[i]? with
    | some c => some ⟨⟨tree, c.close pool⟩, cursors.eraseIdx i⟩
    | none => some ⟨⟨tree, pool⟩, cursors⟩

end Glance

/-- The session after some glances, if all of them come back. -/
def Session.through (glances : List Glance) (s : Session n m) : Option (Session n m) :=
  glances.foldlM (fun s glance => glance.run s) s

/-- **A session at rest** has the tree, and a quiet pool, in which its iterators have guards for
reading. -/
structure Session.AtRest (s : Session n m) (tree : Tree) (gs : List (Guard n)) (P : PageMap)
    (D : Set PageId) : Prop where
  tree_eq : s.index.tree = tree
  quiet : s.index.pool.Quiet (Cursor.held s.cursors ++ gs) P D none
  reads : ∀ g ∈ Cursor.held s.cursors, g.mode = .read

namespace Session

variable {s s' : Session n m} {cursors : List (Cursor n)} {c : Cursor n} {i : Nat}

theorem of_behind {I : Session n m → Prop} {answered : α → σ → Session n m}
    {refused : σ → Session n m} {r : EStateM.Result Halt σ α}
    (h : Ends (fun e s => ∀ cause, e = .refused cause → I (refused s))
      (fun a s => I (answered a s)) r) (hr : behind answered refused r = some s') : I s' := by
  cases r with
  | ok a s =>
    cases hr
    exact h
  | error e s =>
    cases e with
    | refused cause =>
      cases hr
      exact h cause rfl
    | fault => cases hr
    | blocked => cases hr
    | endless => cases hr

/-- The guards of one iterator and those of the others. -/
theorem held_perm (hi : cursors[i]? = some c) : (Cursor.held cursors ++ gs).Perm
    (c.leaf.toList ++ (Cursor.held (cursors.eraseIdx i) ++ gs)) := by
  obtain ⟨hlt, rfl⟩ := List.getElem?_eq_some_iff.1 hi
  rw [← List.append_assoc]
  exact (((List.getElem_cons_eraseIdx_perm hlt).symm).flatMap_right _).append_right gs

/-- The iterator of a session at rest, among the others. -/
theorem AtRest.at_cursor (hs : AtRest ⟨⟨tree, pool⟩, cursors⟩ tree gs P D)
    (hi : cursors[i]? = some c) :
    QuietAt (Cursor.held (cursors.eraseIdx i) ++ gs) P D c.leaf pool := by
  have hread : ∀ g ∈ c.leaf, g.mode = .read := fun g hg =>
    hs.reads g (List.mem_flatMap.2 ⟨c, List.mem_of_getElem? hi, Option.mem_toList.2 hg⟩)
  exact ⟨hs.quiet.take (held_perm hi) hread, hread⟩

/-- With an iterator that has a guard or none, a session is at rest as it is without it. -/
theorem atRest_cons (hreads : ∀ g ∈ Cursor.held cursors, g.mode = .read)
    (hc : QuietAt (Cursor.held cursors ++ gs) P D c.leaf pool) :
    AtRest ⟨⟨tree, pool⟩, c :: cursors⟩ tree gs P D where
  tree_eq := rfl
  quiet := hc.1.give (.of_eq (List.append_assoc ..))
  reads g hg := (List.mem_append.1 hg).elim (fun hg => hc.2 g (Option.mem_toList.1 hg)) (hreads g)

/-- Without one of them the other iterators still have guards for reading. -/
theorem AtRest.reads_eraseIdx (hs : s.AtRest tree gs P D) (i : Nat) :
    ∀ g ∈ Cursor.held (s.cursors.eraseIdx i), g.mode = .read := by
  intro g hg
  obtain ⟨c, hc, hgc⟩ := List.mem_flatMap.1 hg
  exact hs.reads g (List.mem_flatMap.2 ⟨c, List.mem_of_mem_eraseIdx hc, hgc⟩)

/-- **One glance** leaves a session at rest. -/
theorem AtRest.run (hc : tree.Carries P l M) (hs : s.AtRest tree gs P D) {glance : Glance}
    (hidle : glance.Idle M) (hrun : glance.run s = some s') : s'.AtRest tree gs P D := by
  obtain ⟨⟨tree', pool⟩, cursors⟩ := s
  obtain rfl : tree' = tree := hs.tree_eq
  have hk := fun gs => Tree.readers_quiet (n := n) (m := m) gs P D
  cases glance with
  | ask request =>
    refine of_behind (I := (·.AtRest tree' gs P D)) ((TreeRequest.run_atRest hc hs.quiet hidle).imp
      (fun e y hy cause he => ?_) fun _ y hy => ?_) hrun
    · obtain ⟨htree, hq⟩ := hy cause he
      exact ⟨htree, hq, hs.reads⟩
    · exact ⟨hy.1, hy.2, hs.reads⟩
  | iterate start =>
    refine of_behind (I := (·.AtRest tree' gs P D))
      ((start.kept_run (hk _) tree' pool ⟨hs.quiet, nofun⟩).imp
      (fun e pool' hq cause he => ?_) fun c pool' hc => ?_) hrun
    · exact ⟨rfl, hq cause he, hs.reads⟩
    · exact atRest_cons hs.reads hc.2.1
  | next i =>
    rw [Glance.run] at hrun
    rcases hi : cursors[i]? with _ | c
    · rw [hi] at hrun
      cases hrun
      exact hs
    · rw [hi] at hrun
      refine of_behind (I := (·.AtRest tree' gs P D)) (((hk _).next c pool (hs.at_cursor hi)).imp
        (fun e pool' hq cause he => ?_) fun found pool' hfound => ?_) hrun
      · exact atRest_cons (hs.reads_eraseIdx i) ⟨hq cause he, nofun⟩
      · exact atRest_cons (hs.reads_eraseIdx i) hfound.2.1
  | drop i =>
    rw [Glance.run] at hrun
    rcases hi : cursors[i]? with _ | c
    · rw [hi] at hrun
      cases hrun
      exact hs
    · rw [hi] at hrun
      cases hrun
      exact ⟨rfl, ((hk _).close (hs.at_cursor hi)).1, hs.reads_eraseIdx i⟩

/-- **Any run of glances** leaves a session at rest. -/
theorem AtRest.through (hc : tree.Carries P l M) (hs : s.AtRest tree gs P D) {glances : List Glance}
    (hidle : ∀ glance ∈ glances, glance.Idle M) (hrun : s.through glances = some s') :
    s'.AtRest tree gs P D := by
  induction glances generalizing s with
  | nil =>
    cases hrun
    exact hs
  | cons glance glances ih =>
    obtain ⟨hfirst, hrest⟩ := List.forall_mem_cons.1 hidle
    rw [Session.through, List.foldlM_cons, Option.bind_eq_bind, Option.bind_eq_some_iff] at hrun
    obtain ⟨s₁, hglance, hrun⟩ := hrun
    exact ih (hs.run hc hfirst hglance) hrest hrun

end Session

/-! ## What is promised -/

/-- **An index is inert** to calls that have nothing to do, while the guards `gs` are out. -/
structure Index.Inert (x : Index n m) (gs : List (Guard n)) (M : RowMap) : Prop where
  /-- glances leave the tree, the pages and what is clean as they were -/
  undisturbed : ∀ (glances : List Glance) (s : Session n m), (∀ glance ∈ glances, glance.Idle M) →
    Session.through glances ⟨x, []⟩ = some s →
      s.index.tree = x.tree ∧ x.pool.Undisturbed s.index.pool
  /-- after a full flush, glances leave nothing to write to the next one -/
  flushed : ∀ (glances : List Glance) (s : Session n m), (∀ glance ∈ glances, glance.Idle M) →
    Session.through glances ⟨x, []⟩ = some s →
      ∃ written pool, flushAll s.index.pool = .ok written pool ∧
        ∀ (glances' : List Glance) (s' : Session n m), (∀ glance ∈ glances', glance.Idle M) →
          Session.through glances' ⟨⟨s.index.tree, pool⟩, s.cursors⟩ = some s' →
            flushAll s'.index.pool = .ok 0 s'.index.pool
  /-- with a frame to spare, requests about keys of the tree's width are answered -/
  answered : Room gs 1 → ∀ requests : List TreeRequest,
    (∀ request ∈ requests, request.Idle M ∧ request.HasWidth x.tree.keySize) →
      ∃ y, requests.forM TreeRequest.run x = .ok () y
  /-- so are iterators, from wherever they start -/
  scanned : Room gs 1 → ∃ E : List Entry, (Shows E fun key => M.lookup key) ∧ x.tree.Scans x.pool E
  /-- a key that is there is not inserted -/
  insert_eq : Room gs 1 → ∀ key ∈ M, ∀ row, ∃ pool,
    insert key row x = .ok false ⟨x.tree, pool⟩
  /-- a key that is not there is not removed -/
  remove_eq : Room gs 1 → ∀ key ∉ M, key.length = x.tree.keySize → ∃ pool,
    remove key x = .ok false ⟨x.tree, pool⟩

namespace Index.Carries

/-- What an index has is told by its tree and by its pages. -/
theorem of_atRest {D : Set PageId} (hx : x.Carries gs l E M)
    (hy : y.AtRest x.tree gs x.pool.pages D) : y.Carries gs l E M := by
  obtain ⟨htree, hq⟩ := hy
  refine ⟨hx.occupies.carry hq.sound (fun q _ => by rw [hq.pages_eq]) hx.occupies.free
    (htree ▸ hx.occupies.accepted) (by rw [htree]) (by rw [htree]) (by rw [htree]), fun r hr => ?_,
    hx.shows⟩
  rw [hq.pages_eq]
  exact hx.apart r (htree ▸ hr)

theorem insert_eq_ok (hx : x.Carries gs l E M) (hroom : Room gs 1) (hin : key ∈ M) (row : RowId) :
    ∃ pool, insert key row x = .ok false ⟨x.tree, pool⟩ := by
  have hends := hx.tree_carries.insert_ends hx.occupies.sound.quiet hin row
  obtain ⟨_, ⟨_, pool⟩, hrun, rfl, rfl, -⟩ :=
    hends.exists_ok fun _ _ hb => hb.2.2 ⟨hroom, hx.occupies.free⟩
  exact ⟨pool, hrun⟩

theorem remove_eq_ok (hx : x.Carries gs l E M) (hroom : Room gs 1)
    (hkey : key.length = x.tree.keySize) (hout : key ∉ M) :
    ∃ pool, remove key x = .ok false ⟨x.tree, pool⟩ := by
  have hends := hx.tree_carries.remove_ends hx.occupies.sound.quiet hkey hout
  obtain ⟨_, ⟨_, pool⟩, hrun, rfl, rfl, -⟩ :=
    hends.exists_ok fun _ _ hb => hb.2.2 ⟨hroom, hx.occupies.free⟩
  exact ⟨pool, hrun⟩

theorem height_eq_ok (hx : x.Carries gs l E M) (hroom : Room gs 1) :
    ∃ levels pool, x.tree.height x.pool = .ok levels pool := by
  rcases hx.occupies.shape with ⟨hroot, -⟩ | ⟨d, h, t, ht, -⟩
  · refine ⟨0, x.pool, ?_⟩
    rw [Tree.height, if_pos (Tree.isEmpty_iff.2 hroot)]
    rfl
  · obtain ⟨pool, hrun⟩ := ht.readable.height_eq_ok hx.occupies.sound ht.has.apart hroom
    exact ⟨h + 1, pool, hrun⟩

/-- **A request is answered** when a frame is free of guards. -/
theorem request_eq_ok (hx : x.Carries gs l E M) (hroom : Room gs 1) {request : TreeRequest}
    (hidle : request.Idle M) (hwidth : request.HasWidth x.tree.keySize) :
    ∃ y, request.run x = .ok () y := by
  -- what is answered on the pool is answered on the index, whatever is made of it
  have hlook : ∀ {α β : Type} {act : Action (Pool n m) α} {f : α → β} {a : α} {pool : Pool n m},
      act x.pool = .ok a pool →
        (do return f (← onPool act) : Action (Index n m) β) x = .ok (f a) ⟨x.tree, pool⟩ :=
    fun hact => (Action.bind_of_ok (onPool_eq_ok hact)).trans rfl
  cases request with
  | call call =>
    cases call with
    | map call =>
      cases call with
      | insert key row =>
        obtain ⟨pool, hrun⟩ := hx.insert_eq_ok hroom hidle row
        have hmap : (MapCall.insert key row).run x = .ok (.flag false) ⟨x.tree, pool⟩ :=
          (Action.bind_of_ok hrun).trans rfl
        exact ⟨_, TreeRequest.run_map hmap⟩
      | remove key =>
        obtain ⟨pool, hrun⟩ := hx.remove_eq_ok hroom hwidth hidle
        have hmap : (MapCall.remove key).run x = .ok (.flag false) ⟨x.tree, pool⟩ :=
          (Action.bind_of_ok hrun).trans rfl
        exact ⟨_, TreeRequest.run_map hmap⟩
      | get key =>
        obtain ⟨found, pool, hrun, -⟩ := (hx.occupies.lists hroom).get? key hwidth
        have hmap : (MapCall.get key).run x = .ok (.row found) ⟨x.tree, pool⟩ := by
          rw [MapCall.run, Action.get_bind]
          exact hlook hrun
        exact ⟨_, TreeRequest.run_map hmap⟩
    | destroy => exact hidle.elim
    | attach limits => exact hidle.elim
    | verify =>
      obtain ⟨pool, hrun⟩ := hx.occupies.verify_eq_ok hroom
      have hcall : TreeCall.verify.run x = .ok (.count E.length) ⟨x.tree, pool⟩ := by
        rw [TreeCall.run, Action.get_bind]
        exact hlook hrun
      exact ⟨_, (Action.bind_of_ok hcall).trans rfl⟩
  | entries =>
    obtain ⟨pool, hrun⟩ := (hx.occupies.lists hroom).entries
    rw [TreeRequest.run, Action.get_bind]
    exact ⟨_, hlook hrun⟩
  | range low high =>
    obtain ⟨found, pool, hrun, -⟩ := (hx.occupies.scans hroom).range low high hwidth.1 hwidth.2
    rw [TreeRequest.run, Action.get_bind]
    exact ⟨_, hlook hrun⟩
  | height =>
    obtain ⟨levels, pool, hrun⟩ := hx.height_eq_ok hroom
    rw [TreeRequest.run, Action.get_bind]
    exact ⟨_, hlook hrun⟩

/-- **Any run of requests** is answered. -/
theorem requests_eq_ok (hx : x.Carries gs l E M) (hroom : Room gs 1) {requests : List TreeRequest}
    (hrequests : ∀ request ∈ requests, request.Idle M ∧ request.HasWidth x.tree.keySize) :
    ∃ y, requests.forM TreeRequest.run x = .ok () y := by
  induction requests generalizing x with
  | nil => exact ⟨x, rfl⟩
  | cons request requests ih =>
    obtain ⟨⟨hidle, hwidth⟩, hrest⟩ := List.forall_mem_cons.1 hrequests
    obtain ⟨x₁, hrun⟩ := hx.request_eq_ok hroom hidle hwidth
    have hends := TreeRequest.run_atRest hx.tree_carries hx.occupies.sound.quiet hidle
    rw [hrun] at hends
    obtain ⟨y, hy⟩ := ih (hx.of_atRest hends) fun request hin => hends.1.symm ▸ hrest request hin
    exact ⟨y, (Action.bind_of_ok hrun).trans hy⟩

/-- **An index with the entries of a map** is inert. -/
theorem inert (hx : x.Carries gs l E M) : x.Inert gs M := by
  have hc := hx.tree_carries
  have hs := hx.occupies.sound
  have hstart : Session.AtRest ⟨x, []⟩ x.tree gs x.pool.pages x.pool.dirtyPages :=
    ⟨rfl, hs.quiet, nofun⟩
  refine ⟨fun glances s hidle hrun => ?_, fun glances s hidle hrun => ?_,
    fun hroom requests => hx.requests_eq_ok hroom, fun hroom =>
      ⟨E, hx.shows, hx.occupies.scans hroom⟩, fun hroom key hin => hx.insert_eq_ok hroom hin,
    fun hroom key hout hkey => hx.remove_eq_ok hroom hkey hout⟩
  · have hrest := hstart.through hc hidle hrun
    exact ⟨hrest.tree_eq, hs.undisturbed hrest.quiet⟩
  · have hrest := hstart.through hc hidle hrun
    have hsound : s.index.pool.Sound (Cursor.held s.cursors ++ gs) := hrest.quiet.sound
    obtain ⟨pool, hsound', hflush⟩ := hsound.flushesTo
    refine ⟨_, pool, hflush.run_eq, fun glances' s' hidle' hrun' => ?_⟩
    -- what is dirty after the flush has a writer, and that is none of the iterators
    have hpages : pool.pages = x.pool.pages := hflush.pages_eq.trans hrest.quiet.pages_eq
    have hflushed : Session.AtRest ⟨⟨s.index.tree, pool⟩, s.cursors⟩ x.tree gs x.pool.pages
        pool.dirtyPages := ⟨hrest.tree_eq, hpages ▸ hsound'.quiet, hrest.reads⟩
    have hrest' := hflushed.through hc hidle' hrun'
    refine hrest'.quiet.flushAll_eq_ok fun p hp => ?_
    rw [hasWriter_append hrest'.reads]
    exact (hasWriter_append hrest.reads p).symm.trans (hflush.hasWriter_of_dirty hp)

end Index.Carries

namespace Index

/-- **Calls that have nothing to do change nothing.** On a new file, after any use of the pool,
whatever settings the pool and the space are opened with: a tree is set up without keys, with or
without a record of its root. After every run of insertions, removals and destructions that all
return, with any moves of others in between that keep off the tree, the index is inert: it may be
looked at in every way, keys that are there may be inserted and others removed, in any order, with
any iterators open and whatever pages are evicted on the way. The tree, the allocated pages, the
bytes of every page and what is clean stay as they are, so that a full flush after another has
nothing to write. As long as the guards that are out by then leave one frame free, all of these
calls are answered. -/
theorem always_inert {config : PoolConfig} {disk : SpaceConfig} (hconfig : config.validate = .ok ())
    (hdisk : disk.validate = .ok ()) {v : Volume} (hv : v.openFile = .ok {}) (uses : List PoolCall)
    (plan : Planting) :
    ∃ o, OpenPool.start config disk v = .ok o ∧ ∀ tree pool,
      plan.run (o.after uses).pool = .ok tree pool → tree.root = .none →
      ∀ (edits : List TreeEdit) (p : Plot),
        Plot.Becomes ⟨tree, ⟨_, _, pool, (o.after uses).guards⟩⟩ edits p →
        p.index.Inert p.pool.guards (edits.foldl TreeEdit.after ∅) := by
  obtain ⟨o, hstart, -, h⟩ := OpenPool.start_fresh hconfig hdisk hv
  refine ⟨o, hstart, fun tree pool hplan hroot edits p hbecomes => ?_⟩
  obtain ⟨⟨l, E, hx⟩, -⟩ := hbecomes.carries (Q := fun _ _ => True) tree.maintains_true
    (.of_planting (OpenPool.sound_after h uses) hplan hroot)
  exact hx.carries.inert

/-- A tree with two levels, in a pool with one frame that is free, into which a key is inserted that
it has. -/
theorem always_inert_one : ∃ o tree p,
    OpenPool.start ⟨2, .lru⟩ ⟨1⟩ .missing = .ok o ∧
    Planting.run ⟨.bytewise, 1, ⟨some 3, some 3⟩, none⟩ o.pool = .ok tree o.pool ∧
    Plot.Becomes ⟨tree, o⟩ (TreeEdit.inserts tens) p ∧
    p.tree.HasLevels p.pool.pool.pages 2 ∧ Room p.pool.guards 1 ∧ ¬Room p.pool.guards 2 ∧
    ∃ pool, insert [20] ⟨⟨6⟩, 2⟩ p.index = .ok false ⟨p.tree, pool⟩ ∧
      p.pool.pool.Undisturbed pool := by
  obtain ⟨o, tree, p, hstart, hplan, hroot, hbecomes, hlevels, hone, htwo⟩ := Plot.exists_tens
  obtain ⟨o', hstart', h⟩ := @always_inert ⟨2, .lru⟩ ⟨1⟩ rfl rfl .missing rfl []
    ⟨.bytewise, 1, ⟨some 3, some 3⟩, none⟩
  obtain rfl : o = o' := Except.ok.inj (hstart.symm.trans hstart')
  have hinert := h tree o.pool hplan hroot (TreeEdit.inserts tens) p hbecomes
  have hin : ([20] : Key) ∈ (TreeEdit.inserts tens).foldl TreeEdit.after ∅ := by decide
  obtain ⟨pool, hinsert⟩ := hinert.insert_eq hone [20] hin ⟨⟨6⟩, 2⟩
  have hmap : (MapCall.insert [20] ⟨⟨6⟩, 2⟩).run p.index = .ok (.flag false) ⟨p.tree, pool⟩ :=
    (Action.bind_of_ok hinsert).trans rfl
  have hglance : Session.through [.ask (.call (.map (.insert [20] ⟨⟨6⟩, 2⟩)))] ⟨p.index, []⟩ =
      some ⟨⟨p.tree, pool⟩, []⟩ := by
    change (Session.behind _ _ _ >>= _) = _
    rw [TreeRequest.run_map hmap]
    rfl
  have hidle : ∀ glance ∈ [Glance.ask (.call (.map (.insert [20] ⟨⟨6⟩, 2⟩)))],
      glance.Idle ((TreeEdit.inserts tens).foldl TreeEdit.after ∅) :=
    List.forall_mem_singleton.2 hin
  exact ⟨o, tree, p, hstart, hplan, hbecomes, hlevels, hone, htwo, pool, hinsert,
    (hinert.undisturbed _ _ hidle hglance).2⟩

end Index

end PageStore
