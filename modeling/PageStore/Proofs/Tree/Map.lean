import Mathlib.Data.Finmap
import PageStore.Proofs.Pool.Run
import PageStore.Proofs.Tree.Reading

/-!
# A tree is a map

Calls on a tree that start without entries are answered as by a finite map from keys to rows, in
any order and for as long as the disk has room: `Index.refines_map`. The pool may have been used
for anything before, and may have guards out, as long as three frames are free of them.
-/

namespace PageStore

open Pool

variable {n m : Nat} {gs : List (Guard n)} {x : Index n m}

/-- A finite map from keys to rows. -/
abbrev RowMap : Type := Finmap fun _ : Key => RowId

/-! ## Calls -/

/-- What can be asked of a map. -/
inductive MapCall where
  | insert (key : Key) (row : RowId)
  | remove (key : Key)
  | get (key : Key)

/-- The value that a call returns. -/
inductive MapReply where
  | flag (b : Bool)
  | row (row : Option RowId)

namespace MapCall

/-- The key that the call is about. -/
def key : MapCall → Key
  | insert key _ => key
  | remove key => key
  | get key => key

/-- Makes the call on an index. -/
def run : MapCall → Action (Index n m) MapReply
  | insert key row => do return .flag (← Index.insert key row)
  | remove key => do return .flag (← Index.remove key)
  | get key => do return .row (← Index.onPool ((← MonadState.get).tree.get? key))

/-- What a map answers: whether the key was absent before an insertion, whether it was present
before a removal, and the row that is looked up. -/
def reply (M : RowMap) : MapCall → MapReply
  | insert key _ => .flag (key ∉ M)
  | remove key => .flag (key ∈ M)
  | get key => .row (M.lookup key)

/-- What the call makes of a map. An insertion keeps the row of a key that is present. -/
def after (M : RowMap) : MapCall → RowMap
  | insert key row => if key ∈ M then M else M.insert key row
  | remove key => M.erase key
  | get _ => M

end MapCall

namespace Index

/-- Every key of the width is looked up as in the map. -/
def LooksUp (x : Index n m) (M : RowMap) : Prop :=
  ∀ key : Key, key.length = x.tree.keySize →
    ∃ pool, x.tree.get? key x.pool = .ok (M.lookup key) pool

/-- **The calls are answered as by the map**, each in turn, and after each of them every key is
looked up as in the map. Only a disk whose pages are all allocated ends this. -/
def Refines (x : Index n m) (M : RowMap) : List MapCall → Prop
  | [] => x.LooksUp M
  | call :: calls => x.LooksUp M ∧
    match call.run x with
    | .ok reply y => reply = call.reply M ∧ y.Refines (call.after M) calls
    | .error e y => e = .refused .diskFull ∧ y.pool.members = Finset.range maxLogicalPages

/-! ## What the entries of a tree show -/

/-- The index has exactly the entries of the map. -/
def Reflects (x : Index n m) (gs : List (Guard n)) (M : RowMap) : Prop :=
  ∃ E, x.Keeps gs E ∧ Shows E fun key => M.lookup key

end Index

section Shows

variable {M : RowMap} {o : KeyOrder} {key : Key} {pre post : List (Key × RowId)} {row : RowId}

/-- Without entries the map is empty. -/
theorem shows_empty : Shows [] fun key => (∅ : RowMap).lookup key := fun key row => by
  dsimp only
  rw [Finmap.lookup_empty]
  exact iff_of_false nofun nofun

/-- A key in its place is not in the map. -/
theorem Shows.notMem (h : Shows (pre ++ post) fun key => M.lookup key)
    (hpre : Below o (o.rank key) pre) (hpost : Above o (o.rank key) post) : key ∉ M := by
  rw [Finmap.mem_iff]
  rintro ⟨row, hrow⟩
  exact not_mem_of_place hpre hpost row ((h key row).1 hrow)

theorem mem_middle {e e' : Key × RowId} : e ∈ pre ++ e' :: post ↔ e = e' ∨ e ∈ pre ++ post := by
  rw [List.perm_middle.mem_iff, List.mem_cons]

/-- The map gets the entry. -/
theorem Shows.insert (h : Shows (pre ++ post) fun key => M.lookup key)
    (hpre : Below o (o.rank key) pre) (hpost : Above o (o.rank key) post) :
    Shows (pre ++ (key, row) :: post) fun k => (M.insert key row).lookup k := by
  intro k r
  dsimp only
  rw [mem_middle]
  by_cases hk : k = key
  · subst hk
    rw [Finmap.lookup_insert]
    constructor
    · rintro ⟨⟩
      exact .inl rfl
    · rintro (⟨⟨⟩⟩ | hin)
      · rfl
      · exact absurd hin (not_mem_of_place hpre hpost r)
  · rw [Finmap.lookup_insert_of_ne M hk, h k r]
    constructor
    · exact .inr
    · rintro (⟨⟨⟩⟩ | hin)
      · exact absurd rfl hk
      · exact hin

/-- The map loses the entry. -/
theorem Shows.erase (h : Shows (pre ++ (key, row) :: post) fun key => M.lookup key)
    (hpre : Below o (o.rank key) pre) (hpost : Above o (o.rank key) post) :
    Shows (pre ++ post) fun k => (M.erase key).lookup k := by
  intro k r
  dsimp only
  by_cases hk : k = key
  · subst hk
    rw [Finmap.lookup_erase]
    exact ⟨nofun, fun hin => absurd hin (not_mem_of_place hpre hpost r)⟩
  · rw [Finmap.lookup_erase_ne hk, h k r, mem_middle]
    constructor
    · rintro (⟨⟨⟩⟩ | hin)
      · exact absurd rfl hk
      · exact hin
    · exact .inr

theorem erase_of_notMem (h : key ∉ M) : M.erase key = M := by
  refine Finmap.ext_lookup fun k => ?_
  by_cases hk : k = key
  · rw [hk, Finmap.lookup_erase, Finmap.lookup_eq_none.2 h]
  · exact Finmap.lookup_erase_ne hk

end Shows

/-! ## Every call -/

namespace Index

variable {M : RowMap}

/-- **Looking up.** -/
theorem Keeps.get?_ends {E : List (Key × RowId)} (hx : x.Keeps gs E)
    (hM : Shows E fun k => M.lookup k) {key : Key} (hkey : key.length = x.tree.keySize) :
    Ends (Crowded gs 1) (fun row pool => row = M.lookup key ∧ pool.Sound gs ∧
      pool.pages = x.pool.pages)
      (x.tree.get? key x.pool) := by
  rcases hx.shape with ⟨hroot, rfl⟩ | ⟨d, h, t, ht, rfl⟩
  · have hnone : M.lookup key = none := Option.eq_none_iff_forall_ne_some.2 fun row hrow =>
      nomatch (hM key row).1 hrow
    exact .of_eq_ok (Tree.get?_of_empty hroot hkey) ⟨hnone.symm, hx.sound, rfl⟩
  by_cases hroom : Room gs 1
  · obtain ⟨pool, hrun, hs, hpages⟩ :=
      ht.readable.get?_eq_ok ht.has.sound ht.unwritten hroom hkey hM
    exact .of_eq_ok hrun ⟨rfl, hs, hpages⟩
  · obtain ⟨pool, hrun⟩ := Tree.get?_eq_error hx.sound ht.not_isEmpty ht.root_allocated ht.root_free
      hroom hkey
    exact .of_eq_error hrun hroom

/-- Only the pages of an index matter. -/
theorem Keeps.of_pages {E : List (Key × RowId)} (hx : x.Keeps gs E) {pool : Pool n m}
    (hs : pool.Sound gs) (hpages : pool.pages = x.pool.pages) : Keeps ⟨x.tree, pool⟩ gs E :=
  ⟨hs, hx.accepted, hx.unrecorded, hx.shape.imp_right fun ⟨d, h, t, ht, hE⟩ =>
    ⟨d, h, t, ht.of_pages hs hpages, hE⟩⟩

/-- **One call** is answered as by the map, and leaves an index with the entries of the map. -/
theorem Reflects.step (hx : x.Reflects gs M) (call : MapCall)
    (hkey : call.key.length = x.tree.keySize) :
    Ends (Stops (FullDisk gs 3)) (fun reply y => reply = call.reply M ∧
      (∃ root, y.tree = { x.tree with root }) ∧ y.Reflects gs (call.after M)) (call.run x) := by
  obtain ⟨E, hkeeps, hM⟩ := hx
  cases call with
  | insert key row =>
    change key.length = x.tree.keySize at hkey
    refine Ends.bind ((insert_ends hkeeps hkey row).imp
      (fun e y hfull => hfull.mono (Nat.le_succ 2)) fun _ _ => id) ?_
    rintro added y ⟨htree, ⟨rfl, ⟨row', hmem⟩, hy⟩ | ⟨rfl, pre, post, rfl, hpre, hpost, hy⟩⟩
    · have hin : key ∈ M := Finmap.mem_of_lookup_eq_some ((hM key row').2 hmem)
      refine ⟨by simp [MapCall.reply, hin], htree, E, hy, ?_⟩
      rw [MapCall.after, if_pos hin]
      exact hM
    · have hout : key ∉ M := hM.notMem hpre hpost
      refine ⟨by simp [MapCall.reply, hout], htree, _, hy, ?_⟩
      rw [MapCall.after, if_neg hout]
      exact hM.insert hpre hpost
  | remove key =>
    change key.length = x.tree.keySize at hkey
    refine Ends.bind ((remove_ends hkeeps hkey).imp
      (fun e y hfull => hfull.fullDisk (Nat.le_refl 3)) fun _ _ => id) ?_
    rintro found y ⟨htree, pre, post, hpre, hpost, ⟨rfl, rfl, hy⟩ | ⟨rfl, ⟨row, rfl⟩, hy⟩⟩
    · have hout : key ∉ M := hM.notMem hpre hpost
      refine ⟨by simp [MapCall.reply, hout], htree, _, hy, ?_⟩
      rw [MapCall.after, erase_of_notMem hout]
      exact hM
    · have hin : key ∈ M := Finmap.mem_of_lookup_eq_some ((hM key row).2 (by simp))
      exact ⟨by simp [MapCall.reply, hin], htree, _, hy, hM.erase hpre hpost⟩
  | get key =>
    change key.length = x.tree.keySize at hkey
    rw [MapCall.run, Action.get_bind]
    refine Ends.bind ((onPool_ends (hkeeps.get?_ends hM hkey)).imp
      (fun e y hfull => hfull.fullDisk (by omega)) fun _ _ => id) ?_
    rintro row ⟨tree, pool⟩ ⟨rfl, rfl, hs, hpages⟩
    exact ⟨rfl, ⟨x.tree.root, rfl⟩, E, hkeeps.of_pages hs hpages, hM⟩

/-- **Every run of calls.** -/
theorem Reflects.refines (hroom : Room gs 3) (calls : List MapCall) (hx : x.Reflects gs M)
    (hkeys : ∀ call ∈ calls, call.key.length = x.tree.keySize) : x.Refines M calls := by
  have hlooks : ∀ {x : Index n m} {M : RowMap}, x.Reflects gs M → x.LooksUp M :=
    fun ⟨E, hkeeps, hM⟩ key hkey => by
      obtain ⟨row, pool, hrun, rfl, -⟩ :=
        (hkeeps.get?_ends hM hkey).exists_ok fun _ _ hc => hc (hroom.mono (by omega))
      exact ⟨pool, hrun⟩
  induction calls generalizing x M with
  | nil => exact hlooks hx
  | cons call calls ih =>
    refine ⟨hlooks hx, ?_⟩
    have hstep := hx.step call (hkeys call List.mem_cons_self)
    cases hrun : call.run x with
    | error e y =>
      rw [hrun] at hstep
      obtain ⟨he, -, hfull⟩ := hstep hroom
      exact ⟨he, hfull⟩
    | ok reply y =>
      rw [hrun] at hstep
      obtain ⟨hreply, ⟨root, htree⟩, hy⟩ := hstep
      refine ⟨hreply, ih hy fun c hc => ?_⟩
      rw [htree]
      exact hkeys c (.tail _ hc)

/-- A tree that was created has the entries of the empty map. -/
theorem reflects_empty {pool : Pool n m} (hs : pool.Sound gs) {order : KeyOrder} {keySize : Nat}
    {config : TreeConfig} {tree : Tree} (htree : Tree.create order keySize config = .ok tree) :
    Reflects ⟨tree, pool⟩ gs ∅ := by
  obtain ⟨haccepted, hroot, -, -, hnone⟩ := Tree.accepted_of_create htree
  exact ⟨[], ⟨hs, haccepted, hnone, .inl ⟨hroot, rfl⟩⟩, shows_empty⟩

end Index

/-! ## Pools with chosen pages -/

/-- Items that are not too many are in some node. -/
theorem TreePlan.Fits.exists_node {d : TreePlan} {h : Nat} (hd : d.Fits) (p parent next : PageId)
    (l : Items h) (hlen : l.length ≤ d.max h) (hw : ∀ i ∈ l, i.1.length = d.width) :
    ∃ node : Node (levelKind h), node.Holds (d.header h p parent next) l.records := by
  induction l using List.reverseRecOn with
  | nil =>
    have hfresh := (hd.fresh (h := h) p parent).1
    cases h with
    | zero => exact ⟨_, hfresh.setNext next⟩
    | succ h => exact ⟨_, hfresh⟩
  | append_singleton l i ih =>
    obtain ⟨hl, hi⟩ := List.forall_mem_append.1 hw
    rw [List.length_append, List.length_singleton] at hlen
    obtain ⟨node, hnode⟩ := ih (Nat.le_of_succ_le hlen) hl
    rw [← List.append_nil l] at hnode
    obtain ⟨node', -, hnode'⟩ := Items.insert_eq_ok hd l [] hnode
      (by rw [List.append_nil]; exact Nat.le_of_succ_le hlen) i (hi i (List.mem_singleton_self i))
    exact ⟨node', hnode'⟩

namespace Pool.Sound

variable {pool : Pool n m}

/-- Calls on a pool with an empty disk give it any number of pages. -/
theorem exists_pages (hs : pool.Sound gs) (hroom : Room gs 1) (hnone : ∀ q, pool.pages q = none)
    {k : Nat} (hk : k < maxLogicalPages) :
    ∃ (uses : List PoolCall) (pool' : Pool n m) (l : List PageId),
      OpenPool.after ⟨n, m, pool, gs⟩ uses = ⟨n, m, pool', gs⟩ ∧ pool'.Sound gs ∧
      l.length = k ∧ l.Nodup ∧ ∀ q, pool'.pages q ≠ none ↔ q ∈ l := by
  induction k with
  | zero => exact ⟨[], pool, [], rfl, hs, rfl, .nil, fun q => by simp [hnone q]⟩
  | succ k ih =>
    obtain ⟨uses, pool₁, l, huses, hs₁, hlen, hnd, hin⟩ := ih (Nat.lt_of_succ_lt hk)
    obtain ⟨g, pool₂, hnew, -, hfresh, hs₂, hpages₂⟩ := hs₁.newPage_eq_ok
      (members_ne_range_of_length hs₁.space (hlen ▸ Nat.lt_of_succ_lt hk) fun q => (hin q).1) hroom
    obtain ⟨hs₃, hpages₃⟩ := hs₂.release
    refine ⟨uses ++ [.newPage, .drop 0], pool₂.release g, g.page :: l, ?_, hs₃,
      congrArg (· + 1) hlen, List.nodup_cons.2 ⟨fun hmem => (hin _).2 hmem hfresh, hnd⟩,
      fun q => ?_⟩
    · rw [OpenPool.after_append, huses, OpenPool.after_newPage hnew]
      rfl
    · rw [hpages₃, hpages₂, Function.update_apply, List.mem_cons, ← hin q]
      split
      · simp [*]
      · simp [*]

/-- Calls give pages that nobody holds any bytes. -/
theorem exists_bytes (hs : pool.Sound gs) (hroom : Room gs 1) (bytes : PageId → Page)
    (l : List PageId) (hl : ∀ q ∈ l, pool.pages q ≠ none) (hfree : ∀ g ∈ gs, g.page ∉ l) :
    ∃ (uses : List PoolCall) (pool' : Pool n m),
      OpenPool.after ⟨n, m, pool, gs⟩ uses = ⟨n, m, pool', gs⟩ ∧ pool'.Sound gs ∧
      ∀ q, pool'.pages q = if q ∈ l then some (bytes q) else pool.pages q := by
  induction l with
  | nil => exact ⟨[], pool, rfl, hs, fun q => (if_neg List.not_mem_nil).symm⟩
  | cons p l ih =>
    obtain ⟨uses, pool₁, huses, hs₁, hpages₁⟩ :=
      ih (fun q hq => hl q (.tail _ hq)) fun g hg hin => hfree g hg (.tail _ hin)
    have hallocated : pool₁.pages p ≠ none := by
      rw [hpages₁]
      split
      · exact Option.some_ne_none _
      · exact hl p List.mem_cons_self
    obtain ⟨g, pool₂, hfetch, rfl, hmode, hs₂, hpages₂⟩ := hs₁.fetch_eq_ok .write hallocated
      (fun g hg e => hfree g hg (e ▸ List.mem_cons_self)) hroom.not_full
    obtain ⟨hs₃, hpages₃⟩ := hs₂.put List.mem_cons_self hmode (bytes g.page)
    obtain ⟨hs₄, hpages₄⟩ := hs₃.release
    refine ⟨uses ++ [.fetch .write g.page, .edit 0 fun _ => .ok (bytes g.page), .drop 0], _, ?_,
      hs₄, fun q => ?_⟩
    · rw [OpenPool.after_append, huses, OpenPool.after_fetch hfetch]
      obtain ⟨p, f, mode⟩ := g
      obtain rfl : mode = .write := hmode
      rfl
    · rw [hpages₄, hpages₃, hpages₂, Function.update_apply, hpages₁]
      by_cases hq : q = g.page
      · simp [hq]
      · simp [hq]

end Pool.Sound

/-! ## Pools on a new file -/

namespace OpenPool

section Fresh

variable {config : PoolConfig} {disk : SpaceConfig} {v : Volume} {o : OpenPool} {k : Nat}
  (hconfig : config.validate = .ok ()) (hdisk : disk.validate = .ok ()) (hv : v.openFile = .ok {})
  (ho : OpenPool.start config disk v = .ok o)

include hconfig hdisk hv ho

/-- A pool that was opened just now has as many frames as its settings say, and no guard is out. -/
theorem guards_fresh : o.frames = config.poolSize ∧ o.guards = [] := by
  obtain ⟨o', hstart, hframes, h⟩ := OpenPool.start_fresh hconfig hdisk hv
  obtain rfl : o = o' := Except.ok.inj (ho.symm.trans hstart)
  exact ⟨hframes, List.map_eq_nil_iff.1 h.held⟩

theorem pages_fresh (q : PageId) : o.pool.pages q = none := by
  rw [pages_eq_none_iff, OpenPool.members_fresh hconfig hdisk hv ho]
  exact Finset.notMem_empty _

/-- All its frames are free. -/
theorem room_fresh_iff : Room o.guards k ↔ k ≤ config.poolSize := by
  obtain ⟨hframes, hguards⟩ := guards_fresh hconfig hdisk hv ho
  rw [hguards, Room, hframes, List.map_nil, List.toFinset_nil, Finset.card_empty, Nat.zero_add]

theorem room_fresh (hk : k ≤ config.poolSize) : Room o.guards k :=
  (room_fresh_iff hconfig hdisk hv ho).2 hk

/-- It has a page to give, which is the only one then. -/
theorem first_page (hone : 1 ≤ config.poolSize) : ∃ p pool,
    o.after [.newPage, .drop 0] = ⟨o.frames, o.slots, pool, []⟩ ∧ pool.Sound [] ∧
    pool.pages = Function.update (fun _ => none) p (some (Block.zero pageSize)) := by
  have hroom := room_fresh hconfig hdisk hv ho hone
  have hnone : o.pool.pages = fun _ => none := funext (pages_fresh hconfig hdisk hv ho)
  obtain ⟨-, hguards⟩ := guards_fresh hconfig hdisk hv ho
  obtain ⟨o', hstart, -, h⟩ := OpenPool.start_fresh hconfig hdisk hv
  obtain rfl : o = o' := Except.ok.inj (ho.symm.trans hstart)
  have hspare := members_ne_range_of_length (l := []) h.sound.space (by decide)
    fun q hq => absurd (congrFun hnone q) hq
  obtain ⟨g, pool, hnew, -, -, hs, hpages⟩ := h.sound.newPage_eq_ok hspare hroom
  obtain ⟨hs', hpages'⟩ := hs.release
  refine ⟨g.page, pool.release g, ?_, hguards ▸ hs', by rw [hpages', hpages, hnone]⟩
  rw [OpenPool.after_newPage hnew, hguards]
  rfl

/-- Calls can give any bytes to pages that are told beforehand. -/
theorem exists_chosen (hone : 1 ≤ config.poolSize) (hk : k < maxLogicalPages) :
    ∃ l : List PageId, l.length = k ∧ l.Nodup ∧ ∀ bytes : PageId → Page,
      ∃ (uses : List PoolCall) (pool : Pool o.frames o.slots),
        o.after uses = ⟨o.frames, o.slots, pool, []⟩ ∧ pool.Sound [] ∧
        ∀ q ∈ l, pool.pages q = some (bytes q) := by
  have hroom := room_fresh hconfig hdisk hv ho hone
  have hnone := pages_fresh hconfig hdisk hv ho
  obtain ⟨-, hguards⟩ := guards_fresh hconfig hdisk hv ho
  obtain ⟨o', hstart, -, h⟩ := OpenPool.start_fresh hconfig hdisk hv
  obtain rfl : o = o' := Except.ok.inj (ho.symm.trans hstart)
  obtain ⟨n, m, pool, gs⟩ := o
  obtain rfl : gs = [] := hguards
  obtain ⟨uses, pool₁, l, huses, hs₁, hlen, hnd, hin⟩ := h.sound.exists_pages hroom hnone hk
  refine ⟨l, hlen, hnd, fun bytes => ?_⟩
  obtain ⟨uses', pool₂, huses', hs₂, hpages₂⟩ := hs₁.exists_bytes hroom bytes l
    (fun q hq => (hin q).2 hq) (List.forall_mem_nil _)
  refine ⟨uses ++ uses', pool₂, ?_, hs₂, fun q hq => (hpages₂ q).trans (if_pos hq)⟩
  rw [OpenPool.after_append, huses, huses']

end Fresh

end OpenPool

/-- **A tree is a map.** On a new file, after any use of the pool, whatever settings the pool and
the space are opened with: as long as three frames are free of guards, a new tree answers every run
of calls as a map does that is empty at first, and only a full disk keeps a call from returning. -/
theorem Index.refines_map {config : PoolConfig} {disk : SpaceConfig}
    (hconfig : config.validate = .ok ())
    (hdisk : disk.validate = .ok ()) {v : Volume} (hv : v.openFile = .ok {}) (uses : List PoolCall)
    {order : KeyOrder} {keySize : Nat} {limits : TreeConfig} {tree : Tree}
    (htree : Tree.create order keySize limits = .ok tree) (calls : List MapCall)
    (hkeys : ∀ call ∈ calls, call.key.length = keySize) :
    ∃ o, OpenPool.start config disk v = .ok o ∧
      (Room (o.after uses).guards 3 → Index.Refines ⟨tree, (o.after uses).pool⟩ ∅ calls) := by
  obtain ⟨o, hstart, -, h⟩ := OpenPool.start_fresh hconfig hdisk hv
  refine ⟨o, hstart, fun hroom => ?_⟩
  refine (Index.reflects_empty (OpenPool.sound_after h uses) htree).refines hroom calls
    fun call hcall => ?_
  rw [(Tree.accepted_of_create htree).2.2.2.1]
  exact hkeys call hcall

/-- A pool with three frames, in which keys of one byte are inserted, found and removed. -/
theorem Index.refines_map_one :
    ∃ o tree, OpenPool.start ⟨3, .lru⟩ ⟨1⟩ .missing = .ok o ∧
      Tree.create .bytewise 1 ⟨some 2, some 3⟩ = .ok tree ∧
      Index.Refines ⟨tree, o.pool⟩ ∅
        [.insert [7] ⟨⟨5⟩, 1⟩, .insert [3] ⟨⟨5⟩, 2⟩, .insert [7] ⟨⟨5⟩, 3⟩, .get [7],
          .remove [7]] := by
  obtain ⟨o, hstart, h⟩ := @Index.refines_map ⟨3, .lru⟩ ⟨1⟩ rfl rfl .missing rfl [] .bytewise 1
    ⟨some 2, some 3⟩ _ rfl [.insert [7] ⟨⟨5⟩, 1⟩, .insert [3] ⟨⟨5⟩, 2⟩, .insert [7] ⟨⟨5⟩, 3⟩,
      .get [7], .remove [7]] (by simp [MapCall.key])
  exact ⟨o, _, hstart, rfl, h (OpenPool.room_fresh rfl rfl rfl hstart (Nat.le_refl 3))⟩

end PageStore
