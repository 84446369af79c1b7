import PageStore.Proofs.Tree.Lifetime
import PageStore.Proofs.Tree.Map
import PageStore.Proofs.Tree.Survey

/-!
# Trees stay well formed

Whatever is done with a tree, verifying it finds nothing wrong and counts its keys:
`Index.always_verifies`. Between other calls a tree may be destroyed, and it may be attached again
under other limits, so that its nodes are of different largest sizes from level to level.
-/

namespace PageStore

open Pool

variable {n m : Nat} {gs : List (Guard n)} {x : Index n m} {M : RowMap} {E : List (Key × RowId)}

/-! ## Calls -/

/-- What can be done with a tree. -/
inductive TreeCall where
  /-- a call on the map that the tree is -/
  | map (call : MapCall)
  | destroy
  /-- the tree is attached again, with other limits for new nodes -/
  | attach (limits : TreeConfig)
  | verify

/-- The value that a call returns. -/
inductive TreeReply where
  | map (reply : MapReply)
  | done
  | count (entries : Nat)

namespace Index

/-- Takes the root as that of a tree with other limits. -/
def attach (limits : TreeConfig) : Action (Index n m) Unit := do
  let t := (← get).tree
  let tree ← onPool (Tree.attach t.order t.keySize limits t.root)
  modify fun x => { x with tree }

end Index

namespace TreeCall

/-- Makes the call on an index. -/
def run : TreeCall → Action (Index n m) TreeReply
  | map call => do return .map (← call.run)
  | destroy => do
    Index.destroy
    return .done
  | attach limits => do
    Index.attach limits
    return .done
  | verify => do return .count (← Index.onPool (← get).tree.verify)

/-- Whether a tree takes the call: keys have its width, and limits are in bounds for it. -/
def Fits (order : KeyOrder) (keySize : Nat) : TreeCall → Prop
  | map call => call.key.length = keySize
  | destroy => True
  | attach limits => ∃ tree, Tree.create order keySize limits = .ok tree
  | verify => True

/-- What a map answers, with the number of its keys for what verifying counts. -/
def reply (M : RowMap) : TreeCall → TreeReply
  | map call => .map (call.reply M)
  | destroy => .done
  | attach _ => .done
  | verify => .count M.keys.card

/-- What the call makes of a map. -/
def after (M : RowMap) : TreeCall → RowMap
  | map call => call.after M
  | destroy => ∅
  | attach _ => M
  | verify => M

end TreeCall

namespace Index

/-- The index has a well-formed tree with exactly the entries of the map, and verifying it counts
them. -/
structure Verifies (x : Index n m) (gs : List (Guard n)) (M : RowMap) : Prop where
  reflects : x.Reflects gs M
  verify : ∃ pool, x.tree.verify x.pool = .ok M.keys.card pool

/-- **The tree verifies throughout**: before the first call and after each of them, and every call
is answered as by the map. Only a disk whose pages are all allocated ends this. -/
def KeepsVerifying (x : Index n m) (gs : List (Guard n)) (M : RowMap) : List TreeCall → Prop
  | [] => x.Verifies gs M
  | call :: calls => x.Verifies gs M ∧
    match call.run x with
    | .ok reply y => reply = call.reply M ∧ y.KeepsVerifying gs (call.after M) calls
    | .error e y => e = .refused .diskFull ∧ y.pool.members = Finset.range maxLogicalPages

/-! ## How many keys there are -/

/-- The entries of an index are in key order. -/
theorem Keeps.sorted (hx : x.Keeps gs E) : Sorted x.tree.order E := by
  rcases hx.shape with ⟨-, rfl⟩ | ⟨d, h, t, ht, rfl⟩
  · exact .nil
  · rw [ht.follows.order]
    exact (Ordered.entries ht.within).1

end Index

/-- Entries in key order are as many as the map has keys. -/
theorem Shows.length_eq {o : KeyOrder} (h : Shows E fun key => M.lookup key) (hE : Sorted o E) :
    E.length = M.keys.card := by
  have hnodup : (E.map Prod.fst).Nodup := List.pairwise_map.2 <| hE.imp fun hlt heq => by
    rw [heq] at hlt
    exact Nat.lt_irrefl _ hlt
  have hkeys : M.keys = (E.map Prod.fst).toFinset := Finset.ext fun key => by
    rw [Finmap.mem_keys, Finmap.mem_iff, List.mem_toFinset, List.mem_map]
    constructor
    · rintro ⟨row, hrow⟩
      exact ⟨(key, row), (h key row).1 hrow, rfl⟩
    · rintro ⟨⟨_, row⟩, hmem, rfl⟩
      exact ⟨row, (h _ row).2 hmem⟩
  rw [hkeys, List.toFinset_card_of_nodup hnodup, List.length_map]

namespace Index

/-! ## Every call -/

/-- Verifying leaves the entries as they are, and counts the keys of the map. -/
theorem Reflects.verify_ends (hx : x.Reflects gs M) :
    Ends (Crowded gs 1) (fun count pool => count = M.keys.card ∧ Reflects ⟨x.tree, pool⟩ gs M)
      (x.tree.verify x.pool) := by
  obtain ⟨E, hkeeps, hM⟩ := hx
  refine hkeeps.verify_ends.mono ?_
  rintro count pool ⟨rfl, hs, hpages⟩
  exact ⟨hM.length_eq hkeeps.sorted, E, hkeeps.of_pages hs hpages, hM⟩

theorem Reflects.verifies (hx : x.Reflects gs M) (hroom : Room gs 1) : x.Verifies gs M := by
  obtain ⟨_, pool, hrun, rfl, -⟩ := hx.verify_ends.exists_ok fun _ _ hc => hc hroom
  exact ⟨hx, pool, hrun⟩

/-- **One call** on a tree is answered as by the map, and leaves an index with the entries of the
map. -/
theorem Reflects.run_ends (hx : x.Reflects gs M) (call : TreeCall)
    (hcall : call.Fits x.tree.order x.tree.keySize) :
    Ends (Stops (FullDisk gs 3))
      (fun reply y => reply = call.reply M ∧ y.tree.order = x.tree.order ∧
      y.tree.keySize = x.tree.keySize ∧ y.Reflects gs (call.after M)) (call.run x) := by
  cases call with
  | map call =>
    refine Ends.bind (hx.step call hcall) ?_
    rintro reply y ⟨rfl, ⟨root, htree⟩, hy⟩
    exact ⟨rfl, by rw [htree], by rw [htree], hy⟩
  | destroy =>
    obtain ⟨E, hkeeps, -⟩ := hx
    refine Ends.bind
      (hkeeps.destroy_ends.imp (fun e y hc => hc.fullDisk (by omega)) fun _ _ => id) ?_
    rintro _ y ⟨htree, hy⟩
    exact ⟨rfl, by rw [htree], by rw [htree], [], hy, shows_empty⟩
  | attach limits =>
    obtain ⟨tree, hcreate⟩ := hcall
    obtain ⟨E, hkeeps, hM⟩ := hx
    obtain ⟨-, -, horder, hwidth, -⟩ := Tree.accepted_of_create hcreate
    have hattach : Ends (Stops (FullDisk gs 3))
        (fun _ y => y.tree = { tree with root := x.tree.root } ∧
        y.Keeps gs E) (Index.attach limits x) := by
      rw [Index.attach, Action.get_bind]
      refine Ends.bind ((onPool_ends (hkeeps.attach_ends hcreate)).imp
        (fun e y hc => hc.fullDisk (by omega)) fun _ _ => id) ?_
      rintro _ ⟨_, pool⟩ ⟨rfl, rfl, hy⟩
      exact ⟨rfl, hy⟩
    refine Ends.bind hattach ?_
    rintro _ y ⟨htree, hy⟩
    exact ⟨rfl, htree ▸ horder, htree ▸ hwidth, E, hy, hM⟩
  | verify =>
    rw [TreeCall.run, Action.get_bind]
    refine Ends.bind ((onPool_ends hx.verify_ends).imp (fun e y hc => hc.fullDisk (by omega))
      fun _ _ => id) ?_
    rintro _ ⟨_, pool⟩ ⟨rfl, rfl, hy⟩
    exact ⟨rfl, rfl, rfl, hy⟩

/-- A call that returned was one that the tree takes. -/
theorem fits_of_run {call : TreeCall} {reply : TreeReply} {y : Index n m}
    (hrun : call.run x = .ok reply y) : call.Fits x.tree.order x.tree.keySize := by
  cases call with
  | map call =>
    obtain ⟨_, _, hcall, -⟩ := Action.bind_eq_ok_iff.1 hrun
    cases call with
    | insert key row =>
      obtain ⟨_, _, hinsert, -⟩ := Action.bind_eq_ok_iff.1 hcall
      exact width_of_insert hinsert
    | remove key =>
      obtain ⟨_, _, hremove, -⟩ := Action.bind_eq_ok_iff.1 hcall
      exact width_of_remove hremove
    | get key =>
      rw [MapCall.run, Action.get_bind] at hcall
      obtain ⟨_, _, hget, -⟩ := Action.bind_eq_ok_iff.1 hcall
      obtain ⟨_, hget, -⟩ := of_onPool hget
      obtain ⟨⟨⟩, _, hcheck, -⟩ := Action.bind_eq_ok_iff.1 hget
      exact (Tree.of_checkKey hcheck).1
  | destroy => trivial
  | attach limits =>
    obtain ⟨_, _, hattach, -⟩ := Action.bind_eq_ok_iff.1 hrun
    rw [attach, Action.get_bind] at hattach
    obtain ⟨_, _, hattach, -⟩ := Action.bind_eq_ok_iff.1 hattach
    obtain ⟨_, hattach, -⟩ := of_onPool hattach
    cases hcreate : Tree.create x.tree.order x.tree.keySize limits with
    | ok tree => exact ⟨tree, hcreate⟩
    | error e =>
      rw [Tree.attach, Action.bind_of_error (Action.check_error hcreate _)] at hattach
      cases hattach
  | verify => trivial

/-- **Calls that returned** did with the tree what they do with a map, however little room there was
for them. -/
theorem Reflects.of_runs (calls : List TreeCall) {replies : List TreeReply} {y : Index n m}
    (hx : x.Reflects gs M) (hrun : calls.mapM TreeCall.run x = .ok replies y) :
    y.Reflects gs (calls.foldl (fun M call => call.after M) M) := by
  induction calls generalizing x M replies with
  | nil =>
    cases hrun
    exact hx
  | cons call calls ih =>
    rw [List.mapM_cons] at hrun
    obtain ⟨reply, x₁, hcall, hrun⟩ := Action.bind_eq_ok_iff.1 hrun
    obtain ⟨rest, x₂, hrest, hret⟩ := Action.bind_eq_ok_iff.1 hrun
    cases hret
    have hstep := hx.run_ends call (fits_of_run hcall)
    rw [hcall] at hstep
    obtain ⟨-, -, -, hx₁⟩ := hstep
    exact ih hx₁ hrest

/-- **Every run of calls.** -/
theorem Reflects.keepsVerifying (hroom : Room gs 3) (calls : List TreeCall) (hx : x.Reflects gs M)
    (hcalls : ∀ call ∈ calls, call.Fits x.tree.order x.tree.keySize) :
    x.KeepsVerifying gs M calls := by
  have hone : Room gs 1 := hroom.mono (by omega)
  induction calls generalizing x M with
  | nil => exact hx.verifies hone
  | cons call calls ih =>
    refine ⟨hx.verifies hone, ?_⟩
    have hstep := hx.run_ends call (hcalls call List.mem_cons_self)
    cases hrun : call.run x with
    | error e y =>
      rw [hrun] at hstep
      obtain ⟨he, -, hfull⟩ := hstep hroom
      exact ⟨he, hfull⟩
    | ok reply y =>
      rw [hrun] at hstep
      obtain ⟨hreply, horder, hwidth, hy⟩ := hstep
      refine ⟨hreply, ih hy fun c hc => ?_⟩
      rw [horder, hwidth]
      exact hcalls c (.tail _ hc)

/-- **Every tree verifies.** On a new file, after any use of the pool, whatever settings the pool
and the space are opened with: as long as three frames are free of guards, a new tree verifies after
every run of calls, and verifying counts its keys. Only a full disk keeps a call from returning. -/
theorem always_verifies {config : PoolConfig} {disk : SpaceConfig}
    (hconfig : config.validate = .ok ())
    (hdisk : disk.validate = .ok ()) {v : Volume} (hv : v.openFile = .ok {}) (uses : List PoolCall)
    {order : KeyOrder} {keySize : Nat} {limits : TreeConfig} {tree : Tree}
    (htree : Tree.create order keySize limits = .ok tree) (calls : List TreeCall)
    (hcalls : ∀ call ∈ calls, call.Fits order keySize) :
    ∃ o, OpenPool.start config disk v = .ok o ∧ (Room (o.after uses).guards 3 →
      KeepsVerifying ⟨tree, (o.after uses).pool⟩ (o.after uses).guards ∅ calls) := by
  obtain ⟨o, hstart, -, h⟩ := OpenPool.start_fresh hconfig hdisk hv
  refine ⟨o, hstart, fun hroom => ?_⟩
  obtain ⟨-, -, horder, hwidth, -⟩ := Tree.accepted_of_create htree
  have hempty := reflects_empty (OpenPool.sound_after h uses) htree
  refine hempty.keepsVerifying hroom calls fun call hcall => ?_
  rw [horder, hwidth]
  exact hcalls call hcall

/-- A pool with three frames, in which a tree gets two keys, the second one under larger limits, and
is destroyed. -/
theorem always_verifies_one :
    ∃ o tree, OpenPool.start ⟨3, .lru⟩ ⟨1⟩ .missing = .ok o ∧
      Tree.create .bytewise 1 ⟨some 2, some 3⟩ = .ok tree ∧
      KeepsVerifying ⟨tree, o.pool⟩ o.guards ∅ [.map (.insert [7] ⟨⟨5⟩, 1⟩),
        .attach ⟨some 4, some 5⟩, .map (.insert [3] ⟨⟨5⟩, 2⟩), .verify, .destroy] := by
  have hlimits : TreeCall.Fits .bytewise 1 (.attach ⟨some 4, some 5⟩) := ⟨_, rfl⟩
  obtain ⟨o, hstart, h⟩ := @always_verifies ⟨3, .lru⟩ ⟨1⟩ rfl rfl .missing rfl [] .bytewise 1
    ⟨some 2, some 3⟩ _ rfl [.map (.insert [7] ⟨⟨5⟩, 1⟩), .attach ⟨some 4, some 5⟩,
      .map (.insert [3] ⟨⟨5⟩, 2⟩), .verify, .destroy]
    (by simpa [TreeCall.Fits, MapCall.key] using hlimits)
  exact ⟨o, _, hstart, rfl, h (OpenPool.room_fresh rfl rfl rfl hstart (Nat.le_refl 3))⟩

end Index

end PageStore
