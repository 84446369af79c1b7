import PageStore.Proofs.Tree.Recorded
import PageStore.Proofs.Tree.Survey
import PageStore.Proofs.Tree.Verified

/-!
# Trees that share a pool

Any number of trees may have their pages in one pool, next to pages that belong to no tree. They
divide the allocated pages between them: every page that is allocated belongs to one tree or was
there before, and nothing else does. A call on one of the trees leaves the pages of the others
alone, and with them all that can be read from the others: `Forest.always_divides`.

A tree may have a record of its root in a roots page, which it can share with others. That page
belongs to none of them.
-/

namespace PageStore

open Pool

variable {k n m : Nat} {α : Type} {gs : List (Guard n)} {x y : Index n m} {l old new : List PageId}
  {E : List (Key × RowId)} {q : PageId} {pool pool' : Pool n m} {tree : Tree}

/-- A number of trees with one pool for their pages. -/
structure Forest (k n m : Nat) where
  /-- the trees -/
  trees : Fin k → Tree
  /-- the pool -/
  pool : Pool n m

/-- How a tree is set up. It is created without keys, and its root is recorded from then on if there
is a place for that. -/
structure Planting where
  /-- how keys are ordered -/
  order : KeyOrder
  /-- width of the keys -/
  keySize : Nat
  /-- how large nodes may become -/
  limits : TreeConfig
  /-- where the root is recorded, if it is -/
  record : Option Registration

/-- Sets a tree up. -/
def Planting.run (plan : Planting) : Action (Pool n m) Tree := do
  let tree ← (Tree.create plan.order plan.keySize plan.limits : Except StoreError Tree)
  match plan.record with
  | none => return tree
  | some r => tree.register r.page r.index

/-- What changes a tree. -/
inductive TreeEdit where
  | insert (key : Key) (row : RowId)
  | remove (key : Key)
  | destroy

/-- Changes a tree. -/
def TreeEdit.run : TreeEdit → Action (Index n m) Unit
  | insert key row => do let _ ← Index.insert key row
  | remove key => do let _ ← Index.remove key
  | destroy => Index.destroy

namespace Forest

/-- A change of one of the trees. -/
structure Call (k : Nat) where
  /-- which tree -/
  tree : Fin k
  /-- the change -/
  edit : TreeEdit

/-- A tree, with the pool. -/
def index (f : Forest k n m) (i : Fin k) : Index n m := ⟨f.trees i, f.pool⟩

/-- Another tree in place of one, and another pool. -/
def set (f : Forest k n m) (i : Fin k) (x : Index n m) : Forest k n m :=
  ⟨Function.update f.trees i x.tree, x.pool⟩

@[simp] theorem pool_set (f : Forest k n m) (i : Fin k) (x : Index n m) :
    (f.set i x).pool = x.pool :=
  rfl

@[simp] theorem trees_set_self (f : Forest k n m) (i : Fin k) (x : Index n m) :
    (f.set i x).trees i = x.tree := Function.update_self ..

theorem trees_set_of_ne (f : Forest k n m) {i j : Fin k} (hj : j ≠ i) (x : Index n m) :
    (f.set i x).trees j = f.trees j := Function.update_of_ne hj ..

@[simp] theorem index_set_self (f : Forest k n m) (i : Fin k) (x : Index n m) :
    (f.set i x).index i = x := congrArg (Index.mk · x.pool) (f.trees_set_self i x)

theorem index_set_of_ne (f : Forest k n m) {i j : Fin k} (hj : j ≠ i) (x : Index n m) :
    (f.set i x).index j = ⟨f.trees j, x.pool⟩ :=
      congrArg (Index.mk · x.pool) (f.trees_set_of_ne hj x)

/-- Runs an action on one of the trees. -/
def onTree (i : Fin k) (act : Action (Index n m) α) : Action (Forest k n m) α :=
  Action.focus (fun f => (f.index i, f.set i)) act

/-- Makes a call. -/
def Call.run (call : Call k) : Action (Forest k n m) Unit := onTree call.tree call.edit.run

/-- The page belongs to a tree: walks from its root come to it. -/
def Owns (f : Forest k n m) (i : Fin k) (q : PageId) : Prop :=
  (f.trees i).root ≠ .none ∧ WalksTo f.pool.pages (f.trees i).root q

/-- **The trees divide the pages.** No page belongs to two trees, or to a tree and to the others,
and the allocated pages are those that belong to a tree and the others. A tree without entries has
none. -/
structure Divides (f : Forest k n m) (others : PageId → Prop) : Prop where
  apart : ∀ i j q, f.Owns i q → f.Owns j q → i = j
  outside : ∀ i q, f.Owns i q → ¬others q
  allocated : ∀ q : PageId, q.val.toNat ∈ f.pool.members ↔ others q ∨ ∃ i, f.Owns i q
  empty : ∀ i pool, (f.trees i).entries f.pool = .ok [] pool → ∀ q, ¬f.Owns i q

/-- **A call on a tree spares the rest.** Other trees have the root that they had, and are read as
before. A page that was allocated and did not belong to the tree keeps its bytes, but for the tree's
roots page, where other indices keep their roots. -/
structure Spares (f f' : Forest k n m) (i : Fin k) : Prop where
  trees : ∀ j, j ≠ i → f'.trees j = f.trees j
  pages : ∀ q, f.pool.pages q ≠ none → ¬f.Owns i q →
    (∀ r, (f.trees i).registration = some r → q ≠ r.page) → f'.pool.pages q = f.pool.pages q
  roots : ∀ r, (f.trees i).registration = some r → ∃ b b', f.pool.pages r.page = some b ∧
    f'.pool.pages r.page = some b' ∧ ∀ j, j ≠ r.index → Roots.get? b' j = Roots.get? b j
  contents : ∀ j, j ≠ i → ∃ E, (f.trees j).Lists f.pool E ∧ (f'.trees j).Lists f'.pool E ∧
    (∃ pool, (f.trees j).verify f.pool = .ok E.length pool) ∧
    ∃ pool, (f'.trees j).verify f'.pool = .ok E.length pool

end Forest

/-! ## One tree -/

namespace Index

/-- The pages that an index takes up are those that walks from its root come to. -/
theorem Occupies.walksTo_iff (hx : x.Occupies gs l E) :
    (x.tree.root ≠ .none ∧ WalksTo x.pool.pages x.tree.root q) ↔ q ∈ l := by
  rcases hx.shape with ⟨hroot, -, rfl⟩ | ⟨d, h, t, ht, -, rfl⟩
  · exact iff_of_false (fun hq => hq.1 hroot) List.not_mem_nil
  · rw [ht.root, ht.readable.legible.walksTo_iff]
    exact and_iff_right ht.has.page_ne_none

/-- All that can be read from an index are its entries. -/
theorem Occupies.lists (hx : x.Occupies gs l E) (hroom : Room gs 1) : x.tree.Lists x.pool E := by
  rcases hx.shape with ⟨hroot, rfl, -⟩ | ⟨d, h, t, ht, rfl, -⟩
  · exact Tree.lists_of_empty hroot
  · exact ht.readable.lists hx.sound ht.unwritten hroom

theorem Occupies.verify_eq_ok (hx : x.Occupies gs l E) (hroom : Room gs 1) :
    ∃ pool, x.tree.verify x.pool = .ok E.length pool := by
  rcases hx.shape with ⟨hroot, rfl, -⟩ | ⟨d, h, t, ht, rfl, -⟩
  · refine ⟨x.pool, ?_⟩
    rw [Tree.verify, if_pos (Tree.isEmpty_iff.2 hroot)]
    rfl
  · obtain ⟨pool, hrun, -⟩ := ht.verify_eq_ok hroom
    exact ⟨pool, hrun⟩

/-- **A change that returned.** A tree that was destroyed takes up no pages. -/
theorem Occupies.of_edit (hx : x.Occupies gs old E) (hown : x.RecordsApart old) {edit : TreeEdit}
    (hrun : edit.run x = .ok () y) :
    ∃ new E', x.Leaves Roots.KeepsTo gs old y new E' ∧ (edit = .destroy → new = []) := by
  cases edit with
  | insert key row =>
    obtain ⟨added, y', hinsert, hret⟩ := Action.bind_eq_ok_iff.1 hrun
    cases hret
    obtain ⟨new, E', hleaves, -⟩ := hx.of_insert hown hinsert
    exact ⟨new, E', hleaves.mono fun _ _ _ => Roots.Signs.keepsTo, nofun⟩
  | remove key =>
    obtain ⟨found, y', hremove, hret⟩ := Action.bind_eq_ok_iff.1 hrun
    cases hret
    obtain ⟨new, E', hleaves⟩ := hx.of_remove hown hremove
    exact ⟨new, E', hleaves.mono fun _ _ _ => Roots.Signs.keepsTo, nofun⟩
  | destroy =>
    exact ⟨[], [], (hx.of_destroy hown hrun).mono fun _ _ _ => Roots.Strikes.keepsTo, fun _ => rfl⟩

end Index

/-! ## All trees -/

namespace Forest

variable {f f' : Forest k n m} {others : PageId → Prop} {L : Fin k → List PageId}
  {S : Fin k → List (Key × RowId)}

/-- The trees take up these pages and have these entries. Roots pages are among the others. -/
structure Holds (f : Forest k n m) (gs : List (Guard n)) (others : PageId → Prop)
    (L : Fin k → List PageId) (S : Fin k → List (Key × RowId)) : Prop where
  sound : f.pool.Sound gs
  occupies : ∀ i, (f.index i).Occupies gs (L i) (S i)
  apart : ∀ i j q, q ∈ L i → q ∈ L j → i = j
  outside : ∀ i q, q ∈ L i → ¬others q
  allocated : ∀ q, f.pool.pages q ≠ none ↔ others q ∨ ∃ i, q ∈ L i
  records : ∀ i r, (f.trees i).registration = some r → others r.page ∧
    ∀ b, f.pool.pages r.page = some b → Roots.Distinct b

namespace Holds

theorem owns_iff (hf : f.Holds gs others L S) {i : Fin k} : f.Owns i q ↔ q ∈ L i :=
  (hf.occupies i).walksTo_iff

theorem divides (hf : f.Holds gs others L S) (hroom : Room gs 1) : f.Divides others where
  apart i j q hi hj := hf.apart i j q (hf.owns_iff.1 hi) (hf.owns_iff.1 hj)
  outside i q hi := hf.outside i q (hf.owns_iff.1 hi)
  allocated q := by
    rw [← pages_ne_none_iff, hf.allocated]
    simp only [hf.owns_iff]
  empty i pool hrun q hq := by
    obtain ⟨pool', hentries⟩ := ((hf.occupies i).lists hroom).entries
    have hnil : S i = [] := (EStateM.Result.ok.inj (hrun.symm.trans hentries)).1.symm
    have hoccupies := hf.occupies i
    rw [hnil] at hoccupies
    have hq' := hf.owns_iff.1 hq
    rw [hoccupies.eq_nil] at hq'
    cases hq'

/-- Roots pages belong to no tree. -/
theorem recordsApart (hf : f.Holds gs others L S) (i : Fin k) :
    (f.index i).RecordsApart (L i) := fun r hr =>
  ⟨fun hin => hf.outside i r.page hin (hf.records i r hr).1,
    (hf.allocated r.page).2 (.inl (hf.records i r hr).1)⟩

/-- Pages of other trees and pages that belong to no tree are not among those of a tree. -/
theorem notMem (hf : f.Holds gs others L S) {i j : Fin k} (hj : j ≠ i) (hq : q ∈ L j) : q ∉ L i :=
  fun hin => hj (hf.apart j i q hq hin)

section Leaves

variable {i : Fin k} (hf : f.Holds gs others L S)
  (hleaves : (f.index i).Leaves Roots.KeepsTo gs (L i) y new E)

include hf hleaves

/-- The pages of another tree stay with it, with their bytes. -/
theorem stays {j : Fin k} (hj : j ≠ i) (hq : q ∈ L j) :
    q ∉ new ∧ y.pool.pages q = f.pool.pages q := by
  have hne : f.pool.pages q ≠ none := (hf.allocated q).2 (.inr ⟨j, hq⟩)
  refine ⟨hleaves.apart q (hf.notMem hj hq) hne, hleaves.others q (hf.notMem hj hq) hne ?_⟩
  intro r hr e
  exact hf.outside j q hq (e ▸ (hf.records i r hr).1)

theorem allocated_set (q : PageId) :
    y.pool.pages q ≠ none ↔ others q ∨ ∃ j, q ∈ Function.update L i new j := by
  have hself : Function.update L i new i = new := Function.update_self ..
  have hother : ∀ {j}, j ≠ i → Function.update L i new j = L j :=
    fun hj => Function.update_of_ne hj ..
  rw [hleaves.allocated]
  constructor
  · rintro (hq | ⟨hold, hq⟩)
    · exact .inr ⟨i, by rwa [hself]⟩
    · refine ((hf.allocated q).1 hq).imp_right fun ⟨j, hj⟩ => ⟨j, ?_⟩
      rwa [hother fun e => hold (e ▸ hj)]
  · rintro (hout | ⟨j, hq⟩)
    · exact .inr ⟨fun hin => hf.outside i q hin hout, (hf.allocated q).2 (.inl hout)⟩
    · by_cases hj : j = i
      · rw [hj, hself] at hq
        exact .inl hq
      · rw [hother hj] at hq
        exact .inr ⟨hf.notMem hj hq, (hf.allocated q).2 (.inr ⟨j, hq⟩)⟩

/-- A roots page still names no index twice, whether the tree has its record there or not. -/
theorem records_set {j : Fin k} {r : Registration}
    (hr : ((f.set i y).trees j).registration = some r) :
    others r.page ∧ ∀ b, y.pool.pages r.page = some b → Roots.Distinct b := by
  have hr' : (f.trees j).registration = some r := by
    by_cases hj : j = i
    · subst hj
      rw [trees_set_self] at hr
      exact hleaves.record.symm.trans hr
    · rwa [trees_set_of_ne f hj] at hr
  obtain ⟨hout, hdistinct⟩ := hf.records j r hr'
  refine ⟨hout, fun b hb => ?_⟩
  have hne : f.pool.pages r.page ≠ none := (hf.allocated _).2 (.inl hout)
  obtain ⟨b₀, hb₀⟩ := Option.ne_none_iff_exists'.1 hne
  by_cases hi : ∃ r', (f.trees i).registration = some r' ∧ r.page = r'.page
  · obtain ⟨r', hreg, hpage⟩ := hi
    rw [hpage] at hb hb₀
    obtain ⟨b', hb', hkeeps⟩ := hleaves.roots r' b₀ hreg hb₀
    obtain rfl := Option.some.inj (hb'.symm.trans hb)
    exact (hkeeps (hdistinct b₀ (hpage ▸ hb₀))).1
  · have hsame := hleaves.others r.page (fun hin => hf.outside i _ hin hout) hne
      fun r' hreg hpage => hi ⟨r', hreg, hpage⟩
    exact hdistinct b (hsame ▸ hb)

/-- **A call on one tree**, whose pages are others afterwards. -/
theorem step : (f.set i y).Holds gs others (Function.update L i new) (Function.update S i E) := by
  have hself : ∀ {j}, j = i → Function.update L i new j = new :=
    fun e => e ▸ Function.update_self ..
  have hother : ∀ {j}, j ≠ i → Function.update L i new j = L j :=
    fun hj => Function.update_of_ne hj ..
  refine ⟨hleaves.occupies.sound, fun j => ?_, fun j j' q hj hj' => ?_, fun j q hq hout => ?_,
    hf.allocated_set hleaves, fun j r => hf.records_set hleaves⟩
  · by_cases hj : j = i
    · subst hj
      rw [Function.update_self, Function.update_self, index_set_self]
      exact hleaves.occupies
    · rw [Function.update_of_ne hj, Function.update_of_ne hj, index_set_of_ne f hj]
      exact (hf.occupies j).congr hleaves.occupies.sound (fun q hq => (hf.stays hleaves hj hq).2)
        (f.trees j).registration
  · by_cases hji : j = i <;> by_cases hji' : j' = i
    · exact hji.trans hji'.symm
    · rw [hself hji] at hj
      rw [hother hji'] at hj'
      exact absurd hj (hf.stays hleaves hji' hj').1
    · rw [hother hji] at hj
      rw [hself hji'] at hj'
      exact absurd hj' (hf.stays hleaves hji hj).1
    · rw [hother hji] at hj
      rw [hother hji'] at hj'
      exact hf.apart j j' q hj hj'
  · by_cases hj : j = i
    · rw [hself hj] at hq
      exact hleaves.apart q (fun hin => hf.outside i q hin hout) ((hf.allocated q).2 (.inl hout)) hq
    · rw [hother hj] at hq
      exact hf.outside j q hq hout

end Leaves

/-- **A call on one tree** leaves the rest as it was. -/
theorem spares (hf : f.Holds gs others L S) (hroom : Room gs 1) {i : Fin k}
    (hleaves : (f.index i).Leaves Roots.KeepsTo gs (L i) y new E) :
    f.Spares (f.set i y) i := by
  have hf' := hf.step hleaves
  refine ⟨fun j hj => f.trees_set_of_ne hj y, fun q hq hown hr => ?_, fun r hr => ?_,
    fun j hj => ⟨S j, (hf.occupies j).lists hroom, ?_, (hf.occupies j).verify_eq_ok hroom, ?_⟩⟩
  · exact hleaves.others q (fun hin => hown (hf.owns_iff.2 hin)) hq hr
  · obtain ⟨hout, hdistinct⟩ := hf.records i r hr
    obtain ⟨b, hb⟩ := Option.ne_none_iff_exists'.1 ((hf.allocated r.page).2 (.inl hout))
    obtain ⟨b', hb', hkeeps⟩ := hleaves.roots r b hr hb
    exact ⟨b, b', hb, hb', (hkeeps (hdistinct b hb)).2⟩
  · have hlists := (hf'.occupies j).lists hroom
    rwa [Function.update_of_ne hj] at hlists
  · have hverify := (hf'.occupies j).verify_eq_ok hroom
    rwa [Function.update_of_ne hj] at hverify

end Holds

theorem onTree_eq_ok {act : Action (Index n m) α} {i : Fin k} {a : α}
    (hact : act (f.index i) = .ok a y) : onTree i act f = .ok a (f.set i y) := Action.focus_ok hact

theorem of_onTree {act : Action (Index n m) α} {i : Fin k} {a : α}
    (hrun : onTree i act f = .ok a f') :
    ∃ y, act (f.index i) = .ok a y ∧ f' = f.set i y := by
  cases hact : act (f.index i) with
  | ok b y =>
    rw [onTree_eq_ok hact] at hrun
    cases hrun
    exact ⟨y, rfl, rfl⟩
  | error e y =>
    have hfocus : onTree i act f = .error e (f.set i y) := Action.focus_error hact
    rw [hfocus] at hrun
    cases hrun

/-- **One call.** -/
theorem Holds.of_run (hf : f.Holds gs others L S) (hroom : Room gs 3) {call : Call k}
    (hrun : call.run f = .ok () f') :
    ∃ L' S', f'.Holds gs others L' S' ∧ f.Spares f' call.tree ∧
      (call.edit = .destroy → L' call.tree = []) := by
  obtain ⟨y, hedit, rfl⟩ := of_onTree hrun
  obtain ⟨new, E, hleaves, hdestroy⟩ :=
    (hf.occupies call.tree).of_edit (hf.recordsApart call.tree) hedit
  refine ⟨_, _, hf.step hleaves, hf.spares (hroom.mono (by omega)) hleaves, fun hd => ?_⟩
  rw [Function.update_self]
  exact hdestroy hd

/-- **A run of calls.** -/
theorem Holds.of_runs (hf : f.Holds gs others L S) (hroom : Room gs 3) (calls : List (Call k))
    (hrun : calls.forM Call.run f = .ok () f') : ∃ L' S', f'.Holds gs others L' S' := by
  induction calls generalizing f L S with
  | nil =>
    cases hrun
    exact ⟨L, S, hf⟩
  | cons call calls ih =>
    obtain ⟨⟨⟩, f₁, hcall, hrun⟩ := Action.bind_eq_ok_iff.1 hrun
    obtain ⟨L', S', hf', -⟩ := hf.of_run hroom hcall
    exact ih hf' hrun

end Forest

/-! ## Setting trees up -/

/-- What setting trees up does to a pool: the same pages are allocated, and roots pages record no
index twice if they did not before. -/
structure Prepares (gs : List (Guard n)) (pool pool' : Pool n m) : Prop where
  sound : pool'.Sound gs
  allocated : ∀ q, pool'.pages q ≠ none ↔ pool.pages q ≠ none
  distinct : ∀ q, (∀ b, pool.pages q = some b → Roots.Distinct b) →
    ∀ b, pool'.pages q = some b → Roots.Distinct b

namespace Prepares

theorem of_pages (hs : pool'.Sound gs) (hpages : pool'.pages = pool.pages) :
    Prepares gs pool pool' :=
  ⟨hs, fun q => by rw [hpages], fun q hq => by rwa [hpages]⟩

theorem trans {pool₁ : Pool n m} (h : Prepares gs pool pool₁) (h' : Prepares gs pool₁ pool') :
    Prepares gs pool pool' :=
  ⟨h'.sound, fun q => (h'.allocated q).trans (h.allocated q),
    fun q hq => h'.distinct q (h.distinct q hq)⟩

theorem of_signs {record : Option Registration} {before after : PageId} (hs : pool.Sound gs)
    (hn : Notes (Roots.Signs before after) record pool pool') : Prepares gs pool pool' := by
  obtain ⟨hs', hothers, hallocated, hroots⟩ := hn.pages hs
  refine ⟨hs', hallocated, fun q hq b hb => ?_⟩
  by_cases hr : ∃ r, record = some r ∧ q = r.page
  · obtain ⟨r, hr, rfl⟩ := hr
    obtain ⟨b₀, hb₀⟩ := Option.ne_none_iff_exists'.1 ((hallocated r.page).1 (hb ▸ nofun))
    obtain ⟨b', hb', hsigns⟩ := hroots r b₀ hr hb₀
    obtain rfl := Option.some.inj (hb'.symm.trans hb)
    exact (hsigns.keepsTo (hq b₀ hb₀)).1
  · have hsame := hothers q fun r hrec hpage => hr ⟨r, hrec, hpage⟩
    exact hq b (hsame ▸ hb)

end Prepares

/-- A tree without a root that gets a place for it is as it was otherwise. -/
theorem Tree.of_register (hs : pool.Sound gs) {r : Registration} {tree' : Tree}
    (hrun : tree.register r.page r.index pool = .ok tree' pool') (hroot : tree'.root = .none) :
    Prepares gs pool pool' ∧ tree' = { tree with root := tree'.root, registration := some r } ∧
      pool.pages r.page ≠ none := by
  rw [Tree.register] at hrun
  obtain ⟨recorded, pool₁, hview, hrun⟩ := Action.bind_eq_ok_iff.1 hrun
  obtain ⟨page, hpage, -, hs₁, hpages₁⟩ := hs.of_view hview
  have hallocated : pool.pages r.page ≠ none := by
    rw [hpage]
    exact Option.some_ne_none page
  cases recorded with
  | none =>
    obtain ⟨⟨⟩, pool₂, hpersist, hret⟩ := Action.bind_eq_ok_iff.1 hrun
    cases hret
    have hnotes := Tree.notes_of_persistRoot .none hpersist
    exact ⟨(Prepares.of_pages hs₁ hpages₁).trans (.of_signs hs₁ hnotes), rfl, hallocated⟩
  | some root =>
    obtain ⟨⟨⟩, pool₂, hcheck, hret⟩ := Action.bind_eq_ok_iff.1 hrun
    cases hret
    -- a root that is recorded is taken over, and there is none
    have hempty : root = .none := hroot
    subst hempty
    cases hcheck
    exact ⟨.of_pages hs₁ hpages₁, rfl, hallocated⟩

/-- **A tree that was set up**, if it has no root, is the one that was created, with its record. -/
theorem Planting.created {plan : Planting} (hs : pool.Sound gs)
    (hrun : plan.run pool = .ok tree pool') (hroot : tree.root = .none) :
    ∃ t, Tree.create plan.order plan.keySize plan.limits = .ok t ∧
      tree = { t with registration := plan.record } ∧ Prepares gs pool pool' ∧
      ∀ r, plan.record = some r → pool.pages r.page ≠ none := by
  rw [Planting.run] at hrun
  cases hcreate : Tree.create plan.order plan.keySize plan.limits with
  | error e =>
    rw [Action.bind_of_error (Action.check_error hcreate pool)] at hrun
    cases hrun
  | ok t =>
    rw [Action.bind_of_ok (Action.check_ok hcreate pool)] at hrun
    obtain ⟨-, hempty, -, -, hnone⟩ := Tree.accepted_of_create hcreate
    refine ⟨t, rfl, ?_⟩
    cases hrecord : plan.record with
    | none =>
      rw [hrecord] at hrun
      cases hrun
      exact ⟨by rw [← hnone], .of_pages hs rfl, nofun⟩
    | some r =>
      rw [hrecord] at hrun
      obtain ⟨hprepared, htree, hallocated⟩ := Tree.of_register hs hrun hroot
      rw [hroot, ← hempty] at htree
      refine ⟨htree, hprepared, ?_⟩
      rintro _ ⟨⟩
      exact hallocated

/-- So it can be used, as it was planned. -/
theorem Planting.of_run {plan : Planting} (hs : pool.Sound gs)
    (hrun : plan.run pool = .ok tree pool') (hroot : tree.root = .none) :
    Prepares gs pool pool' ∧ tree.Accepted ∧ tree.registration = plan.record ∧
      (∀ r, plan.record = some r → pool.pages r.page ≠ none) ∧
      tree.order = plan.order ∧ tree.keySize = plan.keySize := by
  obtain ⟨t, hcreate, rfl, hprepared, hallocated⟩ := Planting.created hs hrun hroot
  obtain ⟨haccepted, -, horder, hwidth, -⟩ := Tree.accepted_of_create hcreate
  exact ⟨hprepared, haccepted.handle _ _, rfl, hallocated, horder, hwidth⟩

/-- A tree without keys can be set up without a record. -/
theorem Planting.run_unrecorded (plan : Planting)
    (hcreate : Tree.create plan.order plan.keySize plan.limits = .ok tree)
    (hrecord : plan.record = none) (pool : Pool n m) : plan.run pool = .ok tree pool := by
  rw [Planting.run, Action.bind_of_ok (Action.check_ok hcreate pool), hrecord]
  rfl

/-- It can be with a record in a roots page that has room for one. -/
theorem Planting.run_eq_ok (plan : Planting) {r : Registration} {b : Page} (hs : pool.Sound gs)
    (hroom : Room gs 1) (hcreate : Tree.create plan.order plan.keySize plan.limits = .ok tree)
    (hrecord : plan.record = some r) (hfree : ∀ g ∈ gs, g.page ≠ r.page)
    (hb : pool.pages r.page = some b) (hnew : Roots.get? b r.index = none)
    (hcount : Roots.count b < maxIndexRoots) :
    ∃ pool', plan.run pool = .ok { tree with registration := some r } pool' ∧ pool'.Sound gs ∧
      ∃ b', Roots.set b r.index tree.root = some b' ∧
        pool'.pages = Function.update pool.pages r.page (some b') := by
  let look : Page → Except Halt (Option PageId) := fun bytes => .ok (Roots.get? bytes r.index)
  have hlook : look b = .ok none := congrArg Except.ok hnew
  obtain ⟨pool₁, hview, hs₁, hpages₁⟩ := hs.view_eq_ok hb hlook hfree hroom
  have hplace : ∀ r', ({ tree with registration := some r } : Tree).registration = some r' →
      (∀ g ∈ gs, g.page ≠ r'.page) ∧ ∃ b, pool₁.pages r'.page = some b ∧
        (Roots.count b < maxIndexRoots ∨ Roots.get? b r'.index ≠ none) := by
    rintro _ ⟨⟩
    exact ⟨hfree, b, hpages₁ ▸ hb, .inl hcount⟩
  obtain ⟨pool', hpersist, hs', hrecorded⟩ := Tree.persistRoot_eq_ok hs₁ hroom hplace
  obtain ⟨b', hset, hpages'⟩ := hrecorded r b rfl (hpages₁ ▸ hb)
  refine ⟨pool', ?_, hs', b', hset, hpages₁ ▸ hpages'⟩
  rw [Planting.run, Action.bind_of_ok (Action.check_ok hcreate pool), hrecord]
  dsimp only
  rw [Tree.register, Action.bind_of_ok hview]
  exact (Action.bind_of_ok hpersist).trans rfl

/-- **All trees** that were set up. -/
theorem Planting.of_runs {plans : List Planting} {trees : List Tree} (hs : pool.Sound gs)
    (hrun : plans.mapM Planting.run pool = .ok trees pool') (hroots : ∀ t ∈ trees, t.root = .none) :
    Prepares gs pool pool' ∧ ∀ t ∈ trees, t.Accepted ∧ ∀ r, t.registration = some r →
      pool.pages r.page ≠ none ∧ ∃ plan ∈ plans, plan.record = some r := by
  induction plans generalizing pool trees with
  | nil =>
    cases hrun
    exact ⟨.of_pages hs rfl, nofun⟩
  | cons plan plans ih =>
    rw [List.mapM_cons] at hrun
    obtain ⟨tree, pool₁, hplan, hrun⟩ := Action.bind_eq_ok_iff.1 hrun
    obtain ⟨rest, pool₂, hrest, hret⟩ := Action.bind_eq_ok_iff.1 hrun
    cases hret
    obtain ⟨hroot, hroots⟩ := List.forall_mem_cons.1 hroots
    obtain ⟨hfirst, haccepted, hrecord, hpage, -⟩ := Planting.of_run hs hplan hroot
    obtain ⟨hothers, htrees⟩ := ih hfirst.sound hrest hroots
    refine ⟨hfirst.trans hothers,
      List.forall_mem_cons.2 ⟨⟨haccepted, fun r hr => ?_⟩, fun t ht => ?_⟩⟩
    · rw [hrecord] at hr
      exact ⟨hpage r hr, plan, List.mem_cons_self, hr⟩
    · obtain ⟨hacc, hrec⟩ := htrees t ht
      refine ⟨hacc, fun r hr => ?_⟩
      obtain ⟨hne, p, hp, hpr⟩ := hrec r hr
      exact ⟨(hfirst.allocated _).1 hne, p, .tail _ hp, hpr⟩

/-- **Trees that share a pool divide its pages.** On a new file, after any use of the pool, whatever
settings the pool and the space are opened with: trees are set up without keys, some of them with a
record in a roots page, which names no index twice. As long as three frames are free of guards, the
trees divide the pages that were not allocated before, after every run of calls that all return, and
each call spares what does not belong to its tree. A tree that is destroyed has no pages. -/
theorem Forest.always_divides {config : PoolConfig} {disk : SpaceConfig}
    (hconfig : config.validate = .ok ()) (hdisk : disk.validate = .ok ()) {v : Volume}
    (hv : v.openFile = .ok {}) (uses : List PoolCall) (plans : List Planting) :
    ∃ o, OpenPool.start config disk v = .ok o ∧ (Room (o.after uses).guards 3 →
      (∀ plan ∈ plans, ∀ r, plan.record = some r →
        ∀ b, (o.after uses).pool.pages r.page = some b → Roots.Distinct b) →
      ∀ trees pool, plans.mapM Planting.run (o.after uses).pool = .ok trees pool →
        (∀ t ∈ trees, t.root = .none) →
      ∀ (calls : List (Forest.Call trees.length)) (f : Forest trees.length _ _),
        calls.forM Forest.Call.run ⟨trees.get, pool⟩ = .ok () f →
        f.Divides (fun q => q.val.toNat ∈ (o.after uses).pool.members) ∧
        ∀ call f', Forest.Call.run call f = .ok () f' → f.Spares f' call.tree ∧
          (call.edit = .destroy → ∀ q, ¬f'.Owns call.tree q)) := by
  obtain ⟨o, hstart, -, h⟩ := OpenPool.start_fresh hconfig hdisk hv
  refine ⟨o, hstart, fun hroom hdistinct trees pool hplans hroots calls f hcalls => ?_⟩
  have hone : Room (o.after uses).guards 1 := hroom.mono (by omega)
  have hs := OpenPool.sound_after h uses
  obtain ⟨hprepared, htrees⟩ := Planting.of_runs hs hplans hroots
  have hstart : Forest.Holds ⟨trees.get, pool⟩ (o.after uses).guards
      (fun q => q.val.toNat ∈ (o.after uses).pool.members) (fun _ => []) (fun _ => []) := by
    refine ⟨hprepared.sound, fun i => ?_, nofun, nofun, fun q => ?_, fun i r hr => ?_⟩
    · have hi := trees.get_mem i
      exact ⟨hprepared.sound, (htrees _ hi).1, .inl ⟨hroots _ hi, rfl, rfl⟩⟩
    · rw [hprepared.allocated, pages_ne_none_iff]
      exact ⟨.inl, fun hq => hq.resolve_right nofun⟩
    · obtain ⟨hne, plan, hplan, hrecord⟩ := (htrees _ (trees.get_mem i)).2 r hr
      exact ⟨pages_ne_none_iff.1 hne, hprepared.distinct r.page (hdistinct plan hplan r hrecord)⟩
  obtain ⟨L, S, hf⟩ := hstart.of_runs hroom calls hcalls
  refine ⟨hf.divides hone, fun call f' hrun => ?_⟩
  obtain ⟨L', S', hf', hspares, hdestroy⟩ := hf.of_run hroom hrun
  refine ⟨hspares, fun hd q hq => ?_⟩
  have hq' := hf'.owns_iff.1 hq
  rw [hdestroy hd] at hq'
  cases hq'

/-- A pool with three frames, a page of which takes the record of one of two trees, which gets a
key. -/
theorem Forest.always_divides_two :
    ∃ o used p t t' pool, ∃ f : Forest [t, t'].length _ _,
      OpenPool.start ⟨3, .lru⟩ ⟨1⟩ .missing = .ok o ∧ o.after [.newPage, .drop 0] = used ∧
      [⟨.bytewise, 1, ⟨some 2, some 3⟩, some ⟨p, 5⟩⟩, ⟨.bytewise, 1, ⟨some 4, some 5⟩, none⟩].mapM
        Planting.run used.pool = .ok [t, t'] pool ∧
      Forest.Call.run ⟨⟨0, Nat.succ_pos _⟩, .insert [7] ⟨⟨5⟩, 1⟩⟩ ⟨[t, t'].get, pool⟩ = .ok () f ∧
      f.Divides (fun q => q.val.toNat ∈ used.pool.members) ∧
      Forest.Spares ⟨[t, t'].get, pool⟩ f ⟨0, Nat.succ_pos _⟩ := by
  obtain ⟨o, hstart, hframes, -⟩ := @OpenPool.start_fresh ⟨3, .lru⟩ ⟨1⟩ rfl rfl .missing rfl
  have hroom : Room ([] : List (Guard o.frames)) 3 := hframes.ge
  have hone : Room ([] : List (Guard o.frames)) 1 := hroom.mono (by omega)
  have hfree : ∀ q, ∀ g ∈ ([] : List (Guard o.frames)), g.page ≠ q := fun q => List.forall_mem_nil _
  -- the roots page
  obtain ⟨p, pool₁, hafter, hs₁, hpages₁⟩ :=
    OpenPool.first_page rfl rfl rfl hstart (Nat.le_add_left 1 2)
  have hzero : pool₁.pages p = some (Block.zero pageSize) := by
    rw [hpages₁, Function.update_self]
  -- the trees
  obtain ⟨t, ht⟩ : ∃ t, Tree.create .bytewise 1 ⟨some 2, some 3⟩ = .ok t := ⟨_, rfl⟩
  obtain ⟨t', ht'⟩ : ∃ t, Tree.create .bytewise 1 ⟨some 4, some 5⟩ = .ok t := ⟨_, rfl⟩
  obtain ⟨haccepted, hroot, -, hwidth, -⟩ := Tree.accepted_of_create ht
  obtain ⟨pool₃, hplant, hs₃, b, hset, hpages₃⟩ := Planting.run_eq_ok
    ⟨.bytewise, 1, ⟨some 2, some 3⟩, some ⟨p, 5⟩⟩ hs₁ hone ht rfl (hfree _) hzero
    (Roots.get?_zero 5) (by rw [Roots.count_zero]; decide)
  have hplans : [⟨.bytewise, 1, ⟨some 2, some 3⟩, some ⟨p, 5⟩⟩,
      ⟨.bytewise, 1, ⟨some 4, some 5⟩, none⟩].mapM Planting.run pool₁ =
        .ok [{ t with registration := some ⟨p, 5⟩ }, t'] pool₃ := by
    have hsecond := Planting.run_unrecorded ⟨.bytewise, 1, ⟨some 4, some 5⟩, none⟩ ht' rfl pool₃
    have hrest : [⟨.bytewise, 1, ⟨some 4, some 5⟩, none⟩].mapM Planting.run pool₃ =
        .ok [t'] pool₃ := by
      rw [List.mapM_cons, Action.bind_of_ok hsecond]
      rfl
    rw [List.mapM_cons, Action.bind_of_ok hplant]
    exact (Action.bind_of_ok hrest).trans rfl
  -- the insertion
  have hrecorded : Roots.get? b 5 = some t.root := (Roots.distinct_zero.get?_set hset).2 5
  have hpage : pool₃.pages p = some b := by rw [hpages₃, Function.update_self]
  have hdisk : pool₃.members ≠ Finset.range maxLogicalPages := by
    refine members_ne_range_of_length (l := [p]) hs₃.space (Nat.one_lt_two.trans (by decide))
      fun q hq => List.mem_singleton.2 ?_
    rw [hpages₃, hpages₁, Function.update_idem] at hq
    by_contra hne
    exact hq (Function.update_of_ne hne ..)
  have hplanted : Tree.Accepted { t with registration := some ⟨p, 5⟩ } :=
    ⟨haccepted.width, haccepted.least, haccepted.most⟩
  have hkey : ([7] : Key).length = t.keySize := hwidth.symm
  have hplace : ∀ r, some (⟨p, 5⟩ : Registration) = some r →
      (∀ k ∈ ([] : List (Guard o.frames)), k.page ≠ r.page) ∧
      ∃ b, pool₃.pages r.page = some b ∧ Roots.get? b r.index ≠ none := by
    rintro _ ⟨⟩
    refine ⟨hfree _, b, hpage, ?_⟩
    rw [hrecorded]
    exact Option.some_ne_none _
  obtain ⟨y, hinsert⟩ := Index.insert_first hplanted hroot hs₃ hone hdisk hkey ⟨⟨5⟩, 1⟩ hplace
  let trees : List Tree := [{ t with registration := some ⟨p, 5⟩ }, t']
  let f₀ : Forest trees.length o.frames o.slots := ⟨trees.get, pool₃⟩
  let call : Forest.Call trees.length := ⟨⟨0, Nat.succ_pos _⟩, .insert [7] ⟨⟨5⟩, 1⟩⟩
  have hcall : call.run f₀ = .ok () (f₀.set ⟨0, Nat.succ_pos _⟩ y) := by
    have hedit : call.edit.run (f₀.index ⟨0, Nat.succ_pos _⟩) = .ok () y :=
      (Action.bind_of_ok hinsert).trans rfl
    exact Forest.onTree_eq_ok hedit
  have hroots : ∀ u ∈ trees, u.root = .none :=
    List.forall_mem_cons.2 ⟨hroot, List.forall_mem_singleton.2 (Tree.accepted_of_create ht').2.1⟩
  obtain ⟨o', hstart', h⟩ := @Forest.always_divides ⟨3, .lru⟩ ⟨1⟩ rfl rfl .missing rfl
    [.newPage, .drop 0] [⟨.bytewise, 1, ⟨some 2, some 3⟩, some ⟨p, 5⟩⟩,
      ⟨.bytewise, 1, ⟨some 4, some 5⟩, none⟩]
  obtain rfl : o = o' := Except.ok.inj (hstart.symm.trans hstart')
  rw [hafter] at h
  have hdistinct : ∀ b, pool₁.pages p = some b → Roots.Distinct b := fun b hb => by
    obtain rfl := Option.some.inj (hzero.symm.trans hb)
    exact Roots.distinct_zero
  have hall := h hroom (by
    intro plan hplan r hr
    rcases List.mem_cons.1 hplan with rfl | hplan
    · cases hr
      exact hdistinct
    · rw [List.mem_singleton.1 hplan] at hr
      cases hr) trees pool₃ hplans hroots
  have hrun : [call].forM Forest.Call.run f₀ = .ok () (f₀.set ⟨0, Nat.succ_pos _⟩ y) :=
    (Action.bind_of_ok hcall).trans rfl
  exact ⟨o, ⟨_, _, pool₁, _⟩, p, _, t', pool₃, _, hstart, hafter, hplans, hcall,
    (hall [call] _ hrun).1, ((hall [] f₀ rfl).2 call _ hcall).1⟩

end PageStore
