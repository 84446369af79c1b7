import PageStore.Proofs.Tree.Verified

/-!
# Verifying always ends

A survey follows child pointers that may be any bytes, so the pages that it goes through may well
lie in a circle. It ends all the same: `Tree.Trail.refuses_again` is that a page which is on the way
down from the root is refused when the way leads to it again, because its header names the parent
that it was reached from first. So a way down has no page twice, and a survey goes at most one call
deeper than there are allocated pages: `Tree.verify_always_ends`.

Bytes outside a page are never asked for, because the width of the keys is checked before they are
read: `OnlyRefuses` is what remains.
-/

namespace PageStore

open Pool

variable {n m : Nat} {pool pool' : Pool n m} {gs : List (Guard n)} {tree : Tree} {p : PageId}
  {P : PageMap}

/-! ## Checks -/

/-- The computation returns a value or refuses, and stops in no other way. -/
def OnlyRefuses {α : Type} (x : Except Halt α) : Prop :=
  ∀ e, x = .error e → ∃ cause, e = .refused cause

namespace OnlyRefuses

variable {α β : Type}

theorem of_eq_ok {x : Except Halt α} {a : α} (h : x = .ok a) : OnlyRefuses x := by
  rintro e he
  rw [h] at he
  cases he

theorem ok (a : α) : OnlyRefuses (.ok a) := of_eq_ok rfl

theorem refusal (cause : StoreError) : OnlyRefuses (refuse cause : Except Halt α) := by
  rintro e ⟨⟩
  exact ⟨cause, rfl⟩

/-- **Sequencing.** The second computation may rely on the first one. -/
theorem bind {x : Except Halt α} {f : α → Except Halt β} (hx : OnlyRefuses x)
    (hf : ∀ a, x = .ok a → OnlyRefuses (f a)) : OnlyRefuses (x >>= f) := by
  cases h : x with
  | ok a => exact hf a h
  | error e =>
    obtain ⟨cause, rfl⟩ := hx e h
    exact refusal cause

theorem check {holds : Bool} {rule : TreeRule} : OnlyRefuses (ensure holds p rule) := by
  cases holds
  · exact refusal _
  · exact ok ()

theorem checkKeys {o : KeyOrder} {lower upper previous : Option Key} {keys : List Key} :
    OnlyRefuses (checkKeys o p lower upper previous keys) := by
  induction keys generalizing previous with
  | nil => exact ok ()
  | cons key keys ih =>
    exact check.bind fun _ _ => check.bind fun _ _ => check.bind fun _ _ => ih

theorem checkChain {links : List (PageId × PageId)} : OnlyRefuses (checkChain links) := by
  induction links with
  | nil => exact ok ()
  | cons link links ih =>
    cases links with
    | nil => exact check
    | cons link' links => exact check.bind fun _ _ => ih

theorem addLeaf {s : Survey} {v : Visit} {entries : Nat} {next : PageId} :
    OnlyRefuses (s.addLeaf v entries next) := check.bind fun _ _ => ok _

theorem kind (page : Page) : OnlyRefuses (NodeHeader.kind page) := by
  have hzero : page[0]? = some page[0] := by simp
  have hid : page.readWord 20 = some (page.word 20) := Block.readWord_eq_some _ (by decide)
  rw [NodeHeader.kind, hzero, demand_some, ok_bind]
  split
  · exact ok _
  · rw [hid, demand_some, ok_bind]
    exact refusal _

theorem ofBlock (k : NodeKind) (page : Page) : OnlyRefuses (Node.ofBlock k page) := by
  have hpage : page.toPage? = some page := dif_pos rfl
  rw [Node.ofBlock, hpage]
  refine (kind page).bind fun found _ => ?_
  dsimp only
  split
  · exact (refusal _).bind fun _ h => by cases h
  · split
    · exact (refusal _).bind fun _ h => by cases h
    · exact ok _

variable {v : Visit} {page : Page}

/-- A leaf that is looked at has all the bytes that its header promises, once its keys are known to
have the width of the tree's keys. -/
theorem examineLeaf (hcap : 0 < NodeKind.leaf.capacity tree.keySize) :
    OnlyRefuses (tree.examineLeaf v page) := by
  refine (ofBlock _ _).bind fun leaf hblock => check.bind fun _ _ => check.bind fun _ _ =>
    check.bind fun _ hwidth => check.bind fun _ _ => check.bind fun _ _ => ?_
  have hwidth : leaf.keySize = tree.keySize := of_decide_eq_true (ensure_eq_ok_iff.1 hwidth)
  obtain ⟨recs, hholds⟩ := Node.exists_holds hblock (hwidth ▸ hcap)
  exact (of_eq_ok hholds.keys_eq_ok).bind fun _ _ => checkKeys.bind fun _ _ => ok _

/-- So has an internal node. -/
theorem examineInternal (hcap : 0 < NodeKind.internal.capacity tree.keySize) :
    OnlyRefuses (tree.examineInternal v page) := by
  refine (ofBlock _ _).bind fun node hblock => check.bind fun _ _ => check.bind fun _ _ =>
    check.bind fun _ hwidth => check.bind fun _ _ => check.bind fun _ _ => ?_
  have hwidth : node.keySize = tree.keySize := of_decide_eq_true (ensure_eq_ok_iff.1 hwidth)
  obtain ⟨recs, hholds⟩ := Node.exists_holds hblock (hwidth ▸ hcap)
  exact (of_eq_ok (Internal.entries_eq_ok hholds)).bind fun _ _ => checkKeys.bind fun _ _ => ok _

theorem examine (ha : tree.Accepted) : OnlyRefuses (tree.examine v page) := by
  refine (kind page).bind fun k _ => ?_
  cases k with
  | leaf => exact examineLeaf (ha.capacity_pos 0)
  | internal => exact examineInternal (ha.capacity_pos 1)

end OnlyRefuses

/-! ## Ways down -/

namespace Tree

/-- The visit that a survey begins with. -/
def firstVisit (t : Tree) : Visit := ⟨t.root, PageId.none, none, none, 1⟩

/-- A way down from the root, the last visit first: every visit but the last one found an internal
node, and the next one goes to a child of that node. -/
inductive Trail (t : Tree) (P : PageMap) : List Visit → Prop
  | root : Trail t P [t.firstVisit]
  | child {v : Visit} {above : List Visit} {page : Page} {records : List (Key × PageId)}
      {c : PageId} {lower upper : Option Key} (htrail : Trail t P (v :: above))
      (hpage : P v.page = some page) (hlook : t.examine v page = .ok (.internal records))
      (hc : (c, lower, upper) ∈ childSpans v.lower v.upper records) :
      Trail t P (⟨c, v.page, lower, upper, v.depth + 1⟩ :: v :: above)

namespace Trail

variable {v u : Visit} {above : List Visit} {page : Page} {records : List (Key × PageId)}

/-- The parent of a visit is the page above it, and the root has none. -/
theorem parent_cases (h : tree.Trail P (v :: above)) :
    (above = [] ∧ v.parent = .none) ∨ ∃ w rest, above = w :: rest ∧ v.parent = w.page := by
  cases h with
  | root => exact .inl ⟨rfl, rfl⟩
  | child => exact .inr ⟨_, _, rfl, rfl⟩

/-- Every page above was found to be an internal node. -/
theorem examined (h : tree.Trail P (v :: above)) (hu : u ∈ above) :
    ∃ page records, P u.page = some page ∧ tree.examine u page = .ok (.internal records) := by
  generalize htrail : v :: above = trail at h
  induction h generalizing v above with
  | root =>
    cases htrail
    cases hu
  | child h hpage hlook _ ih =>
    cases htrail
    rcases List.mem_cons.1 hu with rfl | hu
    · exact ⟨_, _, hpage, hlook⟩
    · exact ih hu rfl

/-- A page above that has a parent has it among the pages above it. -/
theorem parent_mem (h : tree.Trail P (v :: above)) (hu : u ∈ above) :
    u.parent = .none ∨ u.parent ∈ above.tail.map Visit.page := by
  generalize htrail : v :: above = trail at h
  induction h generalizing v above with
  | root =>
    cases htrail
    cases hu
  | child h _ _ _ ih =>
    cases htrail
    rcases List.mem_cons.1 hu with rfl | hu
    · rcases h.parent_cases with ⟨-, hnone⟩ | ⟨w, rest, rfl, hw⟩
      · exact .inl hnone
      · exact .inr (hw ▸ List.mem_cons_self)
    · refine (ih hu rfl).imp_right fun hmem => ?_
      exact List.map_subset _ (List.tail_subset _) hmem

end Trail

/-- What is known of the parent that a node states once the node was looked at. -/
theorem examine_again {v u : Visit} {page : Page} {f : Finding} (hu : tree.examine u page = .ok f)
    (hpage : v.page = u.page) (hparent : v.parent ≠ u.parent) :
    tree.examine v page = .error (.refused (.tree (.broken v.page .parent))) := by
  obtain ⟨k, hkind, hu⟩ := bind_eq_ok_iff.1 hu
  rw [examine, hkind, ok_bind]
  cases k with
  | leaf =>
    simp only [examineLeaf, bind_eq_ok_iff, ensure_eq_ok_iff, decide_eq_true_eq] at hu
    obtain ⟨leaf, hblock, -, hid, -, hsame, -⟩ := hu
    simp only [examineLeaf, hblock, ok_bind, hid, hsame, hpage, ensure, decide_true, if_true,
      Ne.symm hparent, decide_false, Bool.false_eq_true, if_false]
    rfl
  | internal =>
    simp only [examineInternal, bind_eq_ok_iff, ensure_eq_ok_iff, decide_eq_true_eq] at hu
    obtain ⟨node, hblock, -, hid, -, hsame, -⟩ := hu
    simp only [examineInternal, hblock, ok_bind, hid, hsame, hpage, ensure, decide_true, if_true,
      Ne.symm hparent, decide_false, Bool.false_eq_true, if_false]
    rfl

namespace Trail

variable {v : Visit} {above : List Visit} {page : Page}

/-- A page that is met again is refused, as long as no page above was met twice. -/
theorem refuses_of_nodup (h : tree.Trail P (v :: above)) (hnone : P .none = none)
    (hnodup : (above.map Visit.page).Nodup) (hmem : v.page ∈ above.map Visit.page)
    (hpage : P v.page = some page) :
    tree.examine v page = .error (.refused (.tree (.broken v.page .parent))) := by
  obtain ⟨u, hu, hup⟩ := List.mem_map.1 hmem
  obtain ⟨page', records, hpage', hlook⟩ := h.examined hu
  obtain rfl : page' = page := Option.some.inj (hpage'.symm.trans (hup ▸ hpage))
  refine examine_again hlook hup.symm ?_
  rcases h.parent_cases with ⟨rfl, -⟩ | ⟨w, rest, rfl, hw⟩
  · cases hu
  · rw [hw]
    rcases h.parent_mem hu with hroot | habove
    · -- the page that led here is a page, and the root has no parent
      obtain ⟨page, -, hwpage, -⟩ := h.examined List.mem_cons_self
      rintro he
      rw [he, hroot, hnone] at hwpage
      cases hwpage
    · -- the parent of the first visit lies further up than the page that led here
      rintro he
      rw [← he] at habove
      exact (List.nodup_cons.1 hnodup).1 habove

/-- **No way down has a page twice** above its last visit. -/
theorem nodup (h : tree.Trail P (v :: above)) (hnone : P .none = none) :
    (above.map Visit.page).Nodup := by
  generalize htrail : v :: above = trail at h
  induction h generalizing v above with
  | root =>
    cases htrail
    exact List.nodup_nil
  | child h hpage hlook _ ih =>
    cases htrail
    have hrest := ih rfl
    refine List.nodup_cons.2 ⟨fun hmem => ?_, hrest⟩
    rw [h.refuses_of_nodup hnone hrest hmem hpage] at hlook
    cases hlook

/-- **A page that the way down has met is refused** when the way leads to it again. -/
theorem refuses_again (h : tree.Trail P (v :: above)) (hnone : P .none = none)
    (hmem : v.page ∈ above.map Visit.page) : ∃ page, P v.page = some page ∧
      tree.examine v page = .error (.refused (.tree (.broken v.page .parent))) := by
  obtain ⟨u, hu, hup⟩ := List.mem_map.1 hmem
  obtain ⟨page, -, hpage, -⟩ := h.examined hu
  rw [hup] at hpage
  exact ⟨page, hpage, h.refuses_of_nodup hnone (h.nodup hnone) hmem hpage⟩

/-- **A way down is no longer than there are allocated pages**, its last visit not counted. -/
theorem length_le (h : tree.Trail pool.pages (v :: above)) (hs : pool.Sound gs) :
    above.length ≤ pool.members.card := by
  have hcard : (above.map Visit.page).length ≤ pool.members.card := by
    refine Pool.length_le_card (h.nodup hs.pages_none) fun p hp => ?_
    obtain ⟨u, hu, rfl⟩ := List.mem_map.1 hp
    obtain ⟨page, -, hpage, -⟩ := h.examined hu
    exact hpage ▸ nofun
  rwa [List.length_map] at hcard

end Trail

end Tree

/-! ## Surveys that stop -/

namespace Ends

/-- What each step of a loop keeps, and may stop for, the loop does. -/
theorem foldlM {σ α β : Type} {stop : Halt → σ → Prop} {I : σ → Prop}
    {f : β → α → Action σ β} {l : List α}
    (hstep : ∀ a ∈ l, ∀ b s, I s → Ends stop (fun _ => I) (f b a s)) {b : β} {s : σ} (hs : I s) :
    Ends stop (fun _ => I) (l.foldlM f b s) := by
  induction l generalizing b s with
  | nil => exact hs
  | cons a l ih =>
    rw [List.foldlM_cons]
    exact (hstep a List.mem_cons_self b s hs).bind fun b s hs =>
      ih (fun a ha => hstep a (.tail _ ha)) hs

end Ends

namespace Tree

/-- Why a survey may stop: what it comes to is refused, or it waits for a page on its way down that
the caller itself writes. -/
def Excused (t : Tree) (P : PageMap) (gs : List (Guard n)) (e : Halt) : Prop :=
  (∃ cause, e = .refused cause) ∨
    e = .blocked ∧ ∃ v above, t.Trail P (v :: above) ∧ hasWriter gs v.page = true

theorem Excused.ne_endless {e : Halt} (h : tree.Excused P gs e) : e ≠ .endless := by
  rcases h with ⟨cause, rfl⟩ | ⟨rfl, -⟩ <;> exact nofun

end Tree

/-- A check by itself gives no other reason. -/
theorem OnlyRefuses.ends {α : Type} {r : Except Halt α} (h : OnlyRefuses r)
    {Q : α → Pool n m → Prop} (hQ : ∀ a, r = .ok a → Q a pool) :
    Ends (fun e _ => tree.Excused P gs e) Q ((liftM r : Action (Pool n m) α) pool) := by
  cases hr : r with
  | ok a => exact hQ a hr
  | error e => exact .inl (h e hr)

namespace Tree

variable {v : Visit} {above : List Visit}

/-- What keeps readers out of a page is a writer. -/
theorem hasWriter_of_isHeld (hs : pool.Sound gs) (hheld : pool.isHeld p .read = true) :
    hasWriter gs p = true := by
  rw [isHeld] at hheld
  split at hheld
  · next f ht =>
    rw [hs.admits_read_eq ht, Bool.not_not] at hheld
    exact hheld
  · cases hheld

/-- A page is fetched for a look, or is refused, or a writer holds it. -/
theorem fetch_read_ends (hs : pool.Sound gs) :
    Ends (fun e _ => (∃ cause, e = .refused cause) ∨ e = .blocked ∧ hasWriter gs p = true)
      (fun g pool' => g.page = p ∧ pool'.Sound (g :: gs) ∧ pool'.pages = pool.pages)
      (Tree.fetch .read p pool) := by
  rw [Tree.fetch]
  rcases hs.fetch_cases .read p with ⟨g, pool', hfetch, hgp, -, hs', hpages⟩ |
    ⟨e, pool', hfetch, -, -, ⟨rfl, hheld, -⟩ | ⟨cause, rfl, -⟩⟩
  · rw [hfetch]
    exact ⟨hgp, hs', hpages⟩
  · rw [hfetch]
    exact .inr ⟨rfl, hasWriter_of_isHeld hs hheld⟩
  · rw [hfetch]
    exact .inl ⟨_, rfl⟩

/-- What a survey finds at the end of a way down. -/
theorem Trail.view_ends (h : tree.Trail pool.pages (v :: above)) (ha : tree.Accepted)
    (hs : pool.Sound gs) :
    Ends (fun e _ => tree.Excused pool.pages gs e)
      (fun f pool' => (∃ page, pool.pages v.page = some page ∧ tree.examine v page = .ok f) ∧
        pool'.Sound gs ∧ pool'.pages = pool.pages)
      (view v.page (tree.examine v) pool) := by
  have hfetch : Ends (fun e _ => tree.Excused pool.pages gs e)
      (fun g pool' => g.page = v.page ∧ pool'.Sound (g :: gs) ∧ pool'.pages = pool.pages)
      (Tree.fetch .read v.page pool) := by
    refine (fetch_read_ends hs).imp (fun e _ he => ?_) fun _ _ => id
    exact he.imp_right fun hblocked => ⟨hblocked.1, v, above, h, hblocked.2⟩
  refine hfetch.bind ?_
  rintro g pool₁ ⟨hgp, hs₁, hpages₁⟩
  cases hlook : tree.examine v (pool₁.bytes g) with
  | ok f =>
    obtain ⟨pool₂, hrun, hs₂, hpages₂⟩ := inspect_eq_ok _ hlook hs₁
    refine .of_eq_ok hrun ⟨⟨_, ?_, hlook⟩, hs₂, hpages₂.trans hpages₁⟩
    rw [← hpages₁, ← hgp]
    exact hs₁.pages_guard List.mem_cons_self
  | error e =>
    exact .of_eq_error (Pool.inspect_eq_error hlook) (.inl (OnlyRefuses.examine ha e hlook))

/-- **A survey that comes to a page again** is refused there, if it can look at the page at all. -/
theorem Trail.survey_eq_error (h : tree.Trail pool.pages (v :: above)) (hs : pool.Sound gs)
    (hmem : v.page ∈ above.map Visit.page) (hroom : ¬Full gs)
    (hwriter : hasWriter gs v.page = false) (fuel : Nat) (s : Survey) :
    ∃ pool', tree.surveyBelow (fuel + 1) v s pool =
      .error (.refused (.tree (.broken v.page .parent))) pool' := by
  obtain ⟨page, hpage, hlook⟩ := h.refuses_again hs.pages_none hmem
  rcases hs.fetch_cases .read v.page with ⟨g, pool₁, hfetch, hgp, -, hs₁, hpages₁⟩ |
    ⟨e, pool₁, -, -, -, ⟨-, hheld, -⟩ | ⟨cause, -, ⟨-, hnone⟩ | ⟨-, hfull⟩⟩⟩
  · have hfetch' : Tree.fetch .read v.page pool = .ok g pool₁ := by rw [Tree.fetch, hfetch]
    have hbytes : pool₁.bytes g = page :=
      hs₁.bytes_of_pages List.mem_cons_self (by rw [hpages₁, hgp, hpage])
    refine ⟨pool₁.release g, ?_⟩
    rw [surveyBelow]
    exact Action.bind_of_error ((Action.bind_of_ok hfetch').trans
      (Pool.inspect_eq_error (hbytes ▸ hlook)))
  · rw [hasWriter_of_isHeld hs hheld] at hwriter
    cases hwriter
  · rw [hnone] at hpage
    cases hpage
  · exact absurd hfull hroom

/-- **A survey ends** when it may go as many calls deep as there are pages left to meet, and one
more. -/
theorem Trail.survey_ends (ha : tree.Accepted) (hs : pool.Sound gs) {fuel : Nat}
    (h : tree.Trail pool.pages (v :: above)) (hfuel : pool.members.card < fuel + above.length)
    (s : Survey) {pool' : Pool n m} (hs' : pool'.Sound gs) (hpages : pool'.pages = pool.pages) :
    Ends (fun e _ => tree.Excused pool.pages gs e)
      (fun _ pool' => pool'.Sound gs ∧ pool'.pages = pool.pages)
      (tree.surveyBelow fuel v s pool') := by
  induction fuel generalizing v above s pool' with
  | zero =>
    -- the pages above are all different, so no way down is as long as this
    have hshort := h.length_le hs
    omega
  | succ fuel ih =>
    rw [surveyBelow]
    have hview := Trail.view_ends (hpages.symm ▸ h) ha hs'
    rw [hpages] at hview
    refine hview.bind ?_
    rintro f pool₁ ⟨⟨page, hpage, hlook⟩, hs₁, hpages₁⟩
    cases f with
    | leaf entries next =>
      exact OnlyRefuses.addLeaf.ends fun _ _ => ⟨hs₁, hpages₁⟩
    | internal records =>
      refine .foldlM ?_ ⟨hs₁, hpages₁⟩
      rintro ⟨c, lower, upper⟩ hc s pool₂ ⟨hs₂, hpages₂⟩
      refine ih (h.child hpage hlook hc) ?_ s hs₂ hpages₂
      rw [List.length_cons]
      omega

end Tree

/-! ## Surveys that may go deeper -/

/-- The second action does what the first one does, unless the first one gives up. -/
def Action.Within {σ α : Type} (act act' : Action σ α) : Prop :=
  ∀ s, (∃ s', act s = .error .endless s') ∨ act' s = act s

namespace Action.Within

variable {σ α β : Type}

theorem refl (act : Action σ α) : Within act act := fun _ => .inr rfl

/-- **Sequencing.** -/
theorem bind {act act' : Action σ α} {next next' : α → Action σ β} (h : Within act act')
    (hnext : ∀ a, Within (next a) (next' a)) : Within (act >>= next) (act' >>= next') := by
  intro s
  rcases h s with ⟨s', hstop⟩ | hsame
  · exact .inl ⟨s', bind_of_error hstop⟩
  · cases hr : act s with
    | ok a s' =>
      rw [bind_of_ok hr, bind_of_ok (hsame.trans hr)]
      exact hnext a s'
    | error e s' =>
      rw [bind_of_error hr, bind_of_error (hsame.trans hr)]
      exact .inr rfl

theorem foldlM {f f' : β → α → Action σ β} (h : ∀ b a, Within (f b a) (f' b a)) (l : List α)
    (b : β) : Within (l.foldlM f b) (l.foldlM f' b) := by
  induction l generalizing b with
  | nil => exact refl _
  | cons a l ih =>
    rw [List.foldlM_cons, List.foldlM_cons]
    exact (h b a).bind ih

end Action.Within

namespace Tree

/-- A survey that may go deeper finds the same. -/
theorem surveyBelow_within {fuel fuel' : Nat} (hle : fuel ≤ fuel') (v : Visit) (s : Survey) :
    Action.Within (tree.surveyBelow fuel v s : Action (Pool n m) Survey)
      (tree.surveyBelow fuel' v s) := by
  induction fuel generalizing fuel' v s with
  | zero => exact fun pool => .inl ⟨pool, rfl⟩
  | succ fuel ih =>
    obtain ⟨fuel', rfl⟩ : ∃ k, fuel' = k + 1 := ⟨fuel' - 1, by omega⟩
    refine (Action.Within.refl _).bind fun f => ?_
    cases f with
    | leaf => exact .refl _
    | internal => exact .foldlM (fun s c => ih (Nat.le_of_succ_le_succ hle) _ s) _ s

/-- Verifies a tree, and gives up more than `bound` calls deep. -/
def verifyWithin (t : Tree) (bound : Nat) : Action (Pool n m) Nat := do
  if t.isEmpty then return 0
  let s ← t.surveyBelow bound t.firstVisit {}
  checkChain s.leaves.toList
  return s.entries

theorem verify_eq : (tree.verify : Action (Pool n m) Nat) = tree.verifyWithin descentBound := rfl

theorem verifyWithin_within {bound bound' : Nat} (hle : bound ≤ bound') :
    Action.Within (tree.verifyWithin bound : Action (Pool n m) Nat) (tree.verifyWithin bound') := by
  unfold verifyWithin
  split
  · exact .refl _
  · exact (surveyBelow_within hle _ _).bind fun s => .refl _

/-- Verifying ends when it may go one call deeper than there are allocated pages. -/
theorem verifyWithin_ends (ha : tree.Accepted) (hs : pool.Sound gs) {bound : Nat}
    (hbound : pool.members.card < bound) :
    Ends (fun e _ => tree.Excused pool.pages gs e) (fun _ _ => True)
      (tree.verifyWithin bound pool) := by
  unfold verifyWithin
  split
  · trivial
  · refine (Trail.survey_ends ha hs .root hbound {} hs rfl).bind fun s pool' _ => ?_
    exact (OnlyRefuses.checkChain.ends (Q := fun _ _ => True) fun _ _ => trivial).bind
      fun _ _ _ => trivial

/-- Calls that lie deeper are never made. -/
theorem verifyWithin_eq (ha : tree.Accepted) (hs : pool.Sound gs) {bound bound' : Nat}
    (hbound : pool.members.card < bound) (hle : bound ≤ bound') :
    tree.verifyWithin bound' pool = tree.verifyWithin bound pool := by
  refine (verifyWithin_within hle pool).resolve_left fun ⟨pool', hstop⟩ => ?_
  have hends := verifyWithin_ends ha hs hbound
  rw [hstop] at hends
  exact hends.ne_endless rfl

/-- **What ends a verification**, whatever the pages are. -/
structure Halts (t : Tree) (o : OpenPool) : Prop where
  /-- it answers, or is refused, or waits for a page that the caller itself writes -/
  ends : Ends (fun e _ => t.Excused o.pool.pages o.guards e) (fun _ _ => True) (t.verify o.pool)
  /-- one call more than there are allocated pages is as deep as it goes -/
  depth : ∀ bound, o.pool.members.card + 1 ≤ bound → t.verifyWithin bound o.pool = t.verify o.pool
  /-- the way down to a call has no more pages than are allocated -/
  length : ∀ v above, t.Trail o.pool.pages (v :: above) → above.length ≤ o.pool.members.card
  /-- a call for a page that lies on the way down to it is refused, if it can look at the page -/
  again : ∀ v above, t.Trail o.pool.pages (v :: above) → v.page ∈ above.map Visit.page →
    ¬Full o.guards → hasWriter o.guards v.page = false →
    ∀ pool : Pool o.frames o.slots, pool.Sound o.guards → pool.pages = o.pool.pages →
    ∀ fuel s, ∃ pool', t.surveyBelow (fuel + 1) v s pool =
      .error (.refused (.tree (.broken v.page .parent))) pool'

theorem Accepted.halts (ha : tree.Accepted) {o : OpenPool} (hs : o.pool.Sound o.guards) :
    tree.Halts o where
  ends := by
    have hcard : o.pool.members.card < descentBound := Nat.lt_succ_of_le hs.card_le
    exact verifyWithin_ends ha hs hcard
  depth bound hbound := by
    have hbase := Nat.lt_succ_self o.pool.members.card
    have hmost : o.pool.members.card + 1 ≤ descentBound := Nat.succ_le_succ hs.card_le
    rw [verify_eq, verifyWithin_eq ha hs hbase hbound, verifyWithin_eq ha hs hbase hmost]
  length _ _ h := h.length_le hs
  again v above h hmem hroom hwriter pool hs' hpages := by
    rw [← hpages] at h
    exact h.survey_eq_error hs' hmem hroom hwriter

/-- The items of a node of which both children are the node itself. -/
def circle (p : PageId) : Items 1 :=
  [([0], Content.node p []), ([30], Content.node p [])]

/-- **Verifying always ends.** On a pool that any calls have led to, and so with any bytes in the
allocated pages, a tree that could be created is verified from whatever root it is given: the call
answers or is refused, unless a page that it goes through is held by a writer. A page that lies on
the way down to itself is refused for its parent, so the call goes at most one call deeper than
there are allocated pages. -/
theorem verify_always_ends {config : PoolConfig} {disk : SpaceConfig}
    (hconfig : config.validate = .ok ()) (hdisk : disk.validate = .ok ()) {v : Volume}
    (hv : v.openFile = .ok {}) (calls : List PoolCall)
    {order : KeyOrder} {keySize : Nat} {settings : TreeConfig}
    (htree : Tree.create order keySize settings = .ok tree) (root : PageId)
    (registration : Option Registration) :
    ∃ o, OpenPool.start config disk v = .ok o ∧
      { tree with root, registration }.Halts (o.after calls) := by
  obtain ⟨o, hstart, -, ho⟩ := OpenPool.start_fresh hconfig hdisk hv
  have ha := (Tree.accepted_of_create htree).1
  exact ⟨o, hstart, (ha.handle root registration).halts (OpenPool.sound_after ho calls)⟩

/-- A root of which both children are the root itself. It is met again at once, and refused. -/
theorem verify_always_ends_one : ∃ o uses used root,
    OpenPool.start ⟨1, .lru⟩ ⟨1⟩ .missing = .ok o ∧ o.after uses = used ∧
    (∃ v above, Trail ⟨root, .bytewise, 1, ⟨2, 3⟩, none⟩ used.pool.pages (v :: above) ∧
      v.page = root ∧ root ∈ above.map Visit.page) ∧
    (∃ pool, verify ⟨root, .bytewise, 1, ⟨2, 3⟩, none⟩ used.pool =
      .error (.refused (.tree (.broken root .parent))) pool) ∧
    Halts ⟨root, .bytewise, 1, ⟨2, 3⟩, none⟩ used := by
  obtain ⟨o, hstart, hframes, -⟩ := @OpenPool.start_fresh ⟨1, .lru⟩ ⟨1⟩ rfl rfl .missing rfl
  have hroom : Room ([] : List (Guard o.frames)) 1 := hframes.ge
  obtain ⟨l, hlen, -, hbytes⟩ :=
    OpenPool.exists_chosen (k := 1) rfl rfl rfl hstart (Nat.le_refl 1) (by decide)
  obtain ⟨root, rfl⟩ := List.length_eq_one_iff.1 hlen
  have htree : Tree.create .bytewise 1 ⟨some 2, some 3⟩ =
      .ok ⟨.none, .bytewise, 1, ⟨2, 3⟩, none⟩ := rfl
  have hf := (accepted_of_create htree).1.follows_first
  obtain ⟨node, hnode⟩ := hf.fits.exists_node root .none .none (circle root) (Nat.le_succ 2)
    (by simp [circle]; rfl)
  obtain ⟨uses, pool₁, huses, hs₁, hpages₁⟩ := hbytes fun _ => node.page
  have hpage : pool₁.pages root = some node.page := hpages₁ root (List.mem_singleton_self root)
  obtain ⟨page, hp, hlook⟩ := Visit.examine_internal_eq_ok
    (v := firstVisit ⟨root, .bytewise, 1, ⟨2, 3⟩, none⟩) (.of_holds hpage hnode) rfl
    (hf.withRoot root) (Nat.le_succ 2) (Nat.le_refl 2) rfl
  have htrail := Trail.root.child hp hlook List.mem_cons_self
  obtain ⟨o', hstart', h⟩ := @verify_always_ends _ ⟨1, .lru⟩ ⟨1⟩ rfl rfl .missing rfl uses .bytewise
    1 ⟨some 2, some 3⟩ htree root none
  obtain rfl : o = o' := Except.ok.inj (hstart.symm.trans hstart')
  rw [huses] at h
  refine ⟨o, uses, ⟨_, _, pool₁, _⟩, root, hstart, huses,
    ⟨_, _, htrail, rfl, List.mem_cons_self⟩, ?_, h⟩
  -- the first look goes well, the one at the first child does not
  obtain ⟨pool₂, hview, hs₂, hpages₂⟩ := view_eq_ok hs₁ hp hlook (List.forall_mem_nil _) hroom
  obtain ⟨pool, hagain⟩ := h.again _ _ htrail List.mem_cons_self hroom.not_full rfl pool₂ hs₂
    hpages₂ (descentBound - 2) {}
  have hsome : root ≠ .none := fun e => by
    rw [e, hs₁.pages_none] at hpage
    cases hpage
  refine ⟨pool, ?_⟩
  rw [verify, if_neg fun e => hsome (isEmpty_iff.1 e)]
  exact Action.bind_of_error ((Action.bind_of_ok hview).trans (Action.bind_of_error hagain))

end Tree

end PageStore
