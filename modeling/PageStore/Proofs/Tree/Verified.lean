import PageStore.Proofs.Tree.Map
import PageStore.Proofs.Tree.Reach
import PageStore.Proofs.Tree.Walk

/-!
# What a tree that verifies is

Nothing is known here about how the pages got their bytes. What `verify` answers is trusted all the
same: `Tree.surveyBelow_sound` rebuilds from a survey that finds nothing to refuse the shape of the
nodes that it went through, and `Tree.readable_of_verify` is that a tree which verifies can be read.

The proofs follow the survey. A survey comes to each node with two keys between which the node's own
keys have to lie, and with the depth at which leaves were met before; these are what makes the
ranges and the heights of the subtrees fit together.
-/

namespace PageStore

open Pool

variable {n m : Nat} {o : KeyOrder} {P : PageMap} {h width lo hi : Nat} {p next : PageId}
  {pool pool' : Pool n m} {gs : List (Guard n)} {g : Guard n} {tree : Tree}

/-! ## Checks that passed -/

/-- Two computations in turn return a value exactly when both of them do. -/
theorem bind_eq_ok_iff {ε α β : Type} {x : Except ε α} {f : α → Except ε β} {b : β} :
    (x >>= f) = .ok b ↔ ∃ a, x = .ok a ∧ f a = .ok b := by
  cases x with
  | error e => exact ⟨nofun, by rintro ⟨_, ⟨⟩, _⟩⟩
  | ok a => exact ⟨fun h => ⟨a, rfl, h⟩, by rintro ⟨_, ⟨⟩, h⟩; exact h⟩

theorem ensure_eq_ok_iff {holds : Bool} {rule : TreeRule} {u : Unit} :
    ensure holds p rule = .ok u ↔ holds = true := by
  cases holds with
  | false => exact ⟨nofun, nofun⟩
  | true => exact iff_of_true rfl rfl

/-- A page that was looked at is allocated, and nobody writes it. -/
theorem Tree.of_view {α : Type} {look : Page → Except Halt α} {a : α} (hs : pool.Sound gs)
    (hrun : Tree.view p look pool = .ok a pool') :
    ∃ page, pool.pages p = some page ∧ look page = .ok a ∧ Unwritten gs [p] ∧ pool'.Sound gs ∧
      pool'.pages = pool.pages := by
  obtain ⟨g, pool₁, hfetch, hinspect⟩ := Action.bind_eq_ok_iff.1 hrun
  obtain ⟨rfl, -, hs₁, hpages⟩ := Tree.of_fetch hs hfetch
  obtain ⟨hlook, rfl⟩ := Pool.of_inspect hinspect
  obtain ⟨hs', hpages'⟩ := hs₁.release
  refine ⟨pool₁.bytes g, ?_, hlook, fun d hd hin => ?_, hs', hpages'.trans hpages⟩
  · rw [← hpages]
    exact hs₁.pages_guard List.mem_cons_self
  · cases hmode : d.mode with
    | read => rfl
    | write => exact absurd (List.mem_singleton.1 hin) (hs₁.page_ne_of_write hd (.inr hmode))

/-! ## Keys between bounds -/

namespace KeyOrder

/-- Where the keys from a bound on start. -/
def floor (o : KeyOrder) (lower : Option Key) : Nat := lower.elim 0 o.rank

/-- Where the keys before a bound end. -/
def ceiling (o : KeyOrder) (width : Nat) (upper : Option Key) : Nat := upper.elim (top width) o.rank

end KeyOrder

/-- Every bound that there is has the width of keys. -/
def Measured (width : Nat) (bound : Option Key) : Prop := ∀ k ∈ bound, k.length = width

theorem measured_none : Measured width none := nofun

theorem measured_some {k : Key} (hk : k.length = width) : Measured width (some k) :=
  fun _ he => Option.some.inj he ▸ hk

/-- **Keys that passed the check** increase and are between the bounds. -/
theorem of_checkKeys {α : Type} {lower upper previous : Option Key} {l : List (Key × α)}
    (hlower : Measured width lower) (hupper : Measured width upper)
    (hprevious : Measured width previous) (hw : ∀ e ∈ l, e.1.length = width)
    (hrun : checkKeys o p lower upper previous (l.map Prod.fst) = .ok ()) :
    Sorted o l ∧ (∀ e ∈ l, o.floor lower ≤ o.rank e.1 ∧ o.rank e.1 < o.ceiling width upper) ∧
      ∀ k ∈ previous, Above o (o.rank k) l := by
  induction l generalizing previous with
  | nil => exact ⟨.nil, nofun, fun _ _ => nofun⟩
  | cons e l ih =>
    obtain ⟨hwe, hwl⟩ := List.forall_mem_cons.1 hw
    simp only [List.map_cons, checkKeys, bind_eq_ok_iff, ensure_eq_ok_iff] at hrun
    obtain ⟨-, horder, -, hlow, -, hhigh, hrest⟩ := hrun
    obtain ⟨hsorted, hrange, habove⟩ := ih (measured_some hwe) hwl hrest
    have hfirst : Above o (o.rank e.1) l := habove e.1 rfl
    refine ⟨List.pairwise_cons.2 ⟨hfirst, hsorted⟩, List.forall_mem_cons.2 ⟨⟨?_, ?_⟩, hrange⟩,
      fun k hk => ?_⟩
    · cases lower with
      | none => exact Nat.zero_le _
      | some k =>
        have hnot := of_decide_eq_true ((Option.all_eq_true _ _).1 hlow k rfl)
        have hlen := hwe.trans (hlower k rfl).symm
        exact Nat.not_lt.1 ((KeyOrder.compare_eq_lt_iff hlen).not.1 hnot)
    · cases upper with
      | none => exact hwe ▸ o.rank_lt_top e.1
      | some k =>
        have hlt := of_decide_eq_true ((Option.all_eq_true _ _).1 hhigh k rfl)
        exact (KeyOrder.compare_eq_lt_iff (hwe.trans (hupper k rfl).symm)).1 hlt
    · have hlt := of_decide_eq_true ((Option.all_eq_true _ _).1 horder k hk)
      have hbefore := (KeyOrder.compare_eq_lt_iff ((hprevious k hk).trans hwe.symm)).1 hlt
      exact List.forall_mem_cons.2 ⟨hbefore, fun d hd => Nat.lt_trans hbefore (hfirst d hd)⟩

/-! ## Nodes by themselves -/

/-- A page that is a node is given room for at least two entries, or for three children. -/
def Roomy (page : Page) : Prop :=
  (∀ leaf : Leaf, Node.ofBlock .leaf page = .ok leaf → 2 ≤ leaf.maxSize) ∧
  (∀ node : Internal, Node.ofBlock .internal page = .ok node → 3 ≤ node.maxSize)

variable {v : Visit} {page : Page} {f : Finding}

/-- What a look at a leaf found: it is not empty, its keys are in order and between the bounds. -/
theorem Tree.of_examineLeaf (hcap : 0 < NodeKind.leaf.capacity tree.keySize)
    (hp : P v.page = some page) (hroomy : Roomy page) (hlower : Measured tree.keySize v.lower)
    (hupper : Measured tree.keySize v.upper) (hrun : tree.examineLeaf v page = .ok f) :
    ∃ (t : Shape 0) (next : PageId), f = .leaf t.entries.length next ∧ t.page = v.page ∧
      Links tree.keySize P next t ∧
      Within tree.order (tree.order.floor v.lower) (tree.order.ceiling tree.keySize v.upper) t ∧
      t.items ≠ [] := by
  simp only [Tree.examineLeaf, bind_eq_ok_iff, ensure_eq_ok_iff, decide_eq_true_eq] at hrun
  obtain ⟨leaf, hblock, -, -, -, -, -, hwidth, -, -, -, hleast, keys, hkeys, ⟨⟩, hchecked,
    hfound⟩ := hrun
  obtain ⟨recs, hholds⟩ := Node.exists_holds hblock (hwidth ▸ hcap)
  have hw : ∀ e ∈ recs, e.1.length = tree.keySize := fun e he => (hholds.width e he).trans hwidth
  obtain rfl : recs.map Prod.fst = keys := Except.ok.inj (hholds.keys_eq_ok.symm.trans hkeys)
  obtain ⟨hsorted, hrange, -⟩ := of_checkKeys hlower hupper measured_none hw hchecked
  have hnode : leaf.page = page := by rw [(Node.of_ofBlock hblock).1]
  have hne : recs ≠ [] := by
    rintro rfl
    have hzero : leaf.size = 0 := hholds.states.size
    have hmax := hroomy.1 leaf hblock
    rw [hzero, Node.minSize, minSize] at hleast
    split at hleast <;> omega
  have hlt : tree.order.floor v.lower < tree.order.ceiling tree.keySize v.upper := by
    obtain ⟨e, he⟩ := List.exists_mem_of_ne_nil recs hne
    exact Nat.lt_of_le_of_lt (hrange e he).1 (hrange e he).2
  refine ⟨Content.node v.page recs, leaf.header.next, ?_, rfl,
    ⟨leaf, _, ?_, hwidth, rfl, ?_, hholds⟩, ⟨hlt, hsorted, hrange⟩, hne⟩
  · have hsize : leaf.size = recs.length := hholds.states.size
    rw [← Except.ok.inj hfound, hsize, hholds.next_eq]
    rfl
  · rw [hnode]
    exact hp
  · rw [hnode]
    exact hblock

/-- What a look at an internal node found: it has children. -/
theorem Tree.of_examineInternal (hcap : 0 < NodeKind.internal.capacity tree.keySize)
    (hp : P v.page = some page) (hroomy : Roomy page)
    (hrun : tree.examineInternal v page = .ok f) :
    ∃ recs : List (Record .internal), f = .internal recs ∧ recs ≠ [] ∧
      (∀ r ∈ recs, r.1.length = tree.keySize) ∧
      Tree.childPages page = .ok (recs.map Prod.snd) ∧
      ∀ {h : Nat} {l : Items (h + 1)}, l.records = recs → Reads tree.keySize P v.page l := by
  simp only [Tree.examineInternal, bind_eq_ok_iff, ensure_eq_ok_iff, decide_eq_true_eq] at hrun
  obtain ⟨node, hblock, -, -, -, -, -, hwidth, -, -, -, hleast, records, hrecords, ⟨⟩, -, hfound⟩ :=
    hrun
  obtain ⟨recs, hholds⟩ := Node.exists_holds hblock (hwidth ▸ hcap)
  obtain rfl : recs = records := Except.ok.inj ((Internal.entries_eq_ok hholds).symm.trans hrecords)
  have hnode : node.page = page := by rw [(Node.of_ofBlock hblock).1]
  have hkind : NodeHeader.kind page = .ok .internal := hnode ▸ hholds.states.kind_eq_ok
  refine ⟨recs, (Except.ok.inj hfound).symm, ?_, fun r hr => (hholds.width r hr).trans hwidth, ?_,
    fun hl => ⟨node, node.header, ?_, hwidth, ?_, ?_⟩⟩
  · rintro rfl
    have hzero : node.size = 0 := hholds.states.size
    have hmax := hroomy.2 node hblock
    rw [hzero, Node.minSize, minSize] at hleast
    split at hleast <;> omega
  · rw [Tree.childPages, hkind, ok_bind]
    dsimp only
    rw [hblock, ok_bind]
    exact Internal.children_eq_ok hholds
  · rw [hnode]
    exact hp
  · rw [hnode]
    exact hblock
  · rw [hl]
    exact hholds

/-! ## Links between leaves -/

/-- The leaves have these pages and links. -/
def Threads (width : Nat) (P : PageMap) : List (Shape 0) → List (PageId × PageId) → Prop :=
  List.Forall₂ fun s link => s.page = link.1 ∧ Links width P link.2 s

/-- **Links that passed the check** lead from each leaf to the one behind it. -/
theorem strand_of_checkChain {l : List (Shape 0)} {links : List (PageId × PageId)}
    (ht : Threads width P l links) (hrun : checkChain links = .ok ()) : Strand width P .none l := by
  induction ht with
  | nil => trivial
  | @cons s link l links hs hl ih =>
    obtain ⟨hpage, hlinks⟩ := hs
    cases hl with
    | nil =>
      have hend := ensure_eq_ok_iff.1 hrun
      have hnone : link.2 = .none := by simpa [PageId.isSome] using hend
      exact ⟨hnone ▸ hlinks, trivial⟩
    | @cons s' link' l links hs' hl =>
      simp only [checkChain, bind_eq_ok_iff, ensure_eq_ok_iff, decide_eq_true_eq] at hrun
      obtain ⟨-, hnext, hrest⟩ := hrun
      refine ⟨?_, ih hrest⟩
      change Links width P s'.page s
      rw [hs'.1, ← hnext]
      exact hlinks

/-! ## Subtrees -/

/-- What a survey that began as `s` and went on as `s'` found at a visit and below: a subtree whose
nodes can be read, with `links` between its leaves. -/
structure Surveyed (tree : Tree) (P : PageMap) (gs : List (Guard n)) (v : Visit) (s s' : Survey)
    (t : Shape h) (links : List (PageId × PageId)) : Prop where
  page : t.page = v.page
  legible : Legible tree.keySize P t
  within : Within tree.order (tree.order.floor v.lower) (tree.order.ceiling tree.keySize v.upper) t
  filled : ∀ s ∈ t.leafNodes, s.items ≠ []
  unwritten : Unwritten gs t.pages
  level : ∀ k ∈ s.depth, k = v.depth + h
  added : s' = s.add (v.depth + h) t.entries.length links
  threads : Threads tree.keySize P t.leafNodes links

/-- The same of subtrees side by side that begin at one depth. -/
structure SurveyedRow (tree : Tree) (P : PageMap) (gs : List (Guard n)) (depth : Nat)
    (s s' : Survey) (l : Items (h + 1)) (links : List (PageId × PageId)) : Prop where
  legible : ∀ i ∈ l, Legible tree.keySize P i.2
  filled : ∀ s ∈ Items.leafNodes l, s.items ≠ []
  unwritten : Unwritten gs l.pages
  level : ∀ k ∈ s.depth, k = depth + h
  added : s' = s.add (depth + h) l.entries.length links
  threads : Threads tree.keySize P (Items.leafNodes l) links

variable {s s₁ s' : Survey} {links links' : List (PageId × PageId)}

theorem Unwritten.append {l l' : List PageId} (hl : Unwritten gs l) (hl' : Unwritten gs l') :
    Unwritten gs (l ++ l') := fun d hd hin =>
  (List.mem_append.1 hin).elim (hl d hd) (hl' d hd)

/-- A single subtree. -/
theorem Surveyed.row {t : Shape h} (ht : Surveyed tree P gs v s s' t links) (key : Key) :
    SurveyedRow tree P gs v.depth s s' [(key, t)] links where
  legible := List.forall_mem_singleton.2 ht.legible
  filled := by
    rw [Items.leafNodes, List.flatMap_singleton]
    exact ht.filled
  unwritten := by
    rw [Items.pages_cons, Items.pages_nil, List.append_nil]
    exact ht.unwritten
  level := ht.level
  added := by
    rw [Items.entries_cons, Items.entries_nil, List.append_nil]
    exact ht.added
  threads := by
    rw [Items.leafNodes, List.flatMap_singleton]
    exact ht.threads

/-- One subtree more. -/
theorem Surveyed.cons {t : Shape h} {l : Items (h + 1)} (ht : Surveyed tree P gs v s s₁ t links)
    (hl : SurveyedRow tree P gs v.depth s₁ s' l links') (key : Key) :
    SurveyedRow tree P gs v.depth s s' ((key, t) :: l) (links ++ links') where
  legible := List.forall_mem_cons.2 ⟨ht.legible, hl.legible⟩
  filled := List.forall_mem_append.2 ⟨ht.filled, hl.filled⟩
  unwritten := by
    rw [Items.pages_cons]
    exact ht.unwritten.append hl.unwritten
  level := ht.level
  added := by
    rw [Items.entries_cons, List.length_append, ← Survey.add_add, ← ht.added]
    exact hl.added
  threads := List.rel_append ht.threads hl.threads

/-- A survey that finds nothing to refuse has gone through subtrees that can be read. -/
def Tree.Vouches (tree : Tree) (m : Nat) (P : PageMap) (gs : List (Guard n)) (fuel : Nat) : Prop :=
  ∀ {pool pool' : Pool n m} {v : Visit} {s s' : Survey}, pool.Sound gs → pool.pages = P →
    (∀ q page, WalksTo P v.page q → P q = some page → Roomy page) →
    Measured tree.keySize v.lower → Measured tree.keySize v.upper →
    tree.surveyBelow fuel v s pool = .ok s' pool' →
    pool'.Sound gs ∧ pool'.pages = P ∧ ∃ (h : Nat) (t : Shape h) (links : List (PageId × PageId)),
      h < fuel ∧ Surveyed tree P gs v s s' t links

/-- **The children of a node.** Their ranges fit together, and they have one height. -/
theorem Tree.of_surveyChildren {fuel depth : Nat} (hone : tree.Vouches m P gs fuel)
    {recs : List (Key × PageId)} (hne : recs ≠ []) {lower upper : Option Key}
    (hs : pool.Sound gs) (hP : pool.pages = P)
    (hroomy : ∀ r ∈ recs, ∀ q page, WalksTo P r.2 q → P q = some page → Roomy page)
    (hw : ∀ r ∈ recs, r.1.length = tree.keySize)
    (hlower : Measured tree.keySize lower) (hupper : Measured tree.keySize upper)
    (hrun : ((childSpans lower upper recs).foldlM (fun s (child, lower, upper) =>
      tree.surveyBelow fuel ⟨child, p, lower, upper, depth⟩ s) s : Action (Pool n m) Survey) pool =
      .ok s' pool') :
    pool'.Sound gs ∧ pool'.pages = P ∧ ∃ (h : Nat) (l : Items (h + 1))
      (links : List (PageId × PageId)), h < fuel ∧ l.records = recs ∧
      Spans tree.order (Within tree.order) (tree.order.floor lower)
        (tree.order.ceiling tree.keySize upper) l ∧
      SurveyedRow tree P gs depth s s' l links := by
  induction recs generalizing pool lower s with
  | nil => exact absurd rfl hne
  | cons r recs ih =>
    have hfirst := hroomy r List.mem_cons_self
    cases recs with
    | nil =>
      obtain ⟨s₁, pool₁, hrun₁, hrest⟩ := Action.bind_eq_ok_iff.1 hrun
      cases hrest
      obtain ⟨hs', hP', h, t, links, hfuel, ht⟩ := hone hs hP hfirst hlower hupper hrun₁
      refine ⟨hs', hP', h, [(r.1, t)], links, hfuel, ?_, ⟨_, ht.within, rfl⟩, ht.row r.1⟩
      exact congrArg (fun q => [(r.1, q)]) ht.page
    | cons r' recs =>
      obtain ⟨s₁, pool₁, hrun₁, hrest⟩ := Action.bind_eq_ok_iff.1 hrun
      have hw' : r'.1.length = tree.keySize := hw r' (.tail _ List.mem_cons_self)
      obtain ⟨hs₁, hP₁, h, t, links, hfuel, ht⟩ :=
        hone hs hP hfirst hlower (measured_some hw') hrun₁
      obtain ⟨hs', hP', h', l, links', -, hrecs, hspans, hl⟩ := ih (List.cons_ne_nil _ _) hs₁ hP₁
        (fun q hq => hroomy q (.tail _ hq)) (fun q hq => hw q (.tail _ hq))
          (measured_some hw') hrest
      -- the first subtree has set the depth of the leaves that the others are checked against
      obtain rfl : h = h' := by
        have hdepth := hl.level (depth + h) (by rw [ht.added]; rfl)
        exact Nat.add_left_cancel hdepth
      refine ⟨hs', hP', h, (r.1, t) :: l, links ++ links', hfuel, ?_, ⟨_, ht.within, ?_⟩,
        ht.cons hl r.1⟩
      · rw [← hrecs]
        exact congrArg (fun q => (r.1, q) :: Items.records l) ht.page
      · obtain ⟨i, l, rfl⟩ := List.exists_cons_of_ne_nil hspans.ne_nil
        have hkey : i.1 = r'.1 := congrArg Prod.fst (List.cons.inj hrecs).1
        exact chain_cons.2 ⟨congrArg tree.order.rank hkey, hspans⟩

/-- A leaf that was added is at the depth of the leaves before it. -/
theorem Survey.of_addLeaf {entries : Nat} (hrun : s.addLeaf v entries next = .ok s') :
    (∀ k ∈ s.depth, k = v.depth) ∧ s' = s.add v.depth entries [(v.page, next)] := by
  have hadd := hrun
  simp only [addLeaf, bind_eq_ok_iff, ensure_eq_ok_iff] at hrun
  obtain ⟨-, hall, -⟩ := hrun
  have hdepth : ∀ k ∈ s.depth, k = v.depth := fun k hk =>
    of_decide_eq_true ((Option.all_eq_true _ _).1 hall k hk)
  rw [Survey.addLeaf_eq_ok hdepth] at hadd
  exact ⟨hdepth, (Except.ok.inj hadd).symm⟩

/-- **What a survey vouches for.** -/
theorem Tree.surveyBelow_sound (hleaf : 0 < NodeKind.leaf.capacity tree.keySize)
    (hinternal : 0 < NodeKind.internal.capacity tree.keySize) (fuel : Nat) :
    tree.Vouches m P gs fuel := by
  induction fuel with
  | zero =>
    intro pool pool' v s s' _ _ _ _ _ hrun
    cases hrun
  | succ fuel ih =>
    intro pool pool' v s s' hs hP hroomy hlower hupper hrun
    obtain ⟨f, pool₁, hview, hrest⟩ := Action.bind_eq_ok_iff.1 hrun
    obtain ⟨page, hpage, hlook, hu, hs₁, hP₁⟩ := Tree.of_view hs hview
    rw [hP] at hpage hP₁
    have hroom := hroomy v.page page (.refl _) hpage
    obtain ⟨k, -, hexamine⟩ := bind_eq_ok_iff.1 hlook
    cases k with
    | leaf =>
      obtain ⟨t, next, rfl, htp, hlinks, hwithin, hne⟩ :=
        Tree.of_examineLeaf hleaf hpage hroom hlower hupper hexamine
      obtain ⟨hadd, rfl⟩ := Action.lift_eq_ok_iff.1 hrest
      obtain ⟨hlevel, hadded⟩ := Survey.of_addLeaf hadd
      refine ⟨hs₁, hP₁, 0, t, [(v.page, next)], Nat.succ_pos _, htp, ?_, hwithin, ?_, ?_, hlevel,
        hadded, .cons ⟨htp, hlinks⟩ .nil⟩
      · obtain ⟨node, hd, hp, hwidth, -, hblock, hholds⟩ := hlinks
        exact ⟨node, hd, hp, hwidth, hblock, (Items.records_zero t.items).symm ▸ hholds⟩
      · exact List.forall_mem_singleton.2 hne
      · rw [Content.pages, htp]
        exact hu
    | internal =>
      obtain ⟨recs, rfl, hne, hw, hchildren, hreads⟩ :=
        Tree.of_examineInternal hinternal hpage hroom hexamine
      obtain ⟨hs', hP', h, l, links, hfuel, hrecs, hspans, hl⟩ :=
        Tree.of_surveyChildren ih hne hs₁ hP₁
        (fun r hr q page hq => hroomy q page (.step hpage hchildren (List.mem_map_of_mem hr) hq)) hw
        hlower hupper hrest
      have hdepth : v.depth + 1 + h = v.depth + (h + 1) := by omega
      refine ⟨hs', hP', h + 1, Content.node v.page l, links, Nat.succ_lt_succ hfuel, rfl,
        ⟨hreads hrecs, hl.legible⟩, hspans, hl.filled, hu.append hl.unwritten, ?_, ?_, hl.threads⟩
      · exact hdepth ▸ hl.level
      · exact hdepth ▸ hl.added

/-! ## Whole trees -/

/-- **A tree that verifies** can be read, and has as many entries as were counted. -/
theorem Tree.readable_of_verify (ha : tree.Accepted) (hs : pool.Sound gs)
    (hroomy : ∀ q page, WalksTo pool.pages tree.root q → pool.pages q = some page → Roomy page)
    (hroot : tree.root ≠ .none) {count : Nat} (hrun : tree.verify pool = .ok count pool') :
    pool'.Sound gs ∧ pool'.pages = pool.pages ∧ ∃ (h : Nat) (t : Shape h),
      tree.Readable pool.pages t ∧ Unwritten gs t.pages ∧ count = t.entries.length := by
  have hempty : ¬tree.isEmpty = true := Tree.isEmpty_iff.not.2 hroot
  rw [Tree.verify, if_neg hempty] at hrun
  obtain ⟨s, pool₁, hsurvey, hrest⟩ := Action.bind_eq_ok_iff.1 hrun
  obtain ⟨hs₁, hP₁, h, t, links, hfuel, ht⟩ := Tree.surveyBelow_sound (ha.capacity_pos 0)
    (ha.capacity_pos 1) _ hs rfl hroomy measured_none measured_none hsurvey
  obtain ⟨⟨⟩, pool₂, hchain, hcount⟩ := Action.bind_eq_ok_iff.1 hrest
  obtain ⟨hchecked, rfl⟩ := Action.lift_eq_ok_iff.1 hchain
  cases hcount
  have hlinks : s.leaves.toList = links := by
    rw [ht.added]
    simp [Survey.add]
  have hstrand : Strand tree.keySize pool.pages .none t.leafNodes :=
    strand_of_checkChain ht.threads (hlinks ▸ hchecked)
  have hsorted : Sorted tree.order t.entries := ht.within.entries.1
  rw [Content.entries_eq_flatMap] at hsorted
  refine ⟨hs₁, hP₁, h, t, ⟨ht.page.symm, ht.page ▸ hroot, hfuel, ht.legible, ht.within, hstrand,
    hstrand.nodup hsorted ht.filled⟩, ht.unwritten, ?_⟩
  rw [ht.added]
  exact Nat.zero_add _

/-- Entries in key order are those of a map. -/
theorem exists_shows {E : List (Key × RowId)} (hE : Sorted o E) : ∃ M, Shows E M := by
  induction E with
  | nil => exact ⟨fun _ => none, fun key row => iff_of_false nofun nofun⟩
  | cons e E ih =>
    obtain ⟨hfirst, hrest⟩ := List.pairwise_cons.1 hE
    obtain ⟨M, hM⟩ := ih hrest
    refine ⟨Function.update M e.1 (some e.2), fun key row => ?_⟩
    by_cases hkey : key = e.1
    · subst hkey
      have hnot : (e.1, row) ∉ E := fun hin => Nat.lt_irrefl (o.rank e.1) (hfirst (e.1, row) hin)
      rw [Function.update_self, List.mem_cons, or_iff_left hnot, Prod.ext_iff, Option.some.injEq]
      exact ⟨fun hr => ⟨rfl, hr.symm⟩, fun hr => hr.2.symm⟩
    · have hnot : (key, row) ≠ e := fun he => hkey (congrArg Prod.fst he)
      rw [Function.update_of_ne hkey, List.mem_cons, or_iff_right hnot]
      exact hM key row

/-- A walk through the tree yields these entries, their keys increase, and a lookup of any key finds
the row that is with it among them, or nothing. -/
structure Tree.Lists (tree : Tree) (pool : Pool n m) (E : List Entry) : Prop where
  increasing : E.Pairwise fun e e' => tree.order.compare e.1 e'.1 = .lt
  entries : ∃ pool', tree.entries pool = .ok E pool'
  get? : ∀ key : Key, key.length = tree.keySize → ∃ found pool',
    tree.get? key pool = .ok found pool' ∧ ∀ row, found = some row ↔ (key, row) ∈ E

/-- The keys of a tree that can be read all have one width. -/
theorem Legible.length_key {t : Shape h} (ht : Legible width P t) :
    ∀ e ∈ t.entries, e.1.length = width := by
  induction h with
  | zero =>
    obtain ⟨node, hd, -, hwidth, -, hholds⟩ := ht.reads
    rw [Items.records_zero] at hholds
    exact fun e he => (hholds.width e he).trans hwidth
  | succ h ih =>
    intro e he
    obtain ⟨i, hi, hin⟩ := List.mem_flatMap.1 he
    exact ih (ht.2 i hi) e hin

/-- The keys of a tree that can be read increase. -/
theorem Tree.Readable.increasing {P : PageMap} {t : Shape h} (hr : tree.Readable P t) :
    t.entries.Pairwise fun e e' => tree.order.compare e.1 e'.1 = .lt := by
  refine hr.sorted.imp_of_mem fun {e e'} he he' hlt => ?_
  have hw := (hr.legible.length_key e he).trans (hr.legible.length_key e' he').symm
  exact (KeyOrder.compare_eq_lt_iff hw).2 hlt

/-- What readers of a readable tree find. -/
theorem Tree.Readable.lists {t : Shape h} (hr : tree.Readable pool.pages t) (hs : pool.Sound gs)
    (hu : Unwritten gs t.pages) (hroom : Room gs 1) : tree.Lists pool t.entries := by
  refine ⟨hr.increasing, ?_, fun key hkey => ?_⟩
  · obtain ⟨pool', hrun, -⟩ := hr.entries_eq_ok hs hu hroom
    exact ⟨pool', hrun⟩
  · obtain ⟨M, hM⟩ := exists_shows hr.sorted
    obtain ⟨pool', hrun, -⟩ := hr.get?_eq_ok hs hu hroom hkey hM
    exact ⟨M key, pool', hrun, fun row => hM key row⟩

/-- A tree without keys lists none. -/
theorem Tree.lists_of_empty (hroot : tree.root = .none) : tree.Lists pool [] :=
  ⟨.nil, ⟨pool, Tree.entries_of_empty hroot⟩, fun _ hkey =>
    ⟨none, pool, Tree.get?_of_empty hroot hkey, fun _ => iff_of_false nofun nofun⟩⟩

theorem Tree.lists_of_verify (ha : tree.Accepted) (hs : pool.Sound gs) (hroom : Room gs 1)
    (hroomy : ∀ q page, WalksTo pool.pages tree.root q → pool.pages q = some page → Roomy page)
    {count : Nat} (hrun : tree.verify pool = .ok count pool') :
    ∃ E, E.length = count ∧ tree.Lists pool' E := by
  by_cases hroot : tree.root = .none
  · rw [Tree.verify, if_pos (Tree.isEmpty_iff.2 hroot)] at hrun
    cases hrun
    exact ⟨[], rfl, Tree.lists_of_empty hroot⟩
  · obtain ⟨hs', hpages, h, t, hr, hu, rfl⟩ := Tree.readable_of_verify ha hs hroomy hroot hrun
    rw [← hpages] at hr
    exact ⟨t.entries, rfl, hr.lists hs' hu hroom⟩

/-- The nodes of a tree that a pool holds are given room enough. -/
theorem Stored.roomy {d : TreePlan} {parent q : PageId} {t : Shape h}
    (hs : Stored d P parent next t)
    (hd : d.Fits) (hq : q ∈ t.pages) (hp : P q = some page) : Roomy page := by
  have hnode : ∀ {h : Nat} {t : Shape h} {parent next : PageId},
      NodeAt d P q parent next t.items → Roomy page := by
    intro h t parent next hn
    obtain ⟨page', hpage, hholds⟩ := hn
    obtain rfl : page' = page := Option.some.inj (hpage.symm.trans hp)
    have hmax : (page'.word 8).toNat = d.max h := hholds.states.maxSize
    have hleast := hd.least h
    have hkind := hholds.states.kind_eq_ok
    refine ⟨fun leaf hblock => ?_, fun node hblock => ?_⟩ <;>
      obtain ⟨rfl, hfound, -⟩ := Node.of_ofBlock hblock
    · cases h with
      | zero =>
        change 2 ≤ (page'.word 8).toNat
        exact hmax ▸ hleast
      | succ h => cases hkind.symm.trans hfound
    · cases h with
      | zero => cases hkind.symm.trans hfound
      | succ h =>
        change 3 ≤ (page'.word 8).toNat
        exact hmax ▸ hleast
  induction h generalizing parent next with
  | zero =>
    obtain rfl : q = t.page := List.mem_singleton.1 hq
    exact hnode hs.node
  | succ h ih =>
    rcases List.mem_cons.1 hq with rfl | hq
    · exact hnode hs.node
    · obtain ⟨i, hi, hin⟩ := List.mem_flatMap.1 hq
      obtain ⟨next', hstored⟩ := Row.of_mem hs.2 hi
      exact ih hstored hin

theorem Tree.Stands.roomy {d : TreePlan} {t : Shape h} (ht : tree.Stands pool gs d t) {q : PageId}
    (hq : WalksTo pool.pages tree.root q) (hp : pool.pages q = some page) : Roomy page := by
  rw [ht.root] at hq
  exact ht.has.stored.roomy ht.follows.fits (ht.readable.legible.walksTo_iff.1 hq) hp

/-! ## A root with two leaves -/

/-- A root with two leaves, of two entries each. -/
def twoLeaves (root a b : PageId) : Shape 1 :=
  Content.node root
    [([0], Content.node a [([10], Content.ofRow ⟨⟨5⟩, 1⟩), ([20], Content.ofRow ⟨⟨5⟩, 2⟩)]),
      ([30], Content.node b [([30], Content.ofRow ⟨⟨5⟩, 3⟩), ([40], Content.ofRow ⟨⟨5⟩, 4⟩)])]

theorem pages_twoLeaves (root a b : PageId) : (twoLeaves root a b).pages = [root, a, b] := by
  simp [twoLeaves, Content.pages, Items.pages]

theorem within_twoLeaves (root a b : PageId) :
    Within .bytewise 0 (KeyOrder.top 1) (twoLeaves root a b) := by
  refine ⟨30, ⟨by decide, ?_, ?_⟩, rfl, KeyOrder.top 1, ⟨by decide, ?_, ?_⟩, rfl⟩
  · rw [Content.items_node, Sorted]
    decide
  · rw [Content.items_node]
    decide
  · rw [Content.items_node, Sorted]
    decide
  · rw [Content.items_node]
    decide

/-- There are bytes for the three pages of such a tree. -/
theorem exists_twoLeaves {d : TreePlan} (hd : d.Fits) (hwidth : d.width = 1) (hmax : d.max 0 = 2)
    {root a b : PageId} (hnd : [root, a, b].Nodup) : ∃ bytes : PageId → Page, ∀ P : PageMap,
      (∀ q ∈ [root, a, b], P q = some (bytes q)) →
        Stored d P .none .none (twoLeaves root a b) := by
  simp only [List.nodup_cons, List.mem_cons, List.not_mem_nil, or_false, not_or] at hnd
  obtain ⟨⟨hra, hrb⟩, hab, -⟩ := hnd
  obtain ⟨node, hnode⟩ := hd.exists_node root .none .none (twoLeaves root a b).items
    (Nat.le_of_succ_le (hd.least 1)) (by simp [twoLeaves, hwidth])
  obtain ⟨left, hleft⟩ := hd.exists_node (h := 0) a root b
    [([10], Content.ofRow ⟨⟨5⟩, 1⟩), ([20], Content.ofRow ⟨⟨5⟩, 2⟩)] hmax.ge (by simp [hwidth])
  obtain ⟨right, hright⟩ := hd.exists_node (h := 0) b root .none
    [([30], Content.ofRow ⟨⟨5⟩, 3⟩), ([40], Content.ofRow ⟨⟨5⟩, 4⟩)] hmax.ge (by simp [hwidth])
  refine ⟨fun q => if q = root then node.page else if q = a then left.page else right.page,
    fun P hP => ⟨.of_holds ?_ hnode, .of_holds ?_ hleft, .of_holds ?_ hright, trivial⟩⟩
  · exact (hP root (by simp)).trans (congrArg some (if_pos rfl))
  · rw [Content.page_node, hP a (by simp)]
    exact congrArg some ((if_neg (Ne.symm hra)).trans (if_pos rfl))
  · rw [Content.page_node, hP b (by simp)]
    exact congrArg some ((if_neg (Ne.symm hrb)).trans (if_neg (Ne.symm hab)))

/-! ## Trees of unknown origin -/

/-- **What `verify` answers can be relied on.** On a new file, after any use of the pool, so that
its pages may have any bytes, and for any page as the root: if the nodes that can be reached from
there are given room for two entries or three children, and one frame is free of guards, then a tree
that verifies has as many entries as it answered, a walk yields them in increasing key order, and
every lookup agrees with them. -/
theorem Tree.verify_sound {config : PoolConfig} {disk : SpaceConfig}
    (hconfig : config.validate = .ok ())
    (hdisk : disk.validate = .ok ()) {v : Volume} (hv : v.openFile = .ok {}) (uses : List PoolCall)
    {order : KeyOrder} {keySize : Nat} {limits : TreeConfig} {tree : Tree}
    (htree : Tree.create order keySize limits = .ok tree) (root : PageId) :
    ∃ o, OpenPool.start config disk v = .ok o ∧ (Room (o.after uses).guards 1 →
      (∀ q page, WalksTo (o.after uses).pool.pages root q →
        (o.after uses).pool.pages q = some page →
        Roomy page) →
      ∀ count pool, { tree with root }.verify (o.after uses).pool = .ok count pool →
        ∃ E, E.length = count ∧ { tree with root }.Lists pool E) := by
  obtain ⟨o, hstart, -, h⟩ := OpenPool.start_fresh hconfig hdisk hv
  refine ⟨o, hstart, fun hroom hroomy count pool hrun => ?_⟩
  have haccepted := (Tree.accepted_of_create htree).1.withRoot root
  exact Tree.lists_of_verify haccepted (OpenPool.sound_after h uses) hroom hroomy hrun

/-- A pool with one frame, in which three pages get the bytes of a root and its two leaves. -/
theorem Tree.verify_sound_one : ∃ o uses used tree root a b d pool,
    OpenPool.start ⟨1, .lru⟩ ⟨1⟩ .missing = .ok o ∧ o.after uses = used ∧
    Tree.create .bytewise 1 ⟨some 2, some 3⟩ = .ok tree ∧
    { tree with root }.Stands used.pool used.guards d (twoLeaves root a b) ∧
    { tree with root }.verify used.pool = .ok 4 pool ∧
    ∃ E, E.length = 4 ∧ { tree with root }.Lists pool E := by
  obtain ⟨o, hstart, hframes, -⟩ := @OpenPool.start_fresh ⟨1, .lru⟩ ⟨1⟩ rfl rfl .missing rfl
  have hroom : Room ([] : List (Guard o.frames)) 1 := hframes.ge
  obtain ⟨l, hlen, hnd, hbytes⟩ :=
    OpenPool.exists_chosen (k := 3) rfl rfl rfl hstart (Nat.le_refl 1) (by decide)
  obtain ⟨root, a, b, rfl⟩ := List.length_eq_three.1 hlen
  have htree : Tree.create .bytewise 1 ⟨some 2, some 3⟩ =
      .ok ⟨.none, .bytewise, 1, ⟨2, 3⟩, none⟩ := rfl
  obtain ⟨haccepted, -⟩ := Tree.accepted_of_create htree
  have hf := haccepted.follows_first
  obtain ⟨bytes, hstored⟩ := exists_twoLeaves hf.fits rfl rfl hnd
  obtain ⟨uses, used, huses, hs, hpages⟩ := hbytes bytes
  have hstands : Tree.Stands ⟨root, .bytewise, 1, ⟨2, 3⟩, none⟩ used []
      (Tree.planFrom ⟨.none, .bytewise, 1, ⟨2, 3⟩, none⟩ 0 fun _ => 0) (twoLeaves root a b) := by
    refine ⟨hf.withRoot root, rfl, ⟨hs, hstored _ hpages, ?_, List.forall_mem_nil _⟩,
      within_twoLeaves root a b, Nat.le_refl 2, Nat.le_succ 2, ?_⟩
    · rw [pages_twoLeaves]
      exact hnd
    · exact filled_cons.2 ⟨⟨Nat.le_succ 1, Nat.le_refl 2, trivial⟩,
        filled_cons.2 ⟨⟨Nat.le_succ 1, Nat.le_refl 2, trivial⟩, List.forall_mem_nil _⟩⟩
  obtain ⟨pool, hverify, -⟩ := hstands.verify_eq_ok hroom
  obtain ⟨o', hstart', h⟩ := @Tree.verify_sound ⟨1, .lru⟩ ⟨1⟩ rfl rfl .missing rfl uses .bytewise 1
    ⟨some 2, some 3⟩ _ htree root
  obtain rfl : o = o' := Except.ok.inj (hstart.symm.trans hstart')
  rw [huses] at h
  exact ⟨o, uses, ⟨_, _, used, _⟩, _, root, a, b, _, pool, hstart, huses, htree, hstands, hverify,
    h hroom (fun q page hq hp => hstands.roomy hq hp) 4 pool hverify⟩

end PageStore
