import PageStore.Proofs.Tree.Shape

/-!
# Where the bytes of a tree are

`Stored` says that pages hold the nodes of a shape: every node states its own page, its parent and
its largest size, and every leaf states the next leaf. The parent of the topmost node and the leaf
behind the last one are given, so that a part of a tree can be looked at by itself.

`Trades` says which pages an action touches: it took the pages `old` and left the pages `new` in
their place.
-/

namespace PageStore

/-- The pages that are allocated, with their bytes. -/
abbrev PageMap : Type := PageId → Option Page

/-! ## Rows of subtrees -/

section Row

variable {α : Type} (first : α → PageId) (S S' : PageId → α → Prop)

/-- The first leaf of a row of subtrees, or the leaf behind the row if it is empty. -/
def rowHead (next : PageId) : List (Key × α) → PageId
  | [] => next
  | i :: _ => first i.2

/-- Each subtree of the row is followed by the first leaf of the one behind it. -/
def Row (next : PageId) : List (Key × α) → Prop
  | [] => True
  | i :: l => S (rowHead first next l) i.2 ∧ Row next l

variable {first S S'} {next : PageId} {l l' : List (Key × α)}

theorem rowHead_append :
    rowHead first next (l ++ l') = rowHead first (rowHead first next l') l := by
  cases l <;> rfl

theorem row_append : Row first S next (l ++ l') ↔
    Row first S (rowHead first next l') l ∧ Row first S next l' := by
  induction l with
  | nil => exact iff_of_eq (true_and _).symm
  | cons i l ih => rw [List.cons_append, Row, ih, rowHead_append, Row, and_assoc]

theorem Row.imp (h : Row first S next l) (hS : ∀ i ∈ l, ∀ next, S next i.2 → S' next i.2) :
    Row first S' next l := by
  induction l with
  | nil => trivial
  | cons i l ih =>
    exact ⟨hS i List.mem_cons_self _ h.1, ih h.2 fun j hj => hS j (.tail _ hj)⟩

theorem Row.of_mem (h : Row first S next l) {i : Key × α} (hi : i ∈ l) : ∃ next, S next i.2 := by
  induction l with
  | nil => cases hi
  | cons j l ih =>
    rcases List.mem_cons.1 hi with rfl | hi
    · exact ⟨_, h.1⟩
    · exact ih h.2 hi

end Row

/-! ## Nodes in pages -/

variable {d d' : TreePlan} {P P' P'' : PageMap} {h : Nat} {p parent next : PageId}
  {l l' : Items h} {t : Shape h}

/-- What an item stores behind its key. -/
def Content.payload : {h : Nat} → Content h → (levelKind h).Payload
  | 0, row => row
  | _ + 1, t => t.page

/-- The stored record of an item. -/
def Items.record (i : Key × Content h) : Record (levelKind h) := (i.1, i.2.payload)

/-- The stored records of items. -/
def Items.records (l : Items h) : List (Record (levelKind h)) := l.map record

/-- What the header of a node states. Only leaves state the next leaf. -/
def TreePlan.header (d : TreePlan) (h : Nat) (p parent next : PageId) : Header where
  id := p
  parent := parent
  next := match h with
    | 0 => next
    | _ + 1 => .none
  maxSize := d.max h
  width := d.width

/-- The page holds a node with these items. -/
def NodeAt (d : TreePlan) (P : PageMap) (p parent next : PageId) (l : Items h) : Prop :=
  ∃ page, P p = some page ∧
    (⟨page, d.width⟩ : Node (levelKind h)).Holds (d.header h p parent next) l.records

/-- A page that was written holds the node that was written. -/
theorem NodeAt.of_holds {node : Node (levelKind h)} {l : Items h} (hp : P p = some node.page)
    (hn : node.Holds (d.header h p parent next) l.records) : NodeAt d P p parent next l := by
  refine ⟨node.page, hp, ?_⟩
  have hkey : d.width = node.keySize := hn.states.keySize.symm
  rw [hkey]
  exact hn

/-- The first leaf of a subtree. -/
def Content.first : {h : Nat} → Shape h → PageId
  | 0, t => t.page
  | _ + 1, t => rowHead first t.page t.items

/-- The pages hold the nodes of a subtree. -/
def Stored (d : TreePlan) (P : PageMap) : {h : Nat} → PageId → PageId → Shape h → Prop
  | 0, parent, next, t => NodeAt d P t.page parent next t.items
  | _ + 1, parent, next, t => NodeAt d P t.page parent next t.items ∧
    Row Content.first (Stored d P t.page) next t.items

/-- The first leaf below items, or the leaf behind them. -/
def Items.head : {h : Nat} → PageId → Items h → PageId
  | 0, next, _ => next
  | _ + 1, next, l => rowHead Content.first next l

/-- The pages hold the subtrees below items that are in one node. -/
def Linked (d : TreePlan) (P : PageMap) : {h : Nat} → PageId → PageId → Items h → Prop
  | 0, _, _, _ => True
  | _ + 1, parent, next, l => Row Content.first (Stored d P parent) next l

theorem stored_iff : Stored d P parent next t ↔
    NodeAt d P t.page parent next t.items ∧ Linked d P t.page next t.items := by
  cases h with
  | zero => exact iff_of_eq (and_true _).symm
  | succ h => exact Iff.rfl

theorem linked_append :
    Linked d P parent next (l ++ l') ↔ Linked d P parent (l'.head next) l ∧
    Linked d P parent next l' := by
  cases h with
  | zero => exact (and_self_iff).symm
  | succ h => exact row_append

theorem linked_cons {i : Key × Shape h} {l : Items (h + 1)} : Linked d P parent next (i :: l) ↔
    Stored d P parent (l.head next) i.2 ∧ Linked d P parent next l := Iff.rfl

theorem Items.head_append : (l ++ l').head next = l.head (l'.head next) := by
  cases h with
  | zero => rfl
  | succ h => exact rowHead_append

/-- The first leaf below a node is the first one below its items. -/
theorem Content.first_append (p : PageId) (l' : Items h) (hl : 0 < h → l ≠ []) :
    (Content.node p (l ++ l')).first = (Content.node p l).first := by
  cases h with
  | zero => rfl
  | succ h =>
    match l, hl (Nat.succ_pos h) with
    | i :: l, _ => rfl

@[simp] theorem linked_rejoin {key : Key} :
    Linked d P parent next (l.rejoin key) ↔ Linked d P parent next l := by
  cases h with
  | zero => exact Iff.rfl
  | succ h => cases l <;> exact Iff.rfl

@[simp] theorem Items.head_rejoin {key : Key} : (l.rejoin key).head next = l.head next := by
  cases h with
  | zero => rfl
  | succ h => cases l <;> rfl

/-- A leaf does not matter to the items of the leaf before. -/
theorem linked_first (hl' : 0 < h → l' ≠ []) :
    Linked d P parent (Content.node p l').first l ↔ Linked d P parent (l'.head next) l := by
  cases h with
  | zero => exact Iff.rfl
  | succ h =>
    match l', hl' (Nat.succ_pos h) with
    | i :: l', _ => exact Iff.rfl

theorem Items.records_append : (l ++ l').records = l.records ++ l'.records := List.map_append

@[simp] theorem Items.length_records : l.records.length = l.length := List.length_map _

/-! ## Pages that are kept -/

theorem NodeAt.congr (hn : NodeAt d P p parent next l) (hp : P' p = P p) :
    NodeAt d P' p parent next l := by
  obtain ⟨page, hpage, hholds⟩ := hn
  exact ⟨page, hp.trans hpage, hholds⟩

/-- **Frame.** A subtree stays where its pages stay as they are. -/
theorem Stored.congr (hs : Stored d P parent next t) (hP : ∀ q ∈ t.pages, P' q = P q) :
    Stored d P' parent next t := by
  induction h generalizing parent next with
  | zero => exact NodeAt.congr hs (hP _ List.mem_cons_self)
  | succ h ih =>
    obtain ⟨hnode, hrow⟩ := hs
    refine ⟨hnode.congr (hP _ List.mem_cons_self), hrow.imp fun i hi next hstored => ?_⟩
    refine ih hstored fun q hq => hP q (.tail _ ?_)
    exact List.mem_flatMap.2 ⟨i, hi, hq⟩

theorem Linked.congr (hs : Linked d P parent next l) (hP : ∀ q ∈ l.pages, P' q = P q) :
    Linked d P' parent next l := by
  cases h with
  | zero => trivial
  | succ h =>
    exact Row.imp hs fun i hi next hstored => hstored.congr fun q hq =>
      hP q (List.mem_flatMap.2 ⟨i, hi, hq⟩)

/-- Largest sizes above a subtree do not matter to it. -/
theorem Stored.of_max (hs : Stored d P parent next t) (hw : d'.width = d.width)
    (hmax : ∀ k ≤ h, d'.max k = d.max k) : Stored d' P parent next t := by
  have hnode : ∀ {k : Nat} {p parent next : PageId} {l : Items k}, k ≤ h →
      NodeAt d P p parent next l → NodeAt d' P p parent next l := fun hk hn => by
    obtain ⟨page, hpage, hholds⟩ := hn
    refine ⟨page, hpage, ?_⟩
    unfold TreePlan.header at hholds ⊢
    rw [hw, hmax _ hk]
    exact hholds
  induction h generalizing parent next with
  | zero => exact hnode (Nat.le_refl _) hs
  | succ h ih =>
    refine ⟨hnode (Nat.le_refl _) hs.1, hs.2.imp fun i _ next hstored => ?_⟩
    exact ih hstored (fun k hk => hmax k (Nat.le_succ_of_le hk)) fun hk =>
      hnode (Nat.le_succ_of_le hk)

theorem Stored.allocated (hs : Stored d P parent next t) : ∀ q ∈ t.pages, P q ≠ none := by
  induction h generalizing parent next with
  | zero =>
    obtain ⟨page, hpage, -⟩ := hs
    intro q hq
    rw [List.mem_singleton.1 hq, hpage]
    exact Option.some_ne_none page
  | succ h ih =>
    obtain ⟨⟨page, hpage, -⟩, hrow⟩ := hs
    intro q hq
    rcases List.mem_cons.1 hq with rfl | hq
    · rw [hpage]
      exact Option.some_ne_none page
    · obtain ⟨i, hi, hq⟩ := List.mem_flatMap.1 hq
      obtain ⟨next, hstored⟩ := hrow.of_mem hi
      exact ih hstored q hq

theorem Linked.allocated (hs : Linked d P parent next l) : ∀ q ∈ l.pages, P q ≠ none := by
  cases h with
  | zero => exact nofun
  | succ h =>
    intro q hq
    obtain ⟨i, hi, hq⟩ := List.mem_flatMap.1 hq
    obtain ⟨next, hstored⟩ := Row.of_mem hs hi
    exact hstored.allocated q hq

/-! ## Pages that change -/

/-- Between two page maps the pages `old` were given for the pages `new`, and nothing else
changed: what is new was free, and what is given up is free. -/
structure Trades (P P' : PageMap) (old new : List PageId) : Prop where
  others : ∀ q, q ∉ old → q ∉ new → P' q = P q
  fresh : ∀ q ∈ new, q ∉ old → P q = none
  freed : ∀ q ∈ old, q ∉ new → P' q = none

namespace Trades

variable {old mid new : List PageId} {q : PageId}

theorem refl (P : PageMap) (l : List PageId) : Trades P P l l where
  others _ _ _ := rfl
  fresh _ hin hout := absurd hin hout
  freed _ hin hout := absurd hin hout

theorem trans (ht : Trades P P' old mid) (ht' : Trades P' P'' mid new) : Trades P P'' old new where
  others q hold hnew := by
    by_cases hmid : q ∈ mid
    · rw [ht.fresh q hmid hold, ht'.freed q hmid hnew]
    · rw [ht'.others q hmid hnew, ht.others q hold hmid]
  fresh q hnew hold := by
    by_cases hmid : q ∈ mid
    · exact ht.fresh q hmid hold
    · rw [← ht.others q hold hmid, ht'.fresh q hnew hmid]
  freed q hold hnew := by
    by_cases hmid : q ∈ mid
    · exact ht'.freed q hmid hnew
    · rw [ht'.others q hmid hnew, ht.freed q hold hmid]

/-- Only membership counts. -/
theorem of_mem {old' new' : List PageId} (ht : Trades P P' old new) (ho : ∀ q, q ∈ old' ↔ q ∈ old)
    (hn : ∀ q, q ∈ new' ↔ q ∈ new) : Trades P P' old' new' where
  others q hold hnew := ht.others q ((ho q).not.1 hold) ((hn q).not.1 hnew)
  fresh q hnew hold := ht.fresh q ((hn q).1 hnew) ((ho q).not.1 hold)
  freed q hold hnew := ht.freed q ((ho q).1 hold) ((hn q).not.1 hnew)

/-- **Frame.** More pages that stay. -/
theorem frame (ht : Trades P P' old new) (pre post : List PageId) :
    Trades P P' (pre ++ old ++ post) (pre ++ new ++ post) := by
  refine ⟨fun q hold hnew => ?_, fun q hnew hold => ?_, fun q hold hnew => ?_⟩ <;>
    simp only [List.mem_append, not_or] at hold hnew
  · exact ht.others q hold.1.2 hnew.1.2
  · exact ht.fresh q (hnew.resolve_right hold.2 |>.resolve_left hold.1.1) hold.1.2
  · exact ht.freed q (hold.resolve_right hnew.2 |>.resolve_left hnew.1.1) hnew.1.2

/-- Pages that change and stay. -/
theorem inside {l : List PageId} (h : ∀ q, q ∉ l → P' q = P q) : Trades P P' l l where
  others q hout _ := h q hout
  fresh _ hin hout := absurd hin hout
  freed _ hin hout := absurd hin hout

/-- Allocating a page. -/
theorem allocate (hp : P p = none) (l : List PageId) (page : Page) :
    Trades P (Function.update P p (some page)) l (p :: l) where
  others q _ hout := Function.update_of_ne (fun (e : q = p) => hout (e ▸ List.mem_cons_self)) ..
  fresh q hin hout := by
    rcases List.mem_cons.1 hin with rfl | hin
    · exact hp
    · exact absurd hin hout
  freed _ hin hout := absurd (.tail _ hin) hout

/-- Freeing a page. -/
theorem free (P : PageMap) (p : PageId) (l : List PageId) :
    Trades P (Function.update P p none) (p :: l) l where
  others q hout _ := Function.update_of_ne (fun (e : q = p) => hout (e ▸ List.mem_cons_self)) ..
  fresh _ hin hout := absurd (.tail _ hin) hout
  freed q hin hout := by
    rcases List.mem_cons.1 hin with rfl | hin
    · exact Function.update_self ..
    · exact absurd hin hout

/-- Another allocated page is not touched. -/
theorem kept (ht : Trades P P' old new) (hold : q ∉ old) (hq : P q ≠ none) :
    q ∉ new ∧ P' q = P q := by
  have hnew : q ∉ new := fun hnew => hq (ht.fresh q hnew hold)
  exact ⟨hnew, ht.others q hold hnew⟩

/-- No page comes twice, when none did before. -/
theorem nodup {pre post : List PageId} (ht : Trades P P' old new) (hnew : new.Nodup)
    (hall : (pre ++ old ++ post).Nodup) (hP : ∀ q, q ∈ pre ∨ q ∈ post → P q ≠ none) :
    (pre ++ new ++ post).Nodup := by
  simp only [List.nodup_append, List.mem_append] at hall ⊢
  obtain ⟨⟨hpre, -, hpo⟩, hpost, hrest⟩ := hall
  refine ⟨⟨hpre, hnew, ?_⟩, hpost, ?_⟩
  · rintro a ha _ hb rfl
    exact (ht.kept (fun ho => hpo a ha a ho rfl) (hP a (.inl ha))).1 hb
  · rintro a (ha | ha) _ hb rfl
    · exact hrest a (.inl ha) a hb rfl
    · exact (ht.kept (fun ho => hrest a (.inr ho) a hb rfl) (hP a (.inr hb))).1 ha

end Trades

/-- **Replacing subtrees** in a row by others that start with the same leaf. -/
theorem Linked.replace {pre mid post : Items h} (mid' : Items h)
    (hl : Linked d P parent next (pre ++ mid ++ post))
    (hkept : ∀ q, q ∈ pre.pages ∨ q ∈ post.pages → P' q = P q)
    (hmid : Linked d P' parent (post.head next) mid')
    (hhead : mid'.head (post.head next) = mid.head (post.head next)) :
    Linked d P' parent next (pre ++ mid' ++ post) := by
  rw [linked_append, linked_append] at hl ⊢
  obtain ⟨⟨hpre, -⟩, hpost⟩ := hl
  refine ⟨⟨?_, hmid⟩, hpost.congr fun q hq => hkept q (.inr hq)⟩
  rw [hhead]
  exact hpre.congr fun q hq => hkept q (.inl hq)

end PageStore
