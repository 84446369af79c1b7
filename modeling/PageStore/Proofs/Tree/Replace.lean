import PageStore.Proofs.Tree.Stored

/-!
# Replacing a child

An insertion or a removal below a node leaves one of its children changed, perhaps with a new node
behind it. `Housed` says what has come of the child, and `Hangs.replace` what the node is left with:
items that still hang below its page, which it has to take.
-/

namespace PageStore

variable {d : TreePlan} {P P' : PageMap} {h : Nat} {p parent next : PageId} {lo hi least : Nat}

/-- The subtrees below items are stored, and the items have the range of the node in page `p`. -/
structure Hangs (d : TreePlan) (P : PageMap) (p next : PageId) (lo hi : Nat) (l : Items h) :
    Prop where
  linked : Linked d P p next l
  ordered : Ordered d.order lo hi l
  nodup : (p :: l.pages).Nodup

/-- A node with the page `p` and the first leaf `f` became `l`, together with one more node if that
was not enough. The two have the range of the node and the entries `E`. -/
structure Housed (d : TreePlan) (P : PageMap) (parent next : PageId) (lo hi least : Nat)
    (p f : PageId) (E : List (Key × RowId)) (l : Shape h) (rest : Items (h + 1)) : Prop where
  page : l.page = p
  first : l.first = f
  entries : l.entries ++ Items.entries rest = E
  one : rest.length ≤ 1
  width : ∀ i ∈ rest, i.1.length = d.width
  stored : Stored d P parent (Items.head next rest) l
  linked : Linked d P parent next rest
  range : ∃ mid, Within d.order lo mid l ∧ Chain d.order (Within d.order) mid hi rest
  size : l.Sized d (if rest = [] then least else d.min h)
  filled : Filled d rest
  nodup : (l.pages ++ Items.pages rest).Nodup

theorem Hangs.housed {l : Items h} (hh : Hangs d P p next lo hi l)
    (hnode : NodeAt d P p parent next l)
    (hfilled : Filled d l) (hleast : least ≤ l.length) (hmost : l.length ≤ d.max h) :
    Housed d P parent next lo hi least p (Content.node p l).first l.entries
      (Content.node p l) [] where
  page := rfl
  first := rfl
  entries := List.append_nil _
  one := Nat.zero_le _
  width := nofun
  stored := stored_iff.2 ⟨hnode, hh.linked⟩
  linked := trivial
  range := ⟨hi, hh.ordered, rfl⟩
  size := ⟨hleast, hmost, hfilled⟩
  filled := nofun
  nodup := by
    rw [Items.pages_nil, List.append_nil]
    exact hh.nodup

variable {pre post rest : Items (h + 1)} {i : Key × Shape h} {l : Shape h} {a b : Nat}
  {E : List (Key × RowId)}

/-- **Replacing a child** by what it became. -/
theorem Hangs.replace (hh : Hangs d P p next lo hi (pre ++ i :: post)) (hp : P p ≠ none)
    (hole : Hole d.order (Within d.order) lo hi pre i.1 post a b)
    (ht : Trades P P' i.2.pages (l.pages ++ rest.pages))
    (hc : Housed d P' p (post.head next) a b least i.2.page i.2.first E l rest) :
    Hangs d P' p next lo hi (pre ++ (i.1, l) :: (rest ++ post)) ∧
      Trades P P' (p :: Items.pages (pre ++ i :: post))
        (p :: Items.pages (pre ++ (i.1, l) :: (rest ++ post))) ∧ P' p = P p := by
  have hold : p :: Items.pages (pre ++ i :: post) =
      (p :: Items.pages pre) ++ i.2.pages ++ Items.pages post := by
    rw [Items.pages_append, Items.pages_cons, List.cons_append, List.cons_append, List.append_assoc]
  have hnew : p :: Items.pages (pre ++ (i.1, l) :: (rest ++ post)) =
      (p :: Items.pages pre) ++ (l.pages ++ rest.pages) ++ Items.pages post := by
    simp only [Items.pages_append, Items.pages_cons, List.cons_append, List.append_assoc]
  obtain ⟨hlinked, hordered, hnd⟩ := hh
  have hmid : pre ++ i :: post = pre ++ [i] ++ post := by rw [List.append_assoc]; rfl
  have hbeside : ∀ q, q ∈ p :: Items.pages pre ∨ q ∈ Items.pages post → P q ≠ none := fun q hq => by
    rcases hq with hq | hq
    · rcases List.mem_cons.1 hq with rfl | hq
      · exact hp
      · exact (linked_append.1 hlinked).1.allocated q hq
    · exact (linked_cons.1 (linked_append.1 hlinked).2).2.allocated q hq
  rw [hold] at hnd
  have hapart : ∀ q, q ∈ p :: Items.pages pre ∨ q ∈ Items.pages post → q ∉ i.2.pages := by
    rw [List.nodup_append, List.nodup_append] at hnd
    obtain ⟨⟨-, -, hleft⟩, -, hright⟩ := hnd
    rintro q (hq | hq) hin
    · exact hleft q hq q hin rfl
    · exact hright q (List.mem_append_right _ hin) q hq rfl
  have hkept := fun q hq => (ht.kept (hapart q hq) (hbeside q hq)).2
  refine ⟨⟨?_, hole.fill (i := (i.1, l)) hc.range, ?_⟩, ?_, hkept p (.inl List.mem_cons_self)⟩
  · rw [hmid] at hlinked
    have := Linked.replace ((i.1, l) :: rest) hlinked
      (fun q hq => hkept q (hq.imp_left (.tail _))) (linked_cons.2 ⟨hc.stored, hc.linked⟩) hc.first
    rwa [List.append_assoc] at this
  · rw [hnew]
    exact ht.nodup hc.nodup hnd hbeside
  · rw [hold, hnew]
    exact ht.frame _ _

/-- A child in the same page has the same record. -/
theorem Items.record_eq (hl : l.page = i.2.page) : Items.record (i.1, l) = Items.record i :=
  congrArg (Prod.mk i.1) hl

theorem Items.records_child (hl : l.page = i.2.page) :
    Items.records (pre ++ (i.1, l) :: post) = Items.records (pre ++ i :: post) := by
  rw [Items.records_append, Items.records_append]
  exact congrArg (fun r => Items.records pre ++ r :: Items.records post) (Items.record_eq hl)

/-- The record of the child is the same. -/
theorem Housed.nodeAt (hc : Housed d P' p next a b least i.2.page i.2.first E l rest)
    {next : PageId} (hn : NodeAt d P p parent next (pre ++ i :: post)) (hp : P' p = P p) :
    NodeAt d P' p parent next (pre ++ (i.1, l) :: post) := by
  obtain ⟨page, hpage, hholds⟩ := hn.congr hp
  refine ⟨page, hpage, ?_⟩
  rw [Items.records_child hc.page]
  exact hholds

/-- The node still starts with the same leaf. -/
theorem Housed.first_eq (hc : Housed d P' parent next a b least i.2.page i.2.first E l rest)
    (p : PageId) (pre post : Items (h + 1)) :
    (Content.node p (pre ++ (i.1, l) :: (rest ++ post))).first =
      (Content.node p (pre ++ i :: post)).first := by
  cases pre with
  | nil => exact hc.first
  | cons j pre => rfl

/-- The entries of the child are replaced. -/
theorem Housed.entries_eq (hc : Housed d P' p next a b least i.2.page i.2.first E l rest)
    (pre post : Items (h + 1)) :
    Items.entries (pre ++ (i.1, l) :: (rest ++ post)) = pre.entries ++ E ++ post.entries := by
  rw [Items.entries_append, Items.entries_cons, Items.entries_append, ← hc.entries]
  simp only [List.append_assoc]

end PageStore
