import PageStore.Proofs.Tree.Spans

/-!
# The shape of a tree

A `Shape h` is a tree of height `h` without its bytes: each node is a page and a list of items, and
an item is a key with what it leads to, a row at height 0 and a node one level down above that.

What makes a shape a search tree is split into two properties, which survive different things:
`Ordered` is about keys and knows no sizes, `Filled` is about sizes and knows no keys. Both are
properties of the items of a node, so that items which move from a node to its neighbour take them
along.
-/

namespace PageStore

/-! ## Shapes -/

/-- A node: its page and its items. -/
structure NodeView (α : Type) where
  page : PageId
  items : List (Key × α)

/-- What the items of a node at this height lead to. -/
def Content : Nat → Type
  | 0 => RowId
  | h + 1 => NodeView (Content h)

/-- A node at this height, with everything below it. -/
abbrev Shape (h : Nat) : Type := Content (h + 1)

/-- The items of a node at this height. -/
abbrev Items (h : Nat) : Type := List (Key × Content h)

/-- What all nodes of a tree agree in. Nodes at one height have one largest size. -/
structure TreePlan where
  /-- how keys are ordered -/
  order : KeyOrder
  /-- width of the keys in bytes -/
  width : Nat
  /-- the largest number of items at each height -/
  max : Nat → Nat

/-- The kind of the nodes at this height. -/
abbrev levelKind : Nat → NodeKind
  | 0 => .leaf
  | _ + 1 => .internal

/-- The least largest size of a node at this height. -/
def leastMax : Nat → Nat
  | 0 => 2
  | _ + 1 => 3

/-- A node of every height can split in two, and has room for one item more than its largest
size. -/
structure TreePlan.Fits (d : TreePlan) : Prop where
  width : 0 < d.width
  least : ∀ h, leastMax h ≤ d.max h
  most : ∀ h, d.max h ≤ (levelKind h).capacity d.width

/-- The least number of items of a node at this height that is not a root. -/
def TreePlan.min (d : TreePlan) (h : Nat) : Nat := minSize (d.max h)

variable {d : TreePlan} {o : KeyOrder} {h : Nat} {lo hi : Nat} {key : Key} {l l' : Items h}

namespace Content

/-- A row, as what an item of a leaf leads to. -/
def ofRow (row : RowId) : Content 0 := row

/-- A node with a page and items. -/
def node (p : PageId) (items : Items h) : Shape h := NodeView.mk p items

/-- The page of a node. -/
def page (t : Shape h) : PageId := NodeView.page t

/-- The items of a node. -/
def items (t : Shape h) : Items h := NodeView.items t

@[simp] theorem page_node (p : PageId) (items : Items h) : (node p items).page = p := rfl

@[simp] theorem items_node (p : PageId) (items : Items h) : (node p items).items = items := rfl

end Content

namespace Items

/-- The entries below a node, from left to right. -/
def entries : {h : Nat} → Items h → List (Key × RowId)
  | 0, items => items
  | _ + 1, items => items.flatMap fun i => entries i.2.items

/-- The pages below a node. -/
def pages : {h : Nat} → Items h → List PageId
  | 0, _ => []
  | _ + 1, items => items.flatMap fun i => i.2.page :: pages i.2.items

/-- The items with another key for the first child. Entries keep their keys. -/
def rejoin (key : Key) : {h : Nat} → Items h → Items h
  | 0, items => items
  | _ + 1, items => rekey key items

end Items

namespace Content

/-- The entries of a node and below, from left to right. -/
def entries (t : Shape h) : List (Key × RowId) := Items.entries t.items

/-- The pages of a node and below. -/
def pages (t : Shape h) : List PageId := t.page :: Items.pages t.items

end Content

/-! ## Order -/

/-- The keys below a node increase, and lie in a range that the children divide between them. -/
def Ordered (o : KeyOrder) : {h : Nat} → Nat → Nat → Items h → Prop
  | 0, lo, hi, items => lo < hi ∧ Sorted o items ∧ ∀ e ∈ items, lo ≤ o.rank e.1 ∧ o.rank e.1 < hi
  | h + 1, lo, hi, items => Spans o (fun lo hi (t : Shape h) => Ordered o lo hi t.items) lo hi items

/-- The keys of a node and below lie in a range. -/
abbrev Within (o : KeyOrder) (lo hi : Nat) (t : Shape h) : Prop := Ordered o lo hi t.items

/-! ## Sizes -/

/-- Every node below has at least its least number of items, and at most its largest. -/
def Filled (d : TreePlan) : {h : Nat} → Items h → Prop
  | 0, _ => True
  | h + 1, items => ∀ i ∈ items,
    d.min h ≤ i.2.items.length ∧ i.2.items.length ≤ d.max h ∧ Filled d i.2.items

/-- A node has at least `least` items and at most its largest number of them, and the nodes below
are filled. -/
structure Content.Sized (d : TreePlan) (least : Nat) (t : Shape h) : Prop where
  least : least ≤ t.items.length
  most : t.items.length ≤ d.max h
  below : Filled d t.items

/-! ## Items in a row -/

namespace Items

@[simp] theorem entries_nil : entries (h := h) [] = [] := by
  cases h <;> rfl

@[simp] theorem pages_nil : pages (h := h) [] = [] := by
  cases h <;> rfl

theorem entries_append (l l' : Items h) : entries (l ++ l') = entries l ++ entries l' := by
  cases h with
  | zero => rfl
  | succ h => exact List.flatMap_append

theorem pages_append (l l' : Items h) : pages (l ++ l') = pages l ++ pages l' := by
  cases h with
  | zero => rfl
  | succ h => exact List.flatMap_append

theorem entries_cons (i : Key × Shape h) (l : Items (h + 1)) :
    entries (i :: l) = i.2.entries ++ entries l := List.flatMap_cons

theorem pages_cons (i : Key × Shape h) (l : Items (h + 1)) :
    pages (i :: l) = i.2.pages ++ pages l := List.flatMap_cons

theorem page_mem_pages {i : Key × Shape h} {l : Items (h + 1)} (hi : i ∈ l) : i.2.page ∈ pages l :=
  List.mem_flatMap.2 ⟨i, hi, List.mem_cons_self⟩

@[simp] theorem entries_rejoin (key : Key) (l : Items h) : entries (rejoin key l) = entries l := by
  cases h with
  | zero => rfl
  | succ h => cases l <;> rfl

@[simp] theorem pages_rejoin (key : Key) (l : Items h) : pages (rejoin key l) = pages l := by
  cases h with
  | zero => rfl
  | succ h => cases l <;> rfl

@[simp] theorem length_rejoin (key : Key) (l : Items h) : (rejoin key l).length = l.length := by
  cases h with
  | zero => rfl
  | succ h => cases l <;> rfl

end Items

theorem filled_append : Filled d (l ++ l') ↔ Filled d l ∧ Filled d l' := by
  cases h with
  | zero => simp [Filled]
  | succ h => exact List.forall_mem_append

theorem filled_cons {i : Key × Shape h} {l : Items (h + 1)} :
    Filled d (i :: l) ↔ i.2.Sized d (d.min h) ∧ Filled d l := by
  refine List.forall_mem_cons.trans (and_congr_left' ⟨?_, ?_⟩)
  · rintro ⟨hleast, hmost, hbelow⟩
    exact ⟨hleast, hmost, hbelow⟩
  · rintro ⟨hleast, hmost, hbelow⟩
    exact ⟨hleast, hmost, hbelow⟩

theorem filled_rejoin : Filled d (Items.rejoin key l) ↔ Filled d l := by
  cases h with
  | zero => rfl
  | succ h =>
    cases l with
    | nil => rfl
    | cons i l => exact filled_cons.trans (filled_cons (i := i)).symm

/-! ## What order gives -/

theorem Ordered.lt (hs : Ordered o lo hi l) : lo < hi := by
  induction h generalizing lo hi with
  | zero => exact hs.1
  | succ h ih => exact Spans.lt (fun _ _ _ => ih) hs

theorem within_lt (lo hi : Nat) (t : Shape h) (hs : Within o lo hi t) : lo < hi := hs.lt

/-- Entries in key order, in a range. -/
def Ranged (o : KeyOrder) (lo hi : Nat) (l : List (Key × RowId)) : Prop :=
  Sorted o l ∧ ∀ e ∈ l, lo ≤ o.rank e.1 ∧ o.rank e.1 < hi

theorem Ranged.append {mid : Nat} {l l' : List (Key × RowId)} (hl : Ranged o lo mid l)
    (hl' : Ranged o mid hi l') (hlo : lo ≤ mid) (hhi : mid ≤ hi) : Ranged o lo hi (l ++ l') := by
  refine ⟨List.pairwise_append.2 ⟨hl.1, hl'.1, fun a ha b hb => ?_⟩,
    List.forall_mem_append.2 ⟨fun e he => ?_, fun e he => ?_⟩⟩
  · have := hl.2 a ha
    have := hl'.2 b hb
    omega
  · have := hl.2 e he
    omega
  · have := hl'.2 e he
    omega

/-- The entries of a chain are those of its items in a row. -/
theorem chain_ranged (hP : ∀ lo hi (t : Shape h), Within o lo hi t → Ranged o lo hi t.entries)
    {l : Items (h + 1)} (hl : Chain o (Within o) lo hi l) : Ranged o lo hi l.entries := by
  induction l generalizing lo with
  | nil => exact ⟨.nil, nofun⟩
  | cons i l ih =>
    obtain ⟨-, mid, hi, hrest⟩ := hl
    rw [Items.entries_cons]
    exact (hP _ _ _ hi).append (ih hrest) (Nat.le_of_lt hi.lt) (hrest.le within_lt)

/-- **The entries are in key order** and lie in the range. -/
theorem Ordered.entries (hs : Ordered o lo hi l) : Ranged o lo hi l.entries := by
  induction h generalizing lo hi with
  | zero => exact hs.2
  | succ h ih =>
    match l, hs with
    | i :: l, ⟨mid, hi, hrest⟩ =>
      rw [Items.entries_cons]
      exact Ranged.append (ih hi) (chain_ranged (fun _ _ _ => ih) hrest)
        (Nat.le_of_lt (Ordered.lt hi)) (hrest.le within_lt)

theorem Chain.entries {l : Items (h + 1)} (hl : Chain o (Within o) lo hi l) :
    Ranged o lo hi l.entries := chain_ranged (fun _ _ _ => Ordered.entries) hl

/-- The entries beside a hole are not in its range. -/
theorem Hole.entries {pre post : Items (h + 1)} {a b : Nat}
    (hole : Hole o (Within o) lo hi pre key post a b) :
    Below o a pre.entries ∧ ∀ e ∈ post.entries, b ≤ o.rank e.1 := by
  obtain ⟨hleft, hright⟩ := hole
  refine ⟨fun e he => ?_, fun e he => (hright.entries.2 e he).1⟩
  rcases hleft with ⟨rfl, -⟩ | ⟨hpre, -⟩
  · cases he
  · exact ((Ordered.entries (l := pre) hpre).2 e he).2

/-- **Cutting the items of a node** divides its range. -/
theorem Ordered.cut {x : Key × Content h} (hs : Ordered o lo hi (l ++ x :: l')) (hl : l ≠ []) :
    Ordered o lo (o.rank x.1) l ∧ Ordered o (o.rank x.1) hi (x :: l') := by
  cases h with
  | zero =>
    obtain ⟨-, hsorted, hrange⟩ := hs
    obtain ⟨hleft, hright, hbetween⟩ := List.pairwise_append.1 hsorted
    obtain ⟨hlow, hhigh⟩ := List.forall_mem_append.1 hrange
    have hbelow : ∀ e ∈ l, o.rank e.1 < o.rank x.1 := fun e he => hbetween e he x List.mem_cons_self
    obtain ⟨e, he⟩ := List.exists_mem_of_ne_nil l hl
    refine ⟨⟨?_, hleft, fun e he => ⟨(hlow e he).1, hbelow e he⟩⟩,
      (hhigh x List.mem_cons_self).2, hright, fun e he => ⟨?_, (hhigh e he).2⟩⟩
    · exact Nat.lt_of_le_of_lt (hlow e he).1 (hbelow e he)
    · rcases List.mem_cons.1 he with rfl | he
      · exact Nat.le_refl _
      · exact Nat.le_of_lt ((List.pairwise_cons.1 hright).1 e he)
  | succ h =>
    obtain ⟨mid, hleft, rfl, hright⟩ := (spans_append hl).1 hs
    exact ⟨hleft, hright⟩

/-- **Joining the items of two nodes** joins their ranges. -/
theorem Ordered.join {mid : Nat} (hl : Ordered o lo mid l) (hl' : Ordered o mid hi l')
    (hkey : o.rank key = mid) : Ordered o lo hi (l ++ l'.rejoin key) := by
  cases h with
  | zero =>
    refine ⟨Nat.lt_trans hl.1 hl'.1, ?_⟩
    exact Ranged.append hl.2 hl'.2 (Nat.le_of_lt hl.1) (Nat.le_of_lt hl'.1)
  | succ h => exact (spans_append (Spans.ne_nil hl)).2 ⟨mid, hl, Spans.rekey hl' hkey⟩

/-- Every path down has a page for each level. -/
theorem Ordered.height_le {t : Shape h} (ht : Within o lo hi t) : h + 1 ≤ t.pages.length := by
  induction h generalizing lo hi with
  | zero => exact Nat.le_add_left ..
  | succ h ih =>
    obtain ⟨i, l, hl⟩ := List.exists_cons_of_ne_nil (Spans.ne_nil ht)
    rw [Within, hl] at ht
    obtain ⟨mid, hi, -⟩ := ht
    have := ih hi
    rw [Content.pages, hl, Items.pages_cons, List.length_cons, List.length_append]
    omega

end PageStore
