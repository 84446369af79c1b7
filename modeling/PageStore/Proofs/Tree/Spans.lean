import PageStore.Proofs.Node.Moves

/-!
# Items that divide a range between them

The children of a node divide the range of keys that the node stands for: each child has the keys
from its own key on, up to the next one. `Chain` says so of items whose keys all count, and `Spans`
of the items of a node, where the first key is a placeholder. What one item has, `P lo hi x`, is
left open.

`Spans.focus` cuts a part out of a node and leaves a `Hole`, which any other part that divides the
same range can fill.
-/

namespace PageStore

variable {α : Type} (o : KeyOrder) (P : Nat → Nat → α → Prop)

/-- The items divide the range from `lo` up to `hi`, and each key says where its item starts. -/
def Chain (lo hi : Nat) : List (Key × α) → Prop
  | [] => lo = hi
  | i :: l => o.rank i.1 = lo ∧ ∃ mid, P lo mid i.2 ∧ Chain mid hi l

/-- The items divide the range from `lo` up to `hi`, and each key but the first says where its item
starts. -/
def Spans (lo hi : Nat) : List (Key × α) → Prop
  | [] => False
  | i :: l => ∃ mid, P lo mid i.2 ∧ Chain o P mid hi l

/-- Items before and behind a part that starts under `key`, which the part from `a` up to `b`
completes to a node. -/
def Hole (lo hi : Nat) (pre : List (Key × α)) (key : Key) (post : List (Key × α)) (a b : Nat) :
    Prop :=
  (pre = [] ∧ a = lo ∨ Spans o P lo a pre ∧ o.rank key = a) ∧ Chain o P b hi post

variable {o P} {lo hi a b r : Nat} {key : Key} {i : Key × α} {l l' pre mid post : List (Key × α)}

/-! ## Chains -/

theorem chain_append : Chain o P lo hi (l ++ l') ↔ ∃ mid, Chain o P lo mid l ∧
    Chain o P mid hi l' := by
  induction l generalizing lo with
  | nil => simp [Chain]
  | cons i l ih =>
    simp only [List.cons_append, Chain, ih]
    constructor
    · rintro ⟨hkey, m, hi, m', hl, hl'⟩
      exact ⟨m', ⟨hkey, m, hi, hl⟩, hl'⟩
    · rintro ⟨m', ⟨hkey, m, hi, hl⟩, hl'⟩
      exact ⟨hkey, m, hi, m', hl, hl'⟩

theorem spans_append (hl : l ≠ []) :
    Spans o P lo hi (l ++ l') ↔ ∃ mid, Spans o P lo mid l ∧ Chain o P mid hi l' := by
  match l, hl with
  | i :: l, _ =>
    simp only [List.cons_append, Spans, chain_append]
    constructor
    · rintro ⟨m, hi, m', hl, hl'⟩
      exact ⟨m', ⟨m, hi, hl⟩, hl'⟩
    · rintro ⟨m', ⟨m, hi, hl⟩, hl'⟩
      exact ⟨m, hi, m', hl, hl'⟩

theorem Spans.ne_nil (h : Spans o P lo hi l) : l ≠ [] := by
  rintro rfl
  exact h

/-- A chain of items is a node whose first key counts, too. -/
theorem chain_cons : Chain o P lo hi (i :: l) ↔ o.rank i.1 = lo ∧ Spans o P lo hi (i :: l) :=
    Iff.rfl

theorem Spans.rekey (h : Spans o P lo hi l) (hkey : o.rank key = lo) :
    Chain o P lo hi (rekey key l) := by
  match l, h with
  | i :: l, h => exact ⟨hkey, h⟩

/-- Each item has a range, and no range is empty. -/
theorem Chain.le (hP : ∀ lo hi x, P lo hi x → lo < hi) (h : Chain o P lo hi l) : lo ≤ hi := by
  induction l generalizing lo with
  | nil => exact Nat.le_of_eq h
  | cons i l ih =>
    obtain ⟨-, m, hi, hl⟩ := h
    exact Nat.le_trans (Nat.le_of_lt (hP _ _ _ hi)) (ih hl)

theorem Spans.lt (hP : ∀ lo hi x, P lo hi x → lo < hi) (h : Spans o P lo hi l) : lo < hi := by
  match l, h with
  | i :: l, ⟨m, hi, hl⟩ => exact Nat.lt_of_lt_of_le (hP _ _ _ hi) (hl.le hP)

/-- Each item of a chain has a range. -/
theorem Chain.range_of_mem (h : Chain o P lo hi l) : ∀ i ∈ l, ∃ a b, P a b i.2 := by
  induction l generalizing lo with
  | nil => exact nofun
  | cons i l ih =>
    obtain ⟨-, m, hi, hl⟩ := h
    exact List.forall_mem_cons.2 ⟨⟨lo, m, hi⟩, ih hl⟩

theorem Spans.range_of_mem (h : Spans o P lo hi l) : ∀ i ∈ l, ∃ a b, P a b i.2 := by
  match l, h with
  | i :: l, ⟨m, hi, hl⟩ => exact List.forall_mem_cons.2 ⟨⟨lo, m, hi⟩, hl.range_of_mem⟩

/-- The keys of a chain increase, and lie in its range. -/
theorem Chain.keys (hP : ∀ lo hi x, P lo hi x → lo < hi) (h : Chain o P lo hi l) :
    Sorted o l ∧ ∀ e ∈ l, lo ≤ o.rank e.1 ∧ o.rank e.1 < hi := by
  induction l generalizing lo with
  | nil => exact ⟨.nil, nofun⟩
  | cons i l ih =>
    obtain ⟨hkey, m, hi, hl⟩ := h
    obtain ⟨hsorted, hrange⟩ := ih hl
    have hlt := hP _ _ _ hi
    have hle := hl.le hP
    refine ⟨List.pairwise_cons.2 ⟨fun e he => ?_, hsorted⟩,
      List.forall_mem_cons.2 ⟨by omega, fun e he => ?_⟩⟩
    · have := hrange e he
      omega
    · have := hrange e he
      omega

/-- The keys of a node increase behind the first one, and lie in its range. -/
theorem Spans.keys_tail (hP : ∀ lo hi x, P lo hi x → lo < hi) (h : Spans o P lo hi l) :
    Sorted o l.tail ∧ ∀ e ∈ l.tail, lo ≤ o.rank e.1 ∧ o.rank e.1 < hi := by
  match l, h with
  | i :: l, ⟨m, hi, hl⟩ =>
    obtain ⟨hsorted, hrange⟩ := hl.keys hP
    refine ⟨hsorted, fun e he => ⟨?_, (hrange e he).2⟩⟩
    exact Nat.le_trans (Nat.le_of_lt (hP _ _ _ hi)) (hrange e he).1

/-! ## Holes -/

/-- **Cutting a part out of a node.** -/
theorem Spans.focus (h : Spans o P lo hi (pre ++ (i :: mid ++ post))) :
    ∃ a b, Hole o P lo hi pre i.1 post a b ∧ Spans o P a b (i :: mid) := by
  by_cases hpre : pre = []
  · subst hpre
    obtain ⟨b, hmid, hpost⟩ := (spans_append (List.cons_ne_nil i mid)).1 h
    exact ⟨lo, b, ⟨.inl ⟨rfl, rfl⟩, hpost⟩, hmid⟩
  · obtain ⟨a, hleft, hrest⟩ := (spans_append hpre).1 h
    obtain ⟨b, hmid, hpost⟩ := chain_append.1 hrest
    exact ⟨a, b, ⟨.inr ⟨hleft, hmid.1⟩, hpost⟩, hmid.2⟩

/-- **Filling a hole** with another part of the same range. -/
theorem Hole.fill (h : Hole o P lo hi pre i.1 post a b) (hmid : Spans o P a b (i :: mid)) :
    Spans o P lo hi (pre ++ (i :: mid ++ post)) := by
  obtain ⟨⟨rfl, rfl⟩ | ⟨hpre, hkey⟩, hpost⟩ := h
  · exact (spans_append (List.cons_ne_nil i mid)).2 ⟨b, hmid, hpost⟩
  · exact (spans_append hpre.ne_nil).2 ⟨a, hpre, chain_append.2 ⟨b, ⟨hkey, hmid⟩, hpost⟩⟩

/-! ## The way to a key -/

theorem exists_split (h : Sorted o l) (r : Nat) :
    ∃ low high, l = low ++ high ∧ (∀ e ∈ low, o.rank e.1 ≤ r) ∧ Above o r high := by
  induction l with
  | nil => exact ⟨[], [], rfl, nofun, nofun⟩
  | cons e l ih =>
    obtain ⟨hfirst, hrest⟩ := List.pairwise_cons.1 h
    by_cases he : o.rank e.1 ≤ r
    · obtain ⟨low, high, rfl, hlow, hhigh⟩ := ih hrest
      exact ⟨e :: low, high, rfl, List.forall_mem_cons.2 ⟨he, hlow⟩, hhigh⟩
    · refine ⟨[], e :: l, rfl, nofun, List.forall_mem_cons.2 ⟨by omega, fun d hd => ?_⟩⟩
      have := hfirst d hd
      omega

/-- The range of a part that starts under a key not greater than `r`, and is followed by greater
keys, has the place `r` in it. -/
theorem Hole.mem (h : Hole o P lo hi pre i.1 post a b) (hlo : lo ≤ r) (hhi : r < hi)
    (hpre : ∀ e ∈ (pre ++ [i]).tail, o.rank e.1 ≤ r) (hpost : Above o r post) : a ≤ r ∧ r < b := by
  obtain ⟨hleft, hright⟩ := h
  constructor
  · rcases hleft with ⟨rfl, rfl⟩ | ⟨hl, rfl⟩
    · exact hlo
    · refine hpre i ?_
      match pre, hl.ne_nil with
      | e :: pre, _ => simp
  · match post, hright with
    | [], hb => exact hb ▸ hhi
    | j :: post, ⟨hkey, _⟩ => exact hkey ▸ hpost j List.mem_cons_self

/-- **The way to a key** goes to the last item whose key is not greater, where the first key does
not count; the item's range has the key in it. -/
theorem Spans.route (hP : ∀ lo hi x, P lo hi x → lo < hi) (h : Spans o P lo hi l) (hlo : lo ≤ r)
    (hhi : r < hi) : ∃ pre i post a b, l = pre ++ i :: post ∧
      (∀ e ∈ (pre ++ [i]).tail, o.rank e.1 ≤ r) ∧ Above o r post ∧
      Hole o P lo hi pre i.1 post a b ∧ P a b i.2 ∧ a ≤ r ∧ r < b := by
  match l, h with
  | j :: l, h =>
    have ⟨m, _, hrest⟩ := h
    obtain ⟨low, high, rfl, hlow, hhigh⟩ := exists_split (hrest.keys hP).1 r
    rcases List.eq_nil_or_concat' (j :: low) with hnil | ⟨pre, i, hcut⟩
    · cases hnil
    have hl : j :: (low ++ high) = pre ++ ([i] ++ high) := by
      rw [← List.cons_append, hcut, List.append_assoc]
    have htail : ∀ e ∈ (pre ++ [i]).tail, o.rank e.1 ≤ r := by rwa [← hcut]
    rw [hl] at h
    obtain ⟨a, b, hhole, c, hi, hc⟩ := h.focus
    obtain rfl : c = b := hc
    obtain ⟨ha, hb⟩ := hhole.mem hlo hhi htail hhigh
    exact ⟨pre, i, high, a, c, hl, htail, hhigh, hhole, hi, ha, hb⟩

end PageStore
