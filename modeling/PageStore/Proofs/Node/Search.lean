import PageStore.Proofs.Key
import PageStore.Proofs.Node.Halving
import PageStore.Proofs.Node.Headers

/-!
# Looking for keys in nodes

A search halves the range of indices and so meets only some of the records. What it answers is
stated for the whole list: `search_found`, `search_missing` and `lookup_eq_ok` say at which place
the list has to be cut for the answer.
-/

namespace PageStore

/-! ## Lists in key order -/

/-- Keys with anything behind them increase. -/
def Sorted {α : Type} (o : KeyOrder) (l : List (Key × α)) : Prop :=
  l.Pairwise fun a b => o.rank a.1 < o.rank b.1

/-- All keys come before a place. -/
def Below {α : Type} (o : KeyOrder) (r : Nat) (l : List (Key × α)) : Prop :=
  ∀ e ∈ l, o.rank e.1 < r

/-- All keys come after a place. -/
def Above {α : Type} (o : KeyOrder) (r : Nat) (l : List (Key × α)) : Prop :=
  ∀ e ∈ l, r < o.rank e.1

section Lists

variable {α : Type} {o : KeyOrder} {l : List (Key × α)} {key : Key}

/-- **Every key has its place** in a list in key order: between two keys, or at its own. -/
theorem Sorted.exists_place (h : Sorted o l) (hw : ∀ e ∈ l, e.1.length = key.length) :
    (∃ pre x post, l = pre ++ (key, x) :: post ∧ Below o (o.rank key) pre ∧
      Above o (o.rank key) post) ∨
    (∃ pre post, l = pre ++ post ∧ Below o (o.rank key) pre ∧ Above o (o.rank key) post) := by
  induction l with
  | nil => exact .inr ⟨[], [], rfl, nofun, nofun⟩
  | cons e l ih =>
    obtain ⟨hfirst, hrest⟩ := List.pairwise_cons.1 h
    rcases Nat.lt_trichotomy (o.rank e.1) (o.rank key) with hlt | heq | hgt
    · have hcons : ∀ {pre : List (Key × α)}, Below o (o.rank key) pre →
          Below o (o.rank key) (e :: pre) := fun hpre => List.forall_mem_cons.2 ⟨hlt, hpre⟩
      rcases ih hrest fun e he => hw e (.tail _ he) with
        ⟨pre, x, post, rfl, hpre, hpost⟩ | ⟨pre, post, rfl, hpre, hpost⟩
      · exact .inl ⟨e :: pre, x, post, rfl, hcons hpre, hpost⟩
      · exact .inr ⟨e :: pre, post, rfl, hcons hpre, hpost⟩
    · obtain rfl : e.1 = key := KeyOrder.rank_inj (hw e List.mem_cons_self) heq
      exact .inl ⟨[], e.2, l, rfl, nofun, hfirst⟩
    · refine .inr ⟨[], e :: l, rfl, nofun, List.forall_mem_cons.2 ⟨hgt, fun d hd => ?_⟩⟩
      exact Nat.lt_trans hgt (hfirst d hd)

/-- A key is not among smaller and greater ones. -/
theorem not_mem_of_place {pre post : List (Key × α)} (hpre : Below o (o.rank key) pre)
    (hpost : Above o (o.rank key) post) (x : α) : (key, x) ∉ pre ++ post := by
  intro hmem
  rcases List.mem_append.1 hmem with hmem | hmem
  · exact Nat.lt_irrefl _ (hpre _ hmem)
  · exact Nat.lt_irrefl _ (hpost _ hmem)

end Lists

/-- The element at an index cuts the list there. -/
theorem exists_cut_at {α : Type} {l : List α} {i : Nat} {x : α} (h : l[i]? = some x) :
    ∃ pre post, l = pre ++ x :: post ∧ pre.length = i := by
  obtain ⟨hi, rfl⟩ := List.getElem?_eq_some_iff.1 h
  refine ⟨l.take i, l.drop (i + 1), ?_, List.length_take_of_le (Nat.le_of_lt hi)⟩
  rw [← List.drop_eq_getElem_cons, List.take_append_drop]

/-- Reading at one index after the other. -/
theorem mapM_range'_eq_ok {α β : Type} {f : Nat → Except Halt β} {g : α → β} (l : List α)
    (start : Nat) (h : ∀ i x, l[i]? = some x → f (start + i) = .ok (g x)) :
    (List.range' start l.length).mapM f = .ok (l.map g) := by
  induction l generalizing start with
  | nil => rfl
  | cons x l ih =>
    have hrest := ih (start + 1) fun i y hy => by
      have := h (i + 1) y hy
      rwa [← Nat.add_assoc, Nat.add_right_comm] at this
    have hfirst : f start = .ok (g x) := h 0 x rfl
    rw [List.length_cons, List.range'_succ, List.mapM_cons, hfirst, hrest]
    rfl

namespace Node

variable {k : NodeKind} {n : Node k} {hd : Header} {recs : List (Record k)} {i : Nat} {r : Record k}

theorem Holds.key_of_getElem? (h : n.Holds hd recs) (hr : recs[i]? = some r) :
    n.key i = .ok r.1 := by
  obtain ⟨pre, post, rfl, rfl⟩ := exists_cut_at hr
  exact h.key_eq_ok

theorem Holds.payload_of_getElem? (h : n.Holds hd recs) (hr : recs[i]? = some r) :
    n.payload i = .ok (k.encode r.2) := by
  obtain ⟨pre, post, rfl, rfl⟩ := exists_cut_at hr
  exact h.payload_eq_ok

/-- The keys of all records. -/
theorem Holds.keys_eq_ok (h : n.Holds hd recs) :
    (List.range n.size).mapM n.key = .ok (recs.map Prod.fst) := by
  rw [h.states.size, List.range_eq_range']
  refine mapM_range'_eq_ok recs 0 fun i r hr => ?_
  rw [Nat.zero_add]
  exact h.key_of_getElem? hr

end Node

/-! ## Leaves -/

namespace Leaf

variable {n : Leaf} {hd : Header} {recs pre post : List (Record .leaf)} {o : KeyOrder} {key : Key}
  {i : Nat}

theorem row_eq_ok {r : Record .leaf} (h : n.Holds hd recs) (hr : recs[i]? = some r) :
    row n i = .ok r.2 := by
  rw [row, h.payload_of_getElem? hr]
  exact (congrArg demand (RowId.ofBytes?_toBytes r.2))

theorem entries_eq_ok (h : n.Holds hd recs) : entries n = .ok recs := by
  rw [entries, h.states.size, List.range_eq_range']
  refine (mapM_range'_eq_ok (g := id) recs 0 fun i r hr => ?_).trans (by rw [List.map_id])
  rw [Nat.zero_add, entry, h.key_of_getElem? hr, row_eq_ok h hr]
  rfl

/-- A search among the entries from `lo` up to `hi`, when these include the place of the key. -/
theorem searchBetween_eq_ok {here : List (Record .leaf)} (h : n.Holds hd (pre ++ here ++ post))
    (hkey : key.length = hd.width) (hpre : Below o (o.rank key) pre)
    (hpost : Above o (o.rank key) post) (hhere : here = [] ∨ ∃ row, here = [(key, row)])
    {lo hi : Nat} (hlo : lo ≤ pre.length) (hhi : pre.length + here.length ≤ hi)
    (hlen : hi ≤ (pre ++ here ++ post).length) :
    searchBetween n o key lo hi =
      .ok (if here = [] then .missing pre.length else .found pre.length) := by
  have hone : here.length ≤ 1 := by rcases hhere with rfl | ⟨row, rfl⟩ <;> simp
  have hkeys : ∀ i, lo ≤ i → i < hi → ∃ x, n.key i = .ok x ∧
      (o.compare x key = .lt ↔ i < pre.length) ∧
      (o.compare x key = .gt ↔ pre.length + here.length ≤ i) := by
    intro i _ hi'
    obtain ⟨r, hr⟩ : ∃ r, (pre ++ here ++ post)[i]? = some r :=
      ⟨_, List.getElem?_eq_getElem (by omega)⟩
    have hw : r.1.length = key.length := (h.width r (List.mem_of_getElem? hr)).trans hkey.symm
    refine ⟨r.1, h.key_of_getElem? hr, ?_⟩
    rw [KeyOrder.compare_eq_lt_iff hw, KeyOrder.compare_eq_gt_iff hw]
    -- the record stands before the key, on it, or behind it
    rw [List.append_assoc] at hr
    rcases Nat.lt_or_ge i pre.length with hleft | hright
    · rw [List.getElem?_append_left hleft] at hr
      have := hpre r (List.mem_of_getElem? hr)
      omega
    rw [List.getElem?_append_right hright] at hr
    rcases Nat.lt_or_ge (i - pre.length) here.length with hin | hout
    · rw [List.getElem?_append_left hin] at hr
      obtain rfl | ⟨row, rfl⟩ := hhere
      · cases hin
      · obtain rfl : r = (key, row) := List.mem_singleton.1 (List.mem_of_getElem? hr)
        rw [List.length_singleton]
        dsimp only
        omega
    · rw [List.getElem?_append_right hout] at hr
      have := hpost r (List.mem_of_getElem? hr)
      omega
  rw [searchBetween_eq, searchWith_eq_ok hkeys hlo (Nat.le_add_right ..) (by omega) hhi]
  simp only [Nat.left_eq_add, List.length_eq_zero_iff]

/-- **A key that is there** is found. -/
theorem search_found {row : RowId} (h : n.Holds hd (pre ++ (key, row) :: post))
    (hpre : Below o (o.rank key) pre) (hpost : Above o (o.rank key) post) :
    search n o key = .ok (.found pre.length) := by
  have hkey : key.length = hd.width := h.width (key, row) (by simp)
  have h' : n.Holds hd (pre ++ [(key, row)] ++ post) := by rwa [List.append_assoc]
  rw [search, h.states.size]
  refine (searchBetween_eq_ok h' hkey hpre hpost (.inr ⟨row, rfl⟩) (Nat.zero_le _) ?_ ?_).trans ?_
  · simp
  · simp
  · rw [if_neg (by simp)]

/-- **A key that is absent** is missed where it would go. -/
theorem search_missing (h : n.Holds hd (pre ++ post)) (hkey : key.length = hd.width)
    (hpre : Below o (o.rank key) pre) (hpost : Above o (o.rank key) post) :
    search n o key = .ok (.missing pre.length) := by
  have h' : n.Holds hd (pre ++ [] ++ post) := by rwa [List.append_nil]
  rw [search, h.states.size]
  exact searchBetween_eq_ok h' hkey hpre hpost (.inl rfl) (Nat.zero_le _) (by simp) (by simp)

/-- **A search in key order** ends at the key, or where it would go. -/
theorem search_cases {recs : List (Key × RowId)} (h : n.Holds hd recs) (hs : Sorted o recs)
    (hkey : key.length = hd.width) :
    (∃ pre row post, recs = pre ++ (key, row) :: post ∧ Below o (o.rank key) pre ∧
      Above o (o.rank key) post ∧ search n o key = .ok (.found pre.length)) ∨
    (∃ pre post, recs = pre ++ post ∧ Below o (o.rank key) pre ∧ Above o (o.rank key) post ∧
      search n o key = .ok (.missing pre.length)) := by
  rcases hs.exists_place fun e he => (h.width e he).trans hkey.symm with
    ⟨pre, row, post, rfl, hpre, hpost⟩ | ⟨pre, post, rfl, hpre, hpost⟩
  · exact .inl ⟨pre, row, post, rfl, hpre, hpost, search_found h hpre hpost⟩
  · exact .inr ⟨pre, post, rfl, hpre, hpost, search_missing h hkey hpre hpost⟩

end Leaf

/-! ## Internal nodes -/

namespace Internal

variable {n : Internal} {hd : Header} {recs pre post : List (Record .internal)} {o : KeyOrder}
  {key : Key} {i : Nat}

theorem child_eq_ok {r : Record .internal} (h : n.Holds hd recs) (hr : recs[i]? = some r) :
    child n i = .ok r.2 := by
  rw [child, h.payload_of_getElem? hr]
  exact congrArg (fun w => Except.ok (PageId.mk w)) (Block.wordOf_wordBytes _)

/-- The children of a part of the records. -/
theorem childrenFrom_eq_ok (pre mid post : List (Record .internal))
    (h : n.Holds hd (pre ++ mid ++ post)) :
    childrenFrom n pre.length mid.length = .ok (mid.map Prod.snd) := by
  refine mapM_range'_eq_ok mid pre.length fun i r hr => child_eq_ok h ?_
  have hi : i < mid.length := (List.getElem?_eq_some_iff.1 hr).1
  rw [List.append_assoc, List.getElem?_append_right (Nat.le_add_right ..), Nat.add_sub_cancel_left,
    List.getElem?_append_left hi, hr]

theorem children_eq_ok (h : n.Holds hd recs) : children n = .ok (recs.map Prod.snd) := by
  rw [children, h.states.size]
  exact childrenFrom_eq_ok [] recs [] (by simpa using h)

theorem entries_eq_ok (h : n.Holds hd recs) : entries n = .ok recs := by
  rw [entries, h.states.size, List.range_eq_range']
  refine (mapM_range'_eq_ok (g := id) recs 0 fun i r hr => ?_).trans (by rw [List.map_id])
  rw [Nat.zero_add, entry, h.key_of_getElem? hr, child_eq_ok h hr]
  rfl

/-- A search for the first key that is greater, when it is at index `t`. -/
theorem lookupBetween_eq_ok (h : n.Holds hd recs) (hkey : key.length = hd.width) {t : Nat}
    (ht : ∀ i r, recs[i]? = some r → 1 ≤ i → (o.rank key < o.rank r.1 ↔ t ≤ i)) {lo hi : Nat}
    (hone : 1 ≤ lo) (hlo : lo ≤ t) (hhi : t ≤ hi) (hlen : hi ≤ recs.length) :
    lookupBetween n o key lo hi = .ok t := by
  rw [lookupBetween_eq]
  refine lookupWith_eq_ok (fun i hi' hlt => ?_) hlo hhi
  obtain ⟨r, hr⟩ : ∃ r, recs[i]? = some r := ⟨_, List.getElem?_eq_getElem (by omega)⟩
  have hw : r.1.length = key.length := (h.width r (List.mem_of_getElem? hr)).trans hkey.symm
  exact ⟨r.1, h.key_of_getElem? hr,
    (KeyOrder.compare_eq_gt_iff hw).trans (ht i r hr (hone.trans hi'))⟩

/-- **The child for a key** is the last one whose key is not greater, where the first key does not
count. -/
theorem lookup_eq_ok {r : Record .internal} (h : n.Holds hd (pre ++ r :: post))
    (hkey : key.length = hd.width) (hpre : ∀ e ∈ (pre ++ [r]).tail, o.rank e.1 ≤ o.rank key)
    (hpost : Above o (o.rank key) post) : lookup n o key = .ok pre.length := by
  have hcut : pre ++ r :: post = (pre ++ [r]) ++ post := by rw [List.append_assoc]; rfl
  have hlen : (pre ++ [r]).length = pre.length + 1 := List.length_append
  have ht : ∀ i x, (pre ++ r :: post)[i]? = some x → 1 ≤ i →
      (o.rank key < o.rank x.1 ↔ pre.length + 1 ≤ i) := by
    intro i x hx hi
    rw [hcut] at hx
    rcases Nat.lt_or_ge i (pre.length + 1) with hle | hgt
    · rw [List.getElem?_append_left (by omega)] at hx
      have htail : (pre ++ [r]).tail[i - 1]? = some x := by
        rw [List.getElem?_tail, Nat.sub_add_cancel hi, hx]
      have := hpre x (List.mem_of_getElem? htail)
      omega
    · rw [List.getElem?_append_right (by omega)] at hx
      have := hpost x (List.mem_of_getElem? hx)
      omega
  rw [lookup, lookupBetween_eq_ok h hkey ht (Nat.le_refl _) (Nat.le_add_left ..)]
  · rfl
  · rw [h.states.size, List.length_append, List.length_cons]
    omega
  · rw [h.states.size]

end Internal

end PageStore
