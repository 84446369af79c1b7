import PageStore.Proofs.Node.Children

/-!
# Searches in nodes are exact

What a search answers, told by the keys of the node alone, for any page that is read as a node. In
a leaf it is the index of the key or the number of smaller keys; in an internal node the number of
keys behind the placeholder that are not greater.
-/

namespace PageStore

/-! ## Lists in order -/

/-- Along a list on which `p` can only turn false, the number of elements with `p` is where it
does. -/
theorem lt_countP_iff {α : Type} {p : α → Bool} {l : List α}
    (h : l.Pairwise fun a b => p b = true → p a = true) {i : Nat} {x : α} (hx : l[i]? = some x) :
    i < l.countP p ↔ p x = true := by
  induction l generalizing i with
  | nil => cases hx
  | cons a l ih =>
    obtain ⟨hfirst, hrest⟩ := List.pairwise_cons.1 h
    by_cases ha : p a = true
    · rw [List.countP_cons_of_pos ha]
      cases i with
      | zero =>
        cases hx
        simp [ha]
      | succ i => exact Nat.succ_lt_succ_iff.trans (ih hrest hx)
    · have hnone : (a :: l).countP p = 0 := by
        refine List.countP_eq_zero.2 (List.forall_mem_cons.2 ⟨ha, fun b hb hpb => ?_⟩)
        exact ha (hfirst b hb hpb)
      have hfalse : p x ≠ true := fun hpx =>
        List.countP_eq_zero.1 hnone x (List.mem_of_getElem? hx) hpx
      rw [hnone]
      simp [hfalse]

/-- Reading at one index after the other, when it returned. -/
theorem getElem?_of_mapM_range' {α : Type} {f : Nat → Except Halt α} {start count : Nat}
    {xs : List α} (h : (List.range' start count).mapM f = .ok xs) :
    xs.length = count ∧ ∀ i, i < count → ∃ x, xs[i]? = some x ∧ f (start + i) = .ok x := by
  induction count generalizing start xs with
  | zero =>
    cases h
    exact ⟨rfl, fun i hi => by cases hi⟩
  | succ count ih =>
    rw [List.range'_succ, List.mapM_cons] at h
    obtain ⟨x, hx, h⟩ := of_bind_eq_ok h
    obtain ⟨xs, hxs, h⟩ := of_bind_eq_ok h
    cases h
    obtain ⟨hlen, hget⟩ := ih hxs
    refine ⟨by rw [List.length_cons, hlen], fun i hi => ?_⟩
    cases i with
    | zero => exact ⟨x, rfl, hx⟩
    | succ i =>
      obtain ⟨y, hy, hf⟩ := hget i (Nat.lt_of_succ_lt_succ hi)
      exact ⟨y, hy, by rwa [Nat.add_right_comm] at hf⟩

/-- What was read at one index after the other was read at one of them. -/
theorem exists_of_mem_mapM_range' {α : Type} {f : Nat → Except Halt α} {start count : Nat}
    {xs : List α} {x : α} (h : (List.range' start count).mapM f = .ok xs) (hx : x ∈ xs) :
    ∃ i, f i = .ok x := by
  obtain ⟨hlen, hget⟩ := getElem?_of_mapM_range' h
  obtain ⟨i, hi⟩ := List.getElem?_of_mem hx
  obtain ⟨y, hy, hread⟩ := hget i (hlen ▸ (List.getElem?_eq_some_iff.1 hi).1)
  cases hi.symm.trans hy
  exact ⟨start + i, hread⟩

namespace Node

variable {k : NodeKind} {n : Node k} {i : Nat} {x : Key}

/-- A key that is read has the width of the node's keys. -/
theorem length_key (h : n.key i = .ok x) : x.length = n.keySize := by
  rw [key] at h
  by_cases hfits : n.offset i + n.keySize ≤ pageSize
  · rw [Block.read_eq_some _ hfits] at h
    cases h
    exact Block.length_slice _ _ _ _
  · rw [Block.read_eq_none _ (by omega)] at h
    cases h

end Node

/-! ## Keys in order -/

/-- The keys stand in the order of the tree, each before all that follow. -/
def Increasing (o : KeyOrder) (keys : List Key) : Prop :=
  keys.Pairwise fun a b => o.compare a b = .lt

section Increasing

variable {o : KeyOrder} {keys : List Key} {key x : Key} {i : Nat}

theorem Increasing.nodup (h : Increasing o keys) : keys.Nodup := by
  refine List.Pairwise.imp (fun {a b} hab heq => ?_) h
  rw [heq, (KeyOrder.compare_eq_eq_iff rfl).2 rfl] at hab
  cases hab

/-- The keys that are smaller come first. -/
theorem Increasing.compare_eq_lt_iff (h : Increasing o keys)
    (hw : ∀ x ∈ keys, x.length = key.length) (hx : keys[i]? = some x) :
    o.compare x key = .lt ↔ i < keys.countP fun x => o.compare x key = .lt := by
  rw [lt_countP_iff ?_ hx, decide_eq_true_eq]
  refine List.Pairwise.imp_of_mem (fun {a b} ha hb hab => ?_) h
  simp only [decide_eq_true_eq]
  rw [KeyOrder.compare_eq_lt_iff ((hw a ha).trans (hw b hb).symm)] at hab
  rw [KeyOrder.compare_eq_lt_iff (hw a ha), KeyOrder.compare_eq_lt_iff (hw b hb)]
  exact hab.trans

/-- The keys that are greater come last. -/
theorem Increasing.compare_eq_gt_iff (h : Increasing o keys)
    (hw : ∀ x ∈ keys, x.length = key.length) (hx : keys[i]? = some x) :
    o.compare x key = .gt ↔ (keys.countP fun x => o.compare x key ≠ .gt) ≤ i := by
  rw [← Nat.not_lt, lt_countP_iff ?_ hx, decide_eq_true_eq, not_not]
  refine List.Pairwise.imp_of_mem (fun {a b} ha hb hab => ?_) h
  simp only [decide_eq_true_eq]
  rw [KeyOrder.compare_eq_lt_iff ((hw a ha).trans (hw b hb).symm)] at hab
  rw [Ne, Ne, KeyOrder.compare_eq_gt_iff (hw a ha), KeyOrder.compare_eq_gt_iff (hw b hb)]
  omega

/-- A key is where keys are neither smaller nor greater. -/
theorem Increasing.getElem?_eq_some_iff (h : Increasing o keys)
    (hw : ∀ x ∈ keys, x.length = key.length) :
    keys[i]? = some key ↔ (keys.countP fun x => o.compare x key = .lt) ≤ i ∧
      i < keys.countP fun x => o.compare x key ≠ .gt := by
  have heq : o.compare key key = .eq := (KeyOrder.compare_eq_eq_iff rfl).2 rfl
  constructor
  · intro hx
    have hless := h.compare_eq_lt_iff hw hx
    have hgreater := h.compare_eq_gt_iff hw hx
    rw [heq] at hless hgreater
    simp only [reduceCtorEq, false_iff, Nat.not_lt, Nat.not_le] at hless hgreater
    exact ⟨hless, hgreater⟩
  · rintro ⟨hlow, hhigh⟩
    obtain ⟨x, hx⟩ : ∃ x, keys[i]? = some x :=
      ⟨_, List.getElem?_eq_getElem (hhigh.trans_le List.countP_le_length)⟩
    have hless := (h.compare_eq_lt_iff hw hx).not.2 (Nat.not_lt.2 hlow)
    have hgreater := (h.compare_eq_gt_iff hw hx).not.2 (Nat.not_le.2 hhigh)
    have hxw : x.length = key.length := hw x (List.mem_of_getElem? hx)
    rw [KeyOrder.compare_eq_lt_iff hxw] at hless
    rw [KeyOrder.compare_eq_gt_iff hxw] at hgreater
    rwa [KeyOrder.rank_inj (o := o) hxw (by omega)] at hx

end Increasing

/-! ## Leaves -/

namespace Leaf

variable {l : Leaf} {o : KeyOrder} {key : Key} {keys : List Key}

/-- The keys of a leaf, one by one. -/
theorem getElem?_of_keys (h : Leaf.keys l = .ok keys) :
    keys.length = l.size ∧ ∀ i, i < l.size → ∃ x, keys[i]? = some x ∧ l.key i = .ok x := by
  rw [Leaf.keys, List.range_eq_range'] at h
  obtain ⟨hlen, hget⟩ := getElem?_of_mapM_range' h
  refine ⟨hlen, fun i hi => ?_⟩
  have := hget i hi
  rwa [Nat.zero_add] at this

theorem length_of_mem_keys (h : Leaf.keys l = .ok keys) : ∀ x ∈ keys, x.length = l.keySize := by
  rw [Leaf.keys, List.range_eq_range'] at h
  intro x hx
  obtain ⟨i, hread⟩ := exists_of_mem_mapM_range' h hx
  exact Node.length_key hread

/-- **A search in a leaf** answers the index of the key, or the number of smaller keys. -/
theorem search_exact (hkey : key.length = l.keySize) (h : Leaf.keys l = .ok keys)
    (hinc : Increasing o keys) :
    (∀ i, search l o key = .ok (.found i) ↔ keys[i]? = some key) ∧
    (key ∉ keys →
      search l o key = .ok (.missing (keys.countP fun x => o.compare x key = .lt))) := by
  obtain ⟨hlen, hget⟩ := getElem?_of_keys h
  have hw : ∀ x ∈ keys, x.length = key.length := fun x hx =>
    (length_of_mem_keys h x hx).trans hkey.symm
  have hat := fun i => hinc.getElem?_eq_some_iff (i := i) hw
  have hthresholds : ∀ i, 0 ≤ i → i < l.size → ∃ x, l.key i = .ok x ∧
      (o.compare x key = .lt ↔ i < keys.countP fun x => o.compare x key = .lt) ∧
      (o.compare x key = .gt ↔ (keys.countP fun x => o.compare x key ≠ .gt) ≤ i) := by
    intro i _ hi
    obtain ⟨x, hx, hread⟩ := hget i hi
    exact ⟨x, hread, hinc.compare_eq_lt_iff hw hx, hinc.compare_eq_gt_iff hw hx⟩
  have hle : (keys.countP fun x => o.compare x key = .lt) ≤
      keys.countP fun x => o.compare x key ≠ .gt := by
    refine List.countP_mono_left fun x _ hx => ?_
    rw [decide_eq_true_eq] at hx ⊢
    rw [hx]
    decide
  have hend : (keys.countP fun x => o.compare x key ≠ .gt) ≤ l.size :=
    hlen ▸ List.countP_le_length
  generalize (keys.countP fun x => o.compare x key = .lt) = t at *
  generalize (keys.countP fun x => o.compare x key ≠ .gt) = u at *
  -- two keys that are neither smaller nor greater would be the same key twice
  have hone : u ≤ t + 1 := by
    by_contra hmore
    have hfirst := (hat t).2 ⟨Nat.le_refl _, by omega⟩
    have hsecond := (hat (t + 1)).2 ⟨Nat.le_add_right .., by omega⟩
    have hsame : t = t + 1 :=
      (List.getElem?_inj (by omega) hinc.nodup).1 (hfirst.trans hsecond.symm)
    omega
  have hsearch : search l o key = .ok (if t = u then .missing t else .found t) := by
    rw [search, searchBetween_eq]
    exact searchWith_eq_ok hthresholds (Nat.zero_le _) hle hone hend
  rw [hsearch]
  by_cases htu : t = u
  · rw [if_pos htu]
    refine ⟨fun i => ⟨fun h => (by cases h), fun hx => ?_⟩, fun _ => rfl⟩
    have := (hat i).1 hx
    omega
  · rw [if_neg htu]
    refine ⟨fun i => ?_, fun habsent => ?_⟩
    · rw [hat, Except.ok.injEq, LeafPlace.found.injEq]
      omega
    · have hthere := (hat t).2 ⟨Nat.le_refl _, by omega⟩
      exact absurd (List.mem_of_getElem? hthere) habsent

end Leaf

/-! ## Internal nodes -/

namespace Internal

variable {n : Internal} {o : KeyOrder} {key : Key} {seps : List Key}

theorem length_of_mem_separators (h : separators n = .ok seps) :
    ∀ x ∈ seps, x.length = n.keySize := by
  intro x hx
  obtain ⟨i, hread⟩ := exists_of_mem_mapM_range' h hx
  exact Node.length_key hread

/-- **A search in an internal node** answers the number of separators that are not greater, which
is the index of the last one, or 0. -/
theorem lookup_exact (hkey : key.length = n.keySize) (h : separators n = .ok seps)
    (hinc : Increasing o seps) :
    ∃ t, lookup n o key = .ok t ∧ t = (seps.countP fun x => o.compare x key ≠ .gt) ∧
      (1 ≤ t → t < n.size ∧ ∃ sep, n.key t = .ok sep ∧ o.compare sep key ≠ .gt) ∧
      ∀ i, t < i → i < n.size → ∃ sep, n.key i = .ok sep ∧ o.compare sep key = .gt := by
  obtain ⟨hlen, hget⟩ := getElem?_of_mapM_range' h
  have hw : ∀ x ∈ seps, x.length = key.length := fun x hx =>
    (length_of_mem_separators h x hx).trans hkey.symm
  have hthreshold : ∀ i, 1 ≤ i → i < n.size → ∃ x, n.key i = .ok x ∧
      (o.compare x key = .gt ↔ (seps.countP fun x => o.compare x key ≠ .gt) + 1 ≤ i) := by
    intro i hone hi
    obtain ⟨x, hx, hread⟩ := hget (i - 1) (by omega)
    rw [Nat.add_sub_cancel' hone] at hread
    exact ⟨x, hread, (hinc.compare_eq_gt_iff hw hx).trans (by omega)⟩
  have hend : (seps.countP fun x => o.compare x key ≠ .gt) ≤ n.size - 1 :=
    hlen ▸ List.countP_le_length
  generalize (seps.countP fun x => o.compare x key ≠ .gt) = t at *
  refine ⟨t, ?_, rfl, fun hpos => ⟨by omega, ?_⟩, fun i hi hsize => ?_⟩
  · rw [lookup, lookupBetween_eq]
    rcases Nat.lt_or_ge 1 n.size with hsome | hnone
    · rw [lookupWith_eq_ok hthreshold (Nat.le_add_left ..) (by omega)]
      rfl
    · obtain rfl : t = 0 := by omega
      rw [lookupWith, if_neg (Nat.not_lt.2 hnone)]
      rfl
  · obtain ⟨sep, hsep, hgt⟩ := hthreshold t hpos (by omega)
    exact ⟨sep, hsep, fun hgreater => absurd (hgt.1 hgreater) (by omega)⟩
  · obtain ⟨sep, hsep, hgt⟩ := hthreshold i (by omega) hsize
    exact ⟨sep, hsep, hgt.2 hi⟩

end Internal

/-! ## Both -/

namespace Node

/-- **Searches in nodes are exact.** When the keys of a leaf increase, a search for a key of their
width answers the index at which it is, and for an absent key the number of smaller ones. When the
separators of an internal node increase, a search answers the number of those that are not greater,
which is the index of the last such key, or 0. Whatever the order of the keys, a search reads only
indices that the node has, in an internal node never that of the placeholder: `searchWith` and
`lookupWith` run the same loop with the keys taken from any `read`, and its answers at other indices
do not matter. If the keys it may read can be read, it comes to an end with an index of the node or,
in a leaf, with the one behind. -/
theorem searches_exact (o : KeyOrder) (key : Key) :
    (∀ (l : Leaf) (keys : List Key), key.length = l.keySize → Leaf.keys l = .ok keys →
      Increasing o keys →
      (∀ i, Leaf.search l o key = .ok (.found i) ↔ keys[i]? = some key) ∧
      (key ∉ keys →
        Leaf.search l o key = .ok (.missing (keys.countP fun x => o.compare x key = .lt)))) ∧
    (∀ (n : Internal) (seps : List Key), key.length = n.keySize → Internal.separators n = .ok seps →
      Increasing o seps →
      ∃ t, Internal.lookup n o key = .ok t ∧ t = (seps.countP fun x => o.compare x key ≠ .gt) ∧
        (1 ≤ t → t < n.size ∧ ∃ sep, n.key t = .ok sep ∧ o.compare sep key ≠ .gt) ∧
        ∀ i, t < i → i < n.size → ∃ sep, n.key i = .ok sep ∧ o.compare sep key = .gt) ∧
    (∀ (l : Leaf) (read : Nat → Except Halt Key), (∀ i < l.size, read i = l.key i) →
      Leaf.searchWith read o key 0 l.size = Leaf.search l o key) ∧
    (∀ (n : Internal) (read : Nat → Except Halt Key),
      (∀ i, 1 ≤ i → i < n.size → read i = n.key i) →
      (do return (← Internal.lookupWith read o key 1 n.size) - 1) = Internal.lookup n o key) ∧
    (∀ l : Leaf, (∀ i < l.size, ∃ x, l.key i = .ok x) →
      ∃ place, Leaf.search l o key = .ok place ∧ place.index ≤ l.size) ∧
    ∀ n : Internal, (∀ i, 1 ≤ i → i < n.size → ∃ x, n.key i = .ok x) →
      ∃ i, Internal.lookup n o key = .ok i ∧ (i < n.size ∨ i = 0) := by
  refine ⟨fun l keys => Leaf.search_exact, fun n seps => Internal.lookup_exact,
    fun l read hread => ?_, fun n read hread => ?_, fun l hkeys => ?_, fun n hkeys => ?_⟩
  · rw [Leaf.search, Leaf.searchBetween_eq]
    exact Leaf.searchWith_congr fun i _ hi => hread i hi
  · rw [Internal.lookup, Internal.lookupBetween_eq, Internal.lookupWith_congr hread]
  · rw [Leaf.search, Leaf.searchBetween_eq]
    exact Leaf.exists_searchWith o key (Nat.zero_le _) fun i _ => hkeys i
  · rw [Internal.lookup, Internal.lookupBetween_eq]
    rcases Nat.lt_or_ge 1 n.size with hsome | hnone
    · obtain ⟨t, ht, hlow, hhigh⟩ := Internal.exists_lookupWith o key hsome.le hkeys
      rw [ht]
      exact ⟨t - 1, rfl, .inl (by omega)⟩
    · rw [Internal.lookupWith, if_neg (Nat.not_lt.2 hnone)]
      exact ⟨0, rfl, .inr rfl⟩

/-- There is a node with any records that fit. -/
theorem exists_node {k : NodeKind} {w : Nat} (hsmall : w < 2 ^ 32) (recs : List (Record k))
    (hw : ∀ r ∈ recs, r.1.length = w)
    (hroom : k.headerSize + recs.length * (w + k.payloadSize) ≤ pageSize) :
    ∃ (n : Node k) (hd : Header), n.Holds hd recs ∧ hd.width = w := by
  induction recs with
  | nil => exact ⟨_, _, holds_fresh k ⟨0⟩ .none (by decide : 2 < 2 ^ 32) hsmall, rfl⟩
  | cons r recs ih =>
    have hless := Nat.mul_le_mul_right (w + k.payloadSize) (Nat.le_add_right recs.length 1)
    rw [List.length_cons] at hroom
    obtain ⟨n, hd, hn, hwidth⟩ := ih (fun r' hr' => hw r' (.tail _ hr')) (by omega)
    have hfits : n.offset (recs.length + 1) ≤ pageSize := by
      rw [offset, recordSize, hn.states.keySize, hwidth]
      exact hroom
    obtain ⟨n', -, hn'⟩ := Holds.insertRecord_eq_ok [] recs r hn
      ((hw r List.mem_cons_self).trans hwidth.symm) hfits
    exact ⟨n', hd, hn', hwidth⟩

/-- In a leaf the key of an entry is met, in an internal node an equal separator is passed. -/
theorem searches_exact_of_two : ∃ (l : Leaf) (n : Internal),
    Leaf.keys l = .ok [[3], [7]] ∧ Leaf.search l .bytewise [7] = .ok (.found 1) ∧
    Leaf.search l .bytewise [5] = .ok (.missing 1) ∧
    Internal.separators n = .ok [[7]] ∧ Internal.lookup n .bytewise [7] = .ok 1 ∧
    Internal.lookup n .bytewise [6] = .ok 0 := by
  obtain ⟨l, hd, hl, hlw⟩ := exists_node (k := .leaf) (by decide : 1 < 2 ^ 32)
    [([3], ⟨⟨5⟩, 0⟩), ([7], ⟨⟨5⟩, 1⟩)] (by simp) (by decide)
  obtain ⟨n, hd', hn, hnw⟩ := exists_node (k := .internal) (by decide : 1 < 2 ^ 32)
    [([0], ⟨1⟩), ([7], ⟨2⟩)] (by simp) (by decide)
  have hkeys : Leaf.keys l = .ok [[3], [7]] := hl.keys_eq_ok
  have hseps : Internal.separators n = .ok [[7]] := Internal.separators_eq_ok hn
  have hleaf : ∀ key : Key, key.length = 1 → key.length = l.keySize := fun key hk =>
    hk.trans (hl.states.keySize.trans hlw).symm
  have hinternal : ∀ key : Key, key.length = 1 → key.length = n.keySize := fun key hk =>
    hk.trans (hn.states.keySize.trans hnw).symm
  have hsorted : Increasing .bytewise [[3], [7]] := by
    unfold Increasing
    decide
  have hsorted' : Increasing .bytewise [[7]] := List.pairwise_singleton ..
  obtain ⟨t, hlookup, rfl, -⟩ :=
    (searches_exact .bytewise [7]).2.1 n _ (hinternal _ rfl) hseps hsorted'
  obtain ⟨t', hlookup', rfl, -⟩ :=
    (searches_exact .bytewise [6]).2.1 n _ (hinternal _ rfl) hseps hsorted'
  refine ⟨l, n, hkeys, ?_, ?_, hseps, hlookup, hlookup'⟩
  · exact (((searches_exact .bytewise [7]).1 l _ (hleaf _ rfl) hkeys hsorted).1 1).2 rfl
  · exact ((searches_exact .bytewise [5]).1 l _ (hleaf _ rfl) hkeys hsorted).2 (by decide)

end Node

end PageStore
