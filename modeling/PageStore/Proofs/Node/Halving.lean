import PageStore.Node.Internal
import PageStore.Node.Leaf

/-!
# Halving a range of indices

The searches in nodes, with the keys taken from any function of the index: `searchWith` for leaves
and `lookupWith` for internal nodes. `searchBetween_eq` and `lookupBetween_eq` say that these are
the searches of the nodes, `searchWith_congr` and `lookupWith_congr` that only indices inside the
range are read.

Where a search ends is told by thresholds: the index from which on keys are no longer smaller, and
the one from which on they are greater. Nothing else about the order of the keys matters.
-/

namespace PageStore

/-! ## Leaves -/

namespace Leaf

/-- Looks for a key among those that `read` answers from `lo` up to `hi`. -/
def searchWith (read : Nat → Except Halt Key) (order : KeyOrder) (key : Key) (lo hi : Nat) :
    Except Halt LeafPlace :=
  if lo < hi then do
    let mid := lo + (hi - lo) / 2
    match order.compare (← read mid) key with
    | .lt => searchWith read order key (mid + 1) hi
    | .gt => searchWith read order key lo mid
    | .eq => return .found mid
  else return .missing lo
termination_by hi - lo

variable {read read' : Nat → Except Halt Key} {o : KeyOrder} {key : Key} {lo hi : Nat}

/-- The search of a leaf is the one with its keys. -/
theorem searchBetween_eq (l : Leaf) :
    searchBetween l o key lo hi = searchWith l.key o key lo hi := by
  induction lo, hi using searchWith.induct with
  | case1 lo hi hlt mid ihr ihl =>
    rw [searchBetween, searchWith, if_pos hlt, if_pos hlt]
    refine congrArg (l.key mid >>= ·) (funext fun x => ?_)
    cases o.compare x key with
    | lt => exact ihr
    | eq => rfl
    | gt => exact ihl
  | case2 lo hi hge => rw [searchBetween, searchWith, if_neg hge, if_neg hge]

/-- **Only indices inside the range are read.** -/
theorem searchWith_congr (h : ∀ i, lo ≤ i → i < hi → read i = read' i) :
    searchWith read o key lo hi = searchWith read' o key lo hi := by
  induction lo, hi using searchWith.induct with
  | case1 lo hi hlt mid ihr ihl =>
    have hmid : lo ≤ mid ∧ mid < hi := by omega
    rw [searchWith, searchWith, if_pos hlt, if_pos hlt]
    dsimp only
    rw [show read (lo + (hi - lo) / 2) = read' mid from h mid hmid.1 hmid.2]
    refine congrArg (read' mid >>= ·) (funext fun x => ?_)
    cases o.compare x key with
    | lt => exact ihr fun i hi' => h i (by omega)
    | eq => rfl
    | gt => exact ihl fun i hi' hlt' => h i hi' (by omega)
  | case2 lo hi hge => rw [searchWith, searchWith, if_neg hge, if_neg hge]

/-- **A search returns** whatever the order of the keys, if they can be read. -/
theorem exists_searchWith (o : KeyOrder) (key : Key) (hle : lo ≤ hi)
    (hkeys : ∀ i, lo ≤ i → i < hi → ∃ x, read i = .ok x) :
    ∃ place, searchWith read o key lo hi = .ok place ∧ place.index ≤ hi := by
  induction lo, hi using searchWith.induct with
  | case1 lo hi hlt mid ihr ihl =>
    have hmid : lo ≤ mid ∧ mid < hi := by omega
    obtain ⟨x, hx⟩ := hkeys mid hmid.1 hmid.2
    rw [searchWith, if_pos hlt]
    dsimp only
    rw [show read (lo + (hi - lo) / 2) = .ok x from hx, ok_bind]
    cases o.compare x key with
    | lt => exact ihr hmid.2 fun i hi' => hkeys i (by omega)
    | eq => exact ⟨.found mid, rfl, Nat.le_of_lt hmid.2⟩
    | gt =>
      obtain ⟨place, hplace, hindex⟩ := ihl hmid.1 fun i hi' hlt' => hkeys i hi' (by omega)
      exact ⟨place, hplace, by omega⟩
  | case2 lo hi hge =>
    rw [searchWith, if_neg hge]
    exact ⟨.missing lo, rfl, hle⟩

/-- **A search between thresholds.** When the keys below `t` are the smaller ones and those from
`u` on the greater ones, and at most one is between, the search ends there. -/
theorem searchWith_eq_ok {t u : Nat}
    (hkeys : ∀ i, lo ≤ i → i < hi → ∃ x, read i = .ok x ∧
      (o.compare x key = .lt ↔ i < t) ∧ (o.compare x key = .gt ↔ u ≤ i))
    (hlo : lo ≤ t) (htu : t ≤ u) (hone : u ≤ t + 1) (hhi : u ≤ hi) :
    searchWith read o key lo hi = .ok (if t = u then .missing t else .found t) := by
  -- both thresholds stay in the range, which closes on them
  induction lo, hi using searchWith.induct with
  | case1 lo hi hlt mid ihr ihl =>
    have hmid : lo ≤ mid ∧ mid < hi := by omega
    obtain ⟨x, hx, hless, hgreater⟩ := hkeys mid hmid.1 hmid.2
    rw [searchWith, if_pos hlt]
    dsimp only
    rw [show read (lo + (hi - lo) / 2) = .ok x from hx, ok_bind]
    cases hcmp : o.compare x key with
    | lt => exact ihr (fun i hi' => hkeys i (by omega)) (hless.1 hcmp) hhi
    | gt => exact ihl (fun i hi' hlt' => hkeys i hi' (by omega)) hlo (hgreater.1 hcmp)
    | eq =>
      have hnotless : ¬mid < t := fun h => by
        cases hcmp.symm.trans (hless.2 h)
      have hnotgreater : ¬u ≤ mid := fun h => by
        cases hcmp.symm.trans (hgreater.2 h)
      have hat : mid = t := by omega
      rw [if_neg (by omega), ← hat]
      rfl
  | case2 lo hi hge =>
    have hat : lo = t := by omega
    rw [searchWith, if_neg hge, if_pos (by omega), hat]
    rfl

end Leaf

/-! ## Internal nodes -/

namespace Internal

/-- Looks among the keys that `read` answers from `lo` up to `hi` for the first that is greater
than `key`. -/
def lookupWith (read : Nat → Except Halt Key) (order : KeyOrder) (key : Key) (lo hi : Nat) :
    Except Halt Nat :=
  if lo < hi then do
    let mid := lo + (hi - lo) / 2
    if order.compare (← read mid) key = .gt then lookupWith read order key lo mid
    else lookupWith read order key (mid + 1) hi
  else return lo
termination_by hi - lo

variable {read read' : Nat → Except Halt Key} {o : KeyOrder} {key : Key} {lo hi : Nat}

/-- The search of an internal node is the one with its keys. -/
theorem lookupBetween_eq (n : Internal) :
    lookupBetween n o key lo hi = lookupWith n.key o key lo hi := by
  induction lo, hi using lookupWith.induct with
  | case1 lo hi hlt mid ihl ihr =>
    rw [lookupBetween, lookupWith, if_pos hlt, if_pos hlt]
    refine congrArg (n.key mid >>= ·) (funext fun x => ?_)
    exact ite_congr rfl (fun _ => ihl) fun _ => ihr
  | case2 lo hi hge => rw [lookupBetween, lookupWith, if_neg hge, if_neg hge]

/-- **Only indices inside the range are read.** -/
theorem lookupWith_congr (h : ∀ i, lo ≤ i → i < hi → read i = read' i) :
    lookupWith read o key lo hi = lookupWith read' o key lo hi := by
  induction lo, hi using lookupWith.induct with
  | case1 lo hi hlt mid ihl ihr =>
    have hmid : lo ≤ mid ∧ mid < hi := by omega
    rw [lookupWith, lookupWith, if_pos hlt, if_pos hlt]
    dsimp only
    rw [show read (lo + (hi - lo) / 2) = read' mid from h mid hmid.1 hmid.2]
    refine congrArg (read' mid >>= ·) (funext fun x => ?_)
    refine ite_congr rfl (fun _ => ihl fun i hi' hlt' => h i hi' (by omega)) fun _ => ?_
    exact ihr fun i hi' => h i (by omega)
  | case2 lo hi hge => rw [lookupWith, lookupWith, if_neg hge, if_neg hge]

/-- **A search returns** whatever the order of the keys, if they can be read. -/
theorem exists_lookupWith (o : KeyOrder) (key : Key) (hle : lo ≤ hi)
    (hkeys : ∀ i, lo ≤ i → i < hi → ∃ x, read i = .ok x) :
    ∃ t, lookupWith read o key lo hi = .ok t ∧ lo ≤ t ∧ t ≤ hi := by
  induction lo, hi using lookupWith.induct with
  | case1 lo hi hlt mid ihl ihr =>
    have hmid : lo ≤ mid ∧ mid < hi := by omega
    obtain ⟨x, hx⟩ := hkeys mid hmid.1 hmid.2
    rw [lookupWith, if_pos hlt]
    dsimp only
    rw [show read (lo + (hi - lo) / 2) = .ok x from hx, ok_bind]
    by_cases hgt : o.compare x key = .gt
    · rw [if_pos hgt]
      obtain ⟨t, ht, hlow, hhigh⟩ := ihl hmid.1 fun i hi' hlt' => hkeys i hi' (by omega)
      exact ⟨t, ht, hlow, by omega⟩
    · rw [if_neg hgt]
      obtain ⟨t, ht, hlow, hhigh⟩ := ihr hmid.2 fun i hi' => hkeys i (by omega)
      exact ⟨t, ht, by omega, hhigh⟩
  | case2 lo hi hge =>
    rw [lookupWith, if_neg hge]
    exact ⟨lo, rfl, Nat.le_refl _, hle⟩

/-- **A search up to a threshold.** When the keys from `t` on are the greater ones, the search ends
there. -/
theorem lookupWith_eq_ok {t : Nat}
    (hkeys : ∀ i, lo ≤ i → i < hi → ∃ x, read i = .ok x ∧ (o.compare x key = .gt ↔ t ≤ i))
    (hlo : lo ≤ t) (hhi : t ≤ hi) : lookupWith read o key lo hi = .ok t := by
  induction lo, hi using lookupWith.induct with
  | case1 lo hi hlt mid ihl ihr =>
    have hmid : lo ≤ mid ∧ mid < hi := by omega
    obtain ⟨x, hx, hgt⟩ := hkeys mid hmid.1 hmid.2
    rw [lookupWith, if_pos hlt]
    dsimp only
    rw [show read (lo + (hi - lo) / 2) = .ok x from hx, ok_bind]
    by_cases hle : t ≤ mid
    · rw [if_pos (hgt.2 hle)]
      exact ihl (fun i hi' hlt' => hkeys i hi' (by omega)) hlo hle
    · rw [if_neg fun h => hle (hgt.1 h)]
      exact ihr (fun i hi' => hkeys i (by omega)) (by omega) hhi
  | case2 lo hi hge =>
    rw [lookupWith, if_neg hge, Nat.le_antisymm hlo (by omega)]
    rfl

end Internal

end PageStore
