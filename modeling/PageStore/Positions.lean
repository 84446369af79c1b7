/-!
# Positions of a vector

The frames of a pool and the slots of a cache are numbered by `Fin n` and kept in vectors of
length `n`. Such a number is the position of an element, so reading there leaves no bound to
prove.
-/

namespace PageStore

variable {α : Type} {n : Nat}

instance instGetElemPosition : GetElem (Vector α n) (Fin n) α fun _ _ => True where
  getElem xs i _ := getElem xs i.val i.isLt

@[simp] theorem getElem_position (xs : Vector α n) (i : Fin n) :
    xs[i] = getElem xs i.val i.isLt := rfl

/-- A number is that of a position, or too large for one. -/
theorem position_or_le (n k : Nat) : (∃ f : Fin n, f.val = k) ∨ n ≤ k :=
  (Nat.lt_or_ge k n).imp_left fun h => ⟨⟨k, h⟩, rfl⟩

/-- Replacing the element at one position. -/
theorem getElem_set_fin (xs : Vector α n) (f g : Fin n) (x : α) :
    (xs.set f x f.isLt)[g] = if g = f then x else xs[g] := by
  simp only [getElem_position, Vector.getElem_set]
  by_cases h : g = f
  · simp [h]
  · rw [if_neg h, if_neg fun e => h (Fin.ext e.symm)]

/-- Counting the elements of a vector is counting its positions. -/
theorem countP_eq_countP_finRange (xs : Vector α n) (p : α → Bool) :
    xs.countP p = (List.finRange n).countP fun f => p xs[f] := by
  have hlist : xs.toList = (List.finRange n).map fun f => xs[f] := by
    apply List.ext_getElem <;> simp
  rw [← Vector.countP_toList, hlist, List.countP_map]
  rfl

/-- Nothing is counted only if no position has what is counted. -/
theorem countP_eq_zero_iff {xs : Vector α n} {p : α → Bool} :
    xs.countP p = 0 ↔ ∀ f : Fin n, ¬p xs[f] = true := by
  rw [countP_eq_countP_finRange, List.countP_eq_zero]
  exact ⟨fun h f => h f (List.mem_finRange f), fun h f _ => h f⟩

end PageStore
