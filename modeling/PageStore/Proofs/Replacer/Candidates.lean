import PageStore.Proofs.Replacer.Sweep
import PageStore.Replacer.Basic

/-!
# The candidates of a replacer

What a pool and a cache need of a replacer, whatever its policy, is which frames are candidates:

* `pin` takes a frame out of the candidates and `unpin` puts it in;
* `victim` chooses a candidate and takes it out, and chooses nothing only when there is none;
* `size` counts the candidates.

Which candidate is chosen is the policy's own affair.
-/

namespace PageStore

/-! ## Least recently released -/

namespace Lru

variable {n : Nat}

/-- Frame `f` may be chosen. -/
def IsCandidate (r : Lru n) (f : Fin n) : Prop := r.stamps[f].isSome = true

theorem not_isCandidate_empty (f : Fin n) : ¬(empty n).IsCandidate f := by
  simp [IsCandidate, empty]

/-- The count is zero only when nothing is left to choose. -/
theorem size_eq_zero_iff {r : Lru n} : r.size = 0 ↔ ∀ f, ¬r.IsCandidate f := by
  rw [r.size_eq]
  exact countP_eq_zero_iff

theorem isCandidate_pin {r : Lru n} {f g : Fin n} :
    (r.pin f).IsCandidate g ↔ g ≠ f ∧ r.IsCandidate g := by
  rw [IsCandidate, stamps_pin]
  by_cases h : g = f
  · simp [h]
  · simp [h, IsCandidate]

theorem isCandidate_unpin {r : Lru n} {f g : Fin n} :
    (r.unpin f).IsCandidate g ↔ g = f ∨ r.IsCandidate g := by
  rcases h : r.stamps[f] with _ | s
  · rw [IsCandidate, (stamps_unpin h).2]
    by_cases hfg : g = f
    · simp [hfg]
    · simp [hfg, IsCandidate]
  · have hf : r.IsCandidate f := by rw [IsCandidate, h]; rfl
    rw [unpin_of_isSome r f.isLt hf]
    constructor
    · exact .inr
    · rintro (rfl | hg)
      · exact hf
      · exact hg

/-- The best of some frames and of one given before is one of them. -/
theorem eq_some_of_foldl_older {r : Lru n} {l : List (Fin n)} {best : Option (Fin n × Nat)}
    {f : Fin n} {s : Nat} (h : l.foldl r.older best = some (f, s)) :
    best = some (f, s) ∨ r.stamps[f] = some s := by
  induction l generalizing best with
  | nil => exact .inl h
  | cons g l ih =>
    rcases ih h with hg | hg
    · rcases hs : r.stamps[g] with _ | t
      · rw [older_of_none hs] at hg
        exact .inl hg
      · rcases best with _ | ⟨b, u⟩
        · rw [older_none hs] at hg
          cases hg
          exact .inr hs
        · rw [older_some hs] at hg
          split at hg
          · cases hg
            exact .inr hs
          · exact .inl hg
    · exact .inr hg

/-- With a frame given before, or a candidate among the frames, there is a best one. -/
theorem isSome_foldl_older {r : Lru n} {l : List (Fin n)} {best : Option (Fin n × Nat)}
    (h : best.isSome ∨ ∃ f ∈ l, r.IsCandidate f) : (l.foldl r.older best).isSome := by
  induction l generalizing best with
  | nil => simpa using h
  | cons g l ih =>
    refine ih ?_
    rcases hs : r.stamps[g] with _ | s
    · rw [older_of_none hs]
      refine h.imp_right ?_
      rintro ⟨f, hf, hc⟩
      refine ⟨f, (List.mem_cons.1 hf).resolve_left ?_, hc⟩
      rintro rfl
      rw [IsCandidate, hs] at hc
      cases hc
    · left
      rcases best with _ | ⟨b, t⟩
      · rw [older_none hs]
        rfl
      · rw [older_some hs]
        split <;> rfl

/-- **The victim was a candidate.** -/
theorem victim_some {r r' : Lru n} {f : Fin n} (h : r.victim = (some f, r')) :
    r.IsCandidate f ∧ r' = r.pin f := by
  unfold victim at h
  split at h
  · cases h
  split at h
  · cases h
  · next g hg =>
    cases h
    obtain ⟨⟨f', s⟩, hs, rfl⟩ := Option.map_eq_some_iff.1 hg
    rcases eq_some_of_foldl_older hs with hn | hstamp
    · cases hn
    · exact ⟨by simp [IsCandidate, hstamp], rfl⟩

/-- **No victim, no candidates.** -/
theorem victim_none {r r' : Lru n} (h : r.victim = (none, r')) :
    (∀ f, ¬r.IsCandidate f) ∧ r' = r := by
  unfold victim at h
  split at h
  · next hzero =>
    cases h
    exact ⟨size_eq_zero_iff.1 hzero, rfl⟩
  split at h
  · next hnone =>
    cases h
    refine ⟨fun f hf => ?_, rfl⟩
    have hs : ((List.finRange n).foldl r.older none).isSome :=
      isSome_foldl_older (.inr ⟨f, List.mem_finRange f, hf⟩)
    rw [oldest, Option.map_eq_none_iff] at hnone
    rw [hnone] at hs
    cases hs
  · cases h

end Lru

/-! ## Either policy -/

namespace Replacer

variable {n : Nat}

/-- Frame `f` may be chosen. -/
def IsCandidate : Replacer n → Fin n → Prop
  | lru r, f => r.IsCandidate f
  | clock c, f => c.IsCandidate f

instance (r : Replacer n) (f : Fin n) : Decidable (r.IsCandidate f) :=
  match r with
  | .lru _ => inferInstanceAs (Decidable (_ = true))
  | .clock _ => inferInstanceAs (Decidable (_ = true))

/-- A replacer counts the frames that may be chosen. -/
theorem size_eq (r : Replacer n) : r.size = (List.finRange n).countP fun f => r.IsCandidate f := by
  cases r with
  | lru r =>
    rw [size, r.size_eq, countP_eq_countP_finRange]
    exact List.countP_congr fun f _ => decide_eq_true_iff.symm
  | clock c =>
    rw [size, c.size_eq, countP_eq_countP_finRange]
    exact List.countP_congr fun f _ => decide_eq_true_iff.symm

theorem not_isCandidate_empty (policy : Policy) (f : Fin n) :
    ¬(empty policy n).IsCandidate f := by
  cases policy with
  | lru => exact Lru.not_isCandidate_empty f
  | clock => exact Clock.not_isCandidate_empty f

theorem isCandidate_pin {r : Replacer n} {f g : Fin n} :
    (r.pin f).IsCandidate g ↔ g ≠ f ∧ r.IsCandidate g := by
  cases r with
  | lru r => exact Lru.isCandidate_pin
  | clock c => exact Clock.isCandidate_pin

theorem isCandidate_unpin {r : Replacer n} {f g : Fin n} :
    (r.unpin f).IsCandidate g ↔ g = f ∨ r.IsCandidate g := by
  cases r with
  | lru r => exact Lru.isCandidate_unpin
  | clock c => exact Clock.isCandidate_unpin

/-- A number that names no frame is ignored. -/
theorem pin_of_le (r : Replacer n) {f : Nat} (hf : n ≤ f) : r.pin f = r := by
  cases r with
  | lru r => exact congrArg lru (r.pin_of_le hf)
  | clock c => exact congrArg clock (c.pin_of_le hf)

theorem unpin_of_le (r : Replacer n) {f : Nat} (hf : n ≤ f) : r.unpin f = r := by
  cases r with
  | lru r => exact congrArg lru (r.unpin_of_le hf)
  | clock c => exact congrArg clock (c.unpin_of_le hf)

/-- **The victim was a candidate**, and is none any more. -/
theorem victim_some {r r' : Replacer n} {f : Fin n} (h : r.victim = (some f, r')) :
    r.IsCandidate f ∧ ∀ g, r'.IsCandidate g ↔ g ≠ f ∧ r.IsCandidate g := by
  cases r with
  | lru r =>
    rcases hv : r.victim with ⟨v, r₁⟩
    rw [victim, hv] at h
    cases h
    obtain ⟨hf, rfl⟩ := Lru.victim_some hv
    exact ⟨hf, fun g => Lru.isCandidate_pin⟩
  | clock c =>
    rcases hv : c.victim with ⟨v, c₁⟩
    rw [victim, hv] at h
    cases h
    have hsize : c.size ≠ 0 := by
      intro h0
      rw [Clock.victim_of_size_eq_zero h0] at hv
      cases hv
    obtain ⟨f', c', hv', -, hgives⟩ := Clock.victim_eq_some hsize
    rw [hv] at hv'
    cases hv'
    exact ⟨hgives.isCandidate, fun g => hgives.isCandidate_iff⟩

/-- **No victim, no candidates.** -/
theorem victim_none {r r' : Replacer n} (h : r.victim = (none, r')) :
    (∀ f, ¬r.IsCandidate f) ∧ r' = r := by
  cases r with
  | lru r =>
    rcases hv : r.victim with ⟨v, r₁⟩
    rw [victim, hv] at h
    cases h
    obtain ⟨hnone, rfl⟩ := Lru.victim_none hv
    exact ⟨hnone, rfl⟩
  | clock c =>
    rcases hv : c.victim with ⟨v, c₁⟩
    rw [victim, hv] at h
    cases h
    by_cases hsize : c.size = 0
    · rw [Clock.victim_of_size_eq_zero hsize] at hv
      cases hv
      exact ⟨Clock.size_eq_zero_iff.1 hsize, rfl⟩
    · obtain ⟨f, c', hv', -⟩ := Clock.victim_eq_some hsize
      rw [hv] at hv'
      cases hv'

end Replacer

end PageStore
