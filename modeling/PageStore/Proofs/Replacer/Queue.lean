import Mathlib.Data.Fintype.Card
import PageStore.Proofs.Replacer.Candidates

/-!
# The order in which frames are given up

A replacer can be asked for victims until it has none left. `Replacer.drain` is the order in which
it gives its candidates up then, and the first of them is the next victim.

`Lru` keeps a stamp for each candidate and no list of them. `Lru.Queues` says that its candidates
stand in a queue all the same: a frame joins it at the end by `unpin`, leaves it by `pin` wherever
it stands, and the victim is the first one. So `drain` is that queue.
-/

namespace PageStore

/-! ## Stamps -/

namespace Lru

variable {n : Nat} {r : Lru n} {q : List (Fin n)} {f g d : Fin n}

/-- Frame `f` became a candidate before frame `g` did. -/
def Before (r : Lru n) (f g : Fin n) : Prop :=
  ∃ s t, r.stamps[f] = some s ∧ r.stamps[g] = some t ∧ s < t

/-- The candidates stand in the queue `q`, the one that became a candidate first in front. -/
structure Queues (r : Lru n) (q : List (Fin n)) : Prop where
  /-- the candidates are in the queue -/
  mem_iff : ∀ f, f ∈ q ↔ r.IsCandidate f
  /-- a candidate became one before those behind it -/
  order : q.Pairwise r.Before
  /-- the stamp that the next candidate gets is larger than all others -/
  fresh : ∀ (f : Fin n) (s : Nat), r.stamps[f] = some s → s < r.next

theorem Before.ne (h : r.Before f g) : f ≠ g := by
  rintro rfl
  obtain ⟨s, t, hs, ht, hlt⟩ := h
  rw [hs] at ht
  exact Nat.ne_of_lt hlt (Option.some.inj ht)

/-- No frame stands in the queue twice. -/
theorem Queues.nodup (h : r.Queues q) : q.Nodup := h.order.imp Before.ne

theorem queues_empty : (empty n).Queues [] where
  mem_iff f := iff_of_false List.not_mem_nil (not_isCandidate_empty f)
  order := .nil
  fresh f s hs := by simp [empty] at hs

/-- A frame that stops being a candidate leaves the queue, wherever it stands. -/
theorem Queues.pin (h : r.Queues q) (f : Fin n) : (r.pin f).Queues (q.filter (· ≠ f)) where
  mem_iff g := by
    rw [List.mem_filter, decide_eq_true_iff, isCandidate_pin, h.mem_iff, and_comm]
  order := by
    refine (h.order.filter _).imp_of_mem fun {g d} hg hd hbefore => ?_
    obtain ⟨s, t, hs, ht, hlt⟩ := hbefore
    refine ⟨s, t, ?_, ?_, hlt⟩
    · rw [stamps_pin, if_neg (of_decide_eq_true (List.mem_filter.1 hg).2), hs]
    · rw [stamps_pin, if_neg (of_decide_eq_true (List.mem_filter.1 hd).2), ht]
  fresh g s hs := by
    rw [next_pin]
    rw [stamps_pin] at hs
    split at hs
    · cases hs
    · exact h.fresh g s hs

/-- A frame that becomes a candidate goes to the end of the queue. One that is a candidate already
keeps its place. -/
theorem Queues.unpin (h : r.Queues q) (f : Fin n) :
    (r.unpin f).Queues (if f ∈ q then q else q ++ [f]) := by
  by_cases hf : f ∈ q
  · rw [if_pos hf, unpin_of_isSome r f.isLt ((h.mem_iff f).1 hf)]
    exact h
  rw [if_neg hf]
  have hnone : r.stamps[f] = none := by
    rw [← Option.not_isSome_iff_eq_none]
    exact fun hc => hf ((h.mem_iff f).2 hc)
  obtain ⟨hnext, hstamps⟩ := stamps_unpin hnone
  have hkeep : ∀ g ∈ q, (r.unpin f).stamps[g] = r.stamps[g] := by
    intro g hg
    rw [hstamps, if_neg (ne_of_mem_of_not_mem hg hf)]
  refine ⟨fun g => ?_, List.pairwise_append.2 ⟨?_, List.pairwise_singleton _ f, ?_⟩,
    fun g s hs => ?_⟩
  · rw [List.mem_append, List.mem_singleton, isCandidate_unpin, h.mem_iff, or_comm]
  · refine h.order.imp_of_mem fun hg hd hbefore => ?_
    rw [Before, hkeep _ hg, hkeep _ hd]
    exact hbefore
  · -- whoever is in the queue has a stamp that was given out before
    intro g hg d hd
    rw [List.mem_singleton.1 hd]
    obtain ⟨s, hs⟩ := Option.isSome_iff_exists.1 ((h.mem_iff g).1 hg)
    exact ⟨s, r.next, (hkeep g hg).trans hs, by rw [hstamps, if_pos rfl], h.fresh g s hs⟩
  · rw [hnext]
    rw [hstamps] at hs
    split at hs
    · cases hs
      exact Nat.lt_succ_self _
    · exact Nat.lt_succ_of_lt (h.fresh g s hs)

/-- The best of some frames is the one whose stamp is smaller than those of all others. -/
theorem foldl_older_eq {s : Nat} (hf : r.stamps[f] = some s) {l : List (Fin n)}
    {best : Option (Fin n × Nat)} (hl : ∀ g ∈ l, ∀ t, r.stamps[g] = some t → g ≠ f → s < t)
    (hbest : best = some (f, s) ∨ f ∈ l ∧ ∀ g t, best = some (g, t) → s < t) :
    l.foldl r.older best = some (f, s) := by
  induction l generalizing best with
  | nil => exact hbest.resolve_right fun hc => List.not_mem_nil hc.1
  | cons d l ih =>
    refine ih (fun g hg => hl g (.tail _ hg)) ?_
    have hlater : f ∈ d :: l → d ≠ f → f ∈ l := fun hmem hne =>
      (List.mem_cons.1 hmem).resolve_left hne.symm
    rcases hd : r.stamps[d] with _ | t
    · rw [older_of_none hd]
      refine hbest.imp_right fun hc => ⟨hlater hc.1 ?_, hc.2⟩
      rintro rfl
      rw [hf] at hd
      cases hd
    by_cases hdf : d = f
    · -- from here on `f` is the best
      left
      subst hdf
      obtain rfl : s = t := Option.some.inj (hf.symm.trans hd)
      rcases hbest with rfl | ⟨-, hworse⟩
      · rw [older_some hd, if_neg (Nat.lt_irrefl s)]
      · rcases best with _ | ⟨g, t⟩
        · exact older_none hd
        · rw [older_some hd, if_pos (hworse g t rfl)]
    · have hlt : s < t := hl d List.mem_cons_self t hd hdf
      rcases hbest with rfl | ⟨hmem, hworse⟩
      · left
        rw [older_some hd, if_neg (Nat.not_lt_of_gt hlt)]
      · refine .inr ⟨hlater hmem hdf, ?_⟩
        rcases best with _ | ⟨b, s'⟩
        · rw [older_none hd]
          intro g t' hbetter
          cases hbetter
          exact hlt
        · rw [older_some hd]
          intro g t' hbetter
          split at hbetter
          · cases hbetter
            exact hlt
          · cases hbetter
            exact hworse b s' rfl

/-- **The victim stands in front of the queue.** -/
theorem Queues.victim_cons (h : r.Queues (f :: q)) : r.victim = (some f, r.pin f) := by
  obtain ⟨s, hs⟩ := Option.isSome_iff_exists.1 ((h.mem_iff f).1 List.mem_cons_self)
  have hbest : (List.finRange n).foldl r.older none = some (f, s) := by
    refine foldl_older_eq hs (fun g _ t ht hne => ?_) (.inr ⟨List.mem_finRange f, nofun⟩)
    have hg : g ∈ f :: q := (h.mem_iff g).2 (by rw [IsCandidate, ht]; rfl)
    obtain ⟨s', t', hs', ht', hlt⟩ :=
      (List.pairwise_cons.1 h.order).1 g ((List.mem_cons.1 hg).resolve_left hne)
    rw [hs] at hs'
    rw [ht] at ht'
    cases hs'
    cases ht'
    exact hlt
  have hsize : r.size ≠ 0 := fun hzero =>
    size_eq_zero_iff.1 hzero f ((h.mem_iff f).1 List.mem_cons_self)
  rw [victim, if_neg hsize, oldest, hbest]
  rfl

theorem Queues.victim_nil (h : r.Queues []) : r.victim = (none, r) := by
  rcases hv : r.victim with ⟨v, r'⟩
  rcases v with _ | f
  · rw [(victim_none hv).2]
  · exact absurd ((h.mem_iff f).2 (victim_some hv).1) List.not_mem_nil

end Lru

/-! ## Giving frames up one after the other -/

namespace Replacer

variable {n : Nat} {r : Replacer n} {q : List (Fin n)} {f : Fin n}

/-- The candidates in the order in which they are given up, as long as none comes back: the first
`k` of them. -/
def drain : Nat → Replacer n → List (Fin n)
  | 0, _ => []
  | k + 1, r =>
    match r.victim with
    | (none, _) => []
    | (some f, r') => f :: drain k r'

/-- The candidates stand in the queue `q`, in the order in which they became candidates. The clock
keeps no such order. -/
def Queues : Replacer n → List (Fin n) → Prop
  | lru r, q => r.Queues q
  | clock _, _ => False

theorem queues_empty : (empty .lru n).Queues [] := Lru.queues_empty

namespace Queues

theorem mem_iff (h : r.Queues q) (f : Fin n) : f ∈ q ↔ r.IsCandidate f := by
  cases r with
  | lru r => exact Lru.Queues.mem_iff h f
  | clock c => cases h

theorem nodup (h : r.Queues q) : q.Nodup := by
  cases r with
  | lru r => exact Lru.Queues.nodup h
  | clock c => cases h

/-- No queue is longer than there are frames. -/
theorem length_le (h : r.Queues q) : q.length ≤ n := by
  simpa using h.nodup.length_le_card

theorem pin (h : r.Queues q) (f : Fin n) : (r.pin f).Queues (q.filter (· ≠ f)) := by
  cases r with
  | lru r => exact Lru.Queues.pin h f
  | clock c => cases h

/-- A frame that is no candidate is not in the queue, so nothing happens to the queue. -/
theorem pin_of_not_mem (h : r.Queues q) (hf : f ∉ q) : (r.pin f).Queues q := by
  have hpin := h.pin f
  rwa [List.filter_eq_self.2 fun g hg => decide_eq_true (ne_of_mem_of_not_mem hg hf)] at hpin

theorem unpin_of_not_mem (h : r.Queues q) (hf : f ∉ q) : (r.unpin f).Queues (q ++ [f]) := by
  cases r with
  | lru r =>
    have hunpin := Lru.Queues.unpin h f
    rwa [if_neg hf] at hunpin
  | clock c => cases h

/-- **The victim stands in front of the queue**, and leaves it. -/
theorem victim_cons (h : r.Queues (f :: q)) :
    r.victim = (some f, r.pin f) ∧ (r.pin f).Queues q := by
  constructor
  · cases r with
    | lru r =>
      rw [victim, Lru.Queues.victim_cons h]
      rfl
    | clock c => cases h
  · have hpin := h.pin f
    obtain ⟨hf, -⟩ := List.nodup_cons.1 h.nodup
    rwa [List.filter_cons_of_neg (by simp),
      List.filter_eq_self.2 fun g hg => decide_eq_true (ne_of_mem_of_not_mem hg hf)] at hpin

theorem victim_nil (h : r.Queues []) : r.victim = (none, r) := by
  cases r with
  | lru r =>
    rw [victim, Lru.Queues.victim_nil h]
    rfl
  | clock c => cases h

/-- **The frames are given up in the order of the queue.** -/
theorem drain_eq_take (h : r.Queues q) (k : Nat) : r.drain k = q.take k := by
  induction k generalizing r q with
  | zero => rfl
  | succ k ih =>
    rcases q with _ | ⟨f, q⟩
    · rw [drain, h.victim_nil]
      rfl
    · obtain ⟨hvictim, hrest⟩ := h.victim_cons
      rw [drain, hvictim]
      exact congrArg (f :: ·) (ih hrest)

theorem drain_eq (h : r.Queues q) : r.drain n = q := by
  rw [h.drain_eq_take, List.take_of_length_le h.length_le]

end Queues

end Replacer

end PageStore
