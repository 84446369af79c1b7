import Mathlib.Order.WellFounded
import PageStore.Replacer.Clock

/-!
# The sweep of the clock

The hand of the clock goes round. `distance` is the number of frames that it passes before it comes
to a frame, and `turned` is the clock after the hand passed some frames and gave none of them up:
those that were candidates have lost their marks.

A sweep that comes to no candidate without a mark in its first `d` steps is the clock turned by `d`
frames, `sweep_add`. So it ends at the first candidate without a mark. When there is none, it takes
all marks away in one round, and ends at the first candidate in the next. `GivesUp` says both, and
`victim_eq_some` that the bounded sweep gets there whenever there is a candidate.
-/

namespace PageStore

/-- What the hand leaves of a frame that it passes. -/
def ClockSlot.passed (s : ClockSlot) : ClockSlot :=
  if s.candidate then { s with marked := false } else s

/-- There is nothing to take from it the second time. -/
theorem ClockSlot.passed_passed (s : ClockSlot) : s.passed.passed = s.passed := by
  rcases s with ⟨_ | _, _ | _⟩ <;> rfl

namespace Clock

variable {n : Nat} {c c' : Clock n} {f g : Fin n} {d steps : Nat}

/-! ## Candidates -/

/-- Frame `f` may be chosen. -/
def IsCandidate (c : Clock n) (f : Fin n) : Prop := c.slots[f].candidate = true

instance (c : Clock n) (f : Fin n) : Decidable (c.IsCandidate f) :=
  inferInstanceAs (Decidable (_ = true))

/-- Frame `f` is a candidate that had its second chance. -/
def IsSpent (c : Clock n) (f : Fin n) : Prop := c.slots[f] = ⟨true, false⟩

theorem IsSpent.isCandidate (h : c.IsSpent f) : c.IsCandidate f := by
  rw [IsCandidate, h]

theorem not_isCandidate_empty (f : Fin n) : ¬(empty n).IsCandidate f := by
  simp [IsCandidate, empty]

theorem isCandidate_pin : (c.pin f).IsCandidate g ↔ g ≠ f ∧ c.IsCandidate g := by
  rw [IsCandidate, slots_pin]
  by_cases h : g = f
  · simp [h]
  · simp [h, IsCandidate]

theorem isCandidate_unpin : (c.unpin f).IsCandidate g ↔ g = f ∨ c.IsCandidate g := by
  rw [IsCandidate, slots_unpin]
  by_cases h : g = f
  · simp [h]
  · simp [h, IsCandidate]

/-- The count is zero only when nothing is left to choose. -/
theorem size_eq_zero_iff : c.size = 0 ↔ ∀ f, ¬c.IsCandidate f := by
  rw [c.size_eq]
  exact countP_eq_zero_iff

/-! ## Round the circle -/

/-- How many frames the hand passes before it comes to frame `f`. -/
def distance (c : Clock n) (f : Fin n) : Nat := (f.val + n - c.hand) % n

theorem distance_lt (c : Clock n) (f : Fin n) : c.distance f < n := Nat.mod_lt _ (Fin.pos f)

/-- The way to a frame behind the hand leads once past the last frame. -/
theorem distance_eq (c : Clock n) (f : Fin n) :
    c.distance f = if f.val < c.hand then f.val + n - c.hand else f.val - c.hand := by
  have hf := f.isLt
  have hhand := c.hand_lt (Fin.pos f)
  rw [distance]
  split
  · exact Nat.mod_eq_of_lt (by omega)
  · rw [show f.val + n - c.hand = (f.val - c.hand) + n by omega, Nat.add_mod_right]
    exact Nat.mod_eq_of_lt (by omega)

/-- No two frames are equally far away. -/
theorem distance_inj (h : c.distance f = c.distance g) : f = g := by
  have hf := f.isLt
  have hg := g.isLt
  have hhand := c.hand_lt (Fin.pos f)
  rw [distance_eq, distance_eq] at h
  apply Fin.ext
  split at h <;> split at h <;> omega

/-- The frame that the hand comes to after `d` others. -/
theorem distance_eq_iff (hd : d < n) : c.distance f = d ↔ f.val = (c.hand + d) % n := by
  have hf := f.isLt
  have hhand := c.hand_lt (Fin.pos f)
  have hmod : (c.hand + d) % n = if c.hand + d < n then c.hand + d else c.hand + d - n := by
    split
    · next h => exact Nat.mod_eq_of_lt h
    · rw [Nat.mod_eq_sub_mod (by omega)]
      exact Nat.mod_eq_of_lt (by omega)
  rw [distance_eq, hmod]
  split <;> split <;> omega

/-- Of the frames with a property, the hand comes to frame `f` first. -/
def IsFirst (c : Clock n) (P : Fin n → Prop) (f : Fin n) : Prop :=
  P f ∧ ∀ g, P g → g ≠ f → c.distance f < c.distance g

theorem exists_isFirst (c : Clock n) {P : Fin n → Prop} (h : ∃ f, P f) : ∃ f, c.IsFirst P f := by
  obtain ⟨f, hf, hmin⟩ := (measure c.distance).wf.has_min {f | P f} h
  refine ⟨f, hf, fun g hg hne => ?_⟩
  exact Nat.lt_of_le_of_ne (Nat.le_of_not_lt (hmin g hg)) fun he => hne (distance_inj he).symm

/-! ## Passing frames -/

/-- The hand passes the frame that it stands at. -/
def pass (c : Clock n) (hn : 0 < n) : Clock n :=
  (if c.slots[c.here hn].candidate then c.unmark (c.here hn) else c).advance hn

theorem hand_pass (c : Clock n) (hn : 0 < n) : (c.pass hn).hand = (c.hand + 1) % n := by
  rw [pass, hand_advance]
  split <;> rfl

theorem slots_pass (c : Clock n) (hn : 0 < n) (g : Fin n) :
    (c.pass hn).slots[g] = if g = c.here hn then c.slots[g].passed else c.slots[g] := by
  rw [pass, slots_advance]
  by_cases hg : g = c.here hn
  · rw [if_pos hg, hg, ClockSlot.passed]
    split
    · rw [slots_unmark, if_pos rfl]
    · rfl
  · rw [if_neg hg]
    split
    · rw [slots_unmark, if_neg hg]
    · rfl

/-- The hand passes `d` frames, and gives none of them up. -/
def turned (c : Clock n) (hn : 0 < n) : Nat → Clock n
  | 0 => c
  | d + 1 => (c.turned hn d).pass hn

theorem hand_turned (c : Clock n) (hn : 0 < n) (d : Nat) :
    (c.turned hn d).hand = (c.hand + d) % n := by
  induction d with
  | zero => exact (Nat.mod_eq_of_lt (c.hand_lt hn)).symm
  | succ d ih => rw [turned, hand_pass, ih, Nat.mod_add_mod, Nat.add_assoc]

theorem here_turned (c : Clock n) (hn : 0 < n) (hd : d < n) :
    f = (c.turned hn d).here hn ↔ c.distance f = d := by
  rw [distance_eq_iff hd, Fin.ext_iff, val_here, hand_turned]

/-- The frames that were passed are the nearest ones. -/
theorem slots_turned (c : Clock n) (hn : 0 < n) (hd : d ≤ n) (g : Fin n) :
    (c.turned hn d).slots[g] = if c.distance g < d then c.slots[g].passed else c.slots[g] := by
  induction d with
  | zero => rfl
  | succ d ih =>
    rw [turned, slots_pass, ih (Nat.le_of_succ_le hd)]
    by_cases hg : c.distance g = d
    · rw [if_pos ((here_turned c hn hd).2 hg), if_neg (by omega), if_pos (by omega)]
    · rw [if_neg (mt (here_turned c hn hd).1 hg)]
      by_cases hlt : c.distance g < d
      · rw [if_pos hlt, if_pos (by omega)]
      · rw [if_neg hlt, if_neg (by omega)]

theorem passed_of_isCandidate (h : c.IsCandidate g) : c.slots[g].passed = ⟨true, false⟩ := by
  have hc : c.slots[g].candidate = true := h
  rw [ClockSlot.passed, if_pos hc, hc]

theorem passed_of_not_isCandidate (h : ¬c.IsCandidate g) : c.slots[g].passed = c.slots[g] :=
  if_neg h

/-! ## A whole round -/

/-- In a whole round the hand passes every frame. -/
theorem slots_round (c : Clock n) (hn : 0 < n) (g : Fin n) :
    (c.turned hn n).slots[g] = c.slots[g].passed := by
  rw [slots_turned c hn (Nat.le_refl n), if_pos (c.distance_lt g)]

/-- It comes back to where it stood. -/
theorem distance_round (c : Clock n) (hn : 0 < n) (g : Fin n) :
    (c.turned hn n).distance g = c.distance g := by
  rw [distance, distance, hand_turned, Nat.add_mod_right, Nat.mod_eq_of_lt (c.hand_lt hn)]

/-- Every candidate had its second chance by then. -/
theorem isSpent_round (c : Clock n) (hn : 0 < n) (g : Fin n) :
    (c.turned hn n).IsSpent g ↔ c.IsCandidate g := by
  rw [IsSpent, slots_round]
  by_cases hc : c.IsCandidate g
  · exact iff_of_true (passed_of_isCandidate hc) hc
  · rw [passed_of_not_isCandidate hc]
    exact iff_of_false (fun hg => hc (IsSpent.isCandidate hg)) hc

/-- So the next round ends at the candidate that the hand comes to first. -/
theorem IsFirst.round (h : c.IsFirst c.IsCandidate f) (hn : 0 < n) :
    (c.turned hn n).IsFirst (c.turned hn n).IsSpent f := by
  refine ⟨(c.isSpent_round hn f).2 h.1, fun g hg hne => ?_⟩
  rw [distance_round, distance_round]
  exact h.2 g ((c.isSpent_round hn g).1 hg) hne

/-! ## Sweeping -/

/-- The sweep ends at a candidate without a mark. -/
theorem sweep_succ_of_isSpent (hn : 0 < n) (h : c.IsSpent (c.here hn)) (steps : Nat) :
    c.sweep (steps + 1) = (some (c.here hn), (c.pin (c.here hn)).advance hn) := by
  rw [IsSpent] at h
  rw [sweep, dif_pos hn]
  dsimp only
  rw [h, if_pos rfl, if_neg Bool.false_ne_true]

/-- It passes every other frame. -/
theorem sweep_succ_of_not_isSpent (hn : 0 < n) (h : ¬c.IsSpent (c.here hn)) (steps : Nat) :
    c.sweep (steps + 1) = (c.pass hn).sweep steps := by
  rw [sweep, dif_pos hn, pass]
  dsimp only
  rcases hslot : c.slots[c.here hn] with ⟨_ | _, _ | _⟩
  · rfl
  · rfl
  · exact absurd hslot h
  · rfl

/-- **As long as it comes to no candidate without a mark**, a sweep turns the clock. -/
theorem sweep_add (hn : 0 < n) (hd : d ≤ n) (h : ∀ g, c.distance g < d → ¬c.IsSpent g)
    (steps : Nat) : c.sweep (d + steps) = (c.turned hn d).sweep steps := by
  induction d generalizing steps with
  | zero => rw [Nat.zero_add, turned]
  | succ d ih =>
    -- the frame that is passed last is as it was before the sweep
    have hlast : ¬(c.turned hn d).IsSpent ((c.turned hn d).here hn) := by
      have hdist := (here_turned c hn hd).1 rfl
      rw [IsSpent, slots_turned c hn (Nat.le_of_succ_le hd), if_neg (by omega)]
      exact h _ (by omega)
    rw [Nat.add_assoc, Nat.add_comm 1,
      ih (Nat.le_of_succ_le hd) (fun g hg => h g (Nat.lt_succ_of_lt hg)),
      sweep_succ_of_not_isSpent hn hlast, turned]

/-- **The sweep ends at the first candidate without a mark.** -/
theorem sweep_of_isFirst (h : c.IsFirst c.IsSpent f) (hsteps : c.distance f < steps) :
    ∃ c', c.sweep steps = (some f, c') ∧ c'.hand = (f.val + 1) % n ∧
      ∀ g, c'.slots[g] = if g = f then {} else
        if c.distance g < c.distance f then c.slots[g].passed else c.slots[g] := by
  have hn : 0 < n := Fin.pos f
  have hd := c.distance_lt f
  obtain ⟨rest, rfl⟩ : ∃ rest, steps = c.distance f + (rest + 1) :=
    ⟨steps - c.distance f - 1, by omega⟩
  have hskip : ∀ g, c.distance g < c.distance f → ¬c.IsSpent g := by
    intro g hg hspent
    have hne : g ≠ f := fun e => Nat.lt_irrefl _ (e ▸ hg)
    exact Nat.lt_asymm hg (h.2 g hspent hne)
  have hslots := slots_turned c hn (Nat.le_of_lt hd)
  have hhere : f = (c.turned hn (c.distance f)).here hn := (here_turned c hn hd).2 rfl
  have hspent : (c.turned hn (c.distance f)).IsSpent ((c.turned hn (c.distance f)).here hn) := by
    rw [← hhere, IsSpent, hslots, if_neg (Nat.lt_irrefl _)]
    exact h.1
  rw [sweep_add hn (Nat.le_of_lt hd) hskip, sweep_succ_of_isSpent hn hspent, ← hhere]
  refine ⟨_, rfl, ?_, fun g => ?_⟩
  · have hhand : f.val = (c.turned hn (c.distance f)).hand := congrArg Fin.val hhere
    rw [hand_advance, hand_pin, ← hhand]
  · rw [slots_advance, slots_pin, hslots]

/-- **Which candidate the clock gives up**, and what the sweep leaves behind. -/
structure GivesUp (c : Clock n) (f : Fin n) (c' : Clock n) : Prop where
  /-- the hand ends just past the frame -/
  hand : c'.hand = (f.val + 1) % n
  /-- if there are candidates without a mark, it is the first of them, and the candidates that the
  hand passed before it have no mark any more -/
  ofSpent : (∃ g, c.IsSpent g) → c.IsFirst c.IsSpent f ∧
    ∀ g, c'.slots[g] = if g = f then {} else
      if c.IsCandidate g ∧ c.distance g < c.distance f then ⟨true, false⟩ else c.slots[g]
  /-- if all have one, it is the first candidate, and no other candidate has a mark any more -/
  ofMarked : (∀ g, ¬c.IsSpent g) → c.IsFirst c.IsCandidate f ∧
    ∀ g, c'.slots[g] = if g = f then {} else
      if c.IsCandidate g then ⟨true, false⟩ else c.slots[g]

/-- If there is a candidate without a mark, one round is enough. -/
theorem sweep_of_spent (hspent : ∃ g, c.IsSpent g) (hsteps : n ≤ steps) :
    ∃ f c', c.sweep steps = (some f, c') ∧ c.GivesUp f c' := by
  obtain ⟨f, hf⟩ := c.exists_isFirst hspent
  have hd := c.distance_lt f
  obtain ⟨c', hsweep, hhand, hslots⟩ := sweep_of_isFirst hf (Nat.lt_of_lt_of_le hd hsteps)
  refine ⟨f, c', hsweep, hhand, fun _ => ⟨hf, fun g => ?_⟩, fun hnone => absurd hf.1 (hnone f)⟩
  rw [hslots]
  by_cases hc : c.IsCandidate g
  · rw [passed_of_isCandidate hc]
    simp only [hc, true_and]
  · rw [passed_of_not_isCandidate hc]
    simp [hc]

/-- If all candidates have one, the first round takes all marks away, and the second one ends at the
first candidate. -/
theorem sweep_of_marked (hmarked : ∀ g, ¬c.IsSpent g) (h : ∃ f, c.IsCandidate f)
    (hsteps : n + n ≤ steps) : ∃ f c', c.sweep steps = (some f, c') ∧ c.GivesUp f c' := by
  obtain ⟨f, hf⟩ := c.exists_isFirst h
  have hn : 0 < n := Fin.pos f
  have hd := (c.turned hn n).distance_lt f
  obtain ⟨rest, rfl⟩ : ∃ rest, steps = n + rest := Nat.exists_eq_add_of_le (by omega)
  have hrest : n ≤ rest := by omega
  obtain ⟨c', hsweep, hhand, hslots⟩ :=
    sweep_of_isFirst (hf.round hn) (Nat.lt_of_lt_of_le hd hrest)
  refine ⟨f, c', ?_, hhand, fun hspent => absurd hspent (not_exists.2 hmarked),
    fun _ => ⟨hf, fun g => ?_⟩⟩
  · rw [sweep_add hn (Nat.le_refl n) fun g _ => hmarked g, hsweep]
  · rw [hslots, slots_round, ClockSlot.passed_passed, ite_self]
    by_cases hc : c.IsCandidate g
    · rw [if_pos hc, passed_of_isCandidate hc]
    · rw [if_neg hc, passed_of_not_isCandidate hc]

/-- **The bounded sweep never gives up looking** while there is a candidate. -/
theorem victim_eq_some (h : c.size ≠ 0) :
    ∃ f c', c.victim = (some f, c') ∧ c.sweep (2 * n + 1) = (some f, c') ∧ c.GivesUp f c' := by
  have hsome : ∃ f, c.IsCandidate f := by
    by_contra hnone
    exact h (size_eq_zero_iff.2 fun f hf => hnone ⟨f, hf⟩)
  have hgives : ∃ f c', c.sweep (2 * n + 1) = (some f, c') ∧ c.GivesUp f c' := by
    by_cases hspent : ∃ g, c.IsSpent g
    · exact sweep_of_spent hspent (by omega)
    · exact sweep_of_marked (fun g hg => hspent ⟨g, hg⟩) hsome (by omega)
  obtain ⟨f, c', hsweep, hc'⟩ := hgives
  exact ⟨f, c', by rw [victim, if_neg h, hsweep], hsweep, hc'⟩

theorem victim_of_size_eq_zero (h : c.size = 0) : c.victim = (none, c) := if_pos h

namespace GivesUp

theorem isCandidate (h : c.GivesUp f c') : c.IsCandidate f := by
  by_cases hspent : ∃ g, c.IsSpent g
  · exact IsSpent.isCandidate (h.ofSpent hspent).1.1
  · exact (h.ofMarked fun g hg => hspent ⟨g, hg⟩).1.1

/-- The slot of the frame is cleared, and another one changes only by losing its mark. -/
theorem slot_cases (h : c.GivesUp f c') (g : Fin n) :
    g = f ∧ c'.slots[g] = {} ∨
      g ≠ f ∧ (c'.slots[g] = c.slots[g] ∨ c.IsCandidate g ∧ c'.slots[g] = ⟨true, false⟩) := by
  by_cases hspent : ∃ g, c.IsSpent g
  · rw [(h.ofSpent hspent).2]
    split
    · next hg => exact .inl ⟨hg, rfl⟩
    · next hg =>
      refine .inr ⟨hg, ?_⟩
      split
      · next hc => exact .inr ⟨hc.1, rfl⟩
      · exact .inl rfl
  · rw [(h.ofMarked fun g hg => hspent ⟨g, hg⟩).2]
    split
    · next hg => exact .inl ⟨hg, rfl⟩
    · next hg =>
      refine .inr ⟨hg, ?_⟩
      split
      · next hc => exact .inr ⟨hc, rfl⟩
      · exact .inl rfl

/-- The other candidates are candidates still. -/
theorem isCandidate_iff (h : c.GivesUp f c') : c'.IsCandidate g ↔ g ≠ f ∧ c.IsCandidate g := by
  rw [IsCandidate]
  rcases h.slot_cases g with ⟨hg, hslot⟩ | ⟨hg, hslot | ⟨hc, hslot⟩⟩
  · rw [hslot]
    exact iff_of_false Bool.false_ne_true fun hne => hne.1 hg
  · rw [hslot, and_iff_right hg, IsCandidate]
  · rw [hslot]
    exact iff_of_true rfl ⟨hg, hc⟩

end GivesUp

end Clock

end PageStore
