import PageStore.Positions

/-!
# The clock

A replacer that gives every candidate a second chance. The frames sit on a circle with a hand.
A frame that becomes a candidate is marked; the hand goes round, takes the mark from every
marked candidate that it meets, gives up the first candidate without a mark, and stops just
past it. One round takes every mark away, so the second round finds a candidate if there is
one, and `2 * n + 1` steps are enough.

The number of candidates is kept beside the frames, so that nobody has to count them. Every
operation keeps the two in step.
-/

namespace PageStore

/-- What the clock knows of one frame. -/
structure ClockSlot where
  /-- the frame is a candidate -/
  candidate : Bool := false
  /-- the frame has a second chance left -/
  marked : Bool := false
  deriving DecidableEq, Repr

/-- The circle of `n` frames and its hand. -/
structure Clock (n : Nat) where
  /-- the frames in the order of the circle -/
  slots : Vector ClockSlot n
  /-- where the hand stands -/
  hand : Nat
  /-- the hand stands at a frame, if there are frames -/
  hand_lt : 0 < n → hand < n
  /-- number of candidates -/
  size : Nat
  /-- as many frames are candidates -/
  size_eq : size = slots.countP ClockSlot.candidate

namespace Clock

variable {n : Nat}

/-! ## Counting the candidates -/

theorem countP_replicate (n : Nat) :
    0 = (Vector.replicate n ({} : ClockSlot)).countP ClockSlot.candidate := by
  simp [Vector.countP_replicate]

/-- A frame that is none any more is counted no longer. -/
theorem countP_pin (c : Clock n) {f : Nat} (h : f < n) :
    (if c.slots[f].candidate then c.size - 1 else c.size) =
      (c.slots.set f {}).countP ClockSlot.candidate := by
  rw [Vector.countP_set, c.size_eq]
  split <;> simp

/-- A frame that was none is counted from now on. -/
theorem countP_unpin (c : Clock n) {f : Nat} (h : f < n) :
    (if c.slots[f].candidate then c.size else c.size + 1) =
      (c.slots.set f ⟨true, true⟩).countP ClockSlot.candidate := by
  rw [Vector.countP_set, c.size_eq]
  by_cases hf : c.slots[f].candidate
  · have hpos : 0 < c.slots.countP ClockSlot.candidate :=
      Vector.countP_pos_iff.2 ⟨_, Vector.getElem_mem h, hf⟩
    simp only [hf, if_true]
    omega
  · simp [hf]

/-- Marks do not count. -/
theorem countP_unmark (c : Clock n) (f : Fin n) :
    c.size = (c.slots.set f { c.slots[f] with marked := false }).countP ClockSlot.candidate := by
  rw [Vector.countP_set, c.size_eq]
  by_cases hf : c.slots[f.val].candidate
  · have hpos : 0 < c.slots.countP ClockSlot.candidate :=
      Vector.countP_pos_iff.2 ⟨_, Vector.getElem_mem f.isLt, hf⟩
    simp only [getElem_position, hf, if_true]
    omega
  · simp [hf]

/-! ## Operations -/

/-- No frame is a candidate, and the hand stands at the first one. -/
def empty (n : Nat) : Clock n := ⟨Vector.replicate n {}, 0, id, 0, countP_replicate n⟩

/-- Number of frames that are watched. -/
def capacity (_ : Clock n) : Nat := n

/-- Frame `f` is no candidate any more. -/
def pin (c : Clock n) (f : Nat) : Clock n :=
  if h : f < n then
    { c with
      slots := c.slots.set f {}
      size := if c.slots[f].candidate then c.size - 1 else c.size
      size_eq := countP_pin c h }
  else c

/-- Frame `f` becomes a marked candidate. -/
def unpin (c : Clock n) (f : Nat) : Clock n :=
  if h : f < n then
    { c with
      slots := c.slots.set f ⟨true, true⟩
      size := if c.slots[f].candidate then c.size else c.size + 1
      size_eq := countP_unpin c h }
  else c

/-- Takes the mark from frame `f`. -/
def unmark (c : Clock n) (f : Fin n) : Clock n :=
  { c with
    slots := c.slots.set f { c.slots[f] with marked := false }
    size_eq := countP_unmark c f }

/-- The frame under the hand. -/
def here (c : Clock n) (hn : 0 < n) : Fin n := ⟨c.hand, c.hand_lt hn⟩

/-- The hand moves on to the next frame. -/
def advance (c : Clock n) (hn : 0 < n) : Clock n :=
  { c with hand := (c.hand + 1) % n, hand_lt := fun _ => Nat.mod_lt _ hn }

/-- Moves the hand by at most `steps` frames, up to the first candidate without a mark. -/
def sweep : Nat → Clock n → Option (Fin n) × Clock n
  | 0, c => (none, c)
  | steps + 1, c =>
    if hn : 0 < n then
      let f := c.here hn
      if c.slots[f].candidate then
        if c.slots[f].marked then sweep steps ((c.unmark f).advance hn)
        else (some f, (c.pin f).advance hn)
      else sweep steps (c.advance hn)
    else (none, c)

/-- Chooses a candidate, which is none any more. Without candidates the hand stays. -/
def victim (c : Clock n) : Option (Fin n) × Clock n :=
  if c.size = 0 then (none, c) else c.sweep (2 * n + 1)

@[simp] theorem val_here (c : Clock n) (hn : 0 < n) : (c.here hn).val = c.hand := rfl

@[simp] theorem slots_advance (c : Clock n) (hn : 0 < n) : (c.advance hn).slots = c.slots := rfl

@[simp] theorem hand_advance (c : Clock n) (hn : 0 < n) :
    (c.advance hn).hand = (c.hand + 1) % n := rfl

@[simp] theorem hand_unmark (c : Clock n) (f : Fin n) : (c.unmark f).hand = c.hand := rfl

@[simp] theorem hand_pin (c : Clock n) (f : Nat) : (c.pin f).hand = c.hand := by
  rw [pin]
  split <;> rfl

theorem slots_pin (c : Clock n) (f g : Fin n) :
    (c.pin f).slots[g] = if g = f then {} else c.slots[g] := by
  rw [pin, dif_pos f.isLt]
  exact getElem_set_fin ..

theorem slots_unpin (c : Clock n) (f g : Fin n) :
    (c.unpin f).slots[g] = if g = f then ⟨true, true⟩ else c.slots[g] := by
  rw [unpin, dif_pos f.isLt]
  exact getElem_set_fin ..

theorem slots_unmark (c : Clock n) (f g : Fin n) :
    (c.unmark f).slots[g] = if g = f then { c.slots[f] with marked := false } else c.slots[g] :=
  getElem_set_fin ..

/-- A number that names no frame is ignored. -/
theorem pin_of_le (c : Clock n) {f : Nat} (hf : n ≤ f) : c.pin f = c := dif_neg (Nat.not_lt.2 hf)

theorem unpin_of_le (c : Clock n) {f : Nat} (hf : n ≤ f) : c.unpin f = c :=
  dif_neg (Nat.not_lt.2 hf)

end Clock

end PageStore
