import PageStore.Positions

/-!
# Least recently released

A replacer chooses which frame to give up. This one gives up the candidate that became one
longest ago. Each frame that becomes a candidate is stamped with the next number of a counter,
and the victim is the candidate with the smallest stamp. A frame that is a candidate already
keeps its stamp, and numbers that name no frame are ignored. Stamps are natural numbers: fewer than
`2 ^ 64` are given in the life of a replacer.

The number of candidates is kept beside the stamps, so that nobody has to count them. Every
operation keeps the two in step.
-/

namespace PageStore

/-- Candidates among `n` frames, in the order in which they became candidates. -/
structure Lru (n : Nat) where
  /-- the stamp of each candidate -/
  stamps : Vector (Option Nat) n
  /-- the stamp that the next candidate gets -/
  next : Nat
  /-- number of candidates -/
  size : Nat
  /-- as many frames have a stamp -/
  size_eq : size = stamps.countP Option.isSome

namespace Lru

variable {n : Nat}

/-! ## Counting the candidates -/

theorem countP_replicate (n : Nat) :
    0 = (Vector.replicate n (none : Option Nat)).countP Option.isSome := by
  simp [Vector.countP_replicate]

/-- A frame without a stamp is counted no longer. -/
theorem countP_pin (r : Lru n) {f : Nat} (h : f < n) :
    (if r.stamps[f].isSome then r.size - 1 else r.size) =
      (r.stamps.set f none).countP Option.isSome := by
  rw [Vector.countP_set, r.size_eq]
  split <;> simp

/-- A frame that had no stamp is counted from now on. -/
theorem countP_unpin (r : Lru n) {f : Nat} (h : f < n) (hf : r.stamps[f] = none) :
    r.size + 1 = (r.stamps.set f (some r.next)).countP Option.isSome := by
  rw [Vector.countP_set, r.size_eq, hf]
  simp

/-! ## Operations -/

/-- No frame is a candidate. -/
def empty (n : Nat) : Lru n := ⟨Vector.replicate n none, 0, 0, countP_replicate n⟩

/-- Number of frames that are watched. -/
def capacity (_ : Lru n) : Nat := n

/-- Of the best candidate so far and frame `f`, the one with the smaller stamp. -/
def older (r : Lru n) (best : Option (Fin n × Nat)) (f : Fin n) : Option (Fin n × Nat) :=
  match r.stamps[f], best with
  | none, _ => best
  | some s, none => some (f, s)
  | some s, some (_, t) => if s < t then some (f, s) else best

/-- The candidate with the smallest stamp. -/
def oldest (r : Lru n) : Option (Fin n) :=
  ((List.finRange n).foldl r.older none).map Prod.fst

/-- Frame `f` is no candidate any more. -/
def pin (r : Lru n) (f : Nat) : Lru n :=
  if h : f < n then
    { r with
      stamps := r.stamps.set f none
      size := if r.stamps[f].isSome then r.size - 1 else r.size
      size_eq := countP_pin r h }
  else r

/-- Frame `f` becomes a candidate, if it is not one. -/
def unpin (r : Lru n) (f : Nat) : Lru n :=
  if h : f < n then
    if hf : r.stamps[f] = none then
      { stamps := r.stamps.set f (some r.next)
        next := r.next + 1
        size := r.size + 1
        size_eq := countP_unpin r h hf }
    else r
  else r

/-- Chooses the oldest candidate, which is none any more. -/
def victim (r : Lru n) : Option (Fin n) × Lru n :=
  if r.size = 0 then (none, r)
  else
    match r.oldest with
    | none => (none, r)
    | some f => (some f, r.pin f)

theorem older_of_none {r : Lru n} {best : Option (Fin n × Nat)} {f : Fin n}
    (hf : r.stamps[f] = none) : r.older best f = best := by
  unfold older
  rw [hf]

theorem older_none {r : Lru n} {f : Fin n} {s : Nat} (hf : r.stamps[f] = some s) :
    r.older none f = some (f, s) := by
  unfold older
  rw [hf]

theorem older_some {r : Lru n} {f g : Fin n} {s t : Nat} (hf : r.stamps[f] = some s) :
    r.older (some (g, t)) f = if s < t then some (f, s) else some (g, t) := by
  unfold older
  rw [hf]

@[simp] theorem next_pin (r : Lru n) (f : Nat) : (r.pin f).next = r.next := by
  rw [pin]
  split <;> rfl

theorem stamps_pin (r : Lru n) (f g : Fin n) :
    (r.pin f).stamps[g] = if g = f then none else r.stamps[g] := by
  rw [pin, dif_pos f.isLt]
  exact getElem_set_fin ..

/-- A number that names no frame is ignored. -/
theorem pin_of_le (r : Lru n) {f : Nat} (hf : n ≤ f) : r.pin f = r := dif_neg (Nat.not_lt.2 hf)

theorem unpin_of_le (r : Lru n) {f : Nat} (hf : n ≤ f) : r.unpin f = r :=
  dif_neg (Nat.not_lt.2 hf)

/-- No call uses up more than one stamp. -/
theorem next_unpin_le (r : Lru n) (f : Nat) : (r.unpin f).next ≤ r.next + 1 := by
  rw [unpin]
  split
  · split
    · exact Nat.le_refl _
    · exact Nat.le_succ _
  · exact Nat.le_succ _

/-- A frame that is a candidate keeps its stamp. -/
theorem unpin_of_isSome (r : Lru n) {f : Nat} (hf : f < n) (h : r.stamps[f].isSome) :
    r.unpin f = r := by
  rw [unpin, dif_pos hf, dif_neg (Option.isSome_iff_ne_none.1 h)]

/-- A frame that becomes a candidate gets the next stamp. -/
theorem stamps_unpin {r : Lru n} {f : Fin n} (hf : r.stamps[f] = none) :
    (r.unpin f).next = r.next + 1 ∧
      ∀ g : Fin n, (r.unpin f).stamps[g] = if g = f then some r.next else r.stamps[g] := by
  have hnone : r.stamps[f.val] = none := hf
  rw [unpin, dif_pos f.isLt, dif_pos hnone]
  exact ⟨rfl, fun g => getElem_set_fin ..⟩

end Lru

end PageStore
