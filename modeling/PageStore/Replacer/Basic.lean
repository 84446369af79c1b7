import PageStore.Replacer.Lru
import PageStore.Replacer.Clock

/-!
# Replacers

A replacer watches `n` frames and chooses which one to give up. A frame becomes a candidate by
`unpin` and stops being one by `pin` or by being chosen. `Policy` names the two ways to choose.
-/

namespace PageStore

/-- How a victim is chosen. -/
inductive Policy where
  /-- the candidate that was released longest ago -/
  | lru
  /-- the first candidate without a second chance -/
  | clock
  deriving DecidableEq, Repr, Inhabited

/-- The candidates among `n` frames, under one of the policies. -/
inductive Replacer (n : Nat) where
  | lru (candidates : Lru n)
  | clock (candidates : Clock n)

namespace Replacer

variable {n : Nat}

/-- No frame is a candidate. -/
def empty (policy : Policy) (n : Nat) : Replacer n :=
  match policy with
  | .lru => lru (Lru.empty n)
  | .clock => clock (Clock.empty n)

/-- Frame `f` is no candidate any more. -/
def pin : Replacer n → Nat → Replacer n
  | lru r, f => lru (r.pin f)
  | clock c, f => clock (c.pin f)

/-- Frame `f` becomes a candidate. -/
def unpin : Replacer n → Nat → Replacer n
  | lru r, f => lru (r.unpin f)
  | clock c, f => clock (c.unpin f)

/-- Chooses a candidate, which is none any more. -/
def victim : Replacer n → Option (Fin n) × Replacer n
  | lru r => r.victim.map id lru
  | clock c => c.victim.map id clock

/-- Number of candidates. -/
def size : Replacer n → Nat
  | lru r => r.size
  | clock c => c.size

/-- Number of frames that are watched. -/
def capacity (_ : Replacer n) : Nat := n

end Replacer

end PageStore
