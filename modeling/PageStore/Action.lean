import PageStore.Error

/-!
# Actions on a state

An `Action σ α` runs on a state and either returns a value or stops, and in both cases leaves a
state behind: what an action did before it was refused stays done. `Halt` lists the ways to
stop:

* `refused` — the call is refused for a cause that the caller is told;
* `fault` — the call asks for bytes outside a block, or passes a value that its contract rules
  out, and the program aborts;
* `blocked` — the call waits for a latch that its own caller holds, and would wait for ever;
* `endless` — the call walks pages in a circle, and would walk for ever.

`Action.focus` runs an action on a part of the state, and `Action.atEnd` does something on
every way out.
-/

namespace PageStore

/-- How a call stops without a result. -/
inductive Halt where
  | refused (cause : StoreError)
  | fault
  | blocked
  | endless
  deriving DecidableEq, Repr

/-- A computation on a state of type `σ` that keeps the state when it stops. -/
abbrev Action (σ : Type) : Type → Type := EStateM Halt σ

/-- Stops a computation for a cause that the caller is told. -/
def refuse {α : Type} (cause : StoreError) : Except Halt α := .error (.refused cause)

/-- A value that has to be there: without it, the program aborts. -/
def demand {α : Type} : Option α → Except Halt α
  | some a => .ok a
  | none => .error .fault

/-- A check that can only refuse is a computation that can also stop otherwise. -/
instance : MonadLift (Except StoreError) (Except Halt) where
  monadLift r := r.mapError .refused

@[simp] theorem demand_some {α : Type} (a : α) : demand (some a) = .ok a := rfl

@[simp] theorem demand_none {α : Type} : demand (none : Option α) = .error .fault := rfl

/-- A computation that returned goes on with what it returned. -/
@[simp] theorem ok_bind {ε α β : Type} (a : α) (next : α → Except ε β) :
    (Except.ok a >>= next) = next a := rfl

/-- Two computations in turn that returned: the first one did, and the second one with its value. -/
theorem of_bind_eq_ok {ε α β : Type} {r : Except ε α} {next : α → Except ε β} {b : β}
    (h : r >>= next = .ok b) : ∃ a, r = .ok a ∧ next a = .ok b := by
  cases r with
  | ok a => exact ⟨a, rfl, h⟩
  | error e => cases h

namespace Action

variable {σ τ α β : Type}

/-- A computation without a state is an action that leaves the state alone. -/
def lift (r : Except Halt α) : Action σ α := fun s =>
  match r with
  | .ok a => .ok a s
  | .error e => .error e s

instance : MonadLift (Except Halt) (EStateM Halt σ) where
  monadLift := lift

/-- Runs an action on a part of the state. `split` takes the part out, together with the way to
put another one in its place. -/
@[inline] def focus (split : σ → τ × (τ → σ)) (act : Action τ α) : Action σ α := fun s =>
  match split s with
  | (t, put) =>
    match act t with
    | .ok a t => .ok a (put t)
    | .error e t => .error e (put t)

/-- Applies `f` to the state after the action, whichever way it ends. -/
@[inline] def atEnd (act : Action σ α) (f : σ → σ) : Action σ α := fun s =>
  match act s with
  | .ok a s => .ok a (f s)
  | .error e s => .error e (f s)

/-- Applies `f` to the state if the action stops without a result. -/
@[inline] def onHalt (act : Action σ α) (f : σ → σ) : Action σ α := fun s =>
  match act s with
  | .ok a s => .ok a s
  | .error e s => .error e (f s)

/-! ## What a run means -/

theorem bind_of_ok {act : Action σ α} {next : α → Action σ β} {s s' : σ} {a : α}
    (h : act s = .ok a s') : (act >>= next) s = next a s' := by
  change EStateM.bind act next s = _
  rw [EStateM.bind, h]

theorem bind_of_error {act : Action σ α} {next : α → Action σ β} {s s' : σ} {e : Halt}
    (h : act s = .error e s') : (act >>= next) s = .error e s' := by
  change EStateM.bind act next s = _
  rw [EStateM.bind, h]

/-- **Sequencing.** Two actions in turn return a value exactly when the first one does and the
second one does from the state that the first left. -/
theorem bind_eq_ok_iff {act : Action σ α} {next : α → Action σ β} {s s'' : σ} {b : β} :
    (act >>= next) s = .ok b s'' ↔ ∃ a s', act s = .ok a s' ∧ next a s' = .ok b s'' := by
  cases h : act s with
  | ok a s' =>
    rw [bind_of_ok h]
    exact ⟨fun hn => ⟨a, s', rfl, hn⟩, by rintro ⟨_, _, ⟨⟩, hn⟩; exact hn⟩
  | error e s' =>
    rw [bind_of_error h]
    exact ⟨nofun, by rintro ⟨_, _, ⟨⟩, _⟩⟩

/-- Two actions in turn stop where the first one stops, or else where the second one does. -/
theorem bind_eq_error_iff {act : Action σ α} {next : α → Action σ β} {s s'' : σ} {e : Halt} :
    (act >>= next) s = .error e s'' ↔
      act s = .error e s'' ∨ ∃ a s', act s = .ok a s' ∧ next a s' = .error e s'' := by
  cases h : act s with
  | ok a s' =>
    rw [bind_of_ok h]
    refine ⟨fun hn => .inr ⟨a, s', rfl, hn⟩, ?_⟩
    rintro (⟨⟨⟩⟩ | ⟨_, _, ⟨⟩, hn⟩)
    exact hn
  | error e' s' =>
    rw [bind_of_error h]
    constructor
    · rintro ⟨⟩
      exact .inl rfl
    · rintro (⟨⟨⟩⟩ | ⟨_, _, ⟨⟩, _⟩)
      rfl

theorem get_bind (next : σ → Action σ β) (s : σ) : (get >>= next) s = next s s := rfl

theorem modify_bind (f : σ → σ) (next : Unit → Action σ β) (s : σ) :
    (modify f >>= next) s = next () (f s) := rfl

/-- A check that passes does nothing. -/
theorem check_ok {r : Except StoreError α} {a : α} (h : r = .ok a) (s : σ) :
    (liftM r : Action σ α) s = .ok a s := by
  subst h
  rfl

/-- A check that fails refuses the call. -/
theorem check_error {r : Except StoreError α} {e : StoreError} (h : r = .error e) (s : σ) :
    (liftM r : Action σ α) s = .error (.refused e) s := by
  subst h
  rfl

/-- A computation without a state returns what it returns. -/
theorem liftM_ok {r : Except Halt α} {a : α} (h : r = .ok a) (s : σ) :
    (liftM r : Action σ α) s = .ok a s := by
  subst h
  rfl

theorem liftM_error {r : Except Halt α} {e : Halt} (h : r = .error e) (s : σ) :
    (liftM r : Action σ α) s = .error e s := by
  subst h
  rfl

/-- A computation without a state returns what it returns, in the same state. -/
theorem lift_eq_ok_iff {r : Except Halt α} {s s' : σ} {a : α} :
    lift r s = .ok a s' ↔ r = .ok a ∧ s = s' := by
  cases r <;> simp [lift]

theorem focus_ok {split : σ → τ × (τ → σ)} {act : Action τ α} {s : σ} {t : τ} {a : α}
    (h : act (split s).1 = .ok a t) : focus split act s = .ok a ((split s).2 t) := by
  simp [focus, h]

theorem focus_error {split : σ → τ × (τ → σ)} {act : Action τ α} {s : σ} {t : τ} {e : Halt}
    (h : act (split s).1 = .error e t) : focus split act s = .error e ((split s).2 t) := by
  simp [focus, h]

theorem atEnd_ok {act : Action σ α} {f : σ → σ} {s s' : σ} {a : α} (h : act s = .ok a s') :
    act.atEnd f s = .ok a (f s') := by
  simp [atEnd, h]

theorem atEnd_error {act : Action σ α} {f : σ → σ} {s s' : σ} {e : Halt}
    (h : act s = .error e s') : act.atEnd f s = .error e (f s') := by
  simp [atEnd, h]

theorem onHalt_ok {act : Action σ α} {f : σ → σ} {s s' : σ} {a : α} (h : act s = .ok a s') :
    act.onHalt f s = .ok a s' := by
  simp [onHalt, h]

theorem onHalt_error {act : Action σ α} {f : σ → σ} {s s' : σ} {e : Halt}
    (h : act s = .error e s') : act.onHalt f s = .error e (f s') := by
  simp [onHalt, h]

end Action

end PageStore
