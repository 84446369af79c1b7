import PageStore.Pool.Frame
import PageStore.Space.Basic

/-!
# The buffer pool

A pool caches logical pages in `n` frames over a space. The table says which frame holds a page.
A frame without a page waits in the free list; a frame whose page has no pins is a candidate of
the replacer. A page with pins keeps its frame.

A `Guard` stands for one pin and one hold on the latch of a page. `fetch` and `newPage` hand out
guards, and `release` takes one back.
-/

namespace PageStore

/-- Logical pages cached in `n` frames, over a space with `m` bitmaps in memory. -/
structure Pool (n m : Nat) where
  /-- the pages on disk -/
  space : Space m
  /-- the frames -/
  frames : Vector Frame n
  /-- the frame that holds a page -/
  table : Std.HashMap PageId (Fin n)
  /-- the frames that hold no page, in the order in which they are used again -/
  free : List (Fin n)
  /-- the frames whose page has no pins -/
  replacer : Replacer n
  /-- fetches of pages that were in a frame -/
  hits : UInt64
  /-- fetches of pages that were not -/
  misses : UInt64

/-- A pin on a page, and a hold on the latch of its bytes. -/
structure Guard (n : Nat) where
  /-- the page -/
  page : PageId
  /-- the frame that holds it -/
  frame : Fin n
  /-- what the guard allows -/
  mode : Mode
  deriving DecidableEq, Repr

namespace Pool

variable {n m : Nat}

/-! ## State -/

/-- A pool of `n` frames without pages. -/
def empty (n : Nat) (policy : Policy) (space : Space m) : Pool n m where
  space := space
  frames := Vector.replicate n {}
  table := ∅
  free := List.finRange n
  replacer := Replacer.empty policy n
  hits := 0
  misses := 0

/-- A pool without pages, with settings that were checked. -/
def create (config : PoolConfig) (space : Space m) :
    Except StoreError (Pool config.poolSize m) := do
  config.validate
  return empty config.poolSize config.policy space

/-- Runs an action on the space. -/
def onSpace {α : Type} (act : Action (Space m) α) : Action (Pool n m) α :=
  Action.focus (fun ⟨space, frames, table, free, replacer, hits, misses⟩ =>
    (space, fun s => ⟨s, frames, table, free, replacer, hits, misses⟩)) act

/-- Changes one frame. -/
def editFrame (f : Fin n) (change : Frame → Frame) (pool : Pool n m) : Pool n m :=
  { pool with frames := pool.frames.set f (change pool.frames[f]) f.isLt }

/-- The frame goes to the end of the free list. -/
def putBack (f : Fin n) (pool : Pool n m) : Pool n m := { pool with free := pool.free ++ [f] }

/-- The bytes of a guarded page. -/
def bytes (g : Guard n) (pool : Pool n m) : Page := pool.frames[g.frame].data

/-! ## Guards -/

/-- Takes one pin off page `p`, and remembers whether its bytes were changed. A page without
pins becomes a candidate of the replacer. -/
def unpin (p : PageId) (changed : Bool) (pool : Pool n m) : Pool n m :=
  match pool.table[p]? with
  | none => pool
  | some f =>
    let pool := pool.editFrame f fun frame => { frame with dirty := frame.dirty || changed }
    match pool.frames[f].unpin with
    | none => pool
    | some frame =>
      let pool := pool.editFrame f fun _ => frame
      if frame.pins = 0 then { pool with replacer := pool.replacer.unpin f } else pool

/-- Takes a guard back: lets go of the latch, then of the pin. -/
def release (g : Guard n) (pool : Pool n m) : Pool n m :=
  let changed := g.mode = .write && pool.frames[g.frame].latch.isChanged
  (pool.editFrame g.frame fun frame => { frame with latch := frame.latch.release }).unpin
    g.page changed

/-- Whether the bytes of a guarded page were changed under the guard. -/
def isChanged (g : Guard n) (pool : Pool n m) : Bool := pool.frames[g.frame].latch.isChanged

/-- Counts the bytes of a guarded page as changed. -/
def mark (g : Guard n) (pool : Pool n m) : Pool n m :=
  pool.editFrame g.frame fun frame => { frame with latch := frame.latch.mark }

/-- Changes the bytes of a guarded page. They count as changed even if `change` stops. -/
def edit (g : Guard n) (change : Page → Except Halt Page) : Action (Pool n m) Unit := do
  modify (mark g)
  let data ← change ((← get).bytes g)
  modify (editFrame g.frame fun frame => { frame with data })

/-- Runs an action under a guard, and takes the guard back on every way out. -/
def holding {α : Type} (g : Guard n) (act : Action (Pool n m) α) : Action (Pool n m) α :=
  Action.atEnd act (release g)

/-- Takes a guard back after a look at the page's bytes. -/
def inspect {α : Type} (g : Guard n) (look : Page → Except Halt α) : Action (Pool n m) α :=
  holding g do look ((← get).bytes g)

end Pool

end PageStore
