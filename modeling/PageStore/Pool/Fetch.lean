import PageStore.Pool.Basic

/-!
# Fetching pages

`fetch` brings a page into a frame and hands out a guard on it; `newPage` does so for a page that
it allocates. A page that is not cached needs a frame: one from the free list, or else that of a
victim, whose bytes go to disk first if they are dirty. When every frame's page is pinned the
call is refused.

Taking a latch that the caller itself keeps others out of would wait for ever; `fetch` answers
`Halt.blocked` then, before it changes anything.
-/

namespace PageStore.Pool

variable {n m : Nat}

/-- Lets the replacer choose a victim. -/
def chooseVictim : Action (Pool n m) (Option (Fin n)) :=
  modifyGet fun pool =>
    match pool.replacer.victim with
    | (f, replacer) => (f, { pool with replacer })

/-- Takes the page out of a victim's frame. Dirty bytes go to disk; if that is refused the frame
stays a candidate. -/
def evict (f : Fin n) : Action (Pool n m) Unit := do
  let frame := (← get).frames[f]
  if frame.dirty then
    Action.onHalt (onSpace (Space.write frame.page frame.data)) fun pool =>
      { pool with replacer := pool.replacer.unpin f }
  modify fun pool =>
    { pool with table := pool.table.erase frame.page }.editFrame f Frame.reset

/-- Takes a frame for another page. -/
def acquire : Action (Pool n m) (Fin n) := do
  match (← get).free with
  | f :: rest =>
    modify ({ · with free := rest })
    return f
  | [] =>
    match ← chooseVictim with
    | none => throw (.refused .poolFull)
    | some f =>
      evict f
      return f

/-- Puts page `p` into frame `f`, with one pin. -/
def install (f : Fin n) (p : PageId) (data : Page) (dirty : Bool) (pool : Pool n m) : Pool n m :=
  { pool with
    replacer := pool.replacer.pin f
    table := pool.table.insert p f }.editFrame f fun frame =>
      { frame.pin with page := p, dirty, data }

/-- Pins page `p`, which is read from disk if it is in no frame. -/
def pinPage (p : PageId) : Action (Pool n m) (Fin n) := do
  if !p.isSome then throw (.refused (.invalidPage p))
  match (← get).table[p]? with
  | some f =>
    modify fun pool =>
      { pool with
        replacer := pool.replacer.pin f
        hits := pool.hits + 1 }.editFrame f Frame.pin
    return f
  | none =>
    modify fun pool => { pool with misses := pool.misses + 1 }
    if ← onSpace (Space.isFree p) then throw (.refused (.notAllocated p))
    let f ← acquire
    let data ← Action.onHalt (onSpace (Space.read p pageSize)) (putBack f)
    modify (install f p data false)
    return f

/-- Takes the latch of a frame whose page was pinned. -/
def latch (p : PageId) (f : Fin n) (mode : Mode) : Action (Pool n m) (Guard n) := do
  modify (editFrame f fun frame => { frame with latch := frame.latch.take mode })
  return ⟨p, f, mode⟩

/-- Whether a guard that is out keeps page `p` from being fetched in a mode. -/
def isHeld (p : PageId) (mode : Mode) (pool : Pool n m) : Bool :=
  match pool.table[p]? with
  | some f => !pool.frames[f].latch.admits mode
  | none => false

/-- Fetches page `p`. -/
def fetch (mode : Mode) (p : PageId) : Action (Pool n m) (Guard n) := do
  if (← get).isHeld p mode then throw .blocked
  let f ← pinPage p
  latch p f mode

/-- Allocates a page and fetches it for writing, with zero bytes. -/
def newPage : Action (Pool n m) (Guard n) := do
  let f ← acquire
  let p ← Action.onHalt (onSpace Space.allocate) (putBack f)
  modify (install f p (Block.zero pageSize) true)
  latch p f .write

/-- Fetches page `p` for a look at its bytes. -/
def view {α : Type} (p : PageId) (look : Page → Except Halt α) : Action (Pool n m) α := do
  inspect (← fetch .read p) look

/-- Fetches page `p` and changes its bytes. -/
def update (p : PageId) (change : Page → Except Halt Page) : Action (Pool n m) Unit := do
  let g ← fetch .write p
  holding g (edit g change)

end PageStore.Pool
