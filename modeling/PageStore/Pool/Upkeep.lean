import PageStore.Pool.Fetch

/-!
# Upkeep of a pool

Writing pages back, freeing pages, closing the pool, and the numbers that tell how it fares.

A page under a write guard is not written back before the guard is released; it stays dirty.
Flushing does not count as a use of a page.
-/

namespace PageStore.Pool

variable {n m : Nat}

/-! ## Writing back -/

/-- Writes the page of a frame to disk, dirty or not, unless a writer holds it. Answers whether
it was written. -/
def flushFrame (f : Fin n) : Action (Pool n m) Bool := do
  let frame := (← get).frames[f]
  if !frame.latch.admits .read then return false
  onSpace (Space.write frame.page frame.data)
  modify (editFrame f ({ · with dirty := false }))
  return true

/-- Writes page `p` to disk if it is in a frame. Answers whether it was written. -/
def flush (p : PageId) : Action (Pool n m) Bool := do
  if !p.isSome then throw (.refused (.invalidPage p))
  match (← get).table[p]? with
  | none => return false
  | some f => flushFrame f

/-- Whether frame `f` is the one in which its page is looked up. A page that was freed on disk
under the pool, and allocated anew, can be in a second frame that the table has forgotten. -/
def isCurrent (f : Fin n) (pool : Pool n m) : Bool := pool.table[pool.frames[f].page]? = some f

/-- Writes the dirty pages of some frames to disk, as far as the table knows them and no writer
holds them. Answers how many were written. -/
def flushFrames : List (Fin n) → Action (Pool n m) Nat
  | [] => return 0
  | f :: rest => do
    if (← get).isCurrent f && (← get).frames[f].dirty then
      let written ← flushFrame f
      return (← flushFrames rest) + if written then 1 else 0
    else flushFrames rest

/-- Writes every dirty page to disk, as far as no writer holds it. Answers how many were
written. -/
def flushAll : Action (Pool n m) Nat := flushFrames (List.finRange n)

/-- Writes the dirty pages of some frames to disk, whoever holds them. -/
def writeBack : List (Fin n) → Action (Pool n m) Unit
  | [] => return
  | f :: rest => do
    let frame := (← get).frames[f]
    if frame.page.isSome && frame.dirty then
      onSpace (Space.write frame.page frame.data)
      modify (editFrame f ({ · with dirty := false }))
    writeBack rest

/-- Closes the pool: writes every dirty page to disk, and leaves the space behind. -/
def close (pool : Pool n m) : Space m :=
  match writeBack (List.finRange n) pool with
  | .ok _ pool => pool.space
  | .error _ pool => pool.space

/-! ## Freeing -/

/-- Takes the page of frame `f` out of the pool, without writing it. -/
def discard (p : PageId) (f : Fin n) (pool : Pool n m) : Pool n m :=
  { pool with
    table := pool.table.erase p
    replacer := pool.replacer.pin f
    free := pool.free ++ [f] }.editFrame f Frame.reset

/-- Frees page `p`, in the pool and on disk. Answers whether there was anything to free; a page
with pins is not freed. -/
def delete (p : PageId) : Action (Pool n m) Bool := do
  if !p.isSome then throw (.refused (.invalidPage p))
  match (← get).table[p]? with
  | some f =>
    if 0 < (← get).frames[f].pins then throw (.refused (.stillPinned p))
    modify (discard p f)
  | none =>
    if ← onSpace (Space.isFree p) then return false
  onSpace (Space.free p)
  return true

/-- Frees page `p`, which must be allocated. -/
def deallocate (p : PageId) : Action (Pool n m) Unit := do
  if !(← delete p) then throw (.refused (.alreadyFree p))

/-! ## Inspection -/

/-- Pins on page `p`, if it is in a frame. -/
def pinCount? (pool : Pool n m) (p : PageId) : Option Nat :=
  pool.table[p]?.map fun f => pool.frames[f].pins

/-- Whether page `p` is dirty, if it is in a frame. -/
def isDirty? (pool : Pool n m) (p : PageId) : Option Bool :=
  pool.table[p]?.map fun f => pool.frames[f].dirty

/-- The pages in frames, with their frames, in no particular order. -/
def cached (pool : Pool n m) : List (PageId × Fin n) := pool.table.toList

/-- Number of frames. -/
def size (_ : Pool n m) : Nat := n

/-- Number of frames that hold no page. -/
def freeCount (pool : Pool n m) : Nat := pool.free.length

/-- Number of frames whose page could be evicted. -/
def evictableCount (pool : Pool n m) : Nat := pool.replacer.size

/-- Whether no page is pinned. -/
def allUnpinned (pool : Pool n m) : Bool := pool.frames.all fun frame => frame.pins = 0

/-- The part of all fetches that found their page in a frame. -/
def hitRate (pool : Pool n m) : Float :=
  if pool.hits + pool.misses = 0 then 0
  else pool.hits.toFloat / (pool.hits + pool.misses).toFloat

/-- Starts counting fetches anew. -/
def resetCounters (pool : Pool n m) : Pool n m := { pool with hits := 0, misses := 0 }

end PageStore.Pool
