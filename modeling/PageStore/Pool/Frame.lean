import PageStore.Action

/-!
# Frames

A frame holds the bytes of one page at a time. It counts the pins on that page, and knows
whether the bytes differ from those on disk. The bytes are behind a latch that any number of
readers share, or that one writer has to itself.

Pins and readers are counted by natural numbers: fewer than `2 ^ 32` guards are out at a time.
-/

namespace PageStore

/-- Who holds the bytes of a frame. -/
inductive Latch where
  /-- nobody -/
  | free
  /-- this many readers, at least one -/
  | shared (readers : Nat)
  /-- one writer, who has or has not changed the bytes so far -/
  | exclusive (changed : Bool)
  deriving DecidableEq, Repr

/-- What the holder of a latch may do. -/
inductive Mode where
  | read
  | write
  deriving DecidableEq, Repr

namespace Latch

/-- Whether the latch can be taken in a mode without waiting. -/
def admits : Latch → Mode → Bool
  | free, _ => true
  | shared _, .read => true
  | shared _, .write => false
  | exclusive _, _ => false

/-- The latch after it was taken in a mode. -/
def take : Latch → Mode → Latch
  | shared readers, .read => shared (readers + 1)
  | _, .read => shared 1
  | _, .write => exclusive false

/-- The latch after one holder let go of it. -/
def release : Latch → Latch
  | shared (readers + 2) => shared (readers + 1)
  | _ => free

/-- The latch after its writer changed the bytes. -/
def mark : Latch → Latch
  | exclusive _ => exclusive true
  | l => l

/-- Whether a writer holds the latch and has changed the bytes. -/
def isChanged : Latch → Bool
  | exclusive changed => changed
  | _ => false

end Latch

/-- One slot of a pool. -/
structure Frame where
  /-- the page whose bytes are here, or none -/
  page : PageId := PageId.none
  /-- pins on that page -/
  pins : Nat := 0
  /-- the bytes differ from those on disk -/
  dirty : Bool := false
  /-- who holds the bytes -/
  latch : Latch := .free
  /-- the bytes -/
  data : Page := Block.zero pageSize

namespace Frame

/-- One pin more. -/
def pin (f : Frame) : Frame := { f with pins := f.pins + 1 }

/-- One pin less, if there is one. -/
def unpin (f : Frame) : Option Frame :=
  if f.pins = 0 then none else some { f with pins := f.pins - 1 }

/-- Holds no page any more. The bytes stay until the frame is used again. -/
def reset (f : Frame) : Frame := { f with page := PageId.none, pins := 0, dirty := false }

end Frame

end PageStore
