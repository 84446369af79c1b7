import PageStore.File.Device
import PageStore.Replacer.Lru
import PageStore.Space.Bitmap

/-!
# The bitmap cache

An extent is one bitmap page followed by the pages that it governs. The cache keeps the bitmaps
that were used last, in `m` slots over the device, and writes a changed bitmap back when its
slot is needed for another one, or on `flush`.

`BitmapCache.bitmap` is what the cache stands for: the bitmap of each extent, wherever its
newest bytes are.
-/

namespace PageStore

/-- The physical page of the bitmap of extent `e`. -/
def bitmapPage (e : Nat) : UInt32 := UInt32.ofNat (1 + e * (bitmapCapacity + 1))

/-- One slot of the cache. -/
structure BitmapSlot where
  /-- the extent whose bitmap is kept -/
  extent : Option Nat := none
  /-- the bitmap differs from the one in the file -/
  dirty : Bool := false
  /-- the bitmap -/
  bits : Page := Block.zero pageSize

/-- Bitmaps kept in memory, over the file that holds the others. -/
structure BitmapCache (m : Nat) where
  /-- the file -/
  device : Device
  /-- the slots -/
  slots : Vector BitmapSlot m := Vector.replicate m {}
  /-- where the bitmap of an extent is kept -/
  table : Std.HashMap Nat (Fin m) := ∅
  /-- the slots that were never used -/
  free : List (Fin m) := List.finRange m
  /-- the other slots, in the order of their last use -/
  recency : Lru m := Lru.empty m

namespace BitmapCache

variable {m : Nat}

/-- The newest bitmap of extent `e`. -/
def bitmap (c : BitmapCache m) (e : Nat) : Page :=
  match c.table[e]? with
  | some f => c.slots[f].bits
  | none => c.device.image.read (bitmapPage e)

/-- Slot `f` counts as used just now. -/
def touch (c : BitmapCache m) (f : Fin m) : BitmapCache m :=
  { c with recency := (c.recency.pin f).unpin f }

/-- Writes the bitmap of slot `f` to the file, if it is dirty. -/
def writeBack (c : BitmapCache m) (f : Fin m) : BitmapCache m :=
  match c.slots[f] with
  | { extent := some e, dirty := true, bits } => { c with
      device := c.device.store (bitmapPage e) bits
      slots := c.slots.set f { extent := some e, dirty := false, bits } f.isLt }
  | _ => c

/-- Empties slot `f`, whose bitmap goes to the file if it is dirty. -/
def vacate (c : BitmapCache m) (f : Fin m) : BitmapCache m :=
  let c := c.writeBack f
  match c.slots[f].extent with
  | some e => { c with
      slots := c.slots.set f { c.slots[f] with extent := none } f.isLt
      table := c.table.erase e }
  | none => c

/-- Takes a slot for another bitmap: an unused one, or else the one used longest ago. -/
def take : Action (BitmapCache m) (Fin m) := fun c =>
  match c.free with
  | f :: rest => .ok f { c with free := rest }
  | [] =>
    match c.recency.victim with
    | (some f, recency) => .ok f ({ c with recency }.vacate f)
    | (none, recency) => .error (.refused .poolFull) { c with recency }

/-- Puts the bitmap of extent `e` into slot `f`, which counts as used just now. -/
def place (c : BitmapCache m) (f : Fin m) (e : Nat) (bits : Page) (dirty : Bool) :
    BitmapCache m :=
  { c with
    slots := c.slots.set f { extent := some e, dirty, bits } f.isLt
    table := c.table.insert e f
    recency := c.recency.unpin f }

/-- The slot that keeps the bitmap of extent `e`, which is read from the file if need be. -/
def fetch (e : Nat) : Action (BitmapCache m) (Fin m) := do
  match (← get).table[e]? with
  | some f =>
    modify (·.touch f)
    return f
  | none =>
    let f ← take
    modify fun c =>
      match c.device.load (bitmapPage e) with
      | (bits, device) => { c with device }.place f e bits false
    return f

/-- Starts an extent `e` without allocated pages. -/
def install (e : Nat) : Action (BitmapCache m) Unit := do
  let f ← take
  modify (·.place f e Bitmap.empty true)

/-- Replaces the bitmap in slot `f`. -/
def edit (c : BitmapCache m) (f : Fin m) (bits : Page) : BitmapCache m :=
  { c with slots := c.slots.set f { c.slots[f] with dirty := true, bits } f.isLt }

/-- Writes every dirty bitmap to the file. -/
def flush (c : BitmapCache m) : BitmapCache m := (List.finRange m).foldl writeBack c

end BitmapCache

end PageStore
