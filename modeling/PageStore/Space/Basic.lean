import PageStore.Config
import PageStore.Space.Cache
import PageStore.Space.Header

/-!
# The space of logical pages

A space lays logical pages, numbered densely from zero, over a file. Physical page 0 is the
header. The rest of the file is extents, each one bitmap page followed by the pages that it
governs, so logical page `p` is the page at offset `p % bitmapCapacity` of extent
`p / bitmapCapacity`.

`allocate` hands out the lowest free page, and lets the file grow by an extent when every page
of every extent is taken. A free page reads as zeros, and a write to it is dropped.
-/

namespace PageStore

/-! ## Places -/

namespace PageId

/-- The extent that governs the page. -/
def extent (p : PageId) : Nat := p.val.toNat / bitmapCapacity

/-- The page's offset in its extent. -/
def offset (p : PageId) : Nat := p.val.toNat % bitmapCapacity

/-- The page at an offset of an extent. -/
def ofPlace (e o : Nat) : PageId := ⟨UInt32.ofNat (e * bitmapCapacity + o)⟩

/-- Where the page is in the file. -/
def physical (p : PageId) : UInt32 := bitmapPage p.extent + 1 + UInt32.ofNat p.offset

/-- Whether a space can hand out the page at all. -/
def isInRange (p : PageId) : Bool := p.isSome && p.val.toNat < maxLogicalPages

theorem offset_lt (p : PageId) : p.offset < bitmapCapacity := Nat.mod_lt _ (by decide)

/-- A page is found again at its place. -/
@[simp] theorem ofPlace_extent_offset (p : PageId) : ofPlace p.extent p.offset = p := by
  have h : p.extent * bitmapCapacity + p.offset = p.val.toNat := by
    rw [extent, offset, Nat.mul_comm]
    exact Nat.div_add_mod ..
  simp [ofPlace, h]

end PageId

/-- An open page file whose pages can be allocated. -/
structure Space (m : Nat) where
  /-- the bitmaps, over the file -/
  bitmaps : BitmapCache m
  /-- the header -/
  header : Page
  /-- the header differs from the one in the file -/
  headerDirty : Bool

namespace Space

variable {m : Nat}

/-! ## State -/

/-- Runs an action on the bitmaps. -/
def onBitmaps {α : Type} (act : Action (BitmapCache m) α) : Action (Space m) α :=
  Action.focus (fun ⟨bitmaps, header, dirty⟩ => (bitmaps, fun b => ⟨b, header, dirty⟩)) act

/-- Runs an action on the device. -/
def onDevice {α : Type} (act : Action Device α) : Action (Space m) α :=
  onBitmaps <| Action.focus (fun ⟨device, slots, table, free, recency⟩ =>
    (device, fun d => ⟨d, slots, table, free, recency⟩)) act

/-- Changes the header. -/
def editHeader (f : Page → Except Halt Page) : Action (Space m) Unit := do
  let header ← f (← get).header
  modify ({ · with header, headerDirty := true })

/-- Number of allocated pages. -/
def allocatedPages (s : Space m) : UInt32 := SpaceHeader.allocated s.header

/-- Number of extents that the file has grown to. -/
def extents (s : Space m) : UInt32 := SpaceHeader.extents s.header

/-- Physical pages read since the space was opened. -/
def reads (s : Space m) : UInt32 := s.bitmaps.device.reads

/-- Physical pages written since the space was opened. -/
def writes (s : Space m) : UInt32 := s.bitmaps.device.writes

/-- Writes the header and the bitmaps to the file, as far as they changed. -/
def flush (s : Space m) : Space m :=
  let bitmaps := s.bitmaps.flush
  if s.headerDirty then
    { s with
      bitmaps := { bitmaps with device := bitmaps.device.store 0 s.header }
      headerDirty := false }
  else { s with bitmaps }

/-! ## Opening and closing -/

/-- Opens the page file at a path. An empty file becomes a space without extents; any other file
must have a valid header. -/
def mount (config : SpaceConfig) (v : Volume) : Except StoreError (Space config.bitmapFrames) := do
  config.validate
  let device ← Device.openVolume v
  let (header, device) := device.load 0
  if SpaceHeader.isBlank header then
    return flush ⟨{ device }, SpaceHeader.fresh, true⟩
  else if SpaceHeader.isValid header then
    return flush ⟨{ device }, header, false⟩
  else throw .invalidFile

/-- Closes the space, and leaves the file behind. -/
def unmount (s : Space m) : Volume := .file s.flush.bitmaps.device.image

/-! ## Allocation -/

/-- Refuses an id that no page can have. -/
def checkRange (p : PageId) : Except StoreError Unit :=
  if p.isInRange then .ok () else .error (.invalidPage p)

/-- Lets the file grow by one extent, and answers which. -/
def grow : Action (Space m) Nat := do
  let e := (← get).extents.toNat
  if maxExtents ≤ e then throw (.refused .diskFull)
  onBitmaps (BitmapCache.install e)
  editHeader fun h => SpaceHeader.setUsed (SpaceHeader.setExtents h (UInt32.ofNat (e + 1))) e 0
  return e

/-- The extent to allocate from: the first that is not full, or else a new one. -/
def roomyExtent : Action (Space m) Nat := do
  let header := (← get).header
  let e := (SpaceHeader.nextFree header).toNat
  if e < (SpaceHeader.extents header).toNat then return e else grow

/-- Counts one more page of extent `e` as allocated, and looks for the next extent that is not
full when `e` became full. -/
def countAllocated (e : Nat) (h : Page) : Except Halt Page := do
  let used := (← SpaceHeader.used h e) + 1
  let h ← SpaceHeader.setUsed h e used
  let h := SpaceHeader.setAllocated h (SpaceHeader.allocated h + 1)
  if bitmapCapacity ≤ used.toNat then
    let next := (← SpaceHeader.findNotFull h (e + 1)).getD (SpaceHeader.extents h).toNat
    return SpaceHeader.setNextFree h (UInt32.ofNat next)
  else return h

/-- Counts one page of extent `e` less as allocated. -/
def countFreed (e : Nat) (h : Page) : Except Halt Page := do
  let h ← SpaceHeader.setUsed h e ((← SpaceHeader.used h e) - 1)
  let h := SpaceHeader.setAllocated h (SpaceHeader.allocated h - 1)
  return if e < (SpaceHeader.nextFree h).toNat then SpaceHeader.setNextFree h (UInt32.ofNat e)
    else h

/-- Allocates the lowest free page. -/
def allocate : Action (Space m) PageId := do
  let e ← roomyExtent
  let f ← onBitmaps (BitmapCache.fetch e)
  match Bitmap.allocate (← get).bitmaps.slots[f].bits with
  | none => throw (.refused (.spaceMap (.noFreeSlot (UInt32.ofNat e))))
  | some (o, bits) =>
    onBitmaps (modify (·.edit f bits))
    editHeader (countAllocated e)
    return PageId.ofPlace e o

/-- Frees page `p`, which must be allocated. -/
def free (p : PageId) : Action (Space m) Unit := do
  checkRange p
  if (← get).extents.toNat ≤ p.extent then throw (.refused (.alreadyFree p))
  let f ← onBitmaps (BitmapCache.fetch p.extent)
  match Bitmap.free (← get).bitmaps.slots[f].bits p.offset with
  | none => throw (.refused (.alreadyFree p))
  | some bits =>
    onBitmaps (modify (·.edit f bits))
    editHeader (countFreed p.extent)

/-- Whether page `p` is free. -/
def isFree (p : PageId) : Action (Space m) Bool := do
  checkRange p
  if (← get).extents.toNat ≤ p.extent then return true
  let f ← onBitmaps (BitmapCache.fetch p.extent)
  return Bitmap.isFree (← get).bitmaps.slots[f].bits p.offset

/-! ## Contents -/

/-- Reads page `p` into a buffer of `room` bytes, which must be as long as a page. -/
def read (p : PageId) (room : Nat) : Action (Space m) Page := do
  if room ≠ pageSize then throw (.refused (.bufferSize room))
  if ← isFree p then return Block.zero pageSize
  onDevice (Device.read p.physical room)

/-- Writes page `p` from a buffer, which must be as long as a page. -/
def write {n : Nat} (p : PageId) (data : Block n) : Action (Space m) Unit := do
  if n ≠ pageSize then throw (.refused (.bufferSize n))
  if ← isFree p then return
  onDevice (Device.write p.physical data)

end Space

end PageStore
