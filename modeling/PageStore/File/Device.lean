import PageStore.File.Image

/-!
# The device

A device is an open page file that counts the pages read and written. Physical pages are
numbered by their place in the file.
-/

namespace PageStore

/-- An open page file with its counters. -/
structure Device where
  /-- what the file holds -/
  image : Image := {}
  /-- pages read since the file was opened -/
  reads : UInt32 := 0
  /-- pages written since the file was opened -/
  writes : UInt32 := 0

namespace Device

/-- Opens the file at a path, creating it if nothing is there. -/
def openVolume (v : Volume) : Except StoreError Device := do
  return { image := ← v.openFile }

/-- Reads physical page `p`. -/
def load (d : Device) (p : UInt32) : Page × Device :=
  (d.image.read p, { d with reads := d.reads + 1 })

/-- Writes physical page `p`. -/
def store (d : Device) (p : UInt32) (page : Page) : Device :=
  { d with image := d.image.write p page, writes := d.writes + 1 }

/-- Reads physical page `p` into a buffer of `room` bytes, which must be as long as a page. -/
def read (p : UInt32) (room : Nat) : Action Device Page := fun d =>
  if room = pageSize then
    match d.load p with
    | (page, d) => .ok page d
  else .error .fault d

/-- Writes physical page `p` from a buffer, which must be as long as a page. -/
def write {n : Nat} (p : UInt32) (data : Block n) : Action Device Unit := fun d =>
  match data.toPage? with
  | some page => .ok () (d.store p page)
  | none => .error .fault d

@[simp] theorem image_load (d : Device) (p : UInt32) : (d.load p).2.image = d.image := rfl

@[simp] theorem image_store (d : Device) (p : UInt32) (page : Page) :
    (d.store p page).image = d.image.write p page := rfl

end Device

end PageStore
