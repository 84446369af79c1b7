import Std.Data.HashMap
import PageStore.Action

/-!
# The bytes of a page file

An `Image` is what a file holds: a length, and the pages that were written. It is sparse: a page
that was never written reads as zeros, and so does everything past the end. `read_write_self`
and `read_write_of_ne` say what a written page does to the pages read later.

A `Volume` is what a path leads to: nothing yet, a directory, or a file.
-/

namespace PageStore

/-- The contents of a page file. -/
structure Image where
  /-- length of the file in bytes -/
  size : Nat := 0
  /-- the pages that were written -/
  pages : Std.HashMap UInt32 Page := ∅

namespace Image

/-- Number of whole pages in the file. -/
def pageCount (img : Image) : Nat := img.size / pageSize

/-- Physical page `p`, with zeros where nothing was written. -/
def read (img : Image) (p : UInt32) : Page := img.pages.getD p (Block.zero pageSize)

/-- Writes physical page `p`; the file grows to hold it. -/
def write (img : Image) (p : UInt32) (page : Page) : Image where
  size := max img.size ((p.toNat + 1) * pageSize)
  pages := img.pages.insert p page

/-- Makes the file `n` bytes long: cuts it off there, or lets it grow by zeros. What was cut off
does not come back when the file grows again. -/
def resize (img : Image) (n : Nat) : Image where
  size := n
  pages := img.pages.filterMap fun p page =>
    if p.toNat < n / pageSize then some page
    else if p.toNat = n / pageSize then
      some (page.patch (n % pageSize) (List.replicate (pageSize - n % pageSize) 0))
    else none

@[simp] theorem read_empty (p : UInt32) : ({} : Image).read p = Block.zero pageSize := by
  simp [read]

/-- A written page reads back. -/
@[simp] theorem read_write_self (img : Image) (p : UInt32) (page : Page) :
    (img.write p page).read p = page := by
  simp [read, write]

/-- Writing a page leaves the others alone. -/
theorem read_write_of_ne (img : Image) {p q : UInt32} (page : Page) (h : p ≠ q) :
    (img.write p page).read q = img.read q := by
  simp [read, write, Std.HashMap.getD_insert, h]

/-- A file never shrinks by being written to. -/
theorem size_le_size_write (img : Image) (p : UInt32) (page : Page) :
    img.size ≤ (img.write p page).size := Nat.le_max_left ..

end Image

/-- What a path leads to. -/
inductive Volume where
  /-- nothing is there yet -/
  | missing
  /-- a directory is there -/
  | directory
  /-- a file is there -/
  | file (image : Image)

namespace Volume

/-- The file at the path, which is created if nothing is there. -/
def openFile : Volume → Except StoreError Image
  | missing => .ok {}
  | directory => .error (.io "Is a directory")
  | file image => .ok image

/-- Length of the file in bytes, if there is one. -/
def size? : Volume → Option Nat
  | file image => some image.size
  | _ => none

end Volume

end PageStore
