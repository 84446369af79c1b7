import PageStore.Bytes.Block

/-!
# Page, frame and row identifiers

A page id is a 32-bit number whose largest value stands for "no page"; that value is also what
a page stores where it has nothing to point at. A row id names a row of some other page by page
id and slot, and is stored in six bytes.
-/

namespace PageStore

/-! ## Pages and frames -/

/-- The number of a logical page, or `PageId.none`. -/
structure PageId where
  /-- the number itself -/
  val : UInt32
  deriving DecidableEq, Hashable, Repr, Inhabited

namespace PageId

/-- The value that stands for "no page". -/
def none : PageId := ⟨4294967295⟩

/-- The page that holds the catalog, by convention. -/
def catalog : PageId := ⟨0⟩

/-- The page that records the roots of trees, by convention. -/
def roots : PageId := ⟨1⟩

/-- Whether the id names a page at all. -/
def isSome (p : PageId) : Bool := p ≠ none

instance : ToString PageId := ⟨fun p => "PageId(" ++ toString p.val.toNat ++ ")"⟩

@[simp] theorem isSome_none : none.isSome = false := by decide

theorem isSome_iff {p : PageId} : p.isSome = true ↔ p ≠ none := by simp [isSome]

/-- Every id that a space can hand out names a page. -/
theorem isSome_of_lt {p : PageId} (h : p.val.toNat < maxLogicalPages) : p.isSome = true := by
  rw [isSome_iff]
  rintro rfl
  exact absurd h (by decide)

end PageId

/-- The number of a frame of a pool. -/
structure FrameId where
  /-- the number itself -/
  val : UInt32
  deriving DecidableEq, Repr

instance : ToString FrameId := ⟨fun f => "FrameId(" ++ toString f.val.toNat ++ ")"⟩

/-! ## Rows -/

/-- Where a row lives: a page, and a slot inside it. -/
structure RowId where
  /-- the page that holds the row -/
  page : PageId
  /-- the slot inside that page -/
  slot : UInt16
  deriving DecidableEq, Repr, Inhabited

namespace RowId

/-- The stored form: the page id's four bytes, then the slot's two. -/
def toBytes (r : RowId) : List UInt8 :=
  Block.wordBytes r.page.val ++ LittleEndian.toBytes 2 r.slot.toNat

/-- Reads a stored row id from the front of some bytes; later bytes are ignored. -/
def ofBytes? (bytes : List UInt8) : Option RowId :=
  if bytes.length < rowIdSize then none
  else some ⟨⟨Block.wordOf (bytes.take 4)⟩,
    UInt16.ofNat (LittleEndian.ofBytes ((bytes.drop 4).take 2))⟩

@[simp] theorem length_toBytes (r : RowId) : r.toBytes.length = rowIdSize := by simp [toBytes]

/-- A stored row id reads back, whatever follows it. -/
@[simp] theorem ofBytes?_toBytes_append (r : RowId) (rest : List UInt8) :
    ofBytes? (r.toBytes ++ rest) = some r := by
  have hlen : ¬(r.toBytes ++ rest).length < rowIdSize := by simp
  have hslot : r.slot.toNat < 2 ^ 16 := r.slot.toNat_lt
  have htake : (r.toBytes ++ rest).take 4 = Block.wordBytes r.page.val := by
    simp [toBytes]
  have hdrop : ((r.toBytes ++ rest).drop 4).take 2 = LittleEndian.toBytes 2 r.slot.toNat := by
    simp [toBytes]
  rw [ofBytes?, if_neg hlen, htake, hdrop, Block.wordOf_wordBytes, LittleEndian.ofBytes_toBytes,
    Nat.mod_eq_of_lt (by omega)]
  simp

@[simp] theorem ofBytes?_toBytes (r : RowId) : ofBytes? r.toBytes = some r := by
  simpa using ofBytes?_toBytes_append r []

end RowId

end PageStore
