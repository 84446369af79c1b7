/-!
# Sizes and limits

Every length in bytes that the format of a page file fixes, and every limit that follows from
one. They are abbreviations of numbers, so arithmetic sees through them.
-/

namespace PageStore

/-! ## Pages and extents -/

/-- Bytes in a page. -/
abbrev pageSize : Nat := 4096

/-- Bytes that a bitmap page spends on its two counters. -/
abbrev bitmapHeaderSize : Nat := 8

/-- Pages that one bitmap governs: one bit each, in the rest of its page. -/
abbrev bitmapCapacity : Nat := (pageSize - bitmapHeaderSize) * 8

/-- Bytes at the front of the space header, before the used count of every extent. -/
abbrev spaceHeaderSize : Nat := 20

/-- Extents that the space header has room to describe. -/
abbrev maxExtents : Nat := (pageSize - spaceHeaderSize) / 4

/-- Every logical page has an id below this bound. -/
abbrev maxLogicalPages : Nat := maxExtents * bitmapCapacity

/-! ## Records inside pages -/

/-- Bytes of a stored row id: a page id and a slot. -/
abbrev rowIdSize : Nat := 6

/-- Bytes of a stored page id. -/
abbrev pageIdSize : Nat := 4

/-- Bytes at the front of a leaf, before its entries. -/
abbrev leafHeaderSize : Nat := 28

/-- Bytes at the front of an internal node, before its entries. -/
abbrev internalHeaderSize : Nat := 24

/-- Roots that one roots page has room to record. -/
abbrev maxIndexRoots : Nat := (pageSize - 4) / 8

/-! ## Defaults -/

/-- Frames of a pool when no size is given. -/
abbrev defaultPoolSize : Nat := 64

/-- Bitmaps kept in memory when no number is given. -/
abbrev defaultBitmapFrames : Nat := 8

theorem pageSize_eq : pageSize = 4096 := rfl

theorem bitmapCapacity_eq : bitmapCapacity = 32704 := rfl

theorem maxExtents_eq : maxExtents = 1019 := rfl

theorem maxLogicalPages_eq : maxLogicalPages = 33325376 := rfl

end PageStore
