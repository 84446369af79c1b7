import PageStore.Bytes.LittleEndian

/-!
# Keys and their orders

A key is a run of bytes, and all keys of a tree have one width. Two orders are offered:

* `bytewise` compares keys as words of bytes, first byte first;
* `integer` compares keys of one to eight bytes as signed little-endian numbers, and any other
  keys bytewise.

`Key.ofInt` writes a number as a key and `Key.toInt` reads one.
-/

namespace PageStore

/-- The bytes of a key. -/
abbrev Key : Type := List UInt8

namespace Key

/-- The key of `width` bytes, from one to eight, that holds the low bytes of the 64-bit two's
complement of `v`. A width outside that range counts as the nearest one inside. -/
def ofInt (v : Int) (width : Nat) : Key :=
  LittleEndian.toBytes (max 1 (min width 8)) (v % 0x10000000000000000).toNat

/-- The byte that extends a key to eight bytes without changing its sign: all ones when the top
bit of the last byte is set. -/
def signByte (k : Key) : UInt8 :=
  if k.getLast?.any (128 ≤ ·) then 255 else 0

/-- The signed number that a key stands for: its first eight bytes, extended by the sign of its
last byte. -/
def toInt (k : Key) : Int :=
  let bytes := k.take 8 ++ List.replicate (8 - k.length) (signByte k)
  let n := LittleEndian.ofBytes bytes
  if n < 0x8000000000000000 then n else (n : Int) - 0x10000000000000000

/-- Whether the key is narrow enough to be compared as a number. -/
def isInteger (k : Key) : Bool := 1 ≤ k.length && k.length ≤ 8

end Key

/-- An order on keys. -/
inductive KeyOrder where
  | integer
  | bytewise
  deriving DecidableEq, Repr

namespace KeyOrder

/-- Compares two keys. -/
def compare : KeyOrder → Key → Key → Ordering
  | integer, a, b =>
    if a.isInteger && b.isInteger then Ord.compare a.toInt b.toInt else Ord.compare a b
  | bytewise, a, b => Ord.compare a b

end KeyOrder

end PageStore
