import PageStore.Bytes.Block

/-!
Bytes for a reader: two lower-case hexadecimal digits a byte, and a short digest of a block for
telling contents apart. Main statement: what `encode` writes, `decode?` reads.
-/

namespace PageStore

namespace Hex

/-- The digit of a value below sixteen. -/
def digit (n : Nat) : Char :=
  if n < 10 then Char.ofNat (48 + n) else Char.ofNat (87 + n)

/-- The value of a digit of either case. -/
def value? (c : Char) : Option Nat :=
  if '0' ≤ c ∧ c ≤ '9' then some (c.toNat - 48)
  else if 'a' ≤ c ∧ c ≤ 'f' then some (c.toNat - 87)
  else if 'A' ≤ c ∧ c ≤ 'F' then some (c.toNat - 55)
  else none

/-- The digits of some bytes. -/
def encode : List UInt8 → List Char
  | [] => []
  | x :: xs => digit (x.toNat / 16) :: digit (x.toNat % 16) :: encode xs

/-- The bytes that some digits write. -/
def decode? : List Char → Option (List UInt8)
  | [] => some []
  | a :: b :: rest => do
    let x ← value? a
    let y ← value? b
    return UInt8.ofNat (x * 16 + y) :: (← decode? rest)
  | _ => none

theorem value?_digit {n : Nat} (h : n < 16) : value? (digit n) = some n := by
  have : ∀ n : Fin 16, value? (digit n.val) = some n.val := by decide
  exact this ⟨n, h⟩

/-- What is written is read. -/
theorem decode?_encode (xs : List UInt8) : decode? (encode xs) = some xs := by
  induction xs with
  | nil => rfl
  | cons x xs ih =>
    have hx := x.toNat_lt
    have hsplit : x.toNat / 16 * 16 + x.toNat % 16 = x.toNat := by omega
    have hhigh := value?_digit (show x.toNat / 16 < 16 by omega)
    have hlow := value?_digit (Nat.mod_lt x.toNat (show 0 < 16 by decide))
    simp only [encode, decode?, hhigh, hlow, ih, hsplit, UInt8.ofNat_toNat, Option.bind_eq_bind,
      Option.bind_some, Option.pure_def]

/-- Sixteen digits for a word. -/
def ofWord (w : UInt64) : String :=
  String.ofList ((List.range 16).map fun i => digit ((w.toNat >>> (4 * (15 - i))) % 16))

end Hex

namespace Block

variable {n : Nat}

/-- The bytes up to the last one that is not zero. -/
def trimmed (b : Block n) : List UInt8 := (b.toList.reverse.dropWhile (· = 0)).reverse

/-- A digest of the bytes in their order: FNV-1a of 64 bits. -/
def digest (b : Block n) : UInt64 :=
  b.foldl (fun h x => (h ^^^ x.toUInt64) * 0x100000001b3) 0xcbf29ce484222325

end Block

end PageStore
