/-!
# JSON text, read strictly

The parts of a JSON reader that settings need, on the characters that are left to read:
`string` reads a string and decodes its escapes, `natural` reads a plain number, and `skip`
passes over any one value. All refuse what the grammar refuses: a number with a leading zero, a
control character in a string, a comma before a closing bracket.

A string that is only passed over may hold any escape of four hexadecimal digits; a string that
is decoded may not hold half of a surrogate pair.
-/

namespace PageStore.Json

/-- The characters that may stand between tokens. -/
def isBlank (c : Char) : Bool := c = ' ' || c = '\n' || c = '\t' || c = '\r'

/-- Drops the blanks in front. -/
def trim (cs : List Char) : List Char := cs.dropWhile isBlank

/-! ## Strings -/

/-- The value of a hexadecimal digit. -/
def hexDigit? (c : Char) : Option Nat :=
  if '0' ≤ c ∧ c ≤ '9' then some (c.toNat - '0'.toNat)
  else if 'a' ≤ c ∧ c ≤ 'f' then some (c.toNat - 'a'.toNat + 10)
  else if 'A' ≤ c ∧ c ≤ 'F' then some (c.toNat - 'A'.toNat + 10)
  else none

/-- The number that four hexadecimal digits stand for. -/
def hex4? (a b c d : Char) : Option Nat := do
  let a ← hexDigit? a
  let b ← hexDigit? b
  let c ← hexDigit? c
  let d ← hexDigit? d
  return ((a * 16 + b) * 16 + c) * 16 + d

/-- The character that a one-letter escape stands for. -/
def shortEscape? (c : Char) : Option Char :=
  match c with
  | '"' => some '"'
  | '\\' => some '\\'
  | '/' => some '/'
  | 'b' => some '\x08'
  | 'f' => some '\x0c'
  | 'n' => some '\n'
  | 'r' => some '\r'
  | 't' => some '\t'
  | _ => none

/-- Whether a number is the first half of a surrogate pair. -/
def isLeading (n : Nat) : Bool := 0xD800 ≤ n && n ≤ 0xDBFF

/-- Whether a number is the second half of a surrogate pair. -/
def isTrailing (n : Nat) : Bool := 0xDC00 ≤ n && n ≤ 0xDFFF

/-- The decoded rest of a string and what follows its closing quote. -/
def string : List Char → Option (List Char × List Char)
  | [] => none
  | '"' :: rest => some ([], rest)
  | '\\' :: 'u' :: a :: b :: c :: d :: '\\' :: 'u' :: e :: f :: g :: h :: rest => do
    let n ← hex4? a b c d
    if isLeading n then
      let m ← hex4? e f g h
      if isTrailing m then
        let (text, left) ← string rest
        return (Char.ofNat (0x10000 + (n - 0xD800) * 0x400 + (m - 0xDC00)) :: text, left)
      else none
    else if isTrailing n then none
    else
      let (text, left) ← string ('\\' :: 'u' :: e :: f :: g :: h :: rest)
      return (Char.ofNat n :: text, left)
  | '\\' :: 'u' :: a :: b :: c :: d :: rest => do
    let n ← hex4? a b c d
    if isLeading n || isTrailing n then none
    else
      let (text, left) ← string rest
      return (Char.ofNat n :: text, left)
  | '\\' :: e :: rest => do
    let c ← shortEscape? e
    let (text, left) ← string rest
    return (c :: text, left)
  | c :: rest =>
    if c.toNat < 0x20 then none
    else do
      let (text, left) ← string rest
      return (c :: text, left)

/-- What follows the closing quote of a string that is only passed over. -/
def skipString : List Char → Option (List Char)
  | [] => none
  | '"' :: rest => some rest
  | '\\' :: 'u' :: a :: b :: c :: d :: rest =>
    if (hex4? a b c d).isSome then skipString rest else none
  | '\\' :: e :: rest => if (shortEscape? e).isSome then skipString rest else none
  | c :: rest => if c.toNat < 0x20 then none else skipString rest

/-! ## Numbers -/

/-- Digits without a superfluous zero in front, and what follows them. -/
def digits (cs : List Char) : Option (List Char × List Char) :=
  match cs.takeWhile Char.isDigit with
  | [] => none
  | '0' :: _ :: _ => none
  | ds => some (ds, cs.dropWhile Char.isDigit)

/-- Passes over an exponent, if there is one. -/
def skipExponent : List Char → Option (List Char)
  | c :: rest =>
    if c = 'e' ∨ c = 'E' then
      let rest := match rest with
        | '+' :: rest => rest
        | '-' :: rest => rest
        | rest => rest
      if rest.takeWhile Char.isDigit = [] then none else some (rest.dropWhile Char.isDigit)
    else some (c :: rest)
  | [] => some []

/-- Passes over a number without its sign. -/
def skipNumber (cs : List Char) : Option (List Char) := do
  let (_, rest) ← digits cs
  match rest with
  | '.' :: rest =>
    if rest.takeWhile Char.isDigit = [] then none
    else skipExponent (rest.dropWhile Char.isDigit)
  | rest => skipExponent rest

/-- A number of plain digits below `2 ^ 64`, and what follows it. A fraction, an exponent or a
sign makes it no such number. -/
def natural (cs : List Char) : Option (Nat × List Char) := do
  let (ds, rest) ← digits cs
  let n := ds.foldl (fun n c => 10 * n + (c.toNat - '0'.toNat)) 0
  match rest with
  | '.' :: _ => none
  | 'e' :: _ => none
  | 'E' :: _ => none
  | rest => if n < 0x10000000000000000 then some (n, rest) else none

/-! ## Any value -/

mutual

/-- Passes over one value. The first argument bounds the nesting and the number of items; twice
the number of characters is enough. -/
def skipValue : Nat → List Char → Option (List Char)
  | 0, _ => none
  | fuel + 1, cs =>
    match trim cs with
    | 'n' :: 'u' :: 'l' :: 'l' :: rest => some rest
    | 't' :: 'r' :: 'u' :: 'e' :: rest => some rest
    | 'f' :: 'a' :: 'l' :: 's' :: 'e' :: rest => some rest
    | '-' :: rest => skipNumber rest
    | '"' :: rest => skipString rest
    | '[' :: rest =>
      match trim rest with
      | ']' :: rest => some rest
      | rest => skipItems fuel rest
    | '{' :: rest =>
      match trim rest with
      | '}' :: rest => some rest
      | rest => skipMembers fuel rest
    | rest => skipNumber rest

/-- Passes over the items of an array, up to its closing bracket. -/
def skipItems : Nat → List Char → Option (List Char)
  | 0, _ => none
  | fuel + 1, cs => do
    let rest ← skipValue fuel cs
    match trim rest with
    | ',' :: rest => skipItems fuel rest
    | ']' :: rest => some rest
    | _ => none

/-- Passes over the members of an object, up to its closing brace. -/
def skipMembers : Nat → List Char → Option (List Char)
  | 0, _ => none
  | fuel + 1, cs =>
    match trim cs with
    | '"' :: rest => do
      let rest ← skipString rest
      match trim rest with
      | ':' :: rest =>
        let rest ← skipValue fuel rest
        match trim rest with
        | ',' :: rest => skipMembers fuel rest
        | '}' :: rest => some rest
        | _ => none
      | _ => none
    | _ => none

end

/-- What follows one value of any kind. -/
def skip (cs : List Char) : Option (List Char) := skipValue (2 * cs.length + 2) cs

/-! ## Records -/

/-- A field of a record of type `σ`: its name, and how its value is read into the record. -/
structure Field (σ : Type) where
  /-- the member's name in an object -/
  name : String
  /-- reads the value in front into the record -/
  read : List Char → σ → Option (σ × List Char)

/-- Reads the members of an object up to its closing brace. Members of other names are passed
over; a field may be given once. `fuel` bounds the number of members. -/
def members {σ : Type} (fields : List (Field σ)) :
    Nat → List String → σ → List Char → Option (σ × List Char)
  | 0, _, _, _ => none
  | fuel + 1, seen, s, cs =>
    match trim cs with
    | '"' :: rest => do
      let (name, rest) ← string rest
      let name := String.ofList name
      match trim rest with
      | ':' :: rest =>
        let (s, seen, rest) ←
          match fields.find? (fun f => f.name = name) with
          | some f =>
            if name ∈ seen then none
            else (f.read rest s).map fun (s, rest) => (s, name :: seen, rest)
          | none => (skip rest).map fun rest => (s, seen, rest)
        match trim rest with
        | ',' :: rest => members fields fuel seen s rest
        | '}' :: rest => some (s, rest)
        | _ => none
      | _ => none
    | _ => none

/-- Reads the items of an array into the fields in turn, up to its closing bracket. Fields
without an item keep their value. -/
def items {σ : Type} : List (Field σ) → σ → List Char → Option (σ × List Char)
  | [], _, _ => none
  | f :: fields, s, cs => do
    let (s, rest) ← f.read cs s
    match trim rest with
    | ',' :: rest => items fields s rest
    | ']' :: rest => some (s, rest)
    | _ => none

/-- Reads a record from an object or from an array; what is not given keeps its value in `s`. -/
def record {σ : Type} (fields : List (Field σ)) (s : σ) (cs : List Char) :
    Option (σ × List Char) :=
  match trim cs with
  | '{' :: rest =>
    match trim rest with
    | '}' :: rest => some (s, rest)
    | rest => members fields (rest.length + 1) [] s rest
  | '[' :: rest =>
    match trim rest with
    | ']' :: rest => some (s, rest)
    | rest => items fields s rest
  | _ => none

/-- Reads a text that holds one record and nothing else. -/
def document {σ : Type} (fields : List (Field σ)) (s : σ) (text : String) : Option σ := do
  let (s, rest) ← record fields s text.toList
  if trim rest = [] then some s else none

end PageStore.Json
