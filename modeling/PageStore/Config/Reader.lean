import PageStore.Config
import PageStore.Config.Json

/-!
# Settings from JSON

Settings are written as a JSON object, or as an array of the values in order. A value that is
not given keeps its default, other members are ignored, and a member must not be given twice.
-/

namespace PageStore

open Json (Field natural string trim document)

/-- A count, which is a plain number. -/
def Json.count (cs : List Char) : Option (Nat × List Char) := natural (trim cs)

/-- A count, or `null` for none. -/
def Json.optionalCount (cs : List Char) : Option (Option Nat × List Char) :=
  match trim cs with
  | 'n' :: 'u' :: 'l' :: 'l' :: rest => some (none, rest)
  | cs => (natural cs).map fun (n, rest) => (some n, rest)

/-- The policy of a given name. -/
def Policy.ofName? (name : String) : Option Policy :=
  if name = "lru" then some .lru else if name = "clock" then some .clock else none

/-- The name of a policy. -/
def Policy.name : Policy → String
  | lru => "lru"
  | clock => "clock"

/-- A policy is given by its name, or by an object with that name and `null`. -/
def Json.policy (cs : List Char) : Option (Policy × List Char) :=
  match trim cs with
  | '"' :: rest => do
    let (name, rest) ← string rest
    let p ← Policy.ofName? (String.ofList name)
    return (p, rest)
  | '{' :: rest =>
    match trim rest with
    | '"' :: rest => do
      let (name, rest) ← string rest
      let p ← Policy.ofName? (String.ofList name)
      match trim rest with
      | ':' :: rest =>
        match trim rest with
        | 'n' :: 'u' :: 'l' :: 'l' :: rest =>
          match trim rest with
          | '}' :: rest => some (p, rest)
          | _ => none
        | _ => none
      | _ => none
    | _ => none
  | _ => none

/-- A field whose value is read by `value` and stored by `store`. -/
def Json.Field.of {σ α : Type} (name : String) (value : List Char → Option (α × List Char))
    (store : σ → α → σ) : Field σ where
  name := name
  read cs s := (value cs).map fun (a, rest) => (store s a, rest)

/-- The settings of a pool that a text holds. -/
def PoolConfig.ofJson? (text : String) : Option PoolConfig :=
  document
    [.of "pool_size" Json.count fun c n => { c with poolSize := n },
      .of "replacer" Json.policy fun c p => { c with policy := p }]
    {} text

/-- The settings of a space that a text holds. -/
def SpaceConfig.ofJson? (text : String) : Option SpaceConfig :=
  document [.of "bitmap_cache_frames" Json.count fun c n => { c with bitmapFrames := n }] {} text

/-- The settings of a tree that a text holds. -/
def TreeConfig.ofJson? (text : String) : Option TreeConfig :=
  document
    [.of "leaf_max_size" Json.optionalCount fun c n => { c with leafMax := n },
      .of "internal_max_size" Json.optionalCount fun c n => { c with internalMax := n }]
    {} text

/-- A policy's name names it and nothing else. -/
theorem Policy.ofName?_eq_some_iff {name : String} {p : Policy} :
    Policy.ofName? name = some p ↔ name = p.name := by
  unfold Policy.ofName?
  constructor
  · intro h
    split at h
    · cases h
      assumption
    · split at h
      · cases h
        assumption
      · cases h
  · rintro rfl
    cases p <;> decide

end PageStore
