import Mathlib.Data.List.FinRange
import PageStore.Proofs.Roots

/-!
# The roots page over its whole life

A run records roots in a page of zeros and drops them again, in any order and with any indices. All
the while the page is a map with room for `maxIndexRoots` indices, `IsMap`.

The operations take a slot to be one of the page. `Checked` are the same operations with slots that
are any numbers, and with every access checked: they end without a result when one does not lie in
the page. They always have a result, and it is the same, whatever the bytes of the page are. So no
bytes lead an operation out of the page.
-/

namespace PageStore

/-! ## Calls -/

/-- What can be asked of a roots page. -/
inductive RootsCall where
  | set (index : UInt32) (root : PageId)
  | remove (index : UInt32)

namespace RootsCall

/-- The index that a call is about. -/
def index : RootsCall → UInt32
  | set index _ => index
  | remove index => index

/-- Makes a call. A call that is refused leaves the page as it is. -/
def run : RootsCall → Page → Bool × Page
  | set index root, b =>
    match Roots.set b index root with
    | some b' => (true, b')
    | none => (false, b)
  | remove index, b =>
    match Roots.erase b index with
    | some b' => (true, b')
    | none => (false, b)

end RootsCall

namespace Roots

/-- **The page is a map** with room for so many indices. -/
structure IsMap (b : Page) : Prop where
  /-- a new index is refused when there is no room, and no byte changes -/
  refuses : ∀ i root, get? b i = none → count b = maxIndexRoots →
    (RootsCall.set i root).run b = (false, b)
  /-- otherwise the root of the index is recorded -/
  records : ∀ i root, get? b i ≠ none ∨ count b ≠ maxIndexRoots →
    ((RootsCall.set i root).run b).1 = true ∧ get? ((RootsCall.set i root).run b).2 i = some root
  /-- an index that is recorded can be dropped, and no other -/
  drops : ∀ i, ((RootsCall.remove i).run b).1 = (get? b i).isSome ∧
    get? ((RootsCall.remove i).run b).2 i = none
  /-- no call changes the root of another index -/
  others : ∀ (call : RootsCall) i, i ≠ call.index → get? (call.run b).2 i = get? b i
  /-- every index that is recorded is listed with its root -/
  mem_entries : ∀ i root, (i, root) ∈ entries b ↔ get? b i = some root
  /-- and only once -/
  nodup : ((entries b).map Prod.fst).Nodup
  /-- so the count is their number -/
  count_eq : count b = (entries b).length

/-! ## The map -/

variable {b : Page} {i : UInt32} {root : PageId}

theorem length_slots (b : Page) : (slots b).length = count b := by
  rw [slots, List.length_take, List.length_finRange]
  exact Nat.min_eq_left (count_le b)

theorem mem_entries_iff : (i, root) ∈ entries b ↔ Records b i root := by
  rw [entries, List.mem_map]
  constructor
  · rintro ⟨s, hs, hentry⟩
    obtain ⟨hi, hroot⟩ := Prod.mk.inj hentry
    exact ⟨s, mem_slots_iff.1 hs, hi, hroot⟩
  · rintro ⟨s, hs, rfl, rfl⟩
    exact ⟨s, mem_slots_iff.2 hs, rfl⟩

theorem Distinct.nodup_entries (h : Distinct b) : ((entries b).map Prod.fst).Nodup := by
  rw [entries, List.map_map]
  refine List.Nodup.map_on (fun s hs t ht hst => ?_)
    ((List.nodup_finRange maxIndexRoots).sublist (List.take_sublist _ _))
  exact h s t (mem_slots_iff.1 hs) (mem_slots_iff.1 ht) hst

/-- **One call** leaves a page that records no index twice. It changes the root of one index. -/
theorem Distinct.run (h : Distinct b) (call : RootsCall) : Distinct (call.run b).2 ∧
    ∀ i, i ≠ call.index → get? (call.run b).2 i = get? b i := by
  cases call with
  | set j root =>
    rcases hset : Roots.set b j root with _ | b'
    · rw [RootsCall.run, hset]
      exact ⟨h, fun _ _ => rfl⟩
    · obtain ⟨hd, hget⟩ := h.get?_set hset
      rw [RootsCall.run, hset]
      exact ⟨hd, fun i hi => (hget i).trans (if_neg hi)⟩
  | remove j =>
    rcases herase : Roots.erase b j with _ | b'
    · rw [RootsCall.run, herase]
      exact ⟨h, fun _ _ => rfl⟩
    · obtain ⟨hd, hget⟩ := h.get?_erase herase
      rw [RootsCall.run, herase]
      exact ⟨hd, fun i hi => (hget i).trans (if_neg hi)⟩

/-- A page that records no index twice is a map. -/
theorem Distinct.isMap (h : Distinct b) : IsMap b where
  refuses i root hnone hfull := by
    rw [RootsCall.run, set_eq_none_iff.2 ⟨hnone, hfull⟩]
  records i root hroom := by
    rcases hset : Roots.set b i root with _ | b'
    · obtain ⟨hnone, hfull⟩ := set_eq_none_iff.1 hset
      exact absurd hroom (not_or.2 ⟨fun hne => hne hnone, fun hne => hne hfull⟩)
    · rw [RootsCall.run, hset]
      exact ⟨rfl, ((h.get?_set hset).2 i).trans (if_pos rfl)⟩
  drops i := by
    rcases herase : Roots.erase b i with _ | b'
    · have hnone := erase_eq_none_iff.1 herase
      rw [RootsCall.run, herase, hnone]
      exact ⟨rfl, rfl⟩
    · have hsome : get? b i ≠ none := fun hnone => by
        rw [erase_eq_none_iff.2 hnone] at herase
        cases herase
      rw [RootsCall.run, herase, Option.isSome_iff_ne_none.2 hsome]
      exact ⟨rfl, ((h.get?_erase herase).2 i).trans (if_pos rfl)⟩
  others call := (h.run call).2
  mem_entries i root := mem_entries_iff.trans h.get?_eq_some_iff.symm
  nodup := h.nodup_entries
  count_eq := by rw [entries, List.length_map, length_slots]

theorem distinct_after (calls : List RootsCall) :
    Distinct (calls.foldl (fun b call => (call.run b).2) (Block.zero pageSize)) := by
  suffices hrun : ∀ b, Distinct b → Distinct (calls.foldl (fun b call => (call.run b).2) b) from
    hrun _ distinct_zero
  induction calls with
  | nil => exact fun b hb => hb
  | cons call calls ih => exact fun b hb => ih _ (hb.run call).1

/-! ## Every access checked -/

namespace Checked

/-- Number of records. -/
def count (b : Page) : Option Nat := do
  return min (← b.readWord 0).toNat maxIndexRoots

/-- The index in slot `s`. -/
def indexAt (b : Page) (s : Nat) : Option UInt32 := b.readWord (4 + s * 8)

/-- The root in slot `s`. -/
def rootAt (b : Page) (s : Nat) : Option PageId := do
  return ⟨← b.readWord (4 + s * 8 + 4)⟩

/-- The first slot with the index. -/
def find? (b : Page) (index : UInt32) : Option (Option Nat) := do
  (List.range (← count b)).findM? fun s => do return (← indexAt b s) = index

/-- The root that is recorded for an index. -/
def get? (b : Page) (index : UInt32) : Option (Option PageId) := do
  match ← find? b index with
  | some s => return some (← rootAt b s)
  | none => return none

/-- The records in order. -/
def entries (b : Page) : Option (List (UInt32 × PageId)) := do
  (List.range (← count b)).mapM fun s => do return (← indexAt b s, ← rootAt b s)

/-- Overwrites a record. -/
def put (b : Page) (s : Nat) (index : UInt32) (root : PageId) : Option Page := do
  (← b.writeWord (4 + s * 8) index).writeWord (4 + s * 8 + 4) root.val

/-- Overwrites the count. -/
def setCount (b : Page) (k : Nat) : Option Page := b.writeWord 0 (UInt32.ofNat k)

/-- Records the root of an index, if there is room. -/
def set (b : Page) (index : UInt32) (root : PageId) : Option (Bool × Page) := do
  match ← find? b index with
  | some s => return (true, ← put b s index root)
  | none =>
    let last ← count b
    if maxIndexRoots ≤ last then return (false, b)
    return (true, ← setCount (← put b last index root) (last + 1))

/-- Drops the record of an index, if there is one. -/
def erase (b : Page) (index : UInt32) : Option (Bool × Page) := do
  match ← find? b index with
  | none => return (false, b)
  | some s =>
    let last := (← count b) - 1
    if s = last then return (true, ← setCount b last)
    return (true, ← setCount (← put b s (← indexAt b last) (← rootAt b last)) last)

/-! ## Reads and writes of the page -/

theorem count_eq_some (b : Page) : count b = some (Roots.count b) := by
  rw [count, Block.readWord_eq_some b (by decide)]
  rfl

theorem indexAt_eq_some (b : Page) (s : Slot) : indexAt b s = some (Roots.indexAt b s) :=
  Block.readWord_eq_some b _

theorem rootAt_eq_some (b : Page) (s : Slot) : rootAt b s = some (Roots.rootAt b s) := by
  rw [rootAt, Block.readWord_eq_some b (slot_le s)]
  rfl

theorem put_eq_some (b : Page) (s : Slot) (index : UInt32) (root : PageId) :
    put b s index root = some (Roots.put b s index root) := by
  have := slot_le s
  rw [put, Block.writeWord_eq_some b index (by omega)]
  exact Block.writeWord_eq_some _ _ (slot_le s)

theorem setCount_eq_some (b : Page) (k : Nat) :
    setCount b k = some (b.setWord 0 (UInt32.ofNat k)) :=
  Block.writeWord_eq_some b _ (by decide)

/-! ## Loops over the slots -/

/-- The records are in the first slots. -/
theorem map_val_slots (b : Page) : (slots b).map Fin.val = List.range (Roots.count b) := by
  rw [slots, List.map_take, List.map_coe_finRange_eq_range, List.take_range,
    Nat.min_eq_left (count_le b)]

theorem findM?_map_val {p : Nat → Option Bool} {g : Slot → Bool}
    (hp : ∀ s : Slot, p s.val = some (g s)) (l : List Slot) :
    (l.map Fin.val).findM? p = some ((l.find? g).map Fin.val) := by
  induction l with
  | nil => rfl
  | cons s l ih =>
    rw [List.map_cons, List.findM?, hp, List.find?_cons]
    cases g s with
    | true => rfl
    | false => exact ih

theorem mapM_map_val {α : Type} {f : Nat → Option α} {g : Slot → α}
    (hf : ∀ s : Slot, f s.val = some (g s)) (l : List Slot) :
    (l.map Fin.val).mapM f = some (l.map g) := by
  induction l with
  | nil => rfl
  | cons s l ih =>
    rw [List.map_cons, List.mapM_cons, hf, ih]
    rfl

/-! ## The operations -/

theorem find?_eq_some (b : Page) (index : UInt32) :
    find? b index = some ((Roots.find? b index).map Fin.val) := by
  rw [find?, count_eq_some, Option.bind_eq_bind, Option.bind_some, ← map_val_slots]
  refine findM?_map_val (fun s => ?_) (slots b)
  rw [indexAt_eq_some]
  rfl

theorem get?_eq_some (b : Page) (index : UInt32) : get? b index = some (Roots.get? b index) := by
  rw [get?, find?_eq_some, Roots.get?]
  rcases Roots.find? b index with _ | s
  · rfl
  · simp only [Option.map_some, Option.bind_eq_bind, Option.bind_some, rootAt_eq_some]
    rfl

theorem entries_eq_some (b : Page) : entries b = some (Roots.entries b) := by
  rw [entries, count_eq_some, Option.bind_eq_bind, Option.bind_some, ← map_val_slots]
  refine mapM_map_val (fun s => ?_) (slots b)
  rw [indexAt_eq_some, rootAt_eq_some]
  rfl

theorem set_eq_some (b : Page) (index : UInt32) (root : PageId) :
    set b index root = some ((RootsCall.set index root).run b) := by
  rw [set, find?_eq_some, RootsCall.run, Roots.set]
  rcases Roots.find? b index with _ | s
  · simp only [Option.map_none, Option.bind_eq_bind, Option.bind_some, count_eq_some]
    by_cases hroom : Roots.count b < maxIndexRoots
    · rw [if_neg (Nat.not_le_of_lt hroom), dif_pos hroom, put_eq_some b ⟨Roots.count b, hroom⟩,
        Option.bind_some, setCount_eq_some]
      rfl
    · rw [if_pos (Nat.le_of_not_lt hroom), dif_neg hroom]
      rfl
  · simp only [Option.map_some, Option.bind_eq_bind, Option.bind_some, put_eq_some]
    rfl

theorem erase_eq_some (b : Page) (index : UInt32) :
    erase b index = some ((RootsCall.remove index).run b) := by
  rw [erase, find?_eq_some, RootsCall.run, Roots.erase]
  rcases Roots.find? b index with _ | s
  · rfl
  · have hval : Roots.count b - 1 = (lastSlot b).val := rfl
    simp only [Option.map_some, Option.bind_eq_bind, Option.bind_some, count_eq_some, hval,
      Fin.val_inj, indexAt_eq_some, rootAt_eq_some, put_eq_some, setCount_eq_some]
    by_cases hlast : s = lastSlot b
    · rw [if_pos hlast, if_pos hlast]
      rfl
    · rw [if_neg hlast, if_neg hlast]
      rfl

end Checked

/-- **The roots page is a bounded map.** After every run from a page of zeros it acts as one. On any
bytes whatsoever, no operation reads or writes outside the page. -/
theorem bounded_map :
    (∀ calls : List RootsCall,
      IsMap (calls.foldl (fun b call => (call.run b).2) (Block.zero pageSize))) ∧
    ∀ (b : Page) (i : UInt32) (root : PageId),
      Checked.count b = some (count b) ∧ Checked.get? b i = some (get? b i) ∧
      Checked.entries b = some (entries b) ∧
      Checked.set b i root = some ((RootsCall.set i root).run b) ∧
      Checked.erase b i = some ((RootsCall.remove i).run b) :=
  ⟨fun calls => (distinct_after calls).isMap, fun b i root =>
    ⟨Checked.count_eq_some b, Checked.get?_eq_some b i, Checked.entries_eq_some b,
      Checked.set_eq_some b i root, Checked.erase_eq_some b i⟩⟩

end Roots

end PageStore
