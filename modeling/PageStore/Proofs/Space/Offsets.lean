import Mathlib.Order.Bounds.Basic
import PageStore.Proofs.Space.Bitmap

/-!
# A bitmap over its whole life

A run allocates offsets from an empty bitmap and frees them, in any order and with any offsets, also
such that are free already or no offsets of an extent. `Out` keeps the offsets that were handed out
and not freed, as the answers tell, next to the page. All the while the page gives out the lowest
offset that is not out, and both its counters are right: `lowest_first`.

It rests on the search, which finds the lowest free offset from any start and on any bytes,
`isLeast_firstFree`.
-/

namespace PageStore

/-! ## Calls -/

/-- What can be asked of a bitmap. -/
inductive BitmapCall where
  | allocate
  | free (o : Nat)

/-- What it answers: the offset that it hands out, if any, or whether it freed one. -/
inductive BitmapReply where
  | offset (o : Option Nat)
  | freed (done : Bool)
  deriving DecidableEq

namespace BitmapCall

/-- Makes a call. A call that is not granted leaves the page as it is. -/
def run : BitmapCall → Page → BitmapReply × Page
  | allocate, b =>
    match Bitmap.allocate b with
    | some (o, b') => (.offset (some o), b')
    | none => (.offset none, b)
  | free o, b =>
    match Bitmap.free b o with
    | some b' => (.freed true, b')
    | none => (.freed false, b)

/-- The offsets that are out after a call, when those in `S` were out before it. -/
def settle (S : Finset Nat) : BitmapCall → BitmapReply → Finset Nat
  | allocate, .offset (some o) => insert o S
  | free o, .freed true => S.erase o
  | _, _ => S

end BitmapCall

namespace Bitmap

open Finset

/-- A page, and the offsets that it handed out and that were not freed since. -/
structure Out where
  /-- the bitmap -/
  page : Page
  /-- the offsets that are out -/
  offsets : Finset Nat

namespace Out

/-- In a new bitmap no offset is out. -/
def fresh : Out := ⟨empty, ∅⟩

/-- Makes a call, and keeps account of its answer. -/
def step (x : Out) (call : BitmapCall) : Out :=
  ⟨(call.run x.page).2, call.settle x.offsets (call.run x.page).1⟩

end Out

/-- **The page answers as the set `S` of the offsets that are out.** -/
structure Serves (b : Page) (S : Finset Nat) : Prop where
  /-- only offsets of an extent are out -/
  subset : S ⊆ range bitmapCapacity
  /-- the lowest offset that is not out is handed out, as long as there is one -/
  allocate : S ≠ range bitmapCapacity → ∃ o b', BitmapCall.allocate.run b = (.offset (some o), b') ∧
    IsLeast {p | p < bitmapCapacity ∧ p ∉ S} o
  /-- and when all are out, none is, and nothing changes -/
  full : S = range bitmapCapacity → BitmapCall.allocate.run b = (.offset none, b)
  /-- an offset is freed if it is out, and otherwise nothing changes -/
  free : ∀ o, ((BitmapCall.free o).run b).1 = .freed (decide (o ∈ S)) ∧
    (o ∉ S → ((BitmapCall.free o).run b).2 = b)
  /-- the offsets of an extent that are not out are free -/
  isFree : ∀ o, isFree b o = true ↔ o < bitmapCapacity ∧ o ∉ S
  /-- one counter is the number of offsets that are out -/
  allocated : (allocated b).toNat = S.card
  /-- the other is the lowest offset that is not, or the capacity -/
  nextFree : IsLeast (insert bitmapCapacity {o | o ∉ S}) (nextFree b).toNat

/-! ## Searching -/

/-- **The search finds the lowest free offset** from any start, on any bytes, or ends at the
capacity. -/
theorem isLeast_firstFree (b : Page) (f : Nat) :
    IsLeast (insert bitmapCapacity {o | f ≤ o ∧ isFree b o = true}) (firstFree b f) := by
  rcases Nat.lt_or_ge bitmapCapacity f with hf | hf
  · rw [firstFree, dif_neg (Nat.lt_asymm hf)]
    refine ⟨Set.mem_insert .., ?_⟩
    rintro o (rfl | ⟨hfo, -⟩)
    · exact Nat.le_refl _
    · exact Nat.le_trans (Nat.le_of_lt hf) hfo
  · constructor
    · rcases Nat.lt_or_eq_of_le (firstFree_le b f) with hlt | heq
      · exact .inr ⟨le_firstFree b hf, isFree_firstFree hlt⟩
      · exact .inl heq
    · rintro o (rfl | ⟨hfo, hfree⟩)
      · exact firstFree_le b f
      · refine Nat.le_of_not_lt fun hlt => ?_
        rw [isFree_of_lt_firstFree hfo hlt] at hfree
        cases hfree

/-! ## One call -/

namespace Sound

variable {b : Page}

/-- **A call** that hands an offset out, or frees one, keeps the counters right. -/
theorem run (h : Sound b) (call : BitmapCall) : Sound (call.run b).2 ∧
    members (call.run b).2 = call.settle (members b) (call.run b).1 := by
  cases call with
  | allocate =>
    rcases Nat.lt_or_eq_of_le (card_members_le b) with hroom | hfull
    · obtain ⟨b', hrun, hb', hmem⟩ := h.allocate_eq_some hroom
      rw [BitmapCall.run, hrun]
      exact ⟨hb', hmem⟩
    · rw [BitmapCall.run, h.allocate_eq_none hfull]
      exact ⟨h, rfl⟩
  | free o =>
    by_cases ho : o ∈ members b
    · obtain ⟨b', hrun, hb', hmem⟩ := h.free_eq_some ho
      rw [BitmapCall.run, hrun]
      exact ⟨hb', hmem⟩
    · rw [BitmapCall.run, free_eq_none ho]
      exact ⟨h, rfl⟩

/-- The lowest offset that is no member. -/
theorem isLeast_not_mem (h : Sound b) :
    IsLeast (insert bitmapCapacity {o | o ∉ members b}) (nextFree b).toNat := by
  have hleast := isLeast_firstFree b 0
  rw [h.nextFree_eq]
  constructor
  · rcases hleast.1 with heq | ⟨-, hfree⟩
    · exact .inl heq
    · exact .inr (isFree_iff.1 hfree).2
  · rintro o (rfl | ho)
    · exact firstFree_le b 0
    · exact Nat.le_of_not_lt fun hlt => ho (mem_of_lt_firstFree b hlt)

/-- A page whose counters are right answers as the set of its members. -/
theorem serves (h : Sound b) : Serves b (members b) where
  subset := members_subset b
  allocate hroom := by
    have hcard : (members b).card < bitmapCapacity :=
      Nat.lt_of_le_of_ne (card_members_le b) (mt members_eq_range hroom)
    obtain ⟨b', hrun, -, -⟩ := h.allocate_eq_some hcard
    have hlt := firstFree_lt hcard
    refine ⟨firstFree b 0, b', by rw [BitmapCall.run, hrun],
      isFree_iff.1 (isFree_firstFree hlt), fun o ho => ?_⟩
    exact Nat.le_of_not_lt fun hlt => ho.2 (mem_of_lt_firstFree b hlt)
  full hfull := by
    have hcard : (members b).card = bitmapCapacity := by rw [hfull, card_range]
    rw [BitmapCall.run, h.allocate_eq_none hcard]
  free o := by
    by_cases ho : o ∈ members b
    · obtain ⟨b', hrun, -, -⟩ := h.free_eq_some ho
      rw [BitmapCall.run, hrun, decide_eq_true ho]
      exact ⟨rfl, fun hnot => absurd ho hnot⟩
    · rw [BitmapCall.run, free_eq_none ho, decide_eq_false ho]
      exact ⟨rfl, fun _ => rfl⟩
  isFree _ := isFree_iff
  allocated := h.allocated_eq
  nextFree := h.isLeast_not_mem

end Sound

/-! ## Runs -/

/-- **A run** keeps the counters right, and the members are the offsets that are out. -/
theorem sound_run (calls : List BitmapCall) : Sound (calls.foldl Out.step .fresh).page ∧
    members (calls.foldl Out.step .fresh).page = (calls.foldl Out.step .fresh).offsets := by
  suffices hrun : ∀ x : Out, Sound x.page ∧ members x.page = x.offsets →
      Sound (calls.foldl Out.step x).page ∧
        members (calls.foldl Out.step x).page = (calls.foldl Out.step x).offsets from
    hrun .fresh sound_empty
  induction calls with
  | nil => exact fun x hx => hx
  | cons call calls ih =>
    intro x hx
    obtain ⟨hsound, hmem⟩ := hx.1.run call
    rw [hx.2] at hmem
    exact ih (x.step call) ⟨hsound, hmem⟩

/-- **A bitmap hands out the lowest offset first.** After every run from an empty one it answers as
the set of the offsets that were handed out and not freed. On any bytes whatsoever its search finds
the lowest free offset from any start. -/
theorem lowest_first :
    (∀ calls : List BitmapCall,
      Serves (calls.foldl Out.step .fresh).page (calls.foldl Out.step .fresh).offsets) ∧
    ∀ (b : Page) (f : Nat),
      IsLeast (insert bitmapCapacity {o | f ≤ o ∧ isFree b o = true}) (firstFree b f) := by
  refine ⟨fun calls => ?_, isLeast_firstFree⟩
  obtain ⟨hb, hmem⟩ := sound_run calls
  rw [← hmem]
  exact hb.serves

end Bitmap

end PageStore
