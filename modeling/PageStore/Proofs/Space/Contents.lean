import PageStore.Proofs.Space.Run

/-!
# Storage that never aliases

Beside the set of allocated pages, which `OpenSpace.Explained` follows, a space has contents: a
page that is allocated reads as the bytes that were last written to it while it was allocated,
now or in an earlier allocation, and a page that is free reads as zeros. `never_aliases` says so
for every run of calls on a new file. Nothing but a write to the page itself changes its bytes,
because every page has a place of its own in the file, `PageId.Apart`.

What was written is told from the run alone: `lastStored` looks for the last write among the calls
that were made, each with the set of the pages that were allocated when it was made.
-/

namespace PageStore

open Finset

/-! ## Places -/

/-- The page has a place of its own in the file, and none of the 32-bit operations that lead to
its number wraps around. -/
structure PageId.Apart (p : PageId) : Prop where
  /-- the number of the bitmap page before it -/
  bitmap_eq : (bitmapPage p.extent).toNat = 1 + p.extent * (bitmapCapacity + 1)
  /-- its own number -/
  number_eq : p.physical.toNat = (bitmapPage p.extent).toNat + 1 + p.offset
  /-- it is not the header -/
  ne_header : p.physical ≠ 0
  /-- it is no bitmap -/
  ne_bitmap : ∀ e, e < maxExtents → p.physical ≠ bitmapPage e
  /-- it is the place of no other page -/
  eq_of_place : ∀ q : PageId, q.isInRange = true → q.physical = p.physical → q = p

theorem PageId.apart {p : PageId} (hp : p.isInRange = true) : p.Apart where
  bitmap_eq := toNat_bitmapPage (extent_lt hp)
  number_eq := by
    rw [toNat_physical hp, toNat_bitmapPage (extent_lt hp)]
    omega
  ne_header := physical_ne_zero hp
  ne_bitmap e he h := physical_not_isBitmapPage hp ⟨e, he, h⟩
  eq_of_place _ hq h := physical_inj hq hp h

/-! ## What was written -/

/-- The bytes that a call stores for page `p` when the pages `A` are allocated. -/
def SpaceCall.stores (A : Finset Nat) (p : PageId) : SpaceCall → Option Page
  | write q _ data => if q = p ∧ p.val.toNat ∈ A then data.toPage? else none
  | _ => none

/-- The calls that were made, the last one first, each with the pages that were allocated when it
was made. -/
abbrev SpaceHistory : Type := List (Finset Nat × SpaceCall)

/-- The bytes that were last written to page `p` while it was allocated, or else zeros. -/
def SpaceHistory.lastStored (past : SpaceHistory) (p : PageId) : Page :=
  (past.findSome? fun made => made.2.stores made.1 p).getD (Block.zero pageSize)

theorem SpaceHistory.lastStored_cons (A : Finset Nat) (call : SpaceCall) (past : SpaceHistory)
    (p : PageId) :
    lastStored ((A, call) :: past) p = (call.stores A p).getD (lastStored past p) := by
  rw [lastStored, List.findSome?_cons]
  cases call.stores A p <;> rfl

/-! ## What a run answers -/

/-- A read gives the bytes that were last written, a write is done, and a buffer that is not as
long as a page is refused and leaves the space as it is. -/
def SpaceCall.Serves (A : Finset Nat) (past : SpaceHistory) (o : OpenSpace) : SpaceCall → Prop
  | read p room =>
    if room ≠ pageSize then
      (read p room).run o = (.error (.refused (.bufferSize room)), o)
    else if p.val.toNat < maxLogicalPages then
      ((read p room).run o).1 =
        .ok (.bytes (if p.val.toNat ∈ A then past.lastStored p else Block.zero pageSize))
    else ((read p room).run o).1 = .error (.refused (.invalidPage p))
  | write p n data =>
    if n ≠ pageSize then
      (write p n data).run o = (.error (.refused (.bufferSize n)), o)
    else if p.val.toNat < maxLogicalPages then ((write p n data).run o).1 = .ok .done
    else ((write p n data).run o).1 = .error (.refused (.invalidPage p))
  | _ => True

/-- Every call of a run is answered as expected, by the pages `A` that are allocated before it
and by the calls `past` that were made before it. -/
def OpenSpace.Recalls (o : OpenSpace) (A : Finset Nat) (past : SpaceHistory) :
    List SpaceCall → Prop
  | [] => True
  | call :: calls => call.Serves A past o ∧ ∃ A', call.Expected A (call.run o).1 A' ∧
      (call.run o).2.Recalls A' ((A, call) :: past) calls

/-! ## One step -/

namespace Space.Sound

variable {m : Nat} {s : Space m} {p : PageId}

/-- A call that only tells stores nothing. -/
theorem stores_of_tells {call : SpaceCall} {answer : SpaceAnswer} (ht : call.Tells s answer)
    (hp : p.isInRange = true) : call.stores s.members p = none := by
  cases call with
  | write q n data =>
    -- the page is out of range, or the bytes are not as many as a page has
    by_cases hn : n = pageSize
    · refine if_neg ?_
      rintro ⟨rfl, -⟩
      rw [ht.1 hn] at hp
      cases hp
    · have hpage : data.toPage? = none := dif_neg hn
      rw [SpaceCall.stores, hpage, ite_self]
  | _ => rfl

/-- **What a call does to the bytes of a page.** Only a write to the page itself changes them, and
only while it is allocated. -/
theorem stored_run (hs : s.Sound) (call : SpaceCall) (hp : p.isInRange = true) :
    (call.run ⟨m, s⟩).2.space.stored p = (call.stores s.members p).getD (s.stored p) := by
  obtain ⟨answer, o, hrun, hdoes⟩ := hs.does call
  rw [hrun]
  cases hdoes with
  | takes _ _ _ _ _ hst => exact hst p hp
  | returns _ _ _ _ hst => exact hst p hp
  | @stores q data s' _ _ _ hst =>
    have hpage : data.toPage? = some data := dif_pos rfl
    rw [SpaceCall.stores, hpage]
    refine (hst p hp).trans ?_
    by_cases hqp : q = p
    · subst hqp
      by_cases hmem : q.val.toNat ∈ s.members
      · rw [if_pos ⟨rfl, hmem⟩, if_pos ⟨rfl, hmem⟩, Option.getD_some]
      · rw [if_neg fun h => hmem h.2, if_neg fun h => hmem h.2, Option.getD_none]
    · rw [if_neg fun h => hqp h.1.symm, if_neg fun h => hqp h.1, Option.getD_none]
  | tells _ ha htells =>
    rw [stores_of_tells htells hp, Option.getD_none]
    exact ha.stored_eq p hp

/-- **What a call answers**, when the bytes that are stored are those that were last written. -/
theorem serves (hs : s.Sound) {past : SpaceHistory}
    (hpast : ∀ p : PageId, p.isInRange = true → s.stored p = past.lastStored p)
    (call : SpaceCall) : call.Serves s.members past ⟨m, s⟩ := by
  cases call with
  | read p room =>
    rw [SpaceCall.Serves]
    by_cases hroom : room = pageSize
    · subst hroom
      rw [if_neg fun h => h rfl]
      by_cases hp : p.isInRange
      · obtain ⟨s', hrun, -, -⟩ := hs.read_eq_ok hp
        rw [if_pos (PageId.isInRange_iff.1 hp), SpaceCall.run, hrun, ← hpast p hp]
        rfl
      · rw [if_neg fun h => hp (PageId.isInRange_iff.2 h), SpaceCall.run,
          read_of_out_of_range s (by simpa using hp)]
        rfl
    · rw [if_pos hroom, SpaceCall.run, read_of_room_ne s p hroom]
      rfl
  | write p n data =>
    rw [SpaceCall.Serves]
    by_cases hn : n = pageSize
    · subst hn
      rw [if_neg fun h => h rfl]
      by_cases hp : p.isInRange
      · obtain ⟨s', hrun, -, -⟩ := hs.write_eq_ok hp data
        rw [if_pos (PageId.isInRange_iff.1 hp), SpaceCall.run, hrun]
        rfl
      · rw [if_neg fun h => hp (PageId.isInRange_iff.2 h), SpaceCall.run,
          write_of_out_of_range s (by simpa using hp)]
        rfl
    · rw [if_pos hn, SpaceCall.run, write_of_length_ne s p hn]
      rfl
  | _ => trivial

end Space.Sound

/-! ## Runs -/

/-- A space whose bytes are those that were last written goes on answering by them, whatever calls
follow. -/
theorem OpenSpace.Reflects.recalls {o : OpenSpace} {A ever : Finset Nat} {past : SpaceHistory}
    (calls : List SpaceCall) (h : o.Reflects A ever)
    (hpast : ∀ p : PageId, p.isInRange = true → o.space.stored p = past.lastStored p) :
    o.Recalls A past calls := by
  induction calls generalizing o A ever past with
  | nil => trivial
  | cons call calls ih =>
    obtain ⟨A', hexpected, -, hnext⟩ := h.step call
    obtain rfl := h.members_eq
    refine ⟨h.sound.serves hpast call, A', hexpected, ih hnext fun p hp => ?_⟩
    rw [SpaceHistory.lastStored_cons, ← hpast p hp]
    exact h.sound.stored_run call hp

/-- **Logical pages never alias.** Every page has a place of its own in the file. On a new file,
whatever settings it is opened with, every run of calls is explained by the pages that are
allocated and the bytes that were last written to them. -/
theorem Space.never_aliases {config : SpaceConfig} (hconfig : config.validate = .ok ())
    {v : Volume} (hv : v.openFile = .ok {}) (calls : List SpaceCall) :
    (∀ p : PageId, p.val.toNat < maxLogicalPages → p.Apart) ∧
      ∃ s, Space.mount config v = .ok s ∧ OpenSpace.Recalls ⟨_, s⟩ ∅ [] calls := by
  refine ⟨fun p hp => PageId.apart (PageId.isInRange_iff.2 hp), ?_⟩
  obtain ⟨s, hmount, hs, hmem, hext⟩ := Space.Sound.mount_fresh hconfig hv
  have hcover : IsLeast {k | ∀ i ∈ (∅ : Finset Nat), i < k * bitmapCapacity} s.extents.toNat := by
    rw [hext]
    exact ⟨fun _ hi => absurd hi (notMem_empty _), fun _ _ => Nat.zero_le _⟩
  exact ⟨s, hmount, OpenSpace.Reflects.recalls calls ⟨hs, hmem, Subset.refl ∅, hcover⟩ fun p hp =>
    Space.Sound.stored_mount_fresh hconfig hv hmount hp⟩

/-- A page keeps its bytes while it is free and the file is closed. -/
theorem Space.never_aliases_missing :
    (∀ p : PageId, p.val.toNat < maxLogicalPages → p.Apart) ∧
      ∃ s, Space.mount ⟨1⟩ .missing = .ok s ∧ OpenSpace.Recalls ⟨1, s⟩ ∅ []
        [.allocate, .write ⟨0⟩ pageSize (Block.filled pageSize 7), .free ⟨0⟩, .read ⟨0⟩ pageSize,
          .reopen ⟨2⟩ rfl, .allocate, .read ⟨0⟩ pageSize] :=
  @Space.never_aliases ⟨1⟩ rfl .missing rfl _

end PageStore
