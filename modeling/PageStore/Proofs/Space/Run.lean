import PageStore.Proofs.Space.Allocation
import Mathlib.Order.Bounds.Basic

/-!
# A space over its whole life

A run opens a page file, makes calls on it, and closes and opens it again as often as it likes.
All the while the space is a set of pages: `refines_set` explains every answer by the set `A` of
the pages that are allocated, and says what the set is afterwards.

The set of the pages that were ever allocated is carried along, because it is what decides how
far the file has grown.

What a call can do to a sound space is said once, by `SpaceCall.Does`. What runs preserve is then a
matter of its four cases: the set here, and the bytes and the counters elsewhere.
-/

namespace PageStore

open Finset

/-! ## Runs -/

/-- What can be done to an open space. -/
inductive SpaceCall where
  | allocate
  | free (p : PageId)
  | isFree (p : PageId)
  | read (p : PageId) (room : Nat)
  | write (p : PageId) (n : Nat) (data : Block n)
  | flush
  /-- closes the space and opens it again, with settings that are accepted -/
  | reopen (config : SpaceConfig) (accepted : config.validate = .ok ())

/-- The value that a call returns. -/
inductive SpaceReply where
  | done
  | page (p : PageId)
  | flag (b : Bool)
  | bytes (page : Page)

/-- An open space, with any number of slots for bitmaps. -/
structure OpenSpace where
  /-- number of slots for bitmaps -/
  slots : Nat
  /-- the space -/
  space : Space slots

/-- How a call ends: with a reply, or not. -/
abbrev SpaceAnswer : Type := Except Halt SpaceReply

/-- The answer of an action, and the space that it leaves. -/
def SpaceReply.ofResult {α : Type} {m : Nat} (reply : α → SpaceReply) :
    EStateM.Result Halt (Space m) α → SpaceAnswer × OpenSpace
  | .ok a s => (.ok (reply a), ⟨m, s⟩)
  | .error e s => (.error e, ⟨m, s⟩)

/-- Makes a call. -/
def SpaceCall.run : SpaceCall → OpenSpace → SpaceAnswer × OpenSpace
  | allocate, ⟨_, s⟩ => SpaceReply.ofResult .page (Space.allocate s)
  | free p, ⟨_, s⟩ => SpaceReply.ofResult (fun _ => .done) (Space.free p s)
  | isFree p, ⟨_, s⟩ => SpaceReply.ofResult .flag (Space.isFree p s)
  | read p room, ⟨_, s⟩ => SpaceReply.ofResult .bytes (Space.read p room s)
  | write p _ data, ⟨_, s⟩ => SpaceReply.ofResult (fun _ => .done) (Space.write p data s)
  | flush, ⟨m, s⟩ => (.ok .done, ⟨m, s.flush⟩)
  | reopen config _, ⟨m, s⟩ =>
    match Space.mount config s.unmount with
    | .ok s => (.ok .done, ⟨_, s⟩)
    | .error e => (.error (.refused e), ⟨m, s⟩)

/-! ## What a call does -/

section Effects

variable {m : Nat} {s : Space m} {call : SpaceCall} {answer : SpaceAnswer}

/-- What a call answers that takes no page, gives none back and stores nothing. -/
def SpaceCall.Tells (s : Space m) : SpaceCall → SpaceAnswer → Prop
  | allocate, answer => s.members = range maxLogicalPages ∧ answer = .error (.refused .diskFull)
  | free p, answer => p.val.toNat ∉ s.members ∧
      answer = .error (.refused (if p.isInRange then .alreadyFree p else .invalidPage p))
  | isFree p, answer =>
      answer = if p.isInRange then .ok (.flag (decide (p.val.toNat ∉ s.members)))
        else .error (.refused (.invalidPage p))
  | read p room, answer =>
      answer = if room ≠ pageSize then .error (.refused (.bufferSize room))
        else if p.isInRange then
          .ok (.bytes (if p.val.toNat ∈ s.members then s.stored p else Block.zero pageSize))
        else .error (.refused (.invalidPage p))
  | write p n _, answer => (n = pageSize → p.isInRange = false) ∧
      answer = .error (.refused (if n ≠ pageSize then .bufferSize n else .invalidPage p))
  | flush, answer => answer = .ok .done
  | reopen _ _, answer => answer = .ok .done

/-- **What a call does** to a sound space: it takes the lowest free page, gives a page back, stores
bytes for a page if it is allocated, or leaves the space standing for the same. -/
inductive SpaceCall.Does (s : Space m) : SpaceCall → SpaceAnswer → OpenSpace → Prop
  | takes {p : PageId} {s' : Space m} (sound : s'.Sound) (inRange : p.isInRange = true)
      (notMem : p.val.toNat ∉ s.members) (below : ∀ i, i < p.val.toNat → i ∈ s.members)
      (members_eq : s'.members = insert p.val.toNat s.members)
      (stored_eq : ∀ q, q.isInRange = true → s'.stored q = s.stored q)
      (extents_eq : s'.extents.toNat = max s.extents.toNat (p.extent + 1)) :
      Does s .allocate (.ok (.page p)) ⟨m, s'⟩
  | returns {p : PageId} {s' : Space m} (sound : s'.Sound) (mem : p.val.toNat ∈ s.members)
      (members_eq : s'.members = s.members.erase p.val.toNat) (extents_eq : s'.extents = s.extents)
      (stored_eq : ∀ q, q.isInRange = true → s'.stored q = s.stored q) :
      Does s (.free p) (.ok .done) ⟨m, s'⟩
  | stores {p : PageId} {data : Page} {s' : Space m} (sound : s'.Sound)
      (members_eq : s'.members = s.members) (extents_eq : s'.extents = s.extents)
      (stored_eq : ∀ q, q.isInRange = true →
        s'.stored q = if q = p ∧ p.val.toNat ∈ s.members then data else s.stored q) :
      Does s (.write p pageSize data) (.ok .done) ⟨m, s'⟩
  | tells {call : SpaceCall} {answer : SpaceAnswer} {o : OpenSpace} (sound : o.space.Sound)
      (agrees : s.Agrees o.space) (tells : call.Tells s answer) : Does s call answer o

/-- **Every call** does one of these things. -/
theorem Space.Sound.does (hs : s.Sound) (call : SpaceCall) :
    ∃ answer o, call.run ⟨m, s⟩ = (answer, o) ∧ call.Does s answer o := by
  have hself : s.Agrees s := Agrees.refl s
  cases call with
  | allocate =>
    rcases hs.allocate_cases with ⟨hrun, hall⟩ |
      ⟨p, s', hrun, hs', hrange, hnot, hbelow, hmem, hst, hext⟩
    · exact ⟨_, ⟨m, s⟩, congrArg (SpaceReply.ofResult .page) hrun, .tells hs hself ⟨hall, rfl⟩⟩
    · exact ⟨_, _, congrArg (SpaceReply.ofResult .page) hrun,
        .takes hs' hrange hnot hbelow hmem hst hext⟩
  | free p =>
    by_cases hp : p.val.toNat ∈ s.members
    · obtain ⟨s', hrun, hs', hmem, hext, hst⟩ := hs.free_eq_ok hp
      exact ⟨_, _, congrArg (SpaceReply.ofResult fun _ => .done) hrun,
        .returns hs' hp hmem hext hst⟩
    · obtain ⟨s', hrun, hs', ha⟩ := hs.free_eq_error hp
      exact ⟨_, ⟨m, s'⟩, congrArg (SpaceReply.ofResult fun _ => .done) hrun,
        .tells hs' ha ⟨hp, rfl⟩⟩
  | isFree p =>
    by_cases hp : p.isInRange
    · obtain ⟨s', hrun, hs', ha⟩ := hs.isFree_eq_ok hp
      exact ⟨_, ⟨m, s'⟩, congrArg (SpaceReply.ofResult .flag) hrun, .tells hs' ha (if_pos hp).symm⟩
    · have hrun := isFree_eq_error s (p := p) (by simpa using hp)
      exact ⟨_, ⟨m, s⟩, congrArg (SpaceReply.ofResult .flag) hrun, .tells hs hself (if_neg hp).symm⟩
  | read p room =>
    by_cases hroom : room = pageSize
    · subst hroom
      by_cases hp : p.isInRange
      · obtain ⟨s', hrun, hs', ha⟩ := hs.read_eq_ok hp
        refine ⟨_, ⟨m, s'⟩, congrArg (SpaceReply.ofResult .bytes) hrun, .tells hs' ha ?_⟩
        exact ((if_neg fun h => h rfl).trans (if_pos hp)).symm
      · have hrun := read_of_out_of_range s (p := p) (by simpa using hp)
        refine ⟨_, ⟨m, s⟩, congrArg (SpaceReply.ofResult .bytes) hrun, .tells hs hself ?_⟩
        exact ((if_neg fun h => h rfl).trans (if_neg hp)).symm
    · exact ⟨_, ⟨m, s⟩, congrArg (SpaceReply.ofResult .bytes) (read_of_room_ne s p hroom),
        .tells hs hself (if_pos hroom).symm⟩
  | write p n data =>
    by_cases hn : n = pageSize
    · subst hn
      by_cases hp : p.isInRange
      · obtain ⟨s', hrun, hs', hmem, hext, hst⟩ := hs.write_eq_ok hp data
        exact ⟨_, _, congrArg (SpaceReply.ofResult fun _ => .done) hrun, .stores hs' hmem hext hst⟩
      · have hout : p.isInRange = false := by simpa using hp
        refine ⟨_, ⟨m, s⟩, congrArg (SpaceReply.ofResult fun _ => .done)
          (write_of_out_of_range s hout data), .tells hs hself ⟨fun _ => hout, ?_⟩⟩
        rw [if_neg fun h => h rfl]
    · refine ⟨_, ⟨m, s⟩, congrArg (SpaceReply.ofResult fun _ => .done)
        (write_of_length_ne s p hn data), .tells hs hself ⟨fun h => absurd h hn, ?_⟩⟩
      rw [if_pos hn]
  | flush =>
    obtain ⟨hs', ha, -⟩ := hs.flush
    exact ⟨_, _, rfl, .tells hs' ha rfl⟩
  | reopen config accepted =>
    obtain ⟨s', hrun, hs', ha⟩ := hs.mount_unmount accepted
    exact ⟨.ok .done, ⟨_, s'⟩, by rw [SpaceCall.run, hrun], .tells hs' ha rfl⟩

end Effects

/-! ## The set that explains a run -/

/-- The answer that a call has to give when the pages `A` are allocated, and the pages `A'` that
are allocated after it. -/
def SpaceCall.Expected (A : Finset Nat) : SpaceCall → SpaceAnswer → Finset Nat → Prop
  | allocate, answer, A' =>
    (∃ p, answer = .ok (.page p) ∧ IsLeast {i | i ∉ A} p.val.toNat ∧
      p.val.toNat < maxLogicalPages ∧ A' = insert p.val.toNat A) ∨
    (answer = .error (.refused .diskFull) ∧ A = range maxLogicalPages ∧ A' = A)
  | free p, answer, A' =>
    if p.val.toNat ∈ A then answer = .ok .done ∧ A' = A.erase p.val.toNat
    else if p.val.toNat < maxLogicalPages then
      answer = .error (.refused (.alreadyFree p)) ∧ A' = A
    else answer = .error (.refused (.invalidPage p)) ∧ A' = A
  | isFree p, answer, A' =>
    A' = A ∧
      if p.val.toNat < maxLogicalPages then answer = .ok (.flag (decide (p.val.toNat ∉ A)))
      else answer = .error (.refused (.invalidPage p))
  | reopen _ _, answer, A' => answer = .ok .done ∧ A' = A
  | read _ _, _, A' => A' = A
  | write _ _ _, _, A' => A' = A
  | flush, _, A' => A' = A

/-- The numbers that the space shows are those for the allocated pages `A` and for the pages
`ever` that were allocated at any time. -/
structure OpenSpace.Shows (o : OpenSpace) (A ever : Finset Nat) : Prop where
  /-- there are only so many pages -/
  subset : A ⊆ range maxLogicalPages
  /-- the total is the size of the set -/
  total : o.space.allocatedPages.toNat = A.card
  /-- the file has grown exactly as far as it had to -/
  cover : IsLeast {k | ∀ i ∈ ever, i < k * bitmapCapacity} o.space.extents.toNat

/-- Every call of a run is answered as expected, and the space shows the numbers expected, before
the first call and after each. -/
def OpenSpace.Explained (o : OpenSpace) (A ever : Finset Nat) : List SpaceCall → Prop
  | [] => o.Shows A ever
  | call :: calls => o.Shows A ever ∧ ∃ A', call.Expected A (call.run o).1 A' ∧
      o.space.extents ≤ (call.run o).2.space.extents ∧
      (call.run o).2.Explained A' (ever ∪ A') calls

/-! ## One step -/

/-- The space is sound, and `A` and `ever` are its pages now and at any time. -/
structure OpenSpace.Reflects (o : OpenSpace) (A ever : Finset Nat) : Prop where
  sound : o.space.Sound
  members_eq : o.space.members = A
  subset : A ⊆ ever
  cover : IsLeast {k | ∀ i ∈ ever, i < k * bitmapCapacity} o.space.extents.toNat

namespace OpenSpace.Reflects

variable {m m' : Nat} {s : Space m} {s' : Space m'} {o : OpenSpace} {A ever : Finset Nat}

theorem shows_numbers (h : o.Reflects A ever) : o.Shows A ever where
  subset _ hi := mem_range.2 (h.sound.lt_of_mem (h.members_eq ▸ hi))
  total := h.members_eq ▸ h.sound.allocatedPages_eq
  cover := h.cover

/-- A space without new pages keeps its extents. -/
theorem of_subset (h : Reflects ⟨m, s⟩ A ever) (hs' : s'.Sound) (he : s'.extents = s.extents)
    {A' : Finset Nat} (hmem : s'.members = A') (hsub : A' ⊆ A) :
    s.extents ≤ s'.extents ∧ Reflects ⟨m', s'⟩ A' (ever ∪ A') := by
  refine ⟨he ▸ UInt32.le_refl _, hs', hmem, subset_union_right, ?_⟩
  rw [union_eq_left.2 (hsub.trans h.subset)]
  exact he ▸ h.cover

theorem of_agrees (h : Reflects ⟨m, s⟩ A ever) (hs' : s'.Sound) (ha : s.Agrees s') :
    s.extents ≤ s'.extents ∧ Reflects ⟨m', s'⟩ A (ever ∪ A) :=
  h.of_subset hs' ha.extents_eq (ha.members_eq.trans h.members_eq) (Subset.refl A)

/-- A space with one page more has as many extents as the page needs, or as before. -/
theorem of_insert (h : Reflects ⟨m, s⟩ A ever) {s' : Space m} {p : PageId} (hs' : s'.Sound)
    (he : s'.extents.toNat = max s.extents.toNat (p.extent + 1))
    (hmem : s'.members = insert p.val.toNat A) :
    s.extents ≤ s'.extents ∧
      Reflects ⟨m, s'⟩ (insert p.val.toNat A) (ever ∪ insert p.val.toNat A) := by
  have hle : s.extents.toNat ≤ s'.extents.toNat := he ▸ Nat.le_max_left ..
  refine ⟨UInt32.le_iff_toNat_le.2 hle, hs', hmem, subset_union_right, ?_, ?_⟩
  · intro i hi
    rcases mem_union.1 hi with hi | hi
    · exact Nat.lt_of_lt_of_le (h.cover.1 i hi) (Nat.mul_le_mul_right _ hle)
    · exact (Nat.div_lt_iff_lt_mul (by decide)).1 (Space.mem_members.1 (hmem ▸ hi)).1
  · intro k hk
    have hold : s.extents.toNat ≤ k := h.cover.2 fun i hi => hk i (mem_union_left _ hi)
    have hp : p.val.toNat < k * bitmapCapacity :=
      hk _ (mem_union_right _ (mem_insert_self ..))
    have hnew : p.extent < k := (Nat.div_lt_iff_lt_mul (by decide)).2 hp
    change s'.extents.toNat ≤ k
    omega

/-- A call is answered as expected, and the space reflects the set expected after it. -/
def Answers (o : OpenSpace) (A ever : Finset Nat) (call : SpaceCall) : Prop :=
  ∃ A', call.Expected A (call.run o).1 A' ∧ o.space.extents ≤ (call.run o).2.space.extents ∧
    (call.run o).2.Reflects A' (ever ∪ A')

/-- What a call only tells is what the set says. -/
theorem expected_of_tells (h : Reflects ⟨m, s⟩ A ever) {call : SpaceCall} {answer : SpaceAnswer}
    (ht : call.Tells s answer) : call.Expected A answer A := by
  have hA : s.members = A := h.members_eq
  cases call with
  | allocate => exact .inr ⟨ht.2, hA ▸ ht.1, rfl⟩
  | free p =>
    obtain ⟨hp, rfl⟩ := ht
    rw [SpaceCall.Expected, if_neg (hA ▸ hp)]
    by_cases hrange : p.isInRange
    · rw [if_pos hrange, if_pos (PageId.isInRange_iff.1 hrange)]
      exact ⟨rfl, rfl⟩
    · rw [if_neg hrange, if_neg fun hlt => hrange (PageId.isInRange_iff.2 hlt)]
      exact ⟨rfl, rfl⟩
  | isFree p =>
    rw [SpaceCall.Tells, hA] at ht
    obtain rfl := ht
    refine ⟨rfl, ?_⟩
    by_cases hrange : p.isInRange
    · rw [if_pos hrange, if_pos (PageId.isInRange_iff.1 hrange)]
    · rw [if_neg hrange, if_neg fun hlt => hrange (PageId.isInRange_iff.2 hlt)]
  | read p room => rfl
  | write p n data => rfl
  | flush => rfl
  | reopen config accepted => exact ⟨ht, rfl⟩

/-- **One call.** -/
theorem step (h : o.Reflects A ever) (call : SpaceCall) : Answers o A ever call := by
  obtain ⟨m, s⟩ := o
  have hA : s.members = A := h.members_eq
  obtain ⟨answer, o', hrun, hdoes⟩ := h.sound.does call
  rw [Answers, hrun]
  cases hdoes with
  | @takes p s' hs' hrange hnot hbelow hmem hst hext =>
    rw [hA] at hnot hbelow hmem
    have hleast : IsLeast {i | i ∉ A} p.val.toNat :=
      ⟨hnot, fun i hi => Nat.le_of_not_lt fun hlt => hi (hbelow i hlt)⟩
    exact ⟨insert p.val.toNat A, .inl ⟨p, rfl, hleast, PageId.isInRange_iff.1 hrange, rfl⟩,
      h.of_insert hs' hext hmem⟩
  | @returns p s' hs' hp hmem hext hst =>
    rw [hA] at hp hmem
    refine ⟨A.erase p.val.toNat, ?_, h.of_subset hs' hext hmem (erase_subset ..)⟩
    rw [SpaceCall.Expected, if_pos hp]
    exact ⟨rfl, rfl⟩
  | stores hs' hmem hext => exact ⟨A, rfl, h.of_subset hs' hext (hmem.trans hA) (Subset.refl A)⟩
  | tells hs' ha htells => exact ⟨A, h.expected_of_tells htells, h.of_agrees hs' ha⟩

/-- A space that reflects its sets is explained by them, whatever calls follow. -/
theorem explained (calls : List SpaceCall) (h : o.Reflects A ever) :
    o.Explained A ever calls := by
  induction calls generalizing o A ever with
  | nil => exact h.shows_numbers
  | cons call calls ih =>
    obtain ⟨A', hexpected, hle, hnext⟩ := h.step call
    exact ⟨h.shows_numbers, A', hexpected, hle, ih hnext⟩

end OpenSpace.Reflects

/-- **A space is a set of pages, handed out lowest first.** On a new file, whatever settings it is
opened with, every run of calls is explained by the set of the pages that are allocated, which is
empty at first. -/
theorem Space.refines_set {config : SpaceConfig} (hconfig : config.validate = .ok ()) {v : Volume}
    (hv : v.openFile = .ok {}) (calls : List SpaceCall) :
    ∃ s, Space.mount config v = .ok s ∧ OpenSpace.Explained ⟨_, s⟩ ∅ ∅ calls := by
  obtain ⟨s, hmount, hs, hmem, hext⟩ := Space.Sound.mount_fresh hconfig hv
  have hcover : IsLeast {k | ∀ i ∈ (∅ : Finset Nat), i < k * bitmapCapacity} s.extents.toNat := by
    rw [hext]
    exact ⟨fun _ hi => absurd hi (notMem_empty _), fun _ _ => Nat.zero_le _⟩
  exact ⟨s, hmount, OpenSpace.Reflects.explained calls ⟨hs, hmem, Subset.refl ∅, hcover⟩⟩

/-- A file that is not there yet, opened with one slot for bitmaps, hands out page 0 and takes it
back. -/
theorem Space.refines_set_missing :
    ∃ s, Space.mount ⟨1⟩ .missing = .ok s ∧
      OpenSpace.Explained ⟨1, s⟩ ∅ ∅ [.allocate, .free ⟨0⟩, .isFree ⟨0⟩] :=
  @Space.refines_set ⟨1⟩ rfl .missing rfl _

end PageStore
