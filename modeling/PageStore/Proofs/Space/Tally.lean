import PageStore.Proofs.Space.Run

/-!
# The counts in the file

How many pages are allocated is written down four times: in the header for the whole file and for
each extent, and in each bitmap as a counter and as bits. A file `Tallies` when all of this agrees,
and when both hints name the first place with room.

`Space.always_tallies` says that a file does so whenever it was flushed or closed, whatever was done
before. The counters themselves are `SpaceCounters`, read as natural numbers: a page more or less is
one more or less in each of them, so none of the 32-bit additions and subtractions ever wraps
around.
-/

namespace PageStore

open Finset

/-! ## What a file says -/

/-- Number of allocated pages that a header states for extent `e`; none where it has no room for
one. -/
def SpaceHeader.usedCount (h : Page) (e : Nat) : Nat :=
  match used h e with
  | .ok u => u.toNat
  | .error _ => 0

/-- **The counts in the file agree** with each other and with the bits. -/
structure Image.Tallies (img : Image) : Prop where
  /-- page 0 is a header -/
  valid : SpaceHeader.isValid (img.read 0) = true
  /-- it has a count for every extent -/
  stated : ∀ e, e < (SpaceHeader.extents (img.read 0)).toNat →
    ∃ u, SpaceHeader.used (img.read 0) e = .ok u
  /-- the total is the sum of these counts -/
  total_eq : (SpaceHeader.allocated (img.read 0)).toNat =
    ∑ e ∈ range (SpaceHeader.extents (img.read 0)).toNat, SpaceHeader.usedCount (img.read 0) e
  /-- each of them is the one in the bitmap -/
  used_eq : ∀ e, e < (SpaceHeader.extents (img.read 0)).toNat →
    SpaceHeader.usedCount (img.read 0) e = (Bitmap.allocated (img.read (bitmapPage e))).toNat
  /-- which is the number of bits that are set -/
  bits_eq : ∀ e, e < (SpaceHeader.extents (img.read 0)).toNat →
    (Bitmap.allocated (img.read (bitmapPage e))).toNat =
      (Bitmap.members (img.read (bitmapPage e))).card
  /-- the hint in a bitmap is the first offset that is free, or their number -/
  offset_least : ∀ e, e < (SpaceHeader.extents (img.read 0)).toNat →
    IsLeast {o | o = bitmapCapacity ∨ Bitmap.isFree (img.read (bitmapPage e)) o = true}
      (Bitmap.nextFree (img.read (bitmapPage e))).toNat
  /-- the hint in the header is the first extent with room, or their number -/
  extent_least : IsLeast {e | e = (SpaceHeader.extents (img.read 0)).toNat ∨
      e < (SpaceHeader.extents (img.read 0)).toNat ∧
        SpaceHeader.usedCount (img.read 0) e < bitmapCapacity}
    (SpaceHeader.nextFree (img.read 0)).toNat

theorem SpaceHeader.Sound.usedCount_eq {h : Page} {used : Nat → Nat} (hs : Sound h used) {e : Nat}
    (he : e < (extents h).toNat) : usedCount h e = used e := by
  obtain ⟨u, hu, hcount⟩ := hs.used_eq e he
  rw [usedCount, hu]
  exact hcount

/-- The hint of a bitmap is the first offset that is free. -/
theorem Bitmap.Sound.isLeast_nextFree {b : Page} (hb : Sound b) :
    IsLeast {o | o = bitmapCapacity ∨ isFree b o = true} (nextFree b).toNat := by
  rw [hb.nextFree_eq]
  refine ⟨?_, fun o ho => ?_⟩
  · rcases Nat.lt_or_eq_of_le (firstFree_le b 0) with hlt | heq
    · exact .inr (isFree_firstFree hlt)
    · exact .inl heq
  · rcases ho with rfl | hfree
    · exact firstFree_le b 0
    · refine Nat.le_of_not_lt fun hlt => ?_
      rw [isFree_of_lt_firstFree (Nat.zero_le o) hlt] at hfree
      cases hfree

/-- The hint of a header is the first extent with room. -/
theorem SpaceHeader.Sound.isLeast_nextFree {h : Page} {used : Nat → Nat} (hs : Sound h used) :
    IsLeast {e | e = (extents h).toNat ∨ e < (extents h).toNat ∧ usedCount h e < bitmapCapacity}
      (nextFree h).toNat := by
  refine ⟨?_, fun e he => ?_⟩
  · rcases Nat.lt_or_eq_of_le hs.nextFree_le with hlt | heq
    · exact .inr ⟨hlt, by rw [hs.usedCount_eq hlt]; exact hs.roomy hlt⟩
    · exact .inl heq
  · rcases he with rfl | ⟨hlt, hroom⟩
    · exact hs.nextFree_le
    · refine Nat.le_of_not_lt fun hbefore => ?_
      rw [hs.usedCount_eq hlt, hs.full e hbefore] at hroom
      exact Nat.lt_irrefl _ hroom

/-- A file that has the header and the bitmaps of a sound space tallies. -/
theorem Space.Sound.tallies {m : Nat} {s : Space m} (hs : s.Sound) {img : Image}
    (hheader : img.read 0 = s.header)
    (hbitmap : ∀ e, e < s.extents.toNat → img.read (bitmapPage e) = s.bitmaps.bitmap e) :
    img.Tallies := by
  have hmem : ∀ e, e < s.extents.toNat →
      (Bitmap.allocated (s.bitmaps.bitmap e)).toNat = s.usedOf e := fun e he =>
    (hs.bitmap e he).allocated_eq
  refine ⟨?_, ?_, ?_, ?_, ?_, ?_, ?_⟩
  all_goals rw [hheader]
  · exact hs.header.valid
  · intro e he
    obtain ⟨u, hu, -⟩ := hs.header.used_eq e he
    exact ⟨u, hu⟩
  · rw [hs.header.allocated_eq]
    exact sum_congr rfl fun e he => (hs.header.usedCount_eq (mem_range.1 he)).symm
  · intro e he
    rw [hs.header.usedCount_eq he, hbitmap e he, hmem e he]
  · intro e he
    rw [hbitmap e he]
    exact hmem e he
  · intro e he
    rw [hbitmap e he]
    exact (hs.bitmap e he).isLeast_nextFree
  · exact hs.header.isLeast_nextFree

/-- **A flush** leaves a file that tallies. -/
theorem Space.Sound.tallies_flush {m : Nat} {s : Space m} (hs : s.Sound) :
    s.flush.bitmaps.device.image.Tallies := by
  obtain ⟨-, -, -, hheader, hbitmap⟩ := hs.flush
  exact hs.tallies hheader fun e he => hbitmap e (Nat.lt_of_lt_of_le he hs.extents_le)

/-! ## The counters -/

/-- The counters of a space, as natural numbers. -/
@[ext] structure SpaceCounters where
  /-- number of extents -/
  extents : Nat
  /-- the total in the header -/
  total : Nat
  /-- the count in the header for each extent -/
  used : Nat → Nat
  /-- the counter of each bitmap -/
  marked : Nat → Nat

/-- What the counters say; an extent that is not there yet has no pages. -/
def Space.counters {m : Nat} (s : Space m) : SpaceCounters where
  extents := s.extents.toNat
  total := s.allocatedPages.toNat
  used e := if e < s.extents.toNat then SpaceHeader.usedCount s.header e else 0
  marked e := if e < s.extents.toNat then (Bitmap.allocated (s.bitmaps.bitmap e)).toNat else 0

namespace SpaceCounters

/-- One page more in extent `e`. -/
def add (c : SpaceCounters) (e : Nat) : SpaceCounters where
  extents := max c.extents (e + 1)
  total := c.total + 1
  used := Function.update c.used e (c.used e + 1)
  marked := Function.update c.marked e (c.marked e + 1)

/-- The counters of a space with `extents` extents whose allocated pages are `A`. -/
def ofSet (extents : Nat) (A : Finset Nat) : SpaceCounters where
  extents
  total := A.card
  used e := (A.filter (· / bitmapCapacity = e)).card
  marked e := (A.filter (· / bitmapCapacity = e)).card

theorem ofSet_insert {A : Finset Nat} {i : Nat} (hi : i ∉ A) (extents : Nat) :
    ofSet (max extents (i / bitmapCapacity + 1)) (insert i A) =
      (ofSet extents A).add (i / bitmapCapacity) := by
  have hcount : ∀ e, ((insert i A).filter (· / bitmapCapacity = e)).card =
      Function.update (fun e => (A.filter (· / bitmapCapacity = e)).card) (i / bitmapCapacity)
        ((A.filter (· / bitmapCapacity = i / bitmapCapacity)).card + 1) e := by
    intro e
    by_cases he : e = i / bitmapCapacity
    · subst he
      rw [Function.update_self, filter_insert, if_pos rfl,
        card_insert_of_notMem fun h => hi (mem_filter.1 h).1]
    · rw [Function.update_of_ne he, filter_insert, if_neg fun h => he h.symm]
  ext1
  · rfl
  · exact card_insert_of_notMem hi
  · exact funext hcount
  · exact funext hcount

end SpaceCounters

/-- The pages of an extent are those of its bitmap. -/
theorem Space.card_filter_members {m : Nat} (s : Space m) (e : Nat) :
    (s.members.filter (· / bitmapCapacity = e)).card =
      if e < s.extents.toNat then s.usedOf e else 0 := by
  by_cases he : e < s.extents.toNat
  · have himage : s.members.filter (· / bitmapCapacity = e) =
        (Bitmap.members (s.bitmaps.bitmap e)).image fun o => e * bitmapCapacity + o := by
      ext i
      rw [mem_filter, mem_members, mem_image]
      constructor
      · rintro ⟨⟨-, ho⟩, rfl⟩
        exact ⟨_, ho, ((Sound.place_iff (Nat.mod_lt _ (by decide))).1 ⟨rfl, rfl⟩).symm⟩
      · rintro ⟨o, ho, rfl⟩
        obtain ⟨hdiv, hmod⟩ := (Sound.place_iff (e := e) (Bitmap.lt_of_mem_members ho)).2 rfl
        rw [hdiv, hmod]
        exact ⟨⟨he, ho⟩, rfl⟩
    rw [if_pos he, himage, card_image_of_injective _ fun o o' h => Nat.add_left_cancel h]
    rfl
  · rw [if_neg he, card_eq_zero, filter_eq_empty_iff]
    rintro i hi rfl
    exact he (mem_members.1 hi).1

/-- **The counters say which pages are allocated.** -/
theorem Space.Sound.counters_eq {m : Nat} {s : Space m} (hs : s.Sound) :
    s.counters = SpaceCounters.ofSet s.extents.toNat s.members := by
  ext1
  · rfl
  · exact hs.allocatedPages_eq
  · funext e
    refine Eq.trans ?_ (s.card_filter_members e).symm
    by_cases he : e < s.extents.toNat
    · exact (if_pos he).trans ((hs.header.usedCount_eq he).trans (if_pos he).symm)
    · exact (if_neg he).trans (if_neg he).symm
  · funext e
    refine Eq.trans ?_ (s.card_filter_members e).symm
    by_cases he : e < s.extents.toNat
    · exact (if_pos he).trans ((hs.bitmap e he).allocated_eq.trans (if_pos he).symm)
    · exact (if_neg he).trans (if_neg he).symm

/-! ## One call -/

/-- What a call makes of the counters: a page that is handed out is one more in each of them, a page
that is taken back is one less, and nothing else changes them. -/
def SpaceCall.Counts (before after : SpaceCounters) : SpaceCall → SpaceAnswer → Prop
  | allocate, .ok (.page p) => after = before.add p.extent
  | free p, .ok .done => before = after.add p.extent
  | _, _ => after = before

/-- What a call does to a sound space. -/
structure SpaceCall.Steps (call : SpaceCall) (o : OpenSpace) : Prop where
  sound : (call.run o).2.space.Sound
  counts : call.Counts o.space.counters (call.run o).2.space.counters (call.run o).1
  /-- the map of free pages is never found to contradict itself -/
  consistent : ∀ why, (call.run o).1 ≠ .error (.refused (.spaceMap why))

namespace SpaceCall.Tells

variable {m : Nat} {s : Space m} {call : SpaceCall} {answer : SpaceAnswer}

/-- What a call only tells does not count. -/
theorem counts (h : call.Tells s answer) (c : SpaceCounters) : call.Counts c c answer := by
  cases call with
  | allocate =>
    obtain ⟨-, rfl⟩ := h
    rfl
  | free p =>
    obtain ⟨-, rfl⟩ := h
    rfl
  | isFree p => rfl
  | read p room => rfl
  | write p n data => rfl
  | flush => rfl
  | reopen config accepted => rfl

/-- Nor does it blame the map. -/
theorem consistent (h : call.Tells s answer) (why : SpaceFault) :
    answer ≠ .error (.refused (.spaceMap why)) := by
  rintro rfl
  cases call with
  | allocate => cases h.2
  | free p =>
    have h := h.2
    split at h <;> cases h
  | isFree p =>
    rw [Tells] at h
    split at h <;> cases h
  | read p room =>
    rw [Tells] at h
    split at h
    · cases h
    · split at h <;> cases h
  | write p n data =>
    have h := h.2
    split at h <;> cases h
  | flush => cases h
  | reopen config accepted => cases h

end SpaceCall.Tells

namespace Space.Sound

variable {m : Nat} {s : Space m}

/-- The counters are the same where the pages are. -/
theorem counters_congr (hs : s.Sound) {m' : Nat} {s' : Space m'} (hs' : s'.Sound)
    (hmem : s'.members = s.members) (hext : s'.extents = s.extents) : s'.counters = s.counters := by
  rw [hs'.counters_eq, hs.counters_eq, hmem, hext]

/-- What is known of a call by what it answers and leaves behind. -/
theorem steps_of_run {call : SpaceCall} {m' : Nat} {s' : Space m'} {answer : SpaceAnswer}
    (hstep : call.run ⟨m, s⟩ = (answer, ⟨m', s'⟩)) (hs' : s'.Sound)
    (hcounts : call.Counts s.counters s'.counters answer)
    (hanswer : ∀ why, answer ≠ .error (.refused (.spaceMap why))) : call.Steps ⟨m, s⟩ := by
  refine ⟨?_, ?_, ?_⟩
  all_goals rw [hstep]
  · exact hs'
  · exact hcounts
  · exact hanswer

/-- A call that neither allocates nor frees, and is not refused because of the map, leaves the
counters alone. -/
theorem steps_of_same {call : SpaceCall} {m' : Nat} {s' : Space m'} {answer : SpaceAnswer}
    (hs : s.Sound)
    (hstep : call.run ⟨m, s⟩ = (answer, ⟨m', s'⟩)) (hs' : s'.Sound) (hmem : s'.members = s.members)
    (hext : s'.extents = s.extents) (hcounts : ∀ c, call.Counts c c answer)
    (hanswer : ∀ why, answer ≠ .error (.refused (.spaceMap why))) : call.Steps ⟨m, s⟩ := by
  refine steps_of_run hstep hs' ?_ hanswer
  rw [hs.counters_congr hs' hmem hext]
  exact hcounts _

/-- **One call** counts what it does. -/
theorem steps (hs : s.Sound) (call : SpaceCall) : call.Steps ⟨m, s⟩ := by
  obtain ⟨answer, o, hrun, hdoes⟩ := hs.does call
  cases hdoes with
  | @takes p s' hs' hrange hnot hbelow hmem hst hext =>
    refine steps_of_run hrun hs' ?_ nofun
    change s'.counters = s.counters.add p.extent
    rw [hs'.counters_eq, hs.counters_eq, hmem, hext]
    exact SpaceCounters.ofSet_insert hnot _
  | @returns p s' hs' hp hmem hext hst =>
    have hlt : p.extent < s.extents.toNat := (mem_members_iff.1 hp).1
    refine steps_of_run hrun hs' ?_ nofun
    change s.counters = s'.counters.add p.extent
    -- the page that was taken back, counted again, gives the counters before
    have hadd := SpaceCounters.ofSet_insert (notMem_erase p.val.toNat s.members) s.extents.toNat
    rw [insert_erase hp] at hadd
    rw [hs.counters_eq, hs'.counters_eq, hmem, hext, PageId.extent, ← hadd]
    exact congrArg (SpaceCounters.ofSet · s.members) (Nat.max_eq_left hlt).symm
  | stores hs' hmem hext => exact hs.steps_of_same hrun hs' hmem hext (fun _ => rfl) nofun
  | tells hs' ha htells =>
    exact hs.steps_of_same hrun hs' ha.members_eq ha.extents_eq htells.counts htells.consistent

end Space.Sound

/-! ## Runs -/

/-- The space after calls. -/
def OpenSpace.after (o : OpenSpace) (calls : List SpaceCall) : OpenSpace :=
  calls.foldl (fun o call => (call.run o).2) o

/-- A space that is sound stays so. -/
theorem OpenSpace.sound_after {o : OpenSpace} (hs : o.space.Sound) (calls : List SpaceCall) :
    (o.after calls).space.Sound := by
  induction calls generalizing o with
  | nil => exact hs
  | cons call calls ih => exact ih (hs.steps call).sound

/-- **The file always tallies.** On a new file, whatever settings it is opened with, after every run
of calls: flushing leaves a file whose counts agree with each other and with its bits, and so does
closing. Every call that follows changes the counters by the page that it hands out or takes back,
if any, and none is refused because the map of free pages contradicts itself. -/
theorem Space.always_tallies {config : SpaceConfig} (hconfig : config.validate = .ok ())
    {v : Volume} (hv : v.openFile = .ok {}) (calls : List SpaceCall) :
    ∃ s, Space.mount config v = .ok s ∧
      let o := OpenSpace.after ⟨_, s⟩ calls
      o.space.flush.bitmaps.device.image.Tallies ∧
        (∃ img, o.space.unmount = .file img ∧ img.Tallies) ∧
        ∀ call : SpaceCall,
          call.Counts o.space.counters (call.run o).2.space.counters (call.run o).1 ∧
            ∀ why, (call.run o).1 ≠ .error (.refused (.spaceMap why)) := by
  obtain ⟨s, hmount, hs, -, -⟩ := Space.Sound.mount_fresh hconfig hv
  have ho := OpenSpace.sound_after (o := ⟨_, s⟩) hs calls
  exact ⟨s, hmount, ho.tallies_flush, ⟨_, rfl, ho.tallies_flush⟩, fun call =>
    ⟨(ho.steps call).counts, (ho.steps call).consistent⟩⟩

/-- A file that is not there yet, from which a page is handed out and taken back, and which is
closed and opened again in between. -/
theorem Space.always_tallies_missing :
    ∃ s, Space.mount ⟨1⟩ .missing = .ok s ∧
      let o := OpenSpace.after ⟨_, s⟩ [.allocate, .reopen ⟨2⟩ rfl, .free ⟨0⟩]
      o.space.flush.bitmaps.device.image.Tallies ∧
        (∃ img, o.space.unmount = .file img ∧ img.Tallies) ∧
        ∀ call : SpaceCall,
          call.Counts o.space.counters (call.run o).2.space.counters (call.run o).1 ∧
            ∀ why, (call.run o).1 ≠ .error (.refused (.spaceMap why)) :=
  @Space.always_tallies ⟨1⟩ rfl .missing rfl [.allocate, .reopen ⟨2⟩ rfl, .free ⟨0⟩]

end PageStore
