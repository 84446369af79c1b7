import PageStore.Proofs.Space.Settled
import PageStore.Proofs.Space.Tally

/-!
# The number of slots cannot be seen

Two spaces that are opened on new files with different numbers of slots write their bitmaps back at
different times, and read them again at different times. `OpenSpace.Twins` says what they have in
common all the while. The same call on both is answered alike and leaves them twins
(`OpenSpace.Twins.step`), and once they are closed their files are equal byte for byte:
`Space.slots_unseen`.

What the newest bitmap is does not depend on slots either: `SpaceCall.renew` tells it from the calls
and their answers, and `BitmapCache.Orderly` says where it is kept.
-/

namespace PageStore

open Finset

/-! ## Files -/

/-- The bytes of a file. -/
def Image.bytes (img : Image) : List UInt8 :=
  (List.range img.size).map fun i => (img.read (UInt32.ofNat (i / pageSize)))[Fin.ofNat pageSize i]

theorem Image.bytes_congr {a b : Image} (hsize : b.size = a.size)
    (hread : ∀ q, b.read q = a.read q) :
    b.bytes = a.bytes := by
  rw [bytes, bytes, hsize]
  simp only [hread]

/-! ## The newest bitmaps -/

/-- The newest bitmaps after a call, from those before it and from the answer: that of a page that
was handed out or taken back has changed, as the bitmap alone says. -/
def SpaceCall.renew (b : Nat → Page) : SpaceCall → SpaceAnswer → Nat → Page
  | allocate, .ok (.page p) =>
    Function.update b p.extent (((Bitmap.allocate (b p.extent)).map Prod.snd).getD (b p.extent))
  | free p, .ok .done =>
    Function.update b p.extent ((Bitmap.free (b p.extent) p.offset).getD (b p.extent))
  | _, _ => b

/-- The newest bitmaps after calls, when `b` are those before them. -/
def OpenSpace.newest (o : OpenSpace) (b : Nat → Page) : List SpaceCall → Nat → Page
  | [] => b
  | call :: calls => (call.run o).2.newest (call.renew b (call.run o).1) calls

/-- **The slots are in order**, and hold the newest bitmaps of the first `count` extents, as far as
the file does not. -/
structure BitmapCache.Orderly {m : Nat} (c : BitmapCache m) (count : Nat) (newest : Nat → Page) :
    Prop where
  /-- the bitmap of an extent is in one slot at most -/
  slot_unique : ∀ (f g : Fin m) (e : Nat), c.slots[f].extent = some e → c.slots[g].extent = some e →
    f = g
  /-- the table finds exactly the bitmaps that are in slots -/
  table_iff : ∀ (e : Nat) (f : Fin m), c.table[e]? = some f ↔ c.slots[f].extent = some e
  /-- an unused slot is listed once -/
  nodup : c.free.Nodup
  /-- a slot is either unused, or can be chosen for another bitmap -/
  free_or_candidate : ∀ f, Xor (f ∈ c.free) (c.recency.IsCandidate f)
  /-- a bitmap in a slot is the newest one -/
  kept : ∀ (f : Fin m) (e : Nat), c.slots[f].extent = some e → e < count ∧
    c.slots[f].bits = newest e
  /-- a bitmap that is in no slot is in the file -/
  stored : ∀ e, e < count → (∀ f : Fin m, c.slots[f].extent ≠ some e) →
    c.device.image.read (bitmapPage e) = newest e

theorem BitmapCache.Sound.orderly {m count : Nat} {c : BitmapCache m} (hs : c.Sound count)
    {newest : Nat → Page} (hb : ∀ e, e < maxExtents → c.bitmap e = newest e) :
    c.Orderly count newest where
  slot_unique _ _ _ := hs.slot_unique
  table_iff := hs.table_iff
  nodup := hs.nodup
  free_or_candidate f := by
    rw [hs.recency_iff]
    by_cases hf : f ∈ c.free
    · exact .inl ⟨hf, not_not_intro hf⟩
    · exact .inr ⟨hf, hf⟩
  kept f e hf := by
    have he := hs.lt_count f e hf
    refine ⟨he, ?_⟩
    rw [← bitmap_of_kept hs hf, hb e (Nat.lt_of_lt_of_le he hs.count_le)]
  stored e he habs := by
    rw [← bitmap_of_absent hs habs, hb e (Nat.lt_of_lt_of_le he hs.count_le)]

/-! ## One space -/

/-- The call answers `answer`, and leaves a space that matches. -/
structure SpaceCall.Keeps (call : SpaceCall) (o : OpenSpace) (answer : SpaceAnswer) : Prop where
  answer_eq : (call.run o).1 = answer
  settled : (call.run o).2.space.Settled
  same : o.space.Matches (call.run o).2.space

namespace Space.Settled

variable {m m' : Nat} {s : Space m} {s₁ : Space m'} {call : SpaceCall} {answer : SpaceAnswer}

theorem keeps_of_run (hrun : call.run ⟨m, s⟩ = (answer, ⟨m', s₁⟩)) (hs₁ : s₁.Settled)
    (hm : s.Matches s₁) : call.Keeps ⟨m, s⟩ answer := by
  refine ⟨?_, ?_, ?_⟩
  all_goals rw [hrun]
  · exact hs₁
  · exact hm

/-- A call that is answered before anything is looked at. -/
theorem keeps_of_same (hs : s.Settled) (hrun : call.run ⟨m, s⟩ = (answer, ⟨m, s⟩)) :
    call.Keeps ⟨m, s⟩ answer := keeps_of_run hrun hs (Matches.refl s)

theorem keeps_allocate (hs : s.Settled) (hall : s.members = range maxLogicalPages) :
    SpaceCall.allocate.Keeps ⟨m, s⟩ (.error (.refused .diskFull)) := by
  refine hs.keeps_of_same ?_
  rw [SpaceCall.run, hs.sound.allocate_of_full hall]
  rfl

theorem keeps_free (hs : s.Settled) {p : PageId} (hp : p.val.toNat ∉ s.members) :
    (SpaceCall.free p).Keeps ⟨m, s⟩
      (.error (.refused (if p.isInRange then .alreadyFree p else .invalidPage p))) := by
  obtain ⟨s₁, hrun, hs₁, hm⟩ := hs.free_eq_error hp
  refine keeps_of_run ?_ hs₁ hm
  rw [SpaceCall.run, hrun]
  rfl

theorem keeps_isFree (hs : s.Settled) (p : PageId) :
    (SpaceCall.isFree p).Keeps ⟨m, s⟩
      (if p.isInRange then .ok (.flag (decide (p.val.toNat ∉ s.members)))
      else .error (.refused (.invalidPage p))) := by
  by_cases hp : p.isInRange
  · obtain ⟨s₁, hrun, hs₁, hm⟩ := hs.isFree_eq_ok hp
    rw [if_pos hp]
    refine keeps_of_run ?_ hs₁ hm
    rw [SpaceCall.run, hrun]
    rfl
  · rw [if_neg hp]
    refine hs.keeps_of_same ?_
    rw [SpaceCall.run, Sound.isFree_eq_error s (by simpa using hp)]
    rfl

theorem keeps_read (hs : s.Settled) (p : PageId) (room : Nat) :
    (SpaceCall.read p room).Keeps ⟨m, s⟩
      (if room ≠ pageSize then .error (.refused (.bufferSize room))
      else if p.isInRange then
        .ok (.bytes (if p.val.toNat ∈ s.members then s.stored p else Block.zero pageSize))
      else .error (.refused (.invalidPage p))) := by
  by_cases hroom : room = pageSize
  · subst hroom
    rw [if_neg fun h => h rfl]
    by_cases hp : p.isInRange
    · obtain ⟨s₁, hrun, hs₁, hm⟩ := hs.read_eq_ok hp
      rw [if_pos hp]
      refine keeps_of_run ?_ hs₁ hm
      rw [SpaceCall.run, hrun]
      rfl
    · rw [if_neg hp]
      refine hs.keeps_of_same ?_
      rw [SpaceCall.run, Sound.read_of_out_of_range s (by simpa using hp)]
      rfl
  · rw [if_pos hroom]
    refine hs.keeps_of_same ?_
    rw [SpaceCall.run, Sound.read_of_room_ne s p hroom]
    rfl

/-- A write is refused, or dropped because the page is free. -/
theorem keeps_write (hs : s.Settled) {p : PageId} {n : Nat} (data : Block n)
    (hp : n = pageSize → p.val.toNat ∉ s.members) :
    (SpaceCall.write p n data).Keeps ⟨m, s⟩
      (if n ≠ pageSize then .error (.refused (.bufferSize n))
      else if p.isInRange then .ok .done else .error (.refused (.invalidPage p))) := by
  by_cases hn : n = pageSize
  · subst hn
    rw [if_neg fun h => h rfl]
    by_cases hrange : p.isInRange
    · obtain ⟨s₁, hfree, hs₁, hm⟩ := hs.isFree_eq_ok hrange
      rw [if_pos hrange]
      refine keeps_of_run ?_ hs₁ hm
      simp only [SpaceCall.run, write, ne_eq, not_true_eq_false, if_false]
      rw [Action.bind_of_ok hfree]
      simp only [hp rfl, not_false_eq_true, decide_true, if_true]
      rfl
    · rw [if_neg hrange]
      refine hs.keeps_of_same ?_
      rw [SpaceCall.run, Sound.write_of_out_of_range s (by simpa using hrange)]
      rfl
  · rw [if_pos hn]
    refine hs.keeps_of_same ?_
    rw [SpaceCall.run, Sound.write_of_length_ne s p hn]
    rfl

theorem keeps_flush (hs : s.Settled) : SpaceCall.flush.Keeps ⟨m, s⟩ (.ok .done) := by
  obtain ⟨hs₁, hm, -⟩ := hs.flush
  exact keeps_of_run rfl hs₁ hm

theorem keeps_reopen (hs : s.Settled) {config : SpaceConfig} (accepted : config.validate = .ok ()) :
    (SpaceCall.reopen config accepted).Keeps ⟨m, s⟩ (.ok .done) := by
  obtain ⟨hs₁, hm₁⟩ := hs.reopened (SpaceConfig.validate_eq_ok_iff.1 accepted)
  obtain ⟨hs₂, hm₂, -⟩ := hs₁.flush
  refine keeps_of_run ?_ hs₂ (hm₁.trans hm₂)
  rw [SpaceCall.run, hs.sound.mount_unmount_eq accepted]

end Space.Settled

/-! ## Two spaces -/

/-- **The two spaces cannot be told apart**, and `b` are their newest bitmaps. -/
structure OpenSpace.Twins (o o' : OpenSpace) (b : Nat → Page) : Prop where
  settled : o.space.Settled
  settled' : o'.space.Settled
  same : o.space.Matches o'.space
  newest : ∀ e, e < maxExtents → o.space.bitmaps.bitmap e = b e

/-- The call is answered alike, and leaves twins. -/
structure SpaceCall.Pairs (call : SpaceCall) (o o' : OpenSpace) (b : Nat → Page) : Prop where
  answer_eq : (call.run o').1 = (call.run o).1
  twins : (call.run o).2.Twins (call.run o').2 (call.renew b (call.run o).1)

namespace OpenSpace.Twins

variable {o o' : OpenSpace} {b : Nat → Page} {call : SpaceCall} {answer : SpaceAnswer} {m m' : Nat}
  {s : Space m} {s' : Space m'}

/-- A call that changes neither of them. -/
theorem pairs_of_keeps (h : o.Twins o' b) (hk : call.Keeps o answer) (hk' : call.Keeps o' answer)
    (hb : call.renew b answer = b) : call.Pairs o o' b where
  answer_eq := hk'.answer_eq.trans hk.answer_eq.symm
  twins := {
    settled := hk.settled
    settled' := hk'.settled
    same := (hk.same.symm.trans h.same).trans hk'.same
    newest e he := by
      rw [hk.answer_eq, hb, hk.same.bitmap_eq e he, h.newest e he] }

theorem members_eq (h : Twins ⟨m, s⟩ ⟨m', s'⟩ b) : s'.members = s.members :=
  h.same.members_eq h.settled.sound

/-- The bitmaps are the newest ones in both. -/
theorem newest' (h : Twins ⟨m, s⟩ ⟨m', s'⟩ b) {e : Nat} (he : e < maxExtents) :
    s'.bitmaps.bitmap e = b e := (h.same.bitmap_eq e he).trans (h.newest e he)

/-- A call that replaces the same bitmap in both of them. -/
theorem pairs_of_update {s₁ : Space m} {s₁' : Space m'} {header bits : Page} {e : Nat}
    (h : Twins ⟨m, s⟩ ⟨m', s'⟩ b) (hrun : call.run ⟨m, s⟩ = (answer, ⟨m, s₁⟩))
    (hrun' : call.run ⟨m', s'⟩ = (answer, ⟨m', s₁'⟩)) (hs₁ : s₁.Settled) (hs₁' : s₁'.Settled)
    (hrenew : call.renew b answer = Function.update b e bits)
    (hb : s.Becomes s₁ header (Function.update s.bitmaps.bitmap e bits))
    (hb' : s'.Becomes s₁' header (Function.update s'.bitmaps.bitmap e bits)) :
    call.Pairs ⟨m, s⟩ ⟨m', s'⟩ b := by
  have hnew := hb.of_update h.newest
  have hnew' := hb'.of_update fun d hd => h.newest' hd
  rw [← hrenew] at hnew hnew'
  refine ⟨by rw [hrun, hrun'], ?_⟩
  rw [hrun, hrun']
  exact ⟨hs₁, hs₁', hnew.matches_of_matches h.same hnew', hnew.bitmap_eq⟩

theorem pairs_allocate (h : Twins ⟨m, s⟩ ⟨m', s'⟩ b) :
    SpaceCall.allocate.Pairs ⟨m, s⟩ ⟨m', s'⟩ b := by
  have hs : s.Settled := h.settled
  have hs' : s'.Settled := h.settled'
  by_cases hall : s.members = range maxLogicalPages
  · exact h.pairs_of_keeps (hs.keeps_allocate hall) (hs'.keeps_allocate (h.members_eq.trans hall))
      rfl
  · rcases hs.allocate_cases with ⟨-, hfull⟩ |
      ⟨h₀, h₁, o, bits, s₁, hroomy, hcount, halloc, hrun, hs₁, hb, ho, he⟩
    · exact absurd hfull hall
    · rcases hs'.allocate_cases with ⟨-, hfull⟩ |
        ⟨h₀', h₁', o', bits', s₁', hroomy', hcount', halloc', hrun', hs₁', hb', -, -⟩
      · exact absurd (h.members_eq.symm.trans hfull) hall
      · -- the header and the bitmap of the second space are those of the first
        have hheader : s'.header = s.header := h.same.header_eq
        rw [hheader] at hroomy' hcount' halloc' hrun' hb'
        obtain rfl : h₀ = h₀' := Except.ok.inj (hroomy.symm.trans hroomy')
        obtain rfl : h₁ = h₁' := Except.ok.inj (hcount.symm.trans hcount')
        rw [show s.bitmaps.bitmap _ = b _ from h.newest _ he] at halloc
        rw [h.newest' he, halloc] at halloc'
        cases halloc'
        have hrenew : SpaceCall.allocate.renew b
            (.ok (.page (.ofPlace (SpaceHeader.nextFree s.header).toNat o))) =
              Function.update b (SpaceHeader.nextFree s.header).toNat bits := by
          rw [SpaceCall.renew, PageId.extent_ofPlace he ho, halloc]
          rfl
        exact h.pairs_of_update (by rw [SpaceCall.run, hrun]; rfl)
          (by rw [SpaceCall.run, hrun']; rfl)
          hs₁ hs₁' hrenew hb hb'

theorem pairs_free (h : Twins ⟨m, s⟩ ⟨m', s'⟩ b) (p : PageId) :
    (SpaceCall.free p).Pairs ⟨m, s⟩ ⟨m', s'⟩ b := by
  have hs : s.Settled := h.settled
  have hs' : s'.Settled := h.settled'
  have hmem := h.members_eq
  by_cases hp : p.val.toNat ∈ s.members
  · obtain ⟨h₁, bits, s₁, hcount, hfree, hrun, hs₁, hb⟩ := hs.free_eq_ok hp
    obtain ⟨h₁', bits', s₁', hcount', hfree', hrun', hs₁', hb'⟩ := hs'.free_eq_ok (hmem.symm ▸ hp)
    have he := PageId.extent_lt (hs.sound.isInRange_of_mem hp)
    have hheader : s'.header = s.header := h.same.header_eq
    rw [hheader] at hcount'
    obtain rfl : h₁ = h₁' := Except.ok.inj (hcount.symm.trans hcount')
    rw [show s.bitmaps.bitmap _ = b _ from h.newest _ he] at hfree
    rw [h.newest' he, hfree] at hfree'
    cases hfree'
    have hrenew : (SpaceCall.free p).renew b (.ok .done) = Function.update b p.extent bits := by
      rw [SpaceCall.renew, hfree]
      rfl
    exact h.pairs_of_update (by rw [SpaceCall.run, hrun]; rfl) (by rw [SpaceCall.run, hrun']; rfl)
      hs₁ hs₁' hrenew hb hb'
  · exact h.pairs_of_keeps (hs.keeps_free hp) (hs'.keeps_free (hmem ▸ hp)) rfl

theorem pairs_write (h : Twins ⟨m, s⟩ ⟨m', s'⟩ b) (p : PageId) {n : Nat} (data : Block n) :
    (SpaceCall.write p n data).Pairs ⟨m, s⟩ ⟨m', s'⟩ b := by
  have hs : s.Settled := h.settled
  have hs' : s'.Settled := h.settled'
  have hmem := h.members_eq
  by_cases hp : n = pageSize ∧ p.val.toNat ∈ s.members
  · obtain ⟨rfl, hp⟩ := hp
    obtain ⟨s₁, hrun, hs₁, hm₁, hset⟩ := hs.write_eq_ok hp data
    obtain ⟨s₁', hrun', hs₁', hm₁', hset'⟩ := hs'.write_eq_ok (hmem.symm ▸ hp) data
    have hq := PageId.physical_not_isBitmapPage (hs.sound.isInRange_of_mem hp)
    have hstep : (SpaceCall.write p pageSize data).run ⟨m, s⟩ =
        (.ok .done, ⟨m, s₁.put p.physical data⟩) := by
      rw [SpaceCall.run, hrun]
      rfl
    have hstep' : (SpaceCall.write p pageSize data).run ⟨m', s'⟩ =
        (.ok .done, ⟨m', s₁'.put p.physical data⟩) := by
      rw [SpaceCall.run, hrun']
      rfl
    have hm : s₁.Matches s₁' := (hm₁.symm.trans h.same).trans hm₁'
    refine ⟨by rw [hstep, hstep'], ?_⟩
    rw [hstep, hstep']
    refine ⟨hset, hset', hm.put hs₁ hs₁' hq data, fun e he => ?_⟩
    exact (hs₁.bitmap_put hq data he).trans ((hm₁.bitmap_eq e he).trans (h.newest e he))
  · have hnot : n = pageSize → p.val.toNat ∉ s.members := fun hn hmem => hp ⟨hn, hmem⟩
    exact h.pairs_of_keeps (hs.keeps_write data hnot) (hs'.keeps_write data (hmem ▸ hnot)) rfl

/-- **One call** on twins. -/
theorem step (h : Twins o o' b) (call : SpaceCall) : call.Pairs o o' b := by
  obtain ⟨m, s⟩ := o
  obtain ⟨m', s'⟩ := o'
  have hs : s.Settled := h.settled
  have hs' : s'.Settled := h.settled'
  cases call with
  | allocate => exact h.pairs_allocate
  | free p => exact h.pairs_free p
  | isFree p => exact h.pairs_of_keeps (hs.keeps_isFree p) (h.members_eq ▸ hs'.keeps_isFree p) rfl
  | read p room =>
    refine h.pairs_of_keeps (hs.keeps_read p room) ?_ rfl
    -- what is stored is only asked for where the page is in range
    have hk' := hs'.keeps_read p room
    by_cases hp : p.isInRange
    · rwa [h.members_eq, show s'.stored p = s.stored p from h.same.stored_eq hp] at hk'
    · rwa [if_neg hp] at hk' ⊢
  | write p n data => exact h.pairs_write p data
  | flush => exact h.pairs_of_keeps hs.keeps_flush hs'.keeps_flush rfl
  | reopen config accepted =>
    exact h.pairs_of_keeps (hs.keeps_reopen accepted) (hs'.keeps_reopen accepted) rfl

/-- **Any calls** on twins. -/
theorem after (h : Twins o o' b) (calls : List SpaceCall) :
    (o.after calls).Twins (o'.after calls) (o.newest b calls) := by
  induction calls generalizing o o' b with
  | nil => exact h
  | cons call calls ih => exact ih (h.step call).twins

end OpenSpace.Twins

/-! ## Files -/

/-- Two spaces that match leave the same bytes when they are closed. -/
theorem Space.Matches.bytes_eq {m m' : Nat} {s : Space m} {s' : Space m'} (hm : s.Matches s')
    (hs : s.Settled) (hs' : s'.Settled) :
    s'.flush.bitmaps.device.image.bytes = s.flush.bitmaps.device.image.bytes := by
  obtain ⟨-, hm₁, hsize⟩ := hs.flush
  obtain ⟨-, hm₁', hsize'⟩ := hs'.flush
  obtain ⟨-, -, -, hzero, hfile⟩ := hs.sound.flush
  obtain ⟨-, -, -, hzero', hfile'⟩ := hs'.sound.flush
  refine Image.bytes_congr ?_ fun q => ?_
  · rw [hsize, hsize', hm.extents_eq]
    exact hm.reach_eq
  · by_cases hq : q = 0
    · rw [hq, hzero, hzero', hm.header_eq]
    · by_cases hbmp : IsBitmapPage q
      · obtain ⟨e, he, rfl⟩ := hbmp
        rw [hfile e he, hfile' e he, hm.bitmap_eq e he]
      · exact ((hm₁.symm.trans hm).trans hm₁').read_eq q hq hbmp

/-- **The number of slots cannot be seen.** Two new files are opened with different numbers of
slots, and the same calls are made on both. Whatever call comes next is answered alike, and the
files that closing leaves are equal byte for byte. All the while the slots of each are in order, and
hold the newest bitmaps as far as its file does not: those that the calls and their answers tell. -/
theorem Space.slots_unseen {config config' : SpaceConfig} (hconfig : config.validate = .ok ())
    (hconfig' : config'.validate = .ok ()) {v v' : Volume} (hv : v.openFile = .ok {})
    (hv' : v'.openFile = .ok {}) (calls : List SpaceCall) :
    ∃ s s', Space.mount config v = .ok s ∧ Space.mount config' v' = .ok s' ∧
      let o := OpenSpace.after ⟨_, s⟩ calls
      let o' := OpenSpace.after ⟨_, s'⟩ calls
      let b := OpenSpace.newest ⟨_, s⟩ (fun _ => Bitmap.empty) calls
      (∀ call : SpaceCall, (call.run o').1 = (call.run o).1) ∧
        (∃ img img', o.space.unmount = .file img ∧ o'.space.unmount = .file img' ∧
          img'.bytes = img.bytes) ∧
        o.space.bitmaps.Orderly o.space.extents.toNat b ∧
        o'.space.bitmaps.Orderly o'.space.extents.toNat b := by
  have hm := SpaceConfig.validate_eq_ok_iff.1 hconfig
  have hm' := SpaceConfig.validate_eq_ok_iff.1 hconfig'
  have hnew : OpenSpace.Twins ⟨_, (Space.new config.bitmapFrames).flush⟩
      ⟨_, (Space.new config'.bitmapFrames).flush⟩ fun _ => Bitmap.empty :=
    ⟨.new hm, .new hm', .new _ _, fun _ he => bitmap_flush_new _ he⟩
  have h := hnew.after calls
  refine ⟨_, _, Sound.mount_eq_ok hconfig hv, Sound.mount_eq_ok hconfig' hv', fun call =>
    (h.step call).answer_eq, ⟨_, _, rfl, rfl, h.same.bytes_eq h.settled h.settled'⟩, ?_, ?_⟩
  · exact h.settled.sound.cache.orderly h.newest
  · exact h.settled'.sound.cache.orderly fun e he => h.newest' he

/-- One slot over a file that is not there yet, and two slots over one that is empty. -/
theorem Space.slots_unseen_missing :
    ∃ s s', Space.mount ⟨1⟩ .missing = .ok s ∧ Space.mount ⟨2⟩ (.file {}) = .ok s' ∧
      let o := OpenSpace.after ⟨_, s⟩ [.allocate, .isFree ⟨0⟩, .flush]
      let o' := OpenSpace.after ⟨_, s'⟩ [.allocate, .isFree ⟨0⟩, .flush]
      let b := OpenSpace.newest ⟨_, s⟩ (fun _ => Bitmap.empty) [.allocate, .isFree ⟨0⟩, .flush]
      (∀ call : SpaceCall, (call.run o').1 = (call.run o).1) ∧
        (∃ img img', o.space.unmount = .file img ∧ o'.space.unmount = .file img' ∧
          img'.bytes = img.bytes) ∧
        o.space.bitmaps.Orderly o.space.extents.toNat b ∧
        o'.space.bitmaps.Orderly o'.space.extents.toNat b :=
  @Space.slots_unseen ⟨1⟩ ⟨2⟩ rfl rfl .missing (.file {}) rfl rfl [.allocate, .isFree ⟨0⟩, .flush]

end PageStore
