import PageStore.Proofs.Node.Edits

/-!
# A leaf is a list of entries

The bytes of a leaf are told apart by a header and a list of entries (`Leaf.Sheet`), and every
operation on leaves is an operation on such lists. Several leaves are changed in turn here, each by
operations on its own or by moves between two of them, from the time when they are formatted on.

* `Leaf.Edit.apply` is the operation on the lists, `Leaf.Edit.Allowed` is when it is meant to be
  used, and `Leaf.Edit.writes` are the bytes it may change;
* `Leaf.Edit.run_eq_ok` is one step, and `Leaf.bytes_hold_entries` is any run.
-/

namespace PageStore

namespace Leaf

/-- What is read from a leaf. -/
structure Sheet where
  /-- its header, the number of entries apart -/
  header : Header
  /-- its entries in order -/
  entries : List (Key × RowId)

/-- The bytes of the leaf read so. -/
structure Reads (l : Leaf) (s : Sheet) : Prop where
  /-- the fields of the header, and as many entries as there are -/
  states : l.States s.header s.entries.length
  /-- the key and the row at each index -/
  entries : Leaf.entries l = .ok s.entries
  /-- the page is taken for this leaf -/
  accepted : Node.ofBlock .leaf l.page = .ok l

/-- A leaf that was just formatted. -/
def Sheet.blank (id parent : PageId) (max width : Nat) : Sheet :=
  ⟨.fresh id parent max width, []⟩

/-! ## Moves between two leaves -/

/-- Which entries of a leaf go over to another one. -/
inductive Move where
  | upper
  | all
  | first
  | last

namespace Move

/-- Moves entries from the first leaf to the second. -/
def run : Move → Leaf → Leaf → Except Halt (Leaf × Leaf)
  | upper => giveUpper
  | all => giveAll
  | first => giveFirst
  | last => giveLast

/-- When the move is meant to be used: there is something to move, and room for it. -/
def Allowed (max : Nat) (s t : Sheet) : Move → Prop
  | upper => minSize max < s.entries.length ∧ t.entries = []
  | all => s.entries.length + t.entries.length ≤ max + 1
  | first => s.entries ≠ [] ∧ t.entries.length ≤ max
  | last => s.entries ≠ [] ∧ t.entries.length ≤ max

/-- What the move makes of the lists. -/
def apply (s t : Sheet) : Move → Sheet × Sheet
  | upper =>
    (⟨{ s.header with next := t.header.id }, s.entries.take (minSize s.header.maxSize)⟩,
      ⟨{ t.header with next := s.header.next }, s.entries.drop (minSize s.header.maxSize)⟩)
  | all => (⟨s.header, []⟩, ⟨{ t.header with next := s.header.next }, t.entries ++ s.entries⟩)
  | first => (⟨s.header, s.entries.tail⟩, ⟨t.header, t.entries ++ s.entries.take 1⟩)
  | last => (⟨s.header, s.entries.dropLast⟩, ⟨t.header, s.entries.getLast?.toList ++ t.entries⟩)

/-- The bytes of the two leaves that the move may change. -/
def writes (width : Nat) (s t : Sheet) : Move → Set Nat × Set Nat
  | upper => (countBytes ∪ nextBytes,
      countBytes ∪ NodeKind.leaf.recordBytes width t.entries.length
        (t.entries.length + (s.entries.length - minSize s.header.maxSize)) ∪ nextBytes)
  | all => (countBytes,
      countBytes ∪ NodeKind.leaf.recordBytes width t.entries.length
        (t.entries.length + s.entries.length) ∪ nextBytes)
  | first => (countBytes ∪ NodeKind.leaf.recordBytes width 0 (s.entries.length - 1),
      countBytes ∪ NodeKind.leaf.recordBytes width t.entries.length (t.entries.length + 1))
  | last => (countBytes,
      countBytes ∪ NodeKind.leaf.recordBytes width 0 (t.entries.length + 1))

end Move

/-! ## Edits of many leaves -/

section Edits

variable {ι : Type} [DecidableEq ι]

/-- A change of one of many leaves, or of two. -/
inductive Edit (ι : Type) where
  | insert (a : ι) (i : Nat) (key : Key) (row : RowId)
  | remove (a : ι) (i : Nat)
  | move (m : Move) (a b : ι)

namespace Edit

/-- Makes the change. -/
def run (l : ι → Leaf) : Edit ι → Except Halt (ι → Leaf)
  | insert a i key row => do return Function.update l a (← Leaf.insert (l a) i key row)
  | remove a i => do return Function.update l a (← (l a).remove i)
  | move m a b => do return putTwo l a b (← m.run (l a) (l b))

/-- When the change is meant to be made. -/
def Allowed (max width : Nat) (S : ι → Sheet) : Edit ι → Prop
  | insert a i key _ =>
    i ≤ (S a).entries.length ∧ (S a).entries.length ≤ max ∧ key.length = width
  | remove a i => i < (S a).entries.length
  | move m a b => a ≠ b ∧ m.Allowed max (S a) (S b)

/-- What the change makes of the lists. -/
def apply (S : ι → Sheet) : Edit ι → ι → Sheet
  | insert a i key row =>
    Function.update S a { S a with entries := (S a).entries.insertIdx i (key, row) }
  | remove a i => Function.update S a { S a with entries := (S a).entries.eraseIdx i }
  | move m a b => putTwo S a b (m.apply (S a) (S b))

/-- The bytes of each leaf that the change may change. -/
def writes (width : Nat) (S : ι → Sheet) : Edit ι → ι → Set Nat
  | insert a i _ _ => Function.update (fun _ => ∅) a
      (countBytes ∪ NodeKind.leaf.recordBytes width i ((S a).entries.length + 1))
  | remove a i => Function.update (fun _ => ∅) a
      (countBytes ∪ NodeKind.leaf.recordBytes width i ((S a).entries.length - 1))
  | move m a b => putTwo (fun _ => ∅) a b (m.writes width (S a) (S b))

end Edit

end Edits

/-! ## One step -/

section Step

variable {max width : Nat} {l dest : Leaf} {s t : Sheet}

/-- The leaf keeps what is read from it. -/
def Keeps (max width : Nat) (l : Leaf) (s : Sheet) : Prop :=
  Node.Keeps l max width s.header s.entries

theorem Keeps.reads (h : Keeps max width l s) (hk : NodeKind.leaf.Takes max width) :
    Reads l s where
  states := h.holds.states
  entries := entries_eq_ok h.holds
  accepted := h.ofBlock_eq_ok hk

theorem Keeps.size (h : Keeps max width l s) : l.size = s.entries.length := h.holds.states.size

theorem Keeps.keySize (h : Keeps max width l s) : l.keySize = width :=
  h.holds.states.keySize.trans h.width

/-- **A move** returns, and moves what it is meant to. -/
theorem Move.run_eq_ok (hk : NodeKind.leaf.Takes max width) (h : Keeps max width l s)
    (h' : Keeps max width dest t) {m : Move} (hm : m.Allowed max s t) :
    ∃ r, m.run l dest = .ok r ∧ Keeps max width r.1 (m.apply s t).1 ∧
      Keeps max width r.2 (m.apply s t).2 := by
  have hw : s.header.width = t.header.width := h.width.trans h'.width.symm
  have hroom : ∀ {i}, i ≤ max + 1 → dest.offset i ≤ pageSize := fun hi => h'.offset_le hk hi
  obtain ⟨hd, recs⟩ := s
  obtain ⟨hd', recs'⟩ := t
  have hshort : recs.length ≤ max + 1 := h.short
  cases m with
  | upper =>
    obtain ⟨hmin, rfl⟩ := hm
    have hcut : Node.Holds l hd
        (recs.take (minSize hd.maxSize) ++ recs.drop (minSize hd.maxSize)) := by
      rw [List.take_append_drop]
      exact h.holds
    have hkeep : (recs.take (minSize hd.maxSize)).length = minSize hd.maxSize := by
      rw [h.maxSize]
      exact List.length_take_of_le hmin.le
    have hmoved : (recs.drop (minSize hd.maxSize)).length ≤ max + 1 := by
      rw [List.length_drop]
      exact (Nat.sub_le ..).trans hshort
    obtain ⟨l', dest', hrun, hl, hdest⟩ := giveUpper_eq_ok hcut h'.holds hkeep hw (hroom hmoved)
    exact ⟨(l', dest'), hrun, ⟨hl, h.maxSize, h.width, (List.length_take_le' ..).trans hshort⟩,
      hdest, h'.maxSize, h'.width, hmoved⟩
  | all =>
    have hsum : recs.length + recs'.length ≤ max + 1 := hm
    rw [Nat.add_comm] at hsum
    obtain ⟨l', dest', hrun, hl, hdest⟩ := giveAll_eq_ok h.holds h'.holds hw (hroom hsum)
    exact ⟨(l', dest'), hrun, ⟨hl, h.maxSize, h.width, Nat.zero_le _⟩, hdest, h'.maxSize, h'.width,
      List.length_append.trans_le hsum⟩
  | first =>
    obtain ⟨hne, hfit⟩ := hm
    obtain ⟨r, rest, rfl⟩ := List.exists_cons_of_ne_nil hne
    have hsum : recs'.length + 1 ≤ max + 1 := Nat.succ_le_succ hfit
    obtain ⟨l', dest', hrun, hl, hdest⟩ := giveFirst_eq_ok h.holds h'.holds hw (hroom hsum)
    exact ⟨(l', dest'), hrun, ⟨hl, h.maxSize, h.width, (Nat.le_succ _).trans hshort⟩, hdest,
      h'.maxSize, h'.width, List.length_append.trans_le hsum⟩
  | last =>
    obtain ⟨hne, hfit⟩ := hm
    obtain rfl | ⟨pre, r, rfl⟩ := List.eq_nil_or_concat' recs
    · exact absurd rfl hne
    have hsum : recs'.length + 1 ≤ max + 1 := Nat.succ_le_succ hfit
    obtain ⟨l', dest', hrun, hl, hdest⟩ := giveLast_eq_ok h.holds h'.holds hw (hroom hsum)
    have hpre : pre.length ≤ max + 1 := by
      rw [List.length_append] at hshort
      exact (Nat.le_add_right ..).trans hshort
    refine ⟨(l', dest'), hrun, ?_⟩
    simp only [apply, List.dropLast_concat, List.getLast?_concat]
    exact ⟨⟨hl, h.maxSize, h.width, hpre⟩, hdest, h'.maxSize, h'.width, hsum⟩

/-- **A move** changes nothing but the counts, the links and the records that it is about. -/
theorem Move.rewrites (h : Keeps max width l s) (h' : Keeps max width dest t) {m : Move}
    (hm : m.Allowed max s t) {r : Leaf × Leaf} (hrun : m.run l dest = .ok r) :
    l.page.Rewrites r.1.page (m.writes width s t).1 ∧
      dest.page.Rewrites r.2.page (m.writes width s t).2 := by
  have hmin : l.minSize = minSize s.header.maxSize := congrArg minSize h.holds.states.maxSize
  cases m with
  | upper =>
    obtain ⟨⟨l₁, d₁⟩, hmove, hret⟩ := of_bind_eq_ok hrun
    cases hret
    obtain ⟨hl, hdest⟩ := Node.rewrites_moveUpper hmove
    rw [h.size, h'.size, h'.keySize, hmin] at hdest
    exact ⟨hl.trans (Node.rewrites_setNext _ _), hdest.trans (Node.rewrites_setNext _ _)⟩
  | all =>
    obtain ⟨⟨l₁, d₁⟩, hmove, hret⟩ := of_bind_eq_ok hrun
    cases hret
    obtain ⟨hl, hdest⟩ := Node.rewrites_moveAll hmove
    rw [h.size, h'.size, h'.keySize] at hdest
    exact ⟨hl, hdest.trans (Node.rewrites_setNext _ _)⟩
  | first =>
    obtain ⟨d₁, happend, hrun⟩ := of_bind_eq_ok hrun
    obtain ⟨l₁, hremove, hret⟩ := of_bind_eq_ok hrun
    cases hret
    have hpos : 0 < l.size := by
      rw [h.size]
      exact List.length_pos_of_ne_nil hm.1
    have hl := Node.rewrites_remove hremove hpos
    have hdest := Node.rewrites_append happend
    rw [h.size, h.keySize] at hl
    rw [h'.size, h'.keySize] at hdest
    exact ⟨hl, hdest⟩
  | last =>
    obtain ⟨i, hlast, hrun⟩ := of_bind_eq_ok hrun
    obtain ⟨key, hkey, hrun⟩ := of_bind_eq_ok hrun
    obtain ⟨row, hrow, hrun⟩ := of_bind_eq_ok hrun
    obtain ⟨d₁, hinsert, hret⟩ := of_bind_eq_ok hrun
    cases hret
    have hdest := Node.rewrites_insertRecord hinsert (Nat.zero_le _) (RowId.length_toBytes row)
    rw [h'.size, h'.keySize] at hdest
    exact ⟨Node.rewrites_setSize l i, hdest⟩

end Step

/-! ## Runs -/

section Runs

variable {ι : Type} [DecidableEq ι] {max width : Nat} {l : ι → Leaf} {S : ι → Sheet} {e : Edit ι}

/-- The leaf is the one of the family with other bytes at these offsets. -/
def Changes (l : ι → Leaf) (a : ι) (l' : Leaf) (W : Set Nat) : Prop :=
  (l a).page.Rewrites l'.page W

/-- **One edit** that is allowed returns, and does to the leaves what it does to the lists. -/
theorem Edit.run_eq_ok (hk : NodeKind.leaf.Takes max width) (h : ∀ a, Keeps max width (l a) (S a))
    (he : e.Allowed max width S) :
    ∃ l', e.run l = .ok l' ∧ (∀ a, Keeps max width (l' a) (e.apply S a)) ∧
      ∀ a, Changes l a (l' a) (e.writes width S a) := by
  have hsame : ∀ a, Changes l a (l a) ∅ := fun a => .refl _ _
  cases e with
  | insert a i key row =>
    obtain ⟨hi, hfit, hkey⟩ := he
    have hlen := List.length_insertIdx_of_le_length hi (key, row)
    obtain ⟨n, hinsert, hholds⟩ := (h a).holds.insertIdx_eq_ok hi (key, row)
      (hkey.trans (h a).width.symm) ((h a).offset_le hk (Nat.succ_le_succ hfit))
    have hwrites : Changes l a n _ := Node.rewrites_insertRecord hinsert ((h a).size.symm ▸ hi)
      (RowId.length_toBytes row)
    rw [(h a).size, (h a).keySize] at hwrites
    have hinsert' : Leaf.insert (l a) i key row = .ok n := hinsert
    refine ⟨Function.update l a n, ?_, forall_update h ?_, forall_update hsame hwrites⟩
    · rw [run, hinsert']
      rfl
    · exact ⟨hholds, (h a).maxSize, (h a).width, hlen.trans_le (Nat.succ_le_succ hfit)⟩
  | remove a i =>
    have hi : i < (S a).entries.length := he
    have hlen := List.length_eraseIdx_le (S a).entries i
    obtain ⟨n, hremove, hholds⟩ := (h a).holds.eraseIdx_eq_ok hi
    have hwrites : Changes l a n _ := Node.rewrites_remove hremove ((h a).size.symm ▸ hi)
    rw [(h a).size, (h a).keySize] at hwrites
    refine ⟨Function.update l a n, ?_, forall_update h ?_, forall_update hsame hwrites⟩
    · rw [run, hremove]
      rfl
    · exact ⟨hholds, (h a).maxSize, (h a).width, hlen.trans (h a).short⟩
  | move m a b =>
    obtain ⟨-, hm⟩ := he
    obtain ⟨r, hmove, hl, hdest⟩ := Move.run_eq_ok hk (h a) (h b) hm
    obtain ⟨hwrites, hwrites'⟩ := Move.rewrites (h a) (h b) hm hmove
    refine ⟨putTwo l a b r, ?_, forall_putTwo h hl hdest, forall_putTwo hsame hwrites hwrites'⟩
    rw [run, hmove]
    rfl

/-- **The bytes of leaves implement lists of entries.** Leaves are formatted with the same settings,
and changed by edits each of which is allowed when its turn comes. Then all of them return, and
every leaf reads as its list: the number of entries, the key and the row of each one, and the fields
of the header. A further edit that is allowed does to the leaves what it does to the lists, and
changes no byte but those of the count, of the link and of the records that it is about. -/
theorem bytes_hold_entries (hk : NodeKind.leaf.Takes max width) (id parent : ι → PageId)
    (edits : List (Edit ι))
    (hedits : AllowedInTurn (Edit.Allowed max width) Edit.apply
      (fun a => Sheet.blank (id a) (parent a) max width) edits) :
    ∃ l S, edits.foldlM Edit.run (fun a => Node.fresh .leaf (id a) (parent a) max width) = .ok l ∧
      S = edits.foldl Edit.apply (fun a => Sheet.blank (id a) (parent a) max width) ∧
      (∀ a, Reads (l a) (S a)) ∧
      ∀ e : Edit ι, e.Allowed max width S → ∃ l', e.run l = .ok l' ∧
        (∀ a, Reads (l' a) (e.apply S a)) ∧
        ∀ a, (l a).page.Rewrites (l' a).page (e.writes width S a) := by
  have hfresh : ∀ a, Keeps max width (Node.fresh .leaf (id a) (parent a) max width)
      (Sheet.blank (id a) (parent a) max width) := fun a => Node.keeps_fresh hk (id a) (parent a)
  obtain ⟨l, hrun, hkeeps⟩ := AllowedInTurn.foldlM_eq_ok
    (R := fun (l : ι → Leaf) S => ∀ a, Keeps max width (l a) (S a)) (fun h he => by
      obtain ⟨l', hrun, hkeeps, -⟩ := Edit.run_eq_ok hk h he
      exact ⟨l', hrun, hkeeps⟩) hfresh hedits
  refine ⟨l, _, hrun, rfl, fun a => (hkeeps a).reads hk, fun e he => ?_⟩
  obtain ⟨l', hedit, hkeeps', hwrites⟩ := Edit.run_eq_ok hk hkeeps he
  exact ⟨l', hedit, fun a => (hkeeps' a).reads hk, hwrites⟩

end Runs

/-- A leaf with room for two entries that is split when it has three, and loses one then. -/
theorem bytes_hold_entries_split : ∃ l l' : Bool → Leaf,
    [Edit.insert false 0 [7] ⟨⟨5⟩, 1⟩, .insert false 1 [9] ⟨⟨5⟩, 2⟩, .insert false 0 [3] ⟨⟨5⟩, 0⟩,
        .move .upper false true].foldlM Edit.run
      (fun a => Node.fresh .leaf (if a then ⟨2⟩ else ⟨1⟩) .none 2 1) = .ok l ∧
    (l false).entries = .ok [([3], ⟨⟨5⟩, 0⟩)] ∧ (l false).next = ⟨2⟩ ∧
    (l true).entries = .ok [([7], ⟨⟨5⟩, 1⟩), ([9], ⟨⟨5⟩, 2⟩)] ∧
    (Edit.remove true 0).run l = .ok l' ∧ (l' true).entries = .ok [([9], ⟨⟨5⟩, 2⟩)] := by
  obtain ⟨l, S, hrun, rfl, hreads, hstep⟩ := @bytes_hold_entries Bool _ 2 1
    ⟨by decide, by decide, by decide⟩ (fun a => if a then ⟨2⟩ else ⟨1⟩) (fun _ => .none)
    [.insert false 0 [7] ⟨⟨5⟩, 1⟩, .insert false 1 [9] ⟨⟨5⟩, 2⟩, .insert false 0 [3] ⟨⟨5⟩, 0⟩,
      .move .upper false true]
    ⟨⟨by decide, by decide, rfl⟩, ⟨by decide, by decide, rfl⟩, ⟨by decide, by decide, rfl⟩,
      ⟨by decide, by decide, rfl⟩, trivial⟩
  obtain ⟨l', hremove, hreads', -⟩ := hstep (.remove true 0) (by decide : 0 < 2)
  exact ⟨l, l', hrun, (hreads false).entries, (hreads false).states.next rfl,
    (hreads true).entries, hremove, (hreads' true).entries⟩

end Leaf

end PageStore
