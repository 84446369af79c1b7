import Mathlib.Data.List.InsertIdx
import Mathlib.Data.List.TakeDrop
import PageStore.Proofs.Node.Edits

/-!
# An internal node is children with separators

The records of an internal node are children, each with a key, but the first key separates nothing.
What the node says is its children and the keys between them (`Branching`), and the first key only
carries a key from one operation to the next: after children have moved between two nodes, that of
the right one is the new key between the two.

* `Branching.join` puts two nodes together, with the key between them; every move between two nodes
  takes one of them apart and joins a part to the other (`Internal.Move.apply`);
* `Internal.Edit.run_eq_ok` is one step and `Internal.bytes_hold_children` is any run, as for
  leaves;
* `Internal.Move.apply_undo` is that the opposite move restores both nodes.
-/

namespace PageStore

/-! ## Children and separators -/

/-- Children, and the keys between them. -/
@[ext]
structure Branching where
  children : List PageId
  separators : List Key

namespace Branching

variable {x y : Branching} {i : Nat} {key middle : Key}

/-- Neither children nor keys. -/
def empty : Branching := ⟨[], []⟩

/-- Puts a child behind a key, as child `i`. -/
def insert (x : Branching) (i : Nat) (key : Key) (child : PageId) : Branching :=
  ⟨x.children.insertIdx i child, x.separators.insertIdx (i - 1) key⟩

/-- Drops child `i`, and the key before it. -/
def remove (x : Branching) (i : Nat) : Branching :=
  ⟨x.children.eraseIdx i, x.separators.eraseIdx (i - 1)⟩

/-- The children before child `i`, and the keys between them. -/
def take (x : Branching) (i : Nat) : Branching := ⟨x.children.take i, x.separators.take (i - 1)⟩

/-- The children from child `i` on, and the keys between them. -/
def drop (x : Branching) (i : Nat) : Branching := ⟨x.children.drop i, x.separators.drop i⟩

/-- The key before child `i`. -/
def before (x : Branching) : Nat → Option Key
  | 0 => none
  | i + 1 => x.separators[i]?

/-- Puts the children of two nodes in a row, with a key between those of the first and those of the
second. -/
def join (x : Branching) (middle : Key) (y : Branching) : Branching :=
  if x.children = [] then y
  else if y.children = [] then x
  else ⟨x.children ++ y.children, x.separators ++ middle :: y.separators⟩

/-- There is a key between each two neighbours. -/
def Fits (x : Branching) : Prop := x.separators.length = x.children.length - 1

theorem Fits.eq_empty (hx : x.Fits) (hempty : x.children = []) : x = empty := by
  rw [Fits, hempty] at hx
  exact Branching.ext hempty (List.eq_nil_of_length_eq_zero hx)

theorem join_of_left_empty (hx : x.children = []) (middle : Key) (y : Branching) :
    x.join middle y = y := if_pos hx

theorem join_of_right_empty (hx : x.Fits) (hy : y.Fits) (hempty : y.children = []) (middle : Key) :
    x.join middle y = x := by
  by_cases hnil : x.children = []
  · rw [join_of_left_empty hnil, hx.eq_empty hnil, hy.eq_empty hempty]
  · rw [join, if_neg hnil, if_pos hempty]

theorem join_of_ne (hx : x.children ≠ []) (hy : y.children ≠ []) (middle : Key) :
    x.join middle y = ⟨x.children ++ y.children, x.separators ++ middle :: y.separators⟩ := by
  rw [join, if_neg hx, if_neg hy]

theorem length_join (hx : x.Fits) (hy : y.Fits) (middle : Key) :
    (x.join middle y).children.length = x.children.length + y.children.length := by
  by_cases hxnil : x.children = []
  · rw [join_of_left_empty hxnil, hxnil, List.length_nil, Nat.zero_add]
  · by_cases hynil : y.children = []
    · rw [join_of_right_empty hx hy hynil, hynil]
      rfl
    · rw [join_of_ne hxnil hynil]
      exact List.length_append

theorem Fits.take (hx : x.Fits) (i : Nat) : (x.take i).Fits := by
  simp only [Fits, Branching.take, List.length_take] at hx ⊢
  omega

theorem Fits.drop (hx : x.Fits) (i : Nat) : (x.drop i).Fits := by
  simp only [Fits, Branching.drop, List.length_drop] at hx ⊢
  omega

theorem Fits.take_of_length_le (hx : x.Fits) (hi : x.children.length ≤ i) : x.take i = x := by
  rw [Fits] at hx
  exact Branching.ext (List.take_of_length_le hi) (List.take_of_length_le (by omega))

/-- **Taking a node apart and joining the parts** with the key that was between them. -/
theorem join_take_drop (hx : x.Fits) (i : Nat) (hkey : ∀ s, x.before i = some s → key = s) :
    (x.take i).join key (x.drop i) = x := by
  cases i with
  | zero => exact join_of_left_empty rfl key _
  | succ i =>
    by_cases hlen : x.children.length ≤ i + 1
    · rw [join_of_right_empty (hx.take _) (hx.drop _) (List.drop_eq_nil_of_le hlen)]
      exact hx.take_of_length_le hlen
    · have hi : i < x.separators.length := by
        rw [Fits] at hx
        omega
      obtain rfl : key = x.separators[i] := hkey _ (List.getElem?_eq_getElem hi)
      have htake : (x.take (i + 1)).children ≠ [] := fun h => by
        have := congrArg List.length h
        rw [Branching.take, List.length_take, List.length_nil] at this
        omega
      have hdrop : (x.drop (i + 1)).children ≠ [] := fun h => by
        have := congrArg List.length h
        rw [Branching.drop, List.length_drop, List.length_nil] at this
        omega
      rw [join_of_ne htake hdrop]
      refine Branching.ext (List.take_append_drop ..) ?_
      simp only [Branching.take, Branching.drop, Nat.add_sub_cancel]
      rw [← List.drop_eq_getElem_cons, List.take_append_drop]

/-- **Taking a joined node apart** where the parts met. -/
theorem take_join (hx : x.Fits) (hy : y.Fits) (middle : Key) :
    (x.join middle y).take x.children.length = x := by
  by_cases hxnil : x.children = []
  · rw [hx.eq_empty hxnil]
    rfl
  · by_cases hynil : y.children = []
    · rw [join_of_right_empty hx hy hynil]
      exact hx.take_of_length_le (Nat.le_refl _)
    · rw [join_of_ne hxnil hynil]
      refine Branching.ext (List.take_left' rfl) ?_
      rw [Fits] at hx
      simp only [take, ← hx]
      exact List.take_left' rfl

theorem drop_join (hx : x.Fits) (hy : y.Fits) (middle : Key) :
    (x.join middle y).drop x.children.length = y := by
  by_cases hxnil : x.children = []
  · rw [join_of_left_empty hxnil, hxnil]
    rfl
  · by_cases hynil : y.children = []
    · rw [join_of_right_empty hx hy hynil, hy.eq_empty hynil]
      rw [Fits] at hx
      exact Branching.ext List.drop_length (List.drop_eq_nil_of_le (by omega))
    · rw [join_of_ne hxnil hynil]
      refine Branching.ext (List.drop_left' rfl) ?_
      have hlen : x.children.length = x.separators.length + 1 := by
        have := List.length_pos_of_ne_nil hxnil
        rw [Fits] at hx
        omega
      simp only [drop, hlen]
      rw [← List.drop_drop, List.drop_left' rfl]
      rfl

/-! ## From records -/

section Records

variable {recs recs' : List (Record .internal)}

/-- What the records of a node say. -/
def ofRecords (recs : List (Record .internal)) : Branching :=
  ⟨recs.map Prod.snd, recs.tail.map Prod.fst⟩

@[simp] theorem length_children_ofRecords (recs : List (Record .internal)) :
    (ofRecords recs).children.length = recs.length := List.length_map _

theorem fits_ofRecords (recs : List (Record .internal)) : (ofRecords recs).Fits := by
  simp [Fits, ofRecords]

theorem children_ofRecords_eq_nil_iff : (ofRecords recs).children = [] ↔ recs = [] :=
  List.map_eq_nil_iff

/-- The key before a child is that of its record. -/
theorem getElem?_of_before {s : Key} (h : (ofRecords recs).before i = some s) :
    ∃ child, recs[i]? = some (s, child) := by
  cases i with
  | zero => cases h
  | succ i =>
    rw [before, ofRecords, List.getElem?_map, List.getElem?_tail] at h
    obtain ⟨⟨key, child⟩, hr, rfl⟩ := Option.map_eq_some_iff.1 h
    exact ⟨child, hr⟩

theorem ofRecords_insertIdx (hi : 1 ≤ i) (hlen : i ≤ recs.length) (key : Key) (child : PageId) :
    ofRecords (recs.insertIdx i (key, child)) = (ofRecords recs).insert i key child := by
  obtain ⟨i, rfl⟩ := Nat.exists_eq_add_one_of_ne_zero (Nat.ne_of_gt hi)
  cases recs with
  | nil => cases hlen
  | cons r recs =>
    simp only [ofRecords, insert, List.insertIdx_succ_cons, List.map_cons, List.tail_cons,
      List.map_insertIdx, Nat.add_sub_cancel]

theorem ofRecords_eraseIdx (hi : 1 ≤ i) :
    ofRecords (recs.eraseIdx i) = (ofRecords recs).remove i := by
  obtain ⟨i, rfl⟩ := Nat.exists_eq_add_one_of_ne_zero (Nat.ne_of_gt hi)
  cases recs with
  | nil => rfl
  | cons r recs =>
    simp only [ofRecords, remove, List.eraseIdx_cons_succ, List.map_cons, List.tail_cons,
      List.eraseIdx_map, Nat.add_sub_cancel]

theorem ofRecords_take (recs : List (Record .internal)) (i : Nat) :
    ofRecords (recs.take i) = (ofRecords recs).take i := by
  simp only [ofRecords, take, List.map_take, List.tail_take_eq_take_tail]

theorem ofRecords_drop (recs : List (Record .internal)) (i : Nat) :
    ofRecords (recs.drop i) = (ofRecords recs).drop i := by
  simp only [ofRecords, drop, List.map_drop, List.tail_drop_eq_drop_tail]

/-- **Records in a row.** The first key of the second part becomes a separator. -/
theorem ofRecords_append_rekey (recs recs' : List (Record .internal)) (middle : Key) :
    ofRecords (recs ++ rekey middle recs') = (ofRecords recs).join middle (ofRecords recs') := by
  cases recs' with
  | nil =>
    rw [join_of_right_empty (fits_ofRecords recs) (fits_ofRecords []) rfl]
    exact congrArg ofRecords (List.append_nil recs)
  | cons r' recs' =>
    cases recs with
    | nil => exact (join_of_left_empty rfl middle _).symm
    | cons r recs =>
      rw [join_of_ne (List.cons_ne_nil _ _) (List.cons_ne_nil _ _)]
      simp only [ofRecords, rekey, List.cons_append, List.map_cons, List.map_append, List.tail_cons]

end Records

end Branching

namespace Internal

/-- The keys between the children. -/
def separators (n : Internal) : Except Halt (List Key) :=
  (List.range' 1 (n.size - 1)).mapM n.key

/-- The bytes of the node read so. -/
structure Reads (n : Internal) (hd : Header) (x : Branching) : Prop where
  /-- the fields of the header, and as many children as there are -/
  states : n.States hd x.children.length
  /-- the child at each index -/
  children : Internal.children n = .ok x.children
  /-- the key at each index but the first -/
  separators : Internal.separators n = .ok x.separators
  /-- the page is taken for this node -/
  accepted : Node.ofBlock .internal n.page = .ok n

theorem separators_eq_ok {n : Internal} {hd : Header} {recs : List (Record .internal)}
    (h : n.Holds hd recs) : separators n = .ok (recs.tail.map Prod.fst) := by
  have hlen : n.size - 1 = recs.tail.length := by rw [h.states.size, List.length_tail]
  rw [separators, hlen]
  refine mapM_range'_eq_ok recs.tail 1 fun i r hr => h.key_of_getElem? ?_
  rwa [Nat.add_comm, ← List.getElem?_tail]

/-! ## Moves between two nodes -/

/-- Which children of a node go over to another one. All but a split are told the key between the
two. -/
inductive Move where
  | upper
  | all (middle : Key)
  | first (middle : Key)
  | last (middle : Key)

namespace Move

/-- Moves children from the first node to the second, and tells which. -/
def run (n dest : Internal) : Move → Except Halt ((Internal × Internal) × List PageId)
  | upper => do
    let (n, dest, moved) ← giveUpper n dest
    return ((n, dest), moved)
  | all middle => do
    let (n, dest, moved) ← giveAll n dest middle
    return ((n, dest), moved)
  | first middle => do
    let (n, dest, moved) ← giveFirst n dest middle
    return ((n, dest), [moved])
  | last middle => do
    let (n, dest, moved) ← giveLast n dest middle
    return ((n, dest), [moved])

/-- When the move is meant to be used: there is something to move, and room for it. -/
def Allowed (max width : Nat) (x y : Branching) : Move → Prop
  | upper => minSize max ≤ x.children.length ∧ y.children = []
  | all middle => middle.length = width ∧ x.children.length + y.children.length ≤ max + 1
  | first middle => middle.length = width ∧ x.children ≠ [] ∧ y.children.length ≤ max
  | last middle => middle.length = width ∧ x.children ≠ [] ∧ y.children.length ≤ max

/-- What the move makes of the two. The nodes that receive come after in a split and when the last
child moves, and before otherwise. -/
def apply (max : Nat) (x y : Branching) : Move → Branching × Branching
  | upper => (x.take (minSize max), x.drop (minSize max))
  | all middle => (.empty, y.join middle x)
  | first middle => (x.drop 1, y.join middle (x.take 1))
  | last middle => (x.take (x.children.length - 1),
      (x.drop (x.children.length - 1)).join middle y)

/-- The children that move. -/
def moved (max : Nat) (x : Branching) : Move → List PageId
  | upper => (x.drop (minSize max)).children
  | all _ => x.children
  | first _ => (x.take 1).children
  | last _ => (x.drop (x.children.length - 1)).children

/-- The key of the first node that is between the two afterwards. -/
def between (max : Nat) (x : Branching) : Move → Option Key
  | upper => x.before (minSize max)
  | all _ => none
  | first _ => x.before 1
  | last _ => x.before (x.children.length - 1)

/-- The node that comes after the other one. -/
def right {α : Type} (r : α × α) : Move → α
  | upper => r.2
  | all _ => r.1
  | first _ => r.1
  | last _ => r.2

/-- The opposite move, given the key between the two. What was joined is not known any more. -/
def undo (key : Key) : Move → Option Move
  | upper => some (all key)
  | all _ => none
  | first _ => some (last key)
  | last _ => some (first key)

end Move

/-! ## Edits of many nodes -/

section Edits

variable {ι : Type} [DecidableEq ι]

/-- A change of one of many nodes, or of two. -/
inductive Edit (ι : Type) where
  | populate (a : ι) (left : PageId) (key : Key) (right : PageId)
  | insert (a : ι) (i : Nat) (key : Key) (child : PageId)
  | remove (a : ι) (i : Nat)
  | move (m : Move) (a b : ι)

namespace Edit

/-- Makes the change. -/
def run (n : ι → Internal) : Edit ι → Except Halt (ι → Internal)
  | populate a left key right => do
    return Function.update n a (← Internal.populate (n a) left key right)
  | insert a i key child => do return Function.update n a (← Internal.insert (n a) i key child)
  | remove a i => do return Function.update n a (← (n a).remove i)
  | move m a b => do return putTwo n a b (← m.run (n a) (n b)).1

/-- When the change is meant to be made. -/
def Allowed (max width : Nat) (S : ι → Branching) : Edit ι → Prop
  | populate a _ key _ => (S a).children = [] ∧ key.length = width
  | insert a i key _ => 1 ≤ i ∧ i ≤ (S a).children.length ∧ (S a).children.length ≤ max ∧
      key.length = width
  | remove a i => 1 ≤ i ∧ i < (S a).children.length
  | move m a b => a ≠ b ∧ m.Allowed max width (S a) (S b)

/-- What the change makes of children and separators. -/
def apply (max : Nat) (S : ι → Branching) : Edit ι → ι → Branching
  | populate a left key right => Function.update S a ⟨[left, right], [key]⟩
  | insert a i key child => Function.update S a ((S a).insert i key child)
  | remove a i => Function.update S a ((S a).remove i)
  | move m a b => putTwo S a b (m.apply max (S a) (S b))

end Edit

end Edits

/-! ## One move -/

section Moves

variable {max width : Nat} {n dest : Internal} {hd hd' : Header} {x y : Branching} {m back : Move}
  {key : Key}

/-- The node keeps children and separators. -/
def Keeps (max width : Nat) (hd : Header) (n : Internal) (x : Branching) : Prop :=
  ∃ recs, Node.Keeps n max width hd recs ∧ .ofRecords recs = x

theorem Keeps.fits (h : Keeps max width hd n x) : x.Fits := by
  obtain ⟨recs, -, rfl⟩ := h
  exact Branching.fits_ofRecords recs

theorem Keeps.reads (h : Keeps max width hd n x) (hk : NodeKind.internal.Takes max width) :
    Reads n hd x := by
  obtain ⟨recs, h, rfl⟩ := h
  refine ⟨?_, children_eq_ok h.holds, separators_eq_ok h.holds, h.ofBlock_eq_ok hk⟩
  rw [Branching.length_children_ofRecords]
  exact h.holds.states

/-- The first key can always be read. It is that of the first record, if there is one. -/
theorem exists_key_zero {recs : List (Record .internal)} (hk : NodeKind.internal.Takes max width)
    (h : Node.Keeps n max width hd recs) : ∃ key, n.key 0 = .ok key ∧ key.length = width ∧
      ∀ s child, recs[0]? = some (s, child) → key = s := by
  have hone : n.offset (0 + 1) ≤ pageSize := h.offset_le hk (Nat.le_add_left ..)
  refine ⟨_, n.key_eq_ok hone, ?_, fun s child hr => ?_⟩
  · rw [Block.length_slice]
    exact h.holds.states.keySize.trans h.width
  · exact Except.ok.inj ((n.key_eq_ok hone).symm.trans (h.holds.key_of_getElem? hr))

/-- The move returns, and moves what it is meant to. The key between the two is then the first one
of the right node. -/
def Move.Succeeds (m : Move) (max width : Nat) (hd hd' : Header) (n dest : Internal)
    (x y : Branching) : Prop :=
  ∃ r key, m.run n dest = .ok (r, m.moved max x) ∧ Keeps max width hd r.1 (m.apply max x y).1 ∧
    Keeps max width hd' r.2 (m.apply max x y).2 ∧ (m.right r).key 0 = .ok key ∧
    key.length = width ∧ ∀ s, m.between max x = some s → key = s

section Kinds

-- in each case the key between the two is that of the record at which the node was cut, and that
-- record comes first in the right node
variable {recs recs' : List (Record .internal)} {middle : Key}
  (hk : NodeKind.internal.Takes max width)
  (h : Node.Keeps n max width hd recs) (h' : Node.Keeps dest max width hd' recs')

include hk h h'

theorem Move.upper_succeeds
    (hm : Move.upper.Allowed max width (.ofRecords recs) (.ofRecords recs')) :
    Move.upper.Succeeds max width hd hd' n dest (.ofRecords recs) (.ofRecords recs') := by
  obtain ⟨hmin, hnil⟩ := hm
  rw [Branching.length_children_ofRecords] at hmin
  obtain rfl := Branching.children_ofRecords_eq_nil_iff.1 hnil
  have hcut : Node.Holds n hd (recs.take (minSize max) ++ recs.drop (minSize max)) := by
    rw [List.take_append_drop]
    exact h.holds
  have hkeep : (recs.take (minSize max)).length = minSize hd.maxSize := by
    rw [h.maxSize]
    exact List.length_take_of_le hmin
  have hmoved : (recs.drop (minSize max)).length ≤ max + 1 := by
    rw [List.length_drop]
    exact (Nat.sub_le ..).trans h.short
  obtain ⟨n', dest', hrun, hn, hdest⟩ := giveUpper_eq_ok hcut h'.holds hkeep
    (h.width.trans h'.width.symm) (h'.offset_le hk hmoved)
  have hright : Node.Keeps dest' max width hd' (recs.drop (minSize max)) :=
    ⟨hdest, h'.maxSize, h'.width, hmoved⟩
  obtain ⟨key, hkey, hlen, hfirst⟩ := exists_key_zero hk hright
  refine ⟨(n', dest'), key, ?_, ⟨_, ⟨hn, h.maxSize, h.width, ?_⟩, Branching.ofRecords_take ..⟩,
    ⟨_, hright, Branching.ofRecords_drop ..⟩, hkey, hlen, fun s hs => ?_⟩
  · rw [run, hrun, moved, ← Branching.ofRecords_drop]
    rfl
  · exact (List.length_take_le' ..).trans h.short
  · obtain ⟨child, hr⟩ := Branching.getElem?_of_before hs
    exact hfirst s child (by rwa [List.getElem?_drop])

theorem Move.all_succeeds
    (hm : (Move.all middle).Allowed max width (.ofRecords recs) (.ofRecords recs')) :
    (Move.all middle).Succeeds max width hd hd' n dest (.ofRecords recs) (.ofRecords recs') := by
  obtain ⟨hmiddle, hsum⟩ := hm
  simp only [Branching.length_children_ofRecords, Nat.add_comm recs.length] at hsum
  obtain ⟨n', dest', hrun, hn, hdest⟩ := giveAll_eq_ok h.holds h'.holds
    (h.width.trans h'.width.symm) (h.offset_le hk (Nat.le_add_left ..)) (h'.offset_le hk hsum)
    (hmiddle.trans h.width.symm)
  have hright : Node.Keeps n' max width hd [] := ⟨hn, h.maxSize, h.width, Nat.zero_le _⟩
  obtain ⟨key, hkey, hlen, -⟩ := exists_key_zero hk hright
  refine ⟨(n', dest'), key, ?_, ⟨_, hright, rfl⟩,
    ⟨_, ⟨hdest, h'.maxSize, h'.width, ?_⟩, Branching.ofRecords_append_rekey ..⟩, hkey, hlen, nofun⟩
  · rw [run, hrun]
    rfl
  · rwa [List.length_append, length_rekey]

theorem Move.first_succeeds
    (hm : (Move.first middle).Allowed max width (.ofRecords recs) (.ofRecords recs')) :
    (Move.first middle).Succeeds max width hd hd' n dest (.ofRecords recs) (.ofRecords recs') := by
  obtain ⟨hmiddle, hne, hfit⟩ := hm
  obtain ⟨r, rest, rfl⟩ :=
    List.exists_cons_of_ne_nil (mt Branching.children_ofRecords_eq_nil_iff.2 hne)
  rw [Branching.length_children_ofRecords] at hfit
  have hsum : recs'.length + 1 ≤ max + 1 := Nat.succ_le_succ hfit
  obtain ⟨n', dest', hrun, hn, hdest⟩ := giveFirst_eq_ok h.holds h'.holds (h'.offset_le hk hsum)
    (hmiddle.trans h'.width.symm)
  have hright : Node.Keeps n' max width hd rest :=
    ⟨hn, h.maxSize, h.width, (Nat.le_succ _).trans h.short⟩
  obtain ⟨key, hkey, hlen, hfirst⟩ := exists_key_zero hk hright
  refine ⟨(n', dest'), key, ?_, ⟨_, hright, Branching.ofRecords_drop (r :: rest) 1⟩,
    ⟨_, ⟨hdest, h'.maxSize, h'.width, List.length_append.trans_le hsum⟩,
      Branching.ofRecords_append_rekey recs' [r] middle⟩, hkey, hlen, fun s hs => ?_⟩
  · rw [run, hrun]
    rfl
  · obtain ⟨child, hr⟩ := Branching.getElem?_of_before (i := 1) hs
    exact hfirst s child hr

theorem Move.last_succeeds
    (hm : (Move.last middle).Allowed max width (.ofRecords recs) (.ofRecords recs')) :
    (Move.last middle).Succeeds max width hd hd' n dest (.ofRecords recs) (.ofRecords recs') := by
  obtain ⟨hmiddle, hne, hfit⟩ := hm
  obtain rfl | ⟨pre, r, rfl⟩ := List.eq_nil_or_concat' recs
  · exact absurd rfl hne
  rw [Branching.length_children_ofRecords] at hfit
  have hsum : recs'.length + 1 ≤ max + 1 := Nat.succ_le_succ hfit
  obtain ⟨n', dest', hrun, hn, hdest⟩ := giveLast_eq_ok h.holds h'.holds
    (h.width.trans h'.width.symm) (h'.offset_le hk hsum) (hmiddle.trans h'.width.symm)
  have hpre : pre.length ≤ max + 1 := by
    have hshort := h.short
    rw [List.length_append] at hshort
    exact (Nat.le_add_right ..).trans hshort
  have hright : Node.Keeps dest' max width hd' ([r] ++ rekey middle recs') :=
    ⟨hdest, h'.maxSize, h'.width, by rwa [List.singleton_append, List.length_cons, length_rekey]⟩
  obtain ⟨key, hkey, hlen, hfirst⟩ := exists_key_zero hk hright
  have hlast : (Branching.ofRecords (pre ++ [r])).children.length - 1 = pre.length := by
    rw [Branching.length_children_ofRecords, List.length_append]
    rfl
  have hstay := Branching.ofRecords_take (pre ++ [r]) pre.length
  have hgo := Branching.ofRecords_drop (pre ++ [r]) pre.length
  rw [List.take_left] at hstay
  rw [List.drop_left] at hgo
  simp only [Succeeds, moved, apply, between, hlast, ← hstay, ← hgo]
  refine ⟨(n', dest'), key, ?_, ⟨_, ⟨hn, h.maxSize, h.width, hpre⟩, rfl⟩,
    ⟨_, hright, Branching.ofRecords_append_rekey [r] recs' middle⟩, hkey, hlen, fun s hs => ?_⟩
  · rw [run, hrun]
    rfl
  · obtain ⟨child, hr⟩ := Branching.getElem?_of_before hs
    rw [List.getElem?_concat_length] at hr
    exact hfirst s child hr

end Kinds

/-- **A move** that is allowed succeeds. -/
theorem Move.run_eq_ok (hk : NodeKind.internal.Takes max width) (h : Keeps max width hd n x)
    (h' : Keeps max width hd' dest y) (hm : m.Allowed max width x y) :
    m.Succeeds max width hd hd' n dest x y := by
  obtain ⟨recs, h, rfl⟩ := h
  obtain ⟨recs', h', rfl⟩ := h'
  cases m with
  | upper => exact upper_succeeds hk h h' hm
  | all middle => exact all_succeeds hk h h' hm
  | first middle => exact first_succeeds hk h h' hm
  | last middle => exact last_succeeds hk h h' hm

/-- **The opposite move** of what a move has made restores both. -/
theorem Move.apply_undo (hx : x.Fits) (hy : y.Fits) (hxlen : x.children.length ≤ max + 1)
    (hm : m.Allowed max width x y) (hkey : key.length = width)
    (hbetween : ∀ s, m.between max x = some s → key = s) (hback : m.undo key = some back) :
    back.Allowed max width (m.apply max x y).2 (m.apply max x y).1 ∧
      back.apply max (m.apply max x y).2 (m.apply max x y).1 = (y, x) := by
  cases m with
  | upper =>
    obtain ⟨hmin, hnil⟩ := hm
    cases hback
    refine ⟨⟨hkey, ?_⟩, Prod.ext (hy.eq_empty hnil).symm (Branching.join_take_drop hx _ hbetween)⟩
    simp only [apply, Branching.take, Branching.drop, List.length_take, List.length_drop]
    omega
  | all middle => cases hback
  | first middle =>
    -- what was joined to the other node is its last child, and is cut off again where the two met
    obtain ⟨hmiddle, hne, hfit⟩ := hm
    cases hback
    have hfirst : (x.take 1).children.length = 1 :=
      List.length_take_of_le (List.length_pos_of_ne_nil hne)
    have hlen := Branching.length_join hy (hx.take 1) middle
    have hlast : (y.join middle (x.take 1)).children.length - 1 = y.children.length := by omega
    have hsome : 0 < (y.join middle (x.take 1)).children.length := by omega
    refine ⟨⟨hkey, List.ne_nil_of_length_pos hsome, ?_⟩, ?_⟩
    · simp only [apply, Branching.drop, List.length_drop]
      omega
    · simp only [apply, hlast]
      rw [Branching.take_join hy (hx.take 1), Branching.drop_join hy (hx.take 1),
        Branching.join_take_drop hx 1 hbetween]
  | last middle =>
    obtain ⟨hmiddle, hne, hfit⟩ := hm
    cases hback
    have hpos := List.length_pos_of_ne_nil hne
    have hlast : (x.drop (x.children.length - 1)).children.length = 1 := by
      simp only [Branching.drop, List.length_drop]
      omega
    have hlen := Branching.length_join (hx.drop (x.children.length - 1)) hy middle
    have hsome : 0 < ((x.drop (x.children.length - 1)).join middle y).children.length := by omega
    refine ⟨⟨hkey, List.ne_nil_of_length_pos hsome, ?_⟩, ?_⟩
    · simp only [apply, Branching.take, List.length_take]
      omega
    · have htake := Branching.take_join (hx.drop (x.children.length - 1)) hy middle
      have hdrop := Branching.drop_join (hx.drop (x.children.length - 1)) hy middle
      rw [hlast] at htake hdrop
      simp only [apply]
      rw [htake, hdrop, Branching.join_take_drop hx _ hbetween]

end Moves

/-! ## Runs -/

section Runs

variable {ι : Type} [DecidableEq ι] {max width : Nat} {n : ι → Internal} {hd : ι → Header}
  {S : ι → Branching} {e : Edit ι}

/-- **One edit** that is allowed returns, and does to the nodes what it does to children and
separators. -/
theorem Edit.run_eq_ok (hk : NodeKind.internal.Takes max width)
    (h : ∀ a, Keeps max width (hd a) (n a) (S a)) (he : e.Allowed max width S) :
    ∃ n', e.run n = .ok n' ∧ ∀ a, Keeps max width (hd a) (n' a) (e.apply max S a) := by
  cases e with
  | populate a left key right =>
    obtain ⟨hnil, hkey⟩ := he
    obtain ⟨recs, hkeeps, hS⟩ := h a
    rw [← hS, Branching.children_ofRecords_eq_nil_iff] at hnil
    subst hnil
    have htwo : 2 ≤ max + 1 := Nat.succ_le_succ hk.max_pos
    obtain ⟨n', first, hrun, hholds⟩ := populate_eq_ok hkeeps.holds (hkeeps.offset_le hk htwo)
      left right (hkey.trans hkeeps.width.symm)
    refine ⟨Function.update n a n', ?_, forall_update h
      ⟨_, ⟨hholds, hkeeps.maxSize, hkeeps.width, htwo⟩, rfl⟩⟩
    rw [run, hrun]
    rfl
  | insert a i key child =>
    obtain ⟨hone, hi, hfit, hkey⟩ := he
    obtain ⟨recs, hkeeps, hS⟩ := h a
    rw [← hS, Branching.length_children_ofRecords] at hi hfit
    have hsum : recs.length + 1 ≤ max + 1 := Nat.succ_le_succ hfit
    obtain ⟨n', hinsert, hholds⟩ := hkeeps.holds.insertIdx_eq_ok hi (key, child)
      (hkey.trans hkeeps.width.symm) (hkeeps.offset_le hk hsum)
    have hinsert' : Internal.insert (n a) i key child = .ok n' := hinsert
    have hlen := List.length_insertIdx_of_le_length hi (key, child)
    refine ⟨Function.update n a n', ?_, forall_update h
      ⟨_, ⟨hholds, hkeeps.maxSize, hkeeps.width, hlen.trans_le hsum⟩, ?_⟩⟩
    · rw [run, hinsert']
      rfl
    · rw [← hS]
      exact Branching.ofRecords_insertIdx hone hi key child
  | remove a i =>
    obtain ⟨hone, hi⟩ := he
    obtain ⟨recs, hkeeps, hS⟩ := h a
    rw [← hS, Branching.length_children_ofRecords] at hi
    obtain ⟨n', hremove, hholds⟩ := hkeeps.holds.eraseIdx_eq_ok hi
    have hlen := List.length_eraseIdx_le recs i
    refine ⟨Function.update n a n', ?_, forall_update h
      ⟨_, ⟨hholds, hkeeps.maxSize, hkeeps.width, hlen.trans hkeeps.short⟩, ?_⟩⟩
    · rw [run, hremove]
      rfl
    · rw [← hS]
      exact Branching.ofRecords_eraseIdx hone
  | move m a b =>
    obtain ⟨-, hm⟩ := he
    obtain ⟨r, key, hmove, hn, hdest, -⟩ := Move.run_eq_ok hk (h a) (h b) hm
    refine ⟨putTwo n a b r, ?_, forall_putTwo h hn hdest⟩
    rw [run, hmove]
    rfl

/-- **A move and the opposite move** with the key that is then between the two. -/
theorem Edit.run_undo (hk : NodeKind.internal.Takes max width)
    (h : ∀ a, Keeps max width (hd a) (n a) (S a)) {m : Move} {a b : ι} (hab : a ≠ b)
    (hm : m.Allowed max width (S a) (S b)) :
    ∃ r key, m.run (n a) (n b) = .ok (r, m.moved max (S a)) ∧ (m.right r).key 0 = .ok key ∧
      (∀ s, m.between max (S a) = some s → key = s) ∧
      ∀ back, m.undo key = some back → ∃ n',
        [Edit.move m a b, .move back b a].foldlM Edit.run n = .ok n' ∧
        ∀ c, Keeps max width (hd c) (n' c) (S c) := by
  obtain ⟨r, key, hmove, hn, hdest, hkey, hlen, hbetween⟩ := Move.run_eq_ok hk (h a) (h b) hm
  refine ⟨r, key, hmove, hkey, hbetween, fun back hback => ?_⟩
  have hedit : Edit.run n (.move m a b) = .ok (putTwo n a b r) := by
    rw [run, hmove]
    rfl
  have hshort : (S a).children.length ≤ max + 1 := by
    obtain ⟨recs, hrecs, hS⟩ := h a
    rw [← hS, Branching.length_children_ofRecords]
    exact hrecs.short
  have hmiddle : ∀ c, Keeps max width (hd c) (putTwo n a b r c)
      (putTwo S a b (m.apply max (S a) (S b)) c) := forall_putTwo h hn hdest
  obtain ⟨hallowed, hsame⟩ :=
    Move.apply_undo (h a).fits (h b).fits hshort hm hlen hbetween hback
  have hstep : (Edit.move back b a).Allowed max width (putTwo S a b (m.apply max (S a) (S b))) := by
    refine ⟨hab.symm, ?_⟩
    rw [putTwo_right, putTwo_left _ hab]
    exact hallowed
  obtain ⟨n', hundo, hkeeps⟩ := Edit.run_eq_ok hk hmiddle hstep
  refine ⟨n', ?_, ?_⟩
  · rw [List.foldlM_cons, hedit, ok_bind, List.foldlM_cons, hundo]
    rfl
  · rwa [apply, putTwo_right, putTwo_left _ hab, hsame, putTwo_putTwo_self _ hab] at hkeeps

/-- **The bytes of internal nodes implement children with separators.** Nodes are formatted with the
same settings, and changed by edits each of which is allowed when its turn comes. Then all of them
return, and every node reads as its children and separators. What a further edit that is allowed
does to the nodes is what it does to these.

A move between two nodes tells which children moved, and leaves the key that is now between the two
as the first key of the right node. The opposite move with that key restores both. -/
theorem bytes_hold_children (hk : NodeKind.internal.Takes max width) (id parent : ι → PageId)
    (edits : List (Edit ι))
    (hedits : AllowedInTurn (Edit.Allowed max width) (Edit.apply max) (fun _ => .empty) edits) :
    ∃ n S,
      edits.foldlM Edit.run (fun a => Node.fresh .internal (id a) (parent a) max width) = .ok n ∧
      S = edits.foldl (Edit.apply max) (fun _ => .empty) ∧
      (∀ a, Reads (n a) (.fresh (id a) (parent a) max width) (S a)) ∧
      (∀ e : Edit ι, e.Allowed max width S → ∃ n', e.run n = .ok n' ∧
        ∀ a, Reads (n' a) (.fresh (id a) (parent a) max width) (e.apply max S a)) ∧
      ∀ (m : Move) (a b : ι), a ≠ b → m.Allowed max width (S a) (S b) → ∃ r key,
        m.run (n a) (n b) = .ok (r, m.moved max (S a)) ∧ (m.right r).key 0 = .ok key ∧
        (∀ s, m.between max (S a) = some s → key = s) ∧
        ∀ back, m.undo key = some back → ∃ n',
          [Edit.move m a b, .move back b a].foldlM Edit.run n = .ok n' ∧
          ∀ c, Reads (n' c) (.fresh (id c) (parent c) max width) (S c) := by
  have hfresh : ∀ a, Keeps max width (.fresh (id a) (parent a) max width)
      (Node.fresh .internal (id a) (parent a) max width) .empty := fun a =>
    ⟨[], Node.keeps_fresh hk (id a) (parent a), rfl⟩
  obtain ⟨n, hrun, hkeeps⟩ := AllowedInTurn.foldlM_eq_ok
    (R := fun (n : ι → Internal) S =>
      ∀ a, Keeps max width (.fresh (id a) (parent a) max width) (n a) (S a))
    (fun {_ S _} h he => Edit.run_eq_ok (S := S) hk h he) hfresh hedits
  refine ⟨n, _, hrun, rfl, fun a => (hkeeps a).reads hk, fun e he => ?_, fun m a b hab hm => ?_⟩
  · obtain ⟨n', hedit, hkeeps'⟩ := Edit.run_eq_ok hk hkeeps he
    exact ⟨n', hedit, fun a => (hkeeps' a).reads hk⟩
  · obtain ⟨r, key, hmove, hkey, hbetween, hundo⟩ := Edit.run_undo hk hkeeps hab hm
    refine ⟨r, key, hmove, hkey, hbetween, fun back hback => ?_⟩
    obtain ⟨n', hrun', hkeeps'⟩ := hundo back hback
    exact ⟨n', hrun', fun c => (hkeeps' c).reads hk⟩

end Runs

/-- Two nodes with room for three children. One is split when it has four, and the other one gives a
child back and gets it again. -/
theorem bytes_hold_children_split : ∃ (n n' : Bool → Internal) (r : Internal × Internal),
    [Edit.populate false ⟨10⟩ [10] ⟨11⟩, .insert false 2 [20] ⟨12⟩, .insert false 3 [30] ⟨13⟩,
        .move .upper false true].foldlM Edit.run
      (fun a => Node.fresh .internal (if a then ⟨2⟩ else ⟨1⟩) .none 3 1) = .ok n ∧
    (n false).children = .ok [⟨10⟩, ⟨11⟩] ∧ separators (n false) = .ok [[10]] ∧
    (n true).children = .ok [⟨12⟩, ⟨13⟩] ∧ separators (n true) = .ok [[30]] ∧
    Move.run (n true) (n false) (.first [20]) = .ok (r, [⟨12⟩]) ∧ r.1.key 0 = .ok [30] ∧
    [Edit.move (.first [20]) true false, .move (.last [30]) false true].foldlM Edit.run n = .ok n' ∧
    (n' false).children = .ok [⟨10⟩, ⟨11⟩] ∧ separators (n' true) = .ok [[30]] := by
  obtain ⟨n, S, hrun, rfl, hreads, -, hmoves⟩ := @bytes_hold_children Bool _ 3 1
    ⟨by decide, by decide, by decide⟩ (fun a => if a then ⟨2⟩ else ⟨1⟩) (fun _ => .none)
    [.populate false ⟨10⟩ [10] ⟨11⟩, .insert false 2 [20] ⟨12⟩, .insert false 3 [30] ⟨13⟩,
      .move .upper false true]
    ⟨⟨rfl, rfl⟩, ⟨by decide, by decide, by decide, rfl⟩, ⟨by decide, by decide, by decide, rfl⟩,
      ⟨by decide, by decide, rfl⟩, trivial⟩
  obtain ⟨r, key, hmove, hkey, hbetween, hundo⟩ := hmoves (.first [20]) true false (by decide)
    ⟨rfl, List.cons_ne_nil _ _, (by decide : 2 ≤ 3)⟩
  obtain rfl : key = [30] := hbetween [30] rfl
  obtain ⟨n', hrun', hreads'⟩ := hundo (.last [30]) rfl
  exact ⟨n, n', r, hrun, (hreads false).children, (hreads false).separators, (hreads true).children,
    (hreads true).separators, hmove, hkey, hrun', (hreads' false).children,
      (hreads' true).separators⟩

end Internal

end PageStore
