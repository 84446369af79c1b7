import PageStore.Proofs.Node.Search
import PageStore.Tree.Remove

/-!
# Records that change nodes

What is moved between two nodes is a part of their lists of records: a split cuts one list in two,
and a repair joins two lists, or lets one record change sides (`Share`). When children change
sides, the key between the two nodes becomes the key of the first child after it (`rekey`).
-/

namespace PageStore

namespace Node

variable {k : NodeKind} {n dest : Node k} {hd hd' : Header} {recs pre post : List (Record k)}

/-- A node has room for one record more than its largest possible size. -/
theorem offset_le_pageSize (n : Node k) (hcap : 0 < k.capacity n.keySize) {i : Nat}
    (hi : i ≤ k.capacity n.keySize + 1) : n.offset i ≤ pageSize := by
  refine Nat.le_trans (n.offset_le_offset hi) ?_
  exact k.headerSize_add_records_le (Nat.le_refl _) hcap

/-- **Splitting.** The first half stays, and the rest goes behind the records of `dest`. -/
theorem Holds.moveUpper_eq_ok (h : n.Holds hd (pre ++ post)) (h' : dest.Holds hd' recs)
    (hkeep : pre.length = PageStore.minSize hd.maxSize) (hw : hd.width = hd'.width)
    (hroom : dest.offset (recs.length + post.length) ≤ pageSize) :
    ∃ n' dest', n.moveUpper dest = .ok (n', dest') ∧ n'.Holds hd pre ∧
      dest'.Holds hd' (recs ++ post) := by
  have hmin : n.minSize = pre.length := by rw [hkeep, Node.minSize, h.states.maxSize]
  have hsize : n.size = pre.length + post.length := by rw [h.states.size, List.length_append]
  obtain ⟨dest', happend, hd'⟩ := h'.append_eq_ok pre post [] (by rwa [List.append_nil]) hw hroom
  refine ⟨_, dest', ?_, h.setSize _ _, hd'⟩
  rw [Node.moveUpper, hmin, if_neg (by omega), hsize, Nat.add_sub_cancel_left]
  simp only [happend]
  rfl

/-- **Joining.** Every record goes behind those of `dest`. -/
theorem Holds.moveAll_eq_ok (h : n.Holds hd post) (h' : dest.Holds hd' recs)
    (hw : hd.width = hd'.width) (hroom : dest.offset (recs.length + post.length) ≤ pageSize) :
    ∃ n' dest', n.moveAll dest = .ok (n', dest') ∧ n'.Holds hd [] ∧
      dest'.Holds hd' (recs ++ post) := by
  obtain ⟨dest', happend, hd'⟩ :=
    h'.append_eq_ok [] post [] (by simpa using h) hw hroom
  refine ⟨_, dest', ?_, Holds.setSize [] post h, hd'⟩
  rw [Node.moveAll, h.states.size]
  simp only [List.length_nil] at happend
  simp only [happend]
  rfl

theorem Holds.lastIndex_eq_ok {r : Record k} (h : n.Holds hd (pre ++ [r])) :
    n.lastIndex = .ok pre.length := by
  have hsize : n.size = pre.length + 1 := by rw [h.states.size, List.length_append]; rfl
  rw [Node.lastIndex, hsize]
  rfl

end Node

/-! ## Leaves -/

namespace Leaf

variable {l dest : Leaf} {hd hd' : Header} {recs pre post : List (Record .leaf)}

theorem giveUpper_eq_ok (h : l.Holds hd (pre ++ post)) (h' : dest.Holds hd' [])
    (hkeep : pre.length = minSize hd.maxSize) (hw : hd.width = hd'.width)
    (hroom : dest.offset post.length ≤ pageSize) :
    ∃ l' dest', giveUpper l dest = .ok (l', dest') ∧
      l'.Holds { hd with next := hd'.id } pre ∧ dest'.Holds { hd' with next := hd.next } post := by
  obtain ⟨l', dest', hmove, hl, hdest⟩ := h.moveUpper_eq_ok h' hkeep hw (by simpa using hroom)
  refine ⟨setNext l' dest'.id, setNext dest' (next l'), ?_, ?_, ?_⟩
  · rw [giveUpper, hmove]
    rfl
  · rw [hdest.states.id]
    exact hl.setNext _
  · rw [hl.next_eq]
    exact hdest.setNext _

theorem giveAll_eq_ok (h : l.Holds hd post) (h' : dest.Holds hd' recs) (hw : hd.width = hd'.width)
    (hroom : dest.offset (recs.length + post.length) ≤ pageSize) :
    ∃ l' dest', giveAll l dest = .ok (l', dest') ∧ l'.Holds hd [] ∧
      dest'.Holds { hd' with next := hd.next } (recs ++ post) := by
  obtain ⟨l', dest', hmove, hl, hdest⟩ := h.moveAll_eq_ok h' hw hroom
  refine ⟨l', setNext dest' (next l'), ?_, hl, ?_⟩
  · rw [giveAll, hmove]
    rfl
  · rw [hl.next_eq]
    exact hdest.setNext _

theorem giveFirst_eq_ok {r : Record .leaf} (h : l.Holds hd (r :: post)) (h' : dest.Holds hd' recs)
    (hw : hd.width = hd'.width) (hroom : dest.offset (recs.length + 1) ≤ pageSize) :
    ∃ l' dest', giveFirst l dest = .ok (l', dest') ∧ l'.Holds hd post ∧
      dest'.Holds hd' (recs ++ [r]) := by
  obtain ⟨dest', happend, hdest⟩ := h'.append_eq_ok [] [r] post h hw hroom
  obtain ⟨l', hremove, hl⟩ := h.remove_eq_ok []
  refine ⟨l', dest', ?_, hl, hdest⟩
  simp only [List.length_nil, List.length_singleton] at happend hremove
  simp only [giveFirst, happend, hremove]
  rfl

theorem giveLast_eq_ok {r : Record .leaf} (h : l.Holds hd (pre ++ [r])) (h' : dest.Holds hd' recs)
    (hw : hd.width = hd'.width) (hroom : dest.offset (recs.length + 1) ≤ pageSize) :
    ∃ l' dest', giveLast l dest = .ok (l', dest') ∧ l'.Holds hd pre ∧
      dest'.Holds hd' (r :: recs) := by
  have hr : (pre ++ [r])[pre.length]? = some r := List.getElem?_concat_length
  obtain ⟨dest', hinsert, hdest⟩ := h'.insertRecord_eq_ok [] recs r
    ((h.width r (by simp)).trans hw) hroom
  refine ⟨_, dest', ?_, h.setSize _ _, hdest⟩
  have hinsert' : insert dest 0 r.1 r.2 = .ok dest' := hinsert
  simp only [giveLast, h.lastIndex_eq_ok, ok_bind, h.key_of_getElem? hr, row_eq_ok h hr, hinsert']
  rfl

end Leaf

/-! ## Internal nodes -/

/-- The items with another key for the first one. -/
def rekey {α : Type} (key : Key) : List (Key × α) → List (Key × α)
  | [] => []
  | x :: l => (key, x.2) :: l

@[simp] theorem length_rekey {α : Type} (key : Key) (l : List (Key × α)) :
    (rekey key l).length = l.length := by
  cases l <;> rfl

@[simp] theorem map_snd_rekey {α : Type} (key : Key) (l : List (Key × α)) :
    (rekey key l).map Prod.snd = l.map Prod.snd := by
  cases l <;> rfl

namespace Internal

variable {n dest : Internal} {hd hd' : Header} {recs pre post : List (Record .internal)}

theorem giveUpper_eq_ok (h : n.Holds hd (pre ++ post)) (h' : dest.Holds hd' [])
    (hkeep : pre.length = minSize hd.maxSize) (hw : hd.width = hd'.width)
    (hroom : dest.offset post.length ≤ pageSize) :
    ∃ n' dest', giveUpper n dest = .ok (n', dest', post.map Prod.snd) ∧ n'.Holds hd pre ∧
      dest'.Holds hd' post := by
  obtain ⟨n', dest', hmove, hn, hdest⟩ := h.moveUpper_eq_ok h' hkeep hw (by simpa using hroom)
  have hmoved : n.size - n.minSize = post.length := by
    rw [h.states.size, Node.minSize, h.states.maxSize, ← hkeep, List.length_append,
      Nat.add_sub_cancel_left]
  have hchildren := childrenFrom_eq_ok [] post [] (by simpa using hdest)
  refine ⟨n', dest', ?_, hn, hdest⟩
  simp only [giveUpper, hmove, ok_bind, hmoved]
  rw [List.length_nil] at hchildren
  rw [hchildren]
  rfl

/-- Another first key, in a node that may have none. -/
theorem setKey_zero_eq_ok (h : n.Holds hd recs) (hroom : n.offset 1 ≤ pageSize) {key : Key}
    (hkey : key.length = hd.width) :
    ∃ n', n.setKey 0 key = .ok n' ∧ n'.Holds hd (rekey key recs) := by
  cases recs with
  | nil =>
    obtain ⟨rest, hs⟩ := h.stores
    have hlen := hs.length_eq
    rw [Node.offset, Node.recordSize, ← hlen] at hroom
    simp only [Record.flat, List.flatMap_nil, List.nil_append] at hs hroom
    obtain ⟨old, after, hold, rfl⟩ := exists_cut rest n.keySize (by omega)
    have hs₀ : n.Stores hd 0 (Record.flat ([] : List (Record .internal)) ++ old ++ after) := hs
    obtain ⟨n', hset, hs'⟩ :=
      hs₀.setKey (List.forall_mem_nil _) (hkey.trans h.states.keySize.symm) hold
    exact ⟨n', hset, Node.Stores.holds (key ++ after) hs' rfl (List.forall_mem_nil _)⟩
  | cons r post => exact h.setKey_eq_ok [] hkey

theorem giveAll_eq_ok (h : n.Holds hd post) (h' : dest.Holds hd' recs) (hw : hd.width = hd'.width)
    (hone : n.offset 1 ≤ pageSize) (hroom : dest.offset (recs.length + post.length) ≤ pageSize)
    {middle : Key} (hkey : middle.length = hd.width) :
    ∃ n' dest', giveAll n dest middle = .ok (n', dest', post.map Prod.snd) ∧ n'.Holds hd [] ∧
      dest'.Holds hd' (recs ++ rekey middle post) := by
  obtain ⟨n₁, hset, h₁⟩ := setKey_zero_eq_ok h hone hkey
  have hlen : (rekey middle post).length = post.length := length_rekey middle post
  obtain ⟨n', dest', hmove, hn, hdest⟩ := h₁.moveAll_eq_ok h' hw (by rwa [hlen])
  have hchildren := childrenFrom_eq_ok recs (rekey middle post) []
    (by rwa [List.append_nil])
  rw [hlen, map_snd_rekey] at hchildren
  refine ⟨n', dest', ?_, hn, hdest⟩
  simp only [giveAll, hset, hmove, ok_bind, h.states.size, h'.states.size, hchildren]
  rfl

theorem giveFirst_eq_ok {r : Record .internal} (h : n.Holds hd (r :: post))
    (h' : dest.Holds hd' recs) (hroom : dest.offset (recs.length + 1) ≤ pageSize) {middle : Key}
    (hkey : middle.length = hd'.width) :
    ∃ n' dest', giveFirst n dest middle = .ok (n', dest', r.2) ∧ n'.Holds hd post ∧
      dest'.Holds hd' (recs ++ [(middle, r.2)]) := by
  obtain ⟨dest', hinsert, hdest⟩ := Node.Holds.insertRecord_eq_ok recs []
    (middle, r.2) (by simpa using h') hkey (by simpa using hroom)
  obtain ⟨n', hremove, hn⟩ := h.remove_eq_ok []
  have hinsert' : insert dest recs.length middle r.2 = .ok dest' := hinsert
  refine ⟨n', dest', ?_, hn, hdest⟩
  rw [List.length_nil] at hremove
  simp only [giveFirst, child_eq_ok h (i := 0) rfl, ok_bind, h'.states.size, hinsert', hremove]
  rfl

theorem giveLast_eq_ok {r : Record .internal} (h : n.Holds hd (pre ++ [r]))
    (h' : dest.Holds hd' recs) (hw : hd.width = hd'.width)
    (hroom : dest.offset (recs.length + 1) ≤ pageSize) {middle : Key}
    (hkey : middle.length = hd'.width) :
    ∃ n' dest', giveLast n dest middle = .ok (n', dest', r.2) ∧ n'.Holds hd pre ∧
      dest'.Holds hd' (r :: rekey middle recs) := by
  have hr : (pre ++ [r])[pre.length]? = some r := List.getElem?_concat_length
  have hone : dest.offset 1 ≤ pageSize :=
    (dest.offset_le_offset (Nat.le_add_left 1 recs.length)).trans hroom
  obtain ⟨d₁, hset, h₁⟩ := setKey_zero_eq_ok h' hone hkey
  have hsame : d₁.offset = dest.offset := by
    funext i
    rw [Node.offset, Node.offset, Node.recordSize, Node.recordSize, h₁.states.keySize,
      h'.states.keySize]
  have hroom₁ : d₁.offset ((rekey middle recs).length + 1) ≤ pageSize := by
    rw [hsame, length_rekey]
    exact hroom
  obtain ⟨dest', hinsert, hdest⟩ := h₁.insertRecord_eq_ok [] (rekey middle recs) r
    ((h.width r (by simp)).trans hw) hroom₁
  have hinsert' : insert d₁ 0 r.1 r.2 = .ok dest' := hinsert
  refine ⟨_, dest', ?_, h.setSize _ _, hdest⟩
  simp only [giveLast, h.lastIndex_eq_ok, ok_bind, child_eq_ok h hr, hset, h.key_of_getElem? hr,
    hinsert']
  rfl

/-- **Two children** in a node without any. The first key is whatever the page holds there. -/
theorem populate_eq_ok (h : n.Holds hd []) (hroom : n.offset 2 ≤ pageSize) (left right : PageId)
    {key : Key} (hkey : key.length = hd.width) :
    ∃ n' first, populate n left key right = .ok n' ∧
      n'.Holds hd [(first, left), (key, right)] := by
  obtain ⟨rest, hs⟩ := h.stores
  have hlen := hs.length_eq
  rw [Node.offset, Node.recordSize, ← hlen] at hroom
  simp only [Record.flat, List.flatMap_nil, List.nil_append] at hs hroom
  obtain ⟨first, behind, hfirst, rfl⟩ := exists_cut rest n.keySize (by omega)
  rw [List.length_append] at hroom
  obtain ⟨old, behind', hold, rfl⟩ := exists_cut behind
    NodeKind.internal.payloadSize (by omega)
  rw [List.length_append] at hroom
  obtain ⟨gone, after, hover, rfl⟩ := exists_cut behind' n.recordSize
    (by rw [Node.recordSize]; omega)
  obtain ⟨n₁, hchild, h₁⟩ := Node.Stores.setPayload [] first old
    (gone ++ after) (childBytes left)
    (by simpa [Record.flat] using hs) (List.forall_mem_nil _) hfirst
      (by rw [hold, childBytes, Block.length_wordBytes]; rfl)
  have hsame : n₁.keySize = n.keySize := h₁.states.keySize.trans h.states.keySize.symm
  have hwidth : first.length = hd.width := hfirst.trans h.states.keySize
  obtain ⟨n₂, hrecord, h₂⟩ := Node.Stores.setRecord (n := n₁) [(first, left)]
    (key, right) gone after
    (by simpa [Record.flat, Record.bytes, NodeKind.encode] using h₁)
    (by simpa [hsame] using hfirst) (hkey.trans h₁.states.keySize.symm)
    (by rw [hover, Node.recordSize, Node.recordSize, hsame])
  have h₃ := h₂.setSize 2 (by decide)
  refine ⟨n₂.setSize 2, first, ?_, Node.Stores.holds after ?_ rfl ?_⟩
  · have hchild' : setChild n 0 left = .ok n₁ := hchild
    have hrecord' : n₁.setRecord 1 key (childBytes right) = .ok n₂ := hrecord
    simp only [populate, hchild', hrecord', ok_bind]
    rfl
  · simpa [Record.flat] using h₃
  · simp [hwidth, hkey]

end Internal

/-! ## Repairs -/

/-- One of two neighbouring lists gives an item to the other: the second its first one if the first
is short, and otherwise the first its last one. -/
inductive Share {α : Type} : Bool → List α → List α → List α → List α → Prop
  | first (l : List α) (x : α) (r : List α) : Share true l (x :: r) (l ++ [x]) r
  | last (l : List α) (x : α) (r : List α) : Share false (l ++ [x]) r l (x :: r)

namespace Share

variable {α : Type} {short : Bool} {l r l' r' : List α}

/-- The two lists in a row stay the same. -/
theorem append_eq (h : Share short l r l' r') : l' ++ r' = l ++ r := by
  cases h with
  | first => rw [List.append_assoc]; rfl
  | last => rw [List.append_assoc]; rfl

theorem length_eq (h : Share short l r l' r') :
    l'.length + r'.length = l.length + r.length ∧
      (short = true → l'.length = l.length + 1) ∧ (short = false → r'.length = r.length + 1) := by
  cases h with
  | first => simp; omega
  | last => simp; omega

end Share

section Repairs

variable {hd hd' : Header} {short : Bool}

theorem exists_two {α : Type} {l : List α} (h : 2 ≤ l.length) : ∃ x y r, l = x :: y :: r := by
  rcases l with _ | ⟨x, _ | ⟨y, r⟩⟩
  · cases h
  · exact absurd h (by simp)
  · exact ⟨x, y, r, rfl⟩

/-- **Joining two leaves.** -/
theorem Leaf.repair_join {left right : Leaf} {l r : List (Record .leaf)} (hl : left.Holds hd l)
    (hr : right.Holds hd' r) (hw : hd'.width = hd.width) (hfit : l.length + r.length ≤ hd.maxSize)
    (hroom : left.offset (l.length + r.length) ≤ pageSize) (short : Bool) :
    ∃ out, Leaf.repair left right short = .ok out ∧ out.separator = none ∧ out.toLeft = [] ∧
      out.toRight = [] ∧ out.left.Holds { hd with next := hd'.next } (l ++ r) := by
  obtain ⟨right', left', hgive, -, hleft⟩ := giveAll_eq_ok hr hl hw hroom
  refine ⟨{ left := left', right := right', separator := none }, ?_, rfl, rfl, rfl, hleft⟩
  rw [Leaf.repair, hl.states.size, hr.states.size, hl.states.maxSize, if_pos hfit, hgive]
  rfl

/-- **Sharing between two leaves.** -/
theorem Leaf.repair_share {left right : Leaf} {l r : List (Record .leaf)} (hl : left.Holds hd l)
    (hr : right.Holds hd' r) (hw : hd'.width = hd.width) (hbig : hd.maxSize < l.length + r.length)
    (hroom : left.offset (l.length + 1) ≤ pageSize)
    (hroom' : right.offset (r.length + 1) ≤ pageSize)
    (hgives : if short then 2 ≤ r.length else 1 ≤ l.length) :
    ∃ out l' x r', Leaf.repair left right short = .ok out ∧ Share short l r l' (x :: r') ∧
      out.separator = some x.1 ∧ out.toLeft = [] ∧ out.toRight = [] ∧ out.left.Holds hd l' ∧
      out.right.Holds hd' (x :: r') := by
  have hnot : ¬l.length + r.length ≤ hd.maxSize := Nat.not_le_of_lt hbig
  rw [Leaf.repair, hl.states.size, hr.states.size, hl.states.maxSize, if_neg hnot]
  cases short with
  | true =>
    obtain ⟨x, y, r, rfl⟩ := exists_two hgives
    obtain ⟨right', left', hgive, hright, hleft⟩ := giveFirst_eq_ok hr hl hw hroom
    refine ⟨{ left := left', right := right', separator := some y.1 }, _, y, r, ?_, .first l x _,
      rfl, rfl, rfl, hleft, hright⟩
    rw [if_pos rfl, hgive]
    simp only [ok_bind, hright.key_of_getElem? (i := 0) rfl]
    rfl
  | false =>
    rcases List.eq_nil_or_concat' l with rfl | ⟨l, x, rfl⟩
    · cases hgives
    obtain ⟨left', right', hgive, hleft, hright⟩ := giveLast_eq_ok hl hr hw.symm hroom'
    refine ⟨{ left := left', right := right', separator := some x.1 }, l, x, r, ?_, .last l x r,
      rfl, rfl, rfl, hleft, hright⟩
    rw [if_neg (by decide), hgive]
    simp only [ok_bind, hright.key_of_getElem? (i := 0) rfl]
    rfl

variable {left right : Internal} {l r : List (Record .internal)} {middle : Key}

/-- **Joining two internal nodes.** -/
theorem Internal.repair_join (hl : left.Holds hd l) (hr : right.Holds hd' r)
    (hw : hd'.width = hd.width) (hfit : l.length + r.length ≤ hd.maxSize)
    (hroom : left.offset (l.length + r.length) ≤ pageSize) (hne : r ≠ [])
    (hkey : middle.length = hd.width) (short : Bool) :
    ∃ out, Internal.repair left right middle short = .ok out ∧ out.separator = none ∧
      out.toLeft = r.map Prod.snd ∧ out.toRight = [] ∧ out.left.Holds hd (l ++ rekey middle r) := by
  have hone : right.offset 1 ≤ pageSize :=
    (right.offset_le_offset (List.length_pos_of_ne_nil hne)).trans hr.room
  obtain ⟨right', left', hgive, -, hleft⟩ := giveAll_eq_ok hr hl hw hone hroom (hkey.trans hw.symm)
  refine ⟨{ left := left', right := right', separator := none, toLeft := r.map Prod.snd },
    ?_, rfl, rfl, rfl, hleft⟩
  rw [Internal.repair, hl.states.size, hr.states.size, hl.states.maxSize, if_pos hfit, hgive]
  rfl

/-- **Sharing between two internal nodes.** The children that are new to a node change parents. -/
theorem Internal.repair_share (hl : left.Holds hd l) (hr : right.Holds hd' r)
    (hw : hd'.width = hd.width) (hbig : hd.maxSize < l.length + r.length)
    (hroom : left.offset (l.length + 1) ≤ pageSize)
    (hroom' : right.offset (r.length + 1) ≤ pageSize)
    (hgives : if short then 2 ≤ r.length else 1 ≤ l.length) (hne : r ≠ [])
    (hkey : middle.length = hd.width) :
    ∃ out l' x r', Internal.repair left right middle short = .ok out ∧
      Share short l (rekey middle r) l' (x :: r') ∧ out.separator = some x.1 ∧
      out.toLeft = (l'.drop l.length).map Prod.snd ∧
      out.toRight = ((x :: r').take (r'.length + 1 - r.length)).map Prod.snd ∧
      out.left.Holds hd l' ∧ out.right.Holds hd' (x :: r') := by
  have hnot : ¬l.length + r.length ≤ hd.maxSize := Nat.not_le_of_lt hbig
  rw [Internal.repair, hl.states.size, hr.states.size, hl.states.maxSize, if_neg hnot]
  cases short with
  | true =>
    obtain ⟨x, y, r, rfl⟩ := exists_two hgives
    obtain ⟨right', left', hgive, hright, hleft⟩ := giveFirst_eq_ok hr hl hroom hkey
    refine ⟨{ left := left', right := right', separator := some y.1, toLeft := [x.2] }, _, y, r, ?_,
      .first l (middle, x.2) _, rfl, by simp, by simp, hleft, hright⟩
    rw [if_pos rfl, hgive]
    simp only [ok_bind, hright.key_of_getElem? (i := 0) rfl]
    rfl
  | false =>
    rcases List.eq_nil_or_concat' l with rfl | ⟨l, x, rfl⟩
    · cases hgives
    obtain ⟨y, r, rfl⟩ := List.exists_cons_of_ne_nil hne
    obtain ⟨left', right', hgive, hleft, hright⟩ := giveLast_eq_ok hl hr hw.symm
      (by simpa using hroom') (hkey.trans hw.symm)
    refine ⟨{ left := left', right := right', separator := some x.1, toRight := [x.2] }, l, x, _,
      ?_, .last l x _, rfl, by simp, by simp [rekey], hleft, hright⟩
    rw [if_neg (by decide), hgive]
    simp only [ok_bind, hright.key_of_getElem? (i := 0) rfl]
    rfl

end Repairs

end PageStore
