import PageStore.Node.Internal
import PageStore.Node.Leaf
import PageStore.Proofs.Node.Bytes

/-!
# A node is a header and a list of records

`Node.Holds n hd recs` says that the bytes of a node state the header `hd` and hold the records
`recs`. Every operation on the bytes is an operation on the list: it is given here for a list that
is cut where the operation takes place, so that an index is the length of what comes before it.

Each operation needs room in the page for what it writes, and then does not abort.
-/

namespace PageStore

/-! ## Records -/

/-- What a record of a kind of node leads to. -/
abbrev NodeKind.Payload : NodeKind → Type
  | .leaf => RowId
  | .internal => PageId

/-- The stored form of what a record leads to. -/
def NodeKind.encode : (k : NodeKind) → k.Payload → List UInt8
  | .leaf, row => row.toBytes
  | .internal, child => Internal.childBytes child

@[simp] theorem NodeKind.length_encode (k : NodeKind) (x : k.Payload) :
    (k.encode x).length = k.payloadSize := by
  cases k with
  | leaf => exact RowId.length_toBytes x
  | internal => exact Block.length_wordBytes _

/-- A key and what is stored with it. -/
abbrev Record (k : NodeKind) : Type := Key × k.Payload

variable {k : NodeKind}

/-- The stored form of a record. -/
def Record.bytes (r : Record k) : List UInt8 := r.1 ++ k.encode r.2

/-- The stored form of records in a row. -/
def Record.flat (recs : List (Record k)) : List UInt8 := recs.flatMap Record.bytes

theorem Record.flat_append (recs recs' : List (Record k)) :
    flat (recs ++ recs') = flat recs ++ flat recs' := List.flatMap_append

theorem Record.flat_cons (r : Record k) (recs : List (Record k)) :
    flat (r :: recs) = r.bytes ++ flat recs := List.flatMap_cons

/-- The fields of a node's header, its number of records apart. -/
structure Header where
  /-- the node's own page -/
  id : PageId
  /-- the node above, or none -/
  parent : PageId
  /-- the next leaf, or none -/
  next : PageId := .none
  /-- the largest number of records -/
  maxSize : Nat
  /-- width of the keys in bytes -/
  width : Nat

namespace Node

variable {n : Node k} {hd : Header} {s : Nat} {bytes : List UInt8} {recs pre post : List (Record k)}

/-! ## What the bytes say -/

/-- The bytes state the header and a number of records. -/
structure States (n : Node k) (hd : Header) (s : Nat) : Prop where
  tag : n.page[0]? = some k.tag
  id : n.id = hd.id
  parent : n.parent = hd.parent
  size : n.size = s
  maxSize : n.maxSize = hd.maxSize
  keySize : n.keySize = hd.width
  width : (n.page.word 12).toNat = hd.width
  /-- only a leaf states the next one -/
  next : k = .leaf → (⟨n.page.word 24⟩ : PageId) = hd.next

/-- The bytes state the header and a number of records, and `bytes` follow the header. -/
structure Stores (n : Node k) (hd : Header) (s : Nat) (bytes : List UInt8) : Prop where
  states : n.States hd s
  tail : n.page.tail k.headerSize = bytes

/-- **The view of a node.** The bytes state the header and the number of records, and the records
follow the header. -/
structure Holds (n : Node k) (hd : Header) (recs : List (Record k)) : Prop where
  states : n.States hd recs.length
  width : ∀ r ∈ recs, r.1.length = hd.width
  table : Record.flat recs <+: n.page.tail k.headerSize

theorem Holds.stores (h : n.Holds hd recs) :
    ∃ rest, n.Stores hd recs.length (Record.flat recs ++ rest) := by
  obtain ⟨rest, hrest⟩ := h.table
  exact ⟨rest, h.states, hrest.symm⟩

theorem Stores.holds (rest : List UInt8) (h : n.Stores hd s (Record.flat recs ++ rest))
    (hs : s = recs.length) (hw : ∀ r ∈ recs, r.1.length = hd.width) : n.Holds hd recs where
  states := hs ▸ h.states
  width := hw
  table := by
    rw [h.tail]
    exact List.prefix_append ..

/-! ## Places -/

theorem length_flat (h : ∀ r ∈ recs, r.1.length = n.keySize) :
    (Record.flat recs).length = recs.length * n.recordSize := by
  induction recs with
  | nil => simp [Record.flat]
  | cons r recs ih =>
    have hr := h r List.mem_cons_self
    rw [Record.flat_cons, List.length_append, ih fun r' hr' => h r' (.tail _ hr'), Record.bytes,
      List.length_append, hr, NodeKind.length_encode, List.length_cons, Nat.succ_mul, recordSize]
    omega

/-- A record starts where those before it end. -/
theorem offset_length (h : ∀ r ∈ recs, r.1.length = n.keySize) :
    n.offset recs.length = k.headerSize + (Record.flat recs).length := by
  rw [offset, length_flat h]

/-- A page has room for few records only. -/
theorem lt_of_offset_le {i : Nat} (h : n.offset i ≤ pageSize) : i < 2 ^ 32 := by
  have hpos := n.recordSize_pos
  have hle : i ≤ i * n.recordSize := Nat.le_mul_of_pos_right _ hpos
  rw [offset, pageSize_eq] at h
  omega

theorem Stores.length_eq (h : n.Stores hd s bytes) : k.headerSize + bytes.length = pageSize := by
  have hlen := n.page.length_tail k.headerSize
  rw [h.tail] at hlen
  have := k.headerSize_le
  omega

/-- A record ends where the next one starts. -/
theorem Holds.keySize_of_mem (h : n.Holds hd recs) : ∀ r ∈ recs, r.1.length = n.keySize :=
  fun r hr => (h.width r hr).trans h.states.keySize.symm

theorem Holds.offset_eq (h : n.Holds hd (pre ++ post)) :
    n.offset pre.length = k.headerSize + (Record.flat pre).length :=
  offset_length fun r hr => h.keySize_of_mem r (List.mem_append_left _ hr)

theorem Holds.room (h : n.Holds hd recs) : n.offset recs.length ≤ pageSize := by
  obtain ⟨rest, hs⟩ := h.stores
  have hlen := hs.length_eq
  rw [List.length_append] at hlen
  rw [offset_length h.keySize_of_mem]
  omega

/-! ## The header -/

/-- Overwriting bytes behind the header keeps it. -/
theorem States.patch (h : n.States hd s) {start : Nat} {xs : List UInt8}
    (hs : k.headerSize ≤ start) :
    ({ n with page := n.page.patch start xs } : Node k).States hd s := by
  have hword : ∀ {o : Nat} (hp : o + 4 ≤ pageSize), o + 4 ≤ k.headerSize →
      (n.page.patch start xs).word o hp = n.page.word o hp := fun hp ho =>
    Block.word_patch_of_le _ hp (by omega)
  have h24 : 20 + 4 ≤ k.headerSize := by cases k <;> decide
  refine ⟨?_, ?_, ?_, ?_, ?_, h.keySize, ?_, fun hk => ?_⟩
  · rw [Block.getElem?_patch_of_outside _ (.inl (by omega))]
    exact h.tag
  · rw [← h.id, Node.id, Node.id, hword _ h24]
  · rw [← h.parent, Node.parent, Node.parent, hword _ (by omega)]
  · rw [← h.size, Node.size, Node.size, hword _ (by omega)]
  · rw [← h.maxSize, Node.maxSize, Node.maxSize, hword _ (by omega)]
  · rw [← h.width, hword _ (by omega)]
  · subst hk
    rw [← h.next rfl, hword _ (by decide)]

/-- Another number of records is no other header. -/
theorem States.setSize (h : n.States hd s) {s' : Nat} (hs : s' < 2 ^ 32) :
    (n.setSize s').States hd s' := by
  have hword : ∀ {o : Nat} (hp : o + 4 ≤ pageSize), 8 ≤ o →
      (n.page.setWord 4 (UInt32.ofNat s')).word o hp = n.page.word o hp := fun hp ho =>
    Block.word_setWord_of_disjoint _ _ hp (.inr ho)
  refine ⟨?_, ?_, ?_, size_setSize _ hs, ?_, h.keySize, ?_, fun hk => ?_⟩
  · rw [Node.setSize, Block.getElem?_setWord_of_lt _ _ (by decide)]
    exact h.tag
  · rw [← h.id, id_setSize]
  · rw [← h.parent, parent_setSize]
  · rw [← h.maxSize, maxSize_setSize]
  · rw [← h.width, Node.setSize, hword _ (by decide)]
  · rw [← h.next hk, Node.setSize, hword _ (by decide)]

/-! ## The bytes behind the header -/

/-- Overwriting a part of the bytes behind the header. -/
theorem Stores.write {before under after xs : List UInt8}
    (h : n.Stores hd s (before ++ under ++ after)) (hx : under.length = xs.length) {off : Nat}
    (ho : off = k.headerSize + before.length) :
    ∃ page, n.page.write off xs = some page ∧
      ({ n with page := page } : Node k).Stores hd s (before ++ xs ++ after) := by
  obtain ⟨hwrite, htail⟩ := Block.write_of_tail h.tail k.headerSize_le hx
  rw [ho]
  exact ⟨_, hwrite, h.states.patch (Nat.le_add_right ..), htail⟩

/-- Moving a part of the bytes behind the header. -/
theorem Stores.move {before under after left gone right : List UInt8}
    (h : n.Stores hd s (before ++ under ++ after))
    (h' : before ++ under ++ after = left ++ gone ++ right) (hlen : gone.length = under.length)
    (start stop dest : Nat) (hstart : start = k.headerSize + before.length)
    (hstop : stop = start + under.length) (hdest : dest = k.headerSize + left.length) :
    ∃ page, n.page.move start stop dest = some page ∧
      ({ n with page := page } : Node k).Stores hd s (left ++ under ++ right) := by
  obtain ⟨hmove, htail⟩ := Block.move_of_tail h.tail (h.tail.trans h') k.headerSize_le hlen
  rw [hstop, hstart, hdest]
  exact ⟨_, hmove, h.states.patch (Nat.le_add_right ..), htail⟩

theorem Stores.setSize (h : n.Stores hd s bytes) (s' : Nat) (hs : s' < 2 ^ 32) :
    (n.setSize s').Stores hd s' bytes where
  states := h.states.setSize hs
  tail := by
    rw [Node.setSize, Block.setWord, Block.tail_patch_of_le]
    · exact h.tail
    · rw [Block.length_wordBytes]
      cases k <;> decide

/-- Writing a key into the place of a record. -/
theorem Stores.setKey {old after : List UInt8} (h : n.Stores hd s (Record.flat pre ++ old ++ after))
    (hw : ∀ r ∈ pre, r.1.length = n.keySize) {key : Key} (hk : key.length = n.keySize)
    (hold : old.length = n.keySize) :
    ∃ n', n.setKey pre.length key = .ok n' ∧ n'.Stores hd s (Record.flat pre ++ key ++ after) := by
  obtain ⟨page, hwrite, hs⟩ := h.write (hold.trans hk.symm) (offset_length hw)
  refine ⟨_, ?_, hs⟩
  rw [Node.setKey, hwrite]
  simp only [hk, ne_eq, not_true_eq_false, if_false]
  rfl

/-- Writing a payload into the place of a record. -/
theorem Stores.setPayload (pre : List (Record k)) (key old after payload : List UInt8)
    (h : n.Stores hd s (Record.flat pre ++ key ++ old ++ after))
    (hw : ∀ r ∈ pre, r.1.length = n.keySize) (hk : key.length = n.keySize)
    (hp : old.length = payload.length) :
    ∃ n', n.setPayload pre.length payload = .ok n' ∧
      n'.Stores hd s (Record.flat pre ++ key ++ payload ++ after) := by
  have ho : n.offset pre.length + n.keySize = k.headerSize + (Record.flat pre ++ key).length := by
    rw [offset_length hw, List.length_append, hk, Nat.add_assoc]
  obtain ⟨page, hwrite, hs⟩ := h.write hp ho
  refine ⟨_, ?_, hs⟩
  rw [Node.setPayload, hwrite]
  rfl

/-- Writing a whole record. -/
theorem Stores.setRecord (pre : List (Record k)) (r : Record k) (old after : List UInt8)
    (h : n.Stores hd s (Record.flat pre ++ old ++ after))
    (hw : ∀ r ∈ pre, r.1.length = n.keySize) (hk : r.1.length = n.keySize)
    (hold : old.length = n.recordSize) :
    ∃ n', n.setRecord pre.length r.1 (k.encode r.2) = .ok n' ∧
      n'.Stores hd s (Record.flat pre ++ r.bytes ++ after) := by
  have hcut : old = old.take n.keySize ++ old.drop n.keySize := (List.take_append_drop ..).symm
  rw [recordSize] at hold
  rw [hcut, ← List.append_assoc, List.append_assoc _ _ after] at h
  obtain ⟨n₁, hkey, h₁⟩ := h.setKey hw hk (by rw [List.length_take]; omega)
  have hsame : n₁.keySize = n.keySize := h₁.states.keySize.trans h.states.keySize.symm
  rw [← List.append_assoc] at h₁
  obtain ⟨n₂, hpayload, h₂⟩ := h₁.setPayload _ _ _ _ (k.encode r.2)
    (fun r hr => (hw r hr).trans hsame.symm) (hk.trans hsame.symm)
      (by rw [List.length_drop, NodeKind.length_encode]; omega)
  refine ⟨n₂, ?_, ?_⟩
  · rw [Node.setRecord, hkey]
    exact hpayload
  · rw [Record.bytes, ← List.append_assoc]
    exact h₂

/-- A node that states fewer records drops the last ones. -/
theorem Holds.setSize (pre post : List (Record k)) (h : n.Holds hd (pre ++ post)) :
    (n.setSize pre.length).Holds hd pre := by
  obtain ⟨rest, hs⟩ := h.stores
  have hcount := lt_of_offset_le h.room
  rw [List.length_append] at hcount
  rw [Record.flat_append, List.append_assoc] at hs
  exact (hs.setSize pre.length (by omega)).holds _ rfl (List.forall_mem_append.1 h.width).1

/-! ## Reading -/

/-- **The key of a record.** -/
theorem Holds.key_eq_ok {r : Record k} (h : n.Holds hd (pre ++ r :: post)) :
    n.key pre.length = .ok r.1 := by
  obtain ⟨rest, hs⟩ := h.stores
  have hcut : n.page.tail k.headerSize = Record.flat pre ++ r.1 ++
      (k.encode r.2 ++ (Record.flat post ++ rest)) := by
    rw [hs.tail, Record.flat_append, Record.flat_cons, Record.bytes]
    simp only [List.append_assoc]
  rw [Node.key, h.offset_eq, ← h.keySize_of_mem r (by simp),
    Block.read_of_tail hcut k.headerSize_le, demand_some]

/-- **What is stored with a key.** -/
theorem Holds.payload_eq_ok {r : Record k} (h : n.Holds hd (pre ++ r :: post)) :
    n.payload pre.length = .ok (k.encode r.2) := by
  obtain ⟨rest, hs⟩ := h.stores
  have hcut : n.page.tail k.headerSize = (Record.flat pre ++ r.1) ++ k.encode r.2 ++
      (Record.flat post ++ rest) := by
    rw [hs.tail, Record.flat_append, Record.flat_cons, Record.bytes]
    simp only [List.append_assoc]
  have hread := Block.read_of_tail hcut k.headerSize_le
  rw [List.length_append, NodeKind.length_encode] at hread
  rw [Node.payload, h.offset_eq, ← h.keySize_of_mem r (by simp), Nat.add_assoc, hread, demand_some]

/-! ## Writing -/

/-- **Another key for a record.** -/
theorem Holds.setKey_eq_ok (pre : List (Record k)) {r : Record k}
    (h : n.Holds hd (pre ++ r :: post)) {key : Key}
    (hk : key.length = hd.width) :
    ∃ n', n.setKey pre.length key = .ok n' ∧ n'.Holds hd (pre ++ (key, r.2) :: post) := by
  obtain ⟨rest, hs⟩ := h.stores
  have hw := h.keySize_of_mem
  have hcut : Record.flat (pre ++ r :: post) ++ rest = Record.flat pre ++ r.1 ++
      (k.encode r.2 ++ (Record.flat post ++ rest)) := by
    rw [Record.flat_append, Record.flat_cons, Record.bytes]
    simp only [List.append_assoc]
  rw [hcut] at hs
  obtain ⟨n', hrun, h'⟩ := hs.setKey (fun r hr => hw r (List.mem_append_left _ hr))
    (hk.trans h.states.keySize.symm) (hw r (by simp))
  refine ⟨n', hrun, Stores.holds rest (s := (pre ++ r :: post).length) ?_ (by simp) ?_⟩
  · rw [Record.flat_append, Record.flat_cons, Record.bytes]
    simpa only [List.append_assoc] using h'
  · have hwidth := List.forall_mem_append.1 h.width
    exact List.forall_mem_append.2
      ⟨hwidth.1, List.forall_mem_cons.2 ⟨hk, (List.forall_mem_cons.1 hwidth.2).2⟩⟩

/-- **One record more.** The records behind it move up. -/
theorem Holds.insertRecord_eq_ok (pre post : List (Record k)) (r : Record k)
    (h : n.Holds hd (pre ++ post)) (hk : r.1.length = hd.width)
    (hroom : n.offset ((pre ++ post).length + 1) ≤ pageSize) :
    ∃ n', n.insertRecord pre.length r.1 (k.encode r.2) = .ok n' ∧
      n'.Holds hd (pre ++ r :: post) := by
  obtain ⟨rest, hs⟩ := h.stores
  have hw := h.keySize_of_mem
  have hall := offset_length hw
  have hlen := hs.length_eq
  have hcount := lt_of_offset_le hroom
  rw [offset_succ] at hroom
  rw [List.length_append] at hlen
  -- the records behind the place go over what lies one record further on
  obtain ⟨old, behind, hold, hbehind⟩ :=
    exists_cut (Record.flat post ++ rest) n.recordSize
      (by rw [List.length_append]; omega)
  obtain ⟨gone, right, hover, hright⟩ := exists_cut behind (Record.flat post).length (by
    have := congrArg List.length hbehind
    rw [List.length_append, List.length_append] at this
    omega)
  have hcut : Record.flat pre ++ Record.flat post ++ rest =
      Record.flat pre ++ old ++ gone ++ right := by
    rw [List.append_assoc, hbehind, hright]
    simp only [List.append_assoc]
  rw [Record.flat_append] at hs hall
  obtain ⟨page, hmove, h₁⟩ := hs.move hcut hover (n.offset pre.length) (n.offset n.size)
    (n.offset pre.length + n.recordSize) h.offset_eq
    (by rw [h.states.size, hall, h.offset_eq, List.length_append, Nat.add_assoc])
    (by rw [h.offset_eq, List.length_append, hold, Nat.add_assoc])
  rw [List.append_assoc] at h₁
  obtain ⟨n', hset, h₂⟩ := h₁.setRecord _ r _ _ (fun r hr => hw r (List.mem_append_left _ hr))
    (hk.trans h.states.keySize.symm) hold
  refine ⟨n'.setSize (n.size + 1), ?_, ?_⟩
  · rw [Node.insertRecord, hmove, demand_some, ok_bind, hset]
    rfl
  · have hsize : n.size + 1 = (pre ++ r :: post).length := by
      rw [h.states.size, List.length_append, List.length_append, List.length_cons, Nat.add_assoc]
    have h₃ := h₂.setSize (n.size + 1) (by rwa [h.states.size])
    refine Stores.holds right ?_ hsize ?_
    · rw [Record.flat_append, Record.flat_cons]
      simpa only [List.append_assoc] using h₃
    · have hwidth := List.forall_mem_append.1 h.width
      exact List.forall_mem_append.2 ⟨hwidth.1, List.forall_mem_cons.2 ⟨hk, hwidth.2⟩⟩

/-- **One record less.** The records behind it move down. -/
theorem Holds.remove_eq_ok (pre : List (Record k)) {r : Record k}
    (h : n.Holds hd (pre ++ r :: post)) :
    ∃ n', n.remove pre.length = .ok n' ∧ n'.Holds hd (pre ++ post) := by
  obtain ⟨rest, hs⟩ := h.stores
  have hw := h.keySize_of_mem
  have hpre := h.offset_eq
  have hall := offset_length hw
  have hcount := lt_of_offset_le h.room
  have hbytes : r.bytes.length = n.recordSize := by
    rw [Record.bytes, List.length_append, NodeKind.length_encode, hw r (by simp), recordSize]
  have htail : Record.flat (pre ++ r :: post) ++ rest =
      (Record.flat pre ++ r.bytes) ++ Record.flat post ++ rest := by
    rw [Record.flat_append, Record.flat_cons]
    simp only [List.append_assoc]
  -- the records behind move down over the removed one; what they leave behind is spare space
  obtain ⟨gone, right, hover, hright⟩ := exists_cut
    (r.bytes ++ Record.flat post ++ rest) (Record.flat post).length
    (by simp only [List.length_append]; omega)
  have hcut : (Record.flat pre ++ r.bytes) ++ Record.flat post ++ rest =
      Record.flat pre ++ gone ++ right := by
    rw [List.append_assoc (Record.flat pre) gone, ← hright]
    simp only [List.append_assoc]
  rw [htail] at hs
  rw [Record.flat_append, Record.flat_cons] at hall
  simp only [List.length_append] at hall hcount
  obtain ⟨page, hmove, h₁⟩ := hs.move hcut hover (n.offset (pre.length + 1)) (n.offset n.size)
    (n.offset pre.length) (by rw [offset_succ, hpre, List.length_append, hbytes, Nat.add_assoc])
    (by
      rw [h.states.size, List.length_append, hall, offset_succ, hpre, hbytes]
      omega)
    hpre
  have hsize : n.size - 1 = (pre ++ post).length := by
    rw [h.states.size]
    simp only [List.length_append, List.length_cons]
    omega
  rw [← Record.flat_append] at h₁
  refine ⟨_, ?_, (h₁.setSize _ ?_).holds _ hsize ?_⟩
  · rw [Node.remove, hmove]
    rfl
  · rw [hsize, List.length_append]
    rw [List.length_cons] at hcount
    omega
  · have hwidth := List.forall_mem_append.1 h.width
    exact List.forall_mem_append.2 ⟨hwidth.1, (List.forall_mem_cons.1 hwidth.2).2⟩

/-- **Records of another node** behind those of this one. -/
theorem Holds.append_eq_ok (pre mid post : List (Record k)) {source : Node k} {hd' : Header}
    (h : n.Holds hd recs) (h' : source.Holds hd' (pre ++ mid ++ post)) (hw : hd'.width = hd.width)
    (hroom : n.offset (recs.length + mid.length) ≤ pageSize) :
    ∃ n', n.append source pre.length mid.length = .ok n' ∧ n'.Holds hd (recs ++ mid) := by
  obtain ⟨rest, hs⟩ := h.stores
  obtain ⟨rest', hs'⟩ := h'.stores
  have hmid : (Record.flat mid).length = mid.length * n.recordSize := length_flat fun r hr => by
    rw [h'.width r (by simp [hr]), hw, h.states.keySize]
  have hroom' : n.offset recs.length + (Record.flat mid).length ≤ pageSize := by
    rw [offset, hmid, Nat.add_assoc, ← Nat.add_mul]
    exact hroom
  have hlen := hs.length_eq
  have hend := offset_length h.keySize_of_mem
  rw [List.length_append] at hlen
  obtain ⟨old, after, hold, rfl⟩ := exists_cut rest (Record.flat mid).length
    (by omega)
  rw [← List.append_assoc] at hs
  obtain ⟨page, hwrite, h₁⟩ := hs.write hold hend
  have hread : source.page.read (source.offset pre.length) (Record.flat mid).length =
      some (Record.flat mid) := by
    have hcut : source.page.tail k.headerSize =
        Record.flat pre ++ Record.flat mid ++ (Record.flat post ++ rest') := by
      rw [hs'.tail, Record.flat_append, Record.flat_append]
      simp only [List.append_assoc]
    rw [offset_length fun r hr => h'.keySize_of_mem r (by simp [hr])]
    exact Block.read_of_tail hcut k.headerSize_le
  have hsize : n.size + mid.length = (recs ++ mid).length := by
    rw [h.states.size, List.length_append]
  rw [← Record.flat_append] at h₁
  refine ⟨_, ?_, (h₁.setSize _ ?_).holds _ hsize ?_⟩
  · rw [Node.append, ← hmid, hread, demand_some, ok_bind, h.states.size, hwrite]
    rfl
  · rw [h.states.size]
    exact lt_of_offset_le hroom
  · refine List.forall_mem_append.2 ⟨h.width, fun r hr => ?_⟩
    rw [h'.width r (by simp [hr]), hw]

end Node

end PageStore
