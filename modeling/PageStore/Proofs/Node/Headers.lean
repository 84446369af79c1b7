import PageStore.Proofs.Node.Records

/-!
# The headers of nodes

`ofBlock_eq_ok` takes a page apart that holds a node, `holds_fresh` gives a page without records,
and the parent and the next leaf are changed without a look at the records.
-/

namespace PageStore

namespace Node

variable {k : NodeKind} {n : Node k} {hd : Header} {s : Nat} {recs : List (Record k)}

/-! ## Reading a header -/

theorem States.kind_eq_ok (h : n.States hd s) : NodeHeader.kind n.page = .ok k := by
  rw [NodeHeader.kind, h.tag, demand_some, ok_bind, NodeKind.ofTag?_eq_some_iff.2 rfl]
  rfl

theorem States.parent_eq_ok (h : n.States hd s) : NodeHeader.parent n.page = .ok hd.parent := by
  rw [NodeHeader.parent, Block.readWord_eq_some _ (by decide), demand_some, ok_bind]
  exact congrArg Except.ok h.parent

/-- **A page that states a node's header** is taken for that node, if its keys and its number of
records are possible. -/
theorem States.ofBlock_eq_ok (h : n.States hd s) (hpos : 0 < hd.width) (hw : hd.width < pageSize)
    (hsize : s ≤ k.capacity hd.width + 1) : Node.ofBlock k n.page = .ok n := by
  have hpage : n.page.toPage? = some n.page := dif_pos rfl
  have hcount : (n.page.word 4).toNat = s := h.size
  have hok : ¬(hd.width = 0 ∨ pageSize ≤ hd.width ∨ k.capacity hd.width + 1 < s) := by
    omega
  rw [Node.ofBlock, hpage]
  simp only [h.kind_eq_ok, h.width, hcount, ok_bind, ne_eq, not_true_eq_false, if_false,
    if_neg hok]
  rw [← h.keySize]
  rfl

/-- **A page that holds a node** is taken for that node, if its keys and its number of records are
possible. -/
theorem Holds.ofBlock_eq_ok (h : n.Holds hd recs) (hpos : 0 < hd.width) (hw : hd.width < pageSize)
    (hsize : recs.length ≤ k.capacity hd.width + 1) : Node.ofBlock k n.page = .ok n :=
  h.states.ofBlock_eq_ok hpos hw hsize

/-! ## Changing a header -/

/-- Overwriting a word of the header keeps the records. -/
theorem Holds.setWord (hd' : Header) (off : Nat) (w : UInt32) (h : n.Holds hd recs)
    (hw : hd'.width = hd.width) (ho : off + 4 ≤ k.headerSize)
    (hs : ({ n with page := n.page.setWord off w } : Node k).States hd' recs.length) :
    ({ n with page := n.page.setWord off w } : Node k).Holds hd' recs where
  states := hs
  width := hw ▸ h.width
  table := by
    have htail := Block.tail_patch_of_le n.page k.headerSize off (Block.wordBytes w)
      (by rwa [Block.length_wordBytes])
    rw [← Block.setWord] at htail
    rw [htail]
    exact h.table

/-- **Another parent.** -/
theorem Holds.setParent_eq_ok (h : n.Holds hd recs) (parent : PageId) :
    ∃ page, NodeHeader.setParent n.page parent = .ok page ∧
      ({ n with page := page } : Node k).Holds { hd with parent } recs := by
  have h24 : 16 + 4 ≤ k.headerSize := by cases k <;> decide
  have hword : ∀ {o : Nat} (hp : o + 4 ≤ pageSize), o + 4 ≤ 16 ∨ 20 ≤ o →
      (n.page.setWord 16 parent.val).word o hp = n.page.word o hp := fun hp ho =>
    Block.word_setWord_of_disjoint _ _ hp ho
  refine ⟨n.page.setWord 16 parent.val, ?_,
    h.setWord _ 16 parent.val rfl h24 ⟨?_, ?_, ?_, ?_, ?_, ?_, ?_, fun hk => ?_⟩⟩
  · rw [NodeHeader.setParent, Block.writeWord_eq_some _ _ (by decide), demand_some]
  · rw [Block.getElem?_setWord_of_lt _ _ (by decide)]
    exact h.states.tag
  · rw [← h.states.id, Node.id, Node.id, hword _ (by decide)]
  · exact congrArg PageId.mk (Block.word_setWord ..)
  · rw [← h.states.size, Node.size, Node.size, hword _ (by decide)]
  · rw [← h.states.maxSize, Node.maxSize, Node.maxSize, hword _ (by decide)]
  · exact h.states.keySize
  · rw [← h.states.width, hword _ (by decide)]
  · rw [← h.states.next hk, hword _ (by decide)]

/-- **Another next leaf.** -/
theorem Holds.setNext {n : Leaf} {recs : List (Record .leaf)} (h : n.Holds hd recs)
    (next : PageId) : (Leaf.setNext n next).Holds { hd with next } recs := by
  have hword : ∀ {o : Nat} (hp : o + 4 ≤ pageSize), o + 4 ≤ 24 →
      (n.page.setWord 24 next.val).word o hp = n.page.word o hp := fun hp ho =>
    Block.word_setWord_of_disjoint _ _ hp (.inl ho)
  refine h.setWord _ 24 next.val rfl (by decide) ⟨?_, ?_, ?_, ?_, ?_, ?_, ?_, fun _ => ?_⟩
  · rw [Block.getElem?_setWord_of_lt _ _ (by decide)]
    exact h.states.tag
  · rw [← h.states.id, Node.id, Node.id, hword _ (by decide)]
  · rw [← h.states.parent, Node.parent, Node.parent, hword _ (by decide)]
  · rw [← h.states.size, Node.size, Node.size, hword _ (by decide)]
  · rw [← h.states.maxSize, Node.maxSize, Node.maxSize, hword _ (by decide)]
  · exact h.states.keySize
  · rw [← h.states.width, hword _ (by decide)]
  · exact congrArg PageId.mk (Block.word_setWord ..)

theorem Holds.next_eq {n : Leaf} {recs : List (Record .leaf)} (h : n.Holds hd recs) :
    Leaf.next n = hd.next := h.states.next rfl

/-! ## New nodes -/

theorem word_zero (off : Nat) (h : off + 4 ≤ pageSize) : (Block.zero pageSize).word off h = 0 := by
  have hslice : (Block.zero pageSize).slice off 4 h = [0, 0, 0, 0] := by
    refine List.ext_getElem (by simp) fun i hi _ => ?_
    rw [Block.length_slice] at hi
    rw [Block.getElem_slice _ h _ (by omega)]
    have : ∀ i, ∀ hi : i < 4, ([0, 0, 0, 0] : List UInt8)[i] = 0 := by decide
    rw [this i hi]
    simp [Block.zero, Block.filled]
  rw [Block.word, hslice]
  rfl

/-- **A new node** has no records. -/
theorem holds_fresh (k : NodeKind) (id parent : PageId) {maxSize keySize : Nat}
    (hmax : maxSize < 2 ^ 32) (hw : keySize < 2 ^ 32) :
    (fresh k id parent maxSize keySize).Holds
      { id := id, parent := parent, maxSize := maxSize, width := keySize } [] := by
  have hmax' : (UInt32.ofNat maxSize).toNat = maxSize := by
    rw [UInt32.toNat_ofNat', Nat.mod_eq_of_lt hmax]
  have hw' : (UInt32.ofNat keySize).toNat = keySize := by
    rw [UInt32.toNat_ofNat', Nat.mod_eq_of_lt hw]
  have hzero : ∀ {o : Nat} (hp : o + 4 ≤ pageSize), 1 ≤ o →
      Block.word ((Block.zero pageSize).setIfInBounds 0 k.tag) o hp = 0 := fun {o} hp ho => by
    have hslice : ((Block.zero pageSize).patch 0 [k.tag]).slice o 4 hp =
        (Block.zero pageSize).slice o 4 hp := Block.slice_patch_of_disjoint _ hp (.inr ho)
    exact (congrArg Block.wordOf hslice).trans (word_zero o hp)
  have htag : ((Block.zero pageSize).setIfInBounds 0 k.tag)[0]? = some k.tag := by
    simp
  refine ⟨?_, nofun, List.nil_prefix⟩
  cases k with
  | leaf =>
    constructor <;> simp (disch := decide) only [fresh, NodeHeader.blank, Node.id, Node.parent,
      Node.size, Node.maxSize, Block.getElem?_setWord_of_lt, Block.word_setWord,
      Block.word_setWord_of_disjoint, htag, hzero, hmax', hw', List.length_nil, UInt32.toNat_zero,
      forall_const]
  | internal =>
    constructor <;> simp (disch := decide) only [fresh, NodeHeader.blank, Node.id, Node.parent,
      Node.size, Node.maxSize, Block.getElem?_setWord_of_lt, Block.word_setWord,
      Block.word_setWord_of_disjoint, htag, hzero, hmax', hw', List.length_nil, UInt32.toNat_zero,
      reduceCtorEq, false_imp_iff]

end Node

end PageStore
