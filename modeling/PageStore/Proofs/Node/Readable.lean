import PageStore.Proofs.Node.Accepted
import PageStore.Proofs.Node.Search

/-!
# Reading what an accepted page counts

`Node.ofBlock` looks at the number of records that a header states, and with that at where the last
record ends. `Node.offset_size_le_iff` is how far this goes: a node that is accepted keeps all its
records inside the page, unless it has one and not even one fits. That case is let through because
the number of records may pass the capacity by one, also where the capacity is zero only because
keys are too wide for a page.

`Node.accepted_readable_iff` is what this means for those who read the node. A search needs no
order among the keys and no particular width to come to an end, only keys that can be read.
-/

namespace PageStore

namespace Node

variable {k : NodeKind} {node : Node k} {i : Nat}

/-! ## Where the records are -/

/-- A block that is taken for a node is a page. -/
theorem exists_page_of_ofBlock {len : Nat} {b : Block len} (h : Node.ofBlock k b = .ok node) :
    ∃ page : Page, Node.ofBlock k page = .ok node := by
  by_cases hlen : len = pageSize
  · subst hlen
    exact ⟨b, h⟩
  · rw [Node.ofBlock, Block.toPage?, dif_neg hlen] at h
    cases h

/-- The header of a node fits in a page. -/
theorem offset_zero_le (n : Node k) : n.offset 0 ≤ pageSize := by
  rw [offset, Nat.zero_mul]
  exact k.headerSize_le

theorem offset_one (n : Node k) : n.offset 1 = k.headerSize + (n.keySize + k.payloadSize) := by
  rw [offset, Nat.one_mul, recordSize]

/-- **How far the check of a header goes.** The records that it counts end inside the page, if
there are none or if one of them would. -/
theorem offset_size_le_iff {page : Page} (h : Node.ofBlock k page = .ok node) :
    node.offset node.size ≤ pageSize ↔ node.size = 0 ∨ node.offset 1 ≤ pageSize := by
  obtain ⟨-, -, -, -, hsize⟩ := of_ofBlock h
  constructor
  · intro hfits
    rcases Nat.eq_zero_or_pos node.size with hzero | hpos
    · exact .inl hzero
    · exact .inr ((node.offset_le_offset hpos).trans hfits)
  · rintro (hzero | hone)
    · rw [hzero]
      exact node.offset_zero_le
    rcases Nat.eq_zero_or_pos (k.capacity node.keySize) with hnone | hroom
    · exact (node.offset_le_offset (by omega)).trans hone
    · exact (node.offset_le_offset hsize).trans (k.headerSize_add_records_le (Nat.le_refl _) hroom)

/-- A record that ends inside the page has a key. -/
theorem exists_key (h : node.offset (i + 1) ≤ pageSize) : ∃ key, node.key i = .ok key :=
  ⟨_, node.key_eq_ok h⟩

/-- A record that ends inside the page has a payload. -/
theorem exists_payload (h : node.offset (i + 1) ≤ pageSize) :
    ∃ x : k.Payload, node.payload i = .ok (k.encode x) := by
  obtain ⟨x, hx⟩ := k.exists_encode (Block.length_slice node.page _ _ _)
  exact ⟨x, (node.payload_eq_ok h).trans (congrArg Except.ok hx.symm)⟩

/-- A payload that can be read ends inside the page. -/
theorem offset_succ_le {bytes : List UInt8} (h : node.payload i = .ok bytes) :
    node.offset (i + 1) ≤ pageSize := by
  rw [payload, Block.read] at h
  by_cases hfits : node.offset i + node.keySize + k.payloadSize ≤ pageSize
  · rw [offset_succ, recordSize, ← Nat.add_assoc]
    exact hfits
  · rw [dif_neg hfits] at h
    cases h

end Node

/-! ## Leaves -/

namespace Leaf

variable {l : Leaf}

/-- What those who read a leaf rely on. -/
structure Readable (l : Leaf) : Prop where
  /-- every entry that the header counts can be read -/
  entry : ∀ i < l.size, ∃ key row, l.key i = .ok key ∧ Leaf.row l i = .ok row
  /-- every search returns, and with an index that the leaf has or with the one behind -/
  search : ∀ (o : KeyOrder) (key : Key), ∃ place, Leaf.search l o key = .ok place ∧
    place.index ≤ l.size

theorem exists_row {i : Nat} (h : l.offset (i + 1) ≤ pageSize) : ∃ row, Leaf.row l i = .ok row := by
  obtain ⟨row, hrow⟩ := Node.exists_payload h
  refine ⟨row, ?_⟩
  rw [Leaf.row, hrow]
  exact congrArg demand (RowId.ofBytes?_toBytes row)

theorem offset_le_of_row {i : Nat} {row : RowId} (h : Leaf.row l i = .ok row) :
    l.offset (i + 1) ≤ pageSize := by
  obtain ⟨bytes, hbytes, -⟩ := of_bind_eq_ok h
  exact Node.offset_succ_le hbytes

/-- **A search returns** whatever the order of the keys, if they can be read. -/
theorem exists_searchBetween (o : KeyOrder) (key : Key) {lo hi : Nat} (hle : lo ≤ hi)
    (hkeys : ∀ i < hi, ∃ x, l.key i = .ok x) :
    ∃ place, searchBetween l o key lo hi = .ok place ∧ place.index ≤ hi := by
  rw [searchBetween_eq]
  exact exists_searchWith o key hle fun i _ => hkeys i

/-- **A leaf is readable** exactly if the records that it counts end inside the page. -/
theorem readable_iff : Readable l ↔ l.offset l.size ≤ pageSize := by
  constructor
  · intro h
    rcases Nat.eq_zero_or_pos l.size with hzero | hpos
    · rw [hzero]
      exact l.offset_zero_le
    · obtain ⟨_, _, _, hrow⟩ := h.entry (l.size - 1) (by omega)
      have hend := offset_le_of_row hrow
      rwa [Nat.sub_add_cancel hpos] at hend
  · intro h
    have hends : ∀ i < l.size, l.offset (i + 1) ≤ pageSize := fun i hi =>
      (l.offset_le_offset hi).trans h
    refine ⟨fun i hi => ?_, fun o key => ?_⟩
    · obtain ⟨key, hkey⟩ := Node.exists_key (hends i hi)
      obtain ⟨row, hrow⟩ := exists_row (hends i hi)
      exact ⟨key, row, hkey, hrow⟩
    · exact exists_searchBetween o key (Nat.zero_le _) fun i hi => Node.exists_key (hends i hi)

end Leaf

/-! ## Internal nodes -/

namespace Internal

variable {n : Internal}

/-- What those who read an internal node rely on. -/
structure Readable (n : Internal) : Prop where
  /-- every record that the header counts can be read -/
  entry : ∀ i < n.size, ∃ key child, n.key i = .ok key ∧ Internal.child n i = .ok child
  /-- every search in a node with children leads to one of them -/
  lookup : 1 ≤ n.size → ∀ (o : KeyOrder) (key : Key), ∃ i child,
    Internal.lookup n o key = .ok i ∧ i < n.size ∧ Internal.child n i = .ok child

theorem exists_child {i : Nat} (h : n.offset (i + 1) ≤ pageSize) :
    ∃ child, Internal.child n i = .ok child := by
  obtain ⟨child, hchild⟩ := Node.exists_payload h
  exact ⟨_, by rw [Internal.child, hchild]; rfl⟩

theorem offset_le_of_child {i : Nat} {child : PageId} (h : Internal.child n i = .ok child) :
    n.offset (i + 1) ≤ pageSize := by
  obtain ⟨bytes, hbytes, -⟩ := of_bind_eq_ok h
  exact Node.offset_succ_le hbytes

/-- **A search returns** whatever the order of the keys, if they can be read. -/
theorem exists_lookupBetween (o : KeyOrder) (key : Key) {lo hi : Nat} (hle : lo ≤ hi)
    (hkeys : ∀ i < hi, ∃ x, n.key i = .ok x) :
    ∃ t, lookupBetween n o key lo hi = .ok t ∧ lo ≤ t ∧ t ≤ hi := by
  rw [lookupBetween_eq]
  exact exists_lookupWith o key hle fun i _ => hkeys i

/-- **An internal node is readable** exactly if the records that it counts end inside the page. -/
theorem readable_iff : Readable n ↔ n.offset n.size ≤ pageSize := by
  constructor
  · intro h
    rcases Nat.eq_zero_or_pos n.size with hzero | hpos
    · rw [hzero]
      exact n.offset_zero_le
    · obtain ⟨_, _, _, hchild⟩ := h.entry (n.size - 1) (by omega)
      have hend := offset_le_of_child hchild
      rwa [Nat.sub_add_cancel hpos] at hend
  · intro h
    have hends : ∀ i < n.size, n.offset (i + 1) ≤ pageSize := fun i hi =>
      (n.offset_le_offset hi).trans h
    refine ⟨fun i hi => ?_, fun hpos o key => ?_⟩
    · obtain ⟨key, hkey⟩ := Node.exists_key (hends i hi)
      obtain ⟨child, hchild⟩ := exists_child (hends i hi)
      exact ⟨key, child, hkey, hchild⟩
    · obtain ⟨t, ht, hlow, hhigh⟩ :=
        exists_lookupBetween o key hpos fun i hi => Node.exists_key (hends i hi)
      obtain ⟨child, hchild⟩ := exists_child (hends (t - 1) (by omega))
      refine ⟨t - 1, child, ?_, by omega, hchild⟩
      rw [Internal.lookup, ht]
      rfl

end Internal

/-! ## Accepted pages -/

namespace Node

/-- **Which accepted pages can be read.** Of the pages that are taken for a node, all can be read
except those with one record that is too long for a page. -/
theorem accepted_readable_iff {len : Nat} (b : Block len) :
    (∀ l : Leaf, Node.ofBlock .leaf b = .ok l →
      (Leaf.Readable l ↔ l.size = 0 ∨ leafHeaderSize + (l.keySize + rowIdSize) ≤ pageSize)) ∧
    (∀ n : Internal, Node.ofBlock .internal b = .ok n →
      (Internal.Readable n ↔
        n.size = 0 ∨ internalHeaderSize + (n.keySize + pageIdSize) ≤ pageSize)) := by
  refine ⟨fun l hl => ?_, fun n hn => ?_⟩
  · obtain ⟨page, hpage⟩ := exists_page_of_ofBlock hl
    rw [Leaf.readable_iff, offset_size_le_iff hpage, offset_one]
    rfl
  · obtain ⟨page, hpage⟩ := exists_page_of_ofBlock hn
    rw [Internal.readable_iff, offset_size_le_iff hpage, offset_one]
    rfl

/-- A new page that counts one record is taken for a node, however wide its keys are. -/
theorem ofBlock_one_record (k : NodeKind) {width : Nat} (hpos : 0 < width)
    (hw : width < pageSize) :
    Node.ofBlock k ((fresh k ⟨0⟩ .none 2 width).setSize 1).page =
      .ok ((fresh k ⟨0⟩ .none 2 width).setSize 1) := by
  have hw' : width < 2 ^ 32 := hw.trans (by decide)
  have hstates := (holds_fresh k ⟨0⟩ .none (by decide : 2 < 2 ^ 32) hw').states.setSize
    (by decide : 1 < 2 ^ 32)
  exact hstates.ofBlock_eq_ok hpos hw (Nat.le_add_left ..)

/-- A leaf with one entry whose key is one byte too wide is accepted and cannot be read; an internal
node with keys of the same width can. -/
theorem accepted_readable_iff_wide :
    (Node.ofBlock .leaf ((fresh .leaf ⟨0⟩ .none 2 4063).setSize 1).page =
        .ok ((fresh .leaf ⟨0⟩ .none 2 4063).setSize 1) ∧
      ¬Leaf.Readable ((fresh .leaf ⟨0⟩ .none 2 4063).setSize 1)) ∧
    (Node.ofBlock .internal ((fresh .internal ⟨0⟩ .none 2 4063).setSize 1).page =
        .ok ((fresh .internal ⟨0⟩ .none 2 4063).setSize 1) ∧
      Internal.Readable ((fresh .internal ⟨0⟩ .none 2 4063).setSize 1)) := by
  have hleaf := ofBlock_one_record .leaf (by decide : 0 < 4063) (by decide)
  have hinternal := ofBlock_one_record .internal (by decide : 0 < 4063) (by decide)
  refine ⟨⟨hleaf, fun h => ?_⟩, hinternal, ?_⟩
  · rcases ((accepted_readable_iff _).1 _ hleaf).1 h with hzero | hwide
    · rw [size_setSize _ (by decide)] at hzero
      cases hzero
    · exact absurd hwide (by decide)
  · exact ((accepted_readable_iff _).2 _ hinternal).2 (.inr (by decide))

end Node

end PageStore
