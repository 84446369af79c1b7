import PageStore.Proofs.Node.Headers

/-!
# What an accepted page holds

`Node.ofBlock` looks at a page's header only. `Node.exists_holds` is that a page which it takes for
a node holds records, whatever its bytes are, as long as the last one ends inside the page: every
run of bytes of the right length is a stored key and a stored payload.
-/

namespace PageStore

/-! ## Any bytes are records -/

/-- Any four bytes are the stored form of the word that they stand for. -/
theorem Block.wordBytes_wordOf {xs : List UInt8} (h : xs.length = 4) :
    Block.wordBytes (Block.wordOf xs) = xs := by
  have hlt := LittleEndian.ofBytes_lt xs
  rw [h] at hlt
  rw [Block.wordBytes, Block.wordOf, UInt32.toNat_ofNat', Nat.mod_eq_of_lt (by omega)]
  have hback := LittleEndian.toBytes_ofBytes xs
  rwa [h] at hback

/-- Any six bytes are the stored form of a row id. -/
theorem RowId.exists_toBytes {xs : List UInt8} (h : xs.length = rowIdSize) :
    ∃ row : RowId, row.toBytes = xs := by
  have hsix : xs.length = 6 := h
  obtain ⟨front, back, hfront, rfl⟩ := exists_cut xs 4 (by omega)
  have hback : back.length = 2 := by
    rw [List.length_append] at hsix
    omega
  have hlt := LittleEndian.ofBytes_lt back
  rw [hback] at hlt
  refine ⟨⟨⟨Block.wordOf front⟩, UInt16.ofNat (LittleEndian.ofBytes back)⟩, ?_⟩
  have hslot := LittleEndian.toBytes_ofBytes back
  rw [hback] at hslot
  rw [RowId.toBytes, Block.wordBytes_wordOf hfront, UInt16.toNat_ofNat',
    Nat.mod_eq_of_lt (by omega), hslot]

/-- Any bytes of the right number are a stored payload. -/
theorem NodeKind.exists_encode (k : NodeKind) {xs : List UInt8} (h : xs.length = k.payloadSize) :
    ∃ x : k.Payload, k.encode x = xs := by
  cases k with
  | leaf => exact RowId.exists_toBytes h
  | internal => exact ⟨⟨Block.wordOf xs⟩, Block.wordBytes_wordOf h⟩

/-- Bytes that are long enough start with any number of records of one width. -/
theorem Record.exists_flat {k : NodeKind} {width : Nat} (count : Nat) {bytes : List UInt8}
    (h : count * (width + k.payloadSize) ≤ bytes.length) :
    ∃ recs : List (Record k), recs.length = count ∧ (∀ r ∈ recs, r.1.length = width) ∧
      Record.flat recs <+: bytes := by
  induction count generalizing bytes with
  | zero => exact ⟨[], rfl, nofun, List.nil_prefix⟩
  | succ count ih =>
    rw [Nat.add_mul, Nat.one_mul] at h
    obtain ⟨key, behind, hkey, rfl⟩ := exists_cut bytes width (by omega)
    rw [List.length_append] at h
    obtain ⟨payload, rest, hpayload, rfl⟩ := exists_cut behind k.payloadSize (by omega)
    rw [List.length_append] at h
    obtain ⟨x, rfl⟩ := k.exists_encode hpayload
    obtain ⟨recs, hcount, hwidth, hflat⟩ := @ih rest (by omega)
    refine ⟨(key, x) :: recs, congrArg (· + 1) hcount, ?_, ?_⟩
    · rintro r (_ | ⟨_, hr⟩)
      · exact hkey
      · exact hwidth r hr
    · rw [Record.flat_cons, Record.bytes, List.append_assoc]
      exact (List.prefix_append_right_inj _).2 ((List.prefix_append_right_inj _).2 hflat)

/-! ## Accepted pages -/

theorem NodeHeader.tag_of_kind {page : Page} {k : NodeKind} (h : NodeHeader.kind page = .ok k) :
    page[0]? = some k.tag := by
  have hzero : page[0]? = some page[0] := by simp
  rw [NodeHeader.kind, hzero, demand_some, ok_bind] at h
  cases htag : NodeKind.ofTag? page[0] with
  | none =>
    rw [htag] at h
    cases hword : page.readWord 20 <;> simp only [hword] at h <;> cases h
  | some k' =>
    rw [htag] at h
    cases h
    rw [hzero, NodeKind.ofTag?_eq_some_iff.1 htag]

namespace Node

variable {k : NodeKind} {page : Page} {node : Node k}

theorem next_le : 24 + 4 ≤ pageSize := by decide

/-- What the bytes of a node state, its number of records apart. -/
def header (n : Node k) : Header where
  id := n.id
  parent := n.parent
  next := ⟨n.page.word 24 next_le⟩
  maxSize := n.maxSize
  width := n.keySize

/-- **A page that is taken for a node** is of that kind, and its keys and its number of records are
possible. -/
theorem of_ofBlock (h : Node.ofBlock k page = .ok node) :
    node = ⟨page, (page.word 12).toNat⟩ ∧ NodeHeader.kind page = .ok k ∧ 0 < node.keySize ∧
      node.keySize < pageSize ∧ node.size ≤ k.capacity node.keySize + 1 := by
  have hpage : page.toPage? = some page := dif_pos rfl
  rw [Node.ofBlock, hpage] at h
  dsimp only at h
  cases hkind : NodeHeader.kind page with
  | error e =>
    rw [hkind] at h
    cases h
  | ok found =>
    rw [hkind, ok_bind] at h
    by_cases hfound : found ≠ k
    · rw [if_pos hfound] at h
      cases h
    rw [if_neg hfound] at h
    by_cases hbad : (page.word 12).toNat = 0 ∨ pageSize ≤ (page.word 12).toNat ∨
        k.capacity (page.word 12).toNat + 1 < (page.word 4).toNat
    · simp only [if_pos hbad] at h
      cases h
    · simp only [if_neg hbad] at h
      cases h
      obtain rfl : found = k := not_not.1 hfound
      refine ⟨rfl, rfl, ?_, ?_, ?_⟩
      · change 0 < (page.word 12).toNat
        omega
      · change (page.word 12).toNat < pageSize
        omega
      · change (page.word 4).toNat ≤ found.capacity (page.word 12).toNat + 1
        omega

/-- A page that is taken for a node states the node's header. -/
theorem states_of_ofBlock (h : Node.ofBlock k page = .ok node) :
    node.States node.header node.size := by
  obtain ⟨rfl, hkind, -⟩ := of_ofBlock h
  exact ⟨NodeHeader.tag_of_kind hkind, rfl, rfl, rfl, rfl, rfl, rfl, fun _ => rfl⟩

/-- **What an accepted page holds.** -/
theorem exists_holds (h : Node.ofBlock k page = .ok node) (hroom : 0 < k.capacity node.keySize) :
    ∃ recs, node.Holds node.header recs := by
  obtain ⟨-, -, -, -, hsize⟩ := of_ofBlock h
  have hfits := k.headerSize_add_records_le (Nat.le_refl _) hroom
  have hrecs := Nat.mul_le_mul_right (node.keySize + k.payloadSize) hsize
  have hlong : node.size * (node.keySize + k.payloadSize) ≤
      (node.page.tail k.headerSize).length := by
    rw [Block.length_tail]
    omega
  obtain ⟨recs, hcount, hwidth, hflat⟩ := Record.exists_flat (k := k) node.size hlong
  exact ⟨recs, hcount ▸ states_of_ofBlock h, hwidth, hflat⟩

end Node

end PageStore
