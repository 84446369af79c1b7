import Mathlib.Order.Interval.Set.Basic
import PageStore.Proofs.Node.Moves

/-!
# What an operation on a node writes

The operations on the records of a node move whole runs of bytes. That the records are right
afterwards is one half of what they do; the other half is that nothing else in the page changes.

* `Block.Rewrites` gives the offsets at which a block may differ from what it was, and each
  operation has a lemma for its own: the count of records, and the records from the first that moves
  on (`Node.rewrites_insertRecord`, `Node.rewrites_remove`, `Node.rewrites_append`);
* `Node.Holds.insertIdx_eq_ok` and `Node.Holds.eraseIdx_eq_ok` say what becomes of the records, by
  index;
* `putTwo` puts two nodes back among others, as the operations between two nodes do.
-/

namespace PageStore

theorem of_demand_eq_ok {α : Type} {a : α} {o : Option α} (h : demand o = .ok a) : o = some a := by
  cases o with
  | none => cases h
  | some b =>
    cases h
    rfl

/-! ## Bytes that an operation leaves alone -/

namespace Block

variable {n : Nat} {b b' b'' : Block n} {W W' : Set Nat}

/-- The second block has the bytes of the first one at all offsets but these. -/
def Rewrites (b b' : Block n) (W : Set Nat) : Prop := ∀ o ∉ W, b'[o]? = b[o]?

theorem Rewrites.refl (b : Block n) (W : Set Nat) : b.Rewrites b W := fun _ _ => rfl

theorem Rewrites.mono (h : b.Rewrites b' W) (hW : W ⊆ W') : b.Rewrites b' W' := fun o ho =>
  h o fun hin => ho (hW hin)

theorem Rewrites.trans (h : b.Rewrites b' W) (h' : b'.Rewrites b'' W') :
    b.Rewrites b'' (W ∪ W') := fun o ho =>
  (h' o fun hin => ho (.inr hin)).trans (h o fun hin => ho (.inl hin))

theorem rewrites_patch (b : Block n) (off : Nat) (xs : List UInt8) :
    b.Rewrites (b.patch off xs) (Set.Ico off (off + xs.length)) := fun o ho => by
  refine getElem?_patch_of_outside b ?_
  by_contra hin
  exact ho ⟨by omega, by omega⟩

theorem rewrites_setWord (b : Block n) (off : Nat) (w : UInt32) :
    b.Rewrites (b.setWord off w) (Set.Ico off (off + 4)) := by
  have h := rewrites_patch b off (wordBytes w)
  rwa [length_wordBytes] at h

theorem rewrites_write {off : Nat} {xs : List UInt8} (h : b.write off xs = some b') :
    b.Rewrites b' (Set.Ico off (off + xs.length)) := by
  rw [write] at h
  split at h <;> cases h
  exact rewrites_patch b off xs

theorem rewrites_move {start stop dest : Nat} (h : b.move start stop dest = some b') :
    b.Rewrites b' (Set.Ico dest (dest + (stop - start))) := by
  rw [move] at h
  split at h
  · obtain ⟨xs, hread, hwrite⟩ := Option.bind_eq_some_iff.1 h
    have hlen : xs.length = stop - start := by
      rw [read] at hread
      split at hread <;> cases hread
      exact length_slice ..
    exact hlen ▸ rewrites_write hwrite
  · cases h

end Block

/-- The bytes that count the records of a node. -/
def countBytes : Set Nat := Set.Ico 4 8

/-- The bytes of a leaf that state the next one. -/
def nextBytes : Set Nat := Set.Ico 24 28

/-- The bytes of the records from index `i` up to index `j`, with keys of a width. -/
def NodeKind.recordBytes (k : NodeKind) (width i j : Nat) : Set Nat :=
  Set.Ico (k.headerSize + i * (width + k.payloadSize)) (k.headerSize + j * (width + k.payloadSize))

namespace Node

variable {k : NodeKind} {n n' dest source : Node k} {hd : Header} {recs : List (Record k)} {i : Nat}
  {key : Key} {payload : List UInt8}

theorem recordBytes_eq (n : Node k) (i j : Nat) :
    k.recordBytes n.keySize i j = Set.Ico (n.offset i) (n.offset j) := rfl

theorem rewrites_setSize (n : Node k) (s : Nat) :
    n.page.Rewrites (n.setSize s).page countBytes := Block.rewrites_setWord _ 4 _

theorem rewrites_setNext (l : Leaf) (next : PageId) :
    l.page.Rewrites (Leaf.setNext l next).page nextBytes := Block.rewrites_setWord _ 24 _

/-- A record that is overwritten. -/
theorem rewrites_setRecord (hrun : n.setRecord i key payload = .ok n')
    (hp : payload.length = k.payloadSize) :
    n.page.Rewrites n'.page (k.recordBytes n.keySize i (i + 1)) := by
  obtain ⟨n₁, hkey, hpayload⟩ := of_bind_eq_ok hrun
  rw [setKey] at hkey
  split at hkey
  · cases hkey
  next hlen =>
  obtain ⟨page, hwrite, hret⟩ := of_bind_eq_ok hkey
  cases hret
  obtain ⟨page', hwrite', hret⟩ := of_bind_eq_ok hpayload
  cases hret
  have h := (Block.rewrites_write (of_demand_eq_ok hwrite)).trans
    (Block.rewrites_write (of_demand_eq_ok hwrite'))
  refine h.mono fun o ho => ?_
  rw [recordBytes_eq, offset_succ, recordSize, Set.mem_Ico]
  have hoffset : ({ n with page } : Node k).offset i = n.offset i := rfl
  rw [hoffset, Set.mem_union, Set.mem_Ico, Set.mem_Ico] at ho
  have hwidth : key.length = n.keySize := not_not.1 hlen
  dsimp only at ho
  omega

/-- **A record more** changes the count, and the records from its index on. -/
theorem rewrites_insertRecord (hrun : n.insertRecord i key payload = .ok n') (hi : i ≤ n.size)
    (hp : payload.length = k.payloadSize) :
    n.page.Rewrites n'.page (countBytes ∪ k.recordBytes n.keySize i (n.size + 1)) := by
  obtain ⟨page, hmove, hrun⟩ := of_bind_eq_ok hrun
  obtain ⟨n₁, hset, hret⟩ := of_bind_eq_ok hrun
  cases hret
  have h := ((Block.rewrites_move (of_demand_eq_ok hmove)).trans (rewrites_setRecord hset hp)).trans
    (rewrites_setSize n₁ (n.size + 1))
  refine h.mono fun o ho => ?_
  -- the records behind move up into the place of one more, and the new one comes where they began
  have hle := n.offset_le_offset hi
  have hsame : ({ n with page } : Node k).keySize = n.keySize := rfl
  rw [hsame, recordBytes_eq, offset_succ] at ho
  rw [recordBytes_eq, offset_succ]
  rcases ho with (ho | ho) | ho
  · refine .inr ?_
    rw [Set.mem_Ico] at ho ⊢
    omega
  · refine .inr ?_
    rw [Set.mem_Ico] at ho ⊢
    omega
  · exact .inl ho

/-- **A record less** changes the count, and the records from its index on. The place of the last
one keeps what it held. -/
theorem rewrites_remove (hrun : n.remove i = .ok n') (hi : i < n.size) :
    n.page.Rewrites n'.page (countBytes ∪ k.recordBytes n.keySize i (n.size - 1)) := by
  obtain ⟨page, hmove, hret⟩ := of_bind_eq_ok hrun
  cases hret
  have h := (Block.rewrites_move (of_demand_eq_ok hmove)).trans
    (rewrites_setSize ({ n with page } : Node k) (n.size - 1))
  refine h.mono fun o ho => ?_
  -- the records behind move down by one, so that they end where the last one began
  have hle := n.offset_le_offset (Nat.le_sub_one_of_lt hi)
  have hsize : n.offset n.size = n.offset (n.size - 1) + n.recordSize := by
    rw [← offset_succ, Nat.sub_add_cancel (Nat.one_le_of_lt hi)]
  have hnext := n.offset_succ i
  rw [recordBytes_eq]
  rcases ho with ho | ho
  · refine .inr ?_
    rw [Set.mem_Ico] at ho ⊢
    omega
  · exact .inl ho

/-- **Records of another node** change the count, and come behind the records that are there. -/
theorem rewrites_append {start count : Nat} (hrun : n.append source start count = .ok n') :
    n.page.Rewrites n'.page (countBytes ∪ k.recordBytes n.keySize n.size (n.size + count)) := by
  obtain ⟨bytes, hread, hrun⟩ := of_bind_eq_ok hrun
  obtain ⟨page, hwrite, hret⟩ := of_bind_eq_ok hrun
  cases hret
  have hlen : bytes.length = count * n.recordSize := by
    have hsome := of_demand_eq_ok hread
    rw [Block.read] at hsome
    split at hsome <;> cases hsome
    exact Block.length_slice ..
  have h := (Block.rewrites_write (of_demand_eq_ok hwrite)).trans
    (rewrites_setSize ({ n with page } : Node k) (n.size + count))
  refine h.mono fun o ho => ?_
  have hend : n.offset (n.size + count) = n.offset n.size + count * n.recordSize := by
    rw [offset, offset, Nat.add_mul, Nat.add_assoc]
  rw [hlen, ← hend] at ho
  exact ho.symm

/-- **Splitting** changes the count of the one, and appends to the other. -/
theorem rewrites_moveUpper {dest' : Node k} (hrun : n.moveUpper dest = .ok (n', dest')) :
    n.page.Rewrites n'.page countBytes ∧ dest.page.Rewrites dest'.page
      (countBytes ∪ k.recordBytes dest.keySize dest.size (dest.size + (n.size - n.minSize))) := by
  rw [moveUpper] at hrun
  split at hrun
  · cases hrun
  obtain ⟨d, happend, hret⟩ := of_bind_eq_ok hrun
  cases hret
  exact ⟨rewrites_setSize n n.minSize, rewrites_append happend⟩

/-- **Joining** does so too. -/
theorem rewrites_moveAll {dest' : Node k} (hrun : n.moveAll dest = .ok (n', dest')) :
    n.page.Rewrites n'.page countBytes ∧ dest.page.Rewrites dest'.page
      (countBytes ∪ k.recordBytes dest.keySize dest.size (dest.size + n.size)) := by
  obtain ⟨d, happend, hret⟩ := of_bind_eq_ok hrun
  cases hret
  exact ⟨rewrites_setSize n 0, rewrites_append happend⟩

/-! ## Records by index -/

theorem insertIdx_append {α : Type} (pre post : List α) (x : α) :
    (pre ++ post).insertIdx pre.length x = pre ++ x :: post := by
  induction pre with
  | nil => rfl
  | cons y pre ih =>
    rw [List.cons_append, List.length_cons, List.insertIdx_succ_cons, ih, List.cons_append]

/-- **One record more**, at an index. -/
theorem Holds.insertIdx_eq_ok (h : n.Holds hd recs) (hi : i ≤ recs.length) (r : Record k)
    (hk : r.1.length = hd.width) (hroom : n.offset (recs.length + 1) ≤ pageSize) :
    ∃ n', n.insertRecord i r.1 (k.encode r.2) = .ok n' ∧ n'.Holds hd (recs.insertIdx i r) := by
  obtain ⟨pre, post, rfl, rfl⟩ := exists_cut recs i hi
  rw [insertIdx_append]
  exact h.insertRecord_eq_ok pre post r hk hroom

/-- **One record less**, at an index. -/
theorem Holds.eraseIdx_eq_ok (h : n.Holds hd recs) (hi : i < recs.length) :
    ∃ n', n.remove i = .ok n' ∧ n'.Holds hd (recs.eraseIdx i) := by
  obtain ⟨pre, post, hcut, rfl⟩ := exists_cut_at (List.getElem?_eq_getElem hi)
  rw [hcut] at h ⊢
  rw [List.eraseIdx_append_of_length_le (Nat.le_refl _), Nat.sub_self, List.eraseIdx_cons_zero]
  exact h.remove_eq_ok pre

end Node

/-! ## Nodes that were formatted alike -/

/-- Settings that a node may be formatted with. -/
structure NodeKind.Takes (k : NodeKind) (max width : Nat) : Prop where
  width_pos : 1 ≤ width
  max_pos : 1 ≤ max
  room : max ≤ k.capacity width

/-- The header that a node is formatted with. -/
def Header.fresh (id parent : PageId) (max width : Nat) : Header :=
  { id, parent, maxSize := max, width }

namespace Node

variable {k : NodeKind} {n : Node k} {hd : Header} {recs : List (Record k)} {max width : Nat}

/-- The node holds these records, with the settings that it was formatted with, and at most one
record more than it is meant to have. -/
structure Keeps (n : Node k) (max width : Nat) (hd : Header) (recs : List (Record k)) : Prop where
  holds : n.Holds hd recs
  maxSize : hd.maxSize = max
  width : hd.width = width
  short : recs.length ≤ max + 1

theorem Keeps.offset_le (h : n.Keeps max width hd recs) (hk : k.Takes max width) {i : Nat}
    (hi : i ≤ max + 1) : n.offset i ≤ pageSize := by
  have hkey : n.keySize = width := h.holds.states.keySize.trans h.width
  have hroom := hk.room
  refine offset_le_pageSize n ?_ ?_
  · rw [hkey]
    exact hk.max_pos.trans hroom
  · rw [hkey]
    omega

theorem Keeps.ofBlock_eq_ok (h : n.Keeps max width hd recs) (hk : k.Takes max width) :
    Node.ofBlock k n.page = .ok n := by
  have hcap : 0 < k.capacity width := hk.max_pos.trans hk.room
  refine h.holds.ofBlock_eq_ok ?_ ?_ ?_
  · rw [h.width]
    exact hk.width_pos
  · rw [h.width]
    exact k.keySize_lt_of_capacity_pos hcap
  · rw [h.width]
    exact h.short.trans (Nat.succ_le_succ hk.room)

theorem keeps_fresh (hk : k.Takes max width) (id parent : PageId) :
    (fresh k id parent max width).Keeps max width (.fresh id parent max width) [] := by
  have hcap : 0 < k.capacity width := hk.max_pos.trans hk.room
  refine ⟨holds_fresh k id parent ?_ ?_, rfl, rfl, Nat.zero_le _⟩
  · exact (hk.room.trans_lt (k.capacity_lt width)).trans (by decide)
  · exact (k.keySize_lt_of_capacity_pos hcap).trans (by decide)

end Node

/-! ## Runs of edits -/

section Runs

variable {σ τ ε : Type} {allowed : σ → ε → Prop} {next : σ → ε → σ} {run : τ → ε → Except Halt τ}
  {R : τ → σ → Prop} {l : τ} {s : σ}

/-- Every edit is allowed when its turn comes. -/
def AllowedInTurn (allowed : σ → ε → Prop) (next : σ → ε → σ) : σ → List ε → Prop
  | _, [] => True
  | s, e :: es => allowed s e ∧ AllowedInTurn allowed next (next s e) es

/-- **A run follows another one** if each of its steps does. -/
theorem AllowedInTurn.foldlM_eq_ok {es : List ε}
    (step : ∀ {l s e}, R l s → allowed s e → ∃ l', run l e = .ok l' ∧ R l' (next s e))
    (h : R l s) (hes : AllowedInTurn allowed next s es) :
    ∃ l', es.foldlM run l = .ok l' ∧ R l' (es.foldl next s) := by
  induction es generalizing l s with
  | nil => exact ⟨l, rfl, h⟩
  | cons e es ih =>
    obtain ⟨he, hes⟩ := hes
    obtain ⟨l₁, hrun, h₁⟩ := step h he
    obtain ⟨l', hrest, h'⟩ := ih h₁ hes
    refine ⟨l', ?_, h'⟩
    rw [List.foldlM_cons, hrun]
    exact hrest

end Runs

/-! ## Two of many -/

section PutTwo

variable {ι α β : Type} [DecidableEq ι] {f : ι → α} {g : ι → β} {a b : ι}

/-- Replaces two members of a family. -/
def putTwo (f : ι → α) (a b : ι) (x : α × α) : ι → α :=
  Function.update (Function.update f a x.1) b x.2

/-- What is true of every member stays true if it is true of the one that replaces a member. -/
theorem forall_update {R : ι → α → β → Prop} (h : ∀ c, R c (f c) (g c)) {x : α} {y : β}
    (ha : R a x y) (c : ι) : R c (Function.update f a x c) (Function.update g a y c) := by
  by_cases hc : c = a
  · subst hc
    rwa [Function.update_self, Function.update_self]
  · rw [Function.update_of_ne hc, Function.update_of_ne hc]
    exact h c

theorem forall_putTwo {R : ι → α → β → Prop} (h : ∀ c, R c (f c) (g c)) {x : α × α} {y : β × β}
    (ha : R a x.1 y.1) (hb : R b x.2 y.2) (c : ι) : R c (putTwo f a b x c) (putTwo g a b y c) :=
  forall_update (forall_update h ha) hb c

theorem putTwo_left (f : ι → α) (hab : a ≠ b) (x : α × α) : putTwo f a b x a = x.1 := by
  rw [putTwo, Function.update_of_ne hab, Function.update_self]

theorem putTwo_right (f : ι → α) (a b : ι) (x : α × α) : putTwo f a b x b = x.2 :=
  Function.update_self ..

/-- Two members that are put back. -/
theorem putTwo_putTwo_self (f : ι → α) (hab : a ≠ b) (x : α × α) :
    putTwo (putTwo f a b x) b a (f b, f a) = f := by
  funext c
  by_cases ha : c = a
  · rw [ha, putTwo_right]
  · by_cases hb : c = b
    · rw [hb, putTwo_left _ hab.symm]
    · simp only [putTwo, Function.update_of_ne ha, Function.update_of_ne hb]

end PutTwo

end PageStore
