import PageStore.Tree.Cursor
import PageStore.Tree.Destroy
import PageStore.Tree.Remove
import PageStore.Tree.Verify

/-!
# Computations on the bytes of a tree

Reading a node, changing it and moving records between two nodes are computations on bytes. Pages
are what they are given, so nothing but the bytes can stop them: `BlamesBytes`. There is one lemma
for each of them, and most follow from those before by the rules for sequencing, which are stated as
equivalences so that `simp` can use them.
-/

namespace PageStore

variable {α β : Type} {n : Nat} {k : NodeKind}

/-- **What stops a computation on bytes is the bytes**: it aborts, or it names the damage that it
found. -/
def BlamesBytes (r : Except Halt α) : Prop :=
  ∀ e, r = .error e → e = .fault ∨ ∃ why, e = .refused (.tree why)

namespace BlamesBytes

@[simp] theorem ok (a : α) : BlamesBytes (.ok a) := nofun

@[simp] theorem pure (a : α) : BlamesBytes (pure a : Except Halt α) := nofun

@[simp] theorem fault : BlamesBytes (.error .fault : Except Halt α) := by
  rintro e ⟨⟩
  exact .inl rfl

@[simp] theorem throw_fault : BlamesBytes (throw .fault : Except Halt α) := fault

@[simp] theorem refusal (why : TreeFault) : BlamesBytes (refuse (.tree why) : Except Halt α) := by
  rintro e ⟨⟩
  exact .inr ⟨why, rfl⟩

@[simp] theorem demand (o : Option α) : BlamesBytes (demand o) := by
  cases o with
  | none => exact fault
  | some a => exact ok a

/-- **Sequencing.** The second computation may rely on what the first one returned. -/
@[simp] theorem bind_iff {r : Except Halt α} {next : α → Except Halt β} :
    BlamesBytes (r >>= next) ↔ BlamesBytes r ∧ ∀ a, r = .ok a → BlamesBytes (next a) := by
  cases r with
  | ok a =>
    refine ⟨fun h => ⟨ok a, ?_⟩, fun h => h.2 a rfl⟩
    rintro _ ⟨⟩
    exact h
  | error e =>
    refine ⟨fun h => ⟨?_, nofun⟩, fun h => ?_⟩
    · rintro _ ⟨⟩
      exact h e rfl
    · rintro _ ⟨⟩
      exact h.1 e rfl

theorem bind {r : Except Halt α} {next : α → Except Halt β} (hr : BlamesBytes r)
    (hnext : ∀ a, BlamesBytes (next a)) : BlamesBytes (r >>= next) :=
  bind_iff.2 ⟨hr, fun a _ => hnext a⟩

@[simp] theorem map_iff {r : Except Halt α} (f : α → β) :
    BlamesBytes (f <$> r) ↔ BlamesBytes r := by
  cases r with
  | ok a => exact iff_of_true (ok _) (ok a)
  | error e => constructor <;> rintro h _ ⟨⟩ <;> exact h e rfl

@[simp] theorem ite_iff {c : Prop} [Decidable c] {r r' : Except Halt α} :
    BlamesBytes (if c then r else r') ↔ if c then BlamesBytes r else BlamesBytes r' := by
  split <;> rfl

@[simp] theorem mapM {f : α → Except Halt β} (l : List α) (hf : ∀ a, BlamesBytes (f a)) :
    BlamesBytes (l.mapM f) := by
  induction l with
  | nil => exact ok []
  | cons a l ih =>
    rw [List.mapM_cons]
    exact (hf a).bind fun b => ih.bind fun bs => ok _

/-- Where frames are wanting, the bytes are not to blame. -/
theorem ne_poolFull {r : Except Halt α} (hr : BlamesBytes r) : r ≠ .error (.refused .poolFull) := by
  intro he
  obtain h | ⟨why, h⟩ := hr _ he <;> cases h

end BlamesBytes

/-! ## Nodes of either kind -/

@[simp] theorem NodeHeader.blames_kind (b : Block n) : BlamesBytes (NodeHeader.kind b) := by
  refine (BlamesBytes.demand _).bind fun tag => ?_
  split <;> simp

@[simp] theorem NodeHeader.blames_setParent (b : Block n) (parent : PageId) :
    BlamesBytes (NodeHeader.setParent b parent) := BlamesBytes.demand _

namespace Node

variable (node dest : Node k) (i : Nat) (key : Key) (payload : List UInt8)

@[simp] theorem blames_ofBlock (k : NodeKind) (b : Block n) : BlamesBytes (Node.ofBlock k b) := by
  rw [Node.ofBlock]
  split <;> simp

@[simp] theorem blames_key : BlamesBytes (node.key i) := BlamesBytes.demand _

@[simp] theorem blames_payload : BlamesBytes (node.payload i) := BlamesBytes.demand _

@[simp] theorem blames_setKey : BlamesBytes (node.setKey i key) := by simp [setKey]

@[simp] theorem blames_setPayload : BlamesBytes (node.setPayload i payload) := by simp [setPayload]

@[simp] theorem blames_setRecord : BlamesBytes (node.setRecord i key payload) := by simp [setRecord]

@[simp] theorem blames_insertRecord : BlamesBytes (node.insertRecord i key payload) := by
  simp [insertRecord]

@[simp] theorem blames_remove : BlamesBytes (node.remove i) := by simp [remove]

@[simp] theorem blames_append (start count : Nat) : BlamesBytes (node.append dest start count) := by
  simp [append]

@[simp] theorem blames_moveUpper : BlamesBytes (node.moveUpper dest) := by simp [moveUpper]

@[simp] theorem blames_moveAll : BlamesBytes (node.moveAll dest) := by simp [moveAll]

@[simp] theorem blames_lastIndex : BlamesBytes node.lastIndex := by simp [lastIndex]

end Node

/-! ## Leaves -/

namespace Leaf

variable (leaf dest : Leaf) (i : Nat) (order : KeyOrder) (key : Key)

@[simp] theorem blames_row : BlamesBytes (leaf.row i) := by simp [row]

@[simp] theorem blames_entry : BlamesBytes (leaf.entry i) := by simp [entry]

@[simp] theorem blames_keys : BlamesBytes leaf.keys := by simp [keys]

theorem blames_searchBetween (lo hi : Nat) :
    BlamesBytes (leaf.searchBetween order key lo hi) := by
  fun_induction searchBetween leaf order key lo hi with
  | case1 lo hi _ mid after before =>
    refine (Node.blames_key leaf mid).bind fun found => ?_
    cases order.compare found key with
    | lt => exact after
    | gt => exact before
    | eq => exact .ok _
  | case2 lo hi _ => exact .ok _

@[simp] theorem blames_search : BlamesBytes (leaf.search order key) :=
  blames_searchBetween leaf order key 0 leaf.size

@[simp] theorem blames_insert (row : RowId) : BlamesBytes (leaf.insert i key row) :=
  Node.blames_insertRecord leaf i key row.toBytes

@[simp] theorem blames_giveUpper : BlamesBytes (leaf.giveUpper dest) := by simp [giveUpper]

@[simp] theorem blames_giveAll : BlamesBytes (leaf.giveAll dest) := by simp [giveAll]

@[simp] theorem blames_giveFirst : BlamesBytes (leaf.giveFirst dest) := by simp [giveFirst]

@[simp] theorem blames_giveLast : BlamesBytes (leaf.giveLast dest) := by simp [giveLast]

@[simp] theorem blames_repair (leftShort : Bool) : BlamesBytes (leaf.repair dest leftShort) := by
  simp [repair]

end Leaf

/-! ## Internal nodes -/

namespace Internal

variable (node dest : Internal) (i : Nat) (order : KeyOrder) (key : Key)

@[simp] theorem blames_child : BlamesBytes (child node i) := by simp [child]

@[simp] theorem blames_entries : BlamesBytes (entries node) := by simp [entries, entry]

@[simp] theorem blames_childrenFrom (start count : Nat) :
    BlamesBytes (childrenFrom node start count) := by
  simp [childrenFrom]

@[simp] theorem blames_children : BlamesBytes (children node) :=
  blames_childrenFrom node 0 node.size

theorem blames_lookupBetween (lo hi : Nat) : BlamesBytes (lookupBetween node order key lo hi) := by
  fun_induction lookupBetween node order key lo hi with
  | case1 lo hi _ mid before after =>
    refine (Node.blames_key node mid).bind fun found => ?_
    split
    · exact before
    · exact after
  | case2 lo hi _ => exact .ok _

@[simp] theorem blames_lookup : BlamesBytes (lookup node order key) := by
  simp [lookup, blames_lookupBetween]

@[simp] theorem blames_insert (child : PageId) : BlamesBytes (insert node i key child) :=
  Node.blames_insertRecord node i key (childBytes child)

@[simp] theorem blames_populate (left right : PageId) :
    BlamesBytes (populate node left key right) := by
  simp [populate, setChild]

@[simp] theorem blames_giveUpper : BlamesBytes (giveUpper node dest) := by simp [giveUpper]

@[simp] theorem blames_giveAll : BlamesBytes (giveAll node dest key) := by simp [giveAll]

@[simp] theorem blames_giveFirst : BlamesBytes (giveFirst node dest key) := by simp [giveFirst]

@[simp] theorem blames_giveLast : BlamesBytes (giveLast node dest key) := by simp [giveLast]

@[simp] theorem blames_repair (leftShort : Bool) :
    BlamesBytes (repair node dest key leftShort) := by
  simp [repair]

@[simp] theorem blames_siblings (p : PageId) (page : Page) : BlamesBytes (siblings p i page) := by
  simp [siblings]

@[simp] theorem blames_afterRepair (separator : Option Key) :
    BlamesBytes (afterRepair node i separator) := by
  cases separator <;> simp [afterRepair]

end Internal

/-! ## Looks at a page -/

@[simp] theorem Cursor.blames_look (offset : Nat) (page : Page) :
    BlamesBytes (Cursor.look offset page) := by
  simp [look]

namespace Tree

variable (tree : Tree)

@[simp] theorem blames_keySizeOf (page : Page) : BlamesBytes (keySizeOf page) := by
  refine (NodeHeader.blames_kind page).bind fun kind => ?_
  cases kind <;> simp

@[simp] theorem blames_route (key : Option Key) (page : Page) :
    BlamesBytes (tree.route key page) := by
  refine (NodeHeader.blames_kind page).bind fun kind => ?_
  cases kind with
  | leaf => simp
  | internal => cases key <;> simp

@[simp] theorem blames_rootHeir (page : Page) : BlamesBytes (rootHeir page) := by
  refine (NodeHeader.blames_kind page).bind fun kind => ?_
  cases kind <;> simp

@[simp] theorem blames_childPages (page : Page) : BlamesBytes (childPages page) := by
  refine (NodeHeader.blames_kind page).bind fun kind => ?_
  cases kind <;> simp

end Tree

/-! ## Checks -/

@[simp] theorem blames_ensure (holds : Bool) (p : PageId) (rule : TreeRule) :
    BlamesBytes (ensure holds p rule) := by
  simp [ensure]

@[simp] theorem blames_checkKeys (order : KeyOrder) (p : PageId)
    (lower upper previous : Option Key) (keys : List Key) :
    BlamesBytes (checkKeys order p lower upper previous keys) := by
  induction keys generalizing previous with
  | nil => exact .ok ()
  | cons key keys ih => simp [checkKeys, ih]

@[simp] theorem blames_checkChain (links : List (PageId × PageId)) :
    BlamesBytes (checkChain links) := by
  fun_induction checkChain links with
  | case1 => exact .ok ()
  | case2 leaf next => simp
  | case3 leaf next following link rest ih => simp [ih]

@[simp] theorem Survey.blames_addLeaf (s : Survey) (v : Visit) (entries : Nat) (next : PageId) :
    BlamesBytes (s.addLeaf v entries next) := by
  simp [Survey.addLeaf]

@[simp] theorem Tree.blames_examine (tree : Tree) (v : Visit) (page : Page) :
    BlamesBytes (tree.examine v page) := by
  refine (NodeHeader.blames_kind page).bind fun kind => ?_
  cases kind <;> simp [examineLeaf, examineInternal]

end PageStore
