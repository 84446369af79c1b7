import Mathlib.Data.List.TakeWhile
import PageStore.Proofs.Node.Accepted
import PageStore.Proofs.Tree.Reading
import PageStore.Tree.Cursor

/-!
# Walking through a tree

A cursor goes from leaf to leaf along the links, and never looks at a node above them. What it meets
is told by the row of leaves: `Cursor.Faces` says where in the row it is. It passes over leaves
without entries. `Tree.Readable.entries_eq_ok` is that a walk through a readable tree yields the
entries of the tree.
-/

namespace PageStore

open Pool

variable {n m : Nat} {P : PageMap} {h width : Nat} {next : PageId} {pool : Pool n m}
  {gs : List (Guard n)} {g : Guard n} {tree : Tree}

/-! ## One leaf -/

/-- **What a cursor sees in a leaf**: the entry at its index, or the next leaf behind the last
entry. -/
theorem Links.look_eq_ok {leaf : Shape 0} {page : Page} (hl : Links width P next leaf)
    (hp : P leaf.page = some page) (offset : Nat) :
    Cursor.look offset page = .ok (match leaf.entries[offset]? with
      | some e => .inl e
      | none => .inr next) := by
  obtain ⟨node, hd, hpage, -, hnext, hblock, hholds⟩ := hl
  obtain rfl : node.page = page := Option.some.inj (hpage.symm.trans hp)
  have hsize : node.size = leaf.entries.length := hholds.states.size
  rw [Cursor.look, hblock, ok_bind, hsize]
  rcases Nat.lt_or_ge offset leaf.entries.length with hlt | hge
  · obtain ⟨e, he⟩ : ∃ e, leaf.entries[offset]? = some e := ⟨_, List.getElem?_eq_getElem hlt⟩
    have hkey : node.key offset = .ok e.1 := hholds.key_of_getElem? he
    have hrow : Leaf.row node offset = .ok e.2 := Leaf.row_eq_ok hholds he
    rw [if_pos hlt, he, Leaf.entry, hkey, ok_bind, hrow]
    rfl
  · rw [if_neg (Nat.not_lt.2 hge), List.getElem?_eq_none hge, hholds.next_eq, hnext]
    rfl

/-- Whether a walk up to the last key, if that is given, takes the entry. -/
def Tree.upTo (t : Tree) (last : Option Key) (e : Entry) : Bool :=
  !last.any fun key => t.order.compare e.1 key = .gt

/-! ## A row of leaves -/

namespace Cursor

/-- The cursor holds a guard on the first of these leaves, and its next entry is in that leaf or
behind it. -/
structure Faces (pool : Pool n m) (gs : List (Guard n)) (width : Nat) (g : Guard n) (offset : Nat)
    (leaf : Shape 0) (rest : List (Shape 0)) : Prop where
  sound : pool.Sound (g :: gs)
  page : g.page = leaf.page
  strand : Strand width pool.pages .none (leaf :: rest)
  offset : offset ≤ leaf.entries.length
  short : rest.length < stepBound
  unwritten : Unwritten gs (rest.map Content.page)

/-- The entries that a cursor has not met yet. -/
def ahead (offset : Nat) (leaf : Shape 0) (rest : List (Shape 0)) : List Entry :=
  leaf.entries.drop offset ++ rest.flatMap Content.entries

variable {offset : Nat} {leaf : Shape 0} {rest : List (Shape 0)}

namespace Faces

theorem look_eq_ok (hf : Faces pool gs width g offset leaf rest) :
    Tree.peek g (look offset) pool = .ok (match leaf.entries[offset]? with
      | some e => .inl e
      | none => .inr ((rest.map Content.page).head?.getD .none)) pool := by
  have hlinks : Links width pool.pages ((rest.map Content.page).head?.getD .none) leaf :=
    hf.strand.1
  have hpage : pool.pages leaf.page = some (pool.bytes g) :=
    hf.page ▸ hf.sound.pages_guard List.mem_cons_self
  exact Tree.peek_eq_ok _ (hlinks.look_eq_ok hpage offset)

/-- The next entry is in the leaf. -/
theorem advance_here (hf : Faces pool gs width g offset leaf rest) {e : Entry} {l : List Entry}
    (he : leaf.entries.drop offset = e :: l) (fuel : Nat) :
    advance (fuel + 1) g offset pool = .ok (some e, ⟨some g, offset + 1⟩) pool ∧
      Faces pool gs width g (offset + 1) leaf rest ∧ leaf.entries.drop (offset + 1) = l := by
  have hat : leaf.entries[offset]? = some e := by
    rw [← List.head?_drop, he]
    rfl
  have hlook := hf.look_eq_ok
  rw [hat] at hlook
  refine ⟨?_, ⟨hf.sound, hf.page, hf.strand, ?_, hf.short, hf.unwritten⟩, ?_⟩
  · rw [advance, Action.bind_of_ok hlook]
    rfl
  · exact (List.getElem?_eq_some_iff.1 hat).1
  · rw [← List.tail_drop, he]
    rfl

/-- Behind the last entry of the last leaf there is none. -/
theorem advance_end (hf : Faces pool gs width g offset leaf [])
    (hend : leaf.entries.drop offset = []) (fuel : Nat) :
    ∃ pool', advance (fuel + 1) g offset pool = .ok (none, ended) pool' ∧ pool'.Sound gs ∧
      pool'.pages = pool.pages := by
  have hlook := hf.look_eq_ok
  rw [List.getElem?_eq_none (List.drop_eq_nil_iff.1 hend)] at hlook
  obtain ⟨hs, hpages⟩ := hf.sound.release
  refine ⟨pool.release g, ?_, hs, hpages⟩
  rw [advance, Action.bind_of_ok hlook]
  rfl

/-- Behind the last entry of a leaf the cursor goes to the next leaf. -/
theorem advance_hop {s : Shape 0} (hf : Faces pool gs width g offset leaf (s :: rest))
    (hend : leaf.entries.drop offset = []) (hroom : Room gs 1) (fuel : Nat) :
    ∃ g' pool', advance (fuel + 1) g offset pool = advance fuel g' 0 pool' ∧
      Faces pool' gs width g' 0 s rest ∧ pool'.pages = pool.pages := by
  have hlook : Tree.peek g (look offset) pool = .ok (.inr s.page) pool := by
    have hlook := hf.look_eq_ok
    rwa [List.getElem?_eq_none (List.drop_eq_nil_iff.1 hend)] at hlook
  obtain ⟨hs, hpages⟩ := hf.sound.release
  obtain ⟨-, hstrand⟩ := hf.strand
  obtain ⟨node, -, hpage, -⟩ := hstrand.1
  rw [← hpages] at hpage
  have hsome : s.page.isSome = true := by
    refine PageId.isSome_iff.2 (hs.ne_none_of_mem (Pool.pages_ne_none_iff.1 ?_))
    rw [hpage]
    exact Option.some_ne_none _
  obtain ⟨g', pool', hfetch, hgp, -, hs', hpages', -⟩ := Tree.fetch_read_eq_ok hs hpage
    (hf.unwritten.mono fun q hq => List.mem_singleton.1 hq ▸ List.mem_cons_self) hroom
  refine ⟨g', pool', ?_, ⟨hs', hgp, ?_, Nat.zero_le _, (Nat.lt_succ_self _).trans hf.short,
    hf.unwritten.mono fun q hq => .tail _ hq⟩, hpages'.trans hpages⟩
  · rw [advance, Action.bind_of_ok hlook]
    dsimp only
    rw [Action.modify_bind, if_pos hsome, Action.bind_of_ok hfetch]
  · rw [hpages', hpages]
    exact hstrand

/-- The entry ahead is found, in the leaf or behind it. -/
theorem advance_eq_ok (hf : Faces pool gs width g offset leaf rest) (hroom : Room gs 1) {e : Entry}
    {l : List Entry} (he : ahead offset leaf rest = e :: l) {fuel : Nat}
    (hfuel : rest.length < fuel) :
    ∃ g' pool' offset' leaf' rest',
    advance fuel g offset pool = .ok (some e, ⟨some g', offset'⟩) pool' ∧
      Faces pool' gs width g' offset' leaf' rest' ∧ ahead offset' leaf' rest' = l ∧
      pool'.pages = pool.pages := by
  induction rest generalizing pool g offset leaf fuel with
  | nil =>
    match fuel, hfuel with
    | fuel + 1, _ =>
    rw [ahead, List.flatMap_nil, List.append_nil] at he
    obtain ⟨hstep, hf', hrest⟩ := hf.advance_here he fuel
    refine ⟨g, pool, _, leaf, [], hstep, hf', ?_, rfl⟩
    rw [ahead, hrest, List.flatMap_nil, List.append_nil]
  | cons s rest ih =>
    match fuel, hfuel with
    | fuel + 1, hfuel =>
    rcases hhere : leaf.entries.drop offset with _ | ⟨e', l'⟩
    · rw [ahead, hhere, List.nil_append] at he
      obtain ⟨g', pool₁, hhop, hf', hpages⟩ := hf.advance_hop hhere hroom fuel
      obtain ⟨g'', pool', offset', leaf', rest', hrun, hf'', hl, hpages'⟩ :=
        ih hf' he (Nat.lt_of_succ_lt_succ hfuel)
      exact ⟨g'', pool', offset', leaf', rest', hhop.trans hrun, hf'', hl, hpages'.trans hpages⟩
    · obtain ⟨hstep, hf', hrest⟩ := hf.advance_here hhere fuel
      rw [ahead, hhere, List.cons_append] at he
      obtain ⟨rfl, rfl⟩ := List.cons.inj he
      refine ⟨g, pool, _, leaf, s :: rest, hstep, hf', ?_, rfl⟩
      rw [ahead, hrest]

/-- Where no entry is ahead, the cursor passes over what leaves there are. -/
theorem advance_ended (hf : Faces pool gs width g offset leaf rest) (hroom : Room gs 1)
    (he : ahead offset leaf rest = []) {fuel : Nat} (hfuel : rest.length < fuel) :
    ∃ pool', advance fuel g offset pool = .ok (none, ended) pool' ∧ pool'.Sound gs ∧
      pool'.pages = pool.pages := by
  induction rest generalizing pool g offset leaf fuel with
  | nil =>
    match fuel, hfuel with
    | fuel + 1, _ => exact hf.advance_end (List.append_eq_nil_iff.1 he).1 fuel
  | cons s rest ih =>
    match fuel, hfuel with
    | fuel + 1, hfuel =>
    obtain ⟨hhere, hrest⟩ := List.append_eq_nil_iff.1 he
    obtain ⟨g', pool₁, hhop, hf', hpages⟩ := hf.advance_hop hhere hroom fuel
    obtain ⟨pool', hrun, hs, hpages'⟩ := ih hf' hrest (Nat.lt_of_succ_lt_succ hfuel)
    exact ⟨pool', hhop.trans hrun, hs, hpages'.trans hpages⟩

/-- **The next entry.** -/
theorem next_eq_ok (hf : Faces pool gs width g offset leaf rest) (hroom : Room gs 1) {e : Entry}
    {l : List Entry} (he : ahead offset leaf rest = e :: l) :
    ∃ g' pool' offset' leaf' rest',
    Cursor.next ⟨some g, offset⟩ pool = .ok (some e, ⟨some g', offset'⟩) pool' ∧
      Faces pool' gs width g' offset' leaf' rest' ∧ ahead offset' leaf' rest' = l ∧
      pool'.pages = pool.pages :=
  hf.advance_eq_ok hroom he hf.short

/-- **The end of a walk.** -/
theorem next_end (hf : Faces pool gs width g offset leaf rest) (hroom : Room gs 1)
    (he : ahead offset leaf rest = []) :
    ∃ pool', Cursor.next ⟨some g, offset⟩ pool = .ok (none, ended) pool' ∧ pool'.Sound gs ∧
      pool'.pages = pool.pages :=
  hf.advance_ended hroom he hf.short

/-- **A walk** meets the entries ahead of the cursor, up to the first that is past the last key. -/
theorem collect_upTo_eq_ok (tree : Tree) (last : Option Key) {fuel : Nat}
    (hf : Faces pool gs width g offset leaf rest) (hroom : Room gs 1)
    (hfuel : (ahead offset leaf rest).length < fuel) :
    ∃ pool', tree.collect last fuel ⟨some g, offset⟩ pool =
        .ok ((ahead offset leaf rest).takeWhile (tree.upTo last)) pool' ∧
      pool'.Sound gs ∧ pool'.pages = pool.pages := by
  induction fuel generalizing pool g offset leaf rest with
  | zero => exact absurd hfuel (Nat.not_lt_zero _)
  | succ fuel ih =>
    rcases hahead : ahead offset leaf rest with _ | ⟨e, l⟩
    · obtain ⟨pool', hnext, hs, hpages⟩ := hf.next_end hroom hahead
      refine ⟨pool', ?_, hs, hpages⟩
      rw [Tree.collect, Action.bind_of_ok hnext]
      rfl
    obtain ⟨g', pool₁, offset', leaf', rest', hnext, hf', hl, hpages⟩ := hf.next_eq_ok hroom hahead
    rw [Tree.collect, Action.bind_of_ok hnext]
    dsimp only
    by_cases hpast : (last.any fun key => tree.order.compare e.1 key = .gt) = true
    · obtain ⟨hs, hpages'⟩ := hf'.sound.release
      refine ⟨pool₁.release g', ?_, hs, hpages'.trans hpages⟩
      rw [if_pos hpast, List.takeWhile_cons_of_neg (by simpa [Tree.upTo] using hpast)]
      rfl
    · rw [hahead, List.length_cons] at hfuel
      obtain ⟨pool', hrun, hs, hpages'⟩ := ih hf' (hl ▸ Nat.lt_of_succ_lt_succ hfuel)
      refine ⟨pool', ?_, hs, hpages'.trans hpages⟩
      rw [if_neg hpast, List.takeWhile_cons_of_pos (by simpa [Tree.upTo] using hpast)]
      exact (Action.bind_of_ok hrun).trans (by rw [hl]; rfl)

/-- **A walk to the end** meets all entries ahead of the cursor. -/
theorem collect_eq_ok (tree : Tree) {fuel : Nat} (hf : Faces pool gs width g offset leaf rest)
    (hroom : Room gs 1) (hfuel : (ahead offset leaf rest).length < fuel) :
    ∃ pool', tree.collect none fuel ⟨some g, offset⟩ pool = .ok (ahead offset leaf rest) pool' ∧
      pool'.Sound gs ∧ pool'.pages = pool.pages := by
  have hall : (ahead offset leaf rest).takeWhile (tree.upTo none) = ahead offset leaf rest :=
    List.takeWhile_eq_self_iff.2 fun _ _ => rfl
  obtain ⟨pool', hrun, hkept⟩ := hf.collect_upTo_eq_ok tree none hroom hfuel
  exact ⟨pool', hall ▸ hrun, hkept⟩

end Faces

end Cursor

/-! ## Whole trees -/

/-- A leaf has fewer entries than a page has bytes. -/
theorem Links.length_le {leaf : Shape 0} (hl : Links width P next leaf) :
    leaf.entries.length ≤ pageSize := by
  obtain ⟨node, hd, -, -, -, hblock, hholds⟩ := hl
  obtain ⟨-, -, -, -, hsize⟩ := Node.of_ofBlock hblock
  have hlen : node.size = leaf.entries.length := hholds.states.size
  have hcap : NodeKind.leaf.capacity node.keySize ≤ pageSize - 1 :=
    Nat.sub_le_sub_right ((Nat.div_le_self ..).trans (Nat.sub_le ..)) 1
  have hpos : 0 < pageSize := by decide
  omega

/-- Two leaves in one page start with the same key. -/
theorem Links.head_eq {next' : PageId} {leaf leaf' : Shape 0} (hl : Links width P next leaf)
    (hl' : Links width P next' leaf') (hp : leaf.page = leaf'.page) {e e' : Entry}
    (he : leaf.entries[0]? = some e) (he' : leaf'.entries[0]? = some e') : e.1 = e'.1 := by
  obtain ⟨node, hd, hpage, -, -, hblock, hholds⟩ := hl
  obtain ⟨node', hd', hpage', -, -, hblock', hholds'⟩ := hl'
  rw [hp, hpage'] at hpage
  rw [Option.some.inj hpage, hblock] at hblock'
  obtain rfl : node = node' := Except.ok.inj hblock'
  have hkey := hholds.key_of_getElem? he
  rw [hholds'.key_of_getElem? he'] at hkey
  exact (Except.ok.inj hkey).symm

theorem Strand.links_of_mem {l : List (Shape 0)} (hl : Strand width P next l) :
    ∀ s ∈ l, ∃ next', Links width P next' s := by
  induction l with
  | nil => exact nofun
  | cons t l ih => exact List.forall_mem_cons.2 ⟨⟨_, hl.1⟩, ih hl.2⟩

/-- No page is two leaves that hold keys, because the keys in it would have two places. -/
theorem Strand.nodup {o : KeyOrder} {l : List (Shape 0)} (hl : Strand width P next l)
    (hsorted : Sorted o (l.flatMap Content.entries)) (hfilled : ∀ s ∈ l, s.items ≠ []) :
    (l.map Content.page).Nodup := by
  obtain ⟨-, hapart⟩ := List.pairwise_flatMap.1 hsorted
  refine List.pairwise_map.2 (hapart.imp_of_mem fun {s s'} hs hs' hlt hpage => ?_)
  obtain ⟨next, hlinks⟩ := hl.links_of_mem s hs
  obtain ⟨next', hlinks'⟩ := hl.links_of_mem s' hs'
  obtain ⟨e, l, he⟩ := List.exists_cons_of_ne_nil (hfilled s hs)
  obtain ⟨e', l', he'⟩ := List.exists_cons_of_ne_nil (hfilled s' hs')
  have hmem : e ∈ s.items := he ▸ List.mem_cons_self
  have hmem' : e' ∈ s'.items := he' ▸ List.mem_cons_self
  have hkey : e.1 = e'.1 :=
    hlinks.head_eq hlinks' hpage (congrArg (·[0]?) he) (congrArg (·[0]?) he')
  have := hlt e hmem e' hmem'
  rw [hkey] at this
  exact Nat.lt_irrefl _ this

namespace Tree.Readable

variable {t : Shape h}

/-- There are no more leaves than pages. -/
theorem length_leafNodes_le (hr : tree.Readable pool.pages t) (hs : pool.Sound gs) :
    t.leafNodes.length ≤ maxLogicalPages := by
  rw [← List.length_map (f := Content.page)]
  refine hs.length_le_of_nodup hr.nodup fun p hp => ?_
  obtain ⟨s, hin, rfl⟩ := List.mem_map.1 hp
  obtain ⟨next, node, -, hpage, -⟩ := hr.strand.links_of_mem s hin
  rw [hpage]
  exact Option.some_ne_none _

/-- There are fewer entries than a walk has steps. -/
theorem length_lt (hr : tree.Readable pool.pages t) (hs : pool.Sound gs) :
    t.entries.length < Tree.walkBound := by
  have hsum : t.entries.length ≤ t.leafNodes.length * pageSize := by
    rw [Content.entries_eq_flatMap, List.length_flatMap]
    refine (List.sum_le_card_nsmul _ pageSize fun k hk => ?_).trans (by simp)
    obtain ⟨s, hin, rfl⟩ := List.mem_map.1 hk
    obtain ⟨next, hlinks⟩ := hr.strand.links_of_mem s hin
    exact hlinks.length_le
  have := Nat.mul_le_mul_right pageSize (hr.length_leafNodes_le hs)
  rw [Tree.walkBound]
  omega

/-- **A cursor in any of the leaves.** -/
theorem faces {rest : List (Shape 0)} {leaf : Shape 0} {offset : Nat} {pool' : Pool n m}
    (hr : tree.Readable pool.pages t) (hs : pool.Sound gs) (hu : Unwritten gs t.pages)
    (before : List (Shape 0)) (hcut : t.leafNodes = before ++ leaf :: rest)
    (hs' : pool'.Sound (g :: gs)) (hpages : pool'.pages = pool.pages) (hgp : g.page = leaf.page)
    (hoffset : offset ≤ leaf.entries.length) :
    Cursor.Faces pool' gs tree.keySize g offset leaf rest := by
  have hstrand := hr.strand
  have hcount := hr.length_leafNodes_le hs
  rw [hcut] at hstrand hcount
  refine ⟨hs', hgp, hpages ▸ (strand_append.1 hstrand).2, hoffset, ?_, hu.mono fun q hq => ?_⟩
  · rw [List.length_append, List.length_cons] at hcount
    rw [Cursor.stepBound]
    omega
  · obtain ⟨s, hmem, rfl⟩ := List.mem_map.1 hq
    exact Content.page_mem_of_leafNodes (hcut ▸ List.mem_append_right _ (.tail _ hmem))

/-- A cursor before the first entry. -/
theorem first_eq_ok (hr : tree.Readable pool.pages t) (hs : pool.Sound gs)
    (hu : Unwritten gs t.pages) (hroom : Room gs 1) :
    ∃ g pool' leaf rest, tree.first pool = .ok ⟨some g, 0⟩ pool' ∧
      Cursor.Faces pool' gs tree.keySize g 0 leaf rest ∧ pool'.pages = pool.pages ∧
      Cursor.ahead 0 leaf rest = t.entries := by
  obtain ⟨g, pool', leaf, rest, hleaves, hrun, hgp, hs', hpages⟩ :=
    hr.legible.descend_first_eq_ok hr.within hs hu hroom hr.height
  have hleaf : tree.findLeaf none pool = .ok (some g) pool' := by
    rw [Tree.findLeaf, if_neg hr.not_isEmpty, hr.root, Action.bind_of_ok hrun]
    rfl
  refine ⟨g, pool', leaf, rest, ?_,
    hr.faces hs hu [] hleaves hs' hpages hgp (Nat.zero_le _), hpages, ?_⟩
  · rw [Tree.first, Action.bind_of_ok hleaf]
    rfl
  · rw [Content.entries_eq_flatMap, hleaves]
    rfl

/-- **What a walk yields.** -/
theorem entries_eq_ok (hr : tree.Readable pool.pages t) (hs : pool.Sound gs)
    (hu : Unwritten gs t.pages) (hroom : Room gs 1) :
    ∃ pool', tree.entries pool = .ok t.entries pool' ∧ pool'.Sound gs ∧
      pool'.pages = pool.pages := by
  obtain ⟨g, pool₁, leaf, rest, hfirst, hf, hpages, hentries⟩ := hr.first_eq_ok hs hu hroom
  obtain ⟨pool', hcollect, hs', hpages'⟩ :=
    hf.collect_eq_ok tree hroom (hentries ▸ hr.length_lt hs)
  refine ⟨pool', ?_, hs', hpages'.trans hpages⟩
  rw [Tree.entries, Action.bind_of_ok hfirst, ← hentries]
  exact hcollect

end Tree.Readable

/-- Without room no walk begins. -/
theorem Tree.entries_eq_error (hs : pool.Sound gs) (hempty : ¬tree.isEmpty = true)
    (hp : pool.pages tree.root ≠ none) (hfree : ∀ g ∈ gs, g.page ≠ tree.root) (hroom : ¬Room gs 1) :
    ∃ pool', tree.entries pool = .error (.refused .poolFull) pool' := by
  obtain ⟨pool', hleaf⟩ := Tree.findLeaf_eq_error hs hempty hp hfree hroom none
  refine ⟨pool', ?_⟩
  rw [Tree.entries, Tree.first, Action.bind_of_error (Action.bind_of_error hleaf)]

/-- A tree without keys has no entries. -/
theorem Tree.entries_of_empty (hroot : tree.root = .none) : tree.entries pool = .ok [] pool := by
  have hfirst : tree.first pool = .ok ⟨none, 0⟩ pool := by
    have hleaf : tree.findLeaf none pool = .ok none pool := by
      rw [Tree.findLeaf, if_pos (Tree.isEmpty_iff.2 hroot)]
      rfl
    rw [Tree.first, Action.bind_of_ok hleaf]
    rfl
  rw [Tree.entries, Action.bind_of_ok hfirst]
  rfl

end PageStore
