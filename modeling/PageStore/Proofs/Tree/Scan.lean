import PageStore.Proofs.Tree.Plot

/-!
# Scans

A scan yields a slice of the entries of a tree: all of them, those from a key on, or those between
two keys. `Tree.Readable.scans` is that of any tree that can be read. Where a scan starts is told by
the descent: the leaves before the one that it ends in have smaller keys, and those behind it
greater ones, so that nothing is missed when the key lies in the gap between two leaves.

`Index.always_scans` is for a tree that was set up without keys, with or without a record of its
root: after any run of changes, its entries are those of the map that the changes make.
-/

namespace PageStore

open Pool

variable {n m : Nat} {h width : Nat} {pool : Pool n m} {gs : List (Guard n)} {g : Guard n}
  {tree : Tree} {key : Key} {x y : Index n m} {l : List PageId} {E : List Entry} {M : RowMap}

/-! ## What a cursor yields -/

namespace Cursor

/-- The cursor yields these entries one after the other, and then is at its end. -/
def Yields : Cursor n → Pool n m → List Entry → Prop
  | c, pool, [] => ∃ pool', c.next pool = .ok (none, ended) pool'
  | c, pool, e :: l => ∃ c' pool', c.next pool = .ok (some e, c') pool' ∧ c'.Yields pool' l

theorem yields_ended (pool : Pool n m) : (ended : Cursor n).Yields pool [] := ⟨pool, rfl⟩

/-- **A cursor yields what is ahead of it.** -/
theorem Faces.yields {offset : Nat} {leaf : Shape 0} {rest : List (Shape 0)}
    (hf : Faces pool gs width g offset leaf rest) (hroom : Room gs 1) :
    Yields ⟨some g, offset⟩ pool (ahead offset leaf rest) := by
  generalize hl : ahead offset leaf rest = l
  induction l generalizing pool g offset leaf rest with
  | nil =>
    obtain ⟨pool', hnext, -⟩ := hf.next_end hroom hl
    exact ⟨pool', hnext⟩
  | cons e l ih =>
    obtain ⟨g', pool', offset', leaf', rest', hnext, hf', hl', -⟩ := hf.next_eq_ok hroom hl
    exact ⟨⟨some g', offset'⟩, pool', hnext, ih hf' hl'⟩

end Cursor

/-! ## Slices -/

section Slices

variable {o : KeyOrder} {pre post : List Entry}

/-- The key of the entry is not less than the key. -/
def KeyOrder.atLeast (o : KeyOrder) (key : Key) (e : Entry) : Bool := o.compare e.1 key ≠ .lt

/-- The key of the entry is not greater than the key. -/
def KeyOrder.atMost (o : KeyOrder) (key : Key) (e : Entry) : Bool := o.compare e.1 key ≠ .gt

theorem KeyOrder.atLeast_iff {e : Entry} (hw : e.1.length = key.length) :
    o.atLeast key e = true ↔ o.rank key ≤ o.rank e.1 := by
  rw [atLeast, decide_eq_true_iff, ne_eq, compare_eq_lt_iff hw, Nat.not_lt]

theorem KeyOrder.atMost_iff {e : Entry} (hw : e.1.length = key.length) :
    o.atMost key e = true ↔ o.rank e.1 ≤ o.rank key := by
  rw [atMost, decide_eq_true_iff, ne_eq, compare_eq_gt_iff hw, Nat.not_lt]

/-- Where the entries are cut at the place of a key, those that are not less come behind. -/
theorem filter_atLeast (hw : ∀ e ∈ pre ++ post, e.1.length = key.length)
    (hpre : Below o (o.rank key) pre) (hpost : ∀ e ∈ post, o.rank key ≤ o.rank e.1) :
    (pre ++ post).filter (o.atLeast key) = post := by
  obtain ⟨hwpre, hwpost⟩ := List.forall_mem_append.1 hw
  rw [List.filter_append, List.filter_eq_nil_iff.2, List.filter_eq_self.2, List.nil_append]
  · intro e he
    exact (KeyOrder.atLeast_iff (hwpost e he)).2 (hpost e he)
  · intro e he hle
    have := hpre e he
    have := (KeyOrder.atLeast_iff (hwpre e he)).1 hle
    omega

/-- In key order, those that are not greater come first. -/
theorem takeWhile_atMost (hs : Sorted o E) (hw : ∀ e ∈ E, e.1.length = key.length) :
    E.takeWhile (o.atMost key) = E.filter (o.atMost key) := by
  induction E with
  | nil => rfl
  | cons e E ih =>
    obtain ⟨hfirst, hrest⟩ := List.pairwise_cons.1 hs
    obtain ⟨hwe, hwrest⟩ := List.forall_mem_cons.1 hw
    by_cases hle : o.atMost key e = true
    · rw [List.takeWhile_cons_of_pos hle, List.filter_cons_of_pos hle, ih hrest hwrest]
    · rw [List.takeWhile_cons_of_neg hle, List.filter_cons_of_neg hle, List.filter_eq_nil_iff.2]
      intro d hd hle'
      have := hfirst d hd
      have := (KeyOrder.atMost_iff (hwrest d hd)).1 hle'
      exact hle ((KeyOrder.atMost_iff hwe).2 (by omega))

/-- Nothing lies between two keys of which the first is greater. -/
theorem filter_between_eq_nil {low high : Key} (hw : ∀ e ∈ E, e.1.length = low.length)
    (hlen : low.length = high.length) (hgt : o.compare low high = .gt) :
    E.filter (fun e => o.atLeast low e && o.atMost high e) = [] := by
  have hlt := (KeyOrder.compare_eq_gt_iff hlen).1 hgt
  refine List.filter_eq_nil_iff.2 fun e he hin => ?_
  rw [Bool.and_eq_true, KeyOrder.atLeast_iff (hw e he),
    KeyOrder.atMost_iff ((hw e he).trans hlen)] at hin
  omega

end Slices

/-! ## Any tree that can be read -/

/-- **What scans of a tree yield** that has these entries. -/
structure Tree.Scans (tree : Tree) (pool : Pool n m) (E : List Entry) : Prop where
  /-- from the first entry on -/
  first : ∃ c pool', tree.first pool = .ok c pool' ∧ c.Yields pool' E
  /-- all at once -/
  entries : ∃ pool', tree.entries pool = .ok E pool'
  /-- from the first entry on whose key is not less -/
  seek : ∀ key : Key, key.length = tree.keySize → ∃ c pool', tree.seek key pool = .ok c pool' ∧
    c.Yields pool' (E.filter (tree.order.atLeast key))
  /-- from the entry of a key on, or none if there is no such entry -/
  seekExact : ∀ key : Key, key.length = tree.keySize → ∃ c pool',
    tree.seekExact key pool = .ok c pool' ∧
      c.Yields pool' (if key ∈ E.map Prod.fst then E.filter (tree.order.atLeast key) else [])
  /-- between two keys, and none if the first is greater -/
  range : ∀ low high : Key, low.length = tree.keySize → high.length = tree.keySize →
    ∃ found pool', tree.range low high pool = .ok found pool' ∧
      found = E.filter (fun e => tree.order.atLeast low e && tree.order.atMost high e) ∧
      (tree.order.compare low high = .gt → found = [])

namespace Tree

/-- A tree without keys has no place for a key. -/
theorem locate_of_empty (hroot : tree.root = .none) (hkey : key.length = tree.keySize) :
    tree.locate key pool = .ok none pool := by
  have hcheck : tree.checkKey key = .ok () := Tree.checkKey_eq_ok hkey
  have hleaf : tree.findLeaf (some key) pool = .ok none pool := by
    rw [findLeaf, if_pos (isEmpty_iff.2 hroot)]
    rfl
  rw [locate, Action.bind_of_ok (Action.check_ok hcheck pool), Action.bind_of_ok hleaf]
  rfl

/-- Scans of a tree without keys. -/
theorem scans_of_empty (hroot : tree.root = .none) : tree.Scans pool [] := by
  have hseek : ∀ key : Key, key.length = tree.keySize →
      tree.seek key pool = .ok Cursor.ended pool := fun key hkey => by
    rw [seek, Action.bind_of_ok (locate_of_empty hroot hkey)]
    rfl
  refine ⟨⟨.ended, pool, ?_, Cursor.yields_ended pool⟩, ⟨pool, entries_of_empty hroot⟩,
    fun key hkey => ⟨.ended, pool, hseek key hkey, Cursor.yields_ended pool⟩,
    fun key hkey => ⟨.ended, pool, ?_, Cursor.yields_ended pool⟩,
    fun low high hlow hhigh => ⟨[], pool, ?_, rfl, fun _ => rfl⟩⟩
  · have hleaf : tree.findLeaf none pool = .ok none pool := by
      rw [findLeaf, if_pos (isEmpty_iff.2 hroot)]
      rfl
    rw [first, Action.bind_of_ok hleaf]
    rfl
  · rw [seekExact, Action.bind_of_ok (locate_of_empty hroot hkey)]
    rfl
  · have hcheck : tree.checkKey high = .ok () := Tree.checkKey_eq_ok hhigh
    rw [range, Action.bind_of_ok (Action.check_ok hcheck pool), Action.bind_of_ok (hseek low hlow)]
    rfl

namespace Readable

variable {t : Shape h}

/-- **The place of a key** is in a leaf, and the entries from there on are those whose keys are not
less. -/
theorem locate_eq_ok (hr : tree.Readable pool.pages t) (hs : pool.Sound gs)
    (hu : Unwritten gs t.pages) (hroom : Room gs 1) (hkey : key.length = tree.keySize) :
    ∃ g pool' leaf rest place, tree.locate key pool = .ok (some (g, place)) pool' ∧
      Cursor.Faces pool' gs tree.keySize g place.index leaf rest ∧
      Cursor.ahead place.index leaf rest = t.entries.filter (tree.order.atLeast key) ∧
      place =
        if key ∈ t.entries.map Prod.fst then .found place.index else .missing place.index := by
  obtain ⟨g, pool', before, leaf, behind, hleaf, hs', hpages, hgp, hfinds⟩ :=
    hr.findLeaf_eq_ok hs hu hroom hkey
  obtain ⟨pre, post, hpre, hpost, hplace⟩ := hfinds.place
  have hlocate : ∀ place, Leaf.locate tree.order key (pool'.bytes g) = .ok place →
      tree.locate key pool = .ok (some (g, place)) pool' := fun place hlook => by
    have hcheck : tree.checkKey key = .ok () := Tree.checkKey_eq_ok hkey
    have hpeek := peek_eq_ok (Leaf.locate tree.order key) hlook
    rw [locate, Action.bind_of_ok (Action.check_ok hcheck pool), Action.bind_of_ok hleaf]
    exact Action.bind_of_ok hpeek
  have hwidth : ∀ e ∈ t.entries, e.1.length = key.length := fun e he =>
    (hr.legible.length_key e he).trans hkey.symm
  have hentries := Content.entries_of_leafNodes hfinds.cut
  -- what is in the leaf from the place on, and what is in the leaves behind it
  have hfaces : ∀ rest, leaf.entries = pre ++ rest →
      Cursor.Faces pool' gs tree.keySize g pre.length leaf behind ∧
        Cursor.ahead pre.length leaf behind = rest ++ behind.flatMap Content.entries ∧
        t.entries = (before.flatMap Content.entries ++ pre) ++
          (rest ++ behind.flatMap Content.entries) := fun rest hcut => by
    refine ⟨hr.faces hs hu before hfinds.cut hs' hpages hgp ?_, ?_, ?_⟩
    · rw [hcut, List.length_append]
      exact Nat.le_add_right ..
    · rw [Cursor.ahead, hcut, List.drop_left]
    · rw [hentries, hcut]
      simp only [List.append_assoc]
  rcases hplace with ⟨row, hcut, hfound, -⟩ | ⟨hcut, hmissing, -⟩
  · obtain ⟨hf, hahead, hwhole⟩ := hfaces _ hcut
    have hin : key ∈ t.entries.map Prod.fst := List.mem_map.2 ⟨(key, row), by simp [hwhole], rfl⟩
    refine ⟨g, pool', leaf, behind, .found pre.length, hlocate _ hfound, hf, ?_, (if_pos hin).symm⟩
    rw [hwhole] at hwidth ⊢
    rw [filter_atLeast hwidth hpre]
    · exact hahead
    · exact List.forall_mem_cons.2 ⟨Nat.le_refl _, fun e he => (hpost e he).le⟩
  · obtain ⟨hf, hahead, hwhole⟩ := hfaces _ hcut
    have hout : key ∉ t.entries.map Prod.fst := fun hin => by
      obtain ⟨⟨_, row⟩, hmem, rfl⟩ := List.mem_map.1 hin
      rw [hwhole] at hmem
      exact not_mem_of_place hpre hpost row hmem
    refine ⟨g, pool', leaf, behind, .missing pre.length, hlocate _ hmissing, hf, ?_,
      (if_neg hout).symm⟩
    rw [hwhole] at hwidth ⊢
    rw [filter_atLeast hwidth hpre fun e he => (hpost e he).le]
    exact hahead

/-- **A range.** -/
theorem range_eq_ok (hr : tree.Readable pool.pages t) (hs : pool.Sound gs)
    (hu : Unwritten gs t.pages) (hroom : Room gs 1) {low high : Key}
    (hlow : low.length = tree.keySize) (hhigh : high.length = tree.keySize) :
    ∃ pool', tree.range low high pool = .ok (t.entries.filter fun e =>
      tree.order.atLeast low e && tree.order.atMost high e) pool' := by
  obtain ⟨g, pool₁, leaf, rest, place, hlocate, hf, hahead, -⟩ :=
    hr.locate_eq_ok hs hu hroom hlow
  have hseek : tree.seek low pool = .ok ⟨some g, place.index⟩ pool₁ := by
    rw [seek, Action.bind_of_ok hlocate]
    rfl
  have hshort : (Cursor.ahead place.index leaf rest).length < walkBound := by
    rw [hahead]
    exact (List.length_filter_le ..).trans_lt (hr.length_lt hs)
  obtain ⟨pool', hcollect, -⟩ := hf.collect_upTo_eq_ok tree (some high) hroom hshort
  have hslice : (Cursor.ahead place.index leaf rest).takeWhile (tree.upTo (some high)) =
      t.entries.filter fun e => tree.order.atLeast low e && tree.order.atMost high e := by
    have hupTo : tree.upTo (some high) = tree.order.atMost high := funext fun e => by
      simp [upTo, KeyOrder.atMost]
    rw [hahead, hupTo, takeWhile_atMost (hr.sorted.filter _), List.filter_filter]
    · simp only [Bool.and_comm]
    · intro e he
      exact (hr.legible.length_key e (List.mem_of_mem_filter he)).trans hhigh.symm
  have hcheck : tree.checkKey high = .ok () := Tree.checkKey_eq_ok hhigh
  refine ⟨pool', ?_⟩
  rw [range, Action.bind_of_ok (Action.check_ok hcheck pool), Action.bind_of_ok hseek, ← hslice]
  exact hcollect

/-- **Scans of a tree that can be read** yield the right slices of its entries. -/
theorem scans (hr : tree.Readable pool.pages t) (hs : pool.Sound gs) (hu : Unwritten gs t.pages)
    (hroom : Room gs 1) : tree.Scans pool t.entries := by
  refine ⟨?_, ?_, fun key hkey => ?_, fun key hkey => ?_, fun low high hlow hhigh => ?_⟩
  · obtain ⟨g, pool', leaf, rest, hfirst, hf, -, hentries⟩ := hr.first_eq_ok hs hu hroom
    exact ⟨_, pool', hfirst, hentries ▸ hf.yields hroom⟩
  · obtain ⟨pool', hrun, -⟩ := hr.entries_eq_ok hs hu hroom
    exact ⟨pool', hrun⟩
  · obtain ⟨g, pool', leaf, rest, place, hlocate, hf, hahead, -⟩ :=
      hr.locate_eq_ok hs hu hroom hkey
    refine ⟨⟨some g, place.index⟩, pool', ?_, hahead ▸ hf.yields hroom⟩
    rw [seek, Action.bind_of_ok hlocate]
    rfl
  · obtain ⟨g, pool', leaf, rest, place, hlocate, hf, hahead, hplace⟩ :=
      hr.locate_eq_ok hs hu hroom hkey
    rw [seekExact, Action.bind_of_ok hlocate, hplace]
    by_cases hin : key ∈ t.entries.map Prod.fst
    · rw [if_pos hin, if_pos hin]
      exact ⟨⟨some g, place.index⟩, pool', rfl, hahead ▸ hf.yields hroom⟩
    · rw [if_neg hin, if_neg hin]
      exact ⟨.ended, pool'.release g, rfl, Cursor.yields_ended _⟩
  · obtain ⟨pool', hrun⟩ := hr.range_eq_ok hs hu hroom hlow hhigh
    refine ⟨_, pool', hrun, rfl, filter_between_eq_nil (fun e he => ?_) (hlow.trans hhigh.symm)⟩
    exact (hr.legible.length_key e he).trans hlow.symm

end Readable

end Tree

/-! ## Trees that were changed -/

namespace Index

/-- **Scans of an index**, wherever its pages are and whatever guards are out: they need one frame
that is free of them, and nobody who writes to its pages. -/
theorem Occupies.scans_of (hx : x.Occupies gs l E) {n' m' : Nat} {pool' : Pool n' m'}
    {gs' : List (Guard n')} (hs : pool'.Sound gs') (hP : ∀ q ∈ l, pool'.pages q = x.pool.pages q)
    (hu : Unwritten gs' l) (hroom : Room gs' 1) : x.tree.Scans pool' E := by
  rcases hx.shape with ⟨hroot, rfl, -⟩ | ⟨d, h, t, ht, rfl, rfl⟩
  · exact Tree.scans_of_empty hroot
  · exact (ht.readable_of hP).scans hs hu hroom

theorem Occupies.scans (hx : x.Occupies gs l E) (hroom : Room gs 1) : x.tree.Scans x.pool E :=
  hx.scans_of hx.sound (fun _ _ => rfl) (.of_apart hx.free) hroom

/-- **Scans yield exactly the right slice.** On a new file, after any use of the pool, whatever
settings the pool and the space are opened with: a tree is set up without keys, with or without a
record of its root. After every run of insertions, removals and destructions that all return, with
any moves of others in between that keep off the tree, it has the entries of the map that the
changes make, in the order of its keys. Whatever guards are out by then, or are taken before a scan,
and as long as they leave the tree readable and one frame free, every scan yields the entries that
it asks for. -/
theorem always_scans {config : PoolConfig} {disk : SpaceConfig} (hconfig : config.validate = .ok ())
    (hdisk : disk.validate = .ok ()) {v : Volume} (hv : v.openFile = .ok {}) (uses : List PoolCall)
    (plan : Planting) :
    ∃ o, OpenPool.start config disk v = .ok o ∧ ∀ tree pool,
      plan.run (o.after uses).pool = .ok tree pool → tree.root = .none →
      ∀ (edits : List TreeEdit) (p : Plot),
        Plot.Becomes ⟨tree, ⟨_, _, pool, (o.after uses).guards⟩⟩ edits p →
        p.tree.order = plan.order ∧ p.tree.keySize = plan.keySize ∧
        ∃ E : List Entry, (E.Pairwise fun e e' => plan.order.compare e.1 e'.1 = .lt) ∧
          (∀ key row, (key, row) ∈ E ↔ (edits.foldl TreeEdit.after ∅).lookup key = some row) ∧
          p.LeftReadable p.pool ∧
          ∀ (moves : List Move) (o' : OpenPool), p.pool.through moves = some o' →
            p.LeftReadable o' → Room o'.guards 1 → p.tree.Scans o'.pool E := by
  obtain ⟨o, hstart, -, h⟩ := OpenPool.start_fresh hconfig hdisk hv
  refine ⟨o, hstart, fun tree pool hplan hroot edits p hbecomes => ?_⟩
  have hsound := OpenPool.sound_after h uses
  obtain ⟨-, -, -, -, horder, hwidth⟩ := Planting.of_run hsound hplan hroot
  obtain ⟨⟨l, E, hx⟩, root, htree⟩ := hbecomes.carries (Q := fun _ _ => True) tree.maintains_true
    (.of_planting hsound hplan hroot)
  have hsame : p.tree.order = plan.order := (congrArg Tree.order htree).trans horder
  have howns : ∀ q, p.Owns q ↔ q ∈ l := fun q => hx.carries.occupies.walksTo_iff
  refine ⟨hsame, (congrArg Tree.keySize htree).trans hwidth, E,
    hsame ▸ hx.carries.occupies.increasing, fun key row => (hx.shows key row).symm,
    ⟨fun _ _ => rfl, fun g hg hown => ?_⟩, fun moves o' hmoves hleft hroom => ?_⟩
  · exact absurd ((howns _).1 hown) (hx.carries.occupies.free g hg)
  · have hs := OpenPool.sound_through moves hx.occupies.sound hmoves
    exact hx.carries.occupies.scans_of hs (fun q hq => hleft.bytes q ((howns q).2 hq))
      (fun g hg hin => hleft.unwritten g hg ((howns _).2 hin)) hroom

/-- A tree with two levels, in a pool with one frame that is free by the time of the scan. -/
theorem always_scans_one : ∃ o tree p,
    OpenPool.start ⟨2, .lru⟩ ⟨1⟩ .missing = .ok o ∧
    Planting.run ⟨.bytewise, 1, ⟨some 3, some 3⟩, none⟩ o.pool = .ok tree o.pool ∧
    Plot.Becomes ⟨tree, o⟩ (TreeEdit.inserts tens) p ∧
    p.tree.HasLevels p.pool.pool.pages 2 ∧ Room p.pool.guards 1 ∧ ¬Room p.pool.guards 2 ∧
    ∃ E : List Entry, ([40], ⟨⟨5⟩, 4⟩) ∈ E ∧ p.tree.Scans p.pool.pool E := by
  obtain ⟨o, tree, p, hstart, hplan, hroot, hbecomes, hlevels, hone, htwo⟩ := Plot.exists_tens
  obtain ⟨o', hstart', h⟩ := @always_scans ⟨2, .lru⟩ ⟨1⟩ rfl rfl .missing rfl []
    ⟨.bytewise, 1, ⟨some 3, some 3⟩, none⟩
  obtain rfl : o = o' := Except.ok.inj (hstart.symm.trans hstart')
  obtain ⟨-, -, E, -, hE, hleft, hscans⟩ :=
    h tree o.pool hplan hroot (TreeEdit.inserts tens) p hbecomes
  refine ⟨o, tree, p, hstart, hplan, hbecomes, hlevels, hone, htwo, E, (hE _ _).2 ?_,
    hscans [] p.pool rfl hleft hone⟩
  decide

end Index

end PageStore
