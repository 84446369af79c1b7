import Mathlib.Data.List.Basic
import PageStore.Roots

/-!
# A roots page is a map

A page that records no index twice is a map from indices to roots: `Distinct.get?_eq_some_iff`. What
`set` and `erase` do to it is told by the records alone, `Distinct.set` and `Distinct.erase`. Both
leave such a page, and both leave the roots of other indices as they are, although `erase` moves a
record: `Distinct.get?_set`, `Distinct.get?_erase`.
-/

namespace PageStore.Roots

variable {b b' : Page} {i j : UInt32} {root q : PageId} {s t : Slot}

/-- No index is recorded twice. -/
def Distinct (b : Page) : Prop :=
  ∀ s t : Slot, s.val < count b → t.val < count b → indexAt b s = indexAt b t → s = t

/-- There is a record of the index with the root. -/
def Records (b : Page) (i : UInt32) (root : PageId) : Prop :=
  ∃ s : Slot, s.val < count b ∧ indexAt b s = i ∧ rootAt b s = root

/-- A page of zeros records no index twice. -/
theorem distinct_zero : Distinct (Block.zero pageSize) := by
  intro s t hs
  rw [count_zero] at hs
  exact absurd hs (Nat.not_lt_zero _)

/-! ## Looking an index up -/

theorem mem_slots_iff : s ∈ slots b ↔ s.val < count b := by
  rw [slots, List.mem_take_iff_getElem]
  constructor
  · rintro ⟨k, hk, rfl⟩
    rw [List.getElem_finRange]
    exact Nat.lt_of_lt_of_le hk (Nat.min_le_left ..)
  · intro hs
    refine ⟨s.val, ?_, by simp⟩
    rw [List.length_finRange]
    exact Nat.lt_min.2 ⟨hs, s.isLt⟩

theorem find?_some (h : find? b i = some s) : s.val < count b ∧ indexAt b s = i := by
  rw [find?] at h
  exact ⟨mem_slots_iff.1 (List.mem_of_find?_eq_some h), by simpa using List.find?_some h⟩

theorem find?_none (h : find? b i = none) (hs : s.val < count b) : indexAt b s ≠ i := fun hi =>
  List.find?_eq_none.1 h s (mem_slots_iff.2 hs) (decide_eq_true hi)

/-- In a page of zeros nothing is found. -/
theorem get?_zero (i : UInt32) : get? (Block.zero pageSize) i = none := by
  cases hfind : find? (Block.zero pageSize) i with
  | none => rw [get?, hfind, Option.map_none]
  | some s =>
    have hs := (find?_some hfind).1
    rw [count_zero] at hs
    exact absurd hs (Nat.not_lt_zero _)

/-- **What is looked up** is what is recorded. -/
theorem Distinct.get?_eq_some_iff (hd : Distinct b) : get? b i = some root ↔ Records b i root := by
  constructor
  · intro hget
    obtain ⟨s, hfind, hroot⟩ := Option.map_eq_some_iff.1 hget
    obtain ⟨hs, hi⟩ := find?_some hfind
    exact ⟨s, hs, hi, hroot⟩
  · rintro ⟨s, hs, rfl, rfl⟩
    rw [get?]
    cases hfind : find? b (indexAt b s) with
    | none => exact absurd rfl (find?_none hfind hs)
    | some t =>
      obtain ⟨ht, hi⟩ := find?_some hfind
      rw [hd t s ht hs hi]
      rfl

/-- An index has the same root in two pages that record the same of it. -/
theorem Distinct.get?_congr (hd : Distinct b) (hd' : Distinct b')
    (h : ∀ root, Records b' i root ↔ Records b i root) : get? b' i = get? b i :=
  Option.ext fun root => by rw [hd'.get?_eq_some_iff, hd.get?_eq_some_iff, h]

/-! ## Other counts -/

theorem indexAt_setWord_zero (b : Page) (s : Slot) (w : UInt32) :
    indexAt (b.setWord 0 w) s = indexAt b s :=
  Block.word_setWord_of_disjoint _ _ _ (by omega)

theorem rootAt_setWord_zero (b : Page) (s : Slot) (w : UInt32) :
    rootAt (b.setWord 0 w) s = rootAt b s :=
  congrArg PageId.mk (Block.word_setWord_of_disjoint _ _ _ (by omega))

theorem count_setWord_zero (b : Page) {k : Nat} (hk : k ≤ maxIndexRoots) :
    count (b.setWord 0 (UInt32.ofNat k)) = k := by
  have hsmall : maxIndexRoots < 2 ^ 32 := by decide
  rw [count, Block.word_setWord, UInt32.toNat_ofNat', Nat.mod_eq_of_lt (by omega),
    Nat.min_eq_left hk]

/-! ## Recording a root -/

/-- The record of an index gets another root. -/
theorem Distinct.put (hd : Distinct b) (hs : s.val < count b) (hi : indexAt b s = i) :
    Distinct (Roots.put b s i root) ∧
      ∀ j q, Records (Roots.put b s i root) j q ↔ (j = i ∧ q = root) ∨ (j ≠ i ∧ Records b j q) := by
  have hindex : ∀ t, indexAt (Roots.put b s i root) t = indexAt b t := fun t => by
    by_cases ht : s = t
    · rw [← ht, indexAt_put_self, hi]
    · exact indexAt_put_of_ne b i root ht
  refine ⟨fun t t' ht ht' htt => ?_, fun j q => ⟨?_, ?_⟩⟩
  · rw [count_put] at ht ht'
    rw [hindex, hindex] at htt
    exact hd t t' ht ht' htt
  · rintro ⟨t, ht, rfl, rfl⟩
    rw [count_put] at ht
    rw [hindex]
    by_cases hst : s = t
    · subst hst
      exact .inl ⟨hi, rootAt_put_self ..⟩
    · refine .inr ⟨fun hti => hst (hd s t hs ht (hi.trans hti.symm)), t, ht, rfl, ?_⟩
      exact (rootAt_put_of_ne b i root hst).symm
  · rintro (⟨rfl, rfl⟩ | ⟨hji, t, ht, rfl, rfl⟩)
    · exact ⟨s, (count_put ..).symm ▸ hs, indexAt_put_self .., rootAt_put_self ..⟩
    · have hst : s ≠ t := fun e => hji (e ▸ hi)
      exact ⟨t, (count_put ..).symm ▸ ht, hindex t, rootAt_put_of_ne b i root hst⟩

/-- A record is added behind the others. -/
theorem Distinct.add (hd : Distinct b) (hroom : count b < maxIndexRoots)
    (hnew : ∀ t : Slot, t.val < count b → indexAt b t ≠ i)
    (hb' : b' = (Roots.put b ⟨count b, hroom⟩ i root).setWord 0 (UInt32.ofNat (count b + 1))) :
    Distinct b' ∧ ∀ j q, Records b' j q ↔ (j = i ∧ q = root) ∨ (j ≠ i ∧ Records b j q) := by
  obtain ⟨last, hlast⟩ : ∃ last : Slot, last.val = count b := ⟨⟨count b, hroom⟩, rfl⟩
  obtain rfl : last = ⟨count b, hroom⟩ := Fin.ext hlast
  have hcount : count b' = count b + 1 := hb' ▸ count_setWord_zero _ hroom
  have hself : indexAt b' ⟨count b, hroom⟩ = i ∧ rootAt b' ⟨count b, hroom⟩ = root := by
    rw [hb', indexAt_setWord_zero, rootAt_setWord_zero]
    exact ⟨indexAt_put_self .., rootAt_put_self ..⟩
  have hothers : ∀ t : Slot, t.val < count b → indexAt b' t = indexAt b t ∧
    rootAt b' t = rootAt b t :=
    fun t ht => by
      have hne : (⟨count b, hroom⟩ : Slot) ≠ t := fun e => Nat.lt_irrefl _ (hlast ▸ e ▸ ht)
      rw [hb', indexAt_setWord_zero, rootAt_setWord_zero]
      exact ⟨indexAt_put_of_ne _ _ _ hne, rootAt_put_of_ne _ _ _ hne⟩
  have hcases : ∀ t : Slot, t.val < count b' → t.val < count b ∨ t = ⟨count b, hroom⟩ :=
    fun t ht => by
      rw [hcount] at ht
      exact (Nat.lt_succ_iff_lt_or_eq.1 ht).imp_right fun e => Fin.ext e
  refine ⟨fun t t' ht ht' htt => ?_, fun j q => ⟨?_, ?_⟩⟩
  · rcases hcases t ht with ht | rfl <;> rcases hcases t' ht' with ht' | rfl
    · rw [(hothers t ht).1, (hothers t' ht').1] at htt
      exact hd t t' ht ht' htt
    · rw [(hothers t ht).1, hself.1] at htt
      exact absurd htt (hnew t ht)
    · rw [(hothers t' ht').1, hself.1] at htt
      exact absurd htt.symm (hnew t' ht')
    · rfl
  · rintro ⟨t, ht, rfl, rfl⟩
    rcases hcases t ht with ht | rfl
    · rw [(hothers t ht).1, (hothers t ht).2]
      exact .inr ⟨hnew t ht, t, ht, rfl, rfl⟩
    · exact .inl hself
  · rintro (⟨rfl, rfl⟩ | ⟨hji, t, ht, rfl, rfl⟩)
    · exact ⟨⟨count b, hroom⟩, hcount ▸ Nat.lt_succ_self _, hself⟩
    · exact ⟨t, hcount ▸ Nat.lt_succ_of_lt ht, hothers t ht⟩

/-- **Recording a root** changes the root of one index. -/
theorem Distinct.set (hd : Distinct b) (h : Roots.set b i root = some b') :
    Distinct b' ∧ ∀ j q, Records b' j q ↔ (j = i ∧ q = root) ∨ (j ≠ i ∧ Records b j q) := by
  rw [Roots.set] at h
  cases hfind : find? b i with
  | some s =>
    rw [hfind] at h
    obtain rfl := Option.some.inj h
    obtain ⟨hs, hi⟩ := find?_some hfind
    exact hd.put hs hi
  | none =>
    rw [hfind] at h
    dsimp only at h
    split at h
    · next hroom => exact hd.add hroom (fun t => find?_none hfind) (Option.some.inj h).symm
    · cases h

/-- As a map, the page has that root for the index, and the others that it had. -/
theorem Distinct.get?_set (hd : Distinct b) (h : Roots.set b i root = some b') :
    Distinct b' ∧ ∀ j, get? b' j = if j = i then some root else get? b j := by
  obtain ⟨hd', hrecords⟩ := hd.set h
  refine ⟨hd', fun j => ?_⟩
  split
  · next hj => exact hd'.get?_eq_some_iff.2 ((hrecords j root).2 (.inl ⟨hj, rfl⟩))
  · next hj =>
    refine hd.get?_congr hd' fun q => (hrecords j q).trans ?_
    exact ⟨fun hc => (hc.resolve_left fun he => hj he.1).2, fun hq => .inr ⟨hj, hq⟩⟩

/-- Only a page without room refuses a root, and only one for a new index. -/
theorem set_eq_none_iff :
    Roots.set b i root = none ↔ get? b i = none ∧ count b = maxIndexRoots := by
  rw [Roots.set, get?, Option.map_eq_none_iff]
  cases hfind : find? b i with
  | some s => exact iff_of_false (Option.some_ne_none _) fun hc => Option.some_ne_none _ hc.1
  | none =>
    have hle := count_le b
    dsimp only
    split
    · next hroom => exact iff_of_false (Option.some_ne_none _) fun hc => Nat.ne_of_lt hroom hc.2
    · next hfull => exact iff_of_true rfl ⟨rfl, Nat.le_antisymm hle (Nat.le_of_not_lt hfull)⟩

/-- There is room for a root as long as the page is not full, or has a record of the index. -/
theorem exists_set (h : count b < maxIndexRoots ∨ get? b i ≠ none) (root : PageId) :
    ∃ b', Roots.set b i root = some b' := by
  rw [← Option.ne_none_iff_exists']
  intro hset
  obtain ⟨hnone, hfull⟩ := set_eq_none_iff.1 hset
  exact h.elim (fun hroom => Nat.ne_of_lt hroom hfull) fun hsome => hsome hnone

/-! ## Dropping a record -/

/-- Where the record in place `t` comes from when the one in place `s` is dropped. -/
def source (b : Page) (s t : Slot) : Slot := if t = s then lastSlot b else t

theorem source_self (b : Page) (s : Slot) : source b s s = lastSlot b := if_pos rfl

theorem source_of_ne (b : Page) (h : t ≠ s) : source b s t = t := if_neg h

/-- The place before the last one is as far as the records go then. -/
theorem source_lt (ht : t.val < count b - 1) : (source b s t).val < count b ∧ source b s t ≠ s := by
  have hlast : (lastSlot b).val = count b - 1 := rfl
  by_cases hts : t = s
  · rw [hts, source_self]
    refine ⟨by omega, fun e => ?_⟩
    rw [hts, ← e] at ht
    exact Nat.lt_irrefl _ ht
  · rw [source_of_ne b hts]
    exact ⟨by omega, hts⟩

/-- No two records come from one place. -/
theorem source_inj {t' : Slot} (ht : t.val < count b - 1) (ht' : t'.val < count b - 1)
    (h : source b s t = source b s t') : t = t' := by
  by_cases hts : t = s <;> by_cases hts' : t' = s
  · rw [hts, hts']
  · rw [hts, source_self, source_of_ne b hts'] at h
    rw [← h] at ht'
    exact absurd ht' (Nat.lt_irrefl _)
  · rw [hts', source_self, source_of_ne b hts] at h
    rw [h] at ht
    exact absurd ht (Nat.lt_irrefl _)
  · rwa [source_of_ne b hts, source_of_ne b hts'] at h

/-- Every record but the dropped one goes somewhere. -/
theorem exists_source (hs : s.val < count b) (ht : t.val < count b) (hne : t ≠ s) :
    ∃ t' : Slot, t'.val < count b - 1 ∧ source b s t' = t := by
  have hlast : (lastSlot b).val = count b - 1 := rfl
  have hne' : t.val ≠ s.val := fun e => hne (Fin.ext e)
  by_cases htl : t = lastSlot b
  · rw [htl, hlast] at hne'
    exact ⟨s, by omega, (source_self b s).trans htl.symm⟩
  · have : t.val ≠ count b - 1 := fun e => htl (Fin.ext e)
    exact ⟨t, by omega, source_of_ne b hne⟩

/-- Only an index without a record cannot be dropped. -/
theorem erase_eq_none_iff : Roots.erase b i = none ↔ get? b i = none := by
  rw [Roots.erase, get?, Option.map_eq_none_iff]
  cases hfind : find? b i with
  | none => exact iff_of_true rfl rfl
  | some s => exact iff_of_false (Option.some_ne_none _) (Option.some_ne_none _)

/-- What a page reads after a record was dropped. -/
theorem of_erase (h : Roots.erase b i = some b') :
    ∃ s : Slot, s.val < count b ∧ indexAt b s = i ∧ count b' = count b - 1 ∧
      ∀ t, indexAt b' t = indexAt b (source b s t) ∧ rootAt b' t = rootAt b (source b s t) := by
  rw [Roots.erase] at h
  cases hfind : find? b i with
  | none =>
    rw [hfind] at h
    cases h
  | some s =>
    rw [hfind] at h
    have hb' := (Option.some.inj h).symm
    obtain ⟨hs, hi⟩ := find?_some hfind
    refine ⟨s, hs, hi, hb' ▸ count_setWord_zero _ (Nat.le_trans (Nat.sub_le ..) (count_le b)),
      fun t => ?_⟩
    rw [hb', indexAt_setWord_zero, rootAt_setWord_zero]
    by_cases ht : t = s
    · rw [ht, source_self]
      split
      · next hls =>
        rw [← hls]
        exact ⟨rfl, rfl⟩
      · exact ⟨indexAt_put_self .., rootAt_put_self ..⟩
    · rw [source_of_ne b ht]
      split
      · exact ⟨rfl, rfl⟩
      · exact ⟨indexAt_put_of_ne _ _ _ (Ne.symm ht), rootAt_put_of_ne _ _ _ (Ne.symm ht)⟩

/-- **Dropping a record** drops one index. -/
theorem Distinct.erase (hd : Distinct b) (h : Roots.erase b i = some b') :
    Distinct b' ∧ ∀ j q, Records b' j q ↔ j ≠ i ∧ Records b j q := by
  obtain ⟨s, hs, hi, hcount, hread⟩ := of_erase h
  refine ⟨fun t t' ht ht' htt => ?_, fun j q => ⟨?_, ?_⟩⟩
  · rw [hcount] at ht ht'
    rw [(hread t).1, (hread t').1] at htt
    exact source_inj ht ht' (hd _ _ (source_lt ht).1 (source_lt ht').1 htt)
  · rintro ⟨t, ht, rfl, rfl⟩
    obtain ⟨hlt, hne⟩ := source_lt (s := s) (hcount ▸ ht)
    rw [(hread t).1, (hread t).2]
    exact ⟨fun e => hne (hd _ _ hlt hs (e.trans hi.symm)), source b s t, hlt, rfl, rfl⟩
  · rintro ⟨hji, t, ht, rfl, rfl⟩
    obtain ⟨t', ht', rfl⟩ := exists_source hs ht fun e => hji (e ▸ hi)
    exact ⟨t', hcount ▸ ht', hread t'⟩

/-- As a map, the page has no root for the index, and the others that it had. -/
theorem Distinct.get?_erase (hd : Distinct b) (h : Roots.erase b i = some b') :
    Distinct b' ∧ ∀ j, get? b' j = if j = i then none else get? b j := by
  obtain ⟨hd', hrecords⟩ := hd.erase h
  refine ⟨hd', fun j => ?_⟩
  split
  · next hj =>
    refine Option.eq_none_iff_forall_ne_some.2 fun q hq => ?_
    exact ((hrecords j q).1 (hd'.get?_eq_some_iff.1 hq)).1 hj
  · next hj => exact hd.get?_congr hd' fun q => (hrecords j q).trans (and_iff_right hj)

/-! ## Pages of one index -/

/-- The page records this root for the index, or nothing, and no other index. -/
structure Sole (b : Page) (i : UInt32) (recorded : Option PageId) : Prop where
  distinct : Distinct b
  records : ∀ j q, Records b j q ↔ j = i ∧ recorded = some q

namespace Sole

variable {recorded : Option PageId}

theorem get?_eq (h : Sole b i recorded) : get? b i = recorded :=
  Option.ext fun q => by rw [h.distinct.get?_eq_some_iff, h.records, and_iff_right rfl]

/-- A page of zeros records nothing. -/
theorem zero (i : UInt32) : Sole (Block.zero pageSize) i none := by
  refine ⟨distinct_zero, fun j q => iff_of_false ?_ nofun⟩
  rintro ⟨s, hs, -⟩
  rw [count_zero] at hs
  exact Nat.not_lt_zero _ hs

/-- A page that records nothing has room for a record. -/
theorem count_eq_zero (h : Sole b i none) : count b = 0 := by
  by_contra hne
  have hfirst : (0 : Nat) < maxIndexRoots := by decide
  obtain ⟨-, hnone⟩ := (h.records _ _).1 ⟨⟨0, hfirst⟩, Nat.pos_of_ne_zero hne, rfl, rfl⟩
  cases hnone

theorem set (h : Sole b i recorded) (hset : Roots.set b i root = some b') :
    Sole b' i (some root) := by
  obtain ⟨hdistinct, hrecords⟩ := h.distinct.set hset
  refine ⟨hdistinct, fun j q => (hrecords j q).trans ?_⟩
  constructor
  · rintro (⟨hj, rfl⟩ | ⟨hj, hrec⟩)
    · exact ⟨hj, rfl⟩
    · exact absurd ((h.records j q).1 hrec).1 hj
  · rintro ⟨hj, hq⟩
    exact .inl ⟨hj, (Option.some.inj hq).symm⟩

theorem erase (h : Sole b i recorded) : Sole ((Roots.erase b i).getD b) i none := by
  cases herase : Roots.erase b i with
  | some b' =>
    obtain ⟨hdistinct, hrecords⟩ := h.distinct.erase herase
    refine ⟨hdistinct, fun j q => (hrecords j q).trans (iff_of_false ?_ nofun)⟩
    rintro ⟨hj, hrec⟩
    exact hj ((h.records j q).1 hrec).1
  | none =>
    -- there is nothing to drop
    obtain rfl : recorded = none := h.get?_eq.symm.trans (erase_eq_none_iff.1 herase)
    exact h

end Sole

end PageStore.Roots
