import PageStore.Proofs.Tree.Lifetime
import PageStore.Proofs.Tree.Reading

/-!
# The pages of a tree

Which pages belong to a tree is told by bytes alone: they are those that a walk from the root comes
to by child pointers. `WalksTo` says so for any bytes, where such a walk may go in a circle or end
at a page that is no node. Below a node that can be read, it comes to the pages of the shape:
`Legible.walksTo_iff`.
-/

namespace PageStore

variable {P P' : PageMap} {h width : Nat} {p q r : PageId}

/-- A walk by child pointers comes from a page to another. -/
inductive WalksTo (P : PageMap) : PageId → PageId → Prop
  | refl (p : PageId) : WalksTo P p p
  | step {p c q : PageId} {page : Page} {children : List PageId} (hpage : P p = some page)
    (hchildren : Tree.childPages page = .ok children) (hc : c ∈ children) (hq : WalksTo P c q) :
    WalksTo P p q

/-- The children of a node that can be read. -/
theorem Legible.childPages_eq_ok {t : Shape (h + 1)} (ht : Legible width P t) :
    ∃ page, P t.page = some page ∧
      Tree.childPages page = .ok (t.items.map fun i => i.2.page) := by
  obtain ⟨node, hd, hpage, -, hblock, hholds⟩ := ht.reads
  exact ⟨node.page, hpage, Tree.childPages_internal hholds.states.kind_eq_ok hblock hholds⟩

/-- **The pages below a node** are those that walks from it come to. -/
theorem Legible.walksTo_iff {t : Shape h} (ht : Legible width P t) :
    WalksTo P t.page q ↔ q ∈ t.pages := by
  induction h with
  | zero =>
    obtain ⟨node, hd, hpage, -, -, hholds⟩ := ht.reads
    have hnone : Tree.childPages node.page = .ok [] :=
      Tree.childPages_leaf hholds.states.kind_eq_ok
    refine Iff.trans ?_ List.mem_singleton.symm
    constructor
    · rintro (_ | ⟨hpage', hchildren, hc, -⟩)
      · rfl
      · rw [Option.some.inj (hpage'.symm.trans hpage), hnone] at hchildren
        cases hchildren
        cases hc
    · rintro rfl
      exact .refl _
  | succ h ih =>
    obtain ⟨page, hpage, hall⟩ := ht.childPages_eq_ok
    constructor
    · rintro (_ | ⟨hpage', hchildren, hc, hq⟩)
      · exact List.mem_cons_self
      · rw [Option.some.inj (hpage'.symm.trans hpage), hall] at hchildren
        cases hchildren
        obtain ⟨i, hi, rfl⟩ := List.mem_map.1 hc
        exact .tail _ (List.mem_flatMap.2 ⟨i, hi, (ih (ht.2 i hi)).1 hq⟩)
    · intro hq
      rcases List.mem_cons.1 hq with rfl | hq
      · exact .refl _
      · obtain ⟨i, hi, hq⟩ := List.mem_flatMap.1 hq
        exact .step hpage hall (List.mem_map_of_mem hi) ((ih (ht.2 i hi)).2 hq)

end PageStore
