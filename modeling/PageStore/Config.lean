import PageStore.Error
import PageStore.Replacer.Basic

/-!
# Settings

The settings of a pool, of a space and of a tree, with their defaults and the check that each
has to pass.
-/

namespace PageStore

/-! ## Pools -/

/-- Settings of a pool. -/
structure PoolConfig where
  /-- number of frames -/
  poolSize : Nat := defaultPoolSize
  /-- how a victim is chosen -/
  policy : Policy := .lru
  deriving DecidableEq, Repr

/-- A pool has at least one frame, and its frames have 32-bit numbers. -/
def PoolConfig.validate (c : PoolConfig) : Except StoreError Unit :=
  if c.poolSize = 0 ∨ 0xFFFFFFFF < c.poolSize then .error (.settings (.poolSize c.poolSize))
  else .ok ()

theorem PoolConfig.validate_eq_ok_iff {c : PoolConfig} :
    c.validate = .ok () ↔ 0 < c.poolSize ∧ c.poolSize < 0x100000000 := by
  unfold validate
  split
  · simp; omega
  · simp; omega

/-! ## Spaces -/

/-- Settings of a space. -/
structure SpaceConfig where
  /-- number of bitmaps kept in memory -/
  bitmapFrames : Nat := defaultBitmapFrames
  deriving DecidableEq, Repr

/-- A space keeps at least one bitmap in memory. -/
def SpaceConfig.validate (c : SpaceConfig) : Except StoreError Unit :=
  if c.bitmapFrames = 0 then .error (.settings .bitmapFrames) else .ok ()

theorem SpaceConfig.validate_eq_ok_iff {c : SpaceConfig} :
    c.validate = .ok () ↔ 0 < c.bitmapFrames := by
  unfold validate
  split
  · simp; omega
  · simp; omega

/-! ## Trees -/

/-- Settings of a tree: the largest sizes of its nodes, where they are given. -/
structure TreeConfig where
  /-- most entries of a leaf -/
  leafMax : Option Nat := none
  /-- most children of an internal node -/
  internalMax : Option Nat := none
  deriving DecidableEq, Repr

/-- The largest sizes of a tree's nodes. -/
structure NodeLimits where
  /-- most entries of a leaf -/
  leafMax : Nat
  /-- most children of an internal node -/
  internalMax : Nat
  deriving DecidableEq, Repr

/-- The limits that the settings ask for, where a size that is not given is as large as a page
allows. A leaf must be able to split into two leaves with an entry each, and an internal node
into two nodes that both keep a separator. -/
def TreeConfig.resolve (c : TreeConfig) (leafCapacity internalCapacity : Nat) :
    Except StoreError NodeLimits :=
  let leaf := c.leafMax.getD leafCapacity
  let internal := c.internalMax.getD internalCapacity
  if leaf < 2 ∨ leafCapacity < leaf then .error (.settings (.leafMax leafCapacity leaf))
  else if internal < 3 ∨ internalCapacity < internal then
    .error (.settings (.internalMax internalCapacity internal))
  else .ok ⟨leaf, internal⟩

/-- Limits that were accepted fit in a page and leave both halves of a split usable. -/
theorem TreeConfig.bounds_of_resolve {c : TreeConfig} {leafCapacity internalCapacity : Nat}
    {l : NodeLimits} (h : c.resolve leafCapacity internalCapacity = .ok l) :
    2 ≤ l.leafMax ∧ l.leafMax ≤ leafCapacity ∧
      3 ≤ l.internalMax ∧ l.internalMax ≤ internalCapacity := by
  simp only [resolve] at h
  split at h
  · cases h
  · split at h
    · cases h
    · cases h
      dsimp only
      omega

end PageStore
