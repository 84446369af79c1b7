import PageStore.Ident
import PageStore.Node.Kind
import PageStore.Tree.Rule

/-!
# What can go wrong

`StoreError` lists the causes for which a call is refused. Most are facts a caller is meant to
handle, such as a full pool; `StoreError.isInvariantViolation` marks the rest, which only a bug
of the caller or damage to the file can bring about. `StoreError.message` words each cause.

A cause whose message carries an explanation holds the explanation as data: `SettingFault`,
`SpaceFault` and `TreeFault`, each of which can also carry a text that was reported from outside.
-/

namespace PageStore

/-! ## Explanations -/

/-- Why settings are not acceptable. -/
inductive SettingFault where
  /-- a pool cannot have this many frames -/
  | poolSize (got : Nat)
  /-- no frame to keep a bitmap in -/
  | bitmapFrames
  /-- a leaf cannot hold this many entries at most -/
  | leafMax (capacity got : Nat)
  /-- an internal node cannot have this many children at most -/
  | internalMax (capacity got : Nat)
  /-- keys without bytes -/
  | keySize
  /-- a roots page has no room for one more root -/
  | rootsFull (page : PageId) (index : UInt32)
  /-- an explanation from outside -/
  | reported (text : String)
  deriving DecidableEq, Repr

/-- The wording of a fault in the settings. -/
def SettingFault.text : SettingFault → String
  | poolSize got => "pool_size must be in 1..=u32::MAX, got " ++ toString got
  | bitmapFrames => "bitmap_cache_frames must be at least 1"
  | leafMax capacity got =>
    "leaf_max_size must be in 2..=" ++ toString capacity ++ ", got " ++ toString got
  | internalMax capacity got =>
    "internal_max_size must be in 3..=" ++ toString capacity ++ ", got " ++ toString got
  | keySize => "key_size must be at least 1"
  | rootsFull page index =>
    "index roots page " ++ toString page ++ " has no room for index " ++ toString index.toNat
  | reported text => text

/-- Why the map of free pages contradicts itself. -/
inductive SpaceFault where
  /-- an extent counts as not full and its bitmap has no free slot -/
  | noFreeSlot (extent : UInt32)
  /-- an explanation from outside -/
  | reported (text : String)
  deriving DecidableEq, Repr

/-- The wording of a fault in the map of free pages. -/
def SpaceFault.text : SpaceFault → String
  | noFreeSlot extent =>
    "extent " ++ toString extent.toNat ++ " is marked not full but its bitmap has no free slot"
  | reported text => text

/-- Why the pages of a tree contradict each other. -/
inductive TreeFault where
  /-- a page's first byte marks neither kind of node -/
  | unknownKind (page : PageId) (tag : UInt8)
  /-- a node's bytes do not fill a page -/
  | blockSize (got : Nat)
  /-- a node is of the other kind -/
  | wrongKind (page : PageId) (found expected : NodeKind)
  /-- a node's header promises entries that cannot be there -/
  | impossibleHeader (page : PageId) (keySize size : Nat)
  /-- a tree points at a page that is not allocated -/
  | unallocated (page : PageId)
  /-- a page that a tree gives up is free already -/
  | alreadyFree (page : PageId)
  /-- a page breaks a rule of the structure -/
  | broken (page : PageId) (rule : TreeRule)
  /-- an explanation from outside -/
  | reported (text : String)
  deriving DecidableEq, Repr

/-- The wording of a fault in a tree. -/
def TreeFault.text : TreeFault → String
  | unknownKind page tag =>
    "page " ++ toString page ++ " has unknown node type " ++ toString tag.toNat
  | blockSize got => "tree page buffer is " ++ toString got ++ " bytes"
  | wrongKind page found expected =>
    "page " ++ toString page ++ " is a " ++ found.name ++ " node, expected " ++ expected.name
  | impossibleHeader page keySize size =>
    "page " ++ toString page ++ " has an impossible header (key_size " ++ toString keySize
      ++ ", size " ++ toString size ++ ")"
  | unallocated page => "tree references unallocated page " ++ toString page
  | alreadyFree page => "tree page " ++ toString page ++ " was already free"
  | broken page rule => "page " ++ toString page ++ ": " ++ rule.text
  | reported text => text

/-! ## Causes -/

/-- The cause for which a call is refused. -/
inductive StoreError where
  /-- the file system refused -/
  | io (text : String)
  /-- every frame of the pool is pinned -/
  | poolFull
  /-- the page is not allocated -/
  | notAllocated (page : PageId)
  /-- the id names no page that could be allocated -/
  | invalidPage (page : PageId)
  /-- every page of every extent is allocated, and there is no room for another extent -/
  | diskFull
  /-- a key has the wrong width -/
  | keySize (expected actual : Nat)
  /-- the caller's bytes do not fill a page -/
  | bufferSize (got : Nat)
  /-- the settings are not acceptable -/
  | settings (why : SettingFault)
  /-- the page is in use -/
  | stillPinned (page : PageId)
  /-- the page is free already -/
  | alreadyFree (page : PageId)
  /-- the file is not a page file -/
  | invalidFile
  /-- the map of free pages contradicts itself -/
  | spaceMap (why : SpaceFault)
  /-- the pages of a tree contradict each other -/
  | tree (why : TreeFault)
  deriving DecidableEq, Repr

namespace StoreError

/-- The wording of an error. -/
def message : StoreError → String
  | io text => "I/O error: " ++ text
  | poolFull => "Buffer pool is full, no evictable frames available"
  | notAllocated page => "Page " ++ toString page ++ " is not allocated"
  | invalidPage page => "Invalid page ID: " ++ toString page
  | diskFull => "Disk is full: extent limit reached"
  | keySize expected actual =>
    "Key size mismatch: expected " ++ toString expected ++ " bytes, got " ++ toString actual
  | bufferSize got => "Invalid page buffer size: " ++ toString got ++ " bytes"
  | settings why => "Invalid configuration: " ++ why.text
  | stillPinned page => "Page " ++ toString page ++ " is still pinned"
  | alreadyFree page => "Page " ++ toString page ++ " is already free"
  | invalidFile => "Invalid database file"
  | spaceMap why => "Space map corrupted: " ++ why.text
  | tree why => "Index corrupted: " ++ why.text

/-- Whether the error is a sign of a bug or of damage, and not of a situation that a caller is
meant to handle. -/
def isInvariantViolation : StoreError → Bool
  | stillPinned _ | alreadyFree _ | invalidFile | spaceMap _ | tree _ => true
  | _ => false

end StoreError

end PageStore
