/-!
# The rules of a well-formed tree

Each constructor names one rule that a page of a tree can break. `TreeRule.text` is how a
message words the breach.
-/

namespace PageStore

/-- A rule of the tree's structure. -/
inductive TreeRule where
  /-- an internal node has two children or more -/
  | siblings
  /-- a page carries its own id in its header -/
  | ownId
  /-- a node points back at the node it is a child of -/
  | parent
  /-- a node's key size is the tree's -/
  | keySize
  /-- a leaf holds at most its maximum of entries -/
  | leafMost
  /-- a leaf holds at least its minimum of entries -/
  | leafLeast
  /-- an internal node holds at most its maximum of children -/
  | internalMost
  /-- an internal node holds at least its minimum of children -/
  | internalLeast
  /-- keys inside a node increase -/
  | keyOrder
  /-- keys are not below the separator on their left -/
  | lowerBound
  /-- keys are below the separator on their right -/
  | upperBound
  /-- all leaves have one depth -/
  | evenDepth
  /-- each leaf links to the next leaf in key order -/
  | chain
  /-- the last leaf links to nothing -/
  | chainEnd
  deriving DecidableEq, Repr

/-- How a message words a breach of the rule. -/
def TreeRule.text : TreeRule → String
  | siblings => "internal node has a single child"
  | ownId => "header page id mismatch"
  | parent => "wrong parent pointer"
  | keySize => "wrong key size"
  | leafMost => "leaf overfull"
  | leafLeast => "leaf underfull"
  | internalMost => "internal node overfull"
  | internalLeast => "internal node underfull"
  | keyOrder => "keys out of order"
  | lowerBound => "key below subtree lower bound"
  | upperBound => "key at or above subtree upper bound"
  | evenDepth => "leaves at different depths"
  | chain => "leaf chain skips a leaf"
  | chainEnd => "last leaf has a next pointer"

end PageStore
