import Chiptune.Archive.Lha.BitReader

namespace Chiptune.Lha

/-!
# The adaptive code

The method `lh1` codes its commands by a tree that changes with every command: the more often a
symbol was used, the shorter its code. All nodes stand in one row in ascending order of their
weights; a leaf weighs as much as its symbol was used, an inner node as much as its two children,
which stand side by side. Each use of a symbol adds one to the weight of its leaf and of all nodes
above it, and a node that becomes too heavy for its place changes places with the last of the nodes
that weighed the same.

Nodes are numbered by their places, `0` to `root`. Numbers from `places` on stand for leaves: the
leaf of the symbol `s` is `places + s`.
-/

/-- The number of commands. -/
def symbolCount : Nat := 314

/-- The number of places. -/
def places : Nat := 2 * symbolCount - 1

/-- The place of the root, which is the last one. -/
def root : Nat := places - 1

/-- The weight of the root at which all weights are halved. -/
def maxWeight : Nat := 0x8000

/-- The weight of the node at each place; its child, the first of two or a leaf; and the place of
    the parent of each node and of each leaf. -/
structure AdaptiveCode where
  weights : Array Nat
  children : Array Nat
  parents : Array Nat

namespace AdaptiveCode

/-- The weight at a place. Beyond the root everything is too heavy to change places with. -/
def weight (t : AdaptiveCode) (place : Nat) : Nat := t.weights[place]?.getD 0xffff

/-- The child at a place. -/
def child (t : AdaptiveCode) (place : Nat) : Nat := t.children[place]?.getD places

/-- The place of the parent of a node or leaf. -/
def parent (t : AdaptiveCode) (node : Nat) : Nat := t.parents[node]?.getD 0

/-! ### Building a tree -/

/-- The nodes, weights with children, that become `nodes` when the node behind the first ones of the
    same or a lower weight is `node`. -/
def insertNode (node : Nat × Nat) (nodes : List (Nat × Nat)) : List (Nat × Nat) :=
  let heavier := (nodes.reverse.takeWhile fun other => node.1 < other.1).length
  let place := nodes.length - heavier
  nodes.take place ++ node :: nodes.drop place

/-- Join nodes two by two from the place `first` on, `count` times. -/
def joinNodes : (count first : Nat) → List (Nat × Nat) → List (Nat × Nat)
  | 0, _, nodes => nodes
  | count + 1, first, nodes =>
    let pair := (nodes.drop first).take 2
    joinNodes count (first + 2) (insertNode ((pair.map (·.1)).sum, first) nodes)

/-- Note `place` as the parent of its child, and of the one beside it unless the child is a leaf. -/
def noteParent (parents : Array Nat) (place child : Nat) : Array Nat :=
  if places ≤ child then parents.setIfInBounds child place
  else (parents.setIfInBounds child place).setIfInBounds (child + 1) place

/-- The tree over `leaves`, weights with leaves in ascending order of weights. -/
def ofLeaves (leaves : List (Nat × Nat)) : AdaptiveCode :=
  let nodes := joinNodes (symbolCount - 1) 0 leaves
  { weights := (nodes.map (·.1)).toArray
    children := (nodes.map (·.2)).toArray
    parents := nodes.zipIdx.foldl (fun parents (node, place) => noteParent parents place node.2)
      (Array.replicate (places + symbolCount) 0) }

/-- The tree before any command: all symbols weigh one. -/
def start : AdaptiveCode := ofLeaves ((List.range symbolCount).map fun s => (1, places + s))

/-- The tree with the weights of all leaves halved, rounded up. -/
def halve (t : AdaptiveCode) : AdaptiveCode :=
  let nodes := t.weights.toList.zip t.children.toList
  ofLeaves ((nodes.filter fun node => places ≤ node.2).map fun node => ((node.1 + 1) / 2, node.2))

/-! ### Counting a use -/

/-- The last place behind `place` whose weight is below `weight`, at most `steps` places on. -/
def lastLighter (t : AdaptiveCode) (weight : Nat) : (steps place : Nat) → Nat
  | 0, place => place
  | steps + 1, place =>
    if t.weight (place + 1) < weight then t.lastLighter weight steps (place + 1) else place

/-- The tree in which the nodes at two places have changed places. -/
def exchange (t : AdaptiveCode) (a b : Nat) : AdaptiveCode where
  weights := (t.weights.setIfInBounds a (t.weight b)).setIfInBounds b (t.weight a)
  children := (t.children.setIfInBounds a (t.child b)).setIfInBounds b (t.child a)
  parents := noteParent (noteParent t.parents b (t.child a)) a (t.child b)

/-- Add one to the weight at `place` and at all places above it, at most `height` of them. -/
def increase : (height place : Nat) → AdaptiveCode → AdaptiveCode
  | 0, _, t => t
  | height + 1, place, t =>
    let weight := t.weight place + 1
    let t := { t with weights := t.weights.setIfInBounds place weight }
    let target := t.lastLighter weight places place
    let t := if target = place then t else t.exchange place target
    if target = root then t else increase height (t.parent target) t

/-- The tree after one more use of `symbol`. -/
def use (t : AdaptiveCode) (symbol : Nat) : AdaptiveCode :=
  let t := if t.weight root = maxWeight then t.halve else t
  increase places (t.parent (places + symbol)) t

/-! ### Reading -/

/-- The symbol below a node, at most `height` nodes down. -/
def readFrom (t : AdaptiveCode) : (height node : Nat) → BitReader →
    Except UnpackError (Nat × BitReader)
  | 0, _, _ => .error .damagedTable
  | height + 1, node, r =>
    if places ≤ node then .ok (node - places, r)
    else do
      let (bit, r) ← r.bit
      t.readFrom height (t.child (node + bit.toNat)) r

/-- The next symbol, and the tree after its use. -/
def read (t : AdaptiveCode) (r : BitReader) :
    Except UnpackError (Nat × AdaptiveCode × BitReader) := do
  let (symbol, r) ← t.readFrom (places + 1) (t.child root) r
  return (symbol, t.use symbol, r)

end AdaptiveCode

end Chiptune.Lha
