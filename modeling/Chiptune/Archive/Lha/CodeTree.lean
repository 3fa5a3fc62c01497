import Chiptune.Archive.Lha.BitReader

namespace Chiptune.Lha

/-!
# Codes of varying length

A `CodeTree` is read bit by bit down to a symbol. `CodeTree.ofLengths?` builds the canonical tree
for given lengths: shorter codes come first, and codes of one length follow the order of their
symbols. There is a tree only when the codes of these lengths are all codes: no bit sequence is left
without a symbol, and none has two.
-/

/-- A symbol, or what follows a zero and what follows a one. A tree of one symbol takes no bits. -/
inductive CodeTree where
  | leaf (symbol : Nat)
  | node (zero one : CodeTree)

namespace CodeTree

/-- The next symbol. -/
def read : CodeTree → BitReader → Except UnpackError (Nat × BitReader)
  | leaf symbol, r => .ok (symbol, r)
  | node zero one, r => do
    let (bit, r) ← r.bit
    if bit then one.read r else zero.read r

/-- The tree at `depth` whose codes are the first of `codes`, pairs of length and symbol in
    ascending order, and the codes left over. It is at most `height` high. -/
def build? : (height depth : Nat) → (codes : List (Nat × Nat)) →
    Option (CodeTree × List (Nat × Nat))
  | _, _, [] => none
  | height, depth, (length, symbol) :: rest =>
    if length = depth then some (leaf symbol, rest)
    else match height with
      | 0 => none
      | height + 1 => do
        let (zero, codes) ← build? height (depth + 1) ((length, symbol) :: rest)
        let (one, codes) ← build? height (depth + 1) codes
        return (node zero one, codes)

/-- The canonical tree of the symbols `0, 1, …` with the given lengths of codes. A symbol of length
    zero has no code. The tree is less high than it has symbols. -/
def ofLengths? (lengths : List Nat) : Option CodeTree :=
  let used := lengths.zipIdx.filter fun code => code.1 ≠ 0
  let codes := used.mergeSort fun a b => a.1 ≤ b.1
  match build? lengths.length 0 codes with
  | some (tree, []) => some tree
  | _ => none

/-- The canonical tree, or the fault of a table that has none. -/
def ofLengths (lengths : List Nat) : Except UnpackError CodeTree :=
  match ofLengths? lengths with
  | some tree => .ok tree
  | none => .error .damagedTable

end CodeTree

end Chiptune.Lha
