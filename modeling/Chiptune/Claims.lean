namespace Chiptune

/-!
# Claims on bytes

Each recognised format claims a region of its container. A `Claims` ledger admits or refuses
regions by its `Policy`:

* `Policy.total` bounds only the sum of the sizes;
* `Policy.disjoint` refuses any overlap with an admitted region;
* `Policy.shared` does the same, but admits a region that is already there.

`Claims.add?` is the one operation; a refused region leaves no trace.
-/

/-- How a ledger treats a new region. -/
inductive Policy where
  | total
  | disjoint
  | shared
deriving DecidableEq, Repr

/-- The bytes from `offset` up to `offset + size`. -/
structure Region where
  offset : Nat
  size : Nat
deriving DecidableEq, Repr

/-- The offset behind the last byte. -/
def Region.stop (r : Region) : Nat := r.offset + r.size

/-- The regions that were admitted, last offset first, the sum of their sizes, and the stretch from
    the lowest to the highest byte claimed. -/
structure Claims where
  policy : Policy
  limit : Nat
  total : Nat
  regions : List Region
  span : Option (Nat × Nat)
deriving DecidableEq, Repr

namespace Claims

/-- A ledger without regions. `limit` bounds the sum of sizes or the end of every region. -/
def empty (policy : Policy) (limit : Nat) : Claims := ⟨policy, limit, 0, [], none⟩

/-- Insert `r` into a list in descending order of offsets. -/
def insert (r : Region) : List Region → List Region
  | [] => [r]
  | s :: rest => if s.offset < r.offset then r :: s :: rest else s :: insert r rest

/-- The stretch that covers `span` and `r`. -/
def cover (span : Option (Nat × Nat)) (r : Region) : Nat × Nat :=
  match span with
  | none => (r.offset, r.stop)
  | some (low, high) => (min low r.offset, max high r.stop)

/-- The admitted region with the highest offset below `stop`. Admitted regions do not overlap, so
    only this one can reach into a region that ends at `stop`. -/
def lastBefore (c : Claims) (stop : Nat) : Option Region :=
  c.regions.find? fun r => r.offset < stop

/-- The ledger with the region `r`, which overlaps no other. -/
def grant (c : Claims) (r : Region) : Claims :=
  { c with total := c.total + r.size, regions := insert r c.regions, span := cover c.span r }

/-- The ledger with `r` in it, or nothing when `r` is refused: because it is empty, because it does
    not end at a 64-bit offset, or by the policy. -/
def add? (c : Claims) (r : Region) : Option Claims :=
  if r.size = 0 ∨ UInt64.size ≤ r.stop then none
  else match c.policy with
    | .total =>
      if c.total + r.size ≤ c.limit then
        some { c with total := c.total + r.size, span := cover c.span r }
      else none
    | policy =>
      if c.limit < r.stop then none
      else match c.lastBefore r.stop with
        | some s =>
          if r.offset < s.stop then
            if policy = .shared ∧ s = r then some c else none
          else some (c.grant r)
        | none => some (c.grant r)

/-- The lowest and the highest byte claimed, zeros when there is none. -/
def affected (c : Claims) : Nat × Nat := c.span.getD (0, 0)

end Claims

end Chiptune
