import Chiptune.Scan.Record

namespace Chiptune

/-!
# Observers of a scan

An `Observer` follows a scan with a state of its own: it is asked again and again whether to stop and
which plugins to leave out, hears of containers that were opened and finished, and is offered every
tune.

`Collector` is the state of the observer that keeps what it is offered.
-/

/-- The reactions of an observer with states in `σ`. -/
structure Observer (σ : Type) where
  /-- Whether the plugin is not to be tried now. -/
  skips : σ → Plugin → Bool := fun _ _ => false
  /-- Whether to stop. -/
  poll : σ → Bool × σ := fun state => (false, state)
  /-- Hear a message. -/
  log : String → σ → σ := fun _ state => state
  /-- Take a record, or give the reason for refusing it, which ends the scan. -/
  offer : Record → σ → Option String × σ

/-- The records that were taken, and the number of records after which to stop. -/
structure Collector where
  records : Array Record := #[]
  limit : Option Nat := none

namespace Collector

/-- Whether the limit is reached. -/
def isFull (c : Collector) : Bool := c.limit.any (· ≤ c.records.size)

/-- The observer that takes every record until the limit is reached. -/
def observer : Observer Collector where
  poll c := (c.isFull, c)
  offer record c := (none, { c with records := c.records.push record })

end Collector

end Chiptune
