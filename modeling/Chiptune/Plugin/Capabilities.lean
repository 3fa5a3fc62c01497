namespace Chiptune

/-!
# Capabilities of plugins

A plugin states what it handles by a set of flags.
-/

/-- A set of flags, one bit for each. -/
structure Capabilities where
  bits : UInt32
deriving DecidableEq

namespace Capabilities

/-- No flag. -/
def none : Capabilities := ⟨0⟩

/-- Holds other files. -/
def container : Capabilities := ⟨0x0001⟩

/-- Is packed data. -/
def packed : Capabilities := ⟨0x0002⟩

/-- Holds several tunes. -/
def multitrack : Capabilities := ⟨0x0004⟩

/-- Can be played. -/
def playable : Capabilities := ⟨0x0008⟩

/-- Plays on the sound chip AY-3-8910 and its relatives. -/
def deviceAy : Capabilities := ⟨0x0100⟩

/-- Needs a Z80 processor. -/
def cpuZ80 : Capabilities := ⟨0x1000⟩

/-- Needs a 68000 processor. -/
def cpuM68k : Capabilities := ⟨0x2000⟩

/-- The flags by name. -/
def named : List (String × Capabilities) :=
  [("CONTAINER", container), ("PACKED", packed), ("MULTITRACK", multitrack), ("MODULE", playable),
   ("DEVICE_AY", deviceAy), ("CPU_Z80", cpuZ80), ("CPU_M68K", cpuM68k)]

instance : OrOp Capabilities := ⟨fun c d => ⟨c.bits ||| d.bits⟩⟩

/-- Whether the sets share a flag. -/
def meets (c d : Capabilities) : Bool := c.bits &&& d.bits != 0

/-- The names of the flags in the set. -/
def names (c : Capabilities) : List String := (named.filter fun e => c.meets e.2).map (·.1)

end Capabilities

end Chiptune
