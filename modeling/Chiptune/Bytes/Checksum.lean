import Chiptune.Bytes.Window

namespace Chiptune

/-!
# Checksums

* `Window.crc32` — the 32-bit cyclic redundancy code of network frames, which identifies tunes;
* `Window.byteSum` — the plain sum of all bytes.

The headers of archives carry a 16-bit code, of which `crc16Byte` is one step. Both codes process the
bits of a byte from the least significant one on.
-/

/-- One bit of a reflected 32-bit code. -/
def crc32Bit (crc : UInt32) : UInt32 :=
  if crc &&& 1 == 1 then (crc >>> 1) ^^^ 0xedb88320 else crc >>> 1

/-- One byte of the 32-bit code. -/
def crc32Byte (crc : UInt32) (b : UInt8) : UInt32 :=
  let c := crc ^^^ b.toUInt32
  crc32Bit (crc32Bit (crc32Bit (crc32Bit (crc32Bit (crc32Bit (crc32Bit (crc32Bit c)))))))

/-- One bit of a reflected 16-bit code. -/
def crc16Bit (crc : UInt16) : UInt16 :=
  if crc &&& 1 == 1 then (crc >>> 1) ^^^ 0xa001 else crc >>> 1

/-- One byte of the 16-bit code. -/
def crc16Byte (crc : UInt16) (b : UInt8) : UInt16 :=
  let c := crc ^^^ b.toUInt16
  crc16Bit (crc16Bit (crc16Bit (crc16Bit (crc16Bit (crc16Bit (crc16Bit (crc16Bit c)))))))

namespace Window

/-- The 32-bit code of all bytes. -/
def crc32 (w : Window) : UInt32 := ~~~ (w.foldl crc32Byte 0xffffffff)

/-- The sum of all bytes. -/
def byteSum (w : Window) : Nat := w.foldl (fun sum b => sum + b.toNat) 0

end Window

end Chiptune
