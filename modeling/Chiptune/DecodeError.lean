import Chiptune.Text.Numeral

namespace Chiptune

/-!
# Why data was not decoded

`DecodeError` lists what can be wrong with the data a plugin was given, and `DecodeError.message`
says it. No fault of the data stops a scan: the next plugin is tried.
-/

/-- Why packed data could not be unpacked. -/
inductive UnpackError where
  /-- The packed stream ended before the output was complete. -/
  | exhausted
  /-- The last byte of the stream, which marks where it begins, has no bit set. -/
  | noMarker
  /-- A match refers to output that does not exist. -/
  | strayReference (distance : Nat)
  /-- The header of an archive member is damaged. -/
  | damagedHeader
  /-- The tables of codes in the stream are damaged. -/
  | damagedTable
  /-- The packing method has no decoder. -/
  | unknownMethod
  /-- An archive member holds no bytes. -/
  | emptyMember
  /-- Any other reason. -/
  | other (reason : String)
deriving DecidableEq

namespace UnpackError

/-- The reason in words. -/
def message : UnpackError → String
  | exhausted => "packed stream exhausted"
  | noMarker => "missing stream marker"
  | strayReference distance => s!"back reference {distance} outside output"
  | damagedHeader => "invalid LHA header"
  | damagedTable => "invalid code table"
  | unknownMethod => "unsupported compression method"
  | emptyMember => "empty LHA member"
  | other reason => reason

end UnpackError

/-- Why a plugin refused data. -/
inductive DecodeError where
  /-- The data does not begin as the format does. -/
  | wrongSignature
  /-- The data ends inside a structure. -/
  | truncated
  /-- The pointer at `offset` leads outside the data. -/
  | strayPointer (offset : Nat)
  /-- The text that begins at `start` has no end. -/
  | unterminatedText (start : Nat)
  /-- The checksum in the data is not that of the data. -/
  | wrongChecksum (stored computed : Nat)
  /-- Packed data could not be unpacked. -/
  | packing (reason : UnpackError)
  /-- The unpacked data would be larger than is allowed. -/
  | tooLarge (size limit : Nat)
  /-- A file length that the format does not admit. -/
  | dataLength (length : Nat)
  /-- The length in sectors is not that of the data. -/
  | sectorLength (sectors length : Nat)
  /-- A disk image without files. -/
  | noFiles
  /-- The song to begin with is not among the songs. -/
  | firstSong (number count : Nat)
  /-- A register dump without frames. -/
  | noFrames
  /-- A number of frames that the format does not admit. -/
  | frameCount (count : Nat)
  /-- The end marker is missing. -/
  | noEndMarker
  /-- A sum is no 64-bit word. That is no fault of the data: a program that checks its sums fails
      here, and one that does not gets nothing out of the data. -/
  | overflow
  /-- Any other fault of the data. -/
  | other (reason : String)
deriving DecidableEq

namespace DecodeError

/-- The reason in words. -/
def message : DecodeError → String
  | wrongSignature => "signature mismatch"
  | truncated => "unexpected end of data"
  | strayPointer offset => s!"pointer at offset 0x{Numeral.hex 4 offset} points outside data"
  | unterminatedText start => s!"unterminated string at offset 0x{Numeral.hex 4 start}"
  | wrongChecksum stored computed =>
    s!"checksum mismatch: stored 0x{Numeral.hex 8 stored}, computed 0x{Numeral.hex 8 computed}"
  | packing reason => s!"decompression failed: {reason.message}"
  | tooLarge size limit => s!"decoded size {size} exceeds limit {limit}"
  | dataLength length => s!"invalid data length {length}"
  | sectorLength sectors length => s!"sector length {sectors} does not match data length {length}"
  | noFiles => "SCL image contains no files"
  | firstSong number count => s!"first song index {number} outside available {count} songs"
  | noFrames => "YM file has zero frames"
  | frameCount count => s!"invalid frame count {count}"
  | noEndMarker => "missing End! marker"
  | overflow => "attempt to add with overflow"
  | other reason => reason

end DecodeError

end Chiptune
