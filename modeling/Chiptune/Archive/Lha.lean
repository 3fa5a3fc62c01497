import Chiptune.Archive.Lha.AdaptiveMethod
import Chiptune.Archive.Lha.BlockMethod
import Chiptune.Archive.Lha.Header
import Chiptune.Plugin.Basic

namespace Chiptune

/-!
# LHA archives

Tunes are often kept as archives of a single file. `Lha.unpack` unpacks the first member of an
archive, packed by one of the methods `lh0` (stored), `lh1` (adaptive code), `lh4` to `lh7`
(blocks).
-/

namespace Lha

/-- The method `lh0` to `lh7` between hyphens, and a level from 0 to 2. -/
def signature : Signature :=
  .ofPattern
    ⟨[.any, .any] ++ Pattern.literal "-lh" ++ [.range 0x30 0x37] ++ Pattern.literal "-" ++
      List.replicate 13 .any ++ [.range 0x00 0x02], by decide⟩
    minHeaderSize

/-- Whether a member of an archive is at the start of `w`, all of it. -/
def check (w : Window) : Bool := signature.matchesStart w && (memberSize? w).isSome

/-- The first `size` bytes of stored data. -/
def stored (data : Window) (size : Nat) : Except UnpackError ByteArray :=
  if size ≤ data.size then .ok (data.take size).toByteArray else .error .exhausted

/-- The first `size` bytes that `data` unpacks to by a method. Methods `lh2` and `lh3` cannot be
    unpacked. -/
def decode (method : Char) (data : Window) (size : Nat) : Except UnpackError ByteArray :=
  match method with
  | '0' => stored data size
  | '1' => AdaptiveMethod.decode data size
  | '4' | '5' => BlockMethod.small.decode data size
  | '6' | '7' => BlockMethod.large.decode data size
  | _ => .error .unknownMethod

/-! ### Members -/

/-- A member whose header was read: the size of its unpacked bytes, as the header states it, and
    these bytes themselves, `most` of them at most. -/
structure OpenMember where
  size : Nat
  take : (most : Nat) → Except UnpackError Window

/-- A way to read members: that of the library, or any other. -/
abbrev MemberReader : Type := Window → Except UnpackError OpenMember

/-- The member at the start of `w`. No packed bytes are read when no unpacked ones are asked for. -/
def openMember : MemberReader := fun w => do
  let member ← Member.read w
  let method := Char.ofNat member.method.toNat
  return {
    size := member.size
    take := fun most =>
      if most = 0 then .ok .empty
      else do
        let bytes ← decode method (member.body w) member.size
        return (Window.ofByteArray bytes).take most }

/-- The unpacked bytes of the member at the start of `w`. One byte more than `limit` would be read,
    and that number has to be a 64-bit word. -/
def unpackMember (reader : MemberReader) (limit : UInt64) (w : Window) :
    Except DecodeError Window := do
  let member ← (reader w).mapError DecodeError.packing
  if limit.toNat < member.size then throw (.tooLarge member.size limit.toNat)
  if UInt64.size ≤ limit.toNat + 1 then throw .overflow
  let bytes ← (member.take (limit.toNat + 1)).mapError DecodeError.packing
  if limit.toNat < bytes.size then throw (.tooLarge bytes.size limit.toNat)
  if bytes.isEmpty then throw (.packing .emptyMember)
  return bytes

/-- The unpacked member, as an entry without a name. -/
def unpack (reader : MemberReader) (limit : UInt64) (w : Window) :
    Except DecodeError Unpacked := do
  if !signature.matchesStart w then throw .wrongSignature
  let some consumed := memberSize? w | throw .truncated
  let bytes ← unpackMember reader limit (w.take consumed)
  return { entries := [⟨none, none, bytes⟩], consumed }

/-- The plugin for LHA archives with any way to read members. -/
def pluginWith (reader : MemberReader) : Plugin where
  id := "LHA"
  description := "LHA/LZH archive"
  features := .packed
  signature := signature
  check := check
  decoder := .archive fun settings => unpack reader settings.maxDecodedSize

/-- The plugin for LHA archives. -/
def plugin : Plugin := pluginWith openMember

end Lha

end Chiptune
