import Chiptune.Proofs.Decoding
import Chiptune.Proofs.Guarded.Basic
import Mathlib.Algebra.Order.BigOperators.Group.List
import Mathlib.Algebra.Order.Group.Nat

namespace Chiptune

/-!
# Guarded steps of archives

What an archive states about itself is summed up in words: sizes of files, offsets behind them, and
checksums of 32 bits. Each of these is small enough, as the fields that they are made of are.

* `Hobeta.Steps.unpack_eq`, `Scl.Steps.unpack_eq`, `Lha.Steps.unpack_eq` — the steps end in the
  result of unpacking;
* `Scl.Steps.newName` — the search for a name that no other file has, which nothing bounds;
* `Lha.Steps.unpackMember` — the reader of members is given, with the steps that it takes.
-/

open Guarded

/-! ### Sums and sizes -/

theorem Window.byteSum_eq (w : Window) : w.byteSum = (w.toList.map UInt8.toNat).sum := by
  rw [byteSum, foldl_eq, List.sum_eq_foldl, List.foldl_map]

theorem sum_le_mul_length {numbers : List Nat} {bound : Nat} (h : ∀ n ∈ numbers, n ≤ bound) :
    numbers.sum ≤ bound * numbers.length := by
  rw [Nat.mul_comm]
  exact List.sum_le_card_nsmul numbers bound h

theorem Window.byteSum_le (w : Window) : w.byteSum ≤ 255 * w.size := by
  have hbytes : ∀ n ∈ w.toList.map UInt8.toNat, n ≤ 255 := by
    intro n hn
    obtain ⟨b, -, rfl⟩ := List.mem_map.1 hn
    exact Nat.le_of_lt_succ b.toNat_lt
  have hsum := sum_le_mul_length hbytes
  rwa [List.length_map, length_toList, ← byteSum_eq] at hsum

/-! ### Hobeta files -/

namespace Hobeta.Steps

/-- The steps of `Hobeta.checksum`. -/
def checksum (w : Window) : Guarded DecodeError Nat := do
  let part ← slice w 0 (headerSize - 2)
  let total ← sum UInt32.size 0 (part.toList.map UInt8.toNat)
  return (105 + 257 * total) % UInt16.size

/-- The steps of `Hobeta.parse`. -/
def parse (w : Window) : Guarded DecodeError Header := do
  if !signature.matchesStart w then refuse .wrongSignature
  let some header := Header.read? w | refuse .truncated
  if header.length = 0 ∨ maxDataSize < header.length then refuse (.dataLength header.length)
  let padded ← word UInt32.size (header.length + 255)
  if header.sectors ≠ padded / 256 * 256 then refuse (.sectorLength header.sectors header.length)
  let computed ← checksum w
  if header.checksum ≠ computed then refuse (.wrongChecksum header.checksum computed)
  let stop ← add headerSize header.length
  if w.size < stop then refuse .truncated
  return header

/-- The steps of `Hobeta.check`. -/
def check (w : Window) : Guarded DecodeError Bool := succeeds (parse w)

/-- The steps of `Hobeta.unpack`. -/
def unpack (w : Window) : Guarded DecodeError Unpacked := do
  let w ← view w
  let header ← parse w
  let some data ← part? w headerSize header.length | refuse .truncated
  let stop ← add headerSize header.sectors
  return {
    entries := [⟨none, some ⟨headerSize, header.length⟩, data⟩]
    consumed := min stop w.size }

theorem checksum_eq {w : Window} (h : headerSize - 2 ≤ w.size) :
    checksum w = pure (Hobeta.checksum w) := by
  have hsum := (w.take (headerSize - 2)).byteSum_le
  rw [Window.size_take, Nat.min_eq_left h] at hsum
  have hword : 255 * (headerSize - 2) < UInt32.size := by decide
  rw [checksum, slice_zero h, pure_bind, sum_of_lt (by rw [← Window.byteSum_eq]; omega), pure_bind,
    Nat.zero_add, ← Window.byteSum_eq, Hobeta.checksum]

theorem yields_parse (w : Window) : Yields (parse w) (Hobeta.parse w) fun header =>
    header.length ≤ maxDataSize ∧ header.sectors = wholeSectors header.length := by
  have hminSize : headerSize < signature.minSize := by decide
  have hword : maxDataSize + 255 < UInt32.size := by decide
  have hlongWord : headerSize + maxDataSize < 0x10000000000000000 := by decide
  unfold parse Hobeta.parse
  refine yields_unless fun hsignature => ?_
  have hsize := Signature.minSize_le (by simpa using hsignature)
  cases Header.read? w with
  | none => exact yields_refuse _
  | some header =>
    refine yields_unless fun hlength => ?_
    refine .step (word_of_lt (by omega)) ?_
    refine yields_unless fun hsectors => ?_
    refine .step (checksum_eq (by omega)) ?_
    refine yields_unless fun _ => ?_
    refine .step (add_of_lt (by omega)) ?_
    refine yields_unless fun _ => ?_
    exact yields_pure ⟨by omega, Decidable.not_not.1 hsectors⟩

end Hobeta.Steps

/-! ### SCL images -/

namespace Scl.Steps

/-- The steps of `Scl.layout`. -/
def layout (w : Window) : Guarded DecodeError Layout := do
  if !signature.matchesStart w then refuse .wrongSignature
  let some records := readRecords? w | refuse .truncated
  let recordsSize ← mul records.length recordSize
  let dataStart ← add headerSize recordsSize
  let sectors ← sum UInt64.size 0 (records.map FileRecord.sectors)
  let filesSize ← mul sectors sectorSize
  let bodyEnd ← add dataStart filesSize
  let size ← add bodyEnd checksumSize
  if w.size < size then refuse .truncated
  let stored ← littleEndian w bodyEnd checksumSize
  let body ← slice w 0 bodyEnd
  let computed := body.byteSum % UInt32.size
  if stored ≠ computed then refuse (.wrongChecksum stored computed)
  return ⟨records, dataStart, size⟩

/-- The steps of `Scl.check`. -/
def check (w : Window) : Guarded DecodeError Bool := succeeds (layout w)

/-- The first new name from `name` on, which is the candidate with the number `copy`. Numbers are
    signed words of 32 bits. -/
def newName (used : List String) (base name : String) (copy : Nat) :
    Guarded DecodeError String :=
  Loop.run ⟨fun (name, copy) => do
    if used.contains name then
      let copy ← word 0x80000000 (copy + 1)
      return .again (s!"{base}~{copy}", copy)
    else return .done name⟩ (name, copy)

/-- The steps of `Scl.entries`. -/
def entries (w : Window) (claims : Claims) (used : List String) (offset : Nat) :
    List FileRecord → Guarded DecodeError (List Entry)
  | [] => return []
  | record :: rest => do
    let size ← mul record.sectors sectorSize
    let next ← add offset size
    match claims.add? ⟨offset, size⟩ with
    | none => entries w claims used next rest
    | some claims =>
      match ← part? w offset size with
      | none => entries w claims used next rest
      | some data =>
        let base := trdosName record.name record.type
        let name ← newName used base base 1
        let others ← entries w claims (name :: used) next rest
        return ⟨some name, some ⟨offset, size⟩, data⟩ :: others

/-- The steps of `Scl.unpack`. -/
def unpack (w : Window) : Guarded DecodeError Unpacked := do
  let w ← view w
  let layout ← layout w
  let files ← entries w (.empty .total layout.size) [] layout.dataStart layout.records
  if files.isEmpty then refuse .noFiles
  return { entries := files, consumed := layout.size }

/-- What one-byte fields admit: the number of files, and the number of sectors of each. -/
structure Small (records : List FileRecord) : Prop where
  length_le : records.length ≤ 255
  sectors_le : ∀ r ∈ records, r.sectors ≤ 255

theorem sectors_le {w : Window} {offset : Nat} {r : FileRecord}
    (h : FileRecord.read? w offset = some r) : r.sectors ≤ 255 := by
  obtain ⟨name, -, h⟩ := Option.bind_eq_some_iff.1 h
  obtain ⟨type, -, h⟩ := Option.bind_eq_some_iff.1 h
  obtain ⟨sectors, -, h⟩ := Option.bind_eq_some_iff.1 h
  cases h
  exact Nat.le_of_lt_succ sectors.toNat_lt

theorem small_readRecords? {w : Window} {records : List FileRecord}
    (h : readRecords? w = some records) : Small records := by
  obtain ⟨count, -, h⟩ := Option.bind_eq_some_iff.1 h
  have hread := mapM_eq_some.1 h
  have hbyte := count.toNat_lt
  have hlength := hread.length_eq
  rw [List.length_range] at hlength
  obtain ⟨hsectors, -⟩ := (List.forall₂_and_left _ _).1
    (hread.flip.imp fun r _ hr => And.intro (sectors_le hr) hr)
  exact ⟨by omega, hsectors⟩

theorem newName_round (used : List String) (base name : String) (copy : Nat) :
    newName used base name copy = if used.contains name then do
        let copy ← word 0x80000000 (copy + 1)
        newName used base s!"{base}~{copy}" copy
      else return name := by
  rw [newName, Loop.run_eq]
  simp only [ite_bind, bind_assoc, pure_bind]
  rfl

/-- The loop ends, because one of the candidates is new. -/
theorem newName_of_find? {used : List String} {base name found : String} (index : Nat) {count : Nat}
    (hcount : index + count < 0x7fffffff)
    (hfind : (name :: (List.range' index count).map fun i => base ++ "~" ++ toString (i + 2)).find?
      (fun name => !used.contains name) = some found) :
    newName used base name (index + 1) = pure found := by
  induction count generalizing index name with
  | zero =>
    rw [newName_round]
    by_cases hused : used.contains name = true
    · rw [List.find?_cons_of_neg (by simpa using hused)] at hfind
      cases hfind
    · rw [List.find?_cons_of_pos (by simpa using hused)] at hfind
      rw [if_neg hused, Option.some.inj hfind]
  | succ count ih =>
    rw [newName_round]
    by_cases hused : used.contains name = true
    · rw [List.find?_cons_of_neg (by simpa using hused), List.range'_succ, List.map_cons] at hfind
      rw [if_pos hused, word_of_lt (by omega), pure_bind]
      exact ih (index + 1) (by omega) hfind
    · rw [List.find?_cons_of_pos (by simpa using hused)] at hfind
      rw [if_neg hused, Option.some.inj hfind]

theorem newName_eq {used : List String} (base : String) (h : used.length < 0x7fffffff) :
    newName used base base 1 = pure (uniqueName used base) := by
  obtain ⟨found, hfind⟩ := exists_find?_candidates used base
  rw [uniqueName_eq, hfind, Option.getD_some]
  rw [candidates, List.range_eq_range'] at hfind
  exact newName_of_find? 0 (by omega) hfind

end Scl.Steps

/-! ### LHA archives -/

namespace Lha.Steps

variable {ε : Type}

/-- The steps of `Lha.memberSize?`. -/
def memberSize? (w : Window) : Guarded ε (Option Nat) := do
  let packed ← littleEndian w 7 4
  let level ← index w levelOffset
  let header ← if level ≤ 1 then do
      let length ← index w 0
      add length.toNat 2
    else littleEndian w 0 2
  if header < minHeaderSize then return none
  let size := header + packed
  return if size < UInt64.size ∧ size ≤ w.size then some size else none

/-- The steps of `Lha.check`. -/
def check (w : Window) : Guarded DecodeError Bool := do
  if !signature.matchesStart w then return false
  let size? ← memberSize? w
  return size?.isSome

/-- The steps of `Lha.unpackMember`. The reader takes its own steps, to open the member and to take
    bytes of it. -/
def unpackMember (reader : MemberReader) (limit : UInt64) (w : Window) :
    Guarded DecodeError Window := do
  let member ← outcome ((reader w).mapError DecodeError.packing)
  if limit.toNat < member.size then refuse (.tooLarge member.size limit.toNat)
  let most ← add limit.toNat 1
  let bytes ← outcome ((member.take most).mapError DecodeError.packing)
  if limit.toNat < bytes.size then refuse (.tooLarge bytes.size limit.toNat)
  if bytes.isEmpty then refuse (.packing .emptyMember)
  return bytes

/-- The steps of `Lha.unpack`. -/
def unpack (reader : MemberReader) (limit : UInt64) (w : Window) :
    Guarded DecodeError Unpacked := do
  let w ← view w
  if !signature.matchesStart w then refuse .wrongSignature
  let some consumed ← memberSize? w | refuse .truncated
  let packed ← slice w 0 consumed
  let bytes ← unpackMember reader limit packed
  return { entries := [⟨none, none, bytes⟩], consumed }

theorem memberSize?_eq {w : Window} (h : signature.matchesStart w = true) :
    (memberSize? w : Guarded ε (Option Nat)) = pure (Lha.memberSize? w) := by
  have hminSize : signature.minSize = 24 := by decide
  have hsize := Signature.minSize_le h
  have hlevel := w.getElem?_of_lt (show levelOffset < w.size by rw [levelOffset]; omega)
  have hfirst := w.getElem?_of_lt (show 0 < w.size by omega)
  obtain ⟨packed, hpacked⟩ := Window.exists_bytes? (w := w) (show 7 + 4 ≤ w.size by omega)
  obtain ⟨length, hlength⟩ := Window.exists_bytes? (w := w) (show 0 + 2 ≤ w.size by omega)
  have hpackedSize : w.le32? 7 = some (valueLE packed) := congrArg (Option.map valueLE) hpacked
  have hlongLength : w.le16? 0 = some (valueLE length) := congrArg (Option.map valueLE) hlength
  unfold memberSize? Lha.memberSize?
  rw [littleEndian_of_bytes? hpacked, pure_bind, index_of_eq_some hlevel, pure_bind, hlevel]
  generalize w.get levelOffset _ = level
  -- Both ways to the size of the header lead on to the same test.
  have htest : ∀ header : Nat, (if header < minHeaderSize then pure none
      else pure (if header + valueLE packed < UInt64.size ∧ header + valueLE packed ≤ w.size
        then some (header + valueLE packed) else none) : Guarded ε (Option Nat))
      = pure ((w.le32? 7).bind fun packed =>
        if minHeaderSize ≤ header ∧ header + packed ≤ w.size then some (header + packed)
        else none) := by
    intro header
    have hword := w.size_lt
    rw [hpackedSize, Option.bind_some]
    by_cases hheader : header < minHeaderSize
    · rw [if_pos hheader, if_neg (by omega)]
    · by_cases hfits : header + valueLE packed ≤ w.size
      · rw [if_neg hheader, if_pos ⟨by rw [UInt64.size]; omega, hfits⟩, if_pos ⟨by omega, hfits⟩]
      · rw [if_neg hheader, if_neg (by omega), if_neg (by omega)]
  by_cases hlevel : level ≤ 1
  · have hbyte := (w.get 0 (by omega)).toNat_lt
    have hadd : (add (w.get 0 (by omega)).toNat 2 : Guarded ε Nat) = pure _ :=
      add_of_lt (by omega)
    simp only [if_pos hlevel, index_of_eq_some hfirst, hadd, pure_bind, hfirst,
      Option.bind_eq_bind, Option.bind_some, Option.map_some]
    exact htest _
  · simp only [if_neg hlevel, littleEndian_of_bytes? hlength, pure_bind, hlongLength,
      Option.bind_eq_bind, Option.bind_some]
    exact htest _

/-- Under the greatest of all limits, one byte more than the limit is no word. -/
example : unpackMember (fun _ => .ok ⟨0, fun _ => .ok .empty⟩) 0xffffffffffffffff .empty
    = fail .overflow := rfl

end Lha.Steps

end Chiptune
