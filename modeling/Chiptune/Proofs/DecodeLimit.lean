import Chiptune.Proofs.Promises
import Chiptune.Proofs.SelfDelimiting

namespace Chiptune

/-!
# The limit of unpacking

Packed data is unpacked up to a limit. What is unpacked within one limit is unpacked within every
greater one in the same way, but for the greatest word of 64 bits: of an LHA member one byte more
than the limit is asked for, and there is no greater word to ask with.

* `Lha.MemberReader.Steady` — a reader gives the same bytes however many are asked for;
* `Catalog.contents?_of_le` — what becomes of an archive when the limit grows.
-/

/-! ### Members of archives -/

namespace Lha

/-- Whether the bytes of a member do not depend on how many of them are asked for. There are no more
    than asked for, and when there are less these are all: asking for more gives the same. -/
def MemberReader.Steady (reader : MemberReader) : Prop :=
  ∀ w member, reader w = .ok member → ∀ most bytes, member.take most = .ok bytes →
    bytes.size ≤ most ∧ (bytes.size < most → ∀ more, most ≤ more → member.take more = .ok bytes)

theorem steady_openMember : MemberReader.Steady openMember := by
  intro w member hmember most bytes hbytes
  obtain ⟨header, -, h⟩ := ok_of_bind hmember
  cases h
  simp only at hbytes ⊢
  split at hbytes
  · cases hbytes
    refine ⟨Nat.zero_le _, fun hlt => ?_⟩
    omega
  · obtain ⟨output, houtput, h⟩ := ok_of_bind hbytes
    cases h
    -- The whole member is decoded in any case, and then cut off.
    refine ⟨Nat.min_le_left .., fun hlt more hle => ?_⟩
    rw [if_neg (by omega), houtput]
    show Except.ok ((Window.ofByteArray output).take more) = _
    have hall : (Window.ofByteArray output).size < most := by
      simpa using hlt
    simp only [Window.take, Nat.min_eq_right (Nat.le_of_lt hall),
      Nat.min_eq_right (Nat.le_trans (Nat.le_of_lt hall) hle)]

variable {reader : MemberReader}

/-- A member that is unpacked within a limit is unpacked within a greater one, unless that is the
    greatest word: there is no number of bytes to ask for that is greater. -/
theorem unpackMember_of_le (hreader : reader.Steady) {limit limit' : UInt64} (hle : limit ≤ limit')
    {w bytes : Window} (h : unpackMember reader limit w = .ok bytes) :
    unpackMember reader limit' w = .ok bytes ↔ limit'.toNat + 1 < UInt64.size := by
  have hle : limit.toNat ≤ limit'.toNat := UInt64.le_iff_toNat_le.1 hle
  obtain ⟨member, hmember, hdeclared, -, htake, hsize, hpos⟩ := unpackMember_iff.1 h
  obtain ⟨-, hall⟩ := hreader w member hmember _ bytes htake
  constructor
  · intro h'
    obtain ⟨-, -, -, hword, -⟩ := unpackMember_iff.1 h'
    exact hword
  · intro hword
    -- Less came out than was asked for, so more can be asked for.
    have htake' := hall (by omega) (limit'.toNat + 1) (by omega)
    exact unpackMember_iff.2 ⟨member, hmember, by omega, hword, htake', by omega, hpos⟩

end Lha

/-! ### The archives of the library -/

/-- The limit is kept before anything is unpacked, and has no other part in it. -/
theorem Ice.unpack_of_le {limit limit' : UInt64} (hle : limit ≤ limit') {w : Window} {u : Unpacked}
    (h : unpack limit w = .ok u) : unpack limit' w = .ok u := by
  have hle : limit.toNat ≤ limit'.toNat := UInt64.le_iff_toNat_le.1 hle
  obtain ⟨packed, unpacked, output, hsizes, hlimit, hdepack, hu⟩ := unpack_iff.1 h
  exact unpack_iff.2 ⟨packed, unpacked, output, hsizes, Nat.le_trans hlimit hle, hdepack, hu⟩

theorem Lha.unpack_of_le {reader : MemberReader} (hreader : reader.Steady)
    {limit limit' : UInt64} (hle : limit ≤ limit') {w : Window} {u : Unpacked}
    (h : unpack reader limit w = .ok u) :
    unpack reader limit' w = .ok u ↔ limit'.toNat + 1 < UInt64.size := by
  obtain ⟨hsignature, consumed, bytes, hsize, hbytes, rfl⟩ := unpack_iff.1 h
  rw [← unpackMember_of_le hreader hle hbytes]
  constructor
  · intro h'
    obtain ⟨-, consumed', bytes', hsize', hbytes', hu⟩ := unpack_iff.1 h'
    cases hsize.symm.trans hsize'
    cases hu
    exact hbytes'
  · intro hbytes'
    exact unpack_iff.2 ⟨hsignature, consumed, bytes, hsize, hbytes', rfl⟩

theorem Decoder.contents?_eq_some {unpack : Settings → Window → Except DecodeError Unpacked}
    {settings : Settings} {w : Window} {u : Unpacked} :
    (archive unpack).contents? settings w = some u ↔ unpack settings w = .ok u := by
  refine ⟨eq_ok_of_contents?, fun h => ?_⟩
  show (unpack settings w).toOption = some u
  rw [h]
  rfl

namespace Catalog

/-- **A greater limit changes nothing**, but for the greatest word. What an archive of the library
    gives within one limit it gives within every greater one, whatever the other settings are: the
    same entries, and the same number of bytes taken. The member of an LHA archive is not unpacked
    when the limit is the greatest word, however small the member is. -/
theorem contents?_of_le {reader : Lha.MemberReader} (hreader : reader.Steady) {p : Plugin}
    (hp : p ∈ pluginsWith reader) {settings settings' : Settings}
    (hle : settings.maxDecodedSize ≤ settings'.maxDecodedSize) {w : Window} {u : Unpacked}
    (h : p.decoder.contents? settings w = some u) :
    p.decoder.contents? settings' w = some u
      ↔ (p.id = "LHA" → settings'.maxDecodedSize.toNat + 1 < UInt64.size) := by
  simp only [pluginsWith, List.mem_cons, List.not_mem_nil, or_false] at hp
  rcases hp with rfl | rfl | rfl | rfl | rfl | rfl | rfl
  -- The files of a disk are cut out of it, and no limit applies.
  · exact ⟨fun _ hid => absurd hid (by decide), fun _ => h⟩
  · exact ⟨fun _ hid => absurd hid (by decide), fun _ => h⟩
  · refine ⟨fun _ hid => absurd hid (by decide), fun _ => ?_⟩
    exact Decoder.contents?_eq_some.2 (Ice.unpack_of_le hle (Decoder.contents?_eq_some.1 h))
  · have hlimits := Lha.unpack_of_le hreader hle (Decoder.contents?_eq_some.1 h)
    exact Decoder.contents?_eq_some.trans (hlimits.trans ⟨fun hlt _ => hlt, fun hlt => hlt rfl⟩)
  · cases h
  · cases h
  · cases h

/-- The stored member is unpacked within every limit from its size on, but for the greatest word. -/
theorem contents?_storedMember :
    let settings : Settings := { maxDecodedSize := 4 }
    let settings' : Settings := { maxDecodedSize := 0xfffffffffffffffe }
    Lha.MemberReader.Steady Lha.openMember ∧ Lha.plugin ∈ pluginsWith Lha.openMember
      ∧ settings.maxDecodedSize ≤ settings'.maxDecodedSize
      ∧ ∃ u, Lha.plugin.decoder.contents? settings Lha.storedMember = some u
        ∧ Lha.plugin.decoder.contents? settings' Lha.storedMember = some u := by
  intro settings settings'
  have hmem : Lha.plugin ∈ pluginsWith Lha.openMember := by
    simp [pluginsWith, Lha.plugin]
  have hle : settings.maxDecodedSize ≤ settings'.maxDecodedSize := by decide
  have hrun : (Lha.plugin.decoder.contents? settings Lha.storedMember).isSome = true := by
    decide +kernel
  obtain ⟨u, hu⟩ := Option.isSome_iff_exists.1 hrun
  refine ⟨Lha.steady_openMember, hmem, hle, u, hu, ?_⟩
  exact (contents?_of_le Lha.steady_openMember hmem hle hu).2 fun _ => by decide

/-- A member of four bytes is unpacked within a limit of four bytes. When the limit is the greatest
    word, the number of bytes to ask for overflows. -/
theorem not_contents?_storedMember :
    (4 : UInt64) ≤ 0xffffffffffffffff
      ∧ (Lha.unpack Lha.openMember 4 Lha.storedMember).toOption.map
          (fun u => (u.entries.map fun e => e.data.toList, u.consumed))
        = some ([[0x74, 0x75, 0x6e, 0x65]], 28)
      ∧ (Lha.unpack Lha.openMember 0xffffffffffffffff Lha.storedMember).map Unpacked.consumed
        = .error .overflow :=
  ⟨by decide, by decide +kernel, by decide +kernel⟩

end Catalog

end Chiptune
