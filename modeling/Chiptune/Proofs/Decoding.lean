import Chiptune.Proofs.EntryNames
import Chiptune.Proofs.Extents
import Chiptune.Scan.Finding

namespace Chiptune

/-!
# What can be decoded

The check of a plugin and its decoder go separate ways through the same data. They agree on what
they accept, and what the decoder gives is never empty and never reaches beyond the data.

* `Plugin.Admits`, `Plugin.Exact` — the check admits what can be decoded, and in the second case
  nothing else;
* `Unpacked.Proper`, `TuneSet.Proper` — the bounds of what archives and players give;
* `Hobeta.parse_iff`, `Scl.layout_iff`, `Ice.unpack_iff`, `Lha.unpack_iff` — what makes data valid;
* for each format: what its parser found is there, and its plugin is exact or admits what it
  decodes, and keeps these bounds.
-/

/-! ### Promises -/

/-- Whether an archive takes some of the data and no more than that, and has entries that are not
    empty. -/
structure Unpacked.Proper (u : Unpacked) (w : Window) : Prop where
  consumed_pos : 0 < u.consumed
  consumed_le : u.consumed ≤ w.size
  entries_ne_nil : u.entries ≠ []
  entry_size_pos : ∀ e ∈ u.entries, 0 < e.data.size

/-- Whether tunes take some of the data and no more than that, there is one of them at least, and
    what makes the music is a stretch of the bytes taken. -/
structure TuneSet.Proper (t : TuneSet) (w : Window) : Prop where
  consumed_pos : 0 < t.consumed
  consumed_le : t.consumed ≤ w.size
  tracks_ne_nil : t.tracks ≠ []
  fixed_le : t.fixed.1 ≤ t.fixed.2
  fixed_inside : t.fixed.2 ≤ t.consumed

/-- Whether a decoder can do with the start of `w` what it is for. -/
def Decoder.succeeds (settings : Settings) (w : Window) : Decoder → Bool
  | .archive unpack => (unpack settings w).isOk
  | .player _ read => (read w).isOk
  | .multitrack _ read => (read w).isOk

namespace Plugin

/-- Whether everything that can be decoded is admitted by the check. -/
def Admits (p : Plugin) : Prop :=
  ∀ settings w, p.decoder.succeeds settings w = true → p.check w = true

/-- Whether the check admits what can be decoded and nothing else. -/
def Exact (p : Plugin) : Prop := ∀ settings w, p.check w = p.decoder.succeeds settings w

theorem Exact.admits {p : Plugin} (h : p.Exact) : p.Admits := by
  intro settings w hsucceeds
  rw [h settings w, hsucceeds]

/-- Whether all that the plugin decodes keeps its bounds. -/
structure Proper (p : Plugin) : Prop where
  contents : ∀ settings w u, p.decoder.contents? settings w = some u → u.Proper w
  tunes : ∀ w t, p.decoder.tunes? w = some t → t.Proper w

theorem proper_of_archive {p : Plugin} {unpack : Settings → Window → Except DecodeError Unpacked}
    (hdecoder : p.decoder = .archive unpack)
    (h : ∀ settings w u, unpack settings w = .ok u → u.Proper w) : p.Proper := by
  refine ⟨fun settings w u hu => ?_, fun w t ht => ?_⟩
  · rw [hdecoder] at hu
    exact h settings w u (Decoder.eq_ok_of_contents? hu)
  · rw [hdecoder] at ht
    cases ht

theorem proper_of_player {p : Plugin} {stubs : List Signature}
    {read : Window → Except DecodeError SingleTune} (hdecoder : p.decoder = .player stubs read)
    (h : ∀ w t, read w = .ok t → t.toTuneSet.Proper w) : p.Proper := by
  refine ⟨fun settings w u hu => ?_, fun w t ht => ?_⟩
  · rw [hdecoder] at hu
    cases hu
  · rw [hdecoder] at ht
    obtain ⟨tune, htune, rfl⟩ := Option.map_eq_some_iff.1 ht
    exact h w tune (eq_ok_of_toOption htune)

theorem proper_of_multitrack {p : Plugin} {stubs : List Signature}
    {read : Window → Except DecodeError TuneSet} (hdecoder : p.decoder = .multitrack stubs read)
    (h : ∀ w t, read w = .ok t → t.Proper w) : p.Proper := by
  refine ⟨fun settings w u hu => ?_, fun w t ht => ?_⟩
  · rw [hdecoder] at hu
    cases hu
  · rw [hdecoder] at ht
    exact h w t (eq_ok_of_toOption ht)

end Plugin

/-! ### Patterns and words -/

namespace Pattern

theorem meets_append (w : Window) (offset : Nat) (classes others : List ByteClass) :
    meets w offset (classes ++ others)
      = (meets w offset classes && meets w (offset + classes.length) others) := by
  induction classes generalizing offset with
  | nil => rfl
  | cons c rest ih =>
    rw [List.cons_append, meets, meets, List.length_cons, ih]
    cases w[offset]? with
    | none => rfl
    | some b =>
      have hnext : offset + 1 + rest.length = offset + (rest.length + 1) := by omega
      show (c.accepts b && _) = _
      rw [hnext, Bool.and_assoc]

theorem meets_replicate_any {w : Window} {offset count : Nat} (h : offset + count ≤ w.size) :
    meets w offset (List.replicate count .any) = true := by
  induction count generalizing offset with
  | zero => rfl
  | succ count ih =>
    have hbyte : w[offset]? = some (w.get offset (by omega)) := dif_pos _
    rw [List.replicate_succ, meets, hbyte]
    exact ih (by omega)

/-- A word meets classes that accept its bytes. -/
theorem meets_of_holdsAt {w : Window} {offset : Nat} {classes : List ByteClass}
    {bytes : List UInt8} (haccepts : List.Forall₂ (fun c b => c.accepts b = true) classes bytes)
    (h : w.holdsAt offset bytes = true) : meets w offset classes = true := by
  induction haccepts generalizing offset with
  | nil => rfl
  | cons hclass hrest ih =>
    obtain ⟨hbyte, hholds⟩ := Bool.and_eq_true_iff.1 h
    rw [meets, eq_of_beq hbyte]
    exact Bool.and_eq_true_iff.2 ⟨hclass, ih hholds⟩

theorem accepts_exact (b : UInt8) : (ByteClass.exact b).accepts b = true := by
  have hmask : b &&& 0xff = b := by
    rw [show (0xff : UInt8) = -1 from rfl, UInt8.and_neg_one]
  rw [ByteClass.exact, ByteClass.accepts, hmask]
  exact beq_self_eq_true b

theorem meets_literal {w : Window} {offset : Nat} {text : String}
    (h : w.holdsAt offset (Window.ascii text) = true) : meets w offset (literal text) = true := by
  apply meets_of_holdsAt _ h
  rw [literal, List.forall₂_map_left_iff]
  exact List.forall₂_same.2 fun b _ => accepts_exact b

end Pattern

theorem Signature.matchesStart_ofPattern {p : Pattern} {minSize : Nat} {w : Window}
    (hsize : minSize ≤ w.size) (hmatch : Pattern.meets w 0 p.classes = true) :
    (ofPattern p minSize).matchesStart w = true := by
  have hlength : 0 + p.length ≤ w.size := Pattern.add_length_le_of_matchesAt hmatch
  have hmax : max minSize p.length ≤ w.size := by omega
  exact Bool.and_eq_true_iff.2 ⟨decide_eq_true hmax, hmatch⟩

/-! ### Smaller windows -/

namespace Window

theorem sub?_eq_some {w : Window} {offset size : Nat} (hoffset : offset < w.size)
    (hsize : size ≠ 0) : w.sub? offset size = some ((w.drop offset).take size) :=
  if_pos ⟨hoffset, hsize⟩

theorem size_pos_of_sub? {w part : Window} {offset size : Nat}
    (h : w.sub? offset size = some part) : 0 < part.size := by
  unfold sub? at h
  split at h
  · rename_i hroom
    cases h
    rw [size_take, size_drop]
    omega
  · cases h

theorem size_ofByteArray {bytes : ByteArray} (h : bytes.size ≤ 0x7fffffffffff8000) :
    (ofByteArray bytes).size = bytes.size := by
  rw [ofByteArray, dif_pos h]

theorem add_length_le_of_holdsAt {w : Window} {offset : Nat} {bytes : List UInt8}
    (hne : bytes ≠ []) (h : w.holdsAt offset bytes = true) : offset + bytes.length ≤ w.size := by
  induction bytes generalizing offset with
  | nil => exact absurd rfl hne
  | cons b rest ih =>
    obtain ⟨hbyte, hholds⟩ := Bool.and_eq_true_iff.1 h
    have hlt := lt_size_of_getElem? (eq_of_beq hbyte)
    cases rest with
    | nil => exact hlt
    | cons b' rest =>
      have hend := ih (List.cons_ne_nil b' rest) hholds
      simp only [List.length_cons] at hend ⊢
      omega

end Window

/-! ### Archives -/

namespace Hobeta

/-- What a valid header says of the data that it stands in front of. -/
structure Header.Describes (header : Header) (w : Window) : Prop where
  signature : Hobeta.signature.matchesStart w = true
  read : Header.read? w = some header
  length_pos : 0 < header.length
  length_le : header.length ≤ maxDataSize
  sectors : header.sectors = wholeSectors header.length
  checksum : header.checksum = Hobeta.checksum w
  inside : headerSize + header.length ≤ w.size

theorem parse_iff {w : Window} {header : Header} : parse w = .ok header ↔ header.Describes w := by
  constructor
  · intro h
    simp only [parse, bind, Except.bind] at h
    split at h
    · cases h
    rename_i hsignature
    split at h
    · rename_i found hread
      split at h
      · cases h
      split at h
      · cases h
      rename_i hsectors
      split at h
      · cases h
      rename_i hchecksum
      split at h
      · cases h
      cases h
      exact ⟨by simpa using hsignature, hread, by omega, by omega, not_not.1 hsectors,
        not_not.1 hchecksum, by omega⟩
    · cases h
  · intro h
    have hpos := h.length_pos
    have hle := h.length_le
    have hinside := h.inside
    unfold parse
    rw [h.signature, h.read]
    simp only [bind, Except.bind, Bool.not_true, Bool.false_eq_true, if_false]
    rw [if_neg (by omega), if_neg (not_not.2 h.sectors), if_neg (not_not.2 h.checksum),
      if_neg (by omega)]
    rfl

/-- The file that a header describes has bytes, and all of them are there. -/
theorem parse_spec {w : Window} {header : Header} (h : parse w = .ok header) :
    0 < header.length ∧ headerSize + header.length ≤ w.size :=
  ⟨(parse_iff.1 h).length_pos, (parse_iff.1 h).inside⟩

theorem unpack_of_parse {w : Window} {header : Header} (h : parse w = .ok header) :
    unpack w = .ok {
      entries :=
        [⟨none, some ⟨headerSize, header.length⟩, (w.drop headerSize).take header.length⟩]
      consumed := min (headerSize + header.sectors) w.size } := by
  obtain ⟨hpos, hle⟩ := parse_spec h
  have hsub := Window.sub?_eq_some (w := w) (show headerSize < w.size by omega)
    (Nat.pos_iff_ne_zero.1 hpos)
  simp only [unpack, h, hsub, bind, Except.bind]
  rfl

theorem exact : plugin.Exact := fun _ _ =>
  isOk_congr (fun _ h => ⟨_, unpack_of_parse h⟩) fun _ h => (ok_of_bind h).imp fun _ => And.left

theorem proper_unpack {w : Window} {u : Unpacked} (h : unpack w = .ok u) : u.Proper w := by
  obtain ⟨header, hparse, -⟩ := ok_of_bind h
  obtain ⟨hpos, hle⟩ := parse_spec hparse
  rw [unpack_of_parse hparse] at h
  cases h
  have hheader : 0 < headerSize := by decide
  refine ⟨?_, Nat.min_le_right .., List.cons_ne_nil _ _, fun e he => ?_⟩
  · show 0 < min (headerSize + header.sectors) w.size
    omega
  · rw [List.mem_singleton.1 he]
    show 0 < ((w.drop headerSize).take header.length).size
    rw [Window.size_take, Window.size_drop]
    omega

end Hobeta

namespace Scl

/-- The end of the files, found by one multiplication. -/
theorem foldl_size (records : List FileRecord) (start : Nat) :
    records.foldl (fun stop r => stop + r.size) start
      = start + (records.map FileRecord.sectors).sum * sectorSize := by
  induction records generalizing start with
  | nil => rw [List.foldl_nil, List.map_nil, List.sum_nil, Nat.zero_mul, Nat.add_zero]
  | cons r rest ih =>
    rw [List.foldl_cons, ih, List.map_cons, List.sum_cons, Nat.add_mul, ← Nat.add_assoc]
    rfl

/-- What makes an image valid. -/
structure Layout.Describes (found : Layout) (w : Window) : Prop where
  signature : Scl.signature.matchesStart w = true
  records : readRecords? w = some found.records
  dataStart : found.dataStart = headerSize + found.records.length * recordSize
  size : found.size
    = found.records.foldl (fun stop record => stop + record.size) found.dataStart + checksumSize
  checksum : w.le32? (found.size - checksumSize)
    = some ((w.take (found.size - checksumSize)).byteSum % UInt32.size)

theorem layout_iff {w : Window} {found : Layout} :
    layout w = .ok found ↔ found.Describes w := by
  constructor
  · intro h
    simp only [layout, bind, Except.bind] at h
    split at h
    · cases h
    rename_i hsignature
    split at h
    · rename_i records hrecords
      split at h
      · rename_i stored hstored
        split at h
        · cases h
        rename_i hsum
        cases h
        refine ⟨by simpa using hsignature, hrecords, rfl, rfl, ?_⟩
        rw [Nat.add_sub_cancel, hstored, not_not.1 hsum]
      · cases h
    · cases h
  · intro h
    obtain ⟨records, dataStart, size⟩ := found
    obtain ⟨hsignature, hrecords, hstart, hsize, hchecksum⟩ := h
    simp only at hrecords hstart hsize hchecksum
    subst hstart hsize
    rw [Nat.add_sub_cancel] at hchecksum
    unfold layout
    rw [hsignature, hrecords]
    simp only [bind, Except.bind, Bool.not_true, Bool.false_eq_true, if_false, hchecksum, ne_eq,
      not_true]
    rfl

/-- An image ends inside the data, behind its records. -/
theorem layout_spec {w : Window} {found : Layout} (h : layout w = .ok found) :
    0 < found.size ∧ found.size ≤ w.size := by
  have hdescribes := layout_iff.1 h
  obtain ⟨bytes, hbytes, -⟩ := Option.map_eq_some_iff.1 hdescribes.checksum
  have hend := Window.add_le_size_of_bytes? (by decide) hbytes
  have hsize := hdescribes.size
  have hchecksumSize : checksumSize = 4 := rfl
  omega

/-- No entry of an image is empty. -/
theorem size_pos_of_mem_entries {w : Window} {claims : Claims} {used : List String} {offset : Nat}
    {records : List FileRecord} {e : Entry} (h : e ∈ entries w claims used offset records) :
    0 < e.data.size := by
  induction records generalizing claims used offset with
  | nil => cases h
  | cons record rest ih =>
    unfold entries at h
    simp only at h
    split at h
    · exact ih h
    · split at h
      · exact ih h
      · rename_i data hdata
        rcases List.mem_cons.1 h with rfl | h
        · exact Window.size_pos_of_sub? hdata
        · exact ih h

theorem admits : plugin.Admits := by
  intro settings w h
  obtain ⟨u, hu⟩ := isOk_iff.1 h
  obtain ⟨found, hlayout, -⟩ := ok_of_bind hu
  exact isOk_iff.2 ⟨found, hlayout⟩

theorem proper_unpack {w : Window} {u : Unpacked} (h : unpack w = .ok u) : u.Proper w := by
  simp only [unpack, bind, Except.bind] at h
  split at h
  · cases h
  rename_i found hlayout
  split at h
  · cases h
  rename_i hfiles
  cases h
  obtain ⟨hpos, hle⟩ := layout_spec hlayout
  exact ⟨hpos, hle, by simpa using hfiles, fun e he => size_pos_of_mem_entries he⟩

end Scl

namespace Ice

/-- The sizes of a valid header: the packed data is there, and the unpacked data is not empty. -/
theorem sizes?_spec {w : Window} {packed unpacked : Nat} (h : sizes? w = some (packed, unpacked)) :
    headerSize < packed ∧ packed ≤ w.size ∧ 0 < unpacked ∧ unpacked < UInt32.size := by
  unfold sizes? at h
  split at h
  · cases h
  · obtain ⟨first, -, h⟩ := Option.bind_eq_some_iff.1 h
    obtain ⟨second, hsecond, h⟩ := Option.bind_eq_some_iff.1 h
    split at h
    · rename_i hbounds
      cases h
      obtain ⟨bytes, hbytes, rfl⟩ := Option.map_eq_some_iff.1 hsecond
      have hlt := valueBE_lt bytes
      rw [Window.length_of_bytes? hbytes] at hlt
      exact ⟨hbounds.1, hbounds.2.1, hbounds.2.2, hlt⟩
    · cases h

theorem admits : plugin.Admits := by
  intro settings w h
  have hok : (unpack settings.maxDecodedSize w).isOk = true := h
  show (sizes? w).isSome = true
  cases hsizes : sizes? w with
  | some sizes => rfl
  | none =>
    unfold unpack at hok
    rw [hsizes] at hok
    cases hok

/-- Without its lowest bit a byte is half as much. -/
theorem toNat_shiftRight_one (b : UInt8) : (b >>> 1).toNat = b.toNat / 2 := by
  rw [UInt8.toNat_shiftRight, Nat.shiftRight_eq_div_pow]
  rfl

theorem and_one_eq_zero_iff {b : UInt8} : b &&& 1 = 0 ↔ b.toNat % 2 = 0 := by
  rw [← UInt8.toNat_inj, UInt8.toNat_and, UInt8.toNat_one, Nat.and_one_is_mod, UInt8.toNat_zero]

/-- A bit of a byte is still there when a zero below it is dropped. -/
theorem shiftRight_one_ne_zero {b : UInt8} (hne : b ≠ 0) (heven : b &&& 1 = 0) : b >>> 1 ≠ 0 := by
  intro hzero
  have hbit := and_one_eq_zero_iff.1 heven
  have hhalf := toNat_shiftRight_one b
  have hpos : b.toNat ≠ 0 := fun h => hne (UInt8.toNat_inj.1 h)
  rw [hzero, UInt8.toNat_zero] at hhalf
  omega

theorem size_copyLiteral {count place : Nat} {output output' : ByteArray} {r r' : BitReader}
    (h : copyLiteral count place output r = .ok (output', r')) : output'.size = output.size := by
  induction count generalizing place output r with
  | zero =>
    cases h
    rfl
  | succ count ih =>
    simp only [copyLiteral, bind, Except.bind] at h
    split at h
    · cases h
    · rw [ih h]
      exact ByteArray.size_set! ..

theorem size_copyMatch {distance count place source : Nat} {output output' : ByteArray}
    (h : copyMatch distance count place source output = .ok output') :
    output'.size = output.size := by
  induction count generalizing place source output with
  | zero =>
    cases h
    rfl
  | succ count ih =>
    unfold copyMatch at h
    split at h
    · rw [ih h]
      exact ByteArray.size_set! ..
    · cases h

/-- All places to write are inside the output. -/
theorem size_fill {place : Nat} {output output' : ByteArray} {r : BitReader}
    (h : fill place output r = .ok output') : output'.size = output.size := by
  fun_induction fill place output r with
  | case1 output r =>
    cases h
    rfl
  | case2 place output r hplace ihLiteral ihMatch =>
    obtain ⟨⟨literal, r₁⟩, -, h⟩ := ok_of_bind h
    cases literal with
    | true =>
      obtain ⟨⟨length, r₂⟩, -, h⟩ := ok_of_bind h
      obtain ⟨⟨written, r₃⟩, hliteral, h⟩ := ok_of_bind h
      have hwritten := size_copyLiteral hliteral
      simp only at h
      split at h
      · cases h
        exact hwritten
      · rename_i hleft
        obtain ⟨⟨extra, distance, r₄⟩, -, h⟩ := ok_of_bind h
        obtain ⟨copied, hcopy, h⟩ := ok_of_bind h
        rw [ihLiteral length hleft extra r₄ copied h, size_copyMatch hcopy, hwritten]
    | false =>
      obtain ⟨⟨extra, distance, r₂⟩, -, h⟩ := ok_of_bind h
      obtain ⟨copied, hcopy, h⟩ := ok_of_bind h
      rw [ihMatch extra r₂ copied h, size_copyMatch hcopy]

theorem size_depack {data : Window} {size : Nat} {output : ByteArray}
    (h : depack data size = .ok output) : output.size = size := by
  simp only [depack, bind, Except.bind] at h
  split at h
  · cases h
  · rw [size_fill h]
    exact Array.size_replicate

/-- Packed data is unpacked when its header is valid, the limit is kept, and the stream ends
    well. -/
theorem unpack_iff {limit : UInt64} {w : Window} {u : Unpacked} :
    unpack limit w = .ok u ↔ ∃ packed unpacked output,
      sizes? w = some (packed, unpacked) ∧ unpacked ≤ limit.toNat
        ∧ depack (w.take packed) unpacked = .ok output
        ∧ u = { entries := [⟨none, none, .ofByteArray output⟩], consumed := packed } := by
  constructor
  · intro h
    unfold unpack at h
    split at h
    · rename_i packed unpacked hsizes
      simp only at h
      split at h
      · cases h
      obtain ⟨output, houtput, h⟩ := ok_of_bind h
      cases h
      exact ⟨packed, unpacked, output, hsizes, by omega, mapError_eq_ok.1 houtput, rfl⟩
    · cases h
  · rintro ⟨packed, unpacked, output, hsizes, hlimit, hdepack, rfl⟩
    unfold unpack
    rw [hsizes]
    simp only
    rw [if_neg (by omega), hdepack]
    rfl

theorem proper_unpack {limit : UInt64} {w : Window} {u : Unpacked} (h : unpack limit w = .ok u) :
    u.Proper w := by
  obtain ⟨packed, unpacked, output, hsizes, -, hdepack, rfl⟩ := unpack_iff.1 h
  obtain ⟨hheader, hpacked, hpos, hword⟩ := sizes?_spec hsizes
  refine ⟨Nat.lt_of_le_of_lt (Nat.zero_le _) hheader, hpacked, List.cons_ne_nil _ _, ?_⟩
  intro e he
  rw [List.mem_singleton.1 he]
  have hsize := size_depack hdepack
  have hfits : UInt32.size ≤ 0x7fffffffffff8000 := by decide
  show 0 < (Window.ofByteArray output).size
  rw [Window.size_ofByteArray (by omega), hsize]
  exact hpos

end Ice

namespace Lha

/-- Both kinds of header sizes are followed by the same test. -/
theorem memberSize?_eq (w : Window) :
    memberSize? w = w[levelOffset]?.bind fun level =>
      (if level ≤ 1 then w[0]?.map fun length => length.toNat + 2 else w.le16? 0).bind fun header =>
        (w.le32? 7).bind fun packed =>
          if minHeaderSize ≤ header ∧ header + packed ≤ w.size then some (header + packed)
          else none := by
  apply congrArg w[levelOffset]?.bind
  funext level
  by_cases hlevel : level ≤ 1
  · rw [if_pos hlevel, if_pos hlevel]
    rfl
  · rw [if_neg hlevel, if_neg hlevel]
    rfl

theorem memberSize?_spec {w : Window} {size : Nat} (h : memberSize? w = some size) :
    0 < size ∧ size ≤ w.size := by
  rw [memberSize?_eq] at h
  obtain ⟨level, -, h⟩ := Option.bind_eq_some_iff.1 h
  obtain ⟨header, -, h⟩ := Option.bind_eq_some_iff.1 h
  obtain ⟨packed, -, h⟩ := Option.bind_eq_some_iff.1 h
  split at h
  · cases h
    have hmin : 0 < minHeaderSize := by decide
    omega
  · cases h

variable {reader : MemberReader}

/-- A member is unpacked when its header and what comes out of it keep the limit, and something comes
    out. One byte more than the limit is asked for, which has to be a word of 64 bits. -/
theorem unpackMember_iff {limit : UInt64} {w bytes : Window} :
    unpackMember reader limit w = .ok bytes ↔ ∃ member, reader w = .ok member
      ∧ member.size ≤ limit.toNat ∧ limit.toNat + 1 < UInt64.size
      ∧ member.take (limit.toNat + 1) = .ok bytes ∧ bytes.size ≤ limit.toNat ∧ 0 < bytes.size := by
  constructor
  · intro h
    obtain ⟨member, hmember, h⟩ := ok_of_bind h
    simp only at h
    split at h
    · cases h
    split at h
    · cases h
    obtain ⟨taken, htake, h⟩ := ok_of_bind h
    split at h
    · cases h
    split at h
    · cases h
    rename_i hempty
    cases h
    have hpos : 0 < bytes.size :=
      Nat.pos_of_ne_zero fun hzero => hempty (by rw [Window.isEmpty, hzero]; rfl)
    exact ⟨member, mapError_eq_ok.1 hmember, by omega, by omega, mapError_eq_ok.1 htake, by omega,
      hpos⟩
  · rintro ⟨member, hmember, hdeclared, hword, htake, hsize, hpos⟩
    have hempty : ¬bytes.isEmpty = true := by
      simpa [Window.isEmpty] using Nat.pos_iff_ne_zero.1 hpos
    unfold unpackMember
    rw [mapError_eq_ok.2 hmember]
    simp only [bind, Except.bind]
    rw [if_neg (by omega), if_neg (by omega), mapError_eq_ok.2 htake]
    simp only
    rw [if_neg (by omega), if_neg hempty]
    rfl

theorem unpack_iff {limit : UInt64} {w : Window} {u : Unpacked} :
    unpack reader limit w = .ok u ↔ signature.matchesStart w = true ∧ ∃ consumed bytes,
      memberSize? w = some consumed ∧ unpackMember reader limit (w.take consumed) = .ok bytes
        ∧ u = { entries := [⟨none, none, bytes⟩], consumed } := by
  constructor
  · intro h
    unfold unpack at h
    simp only at h
    split at h
    · cases h
    rename_i hsignature
    split at h
    · rename_i consumed hsize
      obtain ⟨bytes, hbytes, h⟩ := ok_of_bind h
      cases h
      exact ⟨by simpa using hsignature, consumed, bytes, hsize, hbytes, rfl⟩
    · cases h
  · rintro ⟨hsignature, consumed, bytes, hsize, hbytes, rfl⟩
    simp only [unpack, hsignature, hsize, hbytes, bind, Except.bind, Bool.not_true,
      Bool.false_eq_true, if_false]
    rfl

theorem admits : (pluginWith reader).Admits := by
  intro settings w h
  obtain ⟨u, hu⟩ := isOk_iff.1 h
  obtain ⟨hsignature, consumed, -, hsize, -⟩ := unpack_iff.1 hu
  show (signature.matchesStart w && (memberSize? w).isSome) = true
  rw [hsignature, hsize]
  rfl

theorem proper_unpack {limit : UInt64} {w : Window} {u : Unpacked}
    (h : unpack reader limit w = .ok u) : u.Proper w := by
  obtain ⟨-, consumed, bytes, hsize, hbytes, rfl⟩ := unpack_iff.1 h
  obtain ⟨member, -, -, -, -, -, hpos⟩ := unpackMember_iff.1 hbytes
  obtain ⟨hconsumed, hle⟩ := memberSize?_spec hsize
  refine ⟨hconsumed, hle, List.cons_ne_nil _ _, fun e he => ?_⟩
  rw [List.mem_singleton.1 he]
  exact hpos

end Lha

/-! ### Players -/

namespace Ay

theorem matchesStart_of_parse {w : Window} {f : File} {n : Nat} (h : parse w = .ok (f, n)) :
    signature.matchesStart w = true := by
  obtain ⟨hsize, hmagic, -⟩ := body_of_parse h
  exact Signature.matchesStart_ofPattern hsize (Pattern.meets_literal hmagic)

theorem length_songs {w : Window} {table count n : Nat} {l : List Song}
    (h : songs table count w = .ok (l, n)) : l.length = count := by
  induction count generalizing table l n with
  | zero =>
    cases h
    rfl
  | succ count ih =>
    obtain ⟨first, _, _, -, hrest, -⟩ := Reader.exists_of_bind h
    obtain ⟨rest, _, _, hsongs, hlast, -⟩ := Reader.exists_of_bind hrest
    cases hlast
    rw [List.length_cons, ih hsongs]

theorem songs_ne_nil {w : Window} {f : File} {n : Nat} (h : parse w = .ok (f, n)) :
    f.songs ≠ [] := by
  obtain ⟨-, -, l, hbody, -⟩ := body_of_parse h
  obtain ⟨author, _, _, -, h, -⟩ := Reader.exists_of_bind hbody
  obtain ⟨comment, _, _, -, h, -⟩ := Reader.exists_of_bind h
  obtain ⟨last, _, _, -, h, -⟩ := Reader.exists_of_bind h
  obtain ⟨firstSong, _, _, -, h, -⟩ := Reader.exists_of_bind h
  by_cases hcount : last.toNat + 1 ≤ firstSong.toNat
  · rw [if_pos hcount, Reader.bind_of_error rfl] at h
    cases h
  · rw [if_neg hcount] at h
    obtain ⟨table, _, _, -, h, -⟩ := Reader.exists_of_bind h
    obtain ⟨list, _, _, hsongs, hlast, -⟩ := Reader.exists_of_bind h
    cases hlast
    intro hnil
    have hlength := length_songs hsongs
    rw [show list = [] from hnil] at hlength
    cases hlength

/-- The tunes are the songs in order, each with the bytes up to the extent. -/
theorem read_of_parse {w : Window} {f : File} {n : Nat} (h : parse w = .ok (f, n)) :
    ∃ t, read w = .ok t ∧ t.consumed = n ∧ t.fixed = (0, n) ∧
      t.tracks = f.songs.zipIdx.map fun (s, i) =>
        ⟨⟨f.info s, (w.drop 0).take n, some (i + 1)⟩, (f.info s).toProperties⟩ := by
  obtain ⟨hheader, hreads⟩ := reads_file h
  have hinside := hreads.inside
  have hpos : 0 < headerSize := by decide
  have hsub := Window.sub?_eq_some (w := w) (show 0 < w.size by omega) (show n ≠ 0 by omega)
  simp only [read, bind, Except.bind, h, hsub]
  exact ⟨_, rfl, rfl, rfl, rfl⟩

theorem exact : plugin.Exact := by
  intro settings w
  show (signature.matchesStart w && (parse w).isOk) = (read w).isOk
  rw [and_isOk fun _ h => matchesStart_of_parse h]
  refine isOk_congr (fun found h => ?_) fun _ h => (ok_of_bind h).imp fun _ => And.left
  obtain ⟨t, hread, -⟩ := read_of_parse h
  exact ⟨t, hread⟩

theorem proper_read {w : Window} {t : TuneSet} (h : read w = .ok t) : t.Proper w := by
  obtain ⟨⟨f, n⟩, hparse, -⟩ := ok_of_bind h
  obtain ⟨hheader, hreads⟩ := reads_file hparse
  have hinside := hreads.inside
  have hpos : 0 < headerSize := by decide
  have hsongs := List.length_pos_iff.2 (songs_ne_nil hparse)
  obtain ⟨t', hread, hconsumed, hfixed, htracks⟩ := read_of_parse hparse
  cases hread.symm.trans h
  have hlength : t.tracks.length = f.songs.length := by
    rw [htracks, List.length_map, List.length_zipIdx]
  refine ⟨?_, ?_, List.length_pos_iff.1 (by omega), ?_, ?_⟩
  · rw [hconsumed]
    omega
  · rw [hconsumed]
    exact hinside
  · rw [hfixed]
    exact Nat.zero_le _
  · exact Nat.le_of_eq (by rw [hfixed, hconsumed])

end Ay

namespace Sndh

theorem trackCountAt_pos (w : Window) (start : Nat) : 0 < trackCountAt w start :=
  Nat.lt_min.2 ⟨by decide, Nat.lt_of_lt_of_le Nat.one_pos (Nat.le_max_left ..)⟩

theorem trackCount_read_pos {h : Header} (hpos : 0 < h.trackCount) (w : Window) (start : Nat)
    (field : Field) : 0 < (h.read w start field).1.trackCount := by
  cases field with
  | title | author | year | ripper | converter | defaultTrack =>
    rw [Header.read]
    generalize trimmed w start = found
    exact hpos
  | seconds | frames | names =>
    rw [Header.read]
    exact hpos
  | trackCount => exact trackCountAt_pos w start
  | rate =>
    rw [Header.read]
    obtain ⟨text, next⟩ := trimmed w start
    dsimp only
    split
    · exact hpos
    · exact hpos

theorem trackCount_readAll_pos {h : Header} (hpos : 0 < h.trackCount) (w : Window)
    (stop pos : Nat) : 0 < (h.readAll w stop pos).trackCount := by
  fun_induction Header.readAll h w stop pos with
  | case1 => exact hpos
  | case2 h pos _ _ _ ih => exact ih hpos
  | case3 h pos _ _ field start _ ih => exact ih (trackCount_read_pos hpos w start field)
  | case4 => exact hpos

/-- A file has a tune, and begins with the signature. -/
theorem parse_spec {w : Window} {h : Header} (hparse : parse w = .ok h) :
    0 < h.trackCount ∧ tagsOffset ≤ w.size ∧ signature.matchesStart w = true := by
  unfold parse at hparse
  simp only [bind, Except.bind] at hparse
  split at hparse
  · cases hparse
  split at hparse
  · cases hparse
  rename_i hsize hmagic
  cases hparse
  have hsize : tagsOffset ≤ w.size := Nat.le_of_not_lt hsize
  refine ⟨?_, hsize, ?_⟩
  · unfold Header.withDefault
    have hpos : 0 < (({} : Header).readAll w (min (jumpDistance w + 2) w.size)
        tagsOffset).trackCount := trackCount_readAll_pos Nat.one_pos ..
    split
    · exact hpos
    · exact hpos
  · have hwords : (w.holdsAt 0 [jump] && w.holdsAt magicOffset (Window.ascii magic)) = true := by
      simpa using hmagic
    obtain ⟨hjump, hword⟩ := Bool.and_eq_true_iff.1 hwords
    apply Signature.matchesStart_ofPattern (Nat.zero_le _)
    have hfirst : Pattern.meets w 0 [.exact jump] = true :=
      Pattern.meets_of_holdsAt (.cons (by decide) .nil) hjump
    have hany : Pattern.meets w 1 (List.replicate 11 .any) = true :=
      Pattern.meets_replicate_any (Nat.le_trans (by decide) hsize)
    have hlast : Pattern.meets w magicOffset (Pattern.literal magic) = true :=
      Pattern.meets_literal hword
    show Pattern.meets w 0 ([.exact jump] ++ (List.replicate 11 .any ++ Pattern.literal magic))
      = true
    rw [Pattern.meets_append, Pattern.meets_append]
    exact Bool.and_eq_true_iff.2 ⟨hfirst, Bool.and_eq_true_iff.2 ⟨hany, hlast⟩⟩

/-- The tunes share all of the data. -/
theorem read_of_parse {w : Window} {h : Header} (hparse : parse w = .ok h) :
    ∃ t, read w = .ok t ∧ t.consumed = w.size ∧ t.fixed = (0, w.size) ∧
      t.tracks = (List.range h.trackCount).map fun i =>
        ⟨⟨h.info i, w, some (i + 1)⟩, (h.info i).toProperties⟩ := by
  simp only [read, bind, Except.bind, hparse]
  exact ⟨_, rfl, rfl, rfl, rfl⟩

theorem exact : plugin.Exact := by
  intro settings w
  show (signature.matchesStart w && (parse w).isOk) = (read w).isOk
  rw [and_isOk fun _ h => (parse_spec h).2.2]
  refine isOk_congr (fun found h => ?_) fun _ h => (ok_of_bind h).imp fun _ => And.left
  obtain ⟨t, hread, -⟩ := read_of_parse h
  exact ⟨t, hread⟩

theorem proper_read {w : Window} {t : TuneSet} (h : read w = .ok t) : t.Proper w := by
  obtain ⟨header, hparse, -⟩ := ok_of_bind h
  obtain ⟨hpos, hsize, -⟩ := parse_spec hparse
  have htags : 0 < tagsOffset := by decide
  obtain ⟨t', hread, hconsumed, hfixed, htracks⟩ := read_of_parse hparse
  cases hread.symm.trans h
  have hlength : t.tracks.length = header.trackCount := by
    rw [htracks, List.length_map, List.length_range]
  refine ⟨?_, ?_, List.length_pos_iff.1 (by omega), ?_, ?_⟩
  · rw [hconsumed]
    omega
  · exact Nat.le_of_eq hconsumed
  · rw [hfixed]
    exact Nat.zero_le _
  · exact Nat.le_of_eq (by rw [hfixed, hconsumed])

end Sndh

namespace Ym

/-- Whether a recording ends inside the data, and its frames inside the recording. -/
structure Recording.Fits (r : Recording) (w : Window) : Prop where
  size_pos : 0 < r.size
  size_le : r.size ≤ w.size
  frames_le : r.frames.1 ≤ r.frames.2
  frames_inside : r.frames.2 ≤ r.size

/-- Plain frames fit, and there is room for the version and one frame. -/
theorem parsePlain_spec {w : Window} {trailer : Nat} {format : String} {r : Recording}
    (h : parsePlain w trailer format = .ok r) :
    r.Fits w ∧ versionSize + plainFrame ≤ w.size := by
  simp only [parsePlain, bind, Except.bind] at h
  split at h
  · cases h
  split at h
  · cases h
  rename_i hsize hcount
  cases h
  have hframe : 0 < plainFrame := by decide
  have hfit := Nat.div_mul_le_self (w.size - versionSize - trailer) plainFrame
  have hone := Nat.le_mul_of_pos_left plainFrame (Nat.pos_of_ne_zero hcount)
  refine ⟨⟨?_, Nat.le_refl _, Nat.le_add_right .., ?_⟩, ?_⟩
  · show 0 < w.size
    omega
  · show versionSize + (w.size - versionSize - trailer) / plainFrame * plainFrame ≤ w.size
    omega
  · omega

theorem le_text {w : Window} {offset next : Nat} {title : String}
    (h : text w offset = .ok (title, next)) : offset ≤ next := by
  unfold text at h
  split at h
  · cases h
  split at h
  · rename_i found hfound
    cases h
    exact Nat.le_of_lt (Window.lt_stop_of_terminated? hfound).1
  · cases h

theorem le_skipDrums {w : Window} {offset next count : Nat}
    (h : skipDrums w offset count = .ok next) : offset ≤ next := by
  induction count generalizing offset with
  | zero =>
    cases h
    exact Nat.le_refl _
  | succ count ih =>
    unfold skipDrums at h
    split at h
    · cases h
    simp only at h
    split at h
    · cases h
    have hle := ih h
    omega

/-- Frames with a header fit, and there is room for the header. -/
theorem parseFull_spec {w : Window} {format : String} {r : Recording}
    (h : parseFull w format = .ok r) : r.Fits w ∧ headerSize ≤ w.size := by
  unfold parseFull at h
  simp only at h
  split at h
  · cases h
  split at h
  · rename_i header hheader
    split at h
    · cases h
    obtain ⟨offset, hdrums, h⟩ := ok_of_bind h
    obtain ⟨⟨title, behindTitle⟩, htitle, h⟩ := ok_of_bind h
    obtain ⟨⟨author, behindAuthor⟩, hauthor, h⟩ := ok_of_bind h
    obtain ⟨⟨comments, start⟩, hcomments, h⟩ := ok_of_bind h
    simp only at h
    split at h
    · cases h
    rename_i hmarker
    cases h
    have hdrums := le_skipDrums hdrums
    have htitle := le_text htitle
    have hauthor : behindTitle ≤ behindAuthor := le_text hauthor
    have hcomments : behindAuthor ≤ start := le_text hcomments
    have hword : Window.ascii endMarker ≠ [] := by decide
    have hend : start + header.frames * fullFrame + endMarker.length ≤ w.size :=
      Window.add_length_le_of_holdsAt hword (by simpa using hmarker)
    refine ⟨⟨?_, hend, Nat.le_add_right .., Nat.le_add_right ..⟩, by omega⟩
    show 0 < start + header.frames * fullFrame + endMarker.length
    have : 0 < endMarker.length := by decide
    omega
  · cases h

theorem matchesStart_of_word {w : Window} {word : String}
    (hword : word ∈ ["YM2!", "YM3!", "YM3b", "YM5!", "YM6!"])
    (h : w.holdsAt 0 (Window.ascii word) = true) (hsize : 18 ≤ w.size) :
    signature.matchesStart w = true := by
  refine Signature.matchesStart_ofPattern hsize (Pattern.meets_of_holdsAt ?_ h)
  simp only [List.mem_cons, List.not_mem_nil, or_false] at hword
  rcases hword with rfl | rfl | rfl | rfl | rfl
  · decide
  · decide
  · decide
  · decide
  · decide

theorem parse_spec {w : Window} {r : Recording} (h : parse w = .ok r) :
    signature.matchesStart w = true ∧ r.Fits w := by
  have hplain : 18 ≤ versionSize + plainFrame := by decide
  have hfull : 18 ≤ headerSize := by decide
  unfold parse at h
  simp only at h
  split at h
  · rename_i hword
    obtain ⟨hfits, hsize⟩ := parsePlain_spec h
    refine ⟨?_, hfits⟩
    rcases Bool.or_eq_true_iff.1 hword with hword | hword
    · exact matchesStart_of_word (by simp) hword (Nat.le_trans hplain hsize)
    · exact matchesStart_of_word (by simp) hword (Nat.le_trans hplain hsize)
  split at h
  · rename_i hword
    obtain ⟨hfits, hsize⟩ := parsePlain_spec h
    exact ⟨matchesStart_of_word (by simp) hword (Nat.le_trans hplain hsize), hfits⟩
  split at h
  · rename_i hword
    obtain ⟨hfits, hsize⟩ := parseFull_spec h
    exact ⟨matchesStart_of_word (by simp) hword (Nat.le_trans hfull hsize), hfits⟩
  split at h
  · rename_i hword
    obtain ⟨hfits, hsize⟩ := parseFull_spec h
    exact ⟨matchesStart_of_word (by simp) hword (Nat.le_trans hfull hsize), hfits⟩
  · cases h

theorem read_of_parse {w : Window} {r : Recording} (h : parse w = .ok r) :
    read w = .ok {
      tune := ⟨r.info, (w.drop 0).take r.size, none⟩
      consumed := r.size
      fixed := r.frames
      properties := r.info.toProperties } := by
  obtain ⟨-, hfits⟩ := parse_spec h
  have hpos := hfits.size_pos
  have hle := hfits.size_le
  have hsub := Window.sub?_eq_some (w := w) (show 0 < w.size by omega) (show r.size ≠ 0 by omega)
  simp only [read, bind, Except.bind, h, hsub]
  rfl

theorem exact : plugin.Exact := by
  intro settings w
  show (signature.matchesStart w && (parse w).isOk) = (read w).isOk
  rw [and_isOk fun _ h => (parse_spec h).1]
  exact isOk_congr (fun _ h => ⟨_, read_of_parse h⟩) fun _ h => (ok_of_bind h).imp fun _ => And.left

theorem proper_read {w : Window} {t : SingleTune} (h : read w = .ok t) :
    t.toTuneSet.Proper w := by
  obtain ⟨r, hparse, -⟩ := ok_of_bind h
  obtain ⟨-, hfits⟩ := parse_spec hparse
  rw [read_of_parse hparse] at h
  cases h
  exact ⟨hfits.size_pos, hfits.size_le, List.cons_ne_nil _ _, hfits.frames_le,
    hfits.frames_inside⟩

end Ym

end Chiptune
