import Chiptune.Proofs.Decoding
import Chiptune.Proofs.Ledger
import Chiptune.Proofs.Relocation
import Chiptune.Proofs.WrittenBytes

namespace Chiptune

/-!
# Formats that say where they end

Most formats state how many bytes belong to them. What such a format takes from the start of the
data is all that it depends on: any bytes may follow, and the same is read.

* `Unpacked.Same`, `SingleTune.Same` — results that are the same bytes, wherever these stand;
* `Hobeta.unpack_of_agreeTo`, `Scl.unpack_of_agreeTo` and those of the other formats — what follows
  the stated bytes is not looked at;
* `Ym.HasHeader` — the recordings that state their size;
* `ReadsOnly`, `selfDelimiting` — what is read depends on no more than the stated bytes.
-/

/-! ### The same results -/

/-- Whether two entries are the same file: its name, its place in the archive and its bytes. -/
structure Entry.Same (e e' : Entry) : Prop where
  name : e.name = e'.name
  origin : e.origin = e'.origin
  bytes : e.data.toList = e'.data.toList

theorem Entry.same_refl (e : Entry) : e.Same e := ⟨rfl, rfl, rfl⟩

/-- Whether two archives have the same files, take the same number of bytes and hand on the same
    properties. -/
structure Unpacked.Same (u u' : Unpacked) : Prop where
  entries : List.Forall₂ Entry.Same u.entries u'.entries
  consumed : u.consumed = u'.consumed
  properties : u.properties = u'.properties

theorem Unpacked.same_refl (u : Unpacked) : u.Same u :=
  ⟨List.forall₂_same.2 fun e _ => e.same_refl, rfl, rfl⟩

/-- Whether two modules are the same tune: its description, its bytes, and where in them the music
    stands. -/
structure SingleTune.Same (s s' : SingleTune) : Prop where
  info : s.tune.info = s'.tune.info
  bytes : s.tune.data.toList = s'.tune.data.toList
  track : s.tune.track = s'.tune.track
  consumed : s.consumed = s'.consumed
  fixed : s.fixed = s'.fixed
  properties : s.properties = s'.properties

open Window (AgreeTo)

variable {w w' : Window} {n : Nat}

/-! ### Hobeta files -/

namespace Hobeta

theorem Header.Describes.of_agreeTo {header : Header} (h : header.Describes w)
    (hagree : AgreeTo n w w') (hn : headerSize + header.length ≤ n) (hsize : n ≤ w'.size) :
    header.Describes w' := by
  have hpos := h.length_pos
  have hminSize : Hobeta.signature.minSize = headerSize + 1 := by decide
  have hheaderSize : headerSize = 17 := rfl
  refine { h with
    signature := hagree.matchesStart (by omega) (by omega) h.signature
    read := ?_
    checksum := ?_
    inside := by omega }
  · rw [← h.read]
    simp only [Header.read?, Window.le16?]
    rw [hagree.bytes? (by omega), hagree.bytes? (by omega), hagree.bytes? (by omega)]
  · rw [h.checksum]
    simp only [Hobeta.checksum, Window.byteSum, Window.foldl_eq]
    rw [hagree.take (by omega)]

/-- The file is cut out of the data, and nothing behind it is looked at. -/
theorem unpack_of_agreeTo {u : Unpacked} {header : Header} (h : unpack w = .ok u)
    (hheader : parse w = .ok header) (hwhole : u.consumed = headerSize + header.sectors)
    (hagree : AgreeTo u.consumed w w') (hsize : u.consumed ≤ w'.size) :
    ∃ u', unpack w' = .ok u' ∧ u.Same u' := by
  have hdescribes := parse_iff.1 hheader
  have hpadding : header.length ≤ header.sectors := by
    rw [hdescribes.sectors, wholeSectors]
    omega
  have hdescribes' := hdescribes.of_agreeTo hagree (by omega) hsize
  refine ⟨_, unpack_of_parse (parse_iff.2 hdescribes'), ?_⟩
  rw [unpack_of_parse hheader] at h
  cases h
  refine ⟨?_, ?_, rfl⟩
  · exact .cons ⟨rfl, rfl, hagree.slice (by omega)⟩ .nil
  · have hwhole : min (headerSize + header.sectors) w.size = headerSize + header.sectors := hwhole
    have hsize : min (headerSize + header.sectors) w.size ≤ w'.size := hsize
    show min (headerSize + header.sectors) w.size = min (headerSize + header.sectors) w'.size
    omega

end Hobeta

/-! ### SCL images -/

namespace Scl

theorem FileRecord.read?_of_agreeTo {offset : Nat} (hagree : AgreeTo n w w')
    (hend : offset + recordSize ≤ n) : FileRecord.read? w offset = FileRecord.read? w' offset := by
  have hsize : recordSize = 14 := rfl
  unfold FileRecord.read?
  rw [hagree.bytes? (by omega), hagree.getElem? (by omega), hagree.getElem? (by omega)]

/-- The records are there in other data when all of them are among the common bytes. -/
theorem readRecords?_of_agreeTo {records : List FileRecord} (hagree : AgreeTo n w w')
    (h : readRecords? w = some records) (hend : headerSize + records.length * recordSize ≤ n) :
    readRecords? w' = some records := by
  have hheader : magic.length < headerSize := by decide
  obtain ⟨count, hcount, hread⟩ := Option.bind_eq_some_iff.1 h
  have hread := mapM_eq_some.1 hread
  have hlength := hread.length_eq
  rw [List.length_range] at hlength
  rw [readRecords?, ← hagree.getElem? (by omega), hcount]
  show (List.range count.toNat).mapM _ = some records
  refine mapM_eq_some.2 (((List.forall₂_and_left _ _).2 ⟨fun i => List.mem_range.1, hread⟩).imp ?_)
  rintro i record ⟨hi, hrecord⟩
  have hrow : (i + 1) * recordSize ≤ records.length * recordSize :=
    Nat.mul_le_mul_right _ (by omega)
  rw [Nat.add_mul, Nat.one_mul] at hrow
  rw [← FileRecord.read?_of_agreeTo hagree (by omega), hrecord]

/-- An image with files has the least size of an image. -/
theorem minSize_le {found : Layout} (h : found.Describes w)
    (hfiles : 0 < (found.records.map FileRecord.sectors).sum) :
    signature.minSize ≤ found.size := by
  have hsizes : headerSize = 9 ∧ recordSize = 14 ∧ sectorSize = 256 ∧ checksumSize = 4 :=
    ⟨rfl, rfl, rfl, rfl⟩
  obtain ⟨hheader, hrecord, hsector, hchecksum⟩ := hsizes
  have hminSize : signature.minSize = 283 := by decide
  have hsize := h.size
  have hrecords : 0 < found.records.length := by
    apply List.length_pos_iff.2
    rintro hnil
    rw [hnil] at hfiles
    exact absurd hfiles (Nat.lt_irrefl 0)
  rw [foldl_size, h.dataStart, hrecord, hsector] at hsize
  omega

theorem Layout.Describes.of_agreeTo {found : Layout} (h : found.Describes w)
    (hagree : AgreeTo found.size w w') (hmin : Scl.signature.minSize ≤ found.size)
    (hle : found.size ≤ w'.size) : found.Describes w' := by
  have hsize := h.size
  rw [foldl_size] at hsize
  have hchecksumSize : checksumSize = 4 := rfl
  have hbody : found.size - checksumSize + 4 ≤ found.size := by omega
  refine { h with
    signature := hagree.matchesStart hmin (by omega) h.signature
    records := ?_
    checksum := ?_ }
  · apply readRecords?_of_agreeTo hagree h.records
    rw [← h.dataStart]
    omega
  · have hchecksum := h.checksum
    rw [Window.le32?, Window.byteSum, Window.foldl_eq, hagree.bytes? hbody,
      hagree.take (by omega)] at hchecksum
    rw [Window.le32?, Window.byteSum, Window.foldl_eq, hchecksum]

/-- Only files with sectors become entries. -/
theorem sum_pos_of_entries {claims : Claims} {used : List String} {offset : Nat}
    {records : List FileRecord} (h : entries w claims used offset records ≠ []) :
    0 < (records.map FileRecord.sectors).sum := by
  induction records generalizing claims used offset with
  | nil => exact absurd rfl h
  | cons record rest ih =>
    rw [List.map_cons, List.sum_cons]
    unfold entries at h
    simp only at h
    split at h
    · exact Nat.lt_of_lt_of_le (ih h) (Nat.le_add_left ..)
    · rename_i hclaims
      have hsize := Claims.size_ne_zero_of_add? hclaims
      have hsectors : record.sectors ≠ 0 := by
        rintro hzero
        apply hsize
        show record.sectors * sectorSize = 0
        rw [hzero, Nat.zero_mul]
      omega

/-- The files lie one behind the other, so all of them are among the common bytes when the end of
    the last one is. -/
theorem entries_of_agreeTo {claims : Claims} {used : List String} {offset : Nat}
    {records : List FileRecord} (hagree : AgreeTo n w w') (hn : n ≤ w.size) (hn' : n ≤ w'.size)
    (hend : offset + (records.map FileRecord.sectors).sum * sectorSize ≤ n) :
    List.Forall₂ Entry.Same (entries w claims used offset records)
      (entries w' claims used offset records) := by
  induction records generalizing claims used offset with
  | nil => exact .nil
  | cons record rest ih =>
    rw [List.map_cons, List.sum_cons, Nat.add_mul, ← Nat.add_assoc] at hend
    have hrecord : offset + record.size ≤ n := by
      show offset + record.sectors * sectorSize ≤ n
      omega
    simp only [entries]
    cases hclaims : claims.add? ⟨offset, record.size⟩ with
    | none => exact ih hend
    | some claims' =>
      have hsize : record.size ≠ 0 := Claims.size_ne_zero_of_add? hclaims
      rw [Window.sub?_eq_some (by omega) hsize, Window.sub?_eq_some (by omega) hsize]
      exact .cons ⟨rfl, rfl, hagree.slice hrecord⟩ (ih hend)

/-- The files are cut out of the image, and nothing behind it is looked at. -/
theorem unpack_of_agreeTo {u : Unpacked} (h : unpack w = .ok u) (hagree : AgreeTo u.consumed w w')
    (hsize : u.consumed ≤ w'.size) : ∃ u', unpack w' = .ok u' ∧ u.Same u' := by
  obtain ⟨found, hlayout, h⟩ := ok_of_bind h
  simp only at h
  split at h
  · cases h
  rename_i hfiles
  cases h
  have hagree : AgreeTo found.size w w' := hagree
  have hsize : found.size ≤ w'.size := hsize
  have hdescribes := layout_iff.1 hlayout
  have hinside := (layout_spec hlayout).2
  have hentries : entries w (.empty .total found.size) [] found.dataStart found.records ≠ [] := by
    simpa using hfiles
  have hmin := minSize_le hdescribes (sum_pos_of_entries hentries)
  have hlayout' := layout_iff.2 (hdescribes.of_agreeTo hagree hmin hsize)
  have hend := hdescribes.size
  rw [foldl_size] at hend
  -- The ledger is as large as the image, not as the data, so it grants the same.
  have hsame : List.Forall₂ Entry.Same
      (entries w (.empty .total found.size) [] found.dataStart found.records)
      (entries w' (.empty .total found.size) [] found.dataStart found.records) :=
    entries_of_agreeTo hagree hinside hsize (by omega)
  have hentries' : entries w' (.empty .total found.size) [] found.dataStart found.records ≠ [] := by
    intro hnil
    rw [hnil] at hsame
    exact hentries (List.forall₂_nil_right_iff.1 hsame)
  refine ⟨⟨entries w' (.empty .total found.size) [] found.dataStart found.records, found.size, ∅⟩,
    ?_, hsame, rfl, rfl⟩
  rw [unpack, hlayout']
  simp only [bind, Except.bind]
  rw [if_neg (by simpa using hentries')]
  rfl

end Scl

/-! ### ICE! packed data -/

namespace Ice

theorem sizes?_of_agreeTo {packed unpacked : Nat} (h : sizes? w = some (packed, unpacked))
    (hagree : AgreeTo packed w w') (hsize : packed ≤ w'.size) :
    sizes? w' = some (packed, unpacked) := by
  obtain ⟨hheader, -, hpos, -⟩ := sizes?_spec h
  have hheaderSize : headerSize = 12 := rfl
  have hminSize : signature.minSize = headerSize + 1 := by decide
  unfold sizes? at h
  split at h
  · cases h
  rename_i hsignature
  obtain ⟨first, hfirst, h⟩ := Option.bind_eq_some_iff.1 h
  obtain ⟨second, hsecond, h⟩ := Option.bind_eq_some_iff.1 h
  split at h
  · obtain ⟨rfl, rfl⟩ := Prod.mk.inj (Option.some.inj h)
    have hsignature' := hagree.matchesStart (by omega) (by omega)
      (show signature.matchesStart w = true by simpa using hsignature)
    rw [Window.be32?, hagree.bytes? (by omega)] at hfirst hsecond
    rw [sizes?, hsignature', Window.be32?, hfirst, Window.be32?, hsecond]
    show (if headerSize < first ∧ first ≤ w'.size ∧ 0 < second then some (first, second) else none)
      = some (first, second)
    exact if_pos ⟨hheader, hsize, hpos⟩
  · cases h

/-- The packed stream ends where the header says, and is read from there. -/
theorem unpack_of_agreeTo {limit : UInt64} {u : Unpacked} (h : unpack limit w = .ok u)
    (hagree : AgreeTo u.consumed w w') (hsize : u.consumed ≤ w'.size) :
    unpack limit w' = .ok u := by
  obtain ⟨packed, unpacked, output, hsizes, hlimit, hdepack, rfl⟩ := unpack_iff.1 h
  have hsizes' := sizes?_of_agreeTo hsizes hagree hsize
  rw [depack_congr (hagree.take (Nat.le_refl packed))] at hdepack
  exact unpack_iff.2 ⟨packed, unpacked, output, hsizes', hlimit, hdepack, rfl⟩

end Ice

/-! ### LHA archives -/

namespace Lha

/-- Whether members are read from their bytes alone, wherever these stand. -/
def MemberReader.OfBytes (reader : MemberReader) : Prop :=
  ∀ w w' : Window, w.toList = w'.toList → reader w = reader w'

theorem ofBytes_openMember : MemberReader.OfBytes openMember := fun _ _ => openMember_congr

variable {reader : MemberReader}

theorem memberSize?_of_agreeTo {size : Nat} (h : memberSize? w = some size)
    (hagree : AgreeTo size w w') (hsize : size ≤ w'.size) :
    minHeaderSize ≤ size ∧ memberSize? w' = some size := by
  have hoffset : levelOffset = 20 ∧ minHeaderSize = 24 := ⟨rfl, rfl⟩
  rw [memberSize?_eq] at h
  obtain ⟨level, hlevel, h⟩ := Option.bind_eq_some_iff.1 h
  obtain ⟨header, hheader, h⟩ := Option.bind_eq_some_iff.1 h
  obtain ⟨packed, hpacked, h⟩ := Option.bind_eq_some_iff.1 h
  split at h
  · cases h
    -- The sizes stand in the least header, which is among the common bytes.
    rw [hagree.getElem? (by omega)] at hlevel
    rw [hagree.getElem? (by omega), Window.le16?, hagree.bytes? (by omega)] at hheader
    rw [Window.le32?, hagree.bytes? (by omega)] at hpacked
    rw [memberSize?_eq, hlevel, Option.bind_some, Window.le16?, hheader, Option.bind_some,
      Window.le32?, hpacked, Option.bind_some]
    exact ⟨by omega, if_pos ⟨by omega, hsize⟩⟩
  · cases h

/-- The reader is given the bytes of the member and no others. -/
theorem unpack_of_agreeTo (hreader : reader.OfBytes) {limit : UInt64} {u : Unpacked}
    (h : unpack reader limit w = .ok u) (hagree : AgreeTo u.consumed w w')
    (hsize : u.consumed ≤ w'.size) : unpack reader limit w' = .ok u := by
  have hminSize : signature.minSize = minHeaderSize := by decide
  obtain ⟨hsignature, consumed, bytes, hmember, hbytes, rfl⟩ := unpack_iff.1 h
  obtain ⟨hmin, hmember'⟩ := memberSize?_of_agreeTo hmember hagree hsize
  have hsignature' := hagree.matchesStart (by rw [hminSize]; exact hmin)
    (by rw [hminSize]; exact Nat.le_trans hmin hsize) hsignature
  rw [unpackMember, hreader _ _ (hagree.take (Nat.le_refl consumed))] at hbytes
  exact unpack_iff.2 ⟨hsignature', consumed, bytes, hmember', hbytes, rfl⟩

end Lha

/-! ### YM files -/

namespace Ym

theorem text_of_agreeTo {offset next : Nat} {s : String} (h : text w offset = .ok (s, next))
    (hagree : AgreeTo n w w') (hnext : next ≤ n) (hsize : n ≤ w'.size) :
    text w' offset = .ok (s, next) := by
  unfold text at h
  split at h
  · cases h
  split at h
  · rename_i found hfound
    cases h
    have hlt := Window.lt_stop_of_terminated? hfound
    rw [text, if_neg (by omega), hagree.terminated? hfound hnext]
  · cases h

theorem skipDrums_of_agreeTo {offset next count : Nat} (h : skipDrums w offset count = .ok next)
    (hagree : AgreeTo n w w') (hnext : next ≤ n) (hsize : n ≤ w'.size) :
    skipDrums w' offset count = .ok next := by
  induction count generalizing offset with
  | zero => exact h
  | succ count ih =>
    unfold skipDrums at h
    split at h
    · cases h
    rename_i size hword
    simp only at h
    split at h
    · cases h
    have hstop := le_skipDrums h
    rw [Window.be32?, hagree.bytes? (by omega)] at hword
    rw [skipDrums, Window.be32?, hword]
    simp only
    rw [if_neg (by omega)]
    exact ih h

theorem Header.read?_of_agreeTo (hagree : AgreeTo n w w') (hn : headerSize ≤ n) :
    Header.read? w = Header.read? w' := by
  have hheaderSize : headerSize = 34 := rfl
  simp only [Header.read?, Window.be32?, Window.be16?]
  rw [hagree.bytes? (by omega), hagree.bytes? (by omega), hagree.bytes? (by omega),
    hagree.bytes? (by omega)]

/-- All parts of a recording lie before its end marker. -/
theorem parseFull_of_agreeTo {format : String} {r : Recording} (h : parseFull w format = .ok r)
    (hagree : AgreeTo r.size w w') (hsize : r.size ≤ w'.size) :
    headerSize ≤ r.size ∧ parseFull w' format = .ok r := by
  unfold parseFull at h
  simp only at h
  split at h
  · cases h
  rename_i hmagic
  split at h
  · rename_i header hheader
    split at h
    · cases h
    rename_i hframes
    obtain ⟨offset, hdrums, h⟩ := ok_of_bind h
    obtain ⟨⟨title, behindTitle⟩, htitle, h⟩ := ok_of_bind h
    obtain ⟨⟨author, behindAuthor⟩, hauthor, h⟩ := ok_of_bind h
    obtain ⟨⟨comments, start⟩, hcomments, h⟩ := ok_of_bind h
    simp only at h htitle hauthor hcomments
    split at h
    · cases h
    rename_i hmarker
    cases h
    simp only at hagree hsize
    have hdrumsEnd := le_skipDrums hdrums
    have htitleEnd := le_text htitle
    have hauthorEnd := le_text hauthor
    have hcommentsEnd := le_text hcomments
    have hmagicSize : versionSize + (Window.ascii magic).length ≤ headerSize := by decide
    have hmarkerSize : (Window.ascii endMarker).length = endMarker.length := by decide
    have hmin : headerSize ≤ start + header.frames * fullFrame + endMarker.length := by omega
    refine ⟨hmin, ?_⟩
    rw [hagree.holdsAt (by omega)] at hmagic hmarker
    rw [Header.read?_of_agreeTo hagree hmin] at hheader
    -- One part begins where the one before it ends, and the marker is behind them all.
    have hdrums' := skipDrums_of_agreeTo hdrums hagree (by omega) hsize
    have htitle' := text_of_agreeTo htitle hagree (by omega) hsize
    have hauthor' := text_of_agreeTo hauthor hagree (by omega) hsize
    have hcomments' := text_of_agreeTo hcomments hagree (by omega) hsize
    unfold parseFull
    simp only [if_neg hmagic, hheader, if_neg hframes, hdrums', htitle', hauthor', hcomments', bind,
      Except.bind, if_neg hmarker]
    rfl
  · cases h

/-- Whether a recording is of a version with a header. -/
def HasHeader (w : Window) : Prop :=
  w.holdsAt 0 (Window.ascii "YM5!") = true ∨ w.holdsAt 0 (Window.ascii "YM6!") = true

theorem HasHeader.not_plain (h : HasHeader w) (word : String)
    (hword : word ∈ ["YM2!", "YM3!", "YM3b"]) : w.holdsAt 0 (Window.ascii word) = false := by
  apply Bool.eq_false_iff.2
  intro hholds
  have hdiffer : ∀ word ∈ ["YM2!", "YM3!", "YM3b"], ∀ version ∈ ["YM5!", "YM6!"],
      (Window.ascii word).length = (Window.ascii version).length
        ∧ Window.ascii word ≠ Window.ascii version := by
    decide
  rcases h with h | h
  · obtain ⟨hlength, hne⟩ := hdiffer word hword "YM5!" (by decide)
    exact hne (Window.eq_of_holdsAt hlength hholds h)
  · obtain ⟨hlength, hne⟩ := hdiffer word hword "YM6!" (by decide)
    exact hne (Window.eq_of_holdsAt hlength hholds h)

/-- A version with a header is read by its header alone. -/
theorem HasHeader.parse_eq (h : HasHeader w) :
    parse w = parseFull w
      (if w.holdsAt 0 (Window.ascii "YM5!") = true then "YM5" else "YM6") := by
  unfold parse
  simp only [h.not_plain "YM2!" (by decide), h.not_plain "YM3!" (by decide),
    h.not_plain "YM3b" (by decide), Bool.or_false, Bool.false_eq_true, if_false]
  by_cases hfive : w.holdsAt 0 (Window.ascii "YM5!") = true
  · rw [if_pos hfive, if_pos hfive]
  · rw [if_neg hfive, if_neg hfive, if_pos (h.resolve_left hfive)]

/-- The module of a recording with a header is cut out of the data. -/
theorem read_of_agreeTo {s : SingleTune} (hversion : HasHeader w) (h : read w = .ok s)
    (hagree : AgreeTo s.consumed w w') (hsize : s.consumed ≤ w'.size) :
    ∃ s', read w' = .ok s' ∧ s.Same s' := by
  obtain ⟨r, hparse, -⟩ := ok_of_bind h
  rw [read_of_parse hparse] at h
  cases h
  have hagree : AgreeTo r.size w w' := hagree
  have hsize : r.size ≤ w'.size := hsize
  rw [hversion.parse_eq] at hparse
  obtain ⟨hmin, hparse'⟩ := parseFull_of_agreeTo hparse hagree hsize
  have hword : ∀ word, (Window.ascii word).length = 4 →
      w.holdsAt 0 (Window.ascii word) = w'.holdsAt 0 (Window.ascii word) := by
    intro word hlength
    have hheaderSize : 4 ≤ headerSize := by decide
    exact hagree.holdsAt (by omega)
  have hversion' : HasHeader w' := by
    rw [HasHeader, ← hword "YM5!" rfl, ← hword "YM6!" rfl]
    exact hversion
  rw [hword "YM5!" rfl, ← hversion'.parse_eq] at hparse'
  exact ⟨_, read_of_parse hparse', rfl, hagree.slice (by omega), rfl, rfl, rfl, rfl⟩

end Ym

/-! ### All formats -/

/-- Whether a reading of `w` that gives `a` depends on the first `size` bytes alone: with any bytes
    behind these the same is read. -/
def ReadsOnly {α : Type} (same : α → α → Prop) (read : Window → Except DecodeError α) (w : Window)
    (a : α) (size : Nat) : Prop :=
  ∀ (w' : Window) (t : List UInt8), w'.toList = w.toList.take size ++ t →
    ∃ a', read w' = .ok a' ∧ same a a'

theorem readsOnly_of_agreeTo {α : Type} {same : α → α → Prop}
    {read : Window → Except DecodeError α} {a : α} {size : Nat} (hsize : size ≤ w.size)
    (h : ∀ w', AgreeTo size w w' → size ≤ w'.size → ∃ a', read w' = .ok a' ∧ same a a') :
    ReadsOnly same read w a size := by
  intro w' t hbytes
  apply h w' (AgreeTo.of_append hsize hbytes)
  rw [← w'.length_toList, hbytes, List.length_append, List.length_take, w.length_toList]
  omega

/-- **Formats say where they end.** What an archive or a recording takes of the data is all that it
    depends on: cut off there, and with any other bytes behind it, it is opened again, with the same
    files or the same tune. A Hobeta file has to be there up to the end of its last sector. Of the
    recordings only those with a header say where they end. -/
theorem selfDelimiting {reader : Lha.MemberReader} (hreader : reader.OfBytes) (limit : UInt64)
    (w : Window) :
    (∀ u, Scl.unpack w = .ok u → ReadsOnly Unpacked.Same Scl.unpack w u u.consumed)
    ∧ (∀ u, Ice.unpack limit w = .ok u →
        ReadsOnly Unpacked.Same (Ice.unpack limit) w u u.consumed)
    ∧ (∀ u, Lha.unpack reader limit w = .ok u →
        ReadsOnly Unpacked.Same (Lha.unpack reader limit) w u u.consumed)
    ∧ (∀ u header, Hobeta.unpack w = .ok u → Hobeta.parse w = .ok header →
        u.consumed = Hobeta.headerSize + header.sectors →
        ReadsOnly Unpacked.Same Hobeta.unpack w u u.consumed)
    ∧ (∀ s, Ym.read w = .ok s → Ym.HasHeader w →
        ReadsOnly SingleTune.Same Ym.read w s s.consumed) := by
  refine ⟨?_, ?_, ?_, ?_, ?_⟩
  · intro u hu
    exact readsOnly_of_agreeTo (Scl.proper_unpack hu).consumed_le fun w' => Scl.unpack_of_agreeTo hu
  · intro u hu
    exact readsOnly_of_agreeTo (Ice.proper_unpack hu).consumed_le fun w' hagree hsize =>
      ⟨u, Ice.unpack_of_agreeTo hu hagree hsize, u.same_refl⟩
  · intro u hu
    exact readsOnly_of_agreeTo (Lha.proper_unpack hu).consumed_le fun w' hagree hsize =>
      ⟨u, Lha.unpack_of_agreeTo hreader hu hagree hsize, u.same_refl⟩
  · intro u header hu hheader hwhole
    exact readsOnly_of_agreeTo (Hobeta.proper_unpack hu).consumed_le fun w' =>
      Hobeta.unpack_of_agreeTo hu hheader hwhole
  · intro s hs hversion
    exact readsOnly_of_agreeTo (Ym.proper_read hs).consumed_le fun w' =>
      Ym.read_of_agreeTo hversion hs

/-- The four bytes `tune`, stored as the member of an archive. -/
def Lha.storedMember : Window :=
  .ofByteArray ⟨#[
    0x16, 0x86, 0x2d, 0x6c, 0x68, 0x30, 0x2d, 0x04, 0x00, 0x00, 0x00, 0x04, 0x00, 0x00,
    0x00, 0x00, 0x00, 0x00, 0x00, 0x20, 0x00, 0x00, 0x00, 0x00, 0x74, 0x75, 0x6e, 0x65]⟩

/-- A byte behind the stored member changes nothing. -/
theorem selfDelimiting_storedMember :
    let followed : Window := .ofByteArray ⟨(Lha.storedMember.toList ++ [0xff]).toArray⟩
    Lha.MemberReader.OfBytes Lha.openMember
      ∧ followed.toList = Lha.storedMember.toList.take 28 ++ [0xff]
      ∧ ∃ u u', Lha.unpack Lha.openMember 0x1000 Lha.storedMember = .ok u ∧ u.consumed = 28
        ∧ Lha.unpack Lha.openMember 0x1000 followed = .ok u' ∧ u.Same u' := by
  intro followed
  have hbytes : followed.toList = Lha.storedMember.toList.take 28 ++ [0xff] := by
    decide +kernel
  have hrun : (Lha.unpack Lha.openMember 0x1000 Lha.storedMember).toOption.map Unpacked.consumed
      = some 28 := by
    decide +kernel
  obtain ⟨u, hu, hconsumed⟩ := Option.map_eq_some_iff.1 hrun
  have hunpack := eq_ok_of_toOption hu
  obtain ⟨-, -, hmember, -⟩ :=
    selfDelimiting Lha.ofBytes_openMember 0x1000 Lha.storedMember
  rw [← hconsumed] at hbytes
  obtain ⟨u', hu', hsame⟩ := hmember u hunpack followed [0xff] hbytes
  exact ⟨Lha.ofBytes_openMember, hconsumed ▸ hbytes, u, u', hunpack, hconsumed, hu', hsame⟩

end Chiptune
