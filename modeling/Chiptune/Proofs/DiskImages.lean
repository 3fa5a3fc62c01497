import Chiptune.Proofs.Guarded.Archives
import Chiptune.Proofs.Ledger
import Chiptune.Proofs.WrittenBytes

namespace Chiptune.Scl

/-!
# Disk images and their files

The ledger that an image is unpacked with refuses no file but those without sectors, so the entries
can be told without it.

* `placed` — the entries for some records, one behind the other;
* `unpack_iff` — an image that is valid and has a file with sectors is unpacked into those;
* `File`, `image` — files, and the image that they make;
* `unpack_image` — which entries the image of some files is unpacked into.
-/

/-! ### Entries without a ledger -/

/-- The name of a file, before it is made unique. -/
def FileRecord.fileName (r : FileRecord) : String := trdosName r.name r.type

/-- Names that are made unique one after the other. Those in `used` are not given again. -/
def distinctNames (used : List String) : (bases : List String) → List String
  | [] => []
  | base :: rest => uniqueName used base :: distinctNames (uniqueName used base :: used) rest

/-- Regions of the given sizes, one behind the other. -/
def regionsFrom (offset : Nat) : (sizes : List Nat) → List Region
  | [] => []
  | size :: rest => ⟨offset, size⟩ :: regionsFrom (offset + size) rest

/-- The records of the files that have sectors. -/
def occupied (records : List FileRecord) : List FileRecord := records.filter (·.sectors ≠ 0)

/-- The entries for records, whose sectors stand one behind the other from `offset` on. -/
def placed (w : Window) (used : List String) (offset : Nat) : List FileRecord → List Entry
  | [] => []
  | r :: rest =>
    ⟨some (uniqueName used r.fileName), some ⟨offset, r.size⟩, (w.drop offset).take r.size⟩ ::
      placed w (uniqueName used r.fileName :: used) (offset + r.size) rest

/-- The number of bytes in the sectors of all files. -/
def sectorBytes (records : List FileRecord) : Nat :=
  (records.map FileRecord.sectors).sum * sectorSize

section

variable (w : Window) (used : List String) (offset : Nat) (records : List FileRecord)

@[simp] theorem sectorBytes_cons (r : FileRecord) :
    sectorBytes (r :: records) = r.size + sectorBytes records := by
  simp [sectorBytes, FileRecord.size, Nat.add_mul]

theorem sectorBytes_occupied : sectorBytes (occupied records) = sectorBytes records := by
  induction records with
  | nil => rfl
  | cons r rest ih =>
    by_cases hr : r.sectors = 0
    · simpa [occupied, hr, FileRecord.size] using ih
    · simpa [occupied, hr] using ih

@[simp] theorem map_name_placed : (placed w used offset records).map Entry.name
    = (distinctNames used (records.map FileRecord.fileName)).map some := by
  induction records generalizing used offset with
  | nil => rfl
  | cons r rest ih => simp [placed, distinctNames, ih]

@[simp] theorem map_origin_placed : (placed w used offset records).map Entry.origin
    = (regionsFrom offset (records.map FileRecord.size)).map some := by
  induction records generalizing used offset with
  | nil => rfl
  | cons r rest ih => simp [placed, regionsFrom, ih]

end

/-- A ledger with room for all files refuses only those without sectors. -/
theorem entries_eq_placed {w : Window} {limit : Nat} {claims : Claims} {held : List Region}
    {used : List String} {offset : Nat} {records : List FileRecord}
    (h : Claims.Records .total limit claims held)
    (hroom : Claims.sizes held + sectorBytes records ≤ limit)
    (hinside : offset + sectorBytes records ≤ w.size) :
    entries w claims used offset records = placed w used offset (occupied records) := by
  induction records generalizing claims held used offset with
  | nil => rfl
  | cons r rest ih =>
    rw [sectorBytes_cons] at hroom hinside
    have hadd := h.add?_of_total ⟨offset, r.size⟩
    by_cases hr : r.sectors = 0
    · have hsize : r.size = 0 := by simp [FileRecord.size, hr]
      rw [if_neg fun hfits => hfits.1 hsize] at hadd
      rw [entries, hadd]
      simp only [hsize, Nat.add_zero]
      rw [ih h (by omega) (by omega)]
      simp [occupied, hr]
    · have hsize : r.size ≠ 0 := by simp [FileRecord.size, hr, sectorSize]
      have hword : offset + r.size < UInt64.size := Nat.lt_of_le_of_lt (by omega) w.size_lt_word
      have hfits : Claims.sizes held + r.size ≤ limit := by omega
      rw [if_pos ⟨hsize, hword, hfits⟩] at hadd
      -- The rest of the files has room behind this one.
      have hheld : Claims.sizes (held ++ [⟨offset, r.size⟩]) = Claims.sizes held + r.size := by
        simp [Claims.sizes]
      have hnext : entries w _ (uniqueName used r.fileName :: used) (offset + r.size) rest = _ :=
        ih (h.concat_of_total (r := ⟨offset, r.size⟩) hfits) (by omega) (by omega)
      have hsub : w.sub? offset r.size = _ := Window.sub?_eq_some (by omega) hsize
      have hoccupied : occupied (r :: rest) = r :: occupied rest := by simp [occupied, hr]
      rw [entries, hadd, hoccupied, placed]
      simp only [hsub]
      exact congrArg _ hnext

/-- The files of a valid image are all inside it. -/
theorem dataStart_add_sectorBytes_le {w : Window} {found : Layout} (h : layout w = .ok found) :
    found.dataStart + sectorBytes found.records ≤ found.size := by
  rw [(layout_iff.1 h).size, foldl_size, sectorBytes]
  exact Nat.le_add_right ..

theorem entries_of_layout {w : Window} {found : Layout} (h : layout w = .ok found) :
    entries w (.empty .total found.size) [] found.dataStart found.records
      = placed w [] found.dataStart (occupied found.records) := by
  have hinside := dataStart_add_sectorBytes_le h
  refine entries_eq_placed (Claims.records_empty .total found.size) ?_
    (Nat.le_trans hinside (layout_spec h).2)
  show 0 + sectorBytes found.records ≤ found.size
  omega

/-- **What an image is unpacked into.** A valid image with a file that has sectors is unpacked into
    one entry for each such file, and nothing else is. -/
theorem unpack_iff {w : Window} {u : Unpacked} :
    unpack w = .ok u ↔ ∃ found, layout w = .ok found ∧ occupied found.records ≠ []
      ∧ u = { entries := placed w [] found.dataStart (occupied found.records)
              consumed := found.size } := by
  have hempty : ∀ found : Layout, (placed w [] found.dataStart (occupied found.records)).isEmpty
      = (occupied found.records).isEmpty := by
    intro found
    cases occupied found.records <;> rfl
  cases hlayout : layout w with
  | error e => simp [unpack, hlayout, bind, Except.bind]
  | ok found =>
    simp only [unpack, hlayout, bind, Except.bind, entries_of_layout hlayout, hempty,
      Except.ok.injEq, exists_eq_left']
    by_cases hrecords : occupied found.records = []
    · simp only [hrecords, List.isEmpty_nil, if_true, ne_eq, not_true_eq_false, false_and, iff_false]
      intro h
      cases h
    · simp only [hrecords, List.isEmpty_eq_false_iff.2 hrecords, Bool.false_eq_true, if_false, ne_eq,
        not_false_eq_true, true_and, eq_comm (a := u)]
      exact ⟨Except.ok.inj, congrArg Except.ok⟩

/-! ### Files and their image -/

/-- A file with its name and type and what it holds, which fits into the sectors that can be
    counted. -/
structure File where
  name : List UInt8
  type : UInt8
  content : List UInt8
  length_name : name.length = 8
  length_content : content.length ≤ 255 * sectorSize

namespace File

variable (file : File)

/-- The number of sectors that the content takes. -/
def sectors : Nat := (file.content.length + 255) / sectorSize

/-- The content with zeros up to whole sectors. -/
def padded : List UInt8 :=
  file.content ++ List.replicate (file.sectors * sectorSize - file.content.length) 0

/-- What the record of the file says. -/
def fileRecord : FileRecord := ⟨file.name, file.type, file.sectors⟩

/-- The record of the file: name and type, an address, the length of the content, and the number of
    sectors. -/
def record : List UInt8 :=
  file.name ++ [file.type] ++ bytesLE 2 0x8000 ++ bytesLE 2 file.content.length
    ++ [UInt8.ofNat file.sectors]

@[simp] theorem length_padded : file.padded.length = file.fileRecord.size := by
  simp only [padded, fileRecord, FileRecord.size, sectors, sectorSize, List.length_append,
    List.length_replicate]
  omega

@[simp] theorem length_record : file.record.length = recordSize := by
  simp [record, file.length_name, recordSize]

theorem sectors_le : file.sectors ≤ 255 := by
  have hle := file.length_content
  unfold sectors sectorSize at *
  omega

/-- Only a file without content has no sectors. -/
theorem sectors_eq_zero_iff : file.sectors = 0 ↔ file.content = [] := by
  rw [← List.length_eq_zero_iff]
  unfold sectors sectorSize
  omega

end File

/-- The image of some files up to its checksum. -/
def body (files : List File) : List UInt8 :=
  Window.ascii magic ++ [UInt8.ofNat files.length] ++ files.flatMap File.record
    ++ files.flatMap File.padded

/-- The image of some files. -/
def image (files : List File) : List UInt8 :=
  body files ++ bytesLE 4 ((body files).map UInt8.toNat).sum

/-- The files that hold something. -/
def filled (files : List File) : List File := files.filter (·.content ≠ [])

section

variable (files : List File)

theorem length_flatMap_record :
    (files.flatMap File.record).length = files.length * recordSize := by
  induction files with
  | nil => rfl
  | cons file rest ih => simp [ih, Nat.succ_mul, Nat.add_comm]

theorem length_flatMap_padded :
    (files.flatMap File.padded).length = sectorBytes (files.map File.fileRecord) := by
  induction files with
  | nil => rfl
  | cons file rest ih => simp [ih]

theorem length_body : (body files).length
    = headerSize + files.length * recordSize + sectorBytes (files.map File.fileRecord) := by
  rw [body, List.length_append, List.length_append, List.length_append, length_flatMap_record,
    length_flatMap_padded]
  rfl

theorem length_image : (image files).length = (body files).length + checksumSize := by
  simp [image, checksumSize]

theorem occupied_map_fileRecord :
    occupied (files.map File.fileRecord) = (filled files).map File.fileRecord := by
  rw [occupied, filled, List.filter_map]
  congr 1
  apply List.filter_congr
  intro file _
  simp [File.fileRecord, file.sectors_eq_zero_iff]

end

/-! ### Reading an image -/

section

variable {w : Window} {files : List File} {offset : Nat}

theorem read?_of_holdsAt {file : File} (h : w.holdsAt offset file.record = true) :
    FileRecord.read? w offset = some file.fileRecord := by
  simp only [File.record, Window.holdsAt_append, Bool.and_eq_true, List.length_append,
    file.length_name, length_bytesLE, List.length_singleton] at h
  obtain ⟨⟨⟨⟨hname, htype⟩, -⟩, -⟩, hsectors⟩ := h
  have hname := Window.bytes?_of_holdsAt hname
  have htype : w[offset + 8]? = some file.type :=
    Window.getElem?_of_holdsAt (i := 0) htype (Nat.succ_pos 0)
  have hsectors : w[offset + 13]? = some (UInt8.ofNat file.sectors) :=
    Window.getElem?_of_holdsAt (i := 0) hsectors (Nat.succ_pos 0)
  have hbyte : (UInt8.ofNat file.sectors).toNat = file.sectors :=
    UInt8.toNat_ofNat'.trans (Nat.mod_eq_of_lt (Nat.lt_succ_of_le file.sectors_le))
  rw [file.length_name] at hname
  simp only [FileRecord.read?, hname, htype, hsectors, bind, Option.bind, pure, hbyte]
  rfl

/-- Records that were written one behind the other are read as those of the files. -/
theorem forall₂_read? (start : Nat)
    (h : w.holdsAt (offset + start * recordSize) (files.flatMap File.record) = true) :
    List.Forall₂ (fun i r => FileRecord.read? w (offset + i * recordSize) = some r)
      (List.range' start files.length) (files.map File.fileRecord) := by
  induction files generalizing start with
  | nil => exact .nil
  | cons file rest ih =>
    rw [List.flatMap_cons, Window.holdsAt_append, Bool.and_eq_true, File.length_record,
      Nat.add_assoc, ← Nat.succ_mul] at h
    rw [List.length_cons, List.range'_succ, List.map_cons]
    exact .cons (read?_of_holdsAt h.1) (ih (start + 1) h.2)

/-- The sectors that were written one behind the other are those of the entries. -/
theorem map_toList_placed (used : List String)
    (h : w.holdsAt offset (files.flatMap File.padded) = true) :
    (placed w used offset ((filled files).map File.fileRecord)).map (·.data.toList)
      = (filled files).map File.padded := by
  induction files generalizing used offset with
  | nil => rfl
  | cons file rest ih =>
    rw [List.flatMap_cons, Window.holdsAt_append, Bool.and_eq_true] at h
    by_cases hfile : file.content = []
    · have hpadded : file.padded.length = 0 := by
        simp [FileRecord.size, File.fileRecord, file.sectors_eq_zero_iff.2 hfile]
      have hrest := h.2
      rw [hpadded, Nat.add_zero] at hrest
      simpa [filled, hfile] using ih used hrest
    · have hfilled : filled (file :: rest) = file :: filled rest := by simp [filled, hfile]
      have hdata := Window.toList_slice_of_holdsAt h.1
      rw [File.length_padded] at hdata
      rw [hfilled, List.map_cons, placed, List.map_cons, List.map_cons, hdata]
      exact congrArg _ (ih _ (file.length_padded ▸ h.2))

/-- A file that holds something takes a sector. -/
theorem sectorSize_le_sectorBytes (h : filled files ≠ []) :
    sectorSize ≤ sectorBytes (files.map File.fileRecord) := by
  rw [← sectorBytes_occupied, occupied_map_fileRecord]
  obtain ⟨file, rest, hfilled⟩ := List.exists_cons_of_ne_nil h
  have hcontent : file.content ≠ [] := by
    have hmem : file ∈ filled files := hfilled ▸ List.mem_cons_self
    simpa using (List.mem_filter.1 hmem).2
  have hsectors : 0 < file.sectors := Nat.pos_of_ne_zero (mt file.sectors_eq_zero_iff.1 hcontent)
  rw [hfilled, List.map_cons, sectorBytes_cons]
  show 256 ≤ file.sectors * 256 + _
  omega

theorem matchesStart_of_holdsAt {n : UInt8} (hpos : 0 < n.toNat)
    (hsize : headerSize + recordSize + sectorSize + checksumSize ≤ w.size)
    (hmagic : w.holdsAt 0 (Window.ascii magic) = true) (hcount : w[magic.length]? = some n) :
    signature.matchesStart w = true := by
  have hrange : (ByteClass.range 0x01 0xff).accepts n = true := by
    simp only [ByteClass.accepts, Bool.and_eq_true, decide_eq_true_eq, UInt8.le_iff_toNat_le]
    exact ⟨hpos, Nat.le_of_lt_succ n.toNat_lt⟩
  have hmeets : Pattern.meets w 8 [.range 0x01 0xff] = true := by
    rw [Pattern.meets, show w[8]? = _ from hcount]
    exact Bool.and_eq_true_iff.2 ⟨hrange, rfl⟩
  refine Signature.matchesStart_ofPattern hsize ?_
  rw [Pattern.meets_append, Pattern.meets_literal hmagic]
  exact hmeets

theorem readRecords?_of_holdsAt {n : UInt8} (hn : n.toNat = files.length)
    (hcount : w[magic.length]? = some n)
    (hrecords : w.holdsAt headerSize (files.flatMap File.record) = true) :
    readRecords? w = some (files.map File.fileRecord) := by
  have hstart : w.holdsAt (headerSize + 0 * recordSize) (files.flatMap File.record) = true := by
    rw [Nat.zero_mul]
    exact hrecords
  have hread := forall₂_read? 0 hstart
  rw [readRecords?, hcount]
  show (List.range n.toNat).mapM _ = _
  rw [hn, List.range_eq_range']
  exact mapM_eq_some.2 hread

/-- The image of up to 255 files, one of which holds something, is valid. -/
theorem layout_of_holdsAt (hpos : 0 < files.length) (hle : files.length ≤ 255)
    (hfilled : filled files ≠ []) (h : w.holdsAt 0 (image files) = true) :
    layout w = .ok ⟨files.map File.fileRecord, headerSize + files.length * recordSize,
      (image files).length⟩ := by
  have hbody := length_body files
  have himage := length_image files
  have hbytes : 256 ≤ sectorBytes (files.map File.fileRecord) := sectorSize_le_sectorBytes hfilled
  have hleast : headerSize + recordSize + sectorSize + checksumSize ≤ (image files).length := by
    rw [himage, hbody]
    show 9 + 14 + 256 + 4 ≤ 9 + files.length * 14 + sectorBytes _ + 4
    omega
  have hsize := Window.add_length_le_of_holdsAt (List.ne_nil_of_length_pos
    (Nat.lt_of_lt_of_le (by decide) hleast)) h
  rw [Nat.zero_add] at hsize
  rw [image, Window.holdsAt_append, Bool.and_eq_true, Nat.zero_add] at h
  obtain ⟨hholds, hsum⟩ := h
  have hsum := Window.le32?_of_holdsAt hsum
  have htake : (w.take (body files).length).toList = body files := by
    rw [Window.toList_take, ← List.drop_zero (l := w.toList)]
    exact Window.take_drop_of_holdsAt hholds
  -- The body holds the number of the files and their records.
  simp only [body, Window.holdsAt_append, Bool.and_eq_true, Nat.zero_add, List.length_append,
    List.length_singleton] at hholds
  obtain ⟨⟨⟨hmagic, hcount⟩, hrecords⟩, -⟩ := hholds
  have hcount : w[magic.length]? = some (UInt8.ofNat files.length) :=
    Window.getElem?_of_holdsAt (i := 0) hcount (Nat.succ_pos 0)
  have hbyte : (UInt8.ofNat files.length).toNat = files.length :=
    UInt8.toNat_ofNat'.trans (Nat.mod_eq_of_lt (Nat.lt_succ_of_le hle))
  refine layout_iff.2 ⟨?_, ?_, ?_, ?_, ?_⟩
  · exact matchesStart_of_holdsAt (hbyte.symm ▸ hpos) (Nat.le_trans hleast hsize) hmagic hcount
  · exact readRecords?_of_holdsAt hbyte hcount hrecords
  · simp
  · rw [foldl_size, himage, hbody]
    rfl
  · show w.le32? ((image files).length - checksumSize) = _
    rw [himage, Nat.add_sub_cancel, hsum, Window.byteSum_eq, htake]

end

/-- **Images are unpacked into their files.** Up to 255 files of which one holds something make an
    image that is unpacked, whatever follows it, into one entry for each file that holds something, in
    their order. The content of the file with zeros up to whole sectors is the data of the entry, and
    the place of this content in the image is its origin. All of the image is taken, and nothing
    else. -/
theorem unpack_image {files : List File} {w : Window} {t : List UInt8} (hpos : 0 < files.length)
    (hle : files.length ≤ 255) (hfilled : filled files ≠ []) (h : w.toList = image files ++ t) :
    check w = true ∧ ∃ u, unpack w = .ok u ∧ u.consumed = (image files).length
      ∧ u.entries.map Entry.name = (distinctNames [] ((filled files).map fun file =>
          trdosName file.name file.type)).map some
      ∧ u.entries.map Entry.origin = (regionsFrom (headerSize + files.length * recordSize)
          ((filled files).map fun file => file.padded.length)).map some
      ∧ u.entries.map (·.data.toList) = (filled files).map File.padded := by
  have hholds : w.holdsAt 0 (image files) = true := by
    apply Window.holdsAt_of_prefix
    rw [List.drop_zero, h]
    exact List.prefix_append _ _
  have hlayout := layout_of_holdsAt hpos hle hfilled hholds
  have hoccupied := occupied_map_fileRecord files
  have hne : occupied (files.map File.fileRecord) ≠ [] := by
    rw [hoccupied]
    exact mt List.map_eq_nil_iff.1 hfilled
  have hcontents : w.holdsAt (headerSize + files.length * recordSize) (files.flatMap File.padded)
      = true := by
    have hlength := length_flatMap_record files
    simp only [image, body, Window.holdsAt_append, Bool.and_eq_true, Nat.zero_add,
      List.length_append, hlength] at hholds
    exact hholds.1.2
  refine ⟨isOk_iff.2 ⟨_, hlayout⟩, _, unpack_iff.2 ⟨_, hlayout, hne, rfl⟩, rfl, ?_, ?_, ?_⟩
  · rw [hoccupied, map_name_placed, List.map_map]
    rfl
  · rw [hoccupied, map_origin_placed, List.map_map]
    congr 2
    exact List.map_congr_left fun file _ => file.length_padded.symm
  · rw [hoccupied]
    exact map_toList_placed [] hcontents

/-- A file of one byte. -/
def song : File where
  name := Window.ascii "SONG    "
  type := 0x43
  content := [0xc9]
  length_name := by decide
  length_content := by decide

/-- A file without content. -/
def blank : File := { song with content := [], length_content := by decide }

/-- An image of both files, with a byte behind it, is unpacked into the one that holds something. -/
theorem unpack_image_songAndBlank :
    let w : Window := .ofByteArray ⟨(image [blank, song] ++ [0xff]).toArray⟩
    w.toList = image [blank, song] ++ [0xff] ∧ filled [blank, song] = [song]
      ∧ ∃ u, unpack w = .ok u ∧ u.consumed = 297
        ∧ u.entries.map Entry.name = [some "SONG.C"]
        ∧ u.entries.map Entry.origin = [some ⟨37, 256⟩]
        ∧ u.entries.map (·.data.toList) = [song.padded] := by
  intro w
  have hlength : (image [blank, song]).length = 297 :=
    (length_image _).trans (congrArg (· + checksumSize) (length_body _))
  have hw : w.toList = image [blank, song] ++ [0xff] :=
    Window.toList_ofByteArray (by simp [hlength])
  have hfilled : filled [blank, song] = [song] := rfl
  obtain ⟨-, u, hu, hconsumed, hnames, horigins, hdata⟩ := unpack_image (by decide) (by decide)
    (by rw [hfilled]; exact List.cons_ne_nil _ _) hw
  rw [hfilled] at hnames horigins hdata
  refine ⟨hw, hfilled, u, hu, hconsumed.trans hlength, ?_, ?_, hdata⟩
  · rw [hnames]
    decide +kernel
  · rw [horigins]
    decide +kernel

end Chiptune.Scl
