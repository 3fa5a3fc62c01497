import Chiptune.Proofs.DiskImages
import Chiptune.Proofs.WrappedFiles

namespace Chiptune

/-!
# Data with one byte altered

Hobeta headers and SCL images end with a sum of the bytes before it. A sum does not tell which byte
is wrong, nor find bytes in the wrong order, but it cannot stay right when a single byte is altered,
wherever that byte stands: among the bytes that are summed up, or in the sum.

* `Window.Sealed` — bytes with a code of their sum behind them;
* `Window.not_sealed_of_set` — altering one byte breaks the seal;
* `altered_rejected` — such data is rejected. In an image this leaves out the bytes that say how far
  the image goes, as with these the sum moves to another place.
-/

/-! ### Sums and numbers -/

theorem sum_set {l : List Nat} {i : Nat} (h : i < l.length) (n : Nat) :
    (l.set i n).sum + l[i] = l.sum + n := by
  have hsplit : l.sum = (l.take i).sum + (l[i] + (l.drop (i + 1)).sum) := by
    rw [← List.sum_cons, ← List.drop_eq_getElem_cons h, ← List.sum_append, List.take_append_drop]
  rw [List.sum_set, if_pos h, hsplit]
  omega

/-- A number has only one form in so many bytes. -/
theorem valueLE_inj {bytes bytes' : List UInt8} (hlength : bytes.length = bytes'.length)
    (h : valueLE bytes = valueLE bytes') : bytes = bytes' := by
  induction bytes generalizing bytes' with
  | nil => exact (List.length_eq_zero_iff.1 hlength.symm).symm
  | cons b rest ih =>
    obtain ⟨b', rest', rfl⟩ := List.exists_cons_of_length_eq_add_one hlength.symm
    rw [valueLE_cons, valueLE_cons] at h
    have hb := b.toNat_lt
    have hb' := b'.toNat_lt
    have hbyte : b = b' := UInt8.toNat_inj.1 (by omega)
    rw [hbyte, ih (Nat.succ.inj hlength) (by omega)]

namespace Window

variable {w w' : Window} {i n width offset count : Nat} {b : UInt8} {bytes : List UInt8}

theorem bytes?_eq_of_forall
    (h : ∀ j, offset ≤ j → j < offset + count → w[j]? = w'[j]?) :
    w.bytes? offset count = w'.bytes? offset count := by
  induction count generalizing offset with
  | zero => rfl
  | succ count ih =>
    rw [bytes?, bytes?, h offset (Nat.le_refl _) (by omega),
      ih fun j hle hlt => h j (by omega) (by omega)]

theorem getElem?_of_bytes? (h : w.bytes? offset count = some bytes) {j : Nat} (hj : j < count) :
    w[offset + j]? = bytes[j]? := by
  induction count generalizing offset bytes j with
  | zero => omega
  | succ count ih =>
    obtain ⟨b, hb, htail⟩ := Option.bind_eq_some_iff.1 h
    obtain ⟨rest, hrest, hbytes⟩ := Option.bind_eq_some_iff.1 htail
    cases hbytes
    cases j with
    | zero => exact hb
    | succ j =>
      rw [List.getElem?_cons_succ, ← ih hrest (by omega), Nat.add_right_comm, Nat.add_assoc]

/-! ### One byte altered -/

section

variable (h : w'.toList = w.toList.set i b)
include h

theorem getElem?_of_set_ne {j : Nat} (hj : j ≠ i) : w'[j]? = w[j]? := by
  rw [getElem?_eq_getElem?_toList, h, List.getElem?_set_ne hj.symm, ← getElem?_eq_getElem?_toList]

theorem getElem?_of_set_self (hi : i < w.size) : w'[i]? = some b := by
  rw [getElem?_eq_getElem?_toList, h]
  exact List.getElem?_set_self (by rw [length_toList]; exact hi)

/-- The sum changes by what the byte does. -/
theorem byteSum_take_of_set (hi : i < n) (hsize : i < w.size) :
    (w'.take n).byteSum + (w.get i hsize).toNat = (w.take n).byteSum + b.toNat := by
  have hlength : i < ((w.toList.take n).map UInt8.toNat).length := by
    rw [List.length_map, List.length_take, length_toList]
    omega
  have hget : ((w.toList.take n).map UInt8.toNat)[i] = (w.get i hsize).toNat := by
    have hbyte : w.toList[i]? = some (w.get i hsize) := by
      rw [← getElem?_eq_getElem?_toList]
      exact w.getElem?_of_lt hsize
    rw [List.getElem_map, List.getElem_take, (List.getElem?_eq_some_iff.1 hbyte).2]
  rw [byteSum_eq, byteSum_eq, toList_take, toList_take, h, List.take_set, List.map_set, ← hget]
  exact sum_set hlength b.toNat

theorem byteSum_take_of_set_of_le (hi : n ≤ i) : (w'.take n).byteSum = (w.take n).byteSum := by
  rw [byteSum_eq, byteSum_eq, toList_take, toList_take, h, List.take_set,
    List.set_eq_of_length_le (by rw [List.length_take]; omega)]

end

/-! ### Seals -/

/-- Whether the first `n` bytes are sealed: behind them stands, in `width` bytes, the code of their
    sum. -/
def Sealed (code : Nat → Nat) (n width : Nat) (w : Window) : Prop :=
  (w.bytes? n width).map valueLE = some (code (w.take n).byteSum)

/-- Altering one byte breaks the seal, when the codes of two sums are the same only for sums that
    differ by a multiple of 256. -/
theorem not_sealed_of_set {code : Nat → Nat} (hcode : ∀ m k, code m = code k → m % 256 = k % 256)
    (hwidth : 0 < width) (hseal : Sealed code n width w) (hne : w[i]? ≠ some b)
    (h : w'.toList = w.toList.set i b) (hi : i < n + width) : ¬Sealed code n width w' := by
  intro hseal'
  obtain ⟨bytes, hbytes, hvalue⟩ := Option.map_eq_some_iff.1 hseal
  have hend := add_le_size_of_bytes? hwidth hbytes
  obtain ⟨bytes', hbytes', hvalue'⟩ := Option.map_eq_some_iff.1 hseal'
  by_cases hin : i < n
  · -- The number behind the bytes is the same, their sum is another one.
    have hsame : w'.bytes? n width = w.bytes? n width :=
      bytes?_eq_of_forall fun j hj _ => getElem?_of_set_ne h (by omega)
    obtain rfl : bytes' = bytes := by
      rw [hsame, hbytes] at hbytes'
      exact (Option.some.inj hbytes').symm
    have hsums := hcode _ _ (hvalue'.symm.trans hvalue)
    have hsize : i < w.size := by omega
    have hsum := byteSum_take_of_set h hin hsize
    have hold := (w.get i hsize).toNat_lt
    have hnew := b.toNat_lt
    have hbyte : w.get i hsize = b := UInt8.toNat_inj.1 (by omega)
    exact hne (by rw [w.getElem?_of_lt hsize, hbyte])
  · -- The sum is the same, the number behind the bytes is another one.
    have hsum := byteSum_take_of_set_of_le h (Nat.le_of_not_lt hin)
    have hlength : bytes'.length = bytes.length := by
      rw [length_of_bytes? hbytes', length_of_bytes? hbytes]
    rw [hsum] at hvalue'
    have hsame := valueLE_inj hlength (hvalue'.trans hvalue.symm)
    have hbyte : w[i]? = w'[i]? := by
      have hi' : n + (i - n) = i := by omega
      have hget := getElem?_of_bytes? hbytes (j := i - n) (by omega)
      have hget' := getElem?_of_bytes? hbytes' (j := i - n) (by omega)
      rw [hi'] at hget hget'
      rw [hget, hget', hsame]
    exact hne (by rw [hbyte, getElem?_of_set_self h (by omega)])

end Window

/-! ### Archives -/

/-- Whether a plugin has no use for data: its check does not admit it, and it cannot be decoded. -/
structure Plugin.Rejects (p : Plugin) (w : Window) : Prop where
  check : p.check w = false
  succeeds : ∀ limit, p.decoder.succeeds limit w = false

theorem Plugin.Admits.rejects {p : Plugin} (h : p.Admits) {w : Window} (hcheck : p.check w = false) :
    p.Rejects w := by
  refine ⟨hcheck, fun limit => ?_⟩
  rw [Bool.eq_false_iff]
  intro hsucceeds
  rw [h limit w hsucceeds] at hcheck
  cases hcheck

namespace Hobeta

variable {w w' : Window} {i : Nat} {b : UInt8}

/-- The checksum of a header seals all that comes before it. -/
theorem sealed_of_check (h : check w = true) :
    Window.Sealed (fun sum => (105 + 257 * sum) % UInt16.size) (headerSize - 2) 2 w := by
  obtain ⟨header, hparse⟩ := isOk_iff.1 h
  have hdescribes := parse_iff.1 hparse
  obtain ⟨length, -, hread⟩ := Option.bind_eq_some_iff.1 hdescribes.read
  obtain ⟨sectors, -, hread⟩ := Option.bind_eq_some_iff.1 hread
  obtain ⟨stored, hstored, hheader⟩ := Option.bind_eq_some_iff.1 hread
  have hchecksum : stored = checksum w := by
    rw [← hdescribes.checksum, ← Option.some.inj hheader]
  rw [hchecksum] at hstored
  exact hstored

/-- As 257 is one more than a multiple of 256, a checksum shows what its sum is modulo 256. -/
theorem rejects_of_set (hcheck : check w = true) (hne : w[i]? ≠ some b)
    (h : w'.toList = w.toList.set i b) (hi : i < headerSize) : plugin.Rejects w' := by
  apply exact.admits.rejects
  rw [Bool.eq_false_iff]
  intro hcheck'
  refine Window.not_sealed_of_set (fun m k hcode => ?_) Nat.two_pos (sealed_of_check hcheck) hne h hi
    (sealed_of_check hcheck')
  have hcode : (105 + 257 * m) % 65536 = (105 + 257 * k) % 65536 := hcode
  omega

end Hobeta

namespace Scl

variable {w w' : Window} {i : Nat} {b : UInt8}

/-- Where the record of a file says how many sectors it has. -/
def sectorsOffset (index : Nat) : Nat := headerSize + index * recordSize + 13

theorem check_of_layout {found : Layout} (h : layout w = .ok found) : check w = true :=
  isOk_iff.2 ⟨found, h⟩

/-- The number of files stands behind the magic word. -/
theorem count_of_readRecords? {records : List FileRecord} (h : readRecords? w = some records) :
    ∃ count, w[magic.length]? = some count ∧ records.length = count.toNat := by
  obtain ⟨count, hcount, hread⟩ := Option.bind_eq_some_iff.1 h
  refine ⟨count, hcount, ?_⟩
  rw [← (mapM_eq_some.1 hread).length_eq, List.length_range]

theorem sectors_of_readRecords? {records : List FileRecord} (h : readRecords? w = some records)
    {k : Nat} (hk : k < records.length) :
    w[sectorsOffset k]?.map UInt8.toNat = some records[k].sectors := by
  obtain ⟨count, -, hread⟩ := Option.bind_eq_some_iff.1 h
  have hread := mapM_eq_some.1 hread
  have hrecord := hread.get (hread.length_eq ▸ hk) hk
  rw [List.get_eq_getElem, List.get_eq_getElem, List.getElem_range] at hrecord
  obtain ⟨name, -, hrecord⟩ := Option.bind_eq_some_iff.1 hrecord
  obtain ⟨type, -, hrecord⟩ := Option.bind_eq_some_iff.1 hrecord
  obtain ⟨sectors, hsectors, hrecord⟩ := Option.bind_eq_some_iff.1 hrecord
  rw [← Option.some.inj hrecord]
  exact congrArg _ hsectors

/-- Images with the same numbers at these places have sectors in the same numbers. -/
theorem map_sectors_eq {records records' : List FileRecord} (h : readRecords? w = some records)
    (h' : readRecords? w' = some records') (hcount : w'[magic.length]? = w[magic.length]?)
    (hsectors : ∀ k < records.length, w'[sectorsOffset k]? = w[sectorsOffset k]?) :
    records'.map FileRecord.sectors = records.map FileRecord.sectors := by
  obtain ⟨count, hbyte, hlength⟩ := count_of_readRecords? h
  obtain ⟨count', hbyte', hlength'⟩ := count_of_readRecords? h'
  rw [hcount, hbyte] at hbyte'
  cases hbyte'
  refine List.ext_getElem (by simp [hlength, hlength']) fun k hk' hk => ?_
  rw [List.length_map] at hk hk'
  have hbytes := sectors_of_readRecords? h' hk'
  rw [hsectors k hk, sectors_of_readRecords? h hk] at hbytes
  rw [List.getElem_map, List.getElem_map]
  exact (Option.some.inj hbytes).symm

/-- The sum of an image seals all that comes before it. -/
theorem sealed_of_layout {found : Layout} (h : layout w = .ok found) :
    Window.Sealed (· % UInt32.size) (found.size - checksumSize) checksumSize w :=
  (layout_iff.1 h).checksum

/-- Only the numbers of files and of sectors have a say in where the sum stands. -/
theorem rejects_of_set {found : Layout} (hlayout : layout w = .ok found) (hne : w[i]? ≠ some b)
    (h : w'.toList = w.toList.set i b) (hi : i < found.size) (hcount : i ≠ magic.length)
    (hsectors : ∀ k < found.records.length, i ≠ sectorsOffset k) : plugin.Rejects w' := by
  apply admits.rejects
  rw [Bool.eq_false_iff]
  intro hcheck'
  obtain ⟨found', hlayout'⟩ := isOk_iff.1 hcheck'
  have hdescribes := layout_iff.1 hlayout
  have hdescribes' := layout_iff.1 hlayout'
  have hsame : found'.records.map FileRecord.sectors = found.records.map FileRecord.sectors :=
    map_sectors_eq hdescribes.records hdescribes'.records
      (Window.getElem?_of_set_ne h hcount.symm)
      fun k hk => Window.getElem?_of_set_ne h (hsectors k hk).symm
  have hlength : found'.records.length = found.records.length := by
    simpa using congrArg List.length hsame
  have hsize : found'.size = found.size := by
    rw [hdescribes'.size, hdescribes.size, foldl_size, foldl_size, hdescribes'.dataStart,
      hdescribes.dataStart, hsame, hlength]
  have hseal' := sealed_of_layout hlayout'
  rw [hsize] at hseal'
  have hend : i < found.size - checksumSize + checksumSize := by omega
  refine Window.not_sealed_of_set (fun m k hcode => ?_) (by decide) (sealed_of_layout hlayout) hne h
    hend hseal'
  have hcode : m % 4294967296 = k % 4294967296 := hcode
  omega

end Scl

/-- **One altered byte is found.** When a Hobeta file is accepted and one byte of its header is
    replaced by another one, or when an image is accepted and one of its bytes is replaced, other than
    the number of files and the numbers of their sectors, then the result is rejected. -/
theorem altered_rejected {w w' : Window} {i : Nat} {b : UInt8} (hne : w[i]? ≠ some b)
    (h : w'.toList = w.toList.set i b) :
    (Hobeta.check w = true → i < Hobeta.headerSize → Hobeta.plugin.Rejects w')
    ∧ (Scl.check w = true → ∃ found, Scl.layout w = .ok found
      ∧ (i < found.size → i ≠ Scl.magic.length →
        (∀ k < found.records.length, i ≠ Scl.sectorsOffset k) → Scl.plugin.Rejects w')) := by
  refine ⟨fun hcheck hi => Hobeta.rejects_of_set hcheck hne h hi, fun hcheck => ?_⟩
  obtain ⟨found, hlayout⟩ := isOk_iff.1 hcheck
  exact ⟨found, hlayout, Scl.rejects_of_set hlayout hne h⟩

/-- A file of one byte in its wrapping, and an image of such a file, are rejected with another letter
    at the start of the name. -/
theorem altered_rejected_firstLetters :
    let window (bytes : List UInt8) : Window := .ofByteArray ⟨bytes.toArray⟩
    let wrapped := Hobeta.File.oneByte.image
    let image := Scl.image [Scl.song]
    (Hobeta.check (window wrapped) = true ∧ (window wrapped)[0]? ≠ some 0x41
        ∧ (window (wrapped.set 0 0x41)).toList = (window wrapped).toList.set 0 0x41
        ∧ Hobeta.plugin.Rejects (window (wrapped.set 0 0x41)))
      ∧ Scl.check (window image) = true ∧ (window image)[9]? ≠ some 0x41
        ∧ (window (image.set 9 0x41)).toList = (window image).toList.set 9 0x41
        ∧ Scl.plugin.Rejects (window (image.set 9 0x41)) := by
  intro window wrapped image
  have hwrapped : wrapped.length = 273 := Hobeta.File.oneByte.length_image
  have himage : image.length = 283 :=
    (Scl.length_image _).trans (congrArg (· + Scl.checksumSize) (Scl.length_body _))
  have hwindow : ∀ bytes, bytes.length ≤ 0x7fffffffffff8000 → (window bytes).toList = bytes :=
    fun _ => Window.toList_ofByteArray
  constructor
  · have hlist := hwindow wrapped (by omega)
    have hcheck : Hobeta.check (window wrapped) = true :=
      ((Hobeta.File.unwraps_image Hobeta.File.oneByte _).1 [] (by rw [hlist]; simp [wrapped])).check
    have hne : (window wrapped)[0]? ≠ some 0x41 := by
      rw [Window.getElem?_eq_getElem?_toList, hlist]
      decide
    have hset : (window (wrapped.set 0 0x41)).toList = (window wrapped).toList.set 0 0x41 := by
      rw [hlist, hwindow _ (by rw [List.length_set]; omega)]
    exact ⟨hcheck, hne, hset, (altered_rejected hne hset).1 hcheck (by decide)⟩
  · have hlist := hwindow image (by omega)
    have hfilled : Scl.filled [Scl.song] = [Scl.song] := rfl
    have hholds : (window image).holdsAt 0 (Scl.image [Scl.song]) = true := by
      apply Window.holdsAt_of_prefix
      exact ⟨[], by rw [List.append_nil, List.drop_zero, hlist]⟩
    have hlayout := Scl.layout_of_holdsAt (by decide) (by decide)
      (by rw [hfilled]; exact List.cons_ne_nil _ _) hholds
    have hcheck := Scl.check_of_layout hlayout
    have hne : (window image)[9]? ≠ some 0x41 := by
      rw [Window.getElem?_eq_getElem?_toList, hlist]
      decide +kernel
    have hset : (window (image.set 9 0x41)).toList = (window image).toList.set 9 0x41 := by
      rw [hlist, hwindow _ (by rw [List.length_set]; omega)]
    obtain ⟨found, hfound, hrejects⟩ := (altered_rejected hne hset).2 hcheck
    rw [hlayout] at hfound
    cases hfound
    refine ⟨hcheck, hne, hset, hrejects ?_ (by decide) fun k _ => ?_⟩
    · show 9 < image.length
      omega
    · unfold Scl.sectorsOffset Scl.headerSize
      omega

end Chiptune
