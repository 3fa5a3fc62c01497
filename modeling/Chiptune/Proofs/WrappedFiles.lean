import Chiptune.Proofs.Guarded.Archives
import Chiptune.Proofs.WrittenBytes

namespace Chiptune.Hobeta

/-!
# Files in their wrapping

A TR-DOS file of up to `Hobeta.maxDataSize` bytes can be wrapped, and is unwrapped again whatever
follows it. The zeros that fill up the last sector may be missing.

* `File`, `File.image` — a file, and its bytes with the header and the zeros;
* `File.parse_eq` — all that a header of this kind leaves open is whether the data is there;
* `File.unwraps_image` — which data a file is unwrapped from.
-/

/-- A file with its name and type, which are printable, and its data. -/
structure File where
  name : List UInt8
  type : UInt8
  payload : List UInt8
  length_name : name.length = 8
  printable : ∀ b ∈ type :: name, 0x20 ≤ b ∧ b ≤ 0x7f
  payload_pos : 0 < payload.length
  payload_le : payload.length ≤ maxDataSize

theorem le_wholeSectors (length : Nat) : length ≤ wholeSectors length := by
  unfold wholeSectors
  omega

namespace File

variable (file : File)

/-- The header without its checksum: name, type and two parameters, the length of the data, and its
    length in whole sectors. -/
def opening : List UInt8 :=
  file.name ++ [file.type, 0x00, 0x80] ++ bytesLE 2 file.payload.length
    ++ bytesLE 2 (wholeSectors file.payload.length)

/-- The header, which ends with the checksum. -/
def header : List UInt8 :=
  file.opening ++ bytesLE 2 (105 + 257 * (file.opening.map UInt8.toNat).sum)

/-- The header, the data, and zeros up to whole sectors. -/
def image : List UInt8 :=
  file.header ++ file.payload
    ++ List.replicate (wholeSectors file.payload.length - file.payload.length) 0

@[simp] theorem length_opening : file.opening.length = 15 := by
  simp [opening, file.length_name]

@[simp] theorem length_header : file.header.length = headerSize := by
  simp [header, headerSize]

@[simp] theorem length_image :
    file.image.length = headerSize + wholeSectors file.payload.length := by
  have hle := le_wholeSectors file.payload.length
  simp [image]
  omega

variable {file} {w : Window}

/-! ### Reading the header -/

/-- The name is printable, the low byte of the sector length is zero and its high byte is not. -/
theorem accepts_header (file : File) :
    List.Forall₂ (fun (c : ByteClass) b => c.accepts b = true) signature.pattern.classes
      file.header := by
  have hpos := file.payload_pos
  have hle : file.payload.length ≤ 0xff00 := file.payload_le
  obtain ⟨htype, hname⟩ := List.forall_mem_cons.1 file.printable
  have hrange : ∀ b, 0x20 ≤ b ∧ b ≤ 0x7f → (ByteClass.range 0x20 0x7f).accepts b = true :=
    fun b hb => by simp [ByteClass.accepts, hb]
  have hnames : List.Forall₂ (fun (c : ByteClass) b => c.accepts b = true)
      (List.replicate 8 (.range 0x20 0x7f)) file.name := by
    refine List.forall₂_iff_zip.2 ⟨by simp [file.length_name], fun {c b} hmem => ?_⟩
    obtain ⟨hc, hb⟩ := List.of_mem_zip hmem
    rw [List.eq_of_mem_replicate hc]
    exact hrange b (hname b hb)
  have hlow : (ByteClass.exact 0x00).accepts
      (UInt8.ofNat (wholeSectors file.payload.length)) = true := by
    have hzero : UInt8.ofNat (wholeSectors file.payload.length) = 0x00 := by
      rw [← UInt8.toNat_inj, UInt8.toNat_ofNat']
      exact Nat.mul_mod_left ..
    rw [hzero]
    exact Pattern.accepts_exact _
  have hhigh : (ByteClass.range 0x01 0xff).accepts
      (UInt8.ofNat (wholeSectors file.payload.length / 256)) = true := by
    have hquotient : wholeSectors file.payload.length / 256 = (file.payload.length + 255) / 256 :=
      Nat.mul_div_cancel _ (by decide)
    simp only [ByteClass.accepts, Bool.and_eq_true, decide_eq_true_eq, UInt8.le_iff_toNat_le,
      UInt8.toNat_ofNat', hquotient]
    show 1 ≤ _ % 256 ∧ _ % 256 ≤ 255
    omega
  rw [header, opening, List.append_assoc, List.append_assoc, List.append_assoc]
  exact List.rel_append hnames (.cons (hrange _ htype) (.cons rfl (.cons rfl (.cons rfl (.cons rfl
    (.cons hlow (.cons hhigh (.cons rfl (.cons rfl .nil)))))))))

theorem matchesStart_of_holdsAt (h : w.holdsAt 0 file.header = true) (hsize : headerSize < w.size) :
    signature.matchesStart w = true :=
  Signature.matchesStart_ofPattern hsize (Pattern.meets_of_holdsAt file.accepts_header h)

theorem checksum_of_holdsAt (h : w.holdsAt 0 file.header = true) :
    checksum w = (105 + 257 * (file.opening.map UInt8.toNat).sum) % UInt16.size := by
  rw [header, Window.holdsAt_append, Bool.and_eq_true_iff] at h
  have hopening := Window.take_drop_of_holdsAt h.1
  rw [List.drop_zero, length_opening] at hopening
  rw [checksum, Window.byteSum_eq, Window.toList_take]
  show (105 + 257 * ((w.toList.take 15).map _).sum) % _ = _
  rw [hopening]

theorem read_of_holdsAt (h : w.holdsAt 0 file.header = true) :
    Header.read? w
      = some ⟨file.payload.length, wholeSectors file.payload.length, checksum w⟩ := by
  have hle : file.payload.length ≤ 0xff00 := file.payload_le
  have hwhole : wholeSectors file.payload.length ≤ 0xff00 := by
    unfold wholeSectors
    omega
  rw [checksum_of_holdsAt h]
  simp only [header, opening, Window.holdsAt_append, Bool.and_eq_true, List.length_append,
    file.length_name, length_bytesLE, List.length_cons, List.length_nil] at h
  obtain ⟨⟨⟨-, hlength⟩, hsectors⟩, hchecksum⟩ := h
  have hlength := Window.le16?_of_holdsAt hlength
  have hsectors := Window.le16?_of_holdsAt hsectors
  have hchecksum := Window.le16?_of_holdsAt hchecksum
  simp only [Nat.zero_add, Nat.reduceAdd] at hlength hsectors hchecksum
  have hword : UInt16.size = 65536 := rfl
  rw [Header.read?, hlength, hsectors, hchecksum, Nat.mod_eq_of_lt (by omega),
    Nat.mod_eq_of_lt (by omega)]
  rfl

/-- **The header of a file** is right in all it says. Only the data may be missing. -/
theorem parse_eq (h : w.holdsAt 0 file.header = true) (hsize : headerSize < w.size) :
    parse w = if w.size < headerSize + file.payload.length then .error .truncated
      else .ok ⟨file.payload.length, wholeSectors file.payload.length, checksum w⟩ := by
  have hpos := file.payload_pos
  have hle := file.payload_le
  unfold parse
  rw [matchesStart_of_holdsAt h hsize, read_of_holdsAt h]
  simp only [bind, Except.bind, Bool.not_true, Bool.false_eq_true, if_false]
  rw [if_neg (by omega), if_neg (not_not.2 rfl), if_neg (not_not.2 rfl)]
  split <;> rfl

/-- A window of a few bytes holds no file. -/
theorem parse_of_size_le (hsize : w.size ≤ headerSize) : parse w = .error .wrongSignature := by
  have hmatch : signature.matchesStart w = false := by
    rw [Signature.matchesStart, Bool.and_eq_false_iff]
    exact .inl (decide_eq_false (Nat.not_le.2 (Nat.lt_succ_of_le hsize)))
  unfold parse
  rw [hmatch]
  rfl

/-! ### Unwrapping -/

/-- Whether a file is unwrapped from a window as it is, and so many bytes belong to it. -/
structure UnwrapsFrom (file : File) (w : Window) (consumed : Nat) : Prop where
  check : check w = true
  unpack : ∃ data : Window, data.toList = file.payload ∧ unpack w = .ok {
    entries := [⟨none, some ⟨headerSize, file.payload.length⟩, data⟩]
    consumed := consumed }

theorem unwrapsFrom_of_holdsAt (h : w.holdsAt 0 (file.header ++ file.payload) = true) :
    file.UnwrapsFrom w (min (headerSize + wholeSectors file.payload.length) w.size) := by
  have hpos := file.payload_pos
  have hne : file.header ++ file.payload ≠ [] :=
    List.append_ne_nil_of_right_ne_nil _ (List.ne_nil_of_length_pos hpos)
  have hsize := Window.add_length_le_of_holdsAt hne h
  rw [List.length_append, length_header] at hsize
  obtain ⟨hheader, hpayload⟩ := Bool.and_eq_true_iff.1 (Window.holdsAt_append .. ▸ h)
  rw [Nat.zero_add, length_header] at hpayload
  have hparse := parse_eq hheader (by omega)
  rw [if_neg (by omega)] at hparse
  exact ⟨isOk_iff.2 ⟨_, hparse⟩, _, Window.toList_slice_of_holdsAt hpayload,
    unpack_of_parse hparse⟩

theorem holdsAt_of_toList_eq {front after t : List UInt8} (hfront : file.image = front ++ after)
    {n : Nat} (hle : front.length ≤ n) (h : w.toList = file.image.take n ++ t) :
    w.holdsAt 0 front = true := by
  apply Window.holdsAt_of_prefix
  rw [List.drop_zero, h]
  have hprefix : front <+: file.image.take n :=
    List.prefix_take_iff.2 ⟨hfront ▸ List.prefix_append _ _, hle⟩
  exact hprefix.trans (List.prefix_append _ _)

/-- **Files are unwrapped.** Whatever follows the image of a file, the file is unwrapped from it as a
    single entry without a name, and its whole sectors are taken. When the image is cut off behind
    the data, the file is still unwrapped, and all that is there is taken. When it is cut off before,
    it is refused. -/
theorem unwraps_image (file : File) (w : Window) :
    (∀ t, w.toList = file.image ++ t →
      file.UnwrapsFrom w (headerSize + wholeSectors file.payload.length))
    ∧ ∀ n, n ≤ file.image.length → w.toList = file.image.take n →
      (headerSize + file.payload.length ≤ n → file.UnwrapsFrom w n)
      ∧ (n < headerSize + file.payload.length → check w = false
        ∧ unpack w = .error (if n ≤ headerSize then .wrongSignature else .truncated)) := by
  have hpadded : file.image = file.header ++ file.payload
    ++ List.replicate (wholeSectors file.payload.length - file.payload.length) 0 := rfl
  constructor
  · intro t h
    have hsize : w.size = file.image.length + t.length := by
      rw [← Window.length_toList, h, List.length_append]
    have hle := le_wholeSectors file.payload.length
    have htake : w.toList = file.image.take file.image.length ++ t := by rw [h, List.take_length]
    have hunwraps := unwrapsFrom_of_holdsAt
      (holdsAt_of_toList_eq hpadded (by simp; omega) htake)
    rw [length_image] at hsize
    rwa [Nat.min_eq_left (by omega)] at hunwraps
  · intro n hn h
    have htake : w.toList = file.image.take n ++ [] := by rw [h, List.append_nil]
    have hsize : w.size = n := by
      rw [← Window.length_toList, h, List.length_take, Nat.min_eq_left hn]
    rw [length_image] at hn
    refine ⟨fun hle => ?_, fun hlt => ?_⟩
    · have hunwraps := unwrapsFrom_of_holdsAt
        (holdsAt_of_toList_eq hpadded (by simpa using hle) htake)
      rwa [hsize, Nat.min_eq_right hn] at hunwraps
    · have hparse : parse w = .error (if n ≤ headerSize then .wrongSignature else .truncated) := by
        split
        · rename_i hshort
          exact parse_of_size_le (hsize ▸ hshort)
        · -- All of the header is there.
          rename_i hlong
          have hheader := holdsAt_of_toList_eq (List.append_assoc .. ▸ hpadded)
            (by rw [length_header]; omega) htake
          rw [parse_eq hheader (by omega), if_pos (by omega)]
      exact ⟨by rw [check, hparse]; rfl, by rw [unpack, hparse]; rfl⟩

/-- A file of one byte. -/
def oneByte : File where
  name := Window.ascii "TUNE    "
  type := 0x43
  payload := [0xc9]
  length_name := by decide
  printable := by decide +kernel
  payload_pos := by decide
  payload_le := by decide

/-- A file of one byte is unwrapped from its image with a byte behind it, and from its first 18 bytes,
    but not from the first 17. -/
theorem unwraps_oneByte :
    let window (bytes : List UInt8) : Window := .ofByteArray ⟨bytes.toArray⟩
    (window (oneByte.image ++ [0x01])).toList = oneByte.image ++ [0x01]
      ∧ oneByte.UnwrapsFrom (window (oneByte.image ++ [0x01])) 273
      ∧ (window (oneByte.image.take 18)).toList = oneByte.image.take 18
      ∧ oneByte.UnwrapsFrom (window (oneByte.image.take 18)) 18
      ∧ (window (oneByte.image.take 17)).toList = oneByte.image.take 17
      ∧ check (window (oneByte.image.take 17)) = false := by
  intro window
  have hlength : oneByte.image.length = 273 := oneByte.length_image
  have hwhole : (window (oneByte.image ++ [0x01])).toList = oneByte.image ++ [0x01] :=
    Window.toList_ofByteArray (by simp [hlength])
  have hpart : ∀ n, (window (oneByte.image.take n)).toList = oneByte.image.take n :=
    fun n => Window.toList_ofByteArray (by simp [hlength])
  exact ⟨hwhole, (unwraps_image oneByte _).1 _ hwhole,
    hpart 18, ((unwraps_image oneByte _).2 18 (by omega) (hpart 18)).1 (by decide),
    hpart 17, (((unwraps_image oneByte _).2 17 (by omega) (hpart 17)).2 (by decide)).1⟩

end File

end Chiptune.Hobeta
