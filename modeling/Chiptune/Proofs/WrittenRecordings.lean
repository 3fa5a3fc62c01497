import Chiptune.Proofs.ModuleSizes
import Chiptune.Proofs.SelfDelimiting
import Chiptune.Proofs.WrittenTexts

namespace Chiptune

/-!
# Recordings that were written

The frames of a recording with a header stand behind parts of any size: extra data, samples of drums
and three texts. The offsets that `Ym.parse` comes to are those at which the parts were written, so it
finds these frames and no other bytes, and they alone make the checksum of the music.

* `Ym.File.image` — the bytes of a recording, part by part;
* `Ym.skipDrums_of_holdsAt`, `Ym.text_of_holdsAt` — a part is passed over as it was written;
* `Ym.File.parse_of_holdsAt` — the recording that is found in the image of a file;
* `Ym.File.reads_image` — a file is read as it was written, whatever follows it.
-/

/-- The 32-bit code of a list of bytes. -/
def crc32Of (bytes : List UInt8) : UInt32 := ~~~ (bytes.foldl crc32Byte 0xffffffff)

theorem Window.crc32_eq (w : Window) : w.crc32 = crc32Of w.toList := by
  rw [crc32, foldl_eq, crc32Of]

-- The check value by which implementations of this code are told from others.
example : crc32Of (Window.ascii "123456789") = 0xcbf43926 := by decide +kernel

/-- The music of a module that has no stub is a stretch of the data from the offset on. -/
theorem Frame.toList_fixed_granted {f : Frame} {p : Plugin} {tunes : TuneSet}
    (h : tunes.fixed.2 ≤ tunes.consumed) :
    (f.granted p 0 tunes).fixed.toList = (f.rest.toList.take tunes.fixed.2).drop tunes.fixed.1 := by
  show ((((f.rest.drop 0).take tunes.consumed).take tunes.fixed.2).drop tunes.fixed.1).toList = _
  rw [Window.toList_drop, Window.toList_take, Window.toList_take, Window.drop_zero, List.take_take,
    Nat.min_eq_left h]

namespace Scan

variable {s : Scan} {f : Frame} {found : Found}

/-- All records of a module have the checksum of its music. -/
theorem fixedCrc_of_mem_records {r : Record} (h : r ∈ s.records f found) :
    r.properties.get? Key.fixedCrc = some (.ofNat found.fixed.crc32.toNat) :=
  measured_of_mem_records h (by simp [Found.measured])

theorem records_ne_nil (h : found.tunes.tracks ≠ []) : s.records f found ≠ [] := by
  rw [records, ne_eq, List.mapIdx_eq_nil_iff]
  exact h

end Scan

namespace Ym

variable {w : Window} {offset : Nat}

/-! ### Parts of a recording -/

/-- The bytes of a sample, with their number before them. -/
def sample (drum : List UInt8) : List UInt8 := bytesBE 4 drum.length ++ drum

/-- Samples are passed over one by one, whatever their bytes are. -/
theorem skipDrums_of_holdsAt {drums : List (List UInt8)}
    (hdrums : ∀ drum ∈ drums, drum.length < UInt32.size)
    (h : w.holdsAt offset (drums.flatMap sample) = true) :
    skipDrums w offset drums.length = .ok (offset + (drums.flatMap sample).length) := by
  induction drums generalizing offset with
  | nil => rfl
  | cons drum rest ih =>
    obtain ⟨hdrum, hrest⟩ := List.forall_mem_cons.1 hdrums
    rw [List.flatMap_cons, Window.holdsAt_append, Bool.and_eq_true_iff] at h
    obtain ⟨hsample, hbehind⟩ := h
    have hlength : (sample drum).length = 4 + drum.length := by simp [sample]
    have hend : offset + (sample drum).length ≤ w.size :=
      Window.add_length_le_of_holdsAt (List.ne_nil_of_length_pos (by omega)) hsample
    have hsize : w.be32? offset = some drum.length := by
      rw [sample, Window.holdsAt_append, Bool.and_eq_true_iff] at hsample
      exact Window.valueBE_of_holdsAt hsample.1 hdrum
    have hnext := ih hrest hbehind
    rw [hlength, ← Nat.add_assoc] at hnext
    rw [List.length_cons, skipDrums, hsize]
    simp only
    rw [if_neg (by omega), hnext, List.flatMap_cons, List.length_append, hlength]
    congr 1
    omega

theorem text_of_holdsAt {title : String} (htitle : '\x00' ∉ title.toList)
    (h : w.holdsAt offset (Utf8.terminated title) = true) :
    text w offset = .ok (title, offset + (Utf8.terminated title).length) := by
  have hend : offset + (Utf8.terminated title).length ≤ w.size :=
    Window.add_length_le_of_holdsAt (List.append_ne_nil_of_right_ne_nil _ (List.cons_ne_nil _ _)) h
  rw [text, if_neg (by omega), Window.terminated?_of_holdsAt htitle h]

/-! ### Files -/

/-- The versions with a header. -/
inductive Version where
  | five | six
deriving DecidableEq, Repr

/-- The name of the format. -/
def Version.name : Version → String
  | .five => "YM5"
  | .six => "YM6"

/-- The word that files begin with. -/
def Version.word : Version → List UInt8
  | .five => Window.ascii "YM5!"
  | .six => Window.ascii "YM6!"

@[simp] theorem Version.length_word (version : Version) : version.word.length = 4 := by
  cases version <;> rfl

/-- What a recording with a header is made of. Each number has room in its field, and a text has no
    zero before its end. -/
structure File where
  version : Version
  attributes : UInt32
  clock : UInt32
  rate : UInt16
  loopFrame : UInt32
  extra : List UInt8
  drums : List (List UInt8)
  title : String
  author : String
  comments : String
  frames : List (Vector UInt8 fullFrame)
  extra_lt : extra.length < UInt16.size
  drums_lt : drums.length < UInt16.size
  drum_lt : ∀ drum ∈ drums, drum.length < UInt32.size
  title_ends : '\x00' ∉ title.toList
  author_ends : '\x00' ∉ author.toList
  comments_ends : '\x00' ∉ comments.toList
  frames_pos : 0 < frames.length
  frames_le : frames.length ≤ maxFrames

namespace File

variable (file : File)

/-- The version, the word behind it and seven numbers. -/
def header : List UInt8 :=
  file.version.word ++ Window.ascii magic ++ bytesBE 4 file.frames.length
    ++ bytesBE 4 file.attributes.toNat ++ bytesBE 2 file.drums.length
    ++ bytesBE 4 file.clock.toNat ++ bytesBE 2 file.rate.toNat ++ bytesBE 4 file.loopFrame.toNat
    ++ bytesBE 2 file.extra.length

/-- The three texts. -/
def texts : List UInt8 :=
  Utf8.terminated file.title ++ (Utf8.terminated file.author ++ Utf8.terminated file.comments)

/-- All that stands before the frames. -/
def opening : List UInt8 := file.header ++ file.extra ++ file.drums.flatMap sample ++ file.texts

/-- The bytes of the frames. -/
def frameBytes : List UInt8 := file.frames.flatMap Vector.toList

/-- The whole recording. -/
def image : List UInt8 := file.opening ++ file.frameBytes ++ Window.ascii endMarker

/-- What is known of the recording. A rate of zero stands for the usual one. -/
def info : TuneInfo where
  title := file.title
  author := file.author
  comments := file.comments
  format := file.version.name
  frameCount := some file.frames.length
  frameRate := if file.rate.toNat = 0 then 50 else file.rate.toNat

/-- Where the frames stand. -/
def recording : Recording where
  info := file.info
  frames := (file.opening.length, file.opening.length + file.frameBytes.length)
  size := file.image.length

@[simp] theorem length_header : file.header.length = headerSize := by
  have hmagic : (Window.ascii magic).length = 8 := by decide
  simp [header, hmagic, headerSize]

@[simp] theorem length_frameBytes : file.frameBytes.length = file.frames.length * fullFrame := by
  simp [frameBytes, List.length_flatMap]

theorem length_image :
    file.image.length = file.opening.length + file.frames.length * fullFrame + endMarker.length := by
  rw [image, List.length_append, List.length_append, length_frameBytes]
  rfl

/-! ### Reading a file -/

variable {file}

/-- The header says what is needed to find the frames. -/
theorem read?_of_holdsAt (h : w.holdsAt 0 file.header = true) :
    Header.read? w
      = some ⟨file.frames.length, file.drums.length, file.rate.toNat, file.extra.length⟩ := by
  have hframes : file.frames.length < 256 ^ 4 := Nat.lt_of_le_of_lt file.frames_le (by decide)
  have hmagic : (Window.ascii magic).length = 8 := by decide
  simp only [header, Window.holdsAt_append, Bool.and_eq_true, List.length_append, length_bytesBE,
    Version.length_word, hmagic, Nat.zero_add, Nat.reduceAdd] at h
  obtain ⟨⟨⟨⟨⟨⟨⟨-, hcount⟩, -⟩, hdrums⟩, -⟩, hrate⟩, -⟩, hextra⟩ := h
  have hcount : w.be32? 12 = _ := Window.valueBE_of_holdsAt hcount hframes
  have hdrums : w.be16? 20 = _ := Window.valueBE_of_holdsAt hdrums file.drums_lt
  have hrate : w.be16? 26 = _ := Window.valueBE_of_holdsAt hrate file.rate.toNat_lt
  have hextra : w.be16? 32 = _ := Window.valueBE_of_holdsAt hextra file.extra_lt
  rw [Header.read?, hcount, hdrums, hrate, hextra]
  rfl

/-- Each part begins where the one before it was found to end. -/
theorem parseFull_of_holdsAt (h : w.holdsAt 0 file.image = true) :
    parseFull w file.version.name = .ok file.recording := by
  have hframes : ¬(file.frames.length = 0 ∨ maxFrames < file.frames.length) := by
    have hpos := file.frames_pos
    have hle := file.frames_le
    omega
  have hopening : file.opening.length = headerSize + file.extra.length
      + (file.drums.flatMap sample).length + (Utf8.terminated file.title).length
      + (Utf8.terminated file.author).length + (Utf8.terminated file.comments).length := by
    simp only [opening, texts, List.length_append, length_header]
    omega
  simp only [image, opening, texts, Window.holdsAt_append, Bool.and_eq_true, Nat.zero_add,
    List.length_append, length_header, length_frameBytes] at h
  obtain ⟨⟨⟨⟨⟨hheader, -⟩, hdrums⟩, htitle, hauthor, hcomments⟩, -⟩, hmarker⟩ := h
  simp only [← Nat.add_assoc, ← hopening] at hmarker
  have hmagic : w.holdsAt versionSize (Window.ascii magic) = true := by
    simp only [header, Window.holdsAt_append, Bool.and_eq_true, Version.length_word,
      Nat.zero_add] at hheader
    exact hheader.1.1.1.1.1.1.1.2
  unfold parseFull
  simp only [hmagic, read?_of_holdsAt hheader, Bool.not_true, Bool.false_eq_true, if_false,
    if_neg hframes, skipDrums_of_holdsAt file.drum_lt hdrums, text_of_holdsAt file.title_ends htitle,
    text_of_holdsAt file.author_ends hauthor, text_of_holdsAt file.comments_ends hcomments, bind,
    Except.bind, ← hopening, hmarker]
  rw [recording, info, length_frameBytes, length_image]
  by_cases hrate : file.rate.toNat = 0
  · rw [if_pos hrate, if_pos hrate]
    rfl
  · rw [if_neg hrate, if_neg hrate]
    rfl

/-- The word at the start tells the version. -/
theorem parse_of_holdsAt (h : w.holdsAt 0 file.image = true) : parse w = .ok file.recording := by
  have hfull := parseFull_of_holdsAt h
  have hword : w.holdsAt 0 file.version.word = true := by
    simp only [image, opening, header, Window.holdsAt_append, Bool.and_eq_true] at h
    exact h.1.1.1.1.1.1.1.1.1.1.1.1.1
  cases hversion : file.version with
  | five =>
    rw [hversion] at hfull hword
    have hfive : w.holdsAt 0 (Window.ascii "YM5!") = true := hword
    rw [HasHeader.parse_eq (.inl hfive), if_pos hfive]
    exact hfull
  | six =>
    rw [hversion] at hfull hword
    have hfive : ¬w.holdsAt 0 (Window.ascii "YM5!") = true := fun hfive =>
      absurd (Window.eq_of_holdsAt (by decide) hfive hword) (by decide)
    rw [HasHeader.parse_eq (.inr hword), if_neg hfive]
    exact hfull

/-- The tune in a recording whose bytes are `data`. -/
def tune (file : File) (data : Window) : SingleTune where
  tune := ⟨file.info, data, none⟩
  consumed := file.image.length
  fixed := (file.opening.length, file.opening.length + file.frameBytes.length)
  properties := file.info.toProperties

@[simp] theorem consumed_tune (data : Window) :
    (file.tune data).toTuneSet.consumed = file.image.length := by
  simp only [SingleTune.toTuneSet, tune]

@[simp] theorem fixed_tune (data : Window) : (file.tune data).toTuneSet.fixed
    = (file.opening.length, file.opening.length + file.frameBytes.length) := by
  simp only [SingleTune.toTuneSet, tune]

/-- Whether a recording is read from a window as it was written: all that is known of it, its bytes,
    and the stretch of its frames. -/
structure ReadsFrom (file : File) (w : Window) : Prop where
  check : check w = true
  read : ∃ data : Window, data.toList = file.image ∧ read w = .ok (file.tune data)
  frames : (w.toList.take (file.opening.length + file.frameBytes.length)).drop file.opening.length
    = file.frameBytes

theorem readsFrom_of_toList_eq {t : List UInt8} (h : w.toList = file.image ++ t) :
    file.ReadsFrom w := by
  have hholds : w.holdsAt 0 file.image = true := by
    apply Window.holdsAt_of_prefix
    rw [List.drop_zero, h]
    exact List.prefix_append _ _
  have hparse := parse_of_holdsAt hholds
  obtain ⟨hmatch, -⟩ := parse_spec hparse
  refine ⟨?_, ⟨(w.drop 0).take file.image.length, ?_, ?_⟩, ?_⟩
  · rw [Ym.check, hmatch, hparse]
    rfl
  · exact Window.toList_slice_of_holdsAt hholds
  · rw [read_of_parse hparse, recording, tune]
  · have hstretch : file.opening.length + file.frameBytes.length
        = (file.opening ++ file.frameBytes).length := List.length_append.symm
    rw [h, image, List.append_assoc _ _ t, hstretch, List.take_left, List.drop_left]

end File

/-! ### What a scan makes of it -/

/-- Whether recordings in these bytes have this checksum of their music: a scan that comes to them,
    at whatever point, offers a tune, and each record has it. -/
def OffersWith (bytes : List UInt8) (code : UInt32) : Prop :=
  ∀ (s : Scan) (skips : Plugin → Bool) (walk : Walk (List Record)) (data : Window) (root : TunePath)
    (told : List Chapter) (heard : List Sighting) (f : Frame) (below : List Frame) (claim : Nat),
    s.Told data root told heard → walk.stack = told.map Chapter.frame → walk.stack = f :: below →
    f.phase = .players claim → f.rest.toList = bytes → s.ComesTo skips f plugin →
    ∃ found, found.plugin = plugin ∧ s.Emits skips walk found ∧ s.records f found ≠ []
      ∧ ∀ r ∈ s.records f found, r.properties.get? Key.fixedCrc = some (.ofNat code.toNat)

namespace File

variable {file : File}

theorem ReadsFrom.reads {f : Frame} (h : file.ReadsFrom f.rest)
    (hword : file.image.length < UInt64.size) :
    ∃ body, f.Reads plugin 0 (file.tune body).toTuneSet := by
  obtain ⟨body, -, htune⟩ := h.read
  refine ⟨body, if_pos h.check, ?_, List.cons_ne_nil _ _, by rwa [consumed_tune]⟩
  rw [Window.drop_zero]
  show (Ym.read f.rest).toOption.map _ = _
  rw [htune]
  rfl

/-- Nothing but the frames has a say in the checksum of the music. -/
theorem offersWith_image (file : File) (t : List UInt8) :
    OffersWith (file.image ++ t) (crc32Of file.frameBytes) := by
  intro s skips walk data root told heard f below claim htold hstack htop hphase hrest hcomes
  have hsize : f.rest.size = file.image.length + t.length := by
    rw [← Window.length_toList, hrest, List.length_append]
  have himage := file.length_image
  have hmarker : endMarker.length = 4 := rfl
  have hoffset : f.rest.size = f.data.size - f.offset := Window.size_drop ..
  have hword := f.rest.size_lt_word
  have hdone : ¬f.isDone = true := by
    rw [Frame.isDone, decide_eq_true_iff]
    omega
  have hread := readsFrom_of_toList_eq hrest
  obtain ⟨body, hreads⟩ := hread.reads (by omega)
  have hclaim : claimedSize 0 (file.tune body).toTuneSet.consumed f.rest.size ≠ 0 := by
    rw [consumed_tune, claimedSize_of_lt (by omega) (by omega)]
    omega
  -- The frame on top has been told, so all claims in it lie behind.
  obtain ⟨c, hc, rfl⟩ : ∃ c ∈ told, c.frame = f :=
    List.mem_map.1 (hstack ▸ htop ▸ List.mem_cons_self)
  have hclaims := (Scan.inTurn_of_told htold c hc).tunes.endBy
  have hnext : s.ReadsNext skips walk c.frame plugin 0 (file.tune body).toTuneSet :=
    ⟨⟨below, htop⟩, hdone, ⟨claim, hphase⟩, hcomes, hreads⟩
  obtain ⟨hplugin, hemits⟩ := (hnext.emits_iff hclaims).2 ⟨hclaim, rfl⟩
  refine ⟨_, hplugin, hemits, Scan.records_ne_nil hreads.tracks_ne_nil, fun r hr => ?_⟩
  have hfixed : (file.tune body).toTuneSet.fixed.2 ≤ (file.tune body).toTuneSet.consumed := by
    rw [fixed_tune, consumed_tune, length_frameBytes]
    omega
  rw [Scan.fixedCrc_of_mem_records hr, Window.crc32_eq, Frame.toList_fixed_granted hfixed,
    fixed_tune, hread.frames]

/-- **A recording is read as it was written.** A file with a header, with any attributes, extra data,
    samples of drums and texts, and with as many frames as there may be, is read from its image,
    whatever follows: what is known of the tune is what the file says, the bytes of the image are
    taken, and the music is the bytes of the frames. A scan gives it the checksum of these bytes, and
    the same one to every other file with these frames. -/
theorem reads_image (file : File) {w : Window} {t : List UInt8} (h : w.toList = file.image ++ t) :
    file.ReadsFrom w
      ∧ OffersWith (file.image ++ t) (crc32Of file.frameBytes)
      ∧ ∀ (other : File) (t' : List UInt8), other.frameBytes = file.frameBytes →
        OffersWith (other.image ++ t') (crc32Of file.frameBytes) :=
  ⟨readsFrom_of_toList_eq h, offersWith_image file t, fun other t' hframes =>
    hframes ▸ offersWith_image other t'⟩

/-- A recording of one frame, with extra data, a sample and a title. -/
def oneFrame : File where
  version := .six
  attributes := 1
  clock := 2000000
  rate := 0
  loopFrame := 0
  extra := [0x45]
  drums := [[0x6e, 0x64]]
  title := "Song"
  author := ""
  comments := ""
  frames := [Vector.replicate fullFrame 0x21]
  extra_lt := by decide
  drums_lt := by decide
  drum_lt := by decide
  title_ends := by decide
  author_ends := by decide
  comments_ends := by decide
  frames_pos := by decide
  frames_le := by decide

/-- The recording of one frame is read with a byte behind it, and a scan with this player alone
    offers it with the checksum of its frame. -/
theorem reads_oneFrame :
    let w : Window := .ofByteArray ⟨(oneFrame.image ++ [1]).toArray⟩
    let alone : Scan := ⟨⟨[plugin], List.nodup_singleton _⟩, {}, ⟨"a", ""⟩, none⟩
    let frame : Frame := { Frame.start w (.empty '/') ∅ 0 alone.catalog with phase := .players 0 }
    w.toList = oneFrame.image ++ [1] ∧ oneFrame.ReadsFrom w
      ∧ ∃ found, alone.Emits (fun _ => false) ⟨[frame], 0, 1, []⟩ found
        ∧ ∀ r ∈ alone.records frame found,
          r.properties.get? Key.fixedCrc = some (.ofNat (crc32Of oneFrame.frameBytes).toNat) := by
  intro w alone frame
  have hlength : oneFrame.image.length = oneFrame.opening.length + 16 + 4 := oneFrame.length_image
  have hopening : oneFrame.opening.length = 48 := by decide +kernel
  have hw : w.toList = oneFrame.image ++ [1] := by
    refine Window.toList_ofByteArray ?_
    rw [List.length_append, hlength, hopening]
    decide
  obtain ⟨hreads, hoffers, -⟩ := reads_image oneFrame hw
  have hdone : ¬Frame.isDone (.start w (.empty '/') ∅ 0 alone.catalog) = true := by
    rw [Frame.isDone, decide_eq_true_iff, Nat.not_le]
    show 0 < w.size
    rw [← Window.length_toList, hw, List.length_append]
    exact Nat.succ_pos _
  have htold : alone.Told w (.empty '/') [{ frame := frame }] [] :=
    Scan.Told.start.next (.keep hdone rfl)
  have hrest : frame.rest.toList = oneFrame.image ++ [1] := by
    show (w.drop 0).toList = _
    rw [Window.drop_zero, hw]
  have hcomes : alone.ComesTo (fun _ => false) frame plugin :=
    ⟨⟨[], [], rfl, List.forall_mem_nil _⟩, rfl⟩
  obtain ⟨found, -, hemits, -, hcode⟩ := hoffers alone _ ⟨[frame], 0, 1, []⟩ w (.empty '/') _ _
    frame [] 0 htold rfl rfl rfl hrest hcomes
  exact ⟨hw, hreads, found, hemits, hcode⟩

end File

end Ym

end Chiptune
