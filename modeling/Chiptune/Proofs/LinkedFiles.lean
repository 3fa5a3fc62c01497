import Chiptune.Proofs.PropertyValues
import Chiptune.Proofs.WrittenTexts

namespace Chiptune

/-!
# AY files that were written

The structures of an AY file can stand anywhere in it. In a ripped file they stand in tables, one for
each kind of structure with a row for each song, and the texts come last. Every pointer leads forward
from where it stands to the row or the text that it is for, so the songs are read as they were
written, and the extent of the file is the end of the last text.

* `Ay.Rip.image` — the bytes of a file, table by table;
* `Ay.Rip.Placed` — what stands where in a window that begins with them;
* `Ay.Reader.pointer?_of_link` — a pointer leads to where it was written for;
* `Ay.Rip.plays_image` — a file is read as it was written, whatever follows it.
-/

/-! ### Rows of tables -/

theorem length_flatten_of_forall {width : Nat} {rows : List (List UInt8)}
    (h : ∀ row ∈ rows, row.length = width) : rows.flatten.length = width * rows.length := by
  induction rows with
  | nil => rfl
  | cons row rest ih =>
    obtain ⟨hrow, hrest⟩ := List.forall_mem_cons.1 h
    rw [List.flatten_cons, List.length_append, hrow, ih hrest, List.length_cons, Nat.mul_succ,
      Nat.add_comm]

/-- Each of some rows stands behind those before it. -/
theorem Window.holdsAt_getElem {w : Window} {offset i : Nat} {rows : List (List UInt8)}
    (h : w.holdsAt offset rows.flatten = true) (hi : i < rows.length) :
    w.holdsAt (offset + (rows.take i).flatten.length) rows[i] = true := by
  rw [← List.take_append_drop i rows, List.drop_eq_getElem_cons hi, List.flatten_append,
    List.flatten_cons, holdsAt_append, holdsAt_append] at h
  simp only [Bool.and_eq_true] at h
  exact h.2.1

namespace Ay

/-! ### What is written -/

/-- Whether a song can be written: its name has no zero in it, and its lengths fit in two bytes. -/
structure Song.Writable (s : Song) : Prop where
  name : '\x00' ∉ s.name.toList
  frames : s.frames < UInt16.size
  fade : s.fade < UInt16.size

/-- A file to write: its texts, and songs that are played by the same code. -/
structure Rip where
  author : String
  comment : String
  songs : List Song
  code : List UInt8
  author_plain : '\x00' ∉ author.toList
  comment_plain : '\x00' ∉ comment.toList
  writable : ∀ s ∈ songs, s.Writable
  songs_ne_nil : songs ≠ []
  length_songs : songs.length ≤ 256

/-- The pointer at `origin` that leads forward to `target`. -/
def link (origin target : Nat) : List UInt8 := bytesBE 2 (target - origin)

/-- Where the code is loaded to. -/
def codeAddress : Nat := 0x8000

/-- The size of the record of one block and the end of the list. -/
def blockListSize : Nat := blockSize + 2

namespace Rip

variable (rip : Rip)

/-! ### Places -/

/-- Where the entry of a song stands. -/
def entryAt (i : Nat) : Nat := headerSize + entrySize * i

/-- Where the data of a song stands. -/
def dataAt (i : Nat) : Nat := entryAt rip.songs.length + songSize * i

/-- Where the registers and entry points of a song stand. -/
def pointsAt (i : Nat) : Nat := rip.dataAt rip.songs.length + pointsSize * i

/-- Where the list of blocks of a song stands. -/
def blocksAt (i : Nat) : Nat := rip.pointsAt rip.songs.length + blockListSize * i

/-- Where the code stands. -/
def codeAt : Nat := rip.blocksAt rip.songs.length

/-- Where the texts begin. -/
def textsAt : Nat := rip.codeAt + rip.code.length

/-- The texts: author and comment, then the names of the songs. -/
def texts : List String := rip.author :: rip.comment :: rip.songs.map Song.name

/-- The texts up to one of them. -/
def textsTo (i : Nat) : List UInt8 := ((rip.texts.map Utf8.terminated).take i).flatten

/-- Where one of the texts begins. -/
def textStart (i : Nat) : Nat := rip.textsAt + (rip.textsTo i).length

/-! ### Structures -/

/-- The header. Version numbers are not read. -/
def header : List UInt8 :=
  Window.ascii magic ++ [0, 3, 3, 0] ++ link 12 (rip.textStart 0) ++ link 14 (rip.textStart 1)
    ++ [UInt8.ofNat (rip.songs.length - 1), 0] ++ link 18 (entryAt 0)

/-- The entry of a song. -/
def entry (i : Nat) (_ : Song) : List UInt8 :=
  link (entryAt i) (rip.textStart (i + 2)) ++ link (entryAt i + 2) (rip.dataAt i)

/-- The data of a song: channels, lengths, registers, and where the rest is. -/
def data (i : Nat) (s : Song) : List UInt8 :=
  [0, 1, 2, 3] ++ bytesBE 2 s.frames ++ bytesBE 2 s.fade ++ [0, 0]
    ++ link (rip.dataAt i + 10) (rip.pointsAt i) ++ link (rip.dataAt i + 12) (rip.blocksAt i)

/-- The stack pointer and the entry points of a song: to start it, and to play on. -/
def points (_ : Nat) (_ : Song) : List UInt8 :=
  [0, 0] ++ bytesBE 2 codeAddress ++ bytesBE 2 (codeAddress + 3)

/-- The list of blocks of a song, with the code as its only block. -/
def blockList (i : Nat) (_ : Song) : List UInt8 :=
  bytesBE 2 codeAddress ++ bytesBE 2 rip.code.length ++ link (rip.blocksAt i + 4) rip.codeAt
    ++ bytesBE 2 0

/-- A table with a row for each song. -/
def table (row : Nat → Song → List UInt8) : List UInt8 := (rip.songs.mapIdx row).flatten

/-- The bytes of the file. -/
def image : List UInt8 :=
  rip.header ++ rip.table rip.entry ++ rip.table rip.data ++ rip.table points
    ++ rip.table rip.blockList ++ rip.code ++ (rip.texts.map Utf8.terminated).flatten

/-- What is read from it. -/
def file : File := ⟨rip.author, rip.comment, rip.songs, 0⟩

/-! ### Lengths -/

theorem length_header : rip.header.length = headerSize := by
  simp [header, link, Window.ascii, magic, headerSize]

theorem length_entry (i : Nat) (s : Song) : (rip.entry i s).length = entrySize := by
  simp [entry, link, entrySize]

theorem length_data (i : Nat) (s : Song) : (rip.data i s).length = songSize := by
  simp [data, link, songSize]

theorem length_points (i : Nat) (s : Song) : (points i s).length = pointsSize := by
  simp [points, pointsSize]

theorem length_blockList (i : Nat) (s : Song) : (rip.blockList i s).length = blockListSize := by
  simp [blockList, link, blockListSize, blockSize]

section

variable {width : Nat} {row : Nat → Song → List UInt8} (hrow : ∀ i s, (row i s).length = width)

include hrow

theorem length_of_mem_mapIdx : ∀ bytes ∈ rip.songs.mapIdx row, bytes.length = width := by
  intro bytes hbytes
  obtain ⟨i, hi, rfl⟩ := List.mem_mapIdx.1 hbytes
  exact hrow i _

theorem length_table : (rip.table row).length = width * rip.songs.length := by
  rw [table, length_flatten_of_forall (rip.length_of_mem_mapIdx hrow), List.length_mapIdx]

/-- The row of a song stands behind as many rows as there are songs before it. -/
theorem holdsAt_row {w : Window} {offset i : Nat} (h : w.holdsAt offset (rip.table row) = true)
    (hi : i < rip.songs.length) : w.holdsAt (offset + width * i) (row i rip.songs[i]) = true := by
  have hi' : i < (rip.songs.mapIdx row).length := by rwa [List.length_mapIdx]
  have hbefore : ((rip.songs.mapIdx row).take i).flatten.length = width * i := by
    rw [length_flatten_of_forall fun bytes hbytes =>
      rip.length_of_mem_mapIdx hrow bytes (List.mem_of_mem_take hbytes), List.length_take_of_le]
    exact Nat.le_of_lt hi'
  have hholds := Window.holdsAt_getElem h hi'
  rwa [hbefore, List.getElem_mapIdx] at hholds

end

theorem length_texts : rip.texts.length = rip.songs.length + 2 := by
  rw [texts, List.length_cons, List.length_cons, List.length_map]

theorem textStart_succ {i : Nat} (hi : i < rip.texts.length) :
    rip.textStart (i + 1) = rip.textStart i + (Utf8.terminated rip.texts[i]).length := by
  have hi' : i < (rip.texts.map Utf8.terminated).length := by rwa [List.length_map]
  rw [textStart, textsTo, List.take_succ_eq_append_getElem hi', List.flatten_append,
    List.length_append, ← Nat.add_assoc, List.getElem_map, List.flatten_singleton]
  rfl

theorem textStart_le_textStart {i j : Nat} (h : i ≤ j) : rip.textStart i ≤ rip.textStart j := by
  have hprefix := List.take_prefix_take_left (l := rip.texts.map Utf8.terminated) h
  obtain ⟨rest, hrest⟩ := hprefix
  rw [textStart, textStart, textsTo, textsTo, ← hrest, List.flatten_append, List.length_append]
  omega

/-- The last text is the end of the file. -/
theorem length_image : rip.image.length = rip.textStart (rip.songs.length + 2) := by
  have hall : rip.textsTo (rip.songs.length + 2) = (rip.texts.map Utf8.terminated).flatten := by
    rw [textsTo, List.take_of_length_le]
    rw [List.length_map, length_texts]
  rw [textStart, hall, image]
  simp only [List.length_append, length_header, rip.length_table rip.length_entry,
    rip.length_table rip.length_data, rip.length_table length_points,
    rip.length_table rip.length_blockList]
  rfl

theorem textStart_le_length {i : Nat} (hi : i ≤ rip.texts.length) :
    rip.textStart i ≤ rip.image.length :=
  rip.length_image ▸ rip.textStart_le_textStart (rip.length_texts ▸ hi)

/-- No text is without bytes, as a zero stands behind it. -/
theorem textStart_lt_length {i : Nat} (hi : i < rip.texts.length) :
    rip.textStart i < rip.image.length := by
  have hle := rip.textStart_le_length (i := i + 1) hi
  have hpos : 0 < (Utf8.terminated rip.texts[i]).length := by simp [Utf8.terminated]
  rw [rip.textStart_succ hi] at hle
  omega

theorem textsAt_lt_length : rip.textsAt < rip.image.length :=
  rip.textStart_lt_length (i := 0) (by rw [length_texts]; omega)

/-- The structures of a song stand behind each other. -/
theorem places_ordered {i : Nat} (hi : i < rip.songs.length) :
    entryAt i + entrySize ≤ rip.dataAt i ∧ rip.dataAt i + songSize ≤ rip.pointsAt i ∧
      rip.pointsAt i + pointsSize ≤ rip.blocksAt i ∧ rip.blocksAt i + blockListSize ≤ rip.codeAt := by
  simp only [entryAt, dataAt, pointsAt, blocksAt, codeAt, headerSize, entrySize, songSize,
    pointsSize, blockListSize, blockSize]
  omega

/-! ### Where they are found -/

/-- What stands where in a window that begins with the bytes of the file. The file is short enough for
    a pointer to lead from any place in it to any other. -/
structure Placed (w : Window) : Prop where
  header : w.holdsAt 0 rip.header = true
  entry {i : Nat} (hi : i < rip.songs.length) :
    w.holdsAt (entryAt i) (rip.entry i rip.songs[i]) = true
  data {i : Nat} (hi : i < rip.songs.length) :
    w.holdsAt (rip.dataAt i) (rip.data i rip.songs[i]) = true
  blockList {i : Nat} (hi : i < rip.songs.length) :
    w.holdsAt (rip.blocksAt i) (rip.blockList i rip.songs[i]) = true
  text {i : Nat} (hi : i < rip.texts.length) :
    w.holdsAt (rip.textStart i) (Utf8.terminated rip.texts[i]) = true
  inside : rip.image.length ≤ w.size
  fits : rip.image.length ≤ 0x7fff

variable {rip} {w : Window}

theorem placed_of_holdsAt (h : w.holdsAt 0 rip.image = true)
    (hfits : rip.image.length ≤ 0x7fff) : rip.Placed w := by
  have hne : rip.image ≠ [] := by
    intro hnil
    have hlength := congrArg List.length hnil
    simp [image, length_header, headerSize] at hlength
  have hinside := Window.add_length_le_of_holdsAt hne h
  simp only [image, Window.holdsAt_append, Bool.and_eq_true, List.length_append, length_header,
    rip.length_table rip.length_entry, rip.length_table rip.length_data,
    rip.length_table length_points, rip.length_table rip.length_blockList, Nat.zero_add] at h
  obtain ⟨⟨⟨⟨⟨⟨hheader, hentries⟩, hdata⟩, -⟩, hblocks⟩, -⟩, htexts⟩ := h
  refine ⟨hheader, rip.holdsAt_row rip.length_entry hentries, rip.holdsAt_row rip.length_data hdata,
    rip.holdsAt_row rip.length_blockList hblocks, fun {i} hi => ?_, by omega, hfits⟩
  have hi' : i < (rip.texts.map Utf8.terminated).length := by rwa [List.length_map]
  have htext := Window.holdsAt_getElem htexts hi'
  rwa [List.getElem_map] at htext

end Rip

/-! ### Readings of written bytes -/

namespace Reader

variable {α β : Type} {w : Window} {origin target n : Nat}

theorem bind_eq_ok {r : Reader α} {next : α → Reader β} {a : α} {b : β} {i j : Nat}
    (h : r w = .ok (a, i)) (hnext : next a w = .ok (b, j)) (hn : max i j = n) :
    (r >>= next) w = .ok (b, n) := by
  rw [bind_of_ok h, hnext, ← hn]
  rfl

theorem need_of_le {offset size : Nat} (h : offset + size ≤ w.size) :
    need offset size w = .ok ((), offset + size) := if_pos h

theorem word_of_holdsAt {offset value : Nat} (h : w.holdsAt offset (bytesBE 2 value) = true)
    (hvalue : value < UInt16.size) : word offset w = .ok (value, offset + 2) := by
  rw [word, Window.be16?, Window.valueBE_of_holdsAt h hvalue]

theorem byte_of_holdsAt {offset i : Nat} {bytes : List UInt8} {b : UInt8}
    (h : w.holdsAt offset bytes = true) (hb : bytes[i]? = some b) :
    byte (offset + i) w = .ok (b, offset + i + 1) := by
  obtain ⟨hi, -⟩ := List.getElem?_eq_some_iff.1 hb
  rw [byte, Window.getElem?_of_holdsAt h hi, hb]

/-- Whether a pointer leads forward, to a place that is in its reach and inside the window. -/
structure Leads (w : Window) (origin target : Nat) : Prop where
  holds : w.holdsAt origin (link origin target) = true
  forward : origin < target
  near : target - origin < 0x8000
  inside : target < w.size

/-- Up to the half of what two bytes can hold, a distance is not negative. -/
theorem bmod_of_lt {distance : Nat} (h : distance < 0x8000) :
    (distance : Int).bmod UInt16.size = distance := by
  have hsize : (UInt16.size : Int) = 0x10000 := rfl
  exact Int.bmod_eq_of_le (by omega) (by omega)

theorem landing_of_lt {distance : Nat} (h : distance < 0x8000) :
    landing origin distance = (origin + distance : Nat) := by
  unfold landing
  rw [bmod_of_lt h, Int.natCast_add]

theorem pointer?_of_link (h : Leads w origin target) :
    pointer? origin w = .ok (some target, origin + 2) := by
  have hforward := h.forward
  have hword : word origin w = .ok (target - origin, origin + 2) := by
    have hnear := h.near
    exact word_of_holdsAt h.holds (by simp only [UInt16.size]; omega)
  rw [pointer?_of_ne_zero hword (by omega), landing_of_lt h.near,
    Nat.add_sub_cancel' (Nat.le_of_lt hforward),
    if_pos ⟨Int.natCast_nonneg target, Int.ofNat_lt.2 h.inside⟩, Int.toNat_natCast]

theorem pointer_of_link (h : Leads w origin target) :
    pointer origin w = .ok (target, origin + 2) :=
  bind_eq_ok (pointer?_of_link h) rfl (Nat.max_zero _)

theorem optional_of_link {part : Nat → Reader Unit} (h : Leads w origin target)
    (hpart : part target w = .ok ((), n)) (hn : origin + 2 ≤ n) :
    optional origin part w = .ok ((), n) :=
  bind_eq_ok (pointer?_of_link h) hpart (Nat.max_eq_right hn)

theorem textAt_of_link {s : String} (h : Leads w origin target) (hs : '\x00' ∉ s.toList)
    (hholds : w.holdsAt target (Utf8.terminated s) = true) :
    textAt origin w = .ok (s, target + (Utf8.terminated s).length) := by
  have hforward := h.forward
  have htext : text target w = .ok (s, target + (Utf8.terminated s).length) := by
    rw [text, Window.terminated?_of_holdsAt hs hholds]
  have hlength : (Utf8.terminated s).length = (Utf8.encode s).length + 1 := by
    rw [Utf8.terminated, List.length_append, List.length_singleton]
  exact bind_eq_ok (pointer?_of_link h) htext (by omega)

end Reader

/-! ### Reading a rip -/

open Reader

/-- The rest of a song whose name is known, with its data at `data`. -/
def songData (name : String) (data : Nat) : Reader Song := do
  need data songSize
  let frames ← word (data + 4)
  let fade ← word (data + 6)
  optional (data + 10) fun points => need points pointsSize
  optional (data + 12) blocksFrom
  return ⟨name, frames, fade⟩

theorem song_eq (entry : Nat) : song entry = need entry entrySize >>= fun _ =>
    textAt entry >>= fun name => pointer (entry + 2) >>= songData name := rfl

namespace Rip

variable {rip : Rip} {w : Window}

theorem Placed.leads (h : rip.Placed w) {origin target : Nat}
    (hholds : w.holdsAt origin (link origin target) = true) (hforward : origin < target)
    (htarget : target < rip.image.length) : Leads w origin target := by
  have hinside := h.inside
  have hfits := h.fits
  exact ⟨hholds, hforward, by omega, by omega⟩

theorem Placed.textAt (h : rip.Placed w) {origin i : Nat} (hi : i < rip.texts.length)
    (hplain : '\x00' ∉ rip.texts[i].toList)
    (hholds : w.holdsAt origin (link origin (rip.textStart i)) = true)
    (hforward : origin < rip.textsAt) :
    Reader.textAt origin w = .ok (rip.texts[i], rip.textStart (i + 1)) := by
  have hstart : rip.textsAt ≤ rip.textStart i := Nat.le_add_right _ _
  have hinside := rip.textStart_lt_length hi
  rw [rip.textStart_succ hi]
  exact textAt_of_link (h.leads hholds (by omega) hinside) hplain (h.text hi)

/-- The only block is the code, and all of it is there. -/
theorem Placed.blocksFrom (h : rip.Placed w) {i : Nat} (hi : i < rip.songs.length) :
    blocksFrom (rip.blocksAt i) w = .ok ((), rip.textsAt) := by
  obtain ⟨-, -, -, hcode⟩ := rip.places_ordered hi
  have hinside := h.inside
  have hfits := h.fits
  have htexts := rip.textsAt_lt_length
  have hcodeLength : rip.codeAt + rip.code.length = rip.textsAt := rfl
  have hlist : blockListSize = 8 := rfl
  have hrecord : blockSize = 6 := rfl
  have hrow := h.blockList hi
  simp only [Rip.blockList, Window.holdsAt_append, Bool.and_eq_true, List.length_append,
    length_bytesBE, link] at hrow
  obtain ⟨⟨⟨haddress, hlength⟩, hlink⟩, hend⟩ := hrow
  have haddress : word (rip.blocksAt i) w = .ok (codeAddress, rip.blocksAt i + 2) :=
    word_of_holdsAt haddress (by decide)
  have hlength : word (rip.blocksAt i + 2) w = .ok (rip.code.length, rip.blocksAt i + 4) :=
    word_of_holdsAt hlength (by simp only [UInt16.size]; omega)
  have hpointer : pointer (rip.blocksAt i + 4) w = .ok (rip.codeAt, rip.blocksAt i + 6) :=
    pointer_of_link (h.leads hlink (by omega) (by omega))
  -- Code that a pointer leads across fits in the memory behind its address, so none is left out.
  have hspan : span rip.codeAt (min rip.code.length (memorySize - codeAddress)) w
      = .ok ((), rip.textsAt) := by
    have hroom : rip.code.length ≤ memorySize - codeAddress := by
      simp only [memorySize, codeAddress]
      omega
    rw [span, Nat.min_eq_left hroom, Nat.min_eq_left (by omega), hcodeLength]
  have hblock : block (rip.blocksAt i) codeAddress w = .ok ((), rip.textsAt) :=
    bind_eq_ok (need_of_le (by omega))
      (bind_eq_ok hlength (bind_eq_ok hpointer hspan rfl) rfl) (by omega)
  have hend : Ay.blocksFrom (rip.blocksAt i + blockSize) w = .ok ((), rip.blocksAt i + 8) := by
    rw [blocksFrom_eq]
    exact bind_eq_ok (word_of_holdsAt hend (by decide)) rfl (Nat.max_zero _)
  rw [blocksFrom_eq]
  exact bind_eq_ok haddress (bind_eq_ok hblock hend rfl) (by omega)

theorem Placed.songData (h : rip.Placed w) {i : Nat} (hi : i < rip.songs.length) :
    songData rip.songs[i].name (rip.dataAt i) w = .ok (rip.songs[i], rip.textsAt) := by
  obtain ⟨-, hdata, hpoints, hblocks⟩ := rip.places_ordered hi
  have hinside := h.inside
  have htexts := rip.textsAt_lt_length
  have hcodeLength : rip.codeAt + rip.code.length = rip.textsAt := rfl
  have hsizes : songSize = 14 ∧ pointsSize = 6 ∧ blockListSize = 8 := ⟨rfl, rfl, rfl⟩
  have hsong := rip.writable rip.songs[i] (List.getElem_mem hi)
  have hrow := h.data hi
  simp only [Rip.data, Window.holdsAt_append, Bool.and_eq_true, List.length_append, length_bytesBE,
    List.length_cons, List.length_nil, link] at hrow
  obtain ⟨⟨⟨⟨⟨-, hframes⟩, hfade⟩, -⟩, hpointsLink⟩, hblocksLink⟩ := hrow
  have hframes : word (rip.dataAt i + 4) w = .ok (rip.songs[i].frames, rip.dataAt i + 6) :=
    word_of_holdsAt hframes hsong.frames
  have hfade : word (rip.dataAt i + 6) w = .ok (rip.songs[i].fade, rip.dataAt i + 8) :=
    word_of_holdsAt hfade hsong.fade
  have hpoints : optional (rip.dataAt i + 10) (fun points => need points pointsSize) w
      = .ok ((), rip.pointsAt i + pointsSize) :=
    optional_of_link (h.leads hpointsLink (by omega) (by omega)) (need_of_le (by omega))
      (by omega)
  have hblocks : optional (rip.dataAt i + 12) Ay.blocksFrom w = .ok ((), rip.textsAt) :=
    optional_of_link (h.leads hblocksLink (by omega) (by omega)) (h.blocksFrom hi)
      (by omega)
  have hreturn : (pure rip.songs[i] : Reader Song) w = .ok (rip.songs[i], 0) := rfl
  exact bind_eq_ok (need_of_le (by omega)) (bind_eq_ok hframes (bind_eq_ok hfade
    (bind_eq_ok hpoints (bind_eq_ok hblocks hreturn rfl) rfl) rfl) rfl) (by omega)

/-- The name of a song stands behind all that the song needs otherwise. -/
theorem Placed.song (h : rip.Placed w) {i : Nat} (hi : i < rip.songs.length) :
    song (entryAt i) w = .ok (rip.songs[i], rip.textStart (i + 3)) := by
  obtain ⟨hentry, hdata, hpoints, hblocks⟩ := rip.places_ordered hi
  have hinside := h.inside
  have htexts := rip.textsAt_lt_length
  have hcode : rip.codeAt ≤ rip.textsAt := Nat.le_add_right _ _
  have hend : rip.textsAt ≤ rip.textStart (i + 3) := Nat.le_add_right _ _
  have hsize : entrySize = 4 := rfl
  have hrow := h.entry hi
  simp only [Rip.entry, Window.holdsAt_append, Bool.and_eq_true, length_bytesBE, link] at hrow
  obtain ⟨hname, hlink⟩ := hrow
  have hname : Reader.textAt (entryAt i) w = .ok (rip.songs[i].name, rip.textStart (i + 3)) := by
    have hi' : i + 2 < rip.texts.length := by
      rw [length_texts]
      omega
    have htext : rip.texts[i + 2] = rip.songs[i].name := by simp [texts]
    have hplain := (rip.writable rip.songs[i] (List.getElem_mem hi)).name
    have hread := h.textAt hi' (htext ▸ hplain) hname (by omega)
    rwa [htext] at hread
  have hpointer : pointer (entryAt i + 2) w = .ok (rip.dataAt i, entryAt i + 4) :=
    pointer_of_link (h.leads hlink (by omega) (by omega))
  rw [song_eq]
  exact bind_eq_ok (need_of_le (by omega))
    (bind_eq_ok hname (bind_eq_ok hpointer (h.songData hi) rfl) rfl) (by omega)

/-- Every song but the last is followed by the name of another. -/
theorem Placed.songs (h : rip.Placed w) {i count : Nat}
    (hcount : i + (count + 1) = rip.songs.length) :
    Ay.songs (entryAt i) (count + 1) w = .ok (rip.songs.drop i, rip.image.length) := by
  -- On the songs that are left. The extent is that of the last, as no name ends behind its name.
  induction count generalizing i with
  | zero =>
    have hi : i < rip.songs.length := by omega
    have hlast : rip.songs.drop i = [rip.songs[i]] := by
      rw [List.drop_eq_getElem_cons hi, List.drop_of_length_le (by omega)]
    have hend : rip.textStart (i + 3) = rip.image.length := by
      rw [length_image, ← hcount]
    rw [hlast, ← hend]
    exact bind_eq_ok (h.song hi) rfl (Nat.max_zero _)
  | succ count ih =>
    have hi : i < rip.songs.length := by omega
    have hend : rip.textStart (i + 3) ≤ rip.image.length :=
      rip.textStart_le_length (by rw [length_texts]; omega)
    have hrest : Ay.songs (entryAt i + entrySize) (count + 1) w
        = .ok (rip.songs.drop (i + 1), rip.image.length) := ih (i := i + 1) (by omega)
    have hreturn : (pure (rip.songs[i] :: rip.songs.drop (i + 1)) : Reader (List Song)) w
        = .ok (rip.songs[i] :: rip.songs.drop (i + 1), 0) := rfl
    rw [List.drop_eq_getElem_cons hi]
    exact bind_eq_ok (h.song hi) (bind_eq_ok hrest hreturn rfl) (by omega)

theorem Placed.body (h : rip.Placed w) : body w = .ok (rip.file, rip.image.length) := by
  have hpos : 0 < rip.songs.length := List.length_pos_iff.2 rip.songs_ne_nil
  have hlength := rip.length_songs
  obtain ⟨hentry, hdata, hpoints, hblocks⟩ := rip.places_ordered hpos
  have hheader : entryAt 0 = 20 := rfl
  have htexts := rip.textsAt_lt_length
  have hcode : rip.codeAt ≤ rip.textsAt := Nat.le_add_right _ _
  have hmagic : (Window.ascii magic).length = 8 := by decide
  have hrow := h.header
  simp only [Rip.header, Window.holdsAt_append, Bool.and_eq_true, List.length_append,
    length_bytesBE, List.length_cons, List.length_nil, hmagic, link] at hrow
  obtain ⟨⟨⟨⟨⟨-, -⟩, hauthor⟩, hcomment⟩, hbytes⟩, hlink⟩ := hrow
  have hauthor : Reader.textAt 12 w = .ok (rip.author, rip.textStart 1) :=
    h.textAt (i := 0) (by rw [length_texts]; omega) rip.author_plain hauthor (by omega)
  have hcomment : Reader.textAt 14 w = .ok (rip.comment, rip.textStart 2) :=
    h.textAt (i := 1) (by rw [length_texts]; omega) rip.comment_plain hcomment (by omega)
  have hlast : byte 16 w = .ok (UInt8.ofNat (rip.songs.length - 1), 17) :=
    byte_of_holdsAt (i := 0) hbytes rfl
  have hfirst : byte 17 w = .ok (0, 18) := byte_of_holdsAt (i := 1) hbytes rfl
  have hcount : (UInt8.ofNat (rip.songs.length - 1)).toNat + 1 = rip.songs.length := by
    rw [UInt8.toNat_ofNat']
    omega
  have htable : pointer 18 w = .ok (entryAt 0, 20) :=
    pointer_of_link (h.leads hlink (by omega) (by omega))
  have hsongs : Ay.songs (entryAt 0) ((UInt8.ofNat (rip.songs.length - 1)).toNat + 1) w
      = .ok (rip.songs, rip.image.length) := h.songs (i := 0) (by omega)
  have hreturn : (pure rip.file : Reader File) w = .ok (rip.file, 0) := rfl
  have hrest : (pointer 18 >>= fun table =>
      Ay.songs table ((UInt8.ofNat (rip.songs.length - 1)).toNat + 1) >>= fun songs =>
        pure ⟨rip.author, rip.comment, songs, 0⟩ : Reader File) w
      = .ok (rip.file, rip.image.length) :=
    bind_eq_ok htable (bind_eq_ok hsongs hreturn rfl) (by omega)
  have hauthorEnd := rip.textStart_le_length (i := 1) (by rw [length_texts]; omega)
  have hcommentEnd := rip.textStart_le_length (i := 2) (by rw [length_texts]; omega)
  refine bind_eq_ok hauthor (bind_eq_ok hcomment (bind_eq_ok hlast (bind_eq_ok hfirst
    (j := rip.image.length) ?_ rfl) rfl) rfl) (by omega)
  -- The first song is not behind the last.
  exact (congrFun (if_neg (Nat.not_succ_le_zero _)) w).trans hrest

theorem Placed.parse (h : rip.Placed w) : parse w = .ok (rip.file, rip.image.length) := by
  have hinside := h.inside
  have hsize : headerSize ≤ rip.image.length := by
    rw [image, List.length_append, List.length_append, List.length_append, List.length_append,
      List.length_append, List.length_append, length_header]
    omega
  have hmagic : beginsWith (Window.ascii magic) w = .ok (true, 0) := by
    have hrow := h.header
    simp only [Rip.header, Window.holdsAt_append, Bool.and_eq_true] at hrow
    rw [beginsWith, hrow.1.1.1.1.1]
  show Ay.file w = _
  rw [file_eq]
  exact bind_eq_ok (need_of_le (by omega)) (bind_eq_ok hmagic h.body rfl) (by omega)

end Rip

end Ay

/-! ### Titles -/

theorem Properties.get?_setNonEmpty_self {p : Properties} {name : String} (text : String)
    (h : p.get? name = none) :
    (p.setNonEmpty name text).get? name = if text = "" then none else some (.text text) := by
  by_cases htext : text = ""
  · rw [htext, setNonEmpty_empty, if_pos rfl, h]
  · rw [setNonEmpty_of_ne p name htext, get?_set, if_pos rfl, if_neg htext]

/-- The title is trimmed, and there is none when nothing is left of it. -/
theorem TuneInfo.get?_title_toProperties (i : TuneInfo) : i.toProperties.get? Key.title
    = if trimBlank i.title = "" then none else some (.text (trimBlank i.title)) := by
  have htexts : ({ i with frameCount := none } : TuneInfo).toProperties.get? Key.title
      = if trimBlank i.title = "" then none else some (.text (trimBlank i.title)) := by
    simp only [toProperties]
    rw [Properties.get?_setNonEmpty_of_ne _ _ (by decide),
      Properties.get?_setNonEmpty_of_ne _ _ (by decide),
      Properties.get?_setNonEmpty_of_ne _ _ (by decide),
      Properties.get?_setNonEmpty_of_ne _ _ (by decide)]
    exact Properties.get?_setNonEmpty_self _ rfl
  rw [← htexts]
  cases hcount : i.frameCount with
  | none => simp only [toProperties, hcount]
  | some count =>
    simp only [toProperties, hcount]
    exact Properties.get?_set_of_ne _ _ (by decide)

namespace Ay.Rip

/-! ### Tunes -/

variable (rip : Rip)

/-- A track for a song: numbered from one, on the bytes of the whole file, under the trimmed name of
    the song. -/
structure Plays (i : Nat) (s : Song) (track : Track) : Prop where
  number : track.tune.track = some (i + 1)
  bytes : track.tune.data.toList = rip.image
  info : track.tune.info = rip.file.info s
  title : track.properties.get? Key.title
    = if trimBlank s.name = "" then none else some (.text (trimBlank s.name))

/-- **A file is read as it was written.** Author, comment and songs are those that it was made from,
    with names and lengths, and its extent is its length, whatever follows it. There is one track
    for each song. -/
theorem plays_image (hfits : rip.image.length ≤ 0x7fff) {w : Window} {t : List UInt8}
    (h : w.toList = rip.image ++ t) :
    parse w = .ok (⟨rip.author, rip.comment, rip.songs, 0⟩, rip.image.length) ∧
      ∃ tunes, read w = .ok tunes ∧ tunes.consumed = rip.image.length ∧
        tunes.tracks.length = rip.songs.length ∧
        ∀ i (hi : i < rip.songs.length), ∃ track, tunes.tracks[i]? = some track ∧
          rip.Plays i rip.songs[i] track := by
  have hparse : parse w = .ok (rip.file, rip.image.length) :=
    (placed_of_holdsAt (Window.holdsAt_of_prefix ⟨t, h.symm⟩) hfits).parse
  obtain ⟨tunes, hread, hconsumed, -, htracks⟩ := read_of_parse hparse
  have hlength : tunes.tracks.length = rip.songs.length := by
    rw [htracks, List.length_map, List.length_zipIdx]
    rfl
  refine ⟨hparse, tunes, hread, hconsumed, hlength, fun i hi => ?_⟩
  have htrack : tunes.tracks[i]? = some ⟨⟨rip.file.info rip.songs[i],
      (w.drop 0).take rip.image.length, some (i + 1)⟩, (rip.file.info rip.songs[i]).toProperties⟩ := by
    simp [htracks, file, hi]
  have hbytes : ((w.drop 0).take rip.image.length).toList = rip.image := by
    rw [Window.toList_take, Window.toList_drop, h, List.drop_zero, List.take_left]
  exact ⟨_, htrack, ⟨rfl, hbytes, rfl, TuneInfo.get?_title_toProperties _⟩⟩

/-- A file for songs with the given names. Their lengths tell them apart, and their code is a loop
    without an end. -/
def ofNames (author : String) (names : List String) (hauthor : '\x00' ∉ author.toList)
    (hnames : ∀ name ∈ names, '\x00' ∉ name.toList) (hne : names ≠ [])
    (hlength : names.length ≤ 256) : Rip where
  author := author
  comment := "Test rip"
  songs := names.mapIdx fun i name => ⟨name, 3000 + i, 0⟩
  code := [0xf3, 0x18, 0xfe, 0xc9]
  author_plain := hauthor
  comment_plain := by decide
  writable := by
    intro s hs
    obtain ⟨i, hi, rfl⟩ := List.mem_mapIdx.1 hs
    have hframes : 3000 + i < UInt16.size := by
      simp only [UInt16.size]
      omega
    exact ⟨hnames _ (List.getElem_mem hi), hframes, Nat.zero_lt_succ _⟩
  songs_ne_nil := by simpa using hne
  length_songs := by simpa using hlength

/-- Two songs of one author. -/
def introIngame : Rip :=
  ofNames "Tim Follin" ["Intro", "Ingame"] (by decide) (by decide) (List.cons_ne_nil _ _) (by decide)

example : introIngame.image =
    [0x5a, 0x58, 0x41, 0x59, 0x45, 0x4d, 0x55, 0x4c, 0, 3, 3, 0, 0, 76, 0, 85, 1, 0, 0, 2,
      0, 88, 0, 6, 0, 90, 0, 16,
      0, 1, 2, 3, 0x0b, 0xb8, 0, 0, 0, 0, 0, 18, 0, 28,
      0, 1, 2, 3, 0x0b, 0xb9, 0, 0, 0, 0, 0, 10, 0, 22,
      0, 0, 0x80, 0, 0x80, 3,
      0, 0, 0x80, 0, 0x80, 3,
      0x80, 0, 0, 4, 0, 12, 0, 0,
      0x80, 0, 0, 4, 0, 4, 0, 0,
      0xf3, 0x18, 0xfe, 0xc9]
    ++ Window.ascii "Tim Follin" ++ [0] ++ Window.ascii "Test rip" ++ [0]
    ++ Window.ascii "Intro" ++ [0] ++ Window.ascii "Ingame" ++ [0] := by decide +kernel

/-- Bytes behind the file. -/
theorem plays_image_introIngame :
    let w : Window := .ofByteArray ⟨(introIngame.image ++ List.replicate 32 0xaa).toArray⟩
    introIngame.image.length ≤ 0x7fff ∧ w.toList = introIngame.image ++ List.replicate 32 0xaa ∧
      parse w = .ok (⟨"Tim Follin", "Test rip", [⟨"Intro", 3000, 0⟩, ⟨"Ingame", 3001, 0⟩], 0⟩, 121)
      ∧ ∃ tunes, read w = .ok tunes ∧ tunes.tracks.length = 2 := by
  intro w
  have hlength : introIngame.image.length = 121 := by decide +kernel
  have hfits : introIngame.image.length ≤ 0x7fff := by
    rw [hlength]
    decide
  have hbytes : w.toList = introIngame.image ++ List.replicate 32 0xaa := by
    apply Window.toList_ofByteArray
    rw [List.length_append, hlength, List.length_replicate]
    decide
  obtain ⟨hparse, tunes, hread, -, htracks, -⟩ := introIngame.plays_image hfits hbytes
  rw [hlength] at hparse
  exact ⟨hfits, hbytes, hparse, tunes, hread, htracks⟩

end Ay.Rip

end Chiptune
