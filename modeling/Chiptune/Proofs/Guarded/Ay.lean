import Chiptune.Proofs.Decoding
import Chiptune.Proofs.Guarded.Basic

namespace Chiptune.Ay

/-!
# Guarded steps of AY files

Pointers lead anywhere in the file, forwards and backwards, and the extent grows on the way. Blocks
follow each other until one has the address zero: each is a record further on, and a record that is
not in the file ends the reading.

* `Ay.Steps.parse` — the steps through a file;
* `Ay.Steps.Follows` — steps that go as a reading does, and keep its extent;
* `Ay.Steps.parse_eq`, `Ay.Steps.read_eq` — the steps end in the result of the reading.

Places that pointers lead to are signed words. A pointer leads `2 ^ 15` bytes further at most, and
a window leaves that much room in front of the largest word.
-/

open Guarded

namespace Steps

/-! ### Steps with an extent -/

/-- Steps that keep the extent of what was read so far. -/
abbrev Parser (α : Type) : Type := StateT Nat (Guarded DecodeError) α

variable {α β : Type}

/-- Steps that leave the extent as it is. -/
def lift (x : Guarded DecodeError α) : Parser α := StateT.lift x

/-- Refuse the file. -/
def reject (reason : DecodeError) : Parser α := lift (refuse reason)

/-- The file reaches up to `stop` at least. -/
def touch (stop : Nat) : Parser Unit := modify fun extent => max extent stop

/-- The steps of `Reader.need`. A sum that is no word is not inside the data either. -/
def ensure (w : Window) (offset size : Nat) : Parser Unit :=
  if UInt64.size ≤ offset + size ∨ w.size < offset + size then reject .truncated
  else touch (offset + size)

/-- The steps of `Reader.byte`. -/
def byte (w : Window) (offset : Nat) : Parser UInt8 := do
  ensure w offset 1
  lift (index w offset)

/-- The steps of `Reader.word`. -/
def word (w : Window) (offset : Nat) : Parser Nat := do
  ensure w offset 2
  lift (bigEndian w offset 2)

/-- The steps of `Reader.text`. -/
def text (w : Window) (start : Nat) : Parser String := do
  let tail ← lift (slice w start w.size)
  match ← lift (terminated? tail start) with
  | some (found, stop) =>
    touch stop
    return found
  | none => reject (.unterminatedText start)

/-- The steps of `Reader.pointer?`. -/
def pointer? (w : Window) (origin : Nat) : Parser (Option Nat) := do
  let distance ← word w origin
  if distance = 0 then return none
  else
    let target ← lift (signed (origin + (distance : Int).bmod UInt16.size))
    if 0 ≤ target ∧ target < w.size then return some target.toNat
    else reject (.strayPointer origin)

/-- The steps of `Reader.pointer`. -/
def pointer (w : Window) (origin : Nat) : Parser Nat := do
  match ← pointer? w origin with
  | some target => return target
  | none => reject (.strayPointer origin)

/-- The steps of `Reader.optional`. -/
def optional (w : Window) (origin : Nat) (part : Nat → Parser Unit) : Parser Unit := do
  match ← pointer? w origin with
  | some start => part start
  | none => return ()

/-- The steps of `Reader.textAt`. -/
def textAt (w : Window) (origin : Nat) : Parser String := do
  match ← pointer? w origin with
  | some start => text w start
  | none => return ""

/-! ### Steps through a file -/

/-- The steps of `Ay.block`. -/
def block (w : Window) (offset address : Nat) : Parser Unit := do
  ensure w offset blockSize
  let lengthOffset ← lift (add offset 2)
  let length ← word w lengthOffset
  let room ← lift (sub memorySize address)
  let startOffset ← lift (add offset 4)
  let start ← pointer w startOffset
  let left ← lift (sub w.size start)
  let stop ← lift (add start (min (min length room) left))
  touch stop

/-- The steps of `Ay.blocks`. -/
def blocks (w : Window) (offset : Nat) : Parser Unit := fun extent =>
  Loop.run ⟨fun (offset, extent) => do
    let (address, extent) ← (word w offset).run extent
    if address ≠ 0 then
      let (_, extent) ← (block w offset address).run extent
      let next ← add offset blockSize
      return .again (next, extent)
    else return .done ((), extent)⟩ (offset, extent)

/-- The steps of `Ay.song`. -/
def song (w : Window) (entry : Nat) : Parser Song := do
  ensure w entry entrySize
  let name ← textAt w entry
  let dataOffset ← lift (add entry 2)
  let data ← pointer w dataOffset
  ensure w data songSize
  let framesOffset ← lift (add data 4)
  let frames ← word w framesOffset
  let fadeOffset ← lift (add data 6)
  let fade ← word w fadeOffset
  let pointsOffset ← lift (add data 10)
  optional w pointsOffset fun points => ensure w points pointsSize
  let blocksOffset ← lift (add data 12)
  optional w blocksOffset fun first => blocks w first
  return ⟨name, frames, fade⟩

/-- The steps of `Ay.songs`, from the song with the given number on. -/
def songs (w : Window) (table number : Nat) : (count : Nat) → Parser (List Song)
  | 0 => return []
  | count + 1 => do
    let distance ← lift (mul number entrySize)
    let entry ← lift (add table distance)
    let first ← song w entry
    let rest ← songs w table (number + 1) count
    return first :: rest

/-- The steps behind the magic word. -/
def body (w : Window) : Parser File := do
  let author ← textAt w 12
  let comment ← textAt w 14
  let last ← byte w 16
  let count ← lift (add last.toNat 1)
  let firstSong := (← byte w 17).toNat
  if count ≤ firstSong then
    let number ← lift (add firstSong 1)
    reject (.firstSong number count)
  else
    let table ← pointer w 18
    let songs ← songs w table 0 count
    return { author, comment, songs, firstSong }

/-- The steps of `Ay.file`. -/
def file (w : Window) : Parser File := do
  ensure w 0 headerSize
  let word ← lift (slice w 0 magic.length)
  if !word.holdsAt 0 (Window.ascii magic) then reject .wrongSignature
  else body w

/-- The steps of `Ay.parse`. -/
def parse (w : Window) : Guarded DecodeError (File × Nat) := (file w).run 0

/-- The steps of `Ay.check`. -/
def check (w : Window) : Guarded DecodeError Bool := admits (signature.matchesStart w) (parse w)

/-- The tracks of songs, the first of which has the given number. -/
def tracks (f : File) (data : Window) (number : Nat) : List Song → Guarded DecodeError (List Track)
  | [] => return []
  | s :: rest => do
    let info := f.info s
    let track ← add number 1
    let others ← tracks f data (number + 1) rest
    return ⟨⟨info, data, some track⟩, info.toProperties⟩ :: others

/-- The steps of `Ay.read`. -/
def read (w : Window) : Guarded DecodeError TuneSet := do
  let w ← view w
  let (f, extent) ← parse w
  let some data ← part? w 0 extent | refuse .truncated
  let properties := (∅ : Properties)
    |>.setNonEmpty Key.author (trimBlank f.author)
    |>.setNonEmpty Key.comment (trimBlank f.comment)
    |>.set Key.program (.text formatName)
  let tracks ← tracks f data 0 f.songs
  return { consumed := extent, fixed := (0, extent), properties, tracks }

/-! ### Readings that end -/

/-- Whether the steps `x` on the file `w` go as the reading `r` does and count its extent in, and
    `P` holds of what they give. -/
def Follows (w : Window) (x : Parser α) (r : Reader α) (P : α → Prop) : Prop :=
  ∀ extent, Yields (x.run extent) ((r w).map fun a => (a.1, max extent a.2)) fun a => P a.1

variable {w : Window} {x x' : Parser α} {r r' : Reader α} {P P' : α → Prop} {Q : β → Prop}
  {f : α → Parser β} {g : α → Reader β}

theorem follows_pure {a : α} (h : P a) : Follows w (pure a) (pure a) P := by
  intro extent
  show Yields _ (.ok (a, max extent 0)) _
  rw [Nat.max_zero]
  exact yields_pure h

theorem follows_reject (reason : DecodeError) : Follows w (reject reason) (Reader.fail reason) P :=
  fun _ => yields_refuse reason

theorem Follows.mono (h : Follows w x r P) (hP : ∀ a, P a → P' a) : Follows w x r P' :=
  fun extent => (h extent).mono fun a => hP a.1

theorem Follows.congr (h : Follows w x r P) (heq : r w = r' w) : Follows w x r' P := by
  intro extent
  rw [← heq]
  exact h extent

theorem Follows.bind (h : Follows w x r P) (hnext : ∀ a, P a → Follows w (f a) (g a) Q) :
    Follows w (x >>= f) (r >>= g) Q := by
  intro extent
  have hx := h extent
  show Yields (x.run extent >>= fun a => (f a.1).run a.2) _ _
  cases hr : r w with
  | error reason =>
    rw [hr] at hx
    rw [hx.eq, Reader.bind_of_error hr]
    exact yields_refuse reason
  | ok a =>
    obtain ⟨a, n⟩ := a
    rw [hr] at hx
    have hrest := hnext a (hx.post _ rfl) (max extent n)
    rw [hx.eq, Reader.bind_of_ok hr]
    cases hg : g a w with
    | error reason =>
      rw [hg] at hrest
      exact hrest
    | ok b =>
      rw [hg] at hrest
      have hmax : max (max extent n) b.2 = max extent (max n b.2) := Nat.max_assoc ..
      simp only [Except.map, hmax] at hrest
      exact hrest

/-- A step that gives `a` whatever happens goes unnoticed. -/
theorem Follows.step {x : Guarded DecodeError β} {a : β} {f : β → Parser α} (hstep : x = pure a)
    (h : Follows w (f a) r P) : Follows w (lift x >>= f) r P := by
  rw [hstep]
  exact h

theorem Follows.ite {c : Prop} [Decidable c] (hpos : c → Follows w x r P)
    (hneg : ¬c → Follows w x' r' P) :
    Follows w (if c then x else x') (if c then r else r') P := by
  by_cases hc : c
  · rw [if_pos hc, if_pos hc]
    exact hpos hc
  · rw [if_neg hc, if_neg hc]
    exact hneg hc

/-! ### Fields -/

variable {offset size origin : Nat}

theorem ensure_of_le (h : offset + size ≤ w.size) :
    ensure w offset size = touch (offset + size) := by
  have hsize := w.size_lt
  exact if_neg (by rw [UInt64.size]; omega)

theorem ensure_of_lt (h : w.size < offset + size) : ensure w offset size = reject .truncated :=
  if_pos (.inr h)

theorem follows_ensure :
    Follows w (ensure w offset size) (Reader.need offset size) fun _ => offset + size ≤ w.size := by
  intro extent
  by_cases h : offset + size ≤ w.size
  · rw [ensure_of_le h, Reader.need, if_pos h]
    exact yields_pure h
  · rw [ensure_of_lt (Nat.lt_of_not_le h), Reader.need, if_neg h]
    exact yields_refuse _

theorem follows_byte : Follows w (byte w offset) (Reader.byte offset) fun _ => True := by
  intro extent
  by_cases h : offset + 1 ≤ w.size
  · have hbyte := w.getElem?_of_lt h
    rw [byte, ensure_of_le h, index_of_eq_some hbyte, Reader.byte, hbyte]
    exact yields_pure trivial
  · have hbyte := w.getElem?_eq_none_of_size_le (Nat.le_of_not_lt h)
    rw [byte, ensure_of_lt (Nat.lt_of_not_le h), Reader.byte, hbyte]
    exact yields_refuse _

theorem follows_word : Follows w (word w offset) (Reader.word offset) fun value =>
    value < memorySize ∧ offset + 2 ≤ w.size := by
  intro extent
  by_cases h : offset + 2 ≤ w.size
  · obtain ⟨bytes, hbytes⟩ := Window.exists_bytes? h
    have hvalue : Reader.word offset w = .ok (valueBE bytes, offset + 2) := by
      rw [Reader.word, Window.be16?, hbytes]
      rfl
    rw [word, ensure_of_le h, bigEndian_of_bytes? hbytes, hvalue]
    exact yields_pure ⟨word_lt_memorySize hvalue, h⟩
  · have hbytes := Window.bytes?_eq_none Nat.two_pos (Nat.lt_of_not_le h)
    rw [word, ensure_of_lt (Nat.lt_of_not_le h), Reader.word, Window.be16?, hbytes]
    exact yields_refuse _

theorem follows_text {start : Nat} (h : start ≤ w.size) :
    Follows w (text w start) (Reader.text start) fun _ => True := by
  have htail : slice w start w.size = (pure (w.drop start) : Guarded DecodeError Window) := by
    rw [slice_of_le h (Nat.le_refl _), ← Window.size_drop, Window.take_size]
  refine .step htail (.step (terminated?_eq h) ?_)
  intro extent
  rw [Reader.text]
  cases w.terminated? start with
  | none => exact yields_refuse _
  | some found => exact yields_pure trivial

theorem follows_target {target : Int} :
    Follows w
      (if 0 ≤ target ∧ target < w.size then pure (some target.toNat)
        else reject (.strayPointer origin))
      (fun w => if 0 ≤ target ∧ target < w.size then .ok (some target.toNat, 0)
        else .error (.strayPointer origin))
      fun found => ∀ target, found = some target → target < w.size := by
  intro extent
  by_cases hinside : 0 ≤ target ∧ target < w.size
  · simp only [if_pos hinside, Except.map, Nat.max_zero]
    refine yields_pure fun place hplace => ?_
    cases hplace
    omega
  · simp only [if_neg hinside]
    exact yields_refuse _

theorem follows_pointer? :
    Follows w (pointer? w origin) (Reader.pointer? origin) fun found =>
      ∀ target, found = some target → target < w.size := by
  rw [Reader.pointer?_eq]
  refine follows_word.bind fun distance hword => ?_
  refine .ite (fun _ => follows_pure fun _ h => by cases h) fun _ => ?_
  -- A distance has 16 bits with its sign, and the origin is inside the file.
  have hsize := w.size_le
  have hbase : (UInt16.size : Int) = 0x10000 := rfl
  have hlow : -((UInt16.size : Int) / 2) ≤ (distance : Int).bmod UInt16.size :=
    Int.le_bmod (by decide)
  have hhigh : (distance : Int).bmod UInt16.size < ((UInt16.size : Int) + 1) / 2 :=
    Int.bmod_lt (by decide)
  rw [hbase] at hlow hhigh
  exact .step (signed_of_lt (by omega) (by omega)) follows_target

theorem follows_pointer :
    Follows w (pointer w origin) (Reader.pointer origin) fun target => target < w.size := by
  refine follows_pointer?.bind fun found htarget => ?_
  cases found with
  | none => exact follows_reject _
  | some target => exact follows_pure (htarget target rfl)

theorem follows_optional {part : Nat → Parser Unit}
    {reading : Nat → Reader Unit}
    (h : ∀ start, start < w.size → Follows w (part start) (reading start) fun _ => True) :
    Follows w (optional w origin part) (Reader.optional origin reading) fun _ => True := by
  refine follows_pointer?.bind fun found hstart => ?_
  cases found with
  | none => exact follows_pure trivial
  | some start => exact h start (hstart start rfl)

theorem follows_textAt :
    Follows w (textAt w origin) (Reader.textAt origin) fun _ => True := by
  refine follows_pointer?.bind fun found hstart => ?_
  cases found with
  | none => exact follows_pure trivial
  | some start => exact follows_text (Nat.le_of_lt (hstart start rfl))

/-! ### Structures -/

/-- A block whose record is in the file, and an address in memory. -/
theorem follows_block {address : Nat} (haddress : address < memorySize) :
    Follows w (block w offset address) (Ay.block offset address) fun _ =>
      offset + blockSize ≤ w.size := by
  have hsize := w.size_lt
  refine follows_ensure.bind fun _ hrecord => ?_
  have hrecordSize : blockSize = 6 := rfl
  refine .step (add_of_lt (by omega)) ?_
  refine follows_word.bind fun length _ => ?_
  refine .step (sub_of_le (Nat.le_of_lt haddress)) (.step (add_of_lt (by omega)) ?_)
  refine follows_pointer.bind fun start hstart => ?_
  refine .step (sub_of_le (Nat.le_of_lt hstart)) (.step (add_of_lt (by omega)) ?_)
  exact fun _ => yields_pure hrecord

theorem blocks_round (w : Window) (offset : Nat) :
    blocks w offset = (do
      let address ← word w offset
      if address ≠ 0 then
        block w offset address
        let next ← lift (add offset blockSize)
        blocks w next
      else return ()) := by
  funext extent
  rw [blocks, Loop.run_eq]
  simp only [ite_bind, bind_assoc, pure_bind]
  refine congrArg (bind _) (funext fun ⟨address, extent⟩ => ?_)
  show (if address ≠ 0 then _ else _) = (if address ≠ 0 then _ else _ : Parser Unit) extent
  by_cases haddress : address ≠ 0
  · rw [if_pos haddress, if_pos haddress]
    refine congrArg (bind _) (funext fun ⟨_, extent⟩ => ?_)
    show _ = (add offset blockSize >>= fun next => pure (next, extent)) >>= fun x =>
      blocks w x.1 x.2
    rw [bind_assoc]
    rfl
  · rw [if_neg haddress, if_neg haddress]
    rfl

/-- Each block is followed by fewer bytes than the one before, so the steps end. -/
theorem follows_blocks (offset : Nat) :
    Follows w (blocks w offset) (blocksFrom offset) fun _ => True := by
  induction hleft : w.size - offset using Nat.strongRecOn generalizing offset with
  | _ left ih =>
    have hsize := w.size_lt
    rw [blocks_round, blocksFrom_eq]
    refine follows_word.bind fun address hword => ?_
    refine .ite (fun _ => ?_) fun _ => follows_pure trivial
    refine (follows_block hword.1).bind fun _ hrecord => ?_
    -- The record is inside the file, so less of the file is left behind it.
    have hrecordSize : blockSize = 6 := rfl
    exact .step (add_of_lt (by omega)) (ih _ (by omega) _ rfl)

theorem follows_song {entry : Nat} :
    Follows w (song w entry) (Ay.song entry) fun _ => True := by
  have hsize := w.size_lt
  have hsizes : entrySize = 4 ∧ songSize = 14 := ⟨rfl, rfl⟩
  obtain ⟨hentrySize, hsongSize⟩ := hsizes
  refine follows_ensure.bind fun _ hentry => ?_
  refine follows_textAt.bind fun name _ => ?_
  refine .step (add_of_lt (by omega)) ?_
  refine follows_pointer.bind fun data _ => ?_
  refine follows_ensure.bind fun _ hdata => ?_
  refine .step (add_of_lt (by omega)) (follows_word.bind fun frames _ => ?_)
  refine .step (add_of_lt (by omega)) (follows_word.bind fun fade _ => ?_)
  refine .step (add_of_lt (by omega)) ?_
  have hpoints : ∀ points, points < w.size →
      Follows w (ensure w points pointsSize) (Reader.need points pointsSize) fun _ => True :=
    fun _ _ => follows_ensure.mono fun _ _ => trivial
  refine (follows_optional hpoints).bind fun _ _ => ?_
  refine .step (add_of_lt (by omega)) ?_
  exact (follows_optional fun first _ => follows_blocks first).bind fun _ _ =>
    follows_pure trivial

theorem follows_songs {table number count : Nat} (htable : table < w.size)
    (hcount : number + count ≤ 256) :
    Follows w (songs w table number count) (Ay.songs (table + number * entrySize) count)
      fun found => found.length = count := by
  induction count generalizing number with
  | zero => exact follows_pure rfl
  | succ count ih =>
    have hsize := w.size_lt
    have hdistance : number * entrySize ≤ 1024 := by
      rw [show entrySize = 4 from rfl]
      omega
    refine .step (mul_of_lt (by omega)) (.step (add_of_lt (by omega)) ?_)
    refine follows_song.bind fun first _ => ?_
    have hnext : table + number * entrySize + entrySize = table + (number + 1) * entrySize := by
      rw [Nat.succ_mul, Nat.add_assoc]
    rw [hnext]
    refine (ih (by omega)).bind fun rest hrest => follows_pure ?_
    rw [List.length_cons, hrest]

theorem follows_body :
    Follows w (body w) Ay.body fun f => f.songs.length ≤ 256 := by
  refine follows_textAt.bind fun author _ => ?_
  refine follows_textAt.bind fun comment _ => ?_
  refine follows_byte.bind fun last _ => ?_
  have hlast := last.toNat_lt
  refine .step (add_of_lt (by omega)) ?_
  refine follows_byte.bind fun first _ => ?_
  have hfirst := first.toNat_lt
  refine .ite (fun _ => ?_) fun _ => ?_
  · refine .step (add_of_lt (by omega)) ?_
    exact (follows_reject _).congr rfl
  · refine follows_pointer.bind fun table htable => ?_
    have hsongs : Follows w (songs w table 0 (last.toNat + 1))
        (Ay.songs (table + 0 * entrySize) (last.toNat + 1)) fun found =>
          found.length = last.toNat + 1 := follows_songs htable (by omega)
    rw [Nat.zero_mul, Nat.add_zero] at hsongs
    refine hsongs.bind fun found hfound => follows_pure ?_
    show found.length ≤ 256
    omega

theorem follows_file :
    Follows w (file w) Ay.file fun f => f.songs.length ≤ 256 := by
  rw [file_eq]
  refine follows_ensure.bind fun _ hheader => ?_
  have hmagic : (Window.ascii magic).length = magic.length ∧ magic.length ≤ headerSize := by decide
  have hword : (w.take magic.length).holdsAt 0 (Window.ascii magic) =
      w.holdsAt 0 (Window.ascii magic) := w.holdsAt_take (by omega)
  have hbegins : (bodyIf (w.holdsAt 0 (Window.ascii magic))) w =
      (Reader.beginsWith (Window.ascii magic) >>= bodyIf) w := by
    rw [Reader.bind_of_ok rfl]
    cases bodyIf _ w with
    | error reason => rfl
    | ok found =>
      show Except.ok found = .ok (found.1, max 0 found.2)
      rw [Nat.zero_max]
  refine .step (slice_zero (by omega)) (.congr ?_ hbegins)
  rw [hword]
  exact .ite (fun _ => (follows_reject _).congr rfl) fun _ => follows_body

theorem yields_parse (w : Window) :
    Yields (parse w) (Ay.parse w) fun found => found.1.songs.length ≤ 256 := by
  have hfile := follows_file (w := w) 0
  have hextent : (Ay.file w).map (fun a => (a.1, max 0 a.2)) = Ay.parse w := by
    simp only [Nat.zero_max]
    exact congrFun Except.map_id (Ay.file w)
  rwa [hextent] at hfile

theorem parse_eq (w : Window) : parse w = outcome (Ay.parse w) := (yields_parse w).eq

theorem tracks_eq {f : File} {data : Window} {number : Nat} {l : List Song}
    (h : number + l.length ≤ 256) :
    tracks f data number l = pure ((l.zipIdx number).map fun (s, i) =>
      ⟨⟨f.info s, data, some (i + 1)⟩, (f.info s).toProperties⟩) := by
  induction l generalizing number with
  | nil => rfl
  | cons s rest ih =>
    rw [List.length_cons] at h
    rw [tracks, add_of_lt (by omega), pure_bind, ih (by omega), pure_bind]
    rfl

theorem read_eq (w : Window) : read w = outcome (Ay.read w) := by
  suffices h : Yields (read w) (Ay.read w) fun _ => True from h.eq
  refine .step (view_eq w) ?_
  refine (yields_parse w).bind fun ⟨f, extent⟩ _ hsongs => ?_
  refine .step (part?_eq w _ _) ?_
  dsimp only
  cases w.sub? 0 extent with
  | none => exact yields_refuse _
  | some data => exact .step (tracks_eq (by rw [Nat.zero_add]; exact hsongs)) (yields_pure trivial)

end Steps

end Chiptune.Ay
