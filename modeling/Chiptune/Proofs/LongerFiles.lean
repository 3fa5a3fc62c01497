import Chiptune.Proofs.Extents
import Chiptune.Proofs.WrittenBytes

namespace Chiptune

/-!
# AY files with more data behind them

What follows an AY file is not read. Only a block that the end of the data cuts off finds more bytes
there, and then the extent had reached that end.

* `Ay.Reader.Continues` — a reading that goes in the same way when there is more data;
* `Ay.continues_file` — the reading of a whole file does;
* `Ay.parse_of_append` — so the songs of a file stay the same, and its extent does unless it is all
  of the data.
-/

/-- The bytes of a window agree with any others that begin with them. -/
theorem Window.AgreeTo.of_prefix {w w' : Window} (h : w.toList <+: w'.toList) :
    AgreeTo w.size w w' := by
  obtain ⟨t, ht⟩ := h
  rw [AgreeTo, ← ht, ← w.length_toList, List.take_left, List.take_length]

theorem Window.size_le_of_prefix {w w' : Window} (h : w.toList <+: w'.toList) :
    w.size ≤ w'.size := by
  simpa using h.length_le

namespace Ay

namespace Reader

variable {α β : Type} {w w' : Window}

/-- Whether a reading that succeeds on the data `w` does so on the data `w'`, with the same value,
    and with the same extent if that is not all of `w`, or else a greater one. -/
def Continues (w w' : Window) (r : Reader α) : Prop :=
  ∀ a n, r w = .ok (a, n) → ∃ n', r w' = .ok (a, n') ∧ n ≤ n' ∧ (n < w.size → n' = n)

/-! ### Readings one after the other -/

/-- Readings that do not come to the end of the data go on unchanged. -/
theorem Continues.of_same {r : Reader α} (h : ∀ a n, r w = .ok (a, n) → r w' = .ok (a, n)) :
    Continues w w' r :=
  fun a n hread => ⟨n, h a n hread, Nat.le_refl n, fun _ => rfl⟩

/-- An extent below the end of the data is the greater of two such extents. -/
theorem Continues.bind {r : Reader α} {next : α → Reader β} (h : Continues w w' r)
    (hnext : ∀ a n, r w = .ok (a, n) → Continues w w' (next a)) : Continues w w' (r >>= next) := by
  intro b n hboth
  obtain ⟨a, i, j, hread, hrest, rfl⟩ := exists_of_bind hboth
  obtain ⟨i', hread', hi, hsame⟩ := h a i hread
  obtain ⟨j', hrest', hj, hsame'⟩ := hnext a i hread b j hrest
  refine ⟨max i' j', ?_, by omega, fun hlt => ?_⟩
  · rw [bind_of_ok hread', hrest']
    rfl
  · rw [hsame (by omega), hsame' (by omega)]

theorem continues_pure (a : α) : Continues w w' (pure a) := .of_same fun _ _ h => h

theorem continues_fail (fault : DecodeError) : Continues w w' (fail fault : Reader α) :=
  .of_same fun _ _ h => by cases h

theorem Continues.ite {c : Prop} [Decidable c] {r r' : Reader α} (h : c → Continues w w' r)
    (h' : ¬c → Continues w w' r') : Continues w w' (if c then r else r') := by
  by_cases hc : c
  · rw [if_pos hc]
    exact h hc
  · rw [if_neg hc]
    exact h' hc

/-! ### Parts of structures -/

variable (hlonger : w.toList <+: w'.toList)

include hlonger

theorem continues_need (offset size : Nat) : Continues w w' (need offset size) := by
  refine .of_same fun a n h => ?_
  obtain ⟨hkeeps, rfl⟩ := keeps_need h
  have hsize := Window.size_le_of_prefix hlonger
  rw [need, if_pos (Nat.le_trans hkeeps.inside hsize)]

/-- The bytes of a block are the only ones that more data adds to. -/
theorem continues_span (start size : Nat) : Continues w w' (span start size) := by
  intro a n h
  cases h
  have hsize := Window.size_le_of_prefix hlonger
  exact ⟨_, rfl, by omega, by omega⟩

theorem continues_byte (offset : Nat) : Continues w w' (byte offset) := by
  refine .of_same fun a n h => ?_
  have hinside := (keeps_byte h).inside
  unfold byte at h ⊢
  split at h
  · rename_i hb
    cases h
    rw [← (Window.AgreeTo.of_prefix hlonger).getElem? hinside, hb]
  · cases h

theorem continues_word (offset : Nat) : Continues w w' (word offset) := by
  refine .of_same fun a n h => ?_
  obtain ⟨hkeeps, rfl⟩ := keeps_word h
  have hbytes := (Window.AgreeTo.of_prefix hlonger).bytes? hkeeps.inside
  rwa [word, Window.be16?, hbytes] at h

theorem continues_beginsWith {bytes : List UInt8} (hlength : bytes.length ≤ w.size) :
    Continues w w' (beginsWith bytes) := by
  refine .of_same fun a n h => ?_
  have hholds : w.holdsAt 0 bytes = w'.holdsAt 0 bytes :=
    (Window.AgreeTo.of_prefix hlonger).holdsAt (by omega)
  rwa [beginsWith, hholds] at h

theorem continues_text (start : Nat) : Continues w w' (text start) := by
  refine .of_same fun a n h => ?_
  have hinside := (keeps_text h).1.inside
  unfold text at h ⊢
  split at h
  · rename_i hfound
    cases h
    rw [(Window.AgreeTo.of_prefix hlonger).terminated? hfound hinside]
  · cases h

/-! ### Pointers -/

/-- A place inside the data is inside more data. -/
theorem continues_pointer? (origin : Nat) : Continues w w' (pointer? origin) := by
  rw [pointer?_eq]
  refine (continues_word hlonger origin).bind fun distance n _ => ?_
  refine .ite (fun _ => continues_pure none) fun _ => .of_same fun a n h => ?_
  have hsize := Window.size_le_of_prefix hlonger
  unfold land at h ⊢
  split at h
  · rename_i hinside
    cases h
    rw [if_pos (by omega)]
  · cases h

theorem continues_pointer (origin : Nat) : Continues w w' (pointer origin) := by
  refine (continues_pointer? hlonger origin).bind fun found n _ => ?_
  cases found with
  | none => exact continues_fail _
  | some target => exact continues_pure target

theorem continues_optional (origin : Nat) {part : Nat → Reader Unit}
    (hpart : ∀ start, Continues w w' (part start)) : Continues w w' (optional origin part) := by
  refine (continues_pointer? hlonger origin).bind fun found n _ => ?_
  cases found with
  | none => exact continues_pure ()
  | some start => exact hpart start

theorem continues_textAt (origin : Nat) : Continues w w' (textAt origin) := by
  refine (continues_pointer? hlonger origin).bind fun found n _ => ?_
  cases found with
  | none => exact continues_pure ""
  | some start => exact continues_text hlonger start

end Reader

/-! ### Files -/

open Reader

variable {w w' : Window} (hlonger : w.toList <+: w'.toList)

include hlonger

theorem continues_block (offset address : Nat) : Continues w w' (block offset address) :=
  (continues_need hlonger offset blockSize).bind fun _ _ _ =>
    (continues_word hlonger (offset + 2)).bind fun length _ _ =>
      (continues_pointer hlonger (offset + 4)).bind fun start _ _ =>
        continues_span hlonger start (min length (memorySize - address))

/-- The record of a block is inside the data, so that there are fewer bytes behind it. -/
theorem continues_blocksFrom (offset : Nat) : Continues w w' (blocksFrom offset) := by
  induction hleft : w.size - offset using Nat.strongRecOn generalizing offset with
  | _ left ih =>
    rw [blocksFrom_eq]
    refine (continues_word hlonger offset).bind fun address i hword => ?_
    refine .ite (fun _ => ?_) fun _ => continues_pure ()
    refine (continues_block hlonger offset address).bind fun _ n hblock => ?_
    obtain ⟨hle, hreads⟩ := reads_block (word_lt_memorySize hword) hblock
    have hinside := hreads.inside
    have hpos : 0 < blockSize := by decide
    exact ih _ (by omega) (offset + blockSize) rfl

theorem continues_song (entry : Nat) : Continues w w' (song entry) := by
  refine (continues_need hlonger entry entrySize).bind fun _ _ _ => ?_
  refine (continues_textAt hlonger entry).bind fun name _ _ => ?_
  refine (continues_pointer hlonger (entry + 2)).bind fun data _ _ => ?_
  refine (continues_need hlonger data songSize).bind fun _ _ _ => ?_
  refine (continues_word hlonger (data + 4)).bind fun frames _ _ => ?_
  refine (continues_word hlonger (data + 6)).bind fun fade _ _ => ?_
  refine (continues_optional hlonger (data + 10) fun points =>
    continues_need hlonger points pointsSize).bind fun _ _ _ => ?_
  exact (continues_optional hlonger (data + 12) fun first =>
    continues_blocksFrom hlonger first).bind fun _ _ _ => continues_pure _

theorem continues_songs (table count : Nat) : Continues w w' (songs table count) := by
  induction count generalizing table with
  | zero => exact continues_pure []
  | succ count ih =>
    exact (continues_song hlonger table).bind fun first _ _ =>
      (ih (table + entrySize)).bind fun rest _ _ => continues_pure (first :: rest)

theorem continues_body : Continues w w' body := by
  refine (continues_textAt hlonger 12).bind fun author _ _ => ?_
  refine (continues_textAt hlonger 14).bind fun comment _ _ => ?_
  refine (continues_byte hlonger 16).bind fun last _ _ => ?_
  refine (continues_byte hlonger 17).bind fun firstSong _ _ => ?_
  refine .ite (fun _ => (continues_fail _).bind fun _ _ h => by cases h) fun _ => ?_
  refine (continues_pointer hlonger 18).bind fun table _ _ => ?_
  exact (continues_songs hlonger table _).bind fun _ _ _ => continues_pure _

/-- Whether the data begins with the magic word is clear once there is a whole header. -/
theorem continues_file : Continues w w' file := by
  rw [file_eq]
  refine (continues_need hlonger 0 headerSize).bind fun _ _ hneed => ?_
  obtain ⟨hkeeps, rfl⟩ := keeps_need hneed
  have hlength : (Window.ascii magic).length ≤ headerSize := by decide
  have hinside := hkeeps.inside
  refine (continues_beginsWith hlonger (by omega)).bind fun isMagic _ _ => ?_
  cases isMagic with
  | false => exact (continues_fail _).bind fun _ _ h => by cases h
  | true => exact continues_body hlonger

omit hlonger

/-- **More data changes no song.** A file that is read is read with any bytes behind it, with the
    same texts and songs. Its extent is not smaller then, and it is the same one unless it was all of
    the data, where the bytes of a block may have been cut off. -/
theorem parse_of_append {t : List UInt8} {f : File} {n : Nat} (happend : w'.toList = w.toList ++ t)
    (h : parse w = .ok (f, n)) :
    ∃ n', parse w' = .ok (f, n') ∧ n ≤ n' ∧ (n < w.size → n' = n) :=
  continues_file (happend ▸ List.prefix_append _ _) f n h

/-- A file whose block of two bytes is cut off behind the first, and one that holds the second. -/
theorem parse_of_append_cutBlock :
    let f : File := ⟨"", "", [⟨"", 0, 0⟩], 0⟩
    let longer : Window := .ofByteArray ⟨((withBlock 2).toList ++ [0xc9]).toArray⟩
    longer.toList = (withBlock 2).toList ++ [0xc9] ∧ parse (withBlock 2) = .ok (f, 47)
      ∧ (∃ n', parse longer = .ok (f, n') ∧ 47 ≤ n' ∧ (47 < (withBlock 2).size → n' = 47))
      ∧ parse longer = .ok (f, 48) := by
  intro f longer
  have happend : longer.toList = (withBlock 2).toList ++ [0xc9] :=
    Window.toList_ofByteArray (by decide)
  have hparse : parse (withBlock 2) = .ok (f, 47) := by decide +kernel
  have hlonger : parse longer = .ok (f, 48) := by decide +kernel
  exact ⟨happend, hparse, parse_of_append happend hparse, hlonger⟩

end Ay

end Chiptune
