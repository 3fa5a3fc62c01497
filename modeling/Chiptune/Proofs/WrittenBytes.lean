import Chiptune.Proofs.Decoding

namespace Chiptune

/-!
# Bytes that were written

What stands in a window at an offset is `Window.holdsAt`. A file that is made of parts, one behind the
other, holds each of them at its offset, and there it is read back.

* `bytesLE`, `valueLE_bytesLE` — numbers of a fixed width, written and read back;
* `bytesBE`, `valueBE_bytesBE` — the same with the high byte first;
* `Window.toList_ofByteArray` — a window on written bytes;
* `Window.holdsAt_append` — parts one behind the other;
* `Window.bytes?_of_holdsAt`, `Window.le16?_of_holdsAt`, `Window.le32?_of_holdsAt`,
  `Window.valueBE_of_holdsAt` — bytes and numbers are read back.
-/

/-! ### Numbers -/

/-- The lowest `width` bytes of a number, least significant first. -/
def bytesLE : (width : Nat) → Nat → List UInt8
  | 0, _ => []
  | width + 1, n => UInt8.ofNat n :: bytesLE width (n / 256)

@[simp] theorem length_bytesLE (width n : Nat) : (bytesLE width n).length = width := by
  induction width generalizing n with
  | zero => rfl
  | succ width ih => simp [bytesLE, ih]

theorem valueLE_bytesLE (width n : Nat) : valueLE (bytesLE width n) = n % 256 ^ width := by
  induction width generalizing n with
  | zero => simp [bytesLE, valueLE, Nat.mod_one]
  | succ width ih =>
    have hbyte : (UInt8.ofNat n).toNat = n % 256 := UInt8.toNat_ofNat'
    rw [bytesLE, valueLE_cons, ih, hbyte, Nat.pow_succ', Nat.mod_mul]

/-- The lowest `width` bytes of a number, most significant first. -/
def bytesBE (width n : Nat) : List UInt8 := (bytesLE width n).reverse

@[simp] theorem length_bytesBE (width n : Nat) : (bytesBE width n).length = width := by
  rw [bytesBE, List.length_reverse, length_bytesLE]

theorem valueBE_bytesBE (width n : Nat) : valueBE (bytesBE width n) = n % 256 ^ width := by
  rw [valueBE_eq_valueLE_reverse, bytesBE, List.reverse_reverse, valueLE_bytesLE]

/-! ### Parts of a window -/

namespace Window

variable {w : Window} {offset : Nat} {bytes others : List UInt8}

/-- All bytes of a list stand in a window, if no machine is too small for them. -/
theorem toList_ofByteArray (h : bytes.length ≤ 0x7fffffffffff8000) :
    (ofByteArray ⟨bytes.toArray⟩).toList = bytes := by
  have hsize : (⟨bytes.toArray⟩ : ByteArray).size ≤ 0x7fffffffffff8000 := h
  rw [ofByteArray, dif_pos hsize, toList_eq]
  exact List.take_length

@[simp] theorem holdsAt_nil (w : Window) (offset : Nat) : w.holdsAt offset [] = true := rfl

theorem holdsAt_cons (w : Window) (offset : Nat) (b : UInt8) (rest : List UInt8) :
    w.holdsAt offset (b :: rest) = (w[offset]? == some b && w.holdsAt (offset + 1) rest) := rfl

theorem holdsAt_append (w : Window) (offset : Nat) (bytes others : List UInt8) :
    w.holdsAt offset (bytes ++ others)
      = (w.holdsAt offset bytes && w.holdsAt (offset + bytes.length) others) := by
  induction bytes generalizing offset with
  | nil => simp
  | cons b rest ih =>
    rw [List.cons_append, holdsAt_cons, holdsAt_cons, ih, Bool.and_assoc, List.length_cons,
      Nat.add_right_comm, Nat.add_assoc]

/-- What a window begins with stands at its start. -/
theorem holdsAt_of_prefix (h : bytes <+: w.toList.drop offset) : w.holdsAt offset bytes = true := by
  induction bytes generalizing offset with
  | nil => rfl
  | cons b rest ih =>
    obtain ⟨after, hafter⟩ := h
    have hbyte : w[offset]? = some b := by
      rw [getElem?_eq_getElem?_toList, ← List.head?_drop, ← hafter]
      rfl
    have hrest : rest <+: w.toList.drop (offset + 1) :=
      ⟨after, by rw [← List.tail_drop, ← hafter]; rfl⟩
    rw [holdsAt_cons, hbyte, ih hrest]
    simp

/-- Bytes that stand at an offset are those from there on. -/
theorem take_drop_of_holdsAt (h : w.holdsAt offset bytes = true) :
    (w.toList.drop offset).take bytes.length = bytes := by
  induction bytes generalizing offset with
  | nil => rfl
  | cons b rest ih =>
    obtain ⟨hbyte, hrest⟩ := Bool.and_eq_true_iff.1 h
    have hget : w.toList[offset]? = some b := by
      rw [← getElem?_eq_getElem?_toList]
      exact eq_of_beq hbyte
    obtain ⟨hlength, hb⟩ := List.getElem?_eq_some_iff.1 hget
    rw [List.drop_eq_getElem_cons hlength, hb, List.length_cons, List.take_succ_cons, ih hrest]

/-- Only one word of each length stands at an offset. -/
theorem eq_of_holdsAt (hlength : bytes.length = others.length) (h : w.holdsAt offset bytes = true)
    (h' : w.holdsAt offset others = true) : bytes = others := by
  rw [← take_drop_of_holdsAt h, ← take_drop_of_holdsAt h', hlength]

theorem toList_slice_of_holdsAt (h : w.holdsAt offset bytes = true) :
    ((w.drop offset).take bytes.length).toList = bytes := by
  rw [toList_take, toList_drop, take_drop_of_holdsAt h]

/-! ### Reading them back -/

theorem getElem?_of_holdsAt {i : Nat} (h : w.holdsAt offset bytes = true) (hi : i < bytes.length) :
    w[offset + i]? = bytes[i]? := by
  rw [← take_drop_of_holdsAt h, List.getElem?_take_of_lt hi, List.getElem?_drop,
    getElem?_eq_getElem?_toList]

theorem bytes?_of_holdsAt (h : w.holdsAt offset bytes = true) :
    w.bytes? offset bytes.length = some bytes := by
  induction bytes generalizing offset with
  | nil => rfl
  | cons b rest ih =>
    obtain ⟨hbyte, hrest⟩ := Bool.and_eq_true_iff.1 h
    rw [List.length_cons, bytes?, eq_of_beq hbyte, ih hrest]
    rfl

theorem le16?_of_holdsAt {n : Nat} (h : w.holdsAt offset (bytesLE 2 n) = true) :
    w.le16? offset = some (n % UInt16.size) := by
  have hbytes := bytes?_of_holdsAt h
  rw [length_bytesLE] at hbytes
  rw [le16?, hbytes, Option.map_some, valueLE_bytesLE]
  rfl

theorem le32?_of_holdsAt {n : Nat} (h : w.holdsAt offset (bytesLE 4 n) = true) :
    w.le32? offset = some (n % UInt32.size) := by
  have hbytes := bytes?_of_holdsAt h
  rw [length_bytesLE] at hbytes
  rw [le32?, hbytes, Option.map_some, valueLE_bytesLE]
  rfl

/-- The number of `width` bytes that was written at an offset. -/
theorem valueBE_of_holdsAt {width n : Nat} (h : w.holdsAt offset (bytesBE width n) = true)
    (hn : n < 256 ^ width) : (w.bytes? offset width).map valueBE = some n := by
  have hbytes := bytes?_of_holdsAt h
  rw [length_bytesBE] at hbytes
  rw [hbytes, Option.map_some, valueBE_bytesBE, Nat.mod_eq_of_lt hn]

end Window

end Chiptune
