import Chiptune.Proofs.WrittenBytes
import Mathlib.Data.List.TakeWhile

namespace Chiptune

/-!
# Texts that were written

A text of any characters is kept as the bytes of its characters, most of which are several. Those
bytes are decoded to the text, and when none of the characters is zero, a zero behind them ends it.

* `Utf8.encode`, `Utf8.decode_encode` — a text is decoded from its bytes;
* `Utf8.first_utf8EncodeChar` — the step for one character;
* `Utf8.terminated` — the bytes of a text with a zero behind them;
* `Window.textFrom_of_holdsAt`, `Window.terminated?_of_holdsAt` — such a text is read back, and what
  follows stands behind its zero.
-/

namespace Utf8

/-! ### Characters -/

/-- What follows a lead byte, by the value of the byte. -/
theorem lead?_ofNat {n : Nat} (h : n < 256) : lead? (UInt8.ofNat n) =
    if n ≤ 0x7f then some ⟨0, 0x80, 0xbf⟩
    else if 0xc2 ≤ n ∧ n ≤ 0xdf then some ⟨1, 0x80, 0xbf⟩
    else if n = 0xe0 then some ⟨2, 0xa0, 0xbf⟩
    else if n = 0xed then some ⟨2, 0x80, 0x9f⟩
    else if 0xe1 ≤ n ∧ n ≤ 0xef then some ⟨2, 0x80, 0xbf⟩
    else if n = 0xf0 then some ⟨3, 0x90, 0xbf⟩
    else if 0xf1 ≤ n ∧ n ≤ 0xf3 then some ⟨3, 0x80, 0xbf⟩
    else if n = 0xf4 then some ⟨3, 0x80, 0x8f⟩
    else none := by
  have hbyte : (UInt8.ofNat n).toNat = n := UInt8.toNat_ofNat'.trans (Nat.mod_eq_of_lt h)
  simp only [lead?, Bool.and_eq_true, decide_eq_true_eq, beq_iff_eq, UInt8.le_iff_toNat_le,
    ← UInt8.toNat_inj, hbyte]
  rfl

theorem between_ofNat {low high : UInt8} {n : Nat} (hlow : low.toNat ≤ n) (hhigh : n ≤ high.toNat) :
    low ≤ UInt8.ofNat n ∧ UInt8.ofNat n ≤ high := by
  have hlt := high.toNat_lt
  have hbyte : (UInt8.ofNat n).toNat = n := UInt8.toNat_ofNat'.trans (Nat.mod_eq_of_lt (by omega))
  rw [UInt8.le_iff_toNat_le, UInt8.le_iff_toNat_le, hbyte]
  exact ⟨hlow, hhigh⟩

theorem isTail_ofNat (n : Nat) : isTail (UInt8.ofNat (n % 64 + 128)) = true := by
  obtain ⟨hlow, hhigh⟩ : 0x80 ≤ UInt8.ofNat (n % 64 + 128) ∧ UInt8.ofNat (n % 64 + 128) ≤ 0xbf :=
    between_ofNat (show 128 ≤ _ by omega) (show _ ≤ 191 by omega)
  rw [isTail, decide_eq_true hlow, decide_eq_true hhigh]
  rfl

/-- A lead byte with the bytes that it wants behind it begins a character. -/
theorem first_of_lead {b low high : UInt8} {tails rest : List UInt8} {c : Char}
    (hlead : lead? b = some ⟨tails.length, low, high⟩)
    (hsecond : ∀ t ∈ tails.head?, low ≤ t ∧ t ≤ high) (htails : ∀ t ∈ tails.tail, isTail t = true)
    (hcode : codePoint b tails = c.toNat) : first b (tails ++ rest) = (c, tails.length) := by
  have hall : tailsOf ⟨tails.length, low, high⟩ (tails ++ rest) = tails := by
    cases tails with
    | nil => rfl
    | cons t more =>
      obtain ⟨hlow, hhigh⟩ := hsecond t rfl
      have hmore : more.takeWhile isTail = more := List.takeWhile_eq_self_iff.2 htails
      simp [tailsOf, hlow, hhigh, hmore]
  simp only [first, hlead, hall, if_true, hcode, Char.ofNat_toNat]

/-- Three bytes are the shortest form of a code point, and not one of a surrogate. -/
theorem lead?_three {v : Nat} (hlow : 0x800 ≤ v) (hhigh : v < 0x10000)
    (hvalid : v < 0xd800 ∨ 0xdfff < v) : ∃ low high,
      lead? (UInt8.ofNat (v / 4096 % 16 + 224)) = some ⟨2, low, high⟩
        ∧ low ≤ UInt8.ofNat (v / 64 % 64 + 128) ∧ UInt8.ofNat (v / 64 % 64 + 128) ≤ high := by
  rw [lead?_ofNat (by omega), if_neg (by omega), if_neg (by omega)]
  by_cases hshort : v < 0x1000
  · rw [if_pos (by omega)]
    exact ⟨_, _, rfl, between_ofNat (show 160 ≤ _ by omega) (show _ ≤ 191 by omega)⟩
  by_cases hsurrogate : 0xd000 ≤ v ∧ v < 0xe000
  · rw [if_neg (by omega), if_pos (by omega)]
    exact ⟨_, _, rfl, between_ofNat (show 128 ≤ _ by omega) (show _ ≤ 159 by omega)⟩
  · rw [if_neg (by omega), if_neg (by omega), if_pos (by omega)]
    exact ⟨_, _, rfl, between_ofNat (show 128 ≤ _ by omega) (show _ ≤ 191 by omega)⟩

/-- Four bytes are the shortest form of a code point, and do not pass the last one. -/
theorem lead?_four {v : Nat} (hlow : 0x10000 ≤ v) (hhigh : v < 0x110000) : ∃ low high,
      lead? (UInt8.ofNat (v / 262144 % 8 + 240)) = some ⟨3, low, high⟩
        ∧ low ≤ UInt8.ofNat (v / 4096 % 64 + 128) ∧ UInt8.ofNat (v / 4096 % 64 + 128) ≤ high := by
  rw [lead?_ofNat (by omega), if_neg (by omega), if_neg (by omega), if_neg (by omega),
    if_neg (by omega), if_neg (by omega)]
  by_cases hshort : v < 0x40000
  · rw [if_pos (by omega)]
    exact ⟨_, _, rfl, between_ofNat (show 144 ≤ _ by omega) (show _ ≤ 191 by omega)⟩
  by_cases hlast : 0x100000 ≤ v
  · rw [if_neg (by omega), if_neg (by omega), if_pos (by omega)]
    exact ⟨_, _, rfl, between_ofNat (show 128 ≤ _ by omega) (show _ ≤ 143 by omega)⟩
  · rw [if_neg (by omega), if_pos (by omega)]
    exact ⟨_, _, rfl, between_ofNat (show 128 ≤ _ by omega) (show _ ≤ 191 by omega)⟩

/-- What a text holds for a character is read as this character. -/
theorem first_utf8EncodeChar (c : Char) (rest : List UInt8) :
    ∃ b tails, String.utf8EncodeChar c = b :: tails
      ∧ first b (tails ++ rest) = (c, tails.length) := by
  have hvalid : c.toNat < 0xd800 ∨ 0xdfff < c.toNat ∧ c.toNat < 0x110000 := c.valid
  have hvalue : c.val.toNat = c.toNat := rfl
  have hone : ∀ n, ∀ t ∈ [UInt8.ofNat (n % 64 + 128)], isTail t = true :=
    fun n => List.forall_mem_singleton.2 (isTail_ofNat n)
  simp only [String.utf8EncodeChar, hvalue]
  -- One case for each number of bytes.
  split
  · have hlead : lead? (UInt8.ofNat c.toNat) = some ⟨0, 0x80, 0xbf⟩ := by
      rw [lead?_ofNat (by omega), if_pos (by omega)]
    refine ⟨_, _, rfl, first_of_lead hlead nofun nofun ?_⟩
    simp only [codePoint, leadBits, List.foldl_nil, List.length_nil, UInt8.toNat_ofNat']
    omega
  split
  · have hlead : lead? (UInt8.ofNat (c.toNat / 64 % 32 + 192)) = some ⟨1, 0x80, 0xbf⟩ := by
      rw [lead?_ofNat (by omega), if_neg (by omega), if_pos (by omega)]
    refine ⟨_, _, rfl, first_of_lead hlead ?_ nofun ?_⟩
    · rintro t ⟨⟩
      exact between_ofNat (show 128 ≤ _ by omega) (show _ ≤ 191 by omega)
    · simp only [codePoint, leadBits, List.foldl_cons, List.foldl_nil, List.length_cons,
        List.length_nil, UInt8.toNat_ofNat']
      omega
  split
  · obtain ⟨low, high, hlead, hsecond⟩ := lead?_three (v := c.toNat) (by omega) (by omega)
      (by omega)
    refine ⟨_, _, rfl, first_of_lead hlead (by rintro t ⟨⟩; exact hsecond) (hone _) ?_⟩
    simp only [codePoint, leadBits, List.foldl_cons, List.foldl_nil, List.length_cons,
      List.length_nil, UInt8.toNat_ofNat']
    omega
  · obtain ⟨low, high, hlead, hsecond⟩ := lead?_four (v := c.toNat) (by omega) (by omega)
    refine ⟨_, _, rfl, first_of_lead hlead (by rintro t ⟨⟩; exact hsecond)
      (List.forall_mem_cons.2 ⟨isTail_ofNat _, hone _⟩) ?_⟩
    simp only [codePoint, leadBits, List.foldl_cons, List.foldl_nil, List.length_cons,
      List.length_nil, UInt8.toNat_ofNat']
    omega

/-! ### Texts -/

/-- The bytes of a text. -/
def encode (text : String) : List UInt8 := text.toUTF8.data.toList

theorem decodeOnto_flatMap (text : String) (chars : List Char) :
    decodeOnto text (chars.flatMap String.utf8EncodeChar) = text ++ String.ofList chars := by
  induction chars generalizing text with
  | nil => simp [decodeOnto]
  | cons c rest ih =>
    obtain ⟨b, tails, hc, hfirst⟩ := first_utf8EncodeChar c (rest.flatMap String.utf8EncodeChar)
    rw [List.flatMap_cons, hc, List.cons_append, decodeOnto, hfirst]
    simp only [List.drop_left, ih]
    exact String.toList_inj.1 (by simp)

theorem encode_eq_flatMap (text : String) :
    encode text = text.toList.flatMap String.utf8EncodeChar := by
  rw [encode, String.toUTF8_eq_toByteArray, ← String.utf8Encode_toList]
  simp [List.utf8Encode]

theorem decode_encode (text : String) : decode (encode text) = text := by
  rw [decode, encode_eq_flatMap, decodeOnto_flatMap]
  simp

/-- The only character with a zero among its bytes is zero. -/
theorem eq_zero_of_zero_mem {c : Char} (h : 0 ∈ String.utf8EncodeChar c) : c = '\x00' := by
  have hvalue : c.val.toNat = c.toNat := rfl
  have hbyte : ∀ n, (0 : UInt8) = UInt8.ofNat n ↔ n % 256 = 0 := by
    intro n
    rw [← UInt8.toNat_inj, UInt8.toNat_ofNat']
    exact eq_comm
  simp only [String.utf8EncodeChar, hvalue] at h
  split at h
  · have hzero : c.toNat = 0 := by
      rw [List.mem_singleton, hbyte] at h
      omega
    rw [← Char.ofNat_toNat c, hzero]
  · split at h
    · simp only [List.mem_cons, List.not_mem_nil, or_false, hbyte] at h
      omega
    · split at h
      · simp only [List.mem_cons, List.not_mem_nil, or_false, hbyte] at h
        omega
      · simp only [List.mem_cons, List.not_mem_nil, or_false, hbyte] at h
        omega

theorem zero_not_mem_encode {text : String} (h : '\x00' ∉ text.toList) : 0 ∉ encode text := by
  rw [encode_eq_flatMap, List.mem_flatMap]
  rintro ⟨c, hc, hzero⟩
  exact h (eq_zero_of_zero_mem hzero ▸ hc)

/-- A text with a zero behind it. -/
def terminated (text : String) : List UInt8 := encode text ++ [0]

end Utf8

/-! ### Texts with a zero behind them -/

namespace Window

variable {w : Window} {offset : Nat}

/-- The first place of a byte is behind bytes that are others. -/
theorem firstIndex_of_holdsAt {byte : UInt8} {bytes : List UInt8} (hbyte : byte ∉ bytes)
    (h : w.holdsAt offset (bytes ++ [byte]) = true) :
    w.firstIndex byte w.size offset = offset + bytes.length := by
  induction bytes generalizing offset with
  | nil =>
    have hget : w[offset]? = some byte := getElem?_of_holdsAt (i := 0) h (Nat.succ_pos 0)
    rw [firstIndex, if_pos (lt_size_of_getElem? hget), hget, if_pos (beq_self_eq_true _)]
    rfl
  | cons b rest ih =>
    have hne := List.ne_of_not_mem_cons hbyte
    have hrest := List.not_mem_of_not_mem_cons hbyte
    obtain ⟨hget, hholds⟩ := Bool.and_eq_true_iff.1 h
    have hget := eq_of_beq hget
    rw [firstIndex, if_pos (lt_size_of_getElem? hget), hget, if_neg (by simpa using Ne.symm hne),
      ih hrest hholds, List.length_cons]
    omega

theorem textFrom_of_holdsAt {text : String} (htext : '\x00' ∉ text.toList)
    (h : w.holdsAt offset (Utf8.terminated text) = true) :
    w.textFrom offset = (text, offset + (Utf8.terminated text).length) := by
  have hzero : w.zeroFrom offset = offset + (Utf8.encode text).length :=
    firstIndex_of_holdsAt (Utf8.zero_not_mem_encode htext) h
  have hholds : w.holdsAt offset (Utf8.encode text) = true := by
    rw [Utf8.terminated, holdsAt_append, Bool.and_eq_true_iff] at h
    exact h.1
  rw [textFrom, hzero, Nat.add_sub_cancel_left, Window.text, toList_slice_of_holdsAt hholds,
    Utf8.decode_encode, Utf8.terminated, List.length_append, List.length_singleton, Nat.add_assoc]

theorem terminated?_of_holdsAt {text : String} (htext : '\x00' ∉ text.toList)
    (h : w.holdsAt offset (Utf8.terminated text) = true) :
    w.terminated? offset = some (text, offset + (Utf8.terminated text).length) := by
  have hzero : w.zeroFrom offset = offset + (Utf8.encode text).length :=
    firstIndex_of_holdsAt (Utf8.zero_not_mem_encode htext) h
  have hend : offset + (Utf8.terminated text).length ≤ w.size :=
    add_length_le_of_holdsAt (List.append_ne_nil_of_right_ne_nil _ (List.cons_ne_nil _ _)) h
  rw [Utf8.terminated, List.length_append, List.length_singleton] at hend
  rw [terminated?, if_pos (by omega), textFrom_of_holdsAt htext h]

end Window

end Chiptune
