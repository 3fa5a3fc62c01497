import Chiptune.Proofs.LeftToRight

namespace Chiptune.Pattern

open Grammar
open SyntaxError (Kind)

/-!
# Faults are where they are said to be

The offset of a fault can be shown to the writer of a pattern as it is: it is between two characters
of the text, and what the fault says is to be found there.

* `isValid_of_ascii` — offsets behind ASCII characters are at a character;
* `not_derives_of_ofByte` — a byte that is blamed is not allowed after the text before it;
* `pinpoints_of_compile` — both of every fault, with what its kind says.
-/

/-! ### Characters -/

theorem isValidUTF8_of_ascii {l : List UInt8} (h : ∀ b ∈ l, b < 0x80) :
    l.toByteArray.IsValidUTF8 := by
  have hchar : ∀ b : UInt8, b < 0x80 →
      (Char.ofUInt8 b).utf8Size = 1 ∧ (Char.ofUInt8 b).toUInt8 = b :=
    forall_byte (by decide +kernel)
  induction l with
  | nil => exact ByteArray.isValidUTF8_empty
  | cons b l ih =>
    obtain ⟨hsize, hbyte⟩ := hchar b (h b List.mem_cons_self)
    have hfirst : [b].toByteArray.IsValidUTF8 := hbyte ▸ ByteArray.isValidUTF8_empty.push hsize
    rw [← List.singleton_append, List.toByteArray_append]
    exact hfirst.append (ih fun b' hb' => h b' (List.mem_cons_of_mem _ hb'))

theorem isValid_of_ascii {text : String} {offset : Nat} (hle : offset ≤ (bytes text).length)
    (h : ∀ b ∈ (bytes text).take offset, b < 0x80) :
    (⟨offset⟩ : String.Pos.Raw).IsValid text := by
  have hextract : text.toByteArray.extract 0 offset = ((bytes text).take offset).toByteArray := by
    apply ByteArray.ext
    rw [ByteArray.data_extract, List.data_toByteArray]
    apply Array.ext'
    simp [bytes]
  rw [String.Pos.Raw.isValid_iff_isValidUTF8_extract_zero, String.Pos.Raw.le_iff]
  exact ⟨hle, hextract ▸ isValidUTF8_of_ascii h⟩

/-! ### Bytes that are not allowed -/

theorem lt_length_of_describes {t : List UInt8} {offset : Nat} {kind : Kind}
    (h : Describes t offset kind) (hkind : OfByte kind) : offset < t.length := by
  rcases hkind with rfl | rfl | rfl <;>
  · obtain ⟨b, hb, -⟩ := h
    exact (List.getElem?_eq_some_iff.1 hb).1

/-- Text of the grammar is not found to have a wrong byte. -/
theorem not_ofByte_of_derives {t : List UInt8} {cs : List ByteClass} {e : SyntaxError}
    (h : Derives true .sequence t cs)
    (hread : readSequence ⟨t, 0⟩ none #[] ⟨t, 0⟩ (Nat.le_refl _) = .error e) : ¬OfByte e.kind := by
  obtain ⟨classes, d, hd, hall, -, hdrest⟩ | ⟨-, offset, hlong⟩ :=
    advances_of_derives h ⟨t, 0⟩ none #[] ⟨t, 0⟩ (Nat.le_refl _) []
      (by rw [List.append_nil]) (clear_nil _)
  · obtain ⟨f, hf, hskip, hnext⟩ := Cursor.exists_end_of_drop hdrest
    rw [hall, readSequence_of_end hskip hnext] at hread
    cases hread
  · rw [hlong] at hread
    cases hread
    exact (by decide : ¬OfByte .tooLong)

theorem readSequence_of_compile {text : String} {e : SyntaxError} (h : compile text = .error e)
    (hkind : OfByte e.kind) :
    readSequence ⟨bytes text, 0⟩ none #[] ⟨bytes text, 0⟩ (Nat.le_refl _) = .error e := by
  unfold compile at h
  rcases hread : readSequence ⟨bytes text, 0⟩ none #[] ⟨bytes text, 0⟩ (Nat.le_refl _)
    with e' | ⟨classes, d⟩
  · simp only [bind, Except.bind, hread] at h
    cases h
    rfl
  · simp only [bind, Except.bind, hread] at h
    split at h
    · cases h
      exact absurd hkind (by decide)
    · cases h

/-- No text that begins as this one does, up to the byte that is blamed, is in the language. -/
theorem not_derives_of_ofByte {text : String} {e : SyntaxError} (h : compile text = .error e)
    (hkind : OfByte e.kind) (rest : List UInt8) (cs : List ByteClass) :
    ¬Derives true .sequence ((bytes text).take (e.offset + 1) ++ rest) cs := by
  intro hderives
  generalize ht' : (bytes text).take (e.offset + 1) ++ rest = t' at hderives
  have hlt := lt_length_of_describes (blames_of_compile h).describes hkind
  have hagree : t'.take (e.offset + 1) = (bytes text).take (e.offset + 1) := by
    rw [← ht']
    exact List.take_left' (List.length_take_of_le hlt)
  have hread := readSequence_of_compile h hkind
  -- The same fault would be found in the other text.
  have hmirrors : MirrorsOn t' (e.offset + 1) (Short (e.offset + 1))
      (readSequence ⟨bytes text, 0⟩ none #[] ⟨bytes text, 0⟩ (Nat.le_refl _))
      (readSequence ⟨t', 0⟩ none #[] ⟨t', 0⟩ (Nat.le_refl _)) :=
    mirrorsFrom hagree ⟨bytes text, 0⟩ ⟨bytes text, 0⟩ ⟨t', 0⟩ none #[] (Nat.le_refl _)
      (Nat.le_refl _) [] (.start _) rfl
  rw [hread] at hmirrors
  have halike := hmirrors ⟨hkind, Nat.lt_succ_self _⟩
  generalize hread' : readSequence ⟨t', 0⟩ none #[] ⟨t', 0⟩ (Nat.le_refl _) = x at halike
  cases halike
  exact not_ofByte_of_derives hderives hread' hkind

/-! ### Faults -/

/-- What is known of a fault in a text. Its offset is at a character or at the end, behind nothing
    but ASCII characters. What its kind says is to be found there, and where this is about one byte,
    no text is in the language that begins in the same way up to that byte. -/
structure Pinpoints (text : String) (e : SyntaxError) : Prop where
  offset_le : e.offset ≤ text.utf8ByteSize
  ascii : ∀ b ∈ (bytes text).take e.offset, b < 0x80
  boundary : (⟨e.offset⟩ : String.Pos.Raw).IsValid text
  describes : Describes (bytes text) e.offset e.kind
  excludes : OfByte e.kind → ∀ rest cs,
    ¬Derives true .sequence ((bytes text).take (e.offset + 1) ++ rest) cs

/-- **Faults are where they are said to be.** -/
theorem pinpoints_of_compile {text : String} {e : SyntaxError} (h : compile text = .error e) :
    Pinpoints text e where
  offset_le := (blames_of_compile h).offset_le
  ascii := (blames_of_compile h).ascii
  boundary := isValid_of_ascii (blames_of_compile h).offset_le (blames_of_compile h).ascii
  describes := (blames_of_compile h).describes
  excludes := not_derives_of_ofByte h

/-- The parenthesis behind the quote opens no group, so the fault is found in two groups. -/
theorem pinpoints_of_compile_nested :
    compile "?{2} ('( (ff 1g) é" = .error ⟨14, .invalidNibble⟩
      ∧ Pinpoints "?{2} ('( (ff 1g) é" ⟨14, .invalidNibble⟩ := by
  have h : compile "?{2} ('( (ff 1g) é" = .error ⟨14, .invalidNibble⟩ := by
    decide +kernel
  exact ⟨h, pinpoints_of_compile h⟩

end Chiptune.Pattern
