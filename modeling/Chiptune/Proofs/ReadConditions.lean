import Chiptune.Proofs.Grammar
import Chiptune.Proofs.Outcomes

namespace Chiptune.Pattern

open Grammar

/-!
# Reading conditions and counts

Each reading function takes text of its kind, and all of it.

* `Sound` — what was read is text of the kind;
* `Complete` — text of the kind is read when what follows it cannot be taken for a part of it;
* `sound_readAlternation`, `complete_readAlternation` and their like — both for each function.
-/

/-! ### Cursors -/

theorem drop_length_takeWhile (p : UInt8 → Bool) (t : List UInt8) :
    t.drop (t.takeWhile p).length = t.dropWhile p := by
  have hsplit : t.takeWhile p ++ t.dropWhile p = t := List.takeWhile_append_dropWhile
  calc t.drop (t.takeWhile p).length
      = (t.takeWhile p ++ t.dropWhile p).drop (t.takeWhile p).length := by rw [hsplit]
    _ = t.dropWhile p := List.drop_left

namespace Cursor

variable {c : Cursor}

theorem rest_of_next?_eq_none (h : c.next? = none) : c.rest = [] := by
  rcases c with ⟨_ | ⟨b, rest⟩, offset⟩
  · rfl
  · cases h

theorem rest_of_next?_eq_some {b : UInt8} {d : c.After} (h : c.next? = some (b, d)) :
    c.rest = b :: d.1.rest := by
  rcases c with ⟨_ | ⟨b, rest⟩, offset⟩
  · cases h
  · cases h
    rfl

theorem next?_of_rest_eq_nil (h : c.rest = []) : c.next? = none := by
  rcases c with ⟨_ | ⟨b, rest⟩, offset⟩
  · rfl
  · cases h

theorem next?_of_rest_eq_cons {b : UInt8} {rest : List UInt8} (h : c.rest = b :: rest) :
    ∃ d : c.After, c.next? = some (b, d) ∧ d.1.rest = rest := by
  rcases c with ⟨_ | ⟨b', rest'⟩, offset⟩
  · cases h
  · cases h
    exact ⟨_, rfl, rfl⟩

theorem rest_skipSpace (c : Cursor) : c.skipSpace.1.rest = c.rest.dropWhile isSpace :=
  drop_length_takeWhile isSpace c.rest

end Cursor

/-! ### Bytes by kind -/

/-- A property of all bytes can be checked on the numbers below 256. -/
theorem forall_byte {P : UInt8 → Prop} (h : ∀ n < 256, P (UInt8.ofNat n)) (b : UInt8) : P b := by
  have hb := h b.toNat b.toNat_lt
  rwa [UInt8.ofNat_toNat] at hb

theorem isSpace_iff (b : UInt8) : Cursor.isSpace b = true ↔ b ∈ spaces := by
  revert b
  exact forall_byte (by decide +kernel)

theorem isDigit_iff (b : UInt8) : isDigit b = true ↔ b ∈ digits := by
  revert b
  exact forall_byte (by decide +kernel)

theorem nibbleMask?_eq_some_iff (b : UInt8) (nibble : UInt8 × UInt8) :
    nibbleMask? b = some nibble ↔ (b, nibble) ∈ nibbles := by
  constructor
  · intro h
    have hall : ∀ b, ((nibbleMask? b).all fun nibble => nibbles.contains (b, nibble)) = true :=
      forall_byte (by decide +kernel)
    have hb := hall b
    rw [h] at hb
    exact List.contains_iff_mem.1 hb
  · intro h
    have hall : (nibbles.all fun e => nibbleMask? e.1 == some e.2) = true := by decide +kernel
    exact eq_of_beq (List.all_eq_true.1 hall (b, nibble) h)

theorem bitMask?_eq_some_iff (b : UInt8) (bit : UInt8 × UInt8) :
    bitMask? b = some bit ↔ (b, bit) ∈ marks := by
  constructor
  · intro h
    have hall : ∀ b, ((bitMask? b).all fun bit => marks.contains (b, bit)) = true :=
      forall_byte (by decide +kernel)
    have hb := hall b
    rw [h] at hb
    exact List.contains_iff_mem.1 hb
  · intro h
    have hall : (marks.all fun e => bitMask? e.1 == some e.2) = true := by decide +kernel
    exact eq_of_beq (List.all_eq_true.1 hall (b, bit) h)

/-! ### What may follow -/

/-- Whether what comes first in `rest`, white space left aside, is none of `stops`. -/
def Clear (stops rest : List UInt8) : Prop :=
  ∀ b, (rest.dropWhile Cursor.isSpace).head? = some b → b ∉ stops

theorem dropWhile_space {s : List UInt8} (hs : Space s) (rest : List UInt8) :
    (s ++ rest).dropWhile Cursor.isSpace = rest.dropWhile Cursor.isSpace :=
  List.dropWhile_append_of_pos fun b hb => (isSpace_iff b).2 (hs b hb)

theorem dropWhile_of_not_mem_spaces {b : UInt8} (hb : b ∉ spaces) (rest : List UInt8) :
    (b :: rest).dropWhile Cursor.isSpace = b :: rest :=
  List.dropWhile_cons_of_neg fun h => hb ((isSpace_iff b).1 h)

theorem dropWhile_dropWhile (rest : List UInt8) :
    (rest.dropWhile Cursor.isSpace).dropWhile Cursor.isSpace
      = rest.dropWhile Cursor.isSpace := by
  induction rest with
  | nil => rfl
  | cons b rest ih =>
    by_cases hb : Cursor.isSpace b = true
    · rw [List.dropWhile_cons_of_pos hb, ih]
    · rw [List.dropWhile_cons_of_neg hb, List.dropWhile_cons_of_neg hb]

theorem space_takeWhile (rest : List UInt8) : Space (rest.takeWhile Cursor.isSpace) :=
  fun b hb => (isSpace_iff b).1 (List.all_eq_true.1 List.all_takeWhile b hb)

theorem clear_nil (stops : List UInt8) : Clear stops [] := by
  intro b h
  cases h

theorem clear_of_no_stops (rest : List UInt8) : Clear [] rest :=
  fun _ _ => List.not_mem_nil

theorem clear_cons {stops rest : List UInt8} {b : UInt8} (hspace : b ∉ spaces)
    (hstop : b ∉ stops) : Clear stops (b :: rest) := by
  intro b' hb'
  rw [dropWhile_of_not_mem_spaces hspace] at hb'
  cases hb'
  exact hstop

theorem Clear.append {stops s rest : List UInt8} (h : Clear stops rest) (hs : Space s) :
    Clear stops (s ++ rest) := by
  intro b hb
  rw [dropWhile_space hs] at hb
  exact h b hb

theorem Clear.mono {stops stops' rest : List UInt8} (h : Clear stops rest)
    (hsub : ∀ b ∈ stops', b ∈ stops) : Clear stops' rest :=
  fun b hb hmem => h b hb (hsub b hmem)

theorem Clear.not_mem {stops rest : List UInt8} {b : UInt8} (h : Clear stops (b :: rest))
    (hb : b ∉ spaces) : b ∉ stops := by
  apply h b
  rw [dropWhile_of_not_mem_spaces hb]
  rfl

/-! ### Soundness and completeness -/

/-- Whether what is read is text of a kind, with the right meaning. -/
def Sound {α : Type} (read : (c : Cursor) → Read α c) (Kind : List UInt8 → α → Prop) : Prop :=
  ∀ (c : Cursor) (v : α) (d : c.After), read c = .ok (v, d) →
    ∃ t, Kind t v ∧ c.rest = t ++ d.1.rest

/-- Whether text of a kind is read, all of it, unless one of `stops` follows. -/
def Complete {α : Type} (read : (c : Cursor) → Read α c) (Kind : List UInt8 → α → Prop)
    (stops : List UInt8) : Prop :=
  ∀ (c : Cursor) (t rest : List UInt8) (v : α), Kind t v → c.rest = t ++ rest →
    Clear stops rest → ∃ d : c.After, read c = .ok (v, d) ∧ d.1.rest = rest

/-! ### Nibbles and bytes -/

theorem rest_of_readNibble {c : Cursor} {nibble : UInt8 × UInt8} {d : c.After}
    (h : readNibble c = .ok (nibble, d)) :
    ∃ b, (b, nibble) ∈ nibbles ∧ c.rest = b :: d.1.rest := by
  unfold readNibble at h
  split at h
  · cases h
  · rename_i b e hnext
    split at h
    · rename_i nibble' hnibble
      cases h
      exact ⟨b, (nibbleMask?_eq_some_iff b nibble).1 hnibble, Cursor.rest_of_next?_eq_some hnext⟩
    · cases h

theorem readNibble_of_rest {c : Cursor} {nibble : UInt8 × UInt8} {b : UInt8} {rest : List UInt8}
    (hb : (b, nibble) ∈ nibbles) (hc : c.rest = b :: rest) :
    ∃ d : c.After, readNibble c = .ok (nibble, d) ∧ d.1.rest = rest := by
  obtain ⟨d, hnext, hd⟩ := Cursor.next?_of_rest_eq_cons hc
  refine ⟨d, ?_, hd⟩
  unfold readNibble
  rw [hnext]
  simp only [(nibbleMask?_eq_some_iff b nibble).2 hb]

theorem sound_readByte : Sound readByte fun t v => Byte t v.1 v.2 := by
  intro c v e h
  unfold readByte at h
  obtain ⟨⟨high, d, hd⟩, hhigh, h⟩ := ok_of_bind h
  obtain ⟨⟨low, e, he⟩, hlow, h⟩ := ok_of_bind h
  cases h
  obtain ⟨b, hb, hrest⟩ := rest_of_readNibble hhigh
  obtain ⟨b', hb', hrest'⟩ := rest_of_readNibble hlow
  refine ⟨[b, b'], .nibbles hb hb', ?_⟩
  rw [hrest, hrest']
  rfl

theorem complete_readByte : Complete readByte (fun t v => Byte t v.1 v.2) [] := by
  intro c t rest v hbyte hc _
  obtain ⟨value, mask⟩ := v
  cases hbyte with
  | nibbles hb hb' =>
    obtain ⟨⟨d, hd⟩, hhigh, hdrest⟩ := readNibble_of_rest hb hc
    obtain ⟨⟨e, he⟩, hlow, herest⟩ := readNibble_of_rest hb' hdrest
    have he' : e.left < d.left := he
    refine ⟨⟨e, by omega⟩, ?_, herest⟩
    unfold readByte
    rw [hhigh]
    simp only [bind, Except.bind, hlow]
    rfl

/-! ### Simple conditions -/

theorem dash_not_mem_spaces : byte '-' ∉ spaces := by decide

theorem sound_readByteOrRange : Sound readByteOrRange Simple := by
  intro c v e h
  unfold readByteOrRange at h
  obtain ⟨⟨⟨value, mask⟩, d, hd⟩, hlow, h⟩ := ok_of_bind h
  obtain ⟨t, ht, hc⟩ := sound_readByte c _ _ hlow
  simp only at h
  split at h
  · cases h
    exact ⟨t, .byte ht, hc⟩
  · rename_i b f hf hnext
    have hdrest := Cursor.rest_of_next?_eq_some hnext
    split at h
    · rename_i hdash
      obtain ⟨⟨⟨high, highMask⟩, g, hg⟩, hhigh, h⟩ := ok_of_bind h
      obtain ⟨t', ht', hfrest⟩ := sound_readByte f _ _ hhigh
      simp only at h
      split at h
      · rename_i hrange
        cases h
        simp only [Bool.and_eq_true, beq_iff_eq, decide_eq_true_eq] at hrange hdash
        obtain ⟨⟨hmask, hmask'⟩, hle⟩ := hrange
        rw [hmask] at ht
        rw [hmask'] at ht'
        refine ⟨t ++ byte '-' :: t', .range ht ht' hle, ?_⟩
        rw [hc, hdrest, hdash, hfrest, List.append_assoc]
        rfl
      · cases h
    · -- What follows is not a dash, so it belongs to the next item.
      cases h
      exact ⟨t, .byte ht, hc⟩

theorem readByteOrRange_of_byte {c : Cursor} {t rest : List UInt8} {value mask : UInt8}
    (ht : Byte t value mask) (hc : c.rest = t ++ rest) (hclear : Clear [byte '-'] rest) :
    ∃ d : c.After, readByteOrRange c = .ok (.ofMask value mask, d) ∧ d.1.rest = rest := by
  obtain ⟨⟨d, hd⟩, hread, hrest⟩ := complete_readByte c t rest (value, mask) ht hc
    (clear_of_no_stops rest)
  have hrest : d.rest = rest := hrest
  refine ⟨⟨d, hd⟩, ?_, hrest⟩
  unfold readByteOrRange
  rw [hread]
  simp only [bind, Except.bind]
  cases hnext : d.next? with
  | none => rfl
  | some r =>
    obtain ⟨b, e, he⟩ := r
    have hb : b ≠ byte '-' := by
      rintro rfl
      rw [← hrest, Cursor.rest_of_next?_eq_some hnext] at hclear
      exact hclear.not_mem dash_not_mem_spaces List.mem_cons_self
    simp only
    rw [if_neg (by simpa using hb)]
    rfl

theorem readByteOrRange_of_range {c : Cursor} {t t' rest : List UInt8} {low high : UInt8}
    (ht : Byte t low 0xff) (ht' : Byte t' high 0xff) (hle : low ≤ high)
    (hc : c.rest = t ++ byte '-' :: (t' ++ rest)) :
    ∃ d : c.After, readByteOrRange c = .ok (.range low high, d) ∧ d.1.rest = rest := by
  obtain ⟨⟨d, hd⟩, hlow, hdrest⟩ := complete_readByte c t _ (low, 0xff) ht hc
    (clear_of_no_stops _)
  obtain ⟨⟨e, he⟩, hnext, herest⟩ := Cursor.next?_of_rest_eq_cons hdrest
  obtain ⟨⟨f, hf⟩, hhigh, hfrest⟩ := complete_readByte e t' rest (high, 0xff) ht' herest
    (clear_of_no_stops rest)
  have he' : e.left < d.left := he
  refine ⟨⟨f, by omega⟩, ?_, hfrest⟩
  unfold readByteOrRange
  rw [hlow]
  simp only [bind, Except.bind, hnext]
  rw [if_pos (by decide)]
  simp only [hhigh]
  rw [if_pos (by simpa using hle)]
  rfl

theorem bits_of_readBits {count : Nat} {value mask : UInt8} {c : Cursor} {v : ByteClass}
    {d : c.Onward} (h : readBits count value mask c = .ok (v, d)) :
    ∃ t, Bits count value mask t v ∧ c.rest = t ++ d.1.rest := by
  induction count generalizing value mask c with
  | zero =>
    cases h
    exact ⟨[], .none, rfl⟩
  | succ count ih =>
    unfold readBits at h
    split at h
    · cases h
    · rename_i b e he hnext
      split at h
      · cases h
      · rename_i bit bitMask hbit
        obtain ⟨⟨bits, f, hf⟩, hmore, h⟩ := ok_of_bind h
        cases h
        obtain ⟨t, ht, hrest⟩ := ih hmore
        refine ⟨b :: t, .mark ((bitMask?_eq_some_iff b _).1 hbit) ht, ?_⟩
        rw [Cursor.rest_of_next?_eq_some hnext, hrest]
        rfl

theorem readBits_of_bits {count : Nat} {value mask : UInt8} {c : Cursor} {v : ByteClass}
    {t rest : List UInt8} (ht : Bits count value mask t v) (hc : c.rest = t ++ rest) :
    ∃ d : c.Onward, readBits count value mask c = .ok (v, d) ∧ d.1.rest = rest := by
  induction ht generalizing c with
  | none => exact ⟨⟨c, Nat.le_refl _⟩, rfl, hc⟩
  | mark hb _ ih =>
    obtain ⟨⟨d, hd⟩, hnext, hdrest⟩ := Cursor.next?_of_rest_eq_cons hc
    obtain ⟨⟨e, he⟩, hread, herest⟩ := ih hdrest
    have he' : e.left ≤ d.left := he
    refine ⟨⟨e, by omega⟩, ?_, herest⟩
    unfold readBits
    simp only [hnext, (bitMask?_eq_some_iff _ _).2 hb, bind, Except.bind, hread]
    rfl

theorem sound_readSingle : Sound readSingle Simple := by
  intro c v e h
  unfold readSingle at h
  split at h
  · cases h
  · rename_i b d hd hnext
    have hc := Cursor.rest_of_next?_eq_some hnext
    split at h
    · rename_i hany
      cases h
      exact ⟨[b], by rw [eq_of_beq hany]; exact .any, hc⟩
    · split at h
      · rename_i hbits
        obtain ⟨⟨bits, f, hf⟩, hread, h⟩ := ok_of_bind h
        cases h
        obtain ⟨t, ht, hrest⟩ := bits_of_readBits hread
        refine ⟨b :: t, by rw [eq_of_beq hbits]; exact .bits ht, ?_⟩
        rw [hc, hrest]
        rfl
      · split at h
        · rename_i hquote
          split at h
          · cases h
          · rename_i char f hf hnext'
            split at h
            · rename_i hascii
              cases h
              refine ⟨[b, char], by rw [eq_of_beq hquote]; exact .quote hascii, ?_⟩
              rw [hc, Cursor.rest_of_next?_eq_some hnext']
              rfl
            · cases h
        · split at h
          · exact sound_readByteOrRange c v e h
          · cases h

/-- A nibble can be told from the marks that other conditions begin with. -/
theorem ne_of_mem_nibbles {b : UInt8} {nibble : UInt8 × UInt8} (h : (b, nibble) ∈ nibbles) :
    (b == byte '?') = false ∧ (b == byte '%') = false ∧ (b == byte '\'') = false
      ∧ startsClass b = true := by
  have hall : ∀ b, (nibbleMask? b).isSome = true → (b == byte '?') = false
      ∧ (b == byte '%') = false ∧ (b == byte '\'') = false ∧ startsClass b = true :=
    forall_byte (by decide +kernel)
  apply hall b
  rw [(nibbleMask?_eq_some_iff b nibble).2 h]
  rfl

theorem byte_head {t : List UInt8} {value mask : UInt8} (h : Byte t value mask) :
    ∃ (b : UInt8) (nibble : UInt8 × UInt8) (t' : List UInt8),
      (b, nibble) ∈ nibbles ∧ t = b :: t' := by
  cases h with
  | nibbles hb _ => exact ⟨_, _, _, hb, rfl⟩

theorem readSingle_of_nibble {c : Cursor} {b : UInt8} {nibble : UInt8 × UInt8}
    {rest : List UInt8} (hb : (b, nibble) ∈ nibbles) (hc : c.rest = b :: rest) :
    readSingle c = readByteOrRange c := by
  obtain ⟨⟨d, hd⟩, hnext, -⟩ := Cursor.next?_of_rest_eq_cons hc
  obtain ⟨hany, hbits, hquote, hstart⟩ := ne_of_mem_nibbles hb
  have hany : (b == '?'.toUInt8) = false := hany
  have hbits : (b == '%'.toUInt8) = false := hbits
  have hquote : (b == '\''.toUInt8) = false := hquote
  unfold readSingle
  simp only [hnext, hany, hbits, hquote, hstart, Bool.false_eq_true, if_false, if_true]

theorem complete_readSingle : Complete readSingle Simple [byte '-'] := by
  intro c t rest v ht hc hclear
  cases ht with
  | any =>
    obtain ⟨⟨d, hd⟩, hnext, hdrest⟩ := Cursor.next?_of_rest_eq_cons hc
    refine ⟨⟨d, hd⟩, ?_, hdrest⟩
    unfold readSingle
    simp only [hnext]
    rfl
  | bits hbits =>
    obtain ⟨⟨d, hd⟩, hnext, hdrest⟩ := Cursor.next?_of_rest_eq_cons hc
    obtain ⟨⟨e, he⟩, hread, herest⟩ := readBits_of_bits hbits hdrest
    have he' : e.left ≤ d.left := he
    refine ⟨⟨e, by omega⟩, ?_, herest⟩
    unfold readSingle
    simp only [hnext, bind, Except.bind, hread]
    rfl
  | quote hascii =>
    obtain ⟨⟨d, hd⟩, hnext, hdrest⟩ := Cursor.next?_of_rest_eq_cons hc
    obtain ⟨⟨e, he⟩, hnext', herest⟩ := Cursor.next?_of_rest_eq_cons hdrest
    have he' : e.left < d.left := he
    refine ⟨⟨e, by omega⟩, ?_, herest⟩
    unfold readSingle
    simp only [hnext, hnext', hascii]
    rfl
  | byte hbyte =>
    obtain ⟨d, hread, hdrest⟩ := readByteOrRange_of_byte hbyte hc hclear
    obtain ⟨b, nibble, t', hb, rfl⟩ := byte_head hbyte
    exact ⟨d, by rw [readSingle_of_nibble hb hc, hread], hdrest⟩
  | range hlow hhigh hle =>
    rw [List.append_assoc] at hc
    obtain ⟨d, hread, hdrest⟩ := readByteOrRange_of_range hlow hhigh hle hc
    obtain ⟨b, nibble, t', hb, rfl⟩ := byte_head hlow
    exact ⟨d, by rw [readSingle_of_nibble hb hc, hread], hdrest⟩

/-! ### Operators -/

theorem not_mem_spaces_of_startsClass {b : UInt8} (h : startsClass b = true) : b ∉ spaces := by
  have hall : ∀ b, startsClass b = true → b ∉ spaces := forall_byte (by decide +kernel)
  exact hall b h

/-- Whether text begins as the condition on a position does. -/
def StartsClass (t : List UInt8) : Prop := ∃ b t', startsClass b = true ∧ t = b :: t'

theorem rest_eq_append_rest_skipSpace (c : Cursor) :
    ∃ s, Space s ∧ c.rest = s ++ c.skipSpace.1.rest := by
  refine ⟨c.rest.takeWhile Cursor.isSpace, space_takeWhile c.rest, ?_⟩
  rw [c.rest_skipSpace, List.takeWhile_append_dropWhile]

theorem rest_of_readOperator {op : UInt8} {c : Cursor} {e : c.After}
    (h : readOperator op c = .ok (some e)) :
    ∃ s s', Space s ∧ Space s' ∧ c.rest = s ++ op :: (s' ++ e.1.rest) := by
  obtain ⟨s, hs, hc⟩ := rest_eq_append_rest_skipSpace c
  unfold readOperator at h
  generalize c.skipSpace = skipped at h hc
  obtain ⟨d, hd⟩ := skipped
  simp only at h
  split at h
  · cases h
  · rename_i b f hf hnext
    have hdrest := Cursor.rest_of_next?_eq_some hnext
    split at h
    · rename_i hop
      obtain ⟨s', hs', hfrest⟩ := rest_eq_append_rest_skipSpace f
      generalize f.skipSpace = skipped at h hfrest
      obtain ⟨g, hg⟩ := skipped
      simp only at h
      split at h
      · cases h
        refine ⟨s, s', hs, hs', ?_⟩
        rw [hc, hdrest, eq_of_beq hop]
        exact congrArg (s ++ op :: ·) hfrest
      · cases h
    · cases h

theorem readOperator_of_clear {op : UInt8} {c : Cursor} (hop : op ∉ spaces)
    (hclear : Clear [op] c.rest) : readOperator op c = .ok none := by
  have hrest := c.rest_skipSpace
  unfold readOperator
  generalize c.skipSpace = skipped at hrest
  obtain ⟨d, hd⟩ := skipped
  simp only
  cases hnext : d.next? with
  | none => rfl
  | some r =>
    obtain ⟨b, e, he⟩ := r
    have hb : b ≠ op := by
      rintro rfl
      have hdrest : d.rest = b :: e.rest := Cursor.rest_of_next?_eq_some hnext
      refine hclear b ?_ List.mem_cons_self
      rw [← hrest, hdrest]
      rfl
    simp only
    rw [if_neg (by simpa using hb)]

theorem readOperator_of_rest {op : UInt8} {c : Cursor} {s s' t : List UInt8} (hop : op ∉ spaces)
    (hs : Space s) (hs' : Space s') (ht : StartsClass t) (hc : c.rest = s ++ op :: (s' ++ t)) :
    ∃ e : c.After, readOperator op c = .ok (some e) ∧ e.1.rest = t := by
  obtain ⟨b, t', hb, rfl⟩ := ht
  have hrest := c.rest_skipSpace
  rw [hc, dropWhile_space hs, dropWhile_of_not_mem_spaces hop] at hrest
  unfold readOperator
  generalize c.skipSpace = skipped at hrest
  obtain ⟨d, hd⟩ := skipped
  obtain ⟨⟨e, he⟩, hnext, herest⟩ := Cursor.next?_of_rest_eq_cons hrest
  have herest : e.rest = s' ++ b :: t' := herest
  have hfrest := e.rest_skipSpace
  rw [herest, dropWhile_space hs',
    dropWhile_of_not_mem_spaces (not_mem_spaces_of_startsClass hb)] at hfrest
  simp only [hnext]
  rw [if_pos (beq_self_eq_true op)]
  generalize e.skipSpace = skipped at hfrest
  obtain ⟨f, hf⟩ := skipped
  have hfrest : f.rest = b :: t' := hfrest
  simp only
  have hstart : (f.rest.head?.any startsClass) = true := by
    rw [hfrest]
    exact hb
  rw [if_pos hstart]
  exact ⟨⟨f, _⟩, rfl, hfrest⟩

/-! ### Conditions with operators -/

section

variable {op : UInt8} {part : (c : Cursor) → Read ByteClass c}
  {Part : List UInt8 → ByteClass → Prop}

theorem sound_readJoined (hpart : Sound part Part) :
    Sound (readJoined op part) (Linked op Part) := by
  -- Induction on the number of unread bytes, which every part lowers.
  suffices h : ∀ (n : Nat) (c : Cursor), c.left = n → ∀ (members : List ByteClass) (e : c.After),
      readJoined op part c = .ok (members, e) →
      ∃ t, Linked op Part t members ∧ c.rest = t ++ e.1.rest from
    fun c members e hread => h c.left c rfl members e hread
  intro n
  induction n using Nat.strongRecOn with
  | ind n ih =>
    intro c hn members e h
    rw [readJoined] at h
    obtain ⟨⟨first, d, hd⟩, hfirst, h⟩ := ok_of_bind h
    obtain ⟨t, ht, hc⟩ := hpart c _ _ hfirst
    obtain ⟨next, hop, h⟩ := ok_of_bind h
    cases next with
    | none =>
      cases h
      exact ⟨t, .last ht, hc⟩
    | some f =>
      obtain ⟨f, hf⟩ := f
      obtain ⟨s, s', hs, hs', hdrest⟩ := rest_of_readOperator hop
      obtain ⟨⟨others, g, hg⟩, hothers, h⟩ := ok_of_bind h
      cases h
      obtain ⟨t', ht', hfrest⟩ := ih f.left (by omega) f rfl others ⟨g, hg⟩ hothers
      refine ⟨t ++ (s ++ op :: (s' ++ t')), .more ht hs hs' ht', ?_⟩
      have hfrest : f.rest = t' ++ g.rest := hfrest
      show c.rest = t ++ (s ++ op :: (s' ++ t')) ++ g.rest
      rw [hc, hdrest]
      simp only [hfrest, List.append_assoc, List.cons_append]

theorem startsClass_of_linked (hstart : ∀ t c, Part t c → StartsClass t) {t : List UInt8}
    {members : List ByteClass} (h : Linked op Part t members) : StartsClass t := by
  cases h with
  | last ht => exact hstart _ _ ht
  | more ht _ _ _ =>
    obtain ⟨b, t', hb, rfl⟩ := hstart _ _ ht
    exact ⟨b, _, hb, rfl⟩

theorem complete_readJoined {stops : List UInt8} (hop : op ∉ spaces) (hstop : op ∉ stops)
    (hstart : ∀ t c, Part t c → StartsClass t) (hpart : Complete part Part stops) :
    Complete (readJoined op part) (Linked op Part) (op :: stops) := by
  intro c t rest members ht hc hclear
  induction ht generalizing c with
  | last ht =>
    -- No operator follows the last part.
    obtain ⟨⟨d, hd⟩, hfirst, hdrest⟩ := hpart c _ rest _ ht hc
      (hclear.mono fun b hb => List.mem_cons_of_mem _ hb)
    have hdrest : d.rest = rest := hdrest
    have hnone : readOperator op d = .ok none := by
      apply readOperator_of_clear hop
      rw [hdrest]
      exact hclear.mono fun b hb => List.mem_singleton.1 hb ▸ List.mem_cons_self
    refine ⟨⟨d, hd⟩, ?_, hdrest⟩
    rw [readJoined, hfirst]
    simp only [bind, Except.bind, hnone]
    rfl
  | more ht hs hs' hmore ih =>
    rename_i t s s' t' first others
    have hc : c.rest = t ++ (s ++ op :: (s' ++ (t' ++ rest))) := by
      simpa only [List.append_assoc, List.cons_append] using hc
    -- The operator comes next, which does not continue the part before it.
    have hclear' : Clear stops (s ++ op :: (s' ++ (t' ++ rest))) :=
      (clear_cons hop hstop).append hs
    obtain ⟨⟨d, hd⟩, hfirst, hdrest⟩ := hpart c _ _ _ ht hc hclear'
    have hstarts : StartsClass (t' ++ rest) := by
      obtain ⟨b, t'', hb, heq⟩ := startsClass_of_linked hstart hmore
      exact ⟨b, t'' ++ rest, hb, by rw [heq]; rfl⟩
    obtain ⟨⟨e, he⟩, hread, herest⟩ := readOperator_of_rest hop hs hs' hstarts hdrest
    obtain ⟨⟨f, hf⟩, hothers, hfrest⟩ := ih e herest
    have he' : e.left < d.left := he
    have hf' : f.left < e.left := hf
    refine ⟨⟨f, by omega⟩, ?_, hfrest⟩
    rw [readJoined, hfirst]
    simp only [bind, Except.bind, hread, hothers]
    rfl

end

theorem startsClass_of_simple (t : List UInt8) (c : ByteClass) (h : Simple t c) :
    StartsClass t := by
  have hbyte : ∀ {t value mask}, Byte t value mask → StartsClass t := by
    intro t value mask h
    obtain ⟨b, nibble, t', hb, rfl⟩ := byte_head h
    exact ⟨b, t', (ne_of_mem_nibbles hb).2.2.2, rfl⟩
  cases h with
  | any => exact ⟨_, _, by decide, rfl⟩
  | bits _ => exact ⟨_, _, by decide, rfl⟩
  | quote _ => exact ⟨_, _, by decide, rfl⟩
  | byte h => exact hbyte h
  | range hlow _ _ =>
    obtain ⟨b, t', hb, rfl⟩ := hbyte hlow
    exact ⟨b, _, hb, rfl⟩

theorem startsClass_of_conjunction (t : List UInt8) (c : ByteClass) (h : Conjunction t c) :
    StartsClass t := by
  obtain ⟨members, hjoined, -⟩ := h
  exact startsClass_of_linked startsClass_of_simple hjoined

theorem startsClass_of_alternation {t : List UInt8} {c : ByteClass} (h : Alternation t c) :
    StartsClass t := by
  obtain ⟨members, hjoined, -⟩ := h
  exact startsClass_of_linked startsClass_of_conjunction hjoined

theorem sound_readConjunction : Sound readConjunction Conjunction := by
  intro c v d h
  unfold readConjunction at h
  obtain ⟨⟨members, e⟩, hread, h⟩ := ok_of_bind h
  cases h
  obtain ⟨t, ht, hc⟩ := sound_readJoined sound_readSingle c _ _ hread
  exact ⟨t, ⟨_, ht, rfl⟩, hc⟩

theorem complete_readConjunction :
    Complete readConjunction Conjunction [byte '&', byte '-'] := by
  intro c t rest v ht hc hclear
  obtain ⟨members, hjoined, rfl⟩ := ht
  obtain ⟨d, hread, hd⟩ := complete_readJoined (by decide) (by decide) startsClass_of_simple
    complete_readSingle c t rest members hjoined hc hclear
  refine ⟨d, ?_, hd⟩
  unfold readConjunction
  have hread : readJoined '&'.toUInt8 readSingle c = .ok (members, d) := hread
  rw [hread]
  rfl

theorem sound_readAlternation : Sound readAlternation Alternation := by
  intro c v d h
  unfold readAlternation at h
  obtain ⟨⟨members, e⟩, hread, h⟩ := ok_of_bind h
  cases h
  obtain ⟨t, ht, hc⟩ := sound_readJoined sound_readConjunction c _ _ hread
  exact ⟨t, ⟨_, ht, rfl⟩, hc⟩

theorem complete_readAlternation :
    Complete readAlternation Alternation [byte '|', byte '&', byte '-'] := by
  intro c t rest v ht hc hclear
  obtain ⟨members, hjoined, rfl⟩ := ht
  obtain ⟨d, hread, hd⟩ := complete_readJoined (by decide) (by decide) startsClass_of_conjunction
    complete_readConjunction c t rest members hjoined hc hclear
  refine ⟨d, ?_, hd⟩
  unfold readAlternation
  have hread : readJoined '|'.toUInt8 readConjunction c = .ok (members, d) := hread
  rw [hread]
  rfl

end Chiptune.Pattern
