import Chiptune.Proofs.FaultPlaces

namespace Chiptune.Pattern

open Grammar
open SyntaxError (Kind)

/-!
# Faults of the reading functions

Each reading function comes to a place in the text, or finds a fault that is as its kind says.

* `locates_readAlternation`, `locates_readQuantifier` — conditions and counts;
* `locates_readItem`, `locatesFrom` — items, and sequences of them in any groups;
* `blames_of_compile` — every fault that the compiler finds.
-/

variable {t : List UInt8} {groups : List Nat} {c : Cursor}

/-- What reading comes to when it comes to a place where the same groups are open. -/
abbrev LocatesIn {α : Type} (t : List UInt8) (groups : List Nat) (c : Cursor) (x : Read α c) :
    Prop :=
  Locates t c x fun r => Stands t groups r.2.1

/-! ### Bytes -/

theorem isPlain_of_mem_nibbles {b : UInt8} {nibble : UInt8 × UInt8} (h : (b, nibble) ∈ nibbles) :
    IsPlain b := by
  have hall : nibbles.all (fun e => decide (IsPlain e.1)) = true := by decide +kernel
  exact of_decide_eq_true (List.all_eq_true.1 hall _ h)

theorem isPlain_of_mem_marks {b : UInt8} {bit : UInt8 × UInt8} (h : (b, bit) ∈ marks) :
    IsPlain b := by
  have hall : marks.all (fun e => decide (IsPlain e.1)) = true := by decide
  exact of_decide_eq_true (List.all_eq_true.1 hall _ h)

theorem isPlain_of_mem_digits {b : UInt8} (h : b ∈ digits) : IsPlain b := by
  have hall : digits.all (fun b => decide (IsPlain b)) = true := by decide +kernel
  exact of_decide_eq_true (List.all_eq_true.1 hall b h)

theorem not_mem_nibbles {b : UInt8} (h : nibbleMask? b = none) (nibble : UInt8 × UInt8) :
    (b, nibble) ∉ nibbles := by
  intro hmem
  rw [(nibbleMask?_eq_some_iff b nibble).2 hmem] at h
  cases h

theorem not_mem_marks {b : UInt8} (h : bitMask? b = none) (bit : UInt8 × UInt8) :
    (b, bit) ∉ marks := by
  intro hmem
  rw [(bitMask?_eq_some_iff b bit).2 hmem] at h
  cases h

/-! ### Conditions -/

theorem locates_readNibble (hc : Stands t groups c) : LocatesIn t groups c (readNibble c) := by
  unfold readNibble
  split
  · rename_i hnext
    exact locates_error (hc.blames_end hnext)
  · rename_i b d hnext
    split
    · rename_i nibble hnibble
      have hb := (nibbleMask?_eq_some_iff b nibble).1 hnibble
      exact locates_ok (hc.next hnext (isPlain_of_mem_nibbles hb))
    · rename_i hnone
      exact locates_error (hc.blames ⟨b, hc.getElem?_of_next? hnext, not_mem_nibbles hnone⟩)

theorem locates_readByte (hc : Stands t groups c) : LocatesIn t groups c (readByte c) := by
  unfold readByte
  refine (locates_readNibble hc).bind ?_
  rintro ⟨high, d, hd⟩ - hd'
  have hread := (locates_readNibble hd').mono (hc.offset_le_offset hd'.toWithin (Nat.le_of_lt hd))
  refine hread.bind ?_
  rintro ⟨low, e, he⟩ - he'
  exact locates_ok he'

theorem locates_readByteOrRange (hc : Stands t groups c) :
    LocatesIn t groups c (readByteOrRange c) := by
  unfold readByteOrRange
  refine (locates_readByte hc).bind ?_
  rintro ⟨⟨value, mask⟩, d, hd⟩ hlow hd'
  have hd' : Stands t groups d := hd'
  dsimp only
  split
  · exact locates_ok hd'
  · rename_i b e he hnext
    split
    · rename_i hdash
      have hdash : b = byte '-' := eq_of_beq hdash
      subst hdash
      have he' : Stands t groups e := hd'.next hnext (by decide)
      have hread := (locates_readByte he').mono (hc.offset_le_offset he'.toWithin (by omega))
      refine hread.bind ?_
      rintro ⟨⟨high, highMask⟩, f, hf⟩ hhigh hf'
      dsimp only
      split
      · exact locates_ok hf'
      · rename_i hrange
        -- The fault is at the first of the two bytes.
        refine locates_error (hc.blames ?_)
        obtain ⟨u, hu, hcrest⟩ := sound_readByte c _ _ hlow
        obtain ⟨u', hu', herest⟩ := sound_readByte e _ _ hhigh
        have hdrest : d.rest = byte '-' :: e.rest := Cursor.rest_of_next?_eq_some hnext
        refine ⟨u, u', value, mask, high, highMask, f.rest, ?_, hu, hu', ?_⟩
        · rw [← hc.rest, hcrest, hdrest, herest]
        · simpa only [Bool.and_eq_true, beq_iff_eq, decide_eq_true_eq, and_assoc] using hrange
    · exact locates_ok hd'

theorem locates_readBits {count : Nat} {value mask : UInt8} (hc : Stands t groups c) :
    Locates t c (readBits count value mask c) fun r => Stands t groups r.2.1 := by
  induction count generalizing value mask c with
  | zero => exact locates_ok hc
  | succ count ih =>
    unfold readBits
    split
    · rename_i hnext
      exact locates_error (hc.blames_end hnext)
    · rename_i b d hd hnext
      split
      · rename_i hnone
        exact locates_error (hc.blames ⟨b, hc.getElem?_of_next? hnext, not_mem_marks hnone⟩)
      · rename_i bit bitMask hbit
        have hb := (bitMask?_eq_some_iff b _).1 hbit
        have hd' : Stands t groups d := hc.next hnext (isPlain_of_mem_marks hb)
        refine ((ih hd').mono (hc.offset_le_offset hd'.toWithin (Nat.le_of_lt hd))).bind ?_
        rintro ⟨bits, e, he⟩ - he'
        exact locates_ok he'

/-! ### Characters that nothing begins with -/

theorem item_of_mem_starts {b : UInt8} (h : b ∈ starts) :
    b < 0x80 ∧ (startsClass b = true ∨ b = byte '(' ∨ b = byte '+') := by
  have hall : starts.all (fun b => decide (b < 0x80
      ∧ (startsClass b = true ∨ b = byte '(' ∨ b = byte '+'))) = true := by decide +kernel
  exact of_decide_eq_true (List.all_eq_true.1 hall b h)

theorem describes_unexpected {offset : Nat} {b : UInt8} (hb : t[offset]? = some b)
    (hstart : startsClass b = false)
    (hplace : b ∉ spaces ∧ b ≠ byte '(' ∧ b ≠ byte '+' ∧ b ≠ byte ')') :
    Describes t offset .unexpectedCharacter := by
  obtain ⟨hspace, hopen, hskip, hclose⟩ := hplace
  refine ⟨b, hb, hspace, fun hmem => ?_, hclose⟩
  rcases (item_of_mem_starts hmem).2 with hclass | heq | heq
  · rw [hstart] at hclass
    cases hclass
  · exact hopen heq
  · exact hskip heq

theorem describes_foreign {offset : Nat} {b : UInt8} (hb : t[offset]? = some b)
    (hforeign : ¬b < 0x80) : Describes t offset .unexpectedCharacter := by
  refine ⟨b, hb, fun hmem => hforeign (isPlain_of_mem_spaces hmem).1,
    fun hmem => hforeign (item_of_mem_starts hmem).1, ?_⟩
  rintro rfl
  exact hforeign (by decide)

/-- Whether a cursor is at a condition, if at anything that an item begins with. -/
def AtCondition (c : Cursor) : Prop :=
  ∀ b e, c.next? = some (b, e) → b ∉ spaces ∧ b ≠ byte '(' ∧ b ≠ byte '+' ∧ b ≠ byte ')'

theorem atCondition_of_next? {b : UInt8} {e : c.After} (hnext : c.next? = some (b, e))
    (hb : b ∉ spaces ∧ b ≠ byte '(' ∧ b ≠ byte '+' ∧ b ≠ byte ')') : AtCondition c := by
  intro b' e' hnext'
  rw [hnext] at hnext'
  cases hnext'
  exact hb

theorem atCondition_of_startsClass (h : StartsClass c.rest) : AtCondition c := by
  intro b e hnext
  obtain ⟨b', t', hb', hrest⟩ := h
  rw [Cursor.rest_of_next?_eq_some hnext] at hrest
  cases hrest
  have hall : ∀ b, startsClass b = true →
      b ∉ spaces ∧ b ≠ byte '(' ∧ b ≠ byte '+' ∧ b ≠ byte ')' :=
    forall_byte (by decide +kernel)
  exact hall b hb'

theorem head?_any_startsClass_iff {rest : List UInt8} :
    rest.head?.any startsClass = true ↔ StartsClass rest := by
  cases rest with
  | nil =>
    refine ⟨fun h => (by cases h), ?_⟩
    rintro ⟨b, t', -, h⟩
    cases h
  | cons b rest =>
    refine ⟨fun h => ⟨b, rest, h, rfl⟩, ?_⟩
    rintro ⟨b', t', hb', h⟩
    cases h
    exact hb'

/-! ### Conditions with operators -/

theorem locates_readSingle (hc : Stands t groups c) (hplace : AtCondition c) :
    LocatesIn t groups c (readSingle c) := by
  unfold readSingle
  split
  · rename_i hnext
    exact locates_error (hc.blames_end hnext)
  · rename_i b d hd hnext
    split
    · rename_i hany
      rw [eq_of_beq hany] at hnext
      exact locates_ok (hc.next hnext (by decide))
    · split
      · rename_i hbits
        rw [eq_of_beq hbits] at hnext
        have hd' : Stands t groups d := hc.next hnext (by decide)
        have hle := hc.offset_le_offset hd'.toWithin (Nat.le_of_lt hd)
        refine ((locates_readBits hd').mono hle).bind ?_
        rintro ⟨bits, e, he⟩ - he'
        exact locates_ok he'
      · split
        · rename_i hquote
          rw [eq_of_beq hquote] at hnext
          have hd' : Within t d := hc.toWithin.next hnext (by decide)
          have hle := hc.offset_le_offset hd' (Nat.le_of_lt hd)
          split
          · rename_i hnext'
            exact locates_error ((hd'.blames_end hnext').mono hle)
          · rename_i char e he hnext'
            split
            · rename_i hascii
              exact locates_ok (hc.quoted hnext hnext' hascii)
            · rename_i hforeign
              have hkind := describes_foreign (hd'.getElem?_of_next? hnext') hforeign
              exact locates_error ((hd'.blames hkind).mono hle)
        · split
          · exact locates_readByteOrRange hc
          · rename_i hstart
            exact locates_error (hc.blames (describes_unexpected (hc.getElem?_of_next? hnext)
              (by simpa using hstart) (hplace b _ hnext)))

/-- Behind an operator a condition begins. -/
theorem locates_readOperator {op : UInt8} (hop : op = byte '&' ∨ op = byte '|')
    (hc : Stands t groups c) :
    Locates t c (readOperator op c) fun r =>
      ∀ e, r = some e → Stands t groups e.1 ∧ StartsClass e.1.rest := by
  have hplain : IsPlain op := by rcases hop with rfl | rfl <;> decide
  obtain ⟨d, hd, hskip, hd'⟩ := hc.exists_skipSpace
  unfold readOperator
  rw [hskip]
  dsimp only
  split
  · exact locates_ok fun e he => by cases he
  · rename_i b e he hnext
    split
    · rename_i hb
      rw [eq_of_beq hb] at hnext
      have he' : Stands t groups e := hd'.next hnext hplain
      obtain ⟨f, hf, hskip', hf'⟩ := he'.exists_skipSpace
      rw [hskip']
      dsimp only
      split
      · rename_i hstart
        refine locates_ok fun g hg => ?_
        cases hg
        exact ⟨hf', head?_any_startsClass_iff.1 hstart⟩
      · rename_i hstart
        -- The fault is at the operator.
        have hblames : Blames t d (d.fault .danglingOperator) := by
          refine hd'.blames ⟨?_, ?_⟩
          · rcases hop with rfl | rfl
            · exact .inl (hd'.getElem?_of_next? hnext)
            · exact .inr (hd'.getElem?_of_next? hnext)
          · have herest : e.rest = t.drop (d.offset + 1) := by
              rw [he'.rest, Cursor.offset_of_next? hnext]
            have hfrest : f.rest = e.rest.dropWhile Cursor.isSpace := by
              rw [← e.rest_skipSpace, hskip']
            rw [← herest, ← hfrest]
            exact fun h => hstart (head?_any_startsClass_iff.2 h)
        exact locates_error (hblames.mono (hc.offset_le_offset hd'.toWithin hd))
    · exact locates_ok fun e he => by cases he

theorem locates_readJoined {op : UInt8} {part : (c : Cursor) → Read ByteClass c}
    (hop : op = byte '&' ∨ op = byte '|')
    (hpart : ∀ c, Stands t groups c → AtCondition c → LocatesIn t groups c (part c))
    (hc : Stands t groups c) (hplace : AtCondition c) :
    LocatesIn t groups c (readJoined op part c) := by
  -- Every part leaves fewer bytes unread.
  induction hn : c.left using Nat.strongRecOn generalizing c with
  | ind n ih =>
    rw [readJoined]
    refine (hpart c hc hplace).bind ?_
    rintro ⟨first, d, hd⟩ - hd'
    have hd' : Stands t groups d := hd'
    have hle := hc.offset_le_offset hd'.toWithin (Nat.le_of_lt hd)
    refine ((locates_readOperator hop hd').mono hle).bind ?_
    rintro (_ | ⟨e, he⟩) - hnext
    · exact locates_ok hd'
    · obtain ⟨he', hstart⟩ := hnext _ rfl
      have he' : Stands t groups e := he'
      have hothers := ih e.left (by omega) he' (atCondition_of_startsClass hstart) rfl
      have hle' := hc.offset_le_offset he'.toWithin (by omega)
      refine (hothers.mono hle').bind ?_
      rintro ⟨others, f, hf⟩ - hf'
      exact locates_ok hf'

theorem locates_readConjunction (hc : Stands t groups c) (hplace : AtCondition c) :
    LocatesIn t groups c (readConjunction c) := by
  unfold readConjunction
  refine (locates_readJoined (.inl rfl) (fun _ => locates_readSingle) hc hplace).bind ?_
  rintro ⟨members, d⟩ - hd
  exact locates_ok hd

theorem locates_readAlternation (hc : Stands t groups c) (hplace : AtCondition c) :
    LocatesIn t groups c (readAlternation c) := by
  unfold readAlternation
  refine (locates_readJoined (.inr rfl) (fun _ => locates_readConjunction) hc hplace).bind ?_
  rintro ⟨members, d⟩ - hd
  exact locates_ok hd

/-! ### Counts -/

theorem locates_readDecimal (hc : Stands t groups c) : LocatesIn t groups c (readDecimal c) := by
  simp only [readDecimal]
  split
  · split
    · rename_i hend
      exact locates_error (hc.blames_end (Cursor.next?_of_rest_eq_nil hend))
    · exact locates_error hc.blames_count
  · split
    · exact locates_error (hc.blames trivial)
    · split
      · exact locates_error hc.blames_count
      · apply locates_ok
        refine hc.plain (u := c.rest.takeWhile isDigit) ?_ rfl ?_
        · show c.rest = _ ++ c.rest.drop (c.rest.takeWhile isDigit).length
          rw [drop_length_takeWhile, List.takeWhile_append_dropWhile]
        · intro b hb
          exact isPlain_of_mem_digits
            ((isDigit_iff b).1 (List.all_eq_true.1 List.all_takeWhile b hb))

theorem locates_readCount {close : UInt8} (hclose : IsPlain close) (hc : Stands t groups c) :
    LocatesIn t groups c (readCount close c) := by
  unfold readCount
  refine (locates_readDecimal hc).bind ?_
  rintro ⟨count, d, hd⟩ - hd'
  have hd' : Stands t groups d := hd'
  have hle := hc.offset_le_offset hd'.toWithin (Nat.le_of_lt hd)
  dsimp only
  split
  · rename_i hnext
    exact locates_error ((hd'.blames_end hnext).mono hle)
  · rename_i b e he hnext
    split
    · rename_i hb
      rw [eq_of_beq hb] at hnext
      exact locates_ok (hd'.next hnext hclose)
    · exact locates_error (hd'.blames_count.mono hle)

theorem locates_readQuantifier (hc : Stands t groups c) :
    Locates t c (readQuantifier c) fun r => Stands t groups r.2.1 := by
  obtain ⟨d, hd, hskip, hd'⟩ := hc.exists_skipSpace
  unfold readQuantifier
  rw [hskip]
  dsimp only
  split
  · exact locates_ok hd'
  · rename_i b e he hnext
    split
    · rename_i hb
      rw [eq_of_beq hb] at hnext
      have he' : Stands t groups e := hd'.next hnext (by decide)
      have hle := hc.offset_le_offset he'.toWithin (by omega)
      refine ((locates_readCount (by decide) he').mono hle).bind ?_
      rintro ⟨count, f, hf⟩ - hf'
      exact locates_ok hf'
    · exact locates_ok hd'

theorem locates_repeated {classes group : Array ByteClass} {count : Nat}
    (hc : Stands t groups c) : Locates t c (repeated c classes group count) fun _ => True := by
  unfold repeated
  split
  · exact locates_ok trivial
  · exact locates_error (hc.blames trivial)

/-! ### Sequences -/

/-- A sequence is read from `c` on up to a place where one group less is open. -/
def LocatesFrom (t : List UInt8) (c : Cursor) : Prop :=
  ∀ (start : Cursor) (opened : Option Nat) (classes : Array ByteClass) (hc : c.left ≤ start.left)
    (groups : List Nat), Stands t groups c → opened = groups.head? →
    Locates t c (readSequence start opened classes c hc) fun r => Stands t groups.tail r.2.1

/-- A group without positions has nothing but white space in it. -/
theorem space_of_readSequence {start : Cursor} {o : Nat} {hc : c.left ≤ start.left}
    {group : Array ByteClass} {d : start.Onward}
    (h : readSequence start (some o) #[] c hc = .ok (group, d)) (hempty : group.isEmpty = true) :
    ∃ s, Space s ∧ c.rest = s ++ byte ')' :: d.1.rest := by
  obtain ⟨⟨s, cs, hs, hcs, hrest⟩, -, -⟩ := spansFrom c start (some o) #[] hc group d h
  have hcs : group.toList = cs := hcs
  rw [Array.toList_eq_nil_iff.2 (Array.isEmpty_iff.1 hempty)] at hcs
  rcases hs with ⟨hs, -⟩ | hs
  · exact ⟨s, hs, hrest⟩
  · have hpos := length_pos_of_derives hs
    rw [← hcs] at hpos
    exact absurd hpos (by decide)

theorem locates_readGroup {e : c.After} (hc : Stands t groups c)
    (hnext : c.next? = some (byte '(', e)) (ih : LocatesFrom t e.1) :
    LocatesIn t groups c (readGroup c e) := by
  have he := hc.opened hnext
  obtain ⟨e, hlt⟩ := e
  have he : Stands t (c.offset :: groups) e := he
  have hle := hc.offset_le_offset he.toWithin (Nat.le_of_lt hlt)
  have hread := ih e (some c.offset) #[] (Nat.le_refl _) _ he rfl
  unfold readGroup
  refine (hread.mono hle).bind ?_
  rintro ⟨group, f, hf⟩ hgroup hf'
  have hf' : Stands t groups f := hf'
  dsimp only
  split
  · rename_i hempty
    obtain ⟨s, hs, herest⟩ := space_of_readSequence hgroup hempty
    have herest : e.rest = s ++ byte ')' :: f.rest := herest
    refine locates_error (hc.blames (.inr ⟨s, f.rest, ?_, hs, ?_⟩))
    · have hcrest : c.rest = byte '(' :: e.rest := Cursor.rest_of_next?_eq_some hnext
      rw [← hc.rest, hcrest, herest]
    · have hoffset : e.offset = c.offset + 1 := Cursor.offset_of_next? hnext
      rw [← hoffset, he.unclosed_take]
      rfl
  · have hle' := hc.offset_le_offset hf'.toWithin (by omega)
    refine ((locates_readQuantifier hf').mono hle').bind ?_
    rintro ⟨count, g, hg⟩ - hg'
    exact locates_ok hg'

theorem locates_readSkip {e : c.After} (hc : Stands t groups c)
    (hnext : c.next? = some (byte '+', e)) : LocatesIn t groups c (readSkip c e) := by
  have he : Stands t groups e.1 := hc.next hnext (by decide)
  have hle := hc.offset_le_offset he.toWithin (Nat.le_of_lt e.2)
  unfold readSkip
  refine ((locates_readCount (by decide) he).mono hle).bind ?_
  rintro ⟨count, f, hf⟩ - hf'
  exact locates_ok hf'

theorem locates_readCondition (hc : Stands t groups c) (hplace : AtCondition c) :
    LocatesIn t groups c (readCondition c) := by
  unfold readCondition
  refine (locates_readAlternation hc hplace).bind ?_
  rintro ⟨condition, f, hf⟩ - hf'
  have hf' : Stands t groups f := hf'
  have hle := hc.offset_le_offset hf'.toWithin (Nat.le_of_lt hf)
  refine ((locates_readQuantifier hf').mono hle).bind ?_
  rintro ⟨count, g, hg⟩ - hg'
  exact locates_ok hg'

theorem locates_readItem {b : UInt8} {e : c.After} (hc : Stands t groups c)
    (hnext : c.next? = some (b, e)) (hspace : b ∉ spaces) (hclose : b ≠ byte ')')
    (ih : LocatesFrom t e.1) : LocatesIn t groups c (readItem c b e) := by
  unfold readItem
  split
  · rename_i hb
    rw [eq_of_beq hb] at hnext
    exact locates_readGroup hc hnext ih
  · rename_i hopen
    split
    · rename_i hb
      rw [eq_of_beq hb] at hnext
      exact locates_readSkip hc hnext
    · rename_i hskip
      exact locates_readCondition hc
        (atCondition_of_next? hnext ⟨hspace, by simpa using hopen, by simpa using hskip, hclose⟩)

/-- The byte behind white space is none. -/
theorem not_mem_spaces_of_skipSpace {d : Cursor} {hd : d.left ≤ c.left} {b : UInt8} {e : d.After}
    (hskip : c.skipSpace = ⟨d, hd⟩) (hnext : d.next? = some (b, e)) : b ∉ spaces := by
  intro hb
  have hrest := c.rest_skipSpace
  rw [hskip, Cursor.rest_of_next?_eq_some hnext] at hrest
  have hhead : (c.rest.dropWhile Cursor.isSpace).head? = some b := by
    rw [← hrest]
    rfl
  have hnot := List.head?_dropWhile_not Cursor.isSpace c.rest
  rw [hhead] at hnot
  exact absurd ((isSpace_iff b).2 hb) (Bool.eq_false_iff.1 hnot)

theorem Stands.blames_unclosed {o : Nat} (hc : Stands t groups c) (hend : c.next? = none)
    (ho : groups.head? = some o) : Blames t c ⟨o, .unbalancedGroup⟩ := by
  obtain ⟨hlt, hopen⟩ := hc.opens o (List.mem_of_head? ho)
  have hlength := hc.offset_eq_length hend
  refine ⟨?_, ?_, .inr ⟨hopen, ?_⟩, fun h => by simp [OfByte] at h⟩
  · show o ≤ t.length
    omega
  · intro b hb
    exact hc.ascii b (List.take_subset_take_left t (Nat.le_of_lt hlt) hb)
  · have hall := hc.unclosed_take
    rw [hlength, List.take_length] at hall
    rw [hall, ho]

theorem locatesFrom (t : List UInt8) (c : Cursor) : LocatesFrom t c := by
  -- Groups and what follows an item have fewer bytes left.
  induction hn : c.left using Nat.strongRecOn generalizing c with
  | ind n ih =>
    intro start opened classes hc groups hstands hopened
    obtain ⟨d, hd, hskip, hd'⟩ := hstands.exists_skipSpace
    have hle := hstands.offset_le_offset hd'.toWithin hd
    cases hnext : d.next? with
    | none =>
      rw [readSequence_of_end hskip hnext]
      cases opened with
      | some o => exact locates_error ((hd'.blames_unclosed hnext hopened.symm).mono hle)
      | none =>
        have hnone : groups = [] := List.head?_eq_none_iff.1 hopened.symm
        subst hnone
        exact locates_ok hd'
    | some r =>
      obtain ⟨b, e, he⟩ := r
      by_cases hb : b = byte ')'
      · subst hb
        rw [readSequence_of_close hskip hnext]
        cases opened with
        | some o => exact locates_ok (hd'.closed hnext)
        | none =>
          have hnone : groups = [] := List.head?_eq_none_iff.1 hopened.symm
          have hclosed := hd'.unclosed_take
          rw [hnone] at hclosed
          have hkind : Describes t d.offset .unbalancedGroup :=
            .inl ⟨hd'.getElem?_of_next? hnext, hclosed⟩
          exact locates_error ((hd'.blames hkind).mono hle)
      · rw [readSequence_of_next? hskip hnext hb]
        have hspace := not_mem_spaces_of_skipSpace hskip hnext
        have hitem := locates_readItem hd' hnext hspace hb (ih e.left (by omega) e rfl)
        refine (hitem.mono hle).bind ?_
        rintro ⟨⟨group, count⟩, g, hg⟩ - hg'
        have hg' : Stands t groups g := hg'
        have hle' := hstands.offset_le_offset hg'.toWithin (by omega)
        refine ((locates_repeated hg').mono hle').bind fun longer _ _ => ?_
        exact (ih g.left (by omega) g rfl start opened longer (by omega) groups hg' hopened).mono
          hle'

/-! ### The compiler -/

theorem blames_of_compile {text : String} {e : SyntaxError} (h : compile text = .error e) :
    Blames (bytes text) ⟨bytes text, 0⟩ e := by
  have hstart := Stands.start (bytes text)
  have hread := locatesFrom (bytes text) ⟨bytes text, 0⟩ ⟨bytes text, 0⟩ none #[] (Nat.le_refl _) []
    hstart rfl
  have hcompile : Locates (bytes text) ⟨bytes text, 0⟩ (compile text) fun _ => True := by
    unfold compile
    refine hread.bind ?_
    rintro ⟨classes, d, hd⟩ hsequence -
    dsimp only
    split
    · rename_i hempty
      -- Without positions there is nothing but white space.
      obtain ⟨⟨s, cs, hs, hcs, hrest⟩, hend, -⟩ := spansFrom _ _ _ _ _ _ _ hsequence
      have hcs : classes.toList = cs := hcs
      have hrest : bytes text = s ++ d.rest := hrest
      have hend : d.rest = [] := hend rfl
      rw [hend, List.append_nil] at hrest
      rcases hs with ⟨hs, -⟩ | hs
      · exact locates_error (hstart.blames (.inl ⟨rfl, hrest ▸ hs⟩))
      · have hpos := length_pos_of_derives hs
        rw [← hcs, hempty] at hpos
        exact absurd hpos (by decide)
    · exact locates_ok trivial
  exact hcompile.error e h

end Chiptune.Pattern
