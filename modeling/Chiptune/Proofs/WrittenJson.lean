import Chiptune.Json.Parser
import Chiptune.Json.Printer

namespace Chiptune.Json

/-!
# JSON text that was written

A value is read back from its text without white space, when all its numbers are 64-bit integers.

* `Reads` — a reader takes a value from the start of its text and leaves the rest;
* `reads_textBody`, `reads_number_natural`, `reads_number_negative` — texts in quotes and integers
  are read up to what follows;
* `Writable` — the values with such numbers, at any depth;
* `isRead_of_writable`, `parse?_compact` — they are read back, so their text denotes them.
-/

/-- Whether a reader of `s` takes `a` from its start and leaves `rest`. -/
def Reads {α : Type} {s : List Char} (result : Option (α × Rest s)) (a : α) (rest : List Char) :
    Prop :=
  ∃ h, result = some (a, ⟨rest, h⟩)

variable {s t rest cs : List Char} {c : Char}

/-! ### Characters -/

theorem next?_of_eq_cons {r : List Char} (h : s = c :: r) :
    next? s = some (c, ⟨r, h ▸ Nat.lt_succ_self _⟩) := by
  subst h
  rfl

theorem nextMark?_cons (h : isSpace c = false) (r : List Char) :
    nextMark? (c :: r) = some (c, ⟨r, Nat.lt_succ_self _⟩) := by
  have hdrop : (c :: r).dropWhile isSpace = c :: r := List.dropWhile_cons_of_neg (by simp [h])
  unfold nextMark?
  simp only [next?_of_eq_cons hdrop]
  rfl

/-! ### Texts -/

/-- What stands for `c` inside quotes: a letter behind the escape mark, the number of a control
    character, or the character itself. -/
theorem escape_spec (c : Char) :
    (∃ letter, escape c = ['\\', letter] ∧ letter ≠ 'u' ∧ unescape? letter = some c)
      ∨ (c.toNat < 0x20 ∧ escape c = '\\' :: 'u' :: (Numeral.hex 4 c.toNat).toList)
      ∨ (0x20 ≤ c.toNat ∧ c ≠ '\\' ∧ c ≠ '"' ∧ escape c = [c]) := by
  unfold escape
  split
  case h_8 =>
    split
    · rename_i hcontrol
      exact .inr (.inl ⟨hcontrol, rfl⟩)
    · rename_i hquote hmark _ _ _ _ _ hcontrol
      exact .inr (.inr ⟨Nat.le_of_not_lt hcontrol, hmark, hquote, rfl⟩)
  all_goals exact .inl ⟨_, rfl, by decide, rfl⟩

section

variable {n : Nat} (h : n < 0x20)
include h

theorem toList_hex : (Numeral.hex 4 n).toList
    = ['0', '0', Nat.digitChar (n / 16), Nat.digitChar (n % 16)] := by
  revert n
  decide

theorem hexUnit?_digitChar :
    hexUnit? '0' '0' (Nat.digitChar (n / 16)) (Nat.digitChar (n % 16)) = some n := by
  revert n
  decide

end

theorem unitEscape?_eq_none (h : ∀ r, s ≠ '\\' :: 'u' :: r) : unitEscape? s = none := by
  unfold unitEscape?
  split
  · exact absurd rfl (h _)
  · rfl

theorem reads_plainChar? {r : List Char} (h : s = c :: r) (hmark : c ≠ '\\')
    (hc : 0x20 ≤ c.toNat) : Reads (plainChar? s) c r := by
  unfold plainChar?
  split
  · exact absurd (List.cons.inj h).1.symm hmark
  · obtain ⟨rfl, rfl⟩ := List.cons.inj h
    rw [if_neg (by simp [hmark, hc])]
    exact ⟨_, rfl⟩
  · cases h

/-- A character is read back from what stands for it inside quotes. -/
theorem reads_textChar? (c : Char) (rest : List Char) :
    Reads (textChar? (escape c ++ rest)) c rest := by
  rcases escape_spec c with ⟨letter, hescape, hletter, hc⟩ | ⟨hcontrol, hescape⟩ |
    ⟨hc, hmark, -, hescape⟩
  · rw [hescape]
    have hunit : unitEscape? (['\\', letter] ++ rest) = none :=
      unitEscape?_eq_none fun r heq => hletter (by simp_all)
    unfold textChar?
    rw [hunit]
    simp only [List.cons_append, plainChar?, hc]
    exact ⟨_, rfl⟩
  · rw [hescape, toList_hex hcontrol]
    have hnotSurrogate : ¬(0xd800 ≤ c.toNat ∧ c.toNat < 0xe000) := by omega
    unfold textChar?
    simp only [List.cons_append, List.nil_append, unitEscape?, hexUnit?_digitChar hcontrol,
      Option.bind_eq_bind, Option.bind_some, if_neg hnotSurrogate, Option.pure_def]
    exact ⟨_, by rw [Char.ofNat_toNat]⟩
  · rw [hescape]
    have hunit : unitEscape? ([c] ++ rest) = none :=
      unitEscape?_eq_none fun r heq => hmark (by simp_all)
    unfold textChar?
    rw [hunit]
    exact reads_plainChar? rfl hmark hc

theorem head?_escape (c : Char) (rest : List Char) : (escape c ++ rest).head? ≠ some '"' := by
  rcases escape_spec c with ⟨letter, hescape, -⟩ | ⟨-, hescape⟩ | ⟨-, -, hquote, hescape⟩
  · simp [hescape]
  · simp [hescape]
  · simpa [hescape] using hquote

theorem reads_textBody_nil (rest : List Char) : Reads (textBody ('"' :: rest)) [] rest := by
  rw [textBody]
  exact ⟨_, rfl⟩

theorem reads_textBody_cons (hhead : s.head? ≠ some '"') (hchar : Reads (textChar? s) c t)
    (hbody : Reads (textBody t) cs rest) : Reads (textBody s) (c :: cs) rest := by
  obtain ⟨ht, hchar⟩ := hchar
  obtain ⟨hrest, hbody⟩ := hbody
  rw [textBody]
  split
  · rename_i r hnext
    cases s with
    | nil => cases hnext
    | cons first s =>
      cases hnext
      exact absurd rfl hhead
  · simp only [hchar, hbody, Option.bind_eq_bind, Option.bind_some]
    exact ⟨_, rfl⟩

/-- A text is read back up to the closing quote. -/
theorem reads_textBody (cs rest : List Char) :
    Reads (textBody (cs.flatMap escape ++ '"' :: rest)) cs rest := by
  induction cs with
  | nil => exact reads_textBody_nil rest
  | cons c cs ih =>
    rw [List.flatMap_cons, List.append_assoc]
    exact reads_textBody_cons (head?_escape c _) (reads_textChar? c _) ih

/-! ### Integers -/

/-- Whether a number can end before `s`: no part of a number comes next. -/
def Ends (s : List Char) : Prop :=
  ∀ c ∈ s.head?, c.isDigit = false ∧ c ≠ '.' ∧ c ≠ 'e' ∧ c ≠ 'E'

theorem ends_nil : Ends [] := by simp [Ends]

theorem ends_cons (h : c ∈ [',', ']', '\x7d']) (r : List Char) : Ends (c :: r) := by
  intro first hfirst
  obtain rfl := Option.some.inj hfirst
  simp only [List.mem_cons, List.not_mem_nil, or_false] at h
  rcases h with rfl | rfl | rfl
  all_goals decide

theorem fractionPart_of_ends (h : Ends s) :
    fractionPart s = some (none, ⟨s, Nat.le_refl _⟩) := by
  unfold fractionPart
  cases s with
  | nil => rfl
  | cons first s =>
    obtain ⟨-, hpoint, -⟩ := h first rfl
    split
    · rename_i heq
      cases heq
      exact absurd rfl hpoint
    · rfl

theorem exponentPart_of_ends (h : Ends s) :
    exponentPart s = some (none, ⟨s, Nat.le_refl _⟩) := by
  unfold exponentPart
  cases s with
  | nil => rfl
  | cons first s =>
    obtain ⟨-, -, hlower, hupper⟩ := h first rfl
    simp only [next?]
    rw [if_neg (by simp [hlower, hupper])]

/-- A number begins with a zero only when it is one. -/
theorem head?_toDigits_ne {n : Nat} (h : 0 < n) : (Nat.toDigits 10 n).head? ≠ some '0' := by
  induction n using Nat.strongRecOn with
  | ind n ih =>
    by_cases hsmall : n < 10
    · rw [Nat.toDigits_of_lt_base hsmall]
      simp
      omega
    · rw [Nat.toDigits_of_base_le (by decide) (by omega),
        List.head?_append, Option.or_of_isSome]
      · exact ih (n / 10) (by omega) (by omega)
      · simp

theorem isWhole_toDigits (n : Nat) : isWhole (Nat.toDigits 10 n) = true := by
  by_cases hn : n = 0
  · subst hn
    rfl
  · have hhead := head?_toDigits_ne (Nat.pos_of_ne_zero hn)
    unfold isWhole
    split
    · rename_i heq
      exact absurd heq Nat.toDigits_ne_nil
    · rfl
    · rename_i heq
      rw [heq] at hhead
      simpa using hhead

theorem digitsValue_toDigits (n : Nat) : digitsValue (Nat.toDigits 10 n) = n := by
  have hvalue := Nat.ofDigitChars_ten_toDigits (n := n)
  rwa [Nat.ofDigitChars_eq_foldl] at hvalue

section

variable {digits : List Char} {negative : Bool}

/-- Digits behind a sign, when a number can end behind them, are read as they stand. -/
theorem reads_number_of_ends {start : Nat} (hsign : (s.head? == some '-') = negative)
    (hstart : (if negative then 1 else 0) = start)
    (hdigits : (s.drop start).takeWhile Char.isDigit = digits) (hwhole : isWhole digits = true)
    (hrest : Ends (s.drop (start + digits.length))) :
    Reads (number s) (NumberText.value ⟨negative, digits, none, none⟩)
      (s.drop (start + digits.length)) := by
  subst hsign hstart hdigits
  unfold number
  simp only [dif_pos hwhole, fractionPart_of_ends hrest, exponentPart_of_ends hrest,
    Option.bind_eq_bind, Option.bind_some]
  exact ⟨_, rfl⟩

end

theorem exists_toDigits_eq_cons (n : Nat) :
    ∃ first more, Nat.toDigits 10 n = first :: more ∧ first.isDigit = true := by
  obtain ⟨first, more, hdigits⟩ :=
    List.exists_cons_of_ne_nil (Nat.toDigits_ne_nil (n := n) (b := 10))
  have hmem : first ∈ Nat.toDigits 10 n := hdigits ▸ List.mem_cons_self
  exact ⟨first, more, hdigits, Nat.isDigit_of_mem_toDigits (by decide) (by decide) hmem⟩

theorem takeWhile_toDigits (n : Nat) (hrest : Ends rest) :
    (Nat.toDigits 10 n ++ rest).takeWhile Char.isDigit = Nat.toDigits 10 n := by
  have hdigits : ∀ c ∈ Nat.toDigits 10 n, c.isDigit = true :=
    fun _ hc => Nat.isDigit_of_mem_toDigits (by decide) (by decide) hc
  have hnone : rest.takeWhile Char.isDigit = [] := by
    cases rest with
    | nil => rfl
    | cons c rest => exact List.takeWhile_cons_of_neg (by simp [(hrest c rfl).1])
  rw [List.takeWhile_append_of_pos hdigits, hnone, List.append_nil]

section

variable {n : Nat} (hrest : Ends rest)
include hrest

theorem reads_number_natural (hn : n < UInt64.size) :
    Reads (number (Nat.toDigits 10 n ++ rest)) (.integer n) rest := by
  have hsign : ((Nat.toDigits 10 n ++ rest).head? == some '-') = false := by
    obtain ⟨first, more, hdigits, hfirst⟩ := exists_toDigits_eq_cons n
    rw [hdigits]
    refine beq_false_of_ne fun hhead => ?_
    obtain rfl := Option.some.inj hhead
    cases hfirst
  have hread := reads_number_of_ends hsign rfl (takeWhile_toDigits n hrest) (isWhole_toDigits n)
    (by simpa using hrest)
  have hvalue : NumberText.value ⟨false, Nat.toDigits 10 n, none, none⟩ = .integer n := by
    simp [NumberText.value, digitsValue_toDigits, hn]
  simpa [hvalue] using hread

theorem reads_number_negative (hpos : 0 < n) (hn : n ≤ 0x8000000000000000) :
    Reads (number ('-' :: (Nat.toDigits 10 n ++ rest))) (.integer (-n)) rest := by
  have hread := reads_number_of_ends (s := '-' :: (Nat.toDigits 10 n ++ rest)) rfl rfl
    (takeWhile_toDigits n hrest) (isWhole_toDigits n) (by simpa [Nat.add_comm 1] using hrest)
  have hvalue : NumberText.value ⟨true, Nat.toDigits 10 n, none, none⟩ = .integer (-n) := by
    simp [NumberText.value, digitsValue_toDigits, hpos, hn]
  simpa [hvalue, Nat.add_comm 1] using hread

end

/-! ### Values -/

/-- What begins with a digit or a sign is a number. -/
theorem reads_value_number {v : Json} (hc : c.isDigit = true ∨ c = '-')
    (h : Reads (number (c :: s)) v rest) : Reads (value (c :: s)) v rest := by
  obtain ⟨hrest, h⟩ := h
  have hspace : isSpace c = false := by
    rcases hc with hc | rfl
    · simp only [isSpace, Bool.or_eq_false_iff, beq_eq_false_iff_ne]
      refine ⟨⟨⟨?_, ?_⟩, ?_⟩, ?_⟩
      all_goals
        rintro rfl
        cases hc
    · rfl
  rw [value, nextMark?_cons hspace]
  split
  case h_8 =>
    rename_i heq
    cases heq
    simp only [h, Option.bind_eq_bind, Option.bind_some]
    exact ⟨_, rfl⟩
  -- None of the other marks can begin a number.
  all_goals
    rename_i heq
    cases heq
    try simp at hc

theorem reads_value_text (h : Reads (textBody s) cs rest) :
    Reads (value ('"' :: s)) (.text (String.ofList cs)) rest := by
  obtain ⟨hrest, h⟩ := h
  rw [value, nextMark?_cons rfl]
  simp only [h, Option.bind_eq_bind, Option.bind_some]
  exact ⟨_, rfl⟩

theorem reads_value_null (rest : List Char) :
    Reads (value (['n', 'u', 'l', 'l'] ++ rest)) .null rest := by
  rw [List.cons_append, value, nextMark?_cons rfl]
  exact ⟨_, rfl⟩

theorem reads_value_true (rest : List Char) :
    Reads (value (['t', 'r', 'u', 'e'] ++ rest)) (.bool true) rest := by
  rw [List.cons_append, value, nextMark?_cons rfl]
  exact ⟨_, rfl⟩

theorem reads_value_false (rest : List Char) :
    Reads (value (['f', 'a', 'l', 's', 'e'] ++ rest)) (.bool false) rest := by
  rw [List.cons_append, value, nextMark?_cons rfl]
  exact ⟨_, rfl⟩

/-! ### Items and fields -/

section

variable {item : Json} {items : List Json} {fields : List (String × Json)} {name : List Char}

theorem value_of_closing {r : Rest s} (h : nextMark? s = some (']', r)) : value s = none := by
  rw [value, h]
  rfl

theorem itemList_of_closing {r : Rest s} (h : nextMark? s = some (']', r)) :
    itemList s = none := by
  rw [itemList, value_of_closing h]
  rfl

theorem reads_itemList_last (h : Reads (value s) item (']' :: rest)) :
    Reads (itemList s) [item] rest := by
  obtain ⟨hclose, h⟩ := h
  rw [itemList, h]
  simp only [Option.bind_eq_bind, Option.bind_some, nextMark?_cons (c := ']') rfl]
  exact ⟨_, rfl⟩

theorem reads_itemList_cons (h : Reads (value s) item (',' :: t))
    (hitems : Reads (itemList t) items rest) : Reads (itemList s) (item :: items) rest := by
  obtain ⟨hcomma, h⟩ := h
  obtain ⟨hrest, hitems⟩ := hitems
  rw [itemList, h]
  simp only [Option.bind_eq_bind, Option.bind_some, nextMark?_cons (c := ',') rfl, hitems]
  exact ⟨_, rfl⟩

theorem reads_value_array_nil (rest : List Char) :
    Reads (value ('[' :: ']' :: rest)) (.array []) rest := by
  rw [value, nextMark?_cons rfl]
  simp only [nextMark?_cons (c := ']') rfl]
  exact ⟨_, rfl⟩

theorem reads_value_array (h : Reads (itemList s) items rest) :
    Reads (value ('[' :: s)) (.array items) rest := by
  obtain ⟨hrest, h⟩ := h
  rw [value, nextMark?_cons rfl]
  simp only
  split
  · rename_i hclose
    rw [itemList_of_closing hclose] at h
    cases h
  · simp only [h, Option.bind_eq_bind, Option.bind_some]
    exact ⟨_, rfl⟩

theorem reads_fieldList_last (hname : Reads (textBody s) name (':' :: t))
    (hitem : Reads (value t) item ('\x7d' :: rest)) :
    Reads (fieldList ('"' :: s)) [(String.ofList name, item)] rest := by
  obtain ⟨hcolon, hname⟩ := hname
  obtain ⟨hclose, hitem⟩ := hitem
  rw [fieldList, nextMark?_cons rfl]
  simp only [hname, Option.bind_eq_bind, Option.bind_some, nextMark?_cons (c := ':') rfl, hitem,
    nextMark?_cons (c := '\x7d') rfl]
  exact ⟨_, rfl⟩

theorem reads_fieldList_cons {u : List Char} (hname : Reads (textBody s) name (':' :: t))
    (hitem : Reads (value t) item (',' :: u)) (hfields : Reads (fieldList u) fields rest) :
    Reads (fieldList ('"' :: s)) ((String.ofList name, item) :: fields) rest := by
  obtain ⟨hcolon, hname⟩ := hname
  obtain ⟨hcomma, hitem⟩ := hitem
  obtain ⟨hrest, hfields⟩ := hfields
  rw [fieldList, nextMark?_cons rfl]
  simp only [hname, Option.bind_eq_bind, Option.bind_some, nextMark?_cons (c := ':') rfl, hitem,
    nextMark?_cons (c := ',') rfl, hfields]
  exact ⟨_, rfl⟩

theorem reads_value_object_nil (rest : List Char) :
    Reads (value ('\x7b' :: '\x7d' :: rest)) (.object []) rest := by
  rw [value, nextMark?_cons rfl]
  simp only [nextMark?_cons (c := '\x7d') rfl]
  exact ⟨_, rfl⟩

theorem reads_value_object (h : Reads (fieldList ('"' :: s)) fields rest) :
    Reads (value ('\x7b' :: '"' :: s)) (.object fields) rest := by
  obtain ⟨hrest, h⟩ := h
  rw [value, nextMark?_cons rfl]
  simp only [nextMark?_cons (c := '"') rfl, h, Option.bind_eq_bind, Option.bind_some]
  exact ⟨_, rfl⟩

end

/-! ### Written values -/

theorem compactItems_eq_map (items : List Json) : compactItems items = items.map compact := by
  induction items with
  | nil => rfl
  | cons item items ih => rw [compactItems, ih, List.map_cons]

/-- The text of a field. -/
def fieldText (field : String × Json) : String := quote field.1 ++ ":" ++ field.2.compact

theorem compactFields_eq_map (fields : List (String × Json)) :
    compactFields fields = fields.map fieldText := by
  induction fields with
  | nil => rfl
  | cons field fields ih =>
    obtain ⟨name, item⟩ := field
    rw [compactFields, ih, List.map_cons, fieldText]

/-- Whether an integer is one of a signed or of an unsigned 64-bit word. -/
def IsWord (n : Int) : Prop := -0x8000000000000000 ≤ n ∧ n < UInt64.size

/-- Whether all numbers in a value are integers of 64 bits. -/
inductive Writable : Json → Prop where
  | null : Writable .null
  | bool (b : Bool) : Writable (.bool b)
  | integer {n : Int} : IsWord n → Writable (.integer n)
  | text (s : String) : Writable (.text s)
  | array {items : List Json} : (∀ item ∈ items, Writable item) → Writable (.array items)
  | object {fields : List (String × Json)} : (∀ field ∈ fields, Writable field.2) →
      Writable (.object fields)

/-- Whether a value is read back from its text, whatever follows that can end a number. -/
def IsRead (v : Json) : Prop :=
  ∀ rest, Ends rest → Reads (value (v.compact.toList ++ rest)) v rest

theorem isRead_integer {n : Int} (h : IsWord n) : IsRead (.integer n) := by
  intro rest hrest
  obtain ⟨hlow, hhigh⟩ := h
  rw [compact, Int.toString_eq_repr, Int.repr_eq_if]
  by_cases hn : 0 ≤ n
  · rw [if_pos hn]
    have hread := reads_number_natural hrest (n := n.toNat) (by omega)
    obtain ⟨first, more, hcons, hfirst⟩ := exists_toDigits_eq_cons n.toNat
    rw [hcons, Int.toNat_of_nonneg hn] at hread
    rw [Nat.toList_repr, hcons]
    exact reads_value_number (.inl hfirst) hread
  · rw [if_neg hn]
    have hread := reads_number_negative hrest (n := (-n).toNat) (by omega) (by omega)
    rw [Int.toNat_of_nonneg (by omega), Int.neg_neg] at hread
    rw [String.toList_append, Nat.toList_repr]
    exact reads_value_number (.inr rfl) hread

theorem isRead_text (s : String) : IsRead (.text s) := by
  intro rest hrest
  have htext : (compact (.text s)).toList ++ rest
      = '"' :: (s.toList.flatMap escape ++ '"' :: rest) := by
    simp [compact, quote]
  have hread := reads_value_text (reads_textBody s.toList rest)
  rw [String.ofList_toList] at hread
  rwa [htext]

/-- Items with commas between them are read back up to the closing bracket. -/
theorem reads_items {items : List Json} (hne : items ≠ []) (h : ∀ item ∈ items, IsRead item)
    (rest : List Char) :
    Reads (itemList ((",".intercalate (items.map compact)).toList ++ ']' :: rest)) items rest := by
  induction items with
  | nil => exact absurd rfl hne
  | cons item items ih =>
    obtain ⟨hitem, hitems⟩ := List.forall_mem_cons.1 h
    cases items with
    | nil =>
      rw [List.map_singleton, String.intercalate_singleton]
      exact reads_itemList_last (hitem _ (ends_cons (by decide) rest))
    | cons second items =>
      have htext : (",".intercalate ((item :: second :: items).map compact)).toList ++ ']' :: rest
          = item.compact.toList ++ ','
            :: ((",".intercalate ((second :: items).map compact)).toList ++ ']' :: rest) := by
        simp [String.intercalate_cons_cons]
      rw [htext]
      exact reads_itemList_cons (hitem _ (ends_cons (by decide) _))
        (ih (List.cons_ne_nil _ _) hitems)

theorem toList_fieldText (field : String × Json) (rest : List Char) :
    (fieldText field).toList ++ rest
      = '"' :: (field.1.toList.flatMap escape
          ++ '"' :: ':' :: (field.2.compact.toList ++ rest)) := by
  simp [fieldText, quote]

/-- Fields with commas between them are read back up to the closing brace. -/
theorem reads_fields {fields : List (String × Json)} (hne : fields ≠ [])
    (h : ∀ field ∈ fields, IsRead field.2) (rest : List Char) :
    ∃ s, (",".intercalate (fields.map fieldText)).toList ++ '\x7d' :: rest = '"' :: s
      ∧ Reads (fieldList ('"' :: s)) fields rest := by
  induction fields with
  | nil => exact absurd rfl hne
  | cons field fields ih =>
    obtain ⟨hfield, hfields⟩ := List.forall_mem_cons.1 h
    cases fields with
    | nil =>
      rw [List.map_singleton, String.intercalate_singleton, toList_fieldText]
      have hread := reads_fieldList_last (reads_textBody field.1.toList _)
        (hfield _ (ends_cons (by decide) rest))
      rw [String.ofList_toList] at hread
      exact ⟨_, rfl, hread⟩
    | cons second fields =>
      obtain ⟨s, htext, hrest⟩ := ih (List.cons_ne_nil _ _) hfields
      rw [List.map_cons] at htext
      rw [List.map_cons, List.map_cons, String.intercalate_cons_cons]
      simp only [String.toList_append, List.append_assoc, htext]
      rw [toList_fieldText]
      have hread := reads_fieldList_cons (reads_textBody field.1.toList _)
        (hfield _ (ends_cons (by decide) _)) hrest
      rw [String.ofList_toList] at hread
      exact ⟨_, rfl, hread⟩

/-- **Reading what was written.** A value whose numbers are integers of 64 bits is read back from
    its text, up to what follows it. -/
theorem isRead_of_writable {v : Json} (h : v.Writable) : v.IsRead := by
  induction h with
  | null =>
    intro rest _
    exact reads_value_null rest
  | bool b =>
    intro rest _
    cases b with
    | false => exact reads_value_false rest
    | true => exact reads_value_true rest
  | integer h => exact isRead_integer h
  | text s => exact isRead_text s
  | @array items _ ih =>
    intro rest _
    by_cases hne : items = []
    · subst hne
      exact reads_value_array_nil rest
    · have htext : (compact (.array items)).toList ++ rest
          = '[' :: ((",".intercalate (items.map compact)).toList ++ ']' :: rest) := by
        simp [compact, compactItems_eq_map]
      rw [htext]
      exact reads_value_array (reads_items hne ih rest)
  | @object fields _ ih =>
    intro rest _
    by_cases hne : fields = []
    · subst hne
      exact reads_value_object_nil rest
    · obtain ⟨s, hs, hread⟩ := reads_fields hne ih rest
      have htext : (compact (.object fields)).toList ++ rest = '\x7b' :: '"' :: s := by
        simp [compact, compactFields_eq_map, ← hs]
      rw [htext]
      exact reads_value_object hread

/-- The text of such a value denotes it. -/
theorem parse?_compact {v : Json} (h : v.Writable) : parse? v.compact = some v := by
  have hread := isRead_of_writable h [] ends_nil
  rw [List.append_nil] at hread
  obtain ⟨hrest, hread⟩ := hread
  unfold parse?
  simp only [hread, Option.bind_eq_bind, Option.bind_some]
  rfl

end Chiptune.Json
