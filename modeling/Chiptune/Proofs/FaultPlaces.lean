import Chiptune.Proofs.Compile

namespace Chiptune.Pattern

open Grammar
open SyntaxError (Kind)

/-!
# Where the faults of pattern text are

A fault has an offset in the text and a kind, and the kind says what is to be found there.

* `unclosed` — the groups that are open behind some text;
* `Describes` — what a kind of fault says about the text at an offset;
* `Stands` — what is known of a cursor that has come to its place in the text, which each reading
  function keeps;
* `Locates` — reading that keeps it, or ends with a fault that is as its kind says.
-/

/-! ### Open groups -/

/-- The offsets of the parentheses that are open behind text, innermost first, when the text begins
    at `offset` inside of `groups`. Behind a quote any byte stands for itself. -/
def unclosedFrom : (quoted : Bool) → (offset : Nat) → (groups : List Nat) → List UInt8 → List Nat
  | _, _, groups, [] => groups
  | true, offset, groups, _ :: rest => unclosedFrom false (offset + 1) groups rest
  | false, offset, groups, b :: rest =>
    if b = byte '\'' then unclosedFrom true (offset + 1) groups rest
    else if b = byte '(' then unclosedFrom false (offset + 1) (offset :: groups) rest
    else if b = byte ')' then unclosedFrom false (offset + 1) groups.tail rest
    else unclosedFrom false (offset + 1) groups rest

/-- The offsets of the parentheses that are open behind `t`, innermost first. -/
def unclosed (t : List UInt8) : List Nat := unclosedFrom false 0 [] t

/-- The bytes that neither quote others nor open or close a group. -/
def IsPlain (b : UInt8) : Prop := b < 0x80 ∧ b ≠ byte '\'' ∧ b ≠ byte '(' ∧ b ≠ byte ')'

instance (b : UInt8) : Decidable (IsPlain b) := by unfold IsPlain; infer_instance

theorem unclosedFrom_plain {b : UInt8} (h : IsPlain b) (offset : Nat) (groups : List Nat)
    (rest : List UInt8) :
    unclosedFrom false offset groups (b :: rest)
      = unclosedFrom false (offset + 1) groups rest := by
  obtain ⟨-, hquote, hopen, hclose⟩ := h
  rw [unclosedFrom, if_neg hquote, if_neg hopen, if_neg hclose]

theorem unclosedFrom_append_of_plain {u : List UInt8} (h : ∀ b ∈ u, IsPlain b) (offset : Nat)
    (groups : List Nat) (rest : List UInt8) :
    unclosedFrom false offset groups (u ++ rest)
      = unclosedFrom false (offset + u.length) groups rest := by
  induction u generalizing offset with
  | nil => rfl
  | cons b u ih =>
    rw [List.cons_append, unclosedFrom_plain (h b List.mem_cons_self),
      ih fun b' hb' => h b' (List.mem_cons_of_mem _ hb'), List.length_cons]
    congr 1
    omega

/-! ### What faults say -/

/-- The bytes that items begin with. -/
def starts : List UInt8 := Window.ascii "(+?%'" ++ nibbles.map (·.1)

/-- What a fault says about the text `t` at its offset. An invalid count and too many positions are
    found at some place, and nothing more is said. -/
def Describes (t : List UInt8) (offset : Nat) : Kind → Prop
  | .empty => (offset = 0 ∧ Space t)
    ∨ ∃ s rest, t.drop offset = byte '(' :: (s ++ byte ')' :: rest) ∧ Space s
      ∧ (unclosed (t.take (offset + 1))).head? = some offset
  | .unbalancedGroup => (t[offset]? = some (byte ')') ∧ unclosed (t.take offset) = [])
    ∨ (t[offset]? = some (byte '(') ∧ (unclosed t).head? = some offset)
  | .invalidNibble => ∃ b, t[offset]? = some b ∧ ∀ nibble, (b, nibble) ∉ nibbles
  | .invalidBit => ∃ b, t[offset]? = some b ∧ ∀ bit, (b, bit) ∉ marks
  | .invalidRange => ∃ u u' low lowMask high highMask rest,
    t.drop offset = u ++ byte '-' :: (u' ++ rest) ∧ Byte u low lowMask ∧ Byte u' high highMask
      ∧ ¬(lowMask = 0xff ∧ highMask = 0xff ∧ low ≤ high)
  | .danglingOperator => (t[offset]? = some (byte '&') ∨ t[offset]? = some (byte '|'))
    ∧ ¬StartsClass ((t.drop (offset + 1)).dropWhile Cursor.isSpace)
  | .unexpectedCharacter => ∃ b, t[offset]? = some b ∧ b ∉ spaces ∧ b ∉ starts ∧ b ≠ byte ')'
  | .unexpectedEnd => offset = t.length
  | .invalidQuantifier => True
  | .tooLong => True

/-- Whether a kind of fault is about one byte. -/
def OfByte (kind : Kind) : Prop :=
  kind = .invalidNibble ∨ kind = .invalidBit ∨ kind = .unexpectedCharacter

instance (kind : Kind) : Decidable (OfByte kind) := by unfold OfByte; infer_instance

/-! ### Cursors in a text -/

/-- What is known of a cursor at its place in the text `t`: only ASCII characters come before it. -/
structure Within (t : List UInt8) (c : Cursor) : Prop where
  rest : c.rest = t.drop c.offset
  offset_le : c.offset ≤ t.length
  ascii : ∀ b ∈ t.take c.offset, b < 0x80

/-- The same at a place that is not behind a quote, where `groups` are the groups that are open. -/
structure Stands (t : List UInt8) (groups : List Nat) (c : Cursor) : Prop extends Within t c where
  nesting : ∀ behind, unclosedFrom false 0 [] (t.take c.offset ++ behind)
    = unclosedFrom false c.offset groups behind
  opens : ∀ o ∈ groups, o < c.offset ∧ t[o]? = some (byte '(')

namespace Cursor

variable {c : Cursor}

theorem offset_of_next? {b : UInt8} {d : c.After} (h : c.next? = some (b, d)) :
    d.1.offset = c.offset + 1 := by
  rcases c with ⟨_ | ⟨b', rest⟩, offset⟩
  · cases h
  · cases h
    rfl

theorem offset_skipSpace (c : Cursor) :
    c.skipSpace.1.offset = c.offset + (c.rest.takeWhile isSpace).length := rfl

end Cursor

namespace Within

variable {t : List UInt8} {c d : Cursor} {b : UInt8}

theorem start (t : List UInt8) : Within t ⟨t, 0⟩ where
  rest := rfl
  offset_le := Nat.zero_le _
  ascii _ h := by cases h

theorem offset_add_left (h : Within t c) : c.offset + c.left = t.length := by
  rw [Cursor.left, h.rest, List.length_drop, Nat.add_sub_of_le h.offset_le]

/-- Of two cursors in a text, the one with less unread text is behind the other. -/
theorem offset_le_offset (h : Within t c) (h' : Within t d) (hleft : d.left ≤ c.left) :
    c.offset ≤ d.offset := by
  have hc := h.offset_add_left
  have hd := h'.offset_add_left
  omega

theorem take_offset {u : List UInt8} (h : Within t c) (hrest : c.rest = u ++ d.rest)
    (hoffset : d.offset = c.offset + u.length) : t.take d.offset = t.take c.offset ++ u := by
  rw [hoffset, List.take_add, ← h.rest, hrest, List.take_left]

/-- Past some ASCII characters. -/
theorem move {u : List UInt8} (h : Within t c) (hrest : c.rest = u ++ d.rest)
    (hoffset : d.offset = c.offset + u.length) (hascii : ∀ b ∈ u, b < 0x80) : Within t d where
  rest := by rw [hoffset, ← List.drop_drop, ← h.rest, hrest, List.drop_left]
  offset_le := by
    have hlength := congrArg List.length hrest
    rw [h.rest, List.length_drop, List.length_append] at hlength
    have hle := h.offset_le
    omega
  ascii := by
    rw [h.take_offset hrest hoffset]
    intro b hb
    rcases List.mem_append.1 hb with hb | hb
    · exact h.ascii b hb
    · exact hascii b hb

theorem next (h : Within t c) {e : c.After} (hnext : c.next? = some (b, e)) (hb : b < 0x80) :
    Within t e.1 :=
  h.move (u := [b]) (Cursor.rest_of_next?_eq_some hnext) (Cursor.offset_of_next? hnext)
    (List.forall_mem_singleton.2 hb)

theorem getElem?_of_next? (h : Within t c) {e : c.After} (hnext : c.next? = some (b, e)) :
    t[c.offset]? = some b := by
  rw [← List.head?_drop, ← h.rest, Cursor.rest_of_next?_eq_some hnext]
  rfl

theorem offset_eq_length (h : Within t c) (hnext : c.next? = none) : c.offset = t.length := by
  have hleft := h.offset_add_left
  rwa [Cursor.left, Cursor.rest_of_next?_eq_none hnext] at hleft

end Within

namespace Stands

variable {t : List UInt8} {groups groups' : List Nat} {c d : Cursor}

theorem start (t : List UInt8) : Stands t [] ⟨t, 0⟩ where
  toWithin := .start t
  nesting _ := rfl
  opens := List.forall_mem_nil _

/-- Past some text that changes the open groups in a known way. -/
theorem move {u : List UInt8} (h : Stands t groups c) (hrest : c.rest = u ++ d.rest)
    (hoffset : d.offset = c.offset + u.length) (hascii : ∀ b ∈ u, b < 0x80)
    (hgroups : ∀ behind, unclosedFrom false c.offset groups (u ++ behind)
      = unclosedFrom false d.offset groups' behind)
    (hopens : ∀ o ∈ groups', o < d.offset ∧ t[o]? = some (byte '(')) : Stands t groups' d where
  toWithin := h.toWithin.move hrest hoffset hascii
  nesting behind := by
    rw [h.take_offset hrest hoffset, List.append_assoc, h.nesting, hgroups]
  opens := hopens

/-- Past plain text. -/
theorem plain {u : List UInt8} (h : Stands t groups c) (hrest : c.rest = u ++ d.rest)
    (hoffset : d.offset = c.offset + u.length) (hplain : ∀ b ∈ u, IsPlain b) :
    Stands t groups d := by
  refine h.move hrest hoffset (fun b hb => (hplain b hb).1) (fun behind => ?_) fun o ho => ?_
  · rw [hoffset, unclosedFrom_append_of_plain hplain]
  · obtain ⟨hlt, hopen⟩ := h.opens o ho
    exact ⟨by omega, hopen⟩

end Stands

theorem isPlain_of_mem_spaces {b : UInt8} (h : b ∈ spaces) : IsPlain b := by
  have hall : spaces.all (fun b => decide (IsPlain b)) = true := by decide
  exact of_decide_eq_true (List.all_eq_true.1 hall b h)

namespace Stands

variable {t : List UInt8} {groups : List Nat} {c d : Cursor} {b : UInt8}

theorem next (h : Stands t groups c) {e : c.After} (hnext : c.next? = some (b, e))
    (hplain : IsPlain b) : Stands t groups e.1 := by
  have hrest : c.rest = [b] ++ e.1.rest := Cursor.rest_of_next?_eq_some hnext
  exact h.plain hrest (Cursor.offset_of_next? hnext) (List.forall_mem_singleton.2 hplain)

theorem skipSpace (h : Stands t groups c) : Stands t groups c.skipSpace.1 := by
  have hrest : c.rest = c.rest.takeWhile Cursor.isSpace ++ c.skipSpace.1.rest := by
    rw [c.rest_skipSpace, List.takeWhile_append_dropWhile]
  exact h.plain hrest c.offset_skipSpace fun b hb =>
    isPlain_of_mem_spaces (space_takeWhile c.rest b hb)

theorem exists_skipSpace (h : Stands t groups c) :
    ∃ (d : Cursor) (hd : d.left ≤ c.left), c.skipSpace = ⟨d, hd⟩ ∧ Stands t groups d :=
  ⟨_, _, rfl, h.skipSpace⟩

/-- The groups that are open are those of the text that has been read. -/
theorem unclosed_take (h : Stands t groups c) : unclosed (t.take c.offset) = groups := by
  have hnesting := h.nesting []
  rwa [List.append_nil, unclosedFrom] at hnesting

/-- Past a parenthesis that opens a group. -/
theorem opened (h : Stands t groups c) {e : c.After}
    (hnext : c.next? = some (byte '(', e)) : Stands t (c.offset :: groups) e.1 := by
  have hrest : c.rest = [byte '('] ++ e.1.rest := Cursor.rest_of_next?_eq_some hnext
  have hoffset := Cursor.offset_of_next? hnext
  have hascii : ∀ b ∈ [byte '('], b < 0x80 := List.forall_mem_singleton.2 (by decide)
  refine h.move hrest hoffset hascii (fun behind => by rw [hoffset]; rfl) fun o ho => ?_
  rcases List.mem_cons.1 ho with rfl | ho
  · refine ⟨by omega, ?_⟩
    rw [← List.head?_drop, ← h.rest, hrest]
    rfl
  · obtain ⟨hlt, hopen⟩ := h.opens o ho
    exact ⟨by omega, hopen⟩

/-- Past a parenthesis that closes one. -/
theorem closed (h : Stands t groups c) {e : c.After}
    (hnext : c.next? = some (byte ')', e)) : Stands t groups.tail e.1 := by
  have hrest : c.rest = [byte ')'] ++ e.1.rest := Cursor.rest_of_next?_eq_some hnext
  have hoffset := Cursor.offset_of_next? hnext
  have hascii : ∀ b ∈ [byte ')'], b < 0x80 := List.forall_mem_singleton.2 (by decide)
  refine h.move hrest hoffset hascii (fun behind => by rw [hoffset]; rfl) fun o ho => ?_
  obtain ⟨hlt, hopen⟩ := h.opens o (List.mem_of_mem_tail ho)
  exact ⟨by omega, hopen⟩

/-- Past a quote and the character that it quotes. -/
theorem quoted (h : Stands t groups c) {e : c.After} {f : e.1.After}
    (hnext : c.next? = some (byte '\'', e)) (hnext' : e.1.next? = some (b, f)) (hb : b < 0x80) :
    Stands t groups f.1 := by
  have hrest : c.rest = [byte '\'', b] ++ f.1.rest := by
    rw [Cursor.rest_of_next?_eq_some hnext, Cursor.rest_of_next?_eq_some hnext']
    rfl
  have hoffset : f.1.offset = c.offset + 2 := by
    rw [Cursor.offset_of_next? hnext', Cursor.offset_of_next? hnext]
  refine h.move hrest hoffset ?_ (fun behind => by rw [hoffset]; rfl) fun o ho => ?_
  · intro b' hb'
    rcases List.mem_cons.1 hb' with rfl | hb'
    · decide
    · exact List.mem_singleton.1 hb' ▸ hb
  · obtain ⟨hlt, hopen⟩ := h.opens o ho
    exact ⟨by omega, hopen⟩

end Stands

/-! ### Reading in a text -/

/-- What is known of a fault that is found in the text `t` when `c` is where reading begins: only
    ASCII characters come before it, and it is as its kind says. -/
structure Blames (t : List UInt8) (c : Cursor) (e : SyntaxError) : Prop where
  offset_le : e.offset ≤ t.length
  ascii : ∀ b ∈ t.take e.offset, b < 0x80
  describes : Describes t e.offset e.kind
  behind : OfByte e.kind → c.offset ≤ e.offset

/-- Reading from `c` on, in the text `t`, that has a result with `P` or finds a fault that is as its
    kind says. -/
structure Locates {α : Type} (t : List UInt8) (c : Cursor) (x : Except SyntaxError α)
    (P : α → Prop) : Prop where
  ok : ∀ a, x = .ok a → P a
  error : ∀ e, x = .error e → Blames t c e

section

variable {α β : Type} {t : List UInt8} {c d : Cursor} {kind : Kind}
  {e : SyntaxError} {x : Except SyntaxError α} {f : α → Except SyntaxError β} {P : α → Prop}
  {Q : β → Prop}

theorem Within.blames (h : Within t c) (hkind : Describes t c.offset kind) :
    Blames t c (c.fault kind) := ⟨h.offset_le, h.ascii, hkind, fun _ => Nat.le_refl _⟩

theorem Within.blames_end (h : Within t c) (hnext : c.next? = none) :
    Blames t c (c.fault .unexpectedEnd) := h.blames (h.offset_eq_length hnext)

theorem Within.blames_count (h : Within t c) : Blames t c (c.fault .invalidQuantifier) :=
  h.blames trivial

theorem Blames.mono (h : Blames t d e) (hle : c.offset ≤ d.offset) : Blames t c e :=
  { h with behind := fun hkind => Nat.le_trans hle (h.behind hkind) }

theorem locates_ok {a : α} (h : P a) : Locates t c (.ok a) P where
  ok b hb := by
    cases hb
    exact h
  error e he := by cases he

theorem locates_error (h : Blames t c e) : Locates t c (.error e) P where
  ok a ha := by cases ha
  error e he := by
    cases he
    exact h

theorem Locates.bind (hx : Locates t c x P)
    (hf : ∀ a, x = .ok a → P a → Locates t c (f a) Q) : Locates t c (x >>= f) Q := by
  cases x with
  | ok a => exact hf a rfl (hx.ok a rfl)
  | error e => exact locates_error (hx.error e rfl)

/-- Reading that begins further on. -/
theorem Locates.mono (h : Locates t d x P) (hle : c.offset ≤ d.offset) : Locates t c x P :=
  ⟨h.ok, fun e he => (h.error e he).mono hle⟩

end

end Chiptune.Pattern
