import Chiptune.Proofs.ReadSequences

namespace Chiptune.Pattern

open Grammar

/-!
# Compiling patterns

* `clear_of_derives`, `length_pos_of_derives` — what text of the grammar begins with, and that it
  has positions;
* `advances_of_derives` — text of the grammar is read in full, unless it is too long;
* `derives_of_compile`, `compile_of_derives` — what is compiled is text of the grammar, and text of
  the grammar is compiled.
-/

/-! ### Passing over white space -/

theorem Cursor.exists_next?_of_drop {c : Cursor} {b : UInt8} {rest : List UInt8}
    (h : c.rest.dropWhile isSpace = b :: rest) :
    ∃ (d : Cursor) (hd : d.left ≤ c.left) (e : d.After), c.skipSpace = ⟨d, hd⟩
      ∧ d.next? = some (b, e) ∧ d.rest = b :: rest ∧ e.1.rest = rest := by
  obtain ⟨⟨d, hd⟩, hskip⟩ : ∃ d, c.skipSpace = d := ⟨_, rfl⟩
  have hdrest : d.rest = b :: rest := by
    have hrest := c.rest_skipSpace
    rw [hskip, h] at hrest
    exact hrest
  obtain ⟨e, hnext, herest⟩ := next?_of_rest_eq_cons hdrest
  exact ⟨d, hd, e, hskip, hnext, hdrest, herest⟩

theorem Cursor.exists_end_of_drop {c : Cursor} (h : c.rest.dropWhile isSpace = []) :
    ∃ (d : Cursor) (hd : d.left ≤ c.left), c.skipSpace = ⟨d, hd⟩ ∧ d.next? = none := by
  obtain ⟨⟨d, hd⟩, hskip⟩ : ∃ d, c.skipSpace = d := ⟨_, rfl⟩
  have hdrest : d.rest = [] := by
    have hrest := c.rest_skipSpace
    rw [hskip, h] at hrest
    exact hrest
  exact ⟨d, hd, hskip, next?_of_rest_eq_nil hdrest⟩

/-! ### What text of each kind begins with -/

/-- The bytes that continue the item before them. -/
def continuations : List UInt8 := [byte '|', byte '&', byte '-', byte '\x7b']

/-- Whether `b` can only begin an item. -/
def Opens (b : UInt8) : Prop := b ∉ spaces ∧ b ∉ continuations ∧ b ≠ byte ')'

theorem opens_of_startsClass {b : UInt8} (h : startsClass b = true) : Opens b := by
  have hall : ∀ b, startsClass b = true → b ∉ spaces ∧ b ∉ continuations ∧ b ≠ byte ')' :=
    forall_byte (by decide +kernel)
  exact hall b h

theorem item_head {padded : Bool} {t : List UInt8} {cs : List ByteClass}
    (h : Derives padded .item t cs) : ∃ b t', t = b :: t' ∧ Opens b := by
  cases h with
  | condition ht _ =>
    obtain ⟨b, t', hb, rfl⟩ := startsClass_of_alternation ht
    exact ⟨b, _, rfl, opens_of_startsClass hb⟩
  | group _ _ => exact ⟨byte '(', _, rfl, by unfold Opens; decide⟩
  | skip _ => exact ⟨byte '+', _, rfl, by unfold Opens; decide⟩

/-- Nothing that can be derived continues an item before it. -/
theorem clear_of_derives {padded : Bool} {phrase : Phrase} {t : List UInt8} {cs : List ByteClass}
    (h : Derives padded phrase t cs) (rest : List UInt8) : Clear continuations (t ++ rest) := by
  have hitem : ∀ {t cs}, Derives padded .item t cs → ∀ rest, Clear continuations (t ++ rest) := by
    intro t cs h rest
    obtain ⟨b, t', rfl, hspace, hb, -⟩ := item_head h
    exact clear_cons hspace hb
  induction h generalizing rest with
  | condition ht hq => exact hitem (.condition ht hq) rest
  | group hseq hq _ => exact hitem (.group hseq hq) rest
  | skip ht => exact hitem (.skip ht) rest
  | last _ ih => exact ih rest
  | more _ _ _ ih _ =>
    rw [List.append_assoc]
    exact ih _
  | sequence hpad _ _ ih =>
    rw [List.append_assoc, List.append_assoc]
    exact (ih _).append hpad.space

theorem quantifier_pos {q : List UInt8} {n : Nat} (h : Quantifier q n) : 0 < n := by
  cases h with
  | once => exact Nat.one_pos
  | times _ ht => exact ht.positive

/-- Everything that can be derived has a position. -/
theorem length_pos_of_derives {padded : Bool} {phrase : Phrase} {t : List UInt8}
    {cs : List ByteClass} (h : Derives padded phrase t cs) : 0 < cs.length := by
  induction h with
  | condition _ hq =>
    rw [List.length_replicate]
    exact quantifier_pos hq
  | group _ hq ih =>
    rw [length_copies]
    exact Nat.mul_pos (quantifier_pos hq) ih
  | skip ht =>
    rw [List.length_replicate]
    exact ht.positive
  | last _ ih => exact ih
  | more _ _ _ ih _ =>
    rw [List.length_append]
    exact Nat.add_pos_left ih _
  | sequence _ _ _ ih => exact ih

/-! ### Completeness -/

/-- What reading an item gives when it is `cs` in full, with `rest` behind it: the item, or the
    complaint that it is too long. -/
def ReadsItem {c : Cursor} (r : Read Item c) (cs : List ByteClass) (rest : List UInt8) : Prop :=
  (∃ (item : Item) (d : c.After), r = .ok (item, d)
    ∧ (List.replicate item.2 item.1.toList).flatten = cs
    ∧ d.1.rest.dropWhile Cursor.isSpace = rest.dropWhile Cursor.isSpace)
  ∨ (maxLength < cs.length ∧ TooLong r)

/-- Reading goes over `t` and adds `cs`, whatever comes before and behind it, unless that is too
    long. -/
def Advances (t : List UInt8) (cs : List ByteClass) : Prop :=
  ∀ (start : Cursor) (opened : Option Nat) (classes : Array ByteClass) (c : Cursor)
    (hc : c.left ≤ start.left) (rest : List UInt8),
    c.rest.dropWhile Cursor.isSpace = (t ++ rest).dropWhile Cursor.isSpace →
    Clear continuations rest →
    (∃ (longer : Array ByteClass) (d : Cursor) (hd : d.left ≤ start.left),
      readSequence start opened classes c hc = readSequence start opened longer d hd
      ∧ longer.toList = classes.toList ++ cs
      ∧ d.rest.dropWhile Cursor.isSpace = rest.dropWhile Cursor.isSpace)
    ∨ (maxLength < classes.size + cs.length
      ∧ TooLong (readSequence start opened classes c hc))

theorem maxLength_lt_of_not_word {n : Nat} (h : ¬ n < UInt64.size) : maxLength < n := by
  have hword : maxLength < UInt64.size := by decide
  exact Nat.lt_of_lt_of_le hword (Nat.not_lt.1 h)

theorem Clear.of_continuations {rest : List UInt8} {b : UInt8} (h : Clear continuations rest)
    (hb : b ∈ continuations) : Clear [b] rest :=
  h.mono fun _ hb' => List.mem_singleton.1 hb' ▸ hb

theorem readsItem_condition {c : Cursor} {t q rest : List UInt8} {condition : ByteClass} {n : Nat}
    (ht : Alternation t condition) (hq : Quantifier q n) (hc : c.rest = t ++ (q ++ rest))
    (hclear : Clear continuations rest) :
    ReadsItem (readCondition c) (List.replicate n condition) rest := by
  -- No operator comes next, whether or not there is a quantifier.
  have hnext : Clear [byte '|', byte '&', byte '-'] (q ++ rest) := by
    cases hq with
    | once =>
      apply hclear.mono
      intro b hb
      exact List.mem_append_left [byte '\x7b'] hb
    | times hs _ =>
      rw [List.append_assoc]
      exact (clear_cons (by decide) (by decide)).append hs
  obtain ⟨d, hcondition, hdrest⟩ := complete_readAlternation c _ _ _ ht hc hnext
  have hquantifier := readQuantifier_of_quantifier hq hdrest (hclear.of_continuations (by decide))
  unfold ReadsItem readCondition
  rw [hcondition]
  by_cases hsmall : n < UInt64.size
  · rw [if_pos hsmall] at hquantifier
    obtain ⟨e, hread, herest⟩ := hquantifier
    refine .inl ⟨(#[condition], n), d.onward e, ?_, ?_, herest⟩
    · simp only [bind, Except.bind, hread]
      rfl
    · exact List.flatten_replicate_singleton
  · rw [if_neg hsmall] at hquantifier
    obtain ⟨offset, hread⟩ := hquantifier
    refine .inr ⟨?_, offset, ?_⟩
    · rw [List.length_replicate]
      exact maxLength_lt_of_not_word hsmall
    · simp only [bind, Except.bind, hread]

theorem readsItem_skip {c : Cursor} {e : c.After} {t rest : List UInt8} {n : Nat}
    (ht : Count t n) (hc : e.1.rest = t ++ byte '+' :: rest) :
    ReadsItem (readSkip c e) (List.replicate n .any) rest := by
  have hcount := readCount_of_count ht (by decide) hc
  unfold ReadsItem readSkip
  by_cases hsmall : n < UInt64.size
  · rw [if_pos hsmall] at hcount
    obtain ⟨d, hread, hdrest⟩ := hcount
    have hread : readCount '+'.toUInt8 e.1 = .ok (n, d) := hread
    refine .inl ⟨(#[.any], n), e.onward ⟨d.1, Nat.le_of_lt d.2⟩, ?_, ?_, ?_⟩
    · rw [hread]
      rfl
    · exact List.flatten_replicate_singleton
    · show d.1.rest.dropWhile Cursor.isSpace = rest.dropWhile Cursor.isSpace
      rw [hdrest]
  · rw [if_neg hsmall] at hcount
    obtain ⟨offset, hread⟩ := hcount
    have hread : readCount '+'.toUInt8 e.1 = .error ⟨offset, .tooLong⟩ := hread
    refine .inr ⟨?_, offset, ?_⟩
    · rw [List.length_replicate]
      exact maxLength_lt_of_not_word hsmall
    · rw [hread]
      rfl

theorem readsItem_group {c : Cursor} {e : c.After} {t q rest : List UInt8} {cs : List ByteClass}
    {n : Nat} (ih : Advances t cs) (hpos : 0 < cs.length) (hq : Quantifier q n)
    (hc : e.1.rest = t ++ byte ')' :: (q ++ rest)) (hclear : Clear continuations rest) :
    ReadsItem (readGroup c e) (List.replicate n cs).flatten rest := by
  have hcopies := length_copies n cs
  have hle : cs.length ≤ n * cs.length := Nat.le_mul_of_pos_left _ (quantifier_pos hq)
  have hle' : n ≤ n * cs.length := Nat.le_mul_of_pos_right _ hpos
  unfold ReadsItem readGroup
  obtain ⟨group, d, hd, hread, hgroup, hdrest⟩ | ⟨hlong, offset, hread⟩ :=
    ih e.1 (some c.offset) #[] e.1 (Nat.le_refl _) _ (by rw [hc])
      (clear_cons (by decide) (by decide))
  · -- Behind the content the parenthesis ends the group, which is not empty.
    rw [dropWhile_of_not_mem_spaces (by decide)] at hdrest
    obtain ⟨d', hd', ⟨f, hf⟩, hskip, hnext, -, hfrest⟩ := Cursor.exists_next?_of_drop hdrest
    have hgroup : group.toList = cs := hgroup
    have hempty : group.isEmpty = false := by
      rw [Array.isEmpty_eq_false_iff]
      rintro rfl
      rw [← hgroup] at hpos
      exact absurd hpos (by decide)
    rw [readSequence_of_close hskip hnext] at hread
    simp only at hread
    rw [hread]
    have hquantifier :=
      readQuantifier_of_quantifier hq hfrest (hclear.of_continuations (by decide))
    by_cases hsmall : n < UInt64.size
    · rw [if_pos hsmall] at hquantifier
      obtain ⟨g, hread, hgrest⟩ := hquantifier
      have hread : readQuantifier f = .ok (n, g) := hread
      have hfe : f.left ≤ e.1.left := Nat.le_trans (Nat.le_of_lt hf) (Nat.le_trans hd' hd)
      refine .inl ⟨(group, n), (e.onward ⟨f, hfe⟩).onward g, ?_, by rw [hgroup], hgrest⟩
      simp only [bind, Except.bind, hread, hempty, Bool.false_eq_true, if_false]
      rfl
    · rw [if_neg hsmall] at hquantifier
      obtain ⟨offset, hread⟩ := hquantifier
      have hread : readQuantifier f = .error ⟨offset, .tooLong⟩ := hread
      have hlarge := maxLength_lt_of_not_word hsmall
      refine .inr ⟨by omega, offset, ?_⟩
      simp only [bind, Except.bind, hread, hempty, Bool.false_eq_true, if_false]
  · -- One copy of the content is too long already.
    have hlong : maxLength < 0 + cs.length := hlong
    refine .inr ⟨by omega, offset, ?_⟩
    rw [hread]
    rfl

theorem readItem_of_startsClass {c : Cursor} {b : UInt8} {e : c.After}
    (h : startsClass b = true) : readItem c b e = readCondition c := by
  have hall : ∀ b, startsClass b = true → (b == '('.toUInt8) = false ∧ (b == '+'.toUInt8) = false :=
    forall_byte (by decide +kernel)
  obtain ⟨hparen, hplus⟩ := hall b h
  unfold readItem
  rw [hparen, hplus]
  rfl

theorem advances_of_item {b : UInt8} {t : List UInt8} {cs : List ByteClass} (hb : Opens b)
    (hitem : ∀ (c : Cursor) (e : c.After) (rest : List UInt8), c.rest = b :: (t ++ rest) →
      e.1.rest = t ++ rest → Clear continuations rest → ReadsItem (readItem c b e) cs rest) :
    Advances (b :: t) cs := by
  obtain ⟨hspace, -, hclose⟩ := hb
  intro start opened classes c hc rest hcrest hclear
  rw [List.cons_append, dropWhile_of_not_mem_spaces hspace] at hcrest
  obtain ⟨d, hd, e, hskip, hnext, hdrest, herest⟩ := Cursor.exists_next?_of_drop hcrest
  rw [readSequence_of_next? hskip hnext hclose]
  obtain ⟨⟨group, count⟩, ⟨g, hg⟩, hread, rfl, hgrest⟩ | ⟨hlong, offset, hread⟩ :=
    hitem d e rest hdrest herest hclear
  · have hrepeated := repeated_spec g classes group count
    split at hrepeated
    · obtain ⟨longer, hok, hlonger⟩ := hrepeated
      refine .inl ⟨longer, g, by omega, ?_, hlonger, hgrest⟩
      rw [hread]
      simp only [bind, Except.bind, hok]
    · rename_i hlong
      obtain ⟨offset, herror⟩ := hrepeated
      refine .inr ⟨?_, offset, ?_⟩
      · rw [length_copies, Array.length_toList, Nat.mul_comm]
        show maxLength < classes.size + group.size * count
        omega
      · rw [hread]
        simp only [bind, Except.bind, herror]
  · refine .inr ⟨by omega, offset, ?_⟩
    rw [hread]
    rfl

/-- Reading goes over all that can be derived. -/
theorem advances_of_derives {padded : Bool} {phrase : Phrase} {t : List UInt8}
    {cs : List ByteClass} (h : Derives padded phrase t cs) : Advances t cs := by
  -- Induction on the derivation. What was read before and what follows may be anything.
  induction h with
  | condition ht hq =>
    obtain ⟨b, t', hb, rfl⟩ := startsClass_of_alternation ht
    apply advances_of_item (opens_of_startsClass hb)
    intro c e rest hc _ hclear
    rw [readItem_of_startsClass hb]
    refine readsItem_condition ht hq ?_ hclear
    rw [hc]
    exact congrArg (b :: ·) (List.append_assoc _ _ _)
  | group hseq hq ih =>
    apply advances_of_item (by unfold Opens; decide)
    intro c e rest _ he hclear
    refine readsItem_group ih (length_pos_of_derives hseq) hq ?_ hclear
    rw [he, List.append_assoc]
    rfl
  | skip ht =>
    apply advances_of_item (by unfold Opens; decide)
    intro c e rest _ he _
    apply readsItem_skip ht
    rw [he, List.append_assoc]
    rfl
  | last _ ih => exact ih
  | more _ hs hitems ih ih' =>
    intro start opened classes c hc rest hcrest hclear
    simp only [List.append_assoc] at hcrest
    -- The next item begins what follows the first one, so it does not continue it.
    obtain ⟨longer, d, hd, hread, hlonger, hdrest⟩ | ⟨hlong, htoo⟩ :=
      ih start opened classes c hc _ hcrest ((clear_of_derives hitems rest).append hs)
    · rw [dropWhile_space hs] at hdrest
      have hsize := congrArg List.length hlonger
      rw [List.length_append, Array.length_toList, Array.length_toList] at hsize
      rw [hread]
      obtain ⟨all, e, he, hread', hall, herest⟩ | ⟨hlong, htoo⟩ :=
        ih' start opened longer d hd rest hdrest hclear
      · refine .inl ⟨all, e, he, hread', ?_, herest⟩
        rw [hall, hlonger, List.append_assoc]
      · refine .inr ⟨?_, htoo⟩
        rw [List.length_append]
        omega
    · refine .inr ⟨?_, htoo⟩
      rw [List.length_append]
      omega
  | sequence hpad _ hpad' ih =>
    intro start opened classes c hc rest hcrest hclear
    rw [List.append_assoc, dropWhile_space hpad.space, List.append_assoc] at hcrest
    have hall := ih start opened classes c hc _ hcrest (hclear.append hpad'.space)
    rwa [dropWhile_space hpad'.space] at hall

/-! ### The compiler -/

/-- The bytes of a text. -/
abbrev bytes (text : String) : List UInt8 := text.toUTF8.data.toList

theorem derives_of_compile {text : String} {p : Pattern} (h : compile text = .ok p) :
    Derives true .sequence (bytes text) p.classes ∧ p.length ≤ maxLength := by
  unfold compile at h
  obtain ⟨⟨classes, d⟩, hread, h⟩ := ok_of_bind h
  obtain ⟨⟨t, cs, ht, hcs, hrest⟩, hend, hle⟩ := spansFrom _ _ _ _ _ _ _ hread
  have hcs : classes.toList = cs := hcs
  have hrest : bytes text = t ++ d.1.rest := hrest
  rw [hend rfl, List.append_nil] at hrest
  simp only at h
  split at h
  · cases h
  · rename_i hne
    cases h
    refine ⟨?_, hle (Nat.zero_le _)⟩
    rcases ht with ⟨-, rfl⟩ | ht
    · -- White space alone has no classes.
      exact absurd hcs hne
    · rw [hrest]
      exact hcs ▸ ht

theorem compile_of_derives {padded : Bool} {text : String} {cs : List ByteClass}
    (h : Derives padded .sequence (bytes text) cs) :
    if cs.length ≤ maxLength then ∃ p, compile text = .ok p ∧ p.classes = cs
    else TooLong (compile text) := by
  have hpos := length_pos_of_derives h
  obtain ⟨classes, d, hd, hread, hclasses, hdrest⟩ | ⟨hlong, offset, hread⟩ :=
    advances_of_derives h ⟨bytes text, 0⟩ none #[] ⟨bytes text, 0⟩ (Nat.le_refl _) []
      (by rw [List.append_nil]) (clear_nil _)
  · have hclasses : classes.toList = cs := hclasses
    have hne : classes.toList ≠ [] := by
      rw [hclasses]
      exact List.length_pos_iff.1 hpos
    obtain ⟨e, he, hskip, hnext⟩ := Cursor.exists_end_of_drop hdrest
    rw [readSequence_of_end hskip hnext] at hread
    simp only at hread
    have hok : compile text = .ok ⟨classes.toList, hne⟩ := by
      unfold compile
      simp only [bind, Except.bind, hread]
      rw [dif_neg hne]
      rfl
    rw [if_pos (hclasses ▸ (derives_of_compile hok).2)]
    exact ⟨_, hok, hclasses⟩
  · have hlong : maxLength < 0 + cs.length := hlong
    rw [if_neg (by omega)]
    refine ⟨offset, ?_⟩
    unfold compile
    simp only [bind, Except.bind, hread]

/-- What `compile` does with `text` when it follows the grammar: text that can be derived is taken
    unless it has too many positions, and then for the classes that it unrolls to. The grammar has
    white space at the ends of sequences when it is `padded`. -/
structure FollowsGrammar (padded : Bool) (text : String) : Prop where
  succeeds : (∃ p, compile text = .ok p) ↔
    ∃ cs, Derives padded .sequence (bytes text) cs ∧ cs.length ≤ maxLength
  classes : ∀ p, compile text = .ok p →
    ∀ cs, Derives padded .sequence (bytes text) cs ↔ cs = p.classes

/-- **The compiler follows the grammar.** White space may stand at the ends of sequences. -/
theorem compile_followsGrammar (text : String) : FollowsGrammar true text where
  succeeds := by
    constructor
    · rintro ⟨p, hp⟩
      exact ⟨p.classes, derives_of_compile hp⟩
    · rintro ⟨cs, hcs, hle⟩
      have hcompile := compile_of_derives hcs
      rw [if_pos hle] at hcompile
      obtain ⟨p, hp, -⟩ := hcompile
      exact ⟨p, hp⟩
  classes := by
    intro p hp cs
    constructor
    · intro hcs
      -- Text that can be derived in another way would compile to other classes.
      have hcompile := compile_of_derives hcs
      split at hcompile
      · obtain ⟨p', hp', hclasses⟩ := hcompile
        rw [hp] at hp'
        cases hp'
        exact hclasses.symm
      · obtain ⟨offset, herror⟩ := hcompile
        rw [hp] at herror
        cases herror
    · rintro rfl
      exact (derives_of_compile hp).1

theorem items_head {padded : Bool} {t : List UInt8} {cs : List ByteClass}
    (h : Derives padded .items t cs) : ∃ b t', t = b :: t' ∧ Opens b := by
  cases h with
  | last ht => exact item_head ht
  | more ht _ _ =>
    obtain ⟨b, t', rfl, hb⟩ := item_head ht
    exact ⟨b, _, rfl, hb⟩

/-- Without such white space there would be no text that begins with a blank. -/
theorem not_followsGrammar_blank_any : ¬ FollowsGrammar false " ?" := by
  intro h
  have hany : Alternation [byte '?'] .any := ⟨[.any], .last ⟨[.any], .last .any, rfl⟩, rfl⟩
  have hblank : Padding true [byte ' '] :=
    padding_of_space (List.forall_mem_singleton.2 (by decide))
  have hderives : Derives true .sequence (bytes " ?") [.any] :=
    .sequence hblank (.last (.condition hany .once)) (padding_of_space (List.forall_mem_nil _))
  -- The text compiles, but no item begins with a blank.
  have hcompile := compile_of_derives hderives
  rw [if_pos (by decide)] at hcompile
  obtain ⟨p, hp, -⟩ := hcompile
  obtain ⟨cs, hstrict, -⟩ := h.succeeds.1 ⟨p, hp⟩
  have htext : bytes " ?" = [byte ' ', byte '?'] := by decide
  rw [htext] at hstrict
  generalize ht : [byte ' ', byte '?'] = t at hstrict
  cases hstrict with
  | sequence hpad hitems _ =>
    obtain ⟨b, t', rfl, hspace, -⟩ := items_head hitems
    rw [hpad.empty rfl] at ht
    have hb : byte ' ' = b := (List.cons.inj ht).1
    exact hspace (hb ▸ by decide)

end Chiptune.Pattern
