import Chiptune.Proofs.ReadCounts

namespace Chiptune.Pattern

open Grammar

/-!
# Reading sequences

* `readItem` — one item on its own, and `readSequence_of_next?`, by which sequences are read one item
  after the other;
* `repeated_spec` — the classes that an item adds;
* `spansFrom` — what is read is text of the grammar.
-/

/-! ### Repetition -/

theorem length_copies (count : Nat) (classes : List ByteClass) :
    (List.replicate count classes).flatten.length = count * classes.length := by
  rw [List.length_flatten, List.map_replicate, List.sum_replicate_nat]

theorem toList_fold_append (classes group : Array ByteClass) (count : Nat) :
    (count.fold (fun _ _ all => all ++ group) classes).toList
      = classes.toList ++ (List.replicate count group.toList).flatten := by
  induction count with
  | zero => simp
  | succ count ih =>
    rw [Nat.fold_succ, Array.toList_append, ih, List.replicate_succ', List.flatten_append,
      List.append_assoc]
    simp

/-- The classes with the copies behind them, unless there is no room for these. -/
theorem repeated_spec (c : Cursor) (classes group : Array ByteClass) (count : Nat) :
    if classes.size + group.size * count ≤ maxLength then
      ∃ longer, repeated c classes group count = .ok longer
        ∧ longer.toList = classes.toList ++ (List.replicate count group.toList).flatten
    else TooLong (repeated c classes group count) := by
  unfold repeated
  split
  · exact ⟨_, rfl, toList_fold_append classes group count⟩
  · exact ⟨c.offset, rfl⟩

theorem repeated_eq_ok {c : Cursor} {classes group longer : Array ByteClass} {count : Nat}
    (h : repeated c classes group count = .ok longer) :
    longer.toList = classes.toList ++ (List.replicate count group.toList).flatten
      ∧ longer.toList.length ≤ maxLength := by
  have hspec := repeated_spec c classes group count
  split at hspec
  · rename_i hfits
    obtain ⟨longer', hok, hlonger⟩ := hspec
    rw [h] at hok
    cases hok
    refine ⟨hlonger, ?_⟩
    rw [hlonger, List.length_append, length_copies, Array.length_toList, Array.length_toList,
      Nat.mul_comm]
    exact hfits
  · obtain ⟨offset, herror⟩ := hspec
    rw [h] at herror
    cases herror

/-! ### Items -/

/-- A cursor behind one that is behind `c`. -/
def Cursor.After.onward {c : Cursor} (d : c.After) (e : d.1.Onward) : c.After :=
  ⟨e.1, Nat.lt_of_le_of_lt e.2 d.2⟩

/-- Classes, and how often they stand. -/
abbrev Item : Type := Array ByteClass × Nat

/-- A group, with its quantifier. The parenthesis between `c` and `e` opens it. -/
def readGroup (c : Cursor) (e : c.After) : Read Item c := do
  let (group, f) ← readSequence e.1 (some c.offset) #[] e.1 (Nat.le_refl _)
  if group.isEmpty then throw (c.fault .empty)
  let (count, g) ← readQuantifier f.1
  return ((group, count), (e.onward f).onward g)

/-- A number of bytes to skip. The sign between `c` and `e` announces it. -/
def readSkip (c : Cursor) (e : c.After) : Read Item c := do
  let (count, f) ← readCount '+'.toUInt8 e.1
  return ((#[.any], count), e.onward ⟨f.1, Nat.le_of_lt f.2⟩)

/-- A condition, with its quantifier. -/
def readCondition (c : Cursor) : Read Item c := do
  let (condition, f) ← readAlternation c
  let (count, g) ← readQuantifier f.1
  return ((#[condition], count), f.onward g)

/-- The item at `c`, which begins with the byte `b`. -/
def readItem (c : Cursor) (b : UInt8) (e : c.After) : Read Item c :=
  if b == '('.toUInt8 then readGroup c e
  else if b == '+'.toUInt8 then readSkip c e
  else readCondition c

section

variable {start c d : Cursor} {opened : Option Nat} {classes : Array ByteClass}
variable {hc : c.left ≤ start.left} {hd : d.left ≤ c.left}

/-- Every byte but the one that closes a group begins an item. -/
theorem readSequence_of_next? {b : UInt8} {e : d.After} (hskip : c.skipSpace = ⟨d, hd⟩)
    (hnext : d.next? = some (b, e)) (hb : b ≠ byte ')') :
    readSequence start opened classes c hc = (do
      let ((group, count), ⟨g, hg⟩) ← readItem d b e
      let longer ← repeated g classes group count
      readSequence start opened longer g (by omega)) := by
  rw [readSequence, hskip]
  unfold readItem readGroup readSkip readCondition
  obtain ⟨e, he⟩ := e
  simp only [hnext]
  rw [if_neg (by simpa using hb)]
  -- Both sides read the same in the same order, so they fail with the same fault.
  split
  · cases hgroup : readSequence e (some d.offset) #[] e (Nat.le_refl _) with
    | error fault => rfl
    | ok r =>
      obtain ⟨group, f, hf⟩ := r
      simp only [bind, Except.bind]
      split
      · rfl
      · cases hcount : readQuantifier f with
        | error fault => rfl
        | ok r => rfl
  · split
    · cases hcount : readCount '+'.toUInt8 e with
      | error fault => rfl
      | ok r => rfl
    · cases hcondition : readAlternation d with
      | error fault => rfl
      | ok r =>
        obtain ⟨condition, f, hf⟩ := r
        simp only [bind, Except.bind]
        cases hcount : readQuantifier f with
        | error fault => rfl
        | ok r => rfl

theorem readSequence_of_end (hskip : c.skipSpace = ⟨d, hd⟩) (hnext : d.next? = none) :
    readSequence start opened classes c hc =
      match opened with
      | some offset => .error ⟨offset, .unbalancedGroup⟩
      | none => .ok (classes, ⟨d, Nat.le_trans hd hc⟩) := by
  rw [readSequence, hskip]
  simp only [hnext]
  cases opened <;> rfl

theorem readSequence_of_close {e : Cursor} {he : e.left < d.left} (hskip : c.skipSpace = ⟨d, hd⟩)
    (hnext : d.next? = some (byte ')', ⟨e, he⟩)) :
    readSequence start opened classes c hc =
      match opened with
      | some _ => .ok (classes, ⟨e, by omega⟩)
      | none => .error (d.fault .unbalancedGroup) := by
  rw [readSequence, hskip]
  simp only [hnext]
  rw [if_pos (by decide)]
  cases opened <;> rfl

end

/-! ### Soundness -/

theorem padding_of_space {s : List UInt8} (hs : Space s) : Padding true s := ⟨hs, Bool.noConfusion⟩

theorem space_append {s s' : List UInt8} (hs : Space s) (hs' : Space s') : Space (s ++ s') := by
  intro b hb
  rcases List.mem_append.1 hb with hb | hb
  · exact hs b hb
  · exact hs' b hb

/-- A sequence, or white space alone. -/
def Content (t : List UInt8) (cs : List ByteClass) : Prop :=
  (Space t ∧ cs = []) ∨ Derives true .sequence t cs

/-- An item in front of anything makes a sequence. -/
theorem Content.cons {s t s' t' : List UInt8} {cs cs' : List ByteClass} (hs : Space s)
    (ht : Derives true .item t cs) (hs' : Space s') (h : Content t' cs') :
    Derives true .sequence (s ++ (t ++ (s' ++ t'))) (cs ++ cs') := by
  rcases h with ⟨ht', rfl⟩ | h
  · have hpad : Padding true (s' ++ t') := padding_of_space (space_append hs' ht')
    rw [List.append_nil]
    exact .sequence (padding_of_space hs) (.last ht) hpad
  · cases h with
    | sequence hpad hitems hpad' =>
      rename_i p items p'
      have hspace : Space (s' ++ p) := space_append hs' hpad.space
      have hmore := Derives.more ht hspace hitems
      have hall := Derives.sequence (padding_of_space hs) hmore hpad'
      simpa only [List.append_assoc] using hall

/-- What has to stand behind the last item: nothing, or the byte that closes the group. -/
def closing (opened : Option Nat) : List UInt8 := if opened.isSome then [byte ')'] else []

/-- How `readSequence` gets from `c` to `d`: over text that it takes for content, and over what has
    to stand behind it. -/
structure Spans (opened : Option Nat) (classes all : List ByteClass) (c d : Cursor) : Prop where
  content : ∃ t cs, Content t cs ∧ all = classes ++ cs ∧ c.rest = t ++ (closing opened ++ d.rest)
  ends : opened = none → d.rest = []
  length_le : classes.length ≤ maxLength → all.length ≤ maxLength

/-- Whatever comes before what is read at `c`, the cursor behind it is reached in this way. -/
def SpansFrom (c : Cursor) : Prop :=
  ∀ (start : Cursor) (opened : Option Nat) (classes : Array ByteClass) (hc : c.left ≤ start.left)
    (all : Array ByteClass) (d : start.Onward),
    readSequence start opened classes c hc = .ok (all, d) →
    Spans opened classes.toList all.toList c d.1

/-- What reading an item from `c` on goes over: the item, and white space when it has no
    quantifier. -/
def Passes (item : Item) (c d : Cursor) : Prop :=
  ∃ t s, Derives true .item t (List.replicate item.2 item.1.toList).flatten ∧ Space s
    ∧ c.rest = t ++ (s ++ d.rest)

theorem passes_of_readGroup {c : Cursor} {e : c.After} {item : Item} {d : c.After}
    (hc : c.rest = byte '(' :: e.1.rest) (ih : SpansFrom e.1)
    (h : readGroup c e = .ok (item, d)) : Passes item c d.1 := by
  obtain ⟨e, he⟩ := e
  have hc : c.rest = byte '(' :: e.rest := hc
  unfold readGroup at h
  obtain ⟨⟨group, f, hf⟩, hgroup, h⟩ := ok_of_bind h
  obtain ⟨⟨t, cs, ht, hcs, herest⟩, -, -⟩ := ih _ _ _ _ _ _ hgroup
  have hcs : group.toList = cs := hcs
  have herest : e.rest = t ++ byte ')' :: f.rest := herest
  simp only at h
  split at h
  · cases h
  · rename_i hempty
    obtain ⟨⟨n, g, hg⟩, hcount, h⟩ := ok_of_bind h
    cases h
    obtain ⟨q, s, hq, hs, hfrest⟩ := quantifier_of_readQuantifier hcount
    have hfrest : f.rest = q ++ (s ++ g.rest) := hfrest
    rcases ht with ⟨-, rfl⟩ | ht
    · -- White space alone would have left the group empty.
      exact absurd (Array.isEmpty_iff.2 (Array.toList_eq_nil_iff.1 hcs)) hempty
    · refine ⟨byte '(' :: (t ++ byte ')' :: q), s, ?_, hs, ?_⟩
      · show Derives true .item _ (List.replicate n group.toList).flatten
        rw [hcs]
        exact .group ht hq
      · show c.rest = byte '(' :: (t ++ byte ')' :: q) ++ (s ++ g.rest)
        rw [hc, herest, hfrest]
        simp only [List.append_assoc, List.cons_append]

theorem passes_of_readSkip {c : Cursor} {e : c.After} {item : Item} {d : c.After}
    (hc : c.rest = byte '+' :: e.1.rest) (h : readSkip c e = .ok (item, d)) :
    Passes item c d.1 := by
  obtain ⟨e, he⟩ := e
  have hc : c.rest = byte '+' :: e.rest := hc
  unfold readSkip at h
  obtain ⟨⟨n, f, hf⟩, hcount, h⟩ := ok_of_bind h
  cases h
  obtain ⟨t, ht, -, herest⟩ := count_of_readCount hcount
  have herest : e.rest = t ++ byte '+' :: f.rest := herest
  refine ⟨byte '+' :: (t ++ [byte '+']), [], ?_, List.forall_mem_nil _, ?_⟩
  · show Derives true .item _ (List.replicate n [.any]).flatten
    rw [List.flatten_replicate_singleton]
    exact .skip ht
  · show c.rest = byte '+' :: (t ++ [byte '+']) ++ ([] ++ f.rest)
    rw [hc, herest]
    simp only [List.append_assoc, List.cons_append, List.nil_append]

theorem passes_of_readCondition {c : Cursor} {item : Item} {d : c.After}
    (h : readCondition c = .ok (item, d)) : Passes item c d.1 := by
  unfold readCondition at h
  obtain ⟨⟨condition, f, hf⟩, hcondition, h⟩ := ok_of_bind h
  obtain ⟨t, ht, hc⟩ := sound_readAlternation c _ _ hcondition
  have hc : c.rest = t ++ f.rest := hc
  obtain ⟨⟨n, g, hg⟩, hcount, h⟩ := ok_of_bind h
  cases h
  obtain ⟨q, s, hq, hs, hfrest⟩ := quantifier_of_readQuantifier hcount
  have hfrest : f.rest = q ++ (s ++ g.rest) := hfrest
  refine ⟨t ++ q, s, ?_, hs, ?_⟩
  · show Derives true .item _ (List.replicate n [condition]).flatten
    rw [List.flatten_replicate_singleton]
    exact .condition ht hq
  · show c.rest = t ++ q ++ (s ++ g.rest)
    rw [hc, hfrest]
    simp only [List.append_assoc]

theorem passes_of_readItem {c : Cursor} {b : UInt8} {e : c.After} {item : Item} {d : c.After}
    (hc : c.rest = b :: e.1.rest) (ih : SpansFrom e.1) (h : readItem c b e = .ok (item, d)) :
    Passes item c d.1 := by
  unfold readItem at h
  split at h
  · rename_i hb
    rw [eq_of_beq hb] at hc
    exact passes_of_readGroup hc ih h
  · split at h
    · rename_i hb
      rw [eq_of_beq hb] at hc
      exact passes_of_readSkip hc h
    · exact passes_of_readCondition h

theorem spans_of_end {classes : List ByteClass} {c d : Cursor} {s : List UInt8} (hs : Space s)
    (hc : c.rest = s ++ d.rest) (hd : d.rest = []) : Spans none classes classes c d where
  content := ⟨s, [], .inl ⟨hs, rfl⟩, (List.append_nil classes).symm, hc⟩
  ends _ := hd
  length_le := id

theorem spans_of_close {classes : List ByteClass} {c d : Cursor} {s : List UInt8} {opened : Nat}
    (hs : Space s) (hc : c.rest = s ++ byte ')' :: d.rest) :
    Spans (some opened) classes classes c d where
  content := ⟨s, [], .inl ⟨hs, rfl⟩, (List.append_nil classes).symm, hc⟩
  ends h := by cases h
  length_le := id

/-- One item more in front. -/
theorem Spans.cons {opened : Option Nat} {classes longer all : List ByteClass} {c d e f : Cursor}
    {item : Item} {s : List UInt8} (hs : Space s) (hc : c.rest = s ++ d.rest)
    (hitem : Passes item d e)
    (hlonger : longer = classes ++ (List.replicate item.2 item.1.toList).flatten)
    (hfits : longer.length ≤ maxLength) (h : Spans opened longer all e f) :
    Spans opened classes all c f where
  content := by
    obtain ⟨t, s', ht, hs', hd⟩ := hitem
    obtain ⟨t', cs, ht', hall, he⟩ := h.content
    refine ⟨s ++ (t ++ (s' ++ t')), _, .inr (ht'.cons hs ht hs'), ?_, ?_⟩
    · rw [hall, hlonger, List.append_assoc]
    · rw [hc, hd, he]
      simp only [List.append_assoc]
  ends := h.ends
  length_le _ := h.length_le hfits

theorem spansFrom (c : Cursor) : SpansFrom c := by
  -- Groups and what follows an item have fewer bytes left.
  induction hn : c.left using Nat.strongRecOn generalizing c with
  | ind n ih =>
    intro start opened classes hc all out h
    obtain ⟨s, hs, hcrest⟩ := rest_eq_append_rest_skipSpace c
    obtain ⟨⟨d, hd⟩, hskip⟩ : ∃ d, c.skipSpace = d := ⟨_, rfl⟩
    rw [hskip] at hcrest
    have hcrest : c.rest = s ++ d.rest := hcrest
    cases hnext : d.next? with
    | none =>
      rw [readSequence_of_end hskip hnext] at h
      cases opened with
      | some offset => cases h
      | none =>
        cases h
        exact spans_of_end hs hcrest (Cursor.rest_of_next?_eq_none hnext)
    | some r =>
      obtain ⟨b, e, he⟩ := r
      have hdrest : d.rest = b :: e.rest := Cursor.rest_of_next?_eq_some hnext
      by_cases hb : b = byte ')'
      · subst hb
        rw [readSequence_of_close hskip hnext] at h
        cases opened with
        | none => cases h
        | some offset =>
          cases h
          exact spans_of_close hs (by rw [hcrest, hdrest])
      · rw [readSequence_of_next? hskip hnext hb] at h
        obtain ⟨⟨⟨group, count⟩, g, hg⟩, hitem, h⟩ := ok_of_bind h
        obtain ⟨longer, hlonger, h⟩ := ok_of_bind h
        have hpasses := passes_of_readItem hdrest (ih e.left (by omega) e rfl) hitem
        obtain ⟨hcopies, hfits⟩ := repeated_eq_ok hlonger
        have hspans := ih g.left (by omega) g rfl _ _ _ _ _ _ h
        exact hspans.cons hs hcrest hpasses hcopies hfits

end Chiptune.Pattern
