import Chiptune.Proofs.ReadConditions

namespace Chiptune.Pattern

open Grammar

/-!
# Reading counts

Numbers, quantifiers, and what they do to the classes before them.

* `TooLong` — numbers have no bound in the grammar, but reading has one;
* `count_of_readCount`, `readCount_of_count` — numbers, with the byte that ends them;
* `quantifier_of_readQuantifier`, `readQuantifier_of_quantifier` — numbers in braces.
-/

/-- Whether reading fails because something is too long. -/
def TooLong {α : Type} (r : Except SyntaxError α) : Prop :=
  ∃ offset, r = .error ⟨offset, .tooLong⟩

theorem count_of_readDecimal {c : Cursor} {n : Nat} {d : c.After}
    (h : readDecimal c = .ok (n, d)) :
    ∃ t, Count t n ∧ n < UInt64.size ∧ c.rest = t ++ d.1.rest := by
  simp only [readDecimal] at h
  split at h
  · cases h
  · rename_i hne
    split at h
    · cases h
    · rename_i hsmall
      split at h
      · cases h
      · rename_i hpositive
        cases h
        refine ⟨c.rest.takeWhile isDigit, ⟨hne, ?_, rfl, Nat.pos_of_ne_zero hpositive⟩,
          Nat.lt_of_not_le hsmall, ?_⟩
        · intro b hb
          exact (isDigit_iff b).1 (List.all_eq_true.1 List.all_takeWhile b hb)
        · show c.rest = _ ++ c.rest.drop (c.rest.takeWhile isDigit).length
          rw [drop_length_takeWhile, List.takeWhile_append_dropWhile]

theorem readDecimal_of_count {c : Cursor} {t rest : List UInt8} {n : Nat} {b : UInt8}
    (ht : Count t n) (hb : b ∉ digits) (hc : c.rest = t ++ b :: rest) :
    if n < UInt64.size then ∃ d : c.After, readDecimal c = .ok (n, d) ∧ d.1.rest = b :: rest
    else TooLong (readDecimal c) := by
  -- All of the digits are taken, and nothing else.
  have hdigits : c.rest.takeWhile isDigit = t := by
    rw [hc, List.takeWhile_append_of_pos fun a ha => (isDigit_iff a).2 (ht.digits a ha),
      List.takeWhile_cons_of_neg fun h => hb ((isDigit_iff b).1 h), List.append_nil]
  have hvalue : (c.rest.takeWhile isDigit).foldl
      (fun n b => 10 * n + (b.toNat - '0'.toNat)) 0 = n := by
    rw [hdigits]
    exact ht.value
  have hne : ¬c.rest.takeWhile isDigit = [] := by
    rw [hdigits]
    exact ht.nonempty
  have hpositive := ht.positive
  simp only [readDecimal]
  rw [dif_neg hne]
  simp only [hvalue]
  split
  · rw [if_neg (by omega), if_neg (by omega)]
    refine ⟨_, rfl, ?_⟩
    show c.rest.drop (c.rest.takeWhile isDigit).length = b :: rest
    rw [hdigits, hc, List.drop_left]
  · rw [if_pos (by omega)]
    exact ⟨c.offset, rfl⟩

theorem count_of_readCount {close : UInt8} {c : Cursor} {n : Nat} {e : c.After}
    (h : readCount close c = .ok (n, e)) :
    ∃ t, Count t n ∧ n < UInt64.size ∧ c.rest = t ++ close :: e.1.rest := by
  unfold readCount at h
  obtain ⟨⟨count, d, hd⟩, hcount, h⟩ := ok_of_bind h
  obtain ⟨t, ht, hsmall, hc⟩ := count_of_readDecimal hcount
  have hc : c.rest = t ++ d.rest := hc
  simp only at h
  split at h
  · cases h
  · rename_i b f hf hnext
    have hdrest : d.rest = b :: f.rest := Cursor.rest_of_next?_eq_some hnext
    split at h
    · rename_i hclose
      cases h
      refine ⟨t, ht, hsmall, ?_⟩
      rw [hc, hdrest, eq_of_beq hclose]
    · cases h

theorem readCount_of_count {close : UInt8} {c : Cursor} {t rest : List UInt8} {n : Nat}
    (ht : Count t n) (hclose : close ∉ digits) (hc : c.rest = t ++ close :: rest) :
    if n < UInt64.size then ∃ e : c.After, readCount close c = .ok (n, e) ∧ e.1.rest = rest
    else TooLong (readCount close c) := by
  have hread := readDecimal_of_count ht hclose hc
  unfold readCount
  split
  · rename_i hsmall
    rw [if_pos hsmall] at hread
    obtain ⟨⟨d, hd⟩, hread, hdrest⟩ := hread
    obtain ⟨⟨e, he⟩, hnext, herest⟩ := Cursor.next?_of_rest_eq_cons hdrest
    rw [hread]
    simp only [bind, Except.bind, hnext]
    rw [if_pos (beq_self_eq_true close)]
    exact ⟨_, rfl, herest⟩
  · rename_i hlarge
    rw [if_neg hlarge] at hread
    obtain ⟨offset, hread⟩ := hread
    rw [hread]
    exact ⟨offset, rfl⟩

/-- A quantifier, with white space behind it when it is left out. -/
theorem quantifier_of_readQuantifier {c : Cursor} {n : Nat} {d : c.Onward}
    (h : readQuantifier c = .ok (n, d)) :
    ∃ q s, Quantifier q n ∧ Space s ∧ c.rest = q ++ (s ++ d.1.rest) := by
  obtain ⟨s, hs, hc⟩ := rest_eq_append_rest_skipSpace c
  unfold readQuantifier at h
  generalize c.skipSpace = skipped at h hc
  obtain ⟨e, he⟩ := skipped
  have hc : c.rest = s ++ e.rest := hc
  simp only at h
  split at h
  · cases h
    exact ⟨[], s, .once, hs, hc⟩
  · rename_i b f hf hnext
    have herest : e.rest = b :: f.rest := Cursor.rest_of_next?_eq_some hnext
    split at h
    · rename_i hopen
      obtain ⟨⟨count, g, hg⟩, hcount, h⟩ := ok_of_bind h
      cases h
      obtain ⟨t, ht, -, hfrest⟩ := count_of_readCount hcount
      have hfrest : f.rest = t ++ byte '\x7d' :: g.rest := hfrest
      refine ⟨_, [], .times hs ht, List.forall_mem_nil _, ?_⟩
      rw [hc, herest, eq_of_beq hopen, hfrest]
      simp only [List.append_assoc, List.cons_append, List.nil_append]
    · cases h
      exact ⟨[], s, .once, hs, hc⟩

theorem readQuantifier_of_quantifier {c : Cursor} {q rest : List UInt8} {n : Nat}
    (hq : Quantifier q n) (hc : c.rest = q ++ rest) (hclear : Clear [byte '\x7b'] rest) :
    if n < UInt64.size then ∃ d : c.Onward, readQuantifier c = .ok (n, d)
      ∧ d.1.rest.dropWhile Cursor.isSpace = rest.dropWhile Cursor.isSpace
    else TooLong (readQuantifier c) := by
  have hrest := c.rest_skipSpace
  unfold readQuantifier
  generalize c.skipSpace = skipped at hrest
  obtain ⟨e, he⟩ := skipped
  have hrest : e.rest = c.rest.dropWhile Cursor.isSpace := hrest
  simp only
  cases hq with
  | once =>
    have hc : c.rest = rest := hc
    rw [hc] at hrest
    have hsame : e.rest.dropWhile Cursor.isSpace = rest.dropWhile Cursor.isSpace := by
      rw [hrest]
      exact dropWhile_dropWhile rest
    rw [if_pos (by decide)]
    cases hnext : e.next? with
    | none => exact ⟨_, rfl, hsame⟩
    | some r =>
      obtain ⟨b, f, hf⟩ := r
      have hb : b ≠ byte '\x7b' := by
        rintro rfl
        have herest : e.rest = byte '\x7b' :: f.rest := Cursor.rest_of_next?_eq_some hnext
        refine hclear (byte '\x7b') ?_ List.mem_cons_self
        rw [← hrest, herest]
        rfl
      simp only
      rw [if_neg (by simpa using hb)]
      exact ⟨_, rfl, hsame⟩
  | times hs ht =>
    rename_i s t
    have hopen : byte '\x7b' ∉ spaces := by decide
    rw [hc, List.append_assoc, dropWhile_space hs, List.cons_append,
      dropWhile_of_not_mem_spaces hopen] at hrest
    obtain ⟨⟨f, hf⟩, hnext, hfrest⟩ := Cursor.next?_of_rest_eq_cons hrest
    have hfrest : f.rest = t ++ byte '\x7d' :: rest := by
      rw [hfrest, List.append_assoc]
      rfl
    have hread := readCount_of_count ht (by decide) hfrest
    simp only [hnext]
    by_cases hsmall : n < UInt64.size
    · rw [if_pos hsmall] at hread ⊢
      obtain ⟨⟨g, hg⟩, hread, hgrest⟩ := hread
      have hgrest : g.rest = rest := hgrest
      have hread : readCount '\x7d'.toUInt8 f = .ok (n, ⟨g, hg⟩) := hread
      rw [if_pos (by decide), hread]
      exact ⟨_, rfl, by rw [hgrest]⟩
    · rw [if_neg hsmall] at hread ⊢
      obtain ⟨offset, hread⟩ := hread
      have hread : readCount '\x7d'.toUInt8 f = .error ⟨offset, .tooLong⟩ := hread
      rw [if_pos (by decide), hread]
      exact ⟨offset, rfl⟩

end Chiptune.Pattern
