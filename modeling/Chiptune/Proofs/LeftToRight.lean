import Chiptune.Proofs.LocatedFaults
import Chiptune.Proofs.Relocation

namespace Chiptune.Pattern

open Grammar
open SyntaxError (Kind)

/-!
# Reading from left to right

What is read of a text does not depend on what is further on. A fault of one byte is found at that
byte, so no text that begins in the same way, up to there, is in the language.

* `Seen` — results that the first `stop` bytes of a text tell;
* `Mirrors` — two readings, of texts that agree in these bytes, are alike when the result of one is
  told by them;
* `mirrorsFrom` — the same sequence is read of both texts.
-/

/-! ### Texts that begin in the same way -/

namespace Cursor

/-- The cursor at the same place in the text `t'`. -/
def on (c : Cursor) (t' : List UInt8) : Cursor := ⟨t'.drop c.offset, c.offset⟩

end Cursor

theorem takeWhile_eq_of_take_eq {p : UInt8 → Bool} {u u' : List UInt8} {k : Nat}
    (h : u'.take k = u.take k) (hlt : (u.takeWhile p).length < k) :
    u'.takeWhile p = u.takeWhile p := by
  induction u generalizing u' k with
  | nil =>
    cases k with
    | zero => cases hlt
    | succ k =>
      rw [List.take_nil, List.take_eq_nil_iff] at h
      rcases h with h | rfl
      · cases h
      · rfl
  | cons b u ih =>
    cases k with
    | zero => cases hlt
    | succ k =>
      cases u' with
      | nil => cases h
      | cons b' u' =>
        simp only [List.take_succ_cons, List.cons.injEq] at h
        obtain ⟨rfl, h⟩ := h
        by_cases hb : p b'
        · rw [List.takeWhile_cons_of_pos hb, List.length_cons] at hlt
          rw [List.takeWhile_cons_of_pos hb, List.takeWhile_cons_of_pos hb, ih h (by omega)]
        · rw [List.takeWhile_cons_of_neg hb, List.takeWhile_cons_of_neg hb]

section

variable {t t' : List UInt8} {stop : Nat} {groups : List Nat} {c d : Cursor}

theorem getElem?_of_take_eq (h : t'.take stop = t.take stop) {i : Nat} (hi : i < stop) :
    t'[i]? = t[i]? := by
  rw [← List.getElem?_take_of_lt hi, h, List.getElem?_take_of_lt hi]

namespace Within

theorem next?_on_of_eq_none (h : t'.take stop = t.take stop) (hc : Within t c)
    (hlt : c.offset < stop) (hnext : c.next? = none) : (c.on t').next? = none := by
  apply Cursor.next?_of_rest_eq_nil
  have hat := getElem?_of_take_eq h hlt
  rw [hc.offset_eq_length hnext, List.getElem?_eq_none (Nat.le_refl _),
    List.getElem?_eq_none_iff] at hat
  rw [Cursor.on, List.drop_eq_nil_iff, hc.offset_eq_length hnext]
  exact hat

theorem exists_next?_on (h : t'.take stop = t.take stop) (hc : Within t c)
    (hlt : c.offset < stop) {b : UInt8} {e : Cursor} {he : e.left < c.left}
    (hnext : c.next? = some (b, ⟨e, he⟩)) :
    ∃ he', (c.on t').next? = some (b, ⟨e.on t', he'⟩) := by
  have hat : t'[c.offset]? = some b := by
    rw [getElem?_of_take_eq h hlt, hc.getElem?_of_next? hnext]
  obtain ⟨hlength, hb⟩ := List.getElem?_eq_some_iff.1 hat
  have hrest : (c.on t').rest = b :: t'.drop (c.offset + 1) := by
    rw [Cursor.on, List.drop_eq_getElem_cons hlength, hb]
  obtain ⟨⟨f, hf⟩, hnext', hfrest⟩ := Cursor.next?_of_rest_eq_cons hrest
  have hoffset : e.offset = c.offset + 1 := Cursor.offset_of_next? hnext
  have hoffset' : f.offset = c.offset + 1 := Cursor.offset_of_next? hnext'
  have hfe : f = e.on t' := by
    rcases f with ⟨rest, offset⟩
    rw [Cursor.on, hoffset]
    cases hfrest
    cases hoffset'
    rfl
  subst hfe
  exact ⟨hf, hnext'⟩

/-- A run of bytes that ends within the common part is in both texts. -/
theorem takeWhile_on {p : UInt8 → Bool} (h : t'.take stop = t.take stop) (hc : Within t c)
    (hlt : c.offset + (c.rest.takeWhile p).length < stop) :
    (c.on t').rest.takeWhile p = c.rest.takeWhile p := by
  apply takeWhile_eq_of_take_eq (k := stop - c.offset)
  · rw [hc.rest, Cursor.on, ← List.drop_take, ← List.drop_take, h]
  · omega

theorem exists_skipSpace_on (h : t'.take stop = t.take stop) (hc : Within t c)
    {hd : d.left ≤ c.left} (hskip : c.skipSpace = ⟨d, hd⟩) (hlt : d.offset < stop) :
    ∃ hd', (c.on t').skipSpace = ⟨d.on t', hd'⟩ := by
  have hoffset : d.offset = c.offset + (c.rest.takeWhile Cursor.isSpace).length := by
    rw [← c.offset_skipSpace, hskip]
  have hspace := hc.takeWhile_on h (hoffset ▸ hlt)
  have hsame : (c.on t').skipSpace.1 = d.on t' := by
    show Cursor.mk ((c.on t').rest.drop ((c.on t').rest.takeWhile Cursor.isSpace).length)
      (c.offset + ((c.on t').rest.takeWhile Cursor.isSpace).length) = _
    rw [hspace, ← hoffset, Cursor.on, Cursor.on, List.drop_drop, ← hoffset]
  exact ⟨hsame ▸ (c.on t').skipSpace.2, Subtype.ext hsame⟩

end Within

end

/-! ### Readings that are alike -/

/-- Whether what reading comes to is told by the first `stop` bytes of the text: a result in
    `reach`, or a fault of one of these bytes. -/
def Seen {α : Type} (stop : Nat) (reach : α → Prop) : Except SyntaxError α → Prop
  | .ok a => reach a
  | .error e => OfByte e.kind ∧ e.offset < stop

/-- Two readings that are alike, `same` in their results, when the first `stop` bytes tell what
    one comes to. -/
def Mirrors {α α' : Type} (stop : Nat) (reach : α → Prop) (same : α → α' → Prop)
    (x : Except SyntaxError α) (x' : Except SyntaxError α') : Prop :=
  Seen stop reach x → Alike same x x'

/-- The same for a reading of the text `t'` that comes to the same place with the same value. -/
abbrev MirrorsOn {α : Type} {Q Q' : Cursor → Prop} (t' : List UInt8) (stop : Nat)
    (reach : Cursor → Prop) (x : Except SyntaxError (α × Subtype Q))
    (x' : Except SyntaxError (α × Subtype Q')) : Prop :=
  Mirrors stop (fun r => reach r.2.1) (Beside fun d d' => d'.1 = d.1.on t') x x'

section

variable {α α' β β' : Type} {Q Q' : Cursor → Prop} {t t' : List UInt8} {stop : Nat}
  {groups : List Nat} {c : Cursor} {offset : Nat} {kind : Kind} {e : SyntaxError} {reach : α → Prop}
  {reach' : β → Prop} {same : α → α' → Prop} {same' : β → β' → Prop} {P : α → Prop}
  {x : Except SyntaxError α} {x' : Except SyntaxError α'} {f : α → Except SyntaxError β}
  {f' : α' → Except SyntaxError β'}

theorem not_seen_error (h : ¬OfByte kind) : ¬Seen stop reach (.error ⟨offset, kind⟩) :=
  fun hseen => h hseen.1

theorem Seen.of_bind (h : Seen stop reach' (x >>= f))
    (hf : ∀ a, x = .ok a → Seen stop reach' (f a) → reach a) : Seen stop reach x := by
  cases x with
  | ok a => exact hf a rfl h
  | error e => exact h

theorem Seen.of_ite {p : Prop} [Decidable p] {a : α}
    (h : Seen stop reach (if p then .ok a else .error ⟨offset, kind⟩)) (hkind : ¬OfByte kind) :
    reach a := by
  split at h
  · exact h
  · exact absurd h (not_seen_error hkind)

/-- Reading that is seen begins at a byte that is. -/
theorem Seen.offset_lt (h : Seen stop reach x) (hx : Locates t c x P)
    (hok : ∀ a, x = .ok a → reach a → c.offset < stop) : c.offset < stop := by
  cases x with
  | ok a => exact hok a rfl h
  | error e => exact Nat.lt_of_le_of_lt ((hx.error e rfl).behind h.1) h.2

theorem mirrors_ok {a : α} {a' : α'} (h : reach a → same a a') :
    Mirrors stop reach same (.ok a) (.ok a') := fun hseen => .ok (h hseen)

theorem mirrors_error : Mirrors stop reach same (.error e) (.error e) := fun _ => .error e

theorem mirrors_of_kind (h : ¬OfByte kind) :
    Mirrors stop reach same (.error ⟨offset, kind⟩) x' :=
  fun hseen => absurd hseen (not_seen_error h)

theorem Mirrors.bind (h : Mirrors stop reach same x x')
    (hf : ∀ a a', x = .ok a → reach a → same a a' → Mirrors stop reach' same' (f a) (f' a'))
    (hseen : ∀ a, x = .ok a → Seen stop reach' (f a) → reach a) :
    Mirrors stop reach' same' (x >>= f) (x' >>= f') := by
  intro hbind
  have hx := hbind.of_bind hseen
  have halike := h hx
  cases halike with
  | ok hsame => exact hf _ _ rfl hx hsame hbind
  | error e => exact .error e

/-- The rule for one computation before both readings. -/
theorem Mirrors.bind_same {γ γ' : Type} {reach : γ → Prop} {same : γ → γ' → Prop}
    {f : α → Except SyntaxError γ} {f' : α → Except SyntaxError γ'}
    (hf : ∀ a, Mirrors stop reach same (f a) (f' a)) :
    Mirrors stop reach same (x >>= f) (x >>= f') := by
  cases x with
  | ok a => exact hf a
  | error e => exact mirrors_error

/-- The rule for a reading and what goes on from the place that it comes to. -/
theorem Mirrors.bind_on {γ γ' : Type} {reach : Cursor → Prop} {reach' : γ → Prop}
    {same' : γ → γ' → Prop} {x : Except SyntaxError (α × Subtype Q)}
    {x' : Except SyntaxError (α × Subtype Q')} {f : α × Subtype Q → Except SyntaxError γ}
    {f' : α × Subtype Q' → Except SyntaxError γ'} (h : MirrorsOn t' stop reach x x')
    (hx : Locates t c x fun r => Stands t groups r.2.1)
    (hf : ∀ a d hd hd', Stands t groups d → reach d →
      Mirrors stop reach' same' (f (a, ⟨d, hd⟩)) (f' (a, ⟨d.on t', hd'⟩)))
    (hseen : ∀ a d hd, Stands t groups d → Seen stop reach' (f (a, ⟨d, hd⟩)) → reach d) :
    Mirrors stop reach' same' (x >>= f) (x' >>= f') := by
  refine h.bind ?_ ?_
  · rintro ⟨a, d, hd⟩ ⟨_, d', hd'⟩ hread hreach ⟨rfl, hsame⟩
    have hsame : d' = d.on t' := hsame
    subst hsame
    exact hf a d hd hd' (hx.ok _ hread) hreach
  · rintro ⟨a, d, hd⟩ hread hseen'
    exact hseen a d hd (hx.ok _ hread) hseen'

/-- The rule for a reading that another value is made of, at the same place. -/
theorem Mirrors.map_on {γ : Type} {R R' : Cursor → Prop} {reach : Cursor → Prop} {g : α → γ}
    {x : Except SyntaxError (α × Subtype Q)} {x' : Except SyntaxError (α × Subtype Q')}
    {f : α × Subtype Q → Except SyntaxError (γ × Subtype R)}
    {f' : α × Subtype Q' → Except SyntaxError (γ × Subtype R')}
    (h : MirrorsOn t' stop reach x x')
    (hf : ∀ a d hd, ∃ hd', f (a, ⟨d, hd⟩) = .ok (g a, ⟨d, hd'⟩))
    (hf' : ∀ a d hd, ∃ hd', f' (a, ⟨d, hd⟩) = .ok (g a, ⟨d, hd'⟩)) :
    MirrorsOn t' stop reach (x >>= f) (x' >>= f') := by
  refine h.bind ?_ ?_
  · rintro ⟨a, d, hd⟩ ⟨_, d', hd'⟩ - - ⟨rfl, hsame⟩
    obtain ⟨hr, hok⟩ := hf a d hd
    obtain ⟨hr', hok'⟩ := hf' a d' hd'
    rw [hok, hok']
    exact mirrors_ok fun _ => ⟨rfl, hsame⟩
  · rintro ⟨a, d, hd⟩ - hseen
    obtain ⟨hr, hok⟩ := hf a d hd
    rw [hok] at hseen
    exact hseen

end

/-! ### Conditions -/

section

variable {t t' : List UInt8} {stop : Nat} {groups : List Nat} {c : Cursor}

/-- Whether a cursor is short of the end of the first `stop` bytes. -/
abbrev Short (stop : Nat) (c : Cursor) : Prop := c.offset < stop

theorem Short.of_next? {b : UInt8} {e : Cursor} {he : e.left < c.left} (h : Short stop e)
    (hnext : c.next? = some (b, ⟨e, he⟩)) : Short stop c := by
  have hoffset : e.offset = c.offset + 1 := Cursor.offset_of_next? hnext
  exact Nat.lt_trans (by omega) h

/-- Reading that comes to such a place begins at one. -/
theorem Seen.short {α : Type} {Q : Cursor → Prop} {x : Except SyntaxError (α × Subtype Q)}
    (h : Seen stop (fun r => Short stop r.2.1) x) (hQ : ∀ d, Q d → d.left ≤ c.left)
    (hc : Stands t groups c) (hx : Locates t c x fun r => Stands t groups r.2.1) :
    Short stop c := by
  refine h.offset_lt hx ?_
  rintro ⟨a, d, hd⟩ hread hshort
  have hds : Stands t groups d := hx.ok _ hread
  exact Nat.lt_of_le_of_lt (hc.offset_le_offset hds.toWithin (hQ d hd)) hshort

/-- The same for reading that goes past something. -/
theorem Seen.short_read {α : Type} {x : Read α c} (h : Seen stop (fun r => Short stop r.2.1) x)
    (hc : Stands t groups c) (hx : LocatesIn t groups c x) : Short stop c :=
  h.short (fun _ => Nat.le_of_lt) hc hx

theorem mirrors_readNibble (h : t'.take stop = t.take stop) (hc : Stands t groups c) :
    MirrorsOn t' stop (Short stop) (readNibble c) (readNibble (c.on t')) := by
  intro hseen
  have hshort := hseen.short_read hc (locates_readNibble hc)
  revert hseen
  unfold readNibble
  cases hnext : c.next? with
  | none =>
    rw [hc.next?_on_of_eq_none h hshort hnext]
    exact mirrors_error
  | some r =>
    obtain ⟨b, d, hd⟩ := r
    obtain ⟨hd', hnext'⟩ := hc.exists_next?_on h hshort hnext
    rw [hnext']
    dsimp only
    split
    · exact mirrors_ok fun _ => ⟨rfl, rfl⟩
    · exact mirrors_error

theorem mirrors_readByte (h : t'.take stop = t.take stop) (hc : Stands t groups c) :
    MirrorsOn t' stop (Short stop) (readByte c) (readByte (c.on t')) := by
  unfold readByte
  refine (mirrors_readNibble h hc).bind_on (locates_readNibble hc) ?_ ?_
  · intro high d hd hd' hds hshort
    exact (mirrors_readNibble h hds).map_on (fun _ _ _ => ⟨_, rfl⟩) fun _ _ _ => ⟨_, rfl⟩
  · intro high d hd hds hseen
    exact (hseen.of_bind fun _ _ hlow => hlow).short_read hds (locates_readNibble hds)

theorem mirrors_readByteOrRange (h : t'.take stop = t.take stop) (hc : Stands t groups c) :
    MirrorsOn t' stop (Short stop) (readByteOrRange c) (readByteOrRange (c.on t')) := by
  unfold readByteOrRange
  refine (mirrors_readByte h hc).bind_on (locates_readByte hc) ?_ ?_
  · rintro ⟨value, mask⟩ d hd hd' hds hshort
    dsimp only
    cases hnext : d.next? with
    | none =>
      rw [hds.next?_on_of_eq_none h hshort hnext]
      exact mirrors_ok fun _ => ⟨rfl, rfl⟩
    | some r =>
      obtain ⟨b, e, he⟩ := r
      obtain ⟨he', hnext'⟩ := hds.exists_next?_on h hshort hnext
      rw [hnext']
      dsimp only
      split
      · rename_i hdash
        rw [eq_of_beq hdash] at hnext
        have hes : Stands t groups e := hds.next hnext (by decide)
        refine (mirrors_readByte h hes).bind_on (locates_readByte hes) ?_ ?_
        · rintro ⟨high, highMask⟩ f hf hf' hfs _
          dsimp only
          split
          · exact mirrors_ok fun _ => ⟨rfl, rfl⟩
          · exact mirrors_error
        · exact fun _ _ _ _ hseen => hseen.of_ite (by decide)
      · exact mirrors_ok fun _ => ⟨rfl, rfl⟩
  · rintro ⟨value, mask⟩ d hd hds hseen
    -- Behind the first byte there is nothing to read, or a dash and the end that is seen.
    dsimp only at hseen
    split at hseen
    · exact hseen
    · rename_i b e he hnext
      split at hseen
      · rename_i hdash
        rw [eq_of_beq hdash] at hnext
        have hes : Stands t groups e := hds.next hnext (by decide)
        have hshort : Short stop e :=
          (hseen.of_bind fun _ _ hrange => hrange.of_ite (by decide)).short_read hes
            (locates_readByte hes)
        exact hshort.of_next? hnext
      · exact hseen

theorem mirrors_readBits {count : Nat} {value mask : UInt8} (h : t'.take stop = t.take stop)
    (hc : Stands t groups c) : MirrorsOn t' stop (Short stop) (readBits count value mask c)
      (readBits count value mask (c.on t')) := by
  induction count generalizing value mask c with
  | zero => exact mirrors_ok fun _ => ⟨rfl, rfl⟩
  | succ count ih =>
    intro hseen
    have hshort := hseen.short (fun _ => id) hc (locates_readBits hc)
    revert hseen
    unfold readBits
    cases hnext : c.next? with
    | none =>
      rw [hc.next?_on_of_eq_none h hshort hnext]
      exact mirrors_error
    | some r =>
      obtain ⟨b, d, hd⟩ := r
      obtain ⟨hd', hnext'⟩ := hc.exists_next?_on h hshort hnext
      rw [hnext']
      dsimp only
      split
      · exact mirrors_error
      · rename_i bit bitMask hbit
        have hb := (bitMask?_eq_some_iff b _).1 hbit
        have hds : Stands t groups d := hc.next hnext (isPlain_of_mem_marks hb)
        exact (ih hds).map_on (fun _ _ _ => ⟨_, rfl⟩) fun _ _ _ => ⟨_, rfl⟩

theorem mirrors_readSingle (h : t'.take stop = t.take stop) (hc : Stands t groups c)
    (hplace : AtCondition c) :
    MirrorsOn t' stop (Short stop) (readSingle c) (readSingle (c.on t')) := by
  intro hseen
  have hshort := hseen.short_read hc (locates_readSingle hc hplace)
  revert hseen
  unfold readSingle
  cases hnext : c.next? with
  | none =>
    rw [hc.next?_on_of_eq_none h hshort hnext]
    exact mirrors_error
  | some r =>
    obtain ⟨b, d, hd⟩ := r
    obtain ⟨hd', hnext'⟩ := hc.exists_next?_on h hshort hnext
    rw [hnext']
    dsimp only
    split
    · exact mirrors_ok fun _ => ⟨rfl, rfl⟩
    · split
      · rename_i hbits
        rw [eq_of_beq hbits] at hnext
        have hds : Stands t groups d := hc.next hnext (by decide)
        exact (mirrors_readBits h hds).map_on (fun _ _ _ => ⟨_, rfl⟩) fun _ _ _ => ⟨_, rfl⟩
      · split
        · rename_i hquote
          rw [eq_of_beq hquote] at hnext
          have hdw : Within t d := hc.toWithin.next hnext (by decide)
          cases hchar : d.next? with
          | none => exact mirrors_of_kind (by decide)
          | some r =>
            obtain ⟨char, e, he⟩ := r
            dsimp only
            intro hseen
            -- The character is seen, whether it is taken or blamed.
            have hshort' : Short stop d := by
              split at hseen
              · have hshort : Short stop e := hseen
                exact hshort.of_next? hchar
              · exact hseen.2
            obtain ⟨he', hchar'⟩ := hdw.exists_next?_on h hshort' hchar
            rw [hchar']
            revert hseen
            dsimp only
            split
            · exact mirrors_ok fun _ => ⟨rfl, rfl⟩
            · exact mirrors_error
        · split
          · exact mirrors_readByteOrRange h hc
          · exact mirrors_error

/-! ### Operators -/

/-- Whether a cursor comes to such a place over white space. -/
abbrev ShortPast (stop : Nat) (c : Cursor) : Prop := Short stop c.skipSpace.1

theorem Short.of_past (h : ShortPast stop c) : Short stop c :=
  Nat.lt_of_le_of_lt (Nat.le_add_right _ _) h

/-- Reading that comes to a place with white space behind it. -/
theorem Seen.short_of_past {α : Type} {x : Read α c}
    (h : Seen stop (fun r => ShortPast stop r.2.1) x) (hc : Stands t groups c)
    (hx : LocatesIn t groups c x) : Short stop c := by
  refine h.offset_lt hx ?_
  rintro ⟨a, d, hd⟩ hread hshort
  have hds : Stands t groups d := hx.ok _ hread
  exact Nat.lt_of_le_of_lt (hc.offset_le_offset hds.toWithin (Nat.le_of_lt hd))
    (Short.of_past hshort)

/-- What it takes to see whether an operator comes next: what follows white space, and what follows
    the operator. -/
def ShortOperator (stop : Nat) {c : Cursor} : Option c.After → Prop
  | none => ShortPast stop c
  | some e => Short stop e.1

theorem isPlain_of_operator {op : UInt8} (hop : op = byte '&' ∨ op = byte '|') : IsPlain op := by
  rcases hop with rfl | rfl <;> decide

theorem shortPast_of_readOperator {op : UInt8} (hop : op = byte '&' ∨ op = byte '|')
    (hc : Stands t groups c) (h : Seen stop (ShortOperator stop) (readOperator op c)) :
    ShortPast stop c := by
  obtain ⟨d, hd, hskip, hds⟩ := hc.exists_skipSpace
  unfold readOperator at h
  rw [hskip] at h
  dsimp only at h
  split at h
  · exact h
  · rename_i b e he hnext
    split at h
    · rename_i hb
      rw [eq_of_beq hb] at hnext
      have hes : Stands t groups e := hds.next hnext (isPlain_of_operator hop)
      obtain ⟨f, hf, hskip', hfs⟩ := hes.exists_skipSpace
      rw [hskip'] at h
      have hshort : Short stop f := h.of_ite (by decide)
      rw [ShortPast, hskip]
      exact Nat.lt_of_le_of_lt (hds.offset_le_offset hfs.toWithin (by omega)) hshort
    · exact h

theorem mirrors_readOperator {op : UInt8} (hop : op = byte '&' ∨ op = byte '|')
    (h : t'.take stop = t.take stop) (hc : Stands t groups c) :
    Mirrors stop (ShortOperator stop) (Option.Rel fun d d' => d'.1 = d.1.on t')
      (readOperator op c) (readOperator op (c.on t')) := by
  intro hseen
  have hshort := shortPast_of_readOperator hop hc hseen
  revert hseen
  obtain ⟨d, hd, hskip, hds⟩ := hc.exists_skipSpace
  unfold ShortPast at hshort
  rw [hskip] at hshort
  obtain ⟨hd', hskip'⟩ := hc.exists_skipSpace_on h hskip hshort
  unfold readOperator
  rw [hskip, hskip']
  dsimp only
  cases hnext : d.next? with
  | none =>
    rw [hds.next?_on_of_eq_none h hshort hnext]
    exact mirrors_ok fun _ => .none
  | some r =>
    obtain ⟨b, e, he⟩ := r
    obtain ⟨he', hnext'⟩ := hds.exists_next?_on h hshort hnext
    rw [hnext']
    dsimp only
    split
    · rename_i hb
      rw [eq_of_beq hb] at hnext
      have hes : Stands t groups e := hds.next hnext (isPlain_of_operator hop)
      obtain ⟨f, hf, hskipf, hfs⟩ := hes.exists_skipSpace
      rw [hskipf]
      dsimp only
      intro hseen
      -- Without a condition behind it the operator is blamed, and not the byte there.
      split at hseen
      · rename_i hstart
        have hshort' : Short stop f := hseen
        obtain ⟨hf', hskipf'⟩ := hes.exists_skipSpace_on h hskipf hshort'
        have hhead : (f.on t').rest.head? = f.rest.head? := by
          rw [hfs.rest, Cursor.on, List.head?_drop, List.head?_drop,
            getElem?_of_take_eq h hshort']
        rw [hskipf']
        dsimp only
        rw [hhead, if_pos hstart, if_pos hstart]
        exact .ok (.some rfl)
      · exact absurd hseen (not_seen_error (by decide))
    · exact mirrors_ok fun _ => .none

theorem mirrors_readJoined {op : UInt8} {part : (c : Cursor) → Read ByteClass c}
    (hop : op = byte '&' ∨ op = byte '|')
    (hpart : ∀ c, Stands t groups c → AtCondition c → LocatesIn t groups c (part c))
    (hmirrors : ∀ c, Stands t groups c → AtCondition c →
      MirrorsOn t' stop (ShortPast stop) (part c) (part (c.on t')))
    (h : t'.take stop = t.take stop) (hc : Stands t groups c) (hplace : AtCondition c) :
    MirrorsOn t' stop (ShortPast stop) (readJoined op part c) (readJoined op part (c.on t')) := by
  -- Every part leaves fewer bytes unread.
  obtain ⟨n, hn⟩ : ∃ n, c.left = n := ⟨_, rfl⟩
  induction n using Nat.strongRecOn generalizing c with
  | ind n ih =>
    have hothers : ∀ (d e : Cursor) (he : e.left < d.left), Stands t groups d →
        readOperator op d = .ok (some ⟨e, he⟩) →
        Seen stop (fun r => ShortPast stop r.2.1) (readJoined op part e) → Short stop e := by
      intro d e he hds hnext hseen
      obtain ⟨hes, hstart⟩ := (locates_readOperator hop hds).ok _ hnext _ rfl
      exact hseen.short_of_past hes
        (locates_readJoined hop hpart hes (atCondition_of_startsClass hstart))
    rw [readJoined, readJoined]
    refine (hmirrors c hc hplace).bind_on (hpart c hc hplace) ?_ ?_
    · intro first d hd hd' hds hshort
      refine (mirrors_readOperator hop h hds).bind ?_ ?_
      · intro r r' hnext hreach hsame
        cases hsame with
        | none => exact mirrors_ok fun _ => ⟨rfl, rfl⟩
        | @some e e' hsame =>
          obtain ⟨e, he⟩ := e
          obtain ⟨e', he'⟩ := e'
          have hsame : e' = e.on t' := hsame
          subst hsame
          obtain ⟨hes, hstart⟩ := (locates_readOperator hop hds).ok _ hnext _ rfl
          have hes : Stands t groups e := hes
          have hplace' := atCondition_of_startsClass hstart
          exact (ih e.left (by omega) hes hplace' rfl).map_on (fun _ _ _ => ⟨_, rfl⟩)
            fun _ _ _ => ⟨_, rfl⟩
      · rintro (_ | ⟨e, he⟩) hnext hseen
        · exact hseen
        · exact hothers d e he hds hnext (hseen.of_bind fun _ _ hrest => hrest)
    · intro first d hd hds hseen
      refine shortPast_of_readOperator hop hds (hseen.of_bind ?_)
      rintro (_ | ⟨e, he⟩) hnext hrest
      · exact hrest
      · exact hothers d e he hds hnext (hrest.of_bind fun _ _ hrest => hrest)

theorem Mirrors.of_short {α : Type} {Q Q' : Cursor → Prop} {x : Except SyntaxError (α × Subtype Q)}
    {x' : Except SyntaxError (α × Subtype Q')} (h : MirrorsOn t' stop (Short stop) x x') :
    MirrorsOn t' stop (ShortPast stop) x x' := by
  intro hseen
  apply h
  cases x with
  | ok r => exact Short.of_past hseen
  | error e => exact hseen

theorem mirrors_readConjunction (h : t'.take stop = t.take stop) (hc : Stands t groups c)
    (hplace : AtCondition c) :
    MirrorsOn t' stop (ShortPast stop) (readConjunction c) (readConjunction (c.on t')) := by
  have hjoined := mirrors_readJoined (.inl rfl) (fun _ => locates_readSingle)
    (fun _ hc hplace => (mirrors_readSingle h hc hplace).of_short) h hc hplace
  unfold readConjunction
  exact hjoined.map_on (fun _ _ _ => ⟨_, rfl⟩) fun _ _ _ => ⟨_, rfl⟩

theorem mirrors_readAlternation (h : t'.take stop = t.take stop) (hc : Stands t groups c)
    (hplace : AtCondition c) :
    MirrorsOn t' stop (ShortPast stop) (readAlternation c) (readAlternation (c.on t')) := by
  have hjoined := mirrors_readJoined (.inr rfl) (fun _ => locates_readConjunction)
    (fun _ => mirrors_readConjunction h) h hc hplace
  unfold readAlternation
  exact hjoined.map_on (fun _ _ _ => ⟨_, rfl⟩) fun _ _ _ => ⟨_, rfl⟩

/-! ### Counts -/

theorem mirrors_readDecimal (h : t'.take stop = t.take stop) (hc : Stands t groups c) :
    MirrorsOn t' stop (Short stop) (readDecimal c) (readDecimal (c.on t')) := by
  simp only [readDecimal]
  -- No fault of a number is about one byte, so it is enough to see where its digits end.
  by_cases hempty : c.rest.takeWhile isDigit = []
  · rw [dif_pos hempty]
    split
    · exact mirrors_of_kind (by decide)
    · exact mirrors_of_kind (by decide)
  · rw [dif_neg hempty]
    split
    · exact mirrors_of_kind (by decide)
    · rename_i hword
      split
      · exact mirrors_of_kind (by decide)
      · rename_i hzero
        intro hseen
        have hshort : c.offset + (c.rest.takeWhile isDigit).length < stop := hseen
        have hdigits := hc.takeWhile_on h hshort
        rw [dif_neg (by rwa [hdigits])]
        simp only [hdigits]
        rw [if_neg hword, if_neg hzero]
        refine .ok ⟨rfl, ?_⟩
        show Cursor.mk ((t'.drop c.offset).drop _) _ = Cursor.mk (t'.drop _) _
        rw [List.drop_drop]
        rfl

theorem mirrors_readCount {close : UInt8} (h : t'.take stop = t.take stop)
    (hc : Stands t groups c) :
    MirrorsOn t' stop (Short stop) (readCount close c) (readCount close (c.on t')) := by
  unfold readCount
  refine (mirrors_readDecimal h hc).bind_on (locates_readDecimal hc) ?_ ?_
  · intro count d hd hd' hds hshort
    dsimp only
    cases hnext : d.next? with
    | none => exact mirrors_of_kind (by decide)
    | some r =>
      obtain ⟨b, e, he⟩ := r
      obtain ⟨he', hnext'⟩ := hds.exists_next?_on h hshort hnext
      rw [hnext']
      dsimp only
      split
      · exact mirrors_ok fun _ => ⟨rfl, rfl⟩
      · exact mirrors_of_kind (by decide)
  · intro count d hd hds hseen
    dsimp only at hseen
    split at hseen
    · exact absurd hseen (not_seen_error (by decide))
    · rename_i b e he hnext
      have hshort : Short stop e := hseen.of_ite (by decide)
      exact hshort.of_next? hnext

theorem shortPast_of_readQuantifier (hc : Stands t groups c)
    (h : Seen stop (fun r => Short stop r.2.1) (readQuantifier c)) : ShortPast stop c := by
  obtain ⟨d, hd, hskip, hds⟩ := hc.exists_skipSpace
  unfold readQuantifier at h
  rw [hskip] at h
  rw [ShortPast, hskip]
  dsimp only at h
  split at h
  · exact h
  · rename_i b e he hnext
    split at h
    · rename_i hb
      rw [eq_of_beq hb] at hnext
      have hes : Stands t groups e := hds.next hnext (by decide)
      have hshort : Short stop e :=
        (h.of_bind fun _ _ hcount => hcount).short_read hes (locates_readCount (by decide) hes)
      exact hshort.of_next? hnext
    · exact h

theorem mirrors_readQuantifier (h : t'.take stop = t.take stop) (hc : Stands t groups c) :
    MirrorsOn t' stop (Short stop) (readQuantifier c) (readQuantifier (c.on t')) := by
  intro hseen
  have hshort := shortPast_of_readQuantifier hc hseen
  revert hseen
  obtain ⟨d, hd, hskip, hds⟩ := hc.exists_skipSpace
  rw [ShortPast, hskip] at hshort
  obtain ⟨hd', hskip'⟩ := hc.exists_skipSpace_on h hskip hshort
  unfold readQuantifier
  rw [hskip, hskip']
  dsimp only
  cases hnext : d.next? with
  | none =>
    rw [hds.next?_on_of_eq_none h hshort hnext]
    exact mirrors_ok fun _ => ⟨rfl, rfl⟩
  | some r =>
    obtain ⟨b, e, he⟩ := r
    obtain ⟨he', hnext'⟩ := hds.exists_next?_on h hshort hnext
    rw [hnext']
    dsimp only
    split
    · rename_i hb
      rw [eq_of_beq hb] at hnext
      have hes : Stands t groups e := hds.next hnext (by decide)
      exact (mirrors_readCount h hes).map_on (fun _ _ _ => ⟨_, rfl⟩) fun _ _ _ => ⟨_, rfl⟩
    · exact mirrors_ok fun _ => ⟨rfl, rfl⟩

/-! ### Sequences -/

/-- A sequence is read from `c` on in the same way in both texts. -/
def MirrorsFrom (t t' : List UInt8) (stop : Nat) (c : Cursor) : Prop :=
  ∀ (start start' : Cursor) (opened : Option Nat) (classes : Array ByteClass)
    (hc : c.left ≤ start.left) (hc' : (c.on t').left ≤ start'.left) (groups : List Nat),
    Stands t groups c → opened = groups.head? →
    MirrorsOn t' stop (Short stop) (readSequence start opened classes c hc)
      (readSequence start' opened classes (c.on t') hc')

theorem mirrors_readGroup {e : c.After} {e' : (c.on t').After} (h : t'.take stop = t.take stop)
    (hc : Stands t groups c) (hnext : c.next? = some (byte '(', e)) (he : e'.1 = e.1.on t')
    (ih : MirrorsFrom t t' stop e.1) :
    MirrorsOn t' stop (Short stop) (readGroup c e) (readGroup (c.on t') e') := by
  have hes := hc.opened hnext
  obtain ⟨e, hlt⟩ := e
  obtain ⟨e', hlt'⟩ := e'
  have he : e' = e.on t' := he
  subst he
  have hes : Stands t (c.offset :: groups) e := hes
  have hloc := locatesFrom t e e (some c.offset) #[] (Nat.le_refl _) _ hes rfl
  unfold readGroup
  refine (ih e (e.on t') (some c.offset) #[] (Nat.le_refl _) (Nat.le_refl _) _ hes rfl).bind_on
    hloc ?_ ?_
  · intro group f hf hf' hfs hshort
    dsimp only
    split
    · exact mirrors_of_kind (by decide)
    · exact (mirrors_readQuantifier h hfs).map_on (fun _ _ _ => ⟨_, rfl⟩) fun _ _ _ => ⟨_, rfl⟩
  · intro group f hf hfs hseen
    dsimp only at hseen
    split at hseen
    · exact absurd hseen (not_seen_error (by decide))
    · exact Short.of_past (shortPast_of_readQuantifier hfs (hseen.of_bind fun _ _ hcount => hcount))

theorem mirrors_readSkip {e : c.After} {e' : (c.on t').After} (h : t'.take stop = t.take stop)
    (hc : Stands t groups c) (hnext : c.next? = some (byte '+', e)) (he : e'.1 = e.1.on t') :
    MirrorsOn t' stop (Short stop) (readSkip c e) (readSkip (c.on t') e') := by
  have hes : Stands t groups e.1 := hc.next hnext (by decide)
  obtain ⟨e, hlt⟩ := e
  obtain ⟨e', hlt'⟩ := e'
  have he : e' = e.on t' := he
  subst he
  unfold readSkip
  exact (mirrors_readCount h hes).map_on (fun _ _ _ => ⟨_, rfl⟩) fun _ _ _ => ⟨_, rfl⟩

theorem mirrors_readCondition (h : t'.take stop = t.take stop) (hc : Stands t groups c)
    (hplace : AtCondition c) :
    MirrorsOn t' stop (Short stop) (readCondition c) (readCondition (c.on t')) := by
  unfold readCondition
  refine (mirrors_readAlternation h hc hplace).bind_on (locates_readAlternation hc hplace) ?_ ?_
  · intro condition f hf hf' hfs _
    exact (mirrors_readQuantifier h hfs).map_on (fun _ _ _ => ⟨_, rfl⟩) fun _ _ _ => ⟨_, rfl⟩
  · intro condition f hf hfs hseen
    exact shortPast_of_readQuantifier hfs (hseen.of_bind fun _ _ hcount => hcount)

theorem mirrors_readItem {b : UInt8} {e : c.After} {e' : (c.on t').After}
    (h : t'.take stop = t.take stop) (hc : Stands t groups c) (hnext : c.next? = some (b, e))
    (he : e'.1 = e.1.on t') (hspace : b ∉ spaces) (hclose : b ≠ byte ')')
    (ih : MirrorsFrom t t' stop e.1) :
    MirrorsOn t' stop (Short stop) (readItem c b e) (readItem (c.on t') b e') := by
  unfold readItem
  split
  · rename_i hb
    rw [eq_of_beq hb] at hnext
    exact mirrors_readGroup h hc hnext he ih
  · rename_i hopen
    split
    · rename_i hb
      rw [eq_of_beq hb] at hnext
      exact mirrors_readSkip h hc hnext he
    · rename_i hskip
      exact mirrors_readCondition h hc
        (atCondition_of_next? hnext ⟨hspace, by simpa using hopen, by simpa using hskip, hclose⟩)

theorem short_of_readSequence {start : Cursor} {opened : Option Nat} {classes : Array ByteClass}
    {hstart : c.left ≤ start.left} (hc : Stands t groups c) (hopened : opened = groups.head?)
    (h : Seen stop (fun r => Short stop r.2.1) (readSequence start opened classes c hstart)) :
    Short stop c := by
  have hlocates := locatesFrom t c start opened classes hstart groups hc hopened
  refine h.offset_lt hlocates ?_
  rintro ⟨all, d⟩ hread hshort
  obtain ⟨⟨u, cs, -, -, hrest⟩, -, -⟩ := spansFrom c start opened classes hstart all d hread
  have hds : Stands t groups.tail d.1 := hlocates.ok _ hread
  have hle : d.1.left ≤ c.left := by
    have hlength := congrArg List.length hrest
    rw [List.length_append, List.length_append] at hlength
    show d.1.rest.length ≤ c.rest.length
    omega
  exact Nat.lt_of_le_of_lt (hc.offset_le_offset hds.toWithin hle) hshort

/-- What follows an item begins at a place that is seen. -/
theorem short_of_repeated {start : Cursor} {opened : Option Nat} {classes group : Array ByteClass}
    {count : Nat} {hstart : c.left ≤ start.left} (hc : Stands t groups c)
    (hopened : opened = groups.head?)
    (h : Seen stop (fun r => Short stop r.2.1) (do
      let longer ← repeated c classes group count
      readSequence start opened longer c hstart)) : Short stop c := by
  have hrepeated : Seen stop (fun _ => Short stop c) (repeated c classes group count) :=
    h.of_bind fun _ _ hrest => short_of_readSequence hc hopened hrest
  unfold repeated at hrepeated
  exact hrepeated.of_ite (by decide)

theorem mirrorsFrom (h : t'.take stop = t.take stop) (c : Cursor) : MirrorsFrom t t' stop c := by
  -- Groups and what follows an item have fewer bytes left.
  obtain ⟨n, hn⟩ : ∃ n, c.left = n := ⟨_, rfl⟩
  induction n using Nat.strongRecOn generalizing c with
  | ind n ih =>
    intro start start' opened classes hc hc' groups hstands hopened
    obtain ⟨d, hd, hskip, hds⟩ := hstands.exists_skipSpace
    cases hnext : d.next? with
    | none =>
      rw [readSequence_of_end hskip hnext]
      -- A group that is not closed is blamed on its parenthesis, whatever the next bytes are.
      cases opened with
      | some o => exact mirrors_of_kind (by decide)
      | none =>
        intro hshort
        have hshort : Short stop d := hshort
        obtain ⟨hd', hskip'⟩ := hstands.exists_skipSpace_on h hskip hshort
        have hnext' := hds.next?_on_of_eq_none h hshort hnext
        rw [readSequence_of_end hskip' hnext']
        exact .ok ⟨rfl, rfl⟩
    | some r =>
      obtain ⟨b, e, he⟩ := r
      by_cases hb : b = byte ')'
      · subst hb
        rw [readSequence_of_close hskip hnext]
        cases opened with
        | none => exact mirrors_of_kind (by decide)
        | some o =>
          intro hshort
          have hshort : Short stop e := hshort
          have hshort' : Short stop d := hshort.of_next? hnext
          obtain ⟨hd', hskip'⟩ := hstands.exists_skipSpace_on h hskip hshort'
          obtain ⟨he', hnext'⟩ := hds.exists_next?_on h hshort' hnext
          rw [readSequence_of_close hskip' hnext']
          exact .ok ⟨rfl, rfl⟩
      · have hspace := not_mem_spaces_of_skipSpace hskip hnext
        have hlocates := locates_readItem hds hnext hspace hb (locatesFrom t e)
        rw [readSequence_of_next? hskip hnext hb]
        intro hseen
        have hshort : Short stop d := by
          refine Seen.short_read (hseen.of_bind ?_) hds hlocates
          rintro ⟨item, g, hg⟩ hitem hrest
          exact short_of_repeated (hlocates.ok _ hitem) hopened hrest
        revert hseen
        obtain ⟨hd', hskip'⟩ := hstands.exists_skipSpace_on h hskip hshort
        obtain ⟨he', hnext'⟩ := hds.exists_next?_on h hshort hnext
        rw [readSequence_of_next? hskip' hnext' hb]
        have hgroup := ih e.left (by omega) e rfl
        refine (mirrors_readItem h hds hnext rfl hspace hb hgroup).bind_on hlocates ?_ ?_
        · intro item g hg hg' hgs _
          refine Mirrors.bind_same fun longer => ?_
          exact ih g.left (by omega) g rfl start start' opened longer _ _ groups hgs hopened
        · exact fun _ _ _ hgs hrest => short_of_repeated hgs hopened hrest

end

end Chiptune.Pattern
