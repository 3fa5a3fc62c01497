import Chiptune.Proofs.Compile

namespace Chiptune

open Pattern.Grammar

/-!
# Patterns as text and back

A pattern that was compiled is written as text that compiles to the same pattern.

* `ByteClass.Normal` — the classes that text can stand for;
* `Pattern.normal_of_compile` — all classes of a compiled pattern are such classes;
* `alternation_of_normal` — a class in normal form is written as text that stands for it;
* `Pattern.compile_render` — so compiling takes the text of a pattern back to the pattern.
-/

/-! ### Normal forms -/

namespace ByteClass

/-- A class of a single condition that text can stand for: some bits are compared, and only these
    have a value, or the ends of a range are in order. -/
def Plain : ByteClass → Prop
  | .any => True
  | .masked value mask => mask ≠ 0 ∧ value &&& mask = value
  | .range low high => low ≤ high
  | .allOf _ | .anyOf _ => False

/-- Whether a class is one of some kind, or combines two or more of them. -/
def Combined (join : List ByteClass → ByteClass) (Kind : ByteClass → Prop) (c : ByteClass) : Prop :=
  Kind c ∨ ∃ members, c = join members ∧ 2 ≤ members.length ∧ ∀ m ∈ members, Kind m

/-- Whether text can stand for a class: conditions are combined by `&`, and these by `|`. -/
def Normal : ByteClass → Prop := Combined .anyOf (Combined .allOf Plain)

theorem plain_ofMask (value mask : UInt8) : (ofMask value mask).Plain := by
  unfold ofMask
  split
  · exact trivial
  · rename_i hmask
    have hsame : value &&& mask &&& mask = value &&& mask := by
      rw [UInt8.and_assoc, UInt8.and_self]
    exact ⟨by simpa using hmask, hsame⟩

/-- What has a value only in the bits of a mask is written back by the mask. -/
theorem ofMask_of_plain {value mask : UInt8} (h : (masked value mask).Plain) :
    ofMask value mask = masked value mask := by
  have hmask : ¬(mask == 0) = true := by simpa using h.1
  rw [ofMask, if_neg hmask, h.2]

theorem plain_of_bits {count : Nat} {value mask : UInt8} {t : List UInt8} {c : ByteClass}
    (h : Bits count value mask t c) : c.Plain := by
  induction h with
  | none => exact plain_ofMask _ _
  | mark _ _ ih => exact ih

theorem plain_of_simple {t : List UInt8} {c : ByteClass} (h : Simple t c) : c.Plain := by
  cases h with
  | any => exact trivial
  | bits hbits => exact plain_of_bits hbits
  | @quote b hb => exact ⟨by decide, UInt8.and_neg_one⟩
  | byte _ => exact plain_ofMask _ _
  | range _ _ hle => exact hle

variable {op : UInt8} {Part : List UInt8 → ByteClass → Prop} {Kind : ByteClass → Prop}
  {join : List ByteClass → ByteClass} {t : List UInt8} {c : ByteClass} {cs : List ByteClass}

theorem forall_of_linked (hpart : ∀ t c, Part t c → Kind c) (h : Linked op Part t cs) :
    cs ≠ [] ∧ ∀ c ∈ cs, Kind c := by
  induction h with
  | last hc => exact ⟨List.cons_ne_nil _ _, List.forall_mem_singleton.2 (hpart _ _ hc)⟩
  | more hc _ _ _ ih =>
    exact ⟨List.cons_ne_nil _ _, List.forall_mem_cons.2 ⟨hpart _ _ hc, ih.2⟩⟩

theorem combined_of_linked (join : List ByteClass → ByteClass) (hpart : ∀ t c, Part t c → Kind c)
    (h : Linked op Part t cs) : Combined join Kind (Pattern.combine join cs) := by
  obtain ⟨hne, hkind⟩ := forall_of_linked hpart h
  match cs, hne with
  | [c], _ => exact .inl (hkind c List.mem_cons_self)
  | c :: c' :: rest, _ => exact .inr ⟨_, rfl, Nat.le_add_left 2 _, hkind⟩

theorem normal_of_alternation (h : Alternation t c) : c.Normal := by
  obtain ⟨members, hlinked, rfl⟩ := h
  apply combined_of_linked _ _ hlinked
  rintro t c ⟨members, hlinked, rfl⟩
  exact combined_of_linked _ (fun _ _ => plain_of_simple) hlinked

theorem normal_of_derives {padded : Bool} {phrase : Phrase} (h : Derives padded phrase t cs) :
    ∀ c ∈ cs, c.Normal := by
  induction h with
  | condition ht _ =>
    intro c hc
    rw [List.eq_of_mem_replicate hc]
    exact normal_of_alternation ht
  | group _ _ ih =>
    intro c hc
    obtain ⟨copy, hcopy, hc⟩ := List.mem_flatten.1 hc
    rw [List.eq_of_mem_replicate hcopy] at hc
    exact ih c hc
  | skip _ =>
    intro c hc
    rw [List.eq_of_mem_replicate hc]
    exact .inl (.inl trivial)
  | last _ ih => exact ih
  | more _ _ _ ih ih' => exact fun c hc => (List.mem_append.1 hc).elim (ih c) (ih' c)
  | sequence _ _ _ ih => exact ih

end ByteClass

/-- All classes of a compiled pattern are in normal form. -/
theorem Pattern.normal_of_compile {text : String} {p : Pattern} (h : compile text = .ok p) :
    ∀ c ∈ p.classes, c.Normal :=
  ByteClass.normal_of_derives (derives_of_compile h).1

/-! ### Text as bytes -/

namespace Pattern

theorem bytes_append (a b : String) : bytes (a ++ b) = bytes a ++ bytes b := by
  simp [bytes]

theorem bytes_ofList {cs : List Char} (h : ∀ c ∈ cs, bytes (String.singleton c) = [byte c]) :
    bytes (String.ofList cs) = cs.map byte := by
  induction cs with
  | nil => rfl
  | cons c cs ih =>
    obtain ⟨hc, hrest⟩ := List.forall_mem_cons.1 h
    have hsplit : String.ofList (c :: cs) = String.singleton c ++ String.ofList cs := by
      apply String.toList_injective
      simp
    rw [hsplit, bytes_append, hc, ih hrest]
    rfl

theorem bytes_intercalate_cons_cons (separator first second : String) (rest : List String) :
    bytes (separator.intercalate (first :: second :: rest))
      = bytes first ++ (bytes separator ++ bytes (separator.intercalate (second :: rest))) := by
  rw [String.intercalate_cons_cons, bytes_append, bytes_append, List.append_assoc]

end Pattern

open Pattern (bytes bytes_append bytes_ofList bytes_intercalate_cons_cons forall_byte)

/-! ### Single conditions -/

/-- The hexadecimal digit for a nibble. -/
def hexMark (nibble : UInt8) : UInt8 := (Window.ascii "0123456789abcdef").getD nibble.toNat 0

theorem bytes_hex (b : UInt8) :
    bytes (Numeral.hex 2 b.toNat) = [hexMark (b >>> 4), hexMark (b &&& 0x0f)]
      ∧ (hexMark (b >>> 4), b >>> 4, 0x0f) ∈ nibbles
      ∧ (hexMark (b &&& 0x0f), b &&& 0x0f, 0x0f) ∈ nibbles
      ∧ (b >>> 4) <<< 4 ||| (b &&& 0x0f) = b := by
  revert b
  exact forall_byte (by decide +kernel)

/-- A byte is written as two digits. -/
theorem byte_hex (b : UInt8) : Byte (bytes (Numeral.hex 2 b.toNat)) b 0xff := by
  obtain ⟨htext, hhigh, hlow, hvalue⟩ := bytes_hex b
  have hbyte := Byte.nibbles hhigh hlow
  rw [hvalue] at hbyte
  rw [htext]
  exact hbyte

/-- The bits of a byte from the bit of weight `2 ^ n` on. -/
def upperBits (b : UInt8) (n : Nat) : UInt8 := UInt8.ofNat (b.toNat >>> n)

theorem upperBits_succ (b : UInt8) {n : Nat} (h : n < 8) :
    upperBits b (n + 1) <<< 1 ||| (if b.toNat.testBit n then 1 else 0) = upperBits b n := by
  have hall : ∀ b : UInt8, ∀ n < 8,
      upperBits b (n + 1) <<< 1 ||| (if b.toNat.testBit n then 1 else 0) = upperBits b n :=
    forall_byte (by decide +kernel)
  exact hall b n h

/-- A mark stands for its bit of the value and of the mask. -/
theorem mem_marks_bitMark {value mask : UInt8} (h : value &&& mask = value) (n : Nat) :
    (byte (ByteClass.bitMark value mask n), (if value.toNat.testBit n then 1 else 0),
      if mask.toNat.testBit n then 1 else 0) ∈ marks := by
  -- Only bits that are compared have a value.
  have hbit : value.toNat.testBit n = true → mask.toNat.testBit n = true := by
    intro hvalue
    rw [← h, UInt8.toNat_and, Nat.testBit_and, Bool.and_eq_true] at hvalue
    exact hvalue.2
  unfold ByteClass.bitMark
  cases hmask : mask.toNat.testBit n with
  | true => cases value.toNat.testBit n <;> decide
  | false =>
    have hvalue : value.toNat.testBit n = false := by
      cases hvalue : value.toNat.testBit n with
      | false => rfl
      | true => exact absurd (hbit hvalue) (by simp [hmask])
    rw [hvalue]
    decide

/-- The marks of the lowest bits stand for these bits. -/
theorem bits_bitMark {value mask : UInt8} (h : value &&& mask = value) {n : Nat} (hn : n ≤ 8) :
    Bits n (upperBits value n) (upperBits mask n)
      ((List.range n).reverse.map fun i => byte (ByteClass.bitMark value mask i))
      (.ofMask value mask) := by
  -- The marks before these have been read into the upper bits. The next mark adds one bit to them.
  induction n with
  | zero =>
    have hall : ∀ b : UInt8, upperBits b 0 = b := by
      intro b
      exact UInt8.ofNat_toNat
    rw [hall, hall]
    exact .none
  | succ n ih =>
    have hrest := ih (Nat.le_of_succ_le hn)
    rw [← upperBits_succ value hn, ← upperBits_succ mask hn] at hrest
    rw [List.range_succ, List.reverse_append, List.map_append]
    exact .mark (mem_marks_bitMark h n) hrest

theorem bytes_bitMarks (value mask : UInt8) :
    bytes (ByteClass.bitMarks value mask)
      = (List.range 8).reverse.map fun i => byte (ByteClass.bitMark value mask i) := by
  unfold ByteClass.bitMarks
  rw [bytes_ofList, List.map_map]
  · rfl
  · intro c hc
    obtain ⟨i, -, rfl⟩ := List.mem_map.1 hc
    unfold ByteClass.bitMark
    split
    · split <;> decide
    · decide

/-- A single condition is written as text that stands for it. -/
theorem simple_of_plain {c : ByteClass} (h : c.Plain) : Simple (bytes c.render) c := by
  cases c with
  | any => exact .any
  | masked value mask =>
    have hofMask := ByteClass.ofMask_of_plain h
    unfold ByteClass.render
    split
    · rename_i hfull
      rw [← hofMask, eq_of_beq hfull]
      exact .byte (byte_hex value)
    · have hbits := bits_bitMark h.2 (Nat.le_refl 8)
      rw [bytes_append, bytes_bitMarks, ← hofMask]
      have hzero : ∀ b : UInt8, upperBits b 8 = 0 := forall_byte (by decide +kernel)
      rw [hzero, hzero] at hbits
      exact .bits hbits
  | range low high =>
    unfold ByteClass.render
    rw [bytes_append, bytes_append, List.append_assoc]
    exact .range (byte_hex low) (byte_hex high) h
  | allOf members => exact h.elim
  | anyOf members => exact h.elim

/-! ### Combined conditions -/

theorem ByteClass.renderEach_eq_map (members : List ByteClass) :
    renderEach members = members.map render := by
  induction members with
  | nil => rfl
  | cons c rest ih => rw [renderEach, ih, List.map_cons]

section

variable {Part : List UInt8 → ByteClass → Prop} {Kind : ByteClass → Prop}
  {join : List ByteClass → ByteClass} {op : Char}

/-- Members are written with nothing but the operator between them. -/
theorem linked_render (hop : bytes (String.singleton op) = [byte op]) {members : List ByteClass}
    (hne : members ≠ []) (h : ∀ m ∈ members, Part (bytes m.render) m) :
    Linked (byte op) Part
      (bytes ((String.singleton op).intercalate (members.map ByteClass.render))) members := by
  -- Induction on the members. There is no operator behind the last one.
  induction members with
  | nil => exact absurd rfl hne
  | cons m rest ih =>
    obtain ⟨hm, hrest⟩ := List.forall_mem_cons.1 h
    cases rest with
    | nil =>
      rw [List.map_singleton, String.intercalate_singleton]
      exact .last hm
    | cons m' rest =>
      have hlinked := ih (List.cons_ne_nil _ _) hrest
      rw [List.map_cons, List.map_cons, bytes_intercalate_cons_cons, hop]
      exact .more hm (List.forall_mem_nil _) (List.forall_mem_nil _) hlinked

theorem exists_linked_of_combined (hop : bytes (String.singleton op) = [byte op])
    (hrender : ∀ members, (join members).render
      = (String.singleton op).intercalate (members.map ByteClass.render))
    (hpart : ∀ c, Kind c → Part (bytes c.render) c) {c : ByteClass}
    (h : ByteClass.Combined join Kind c) :
    ∃ members, Linked (byte op) Part (bytes c.render) members
      ∧ c = Pattern.combine join members := by
  rcases h with hc | ⟨members, rfl, hlength, hkind⟩
  · exact ⟨[c], .last (hpart c hc), rfl⟩
  · match members, hlength with
    | m :: m' :: rest, _ =>
      refine ⟨m :: m' :: rest, ?_, rfl⟩
      rw [hrender]
      exact linked_render hop (List.cons_ne_nil _ _) fun m hm => hpart m (hkind m hm)

/-- A class in normal form is written as text that stands for it. -/
theorem alternation_of_normal {c : ByteClass} (h : c.Normal) : Alternation (bytes c.render) c := by
  refine exists_linked_of_combined (by decide) (fun members => ?_) (fun c hc => ?_) h
  · rw [ByteClass.render, ByteClass.renderEach_eq_map]
    rfl
  · refine exists_linked_of_combined (by decide) (fun members => ?_) (fun _ => simple_of_plain) hc
    rw [ByteClass.render, ByteClass.renderEach_eq_map]
    rfl

end

/-! ### Patterns -/

namespace Pattern

/-- Positions are written one after the other. -/
theorem derives_render {classes : List ByteClass} (hne : classes ≠ [])
    (h : ∀ c ∈ classes, c.Normal) :
    Derives true .items (bytes (" ".intercalate (classes.map ByteClass.render))) classes := by
  have hitem {c : ByteClass} (hc : c.Normal) : Derives true .item (bytes c.render) [c] := by
    rw [← List.append_nil (bytes c.render)]
    exact .condition (alternation_of_normal hc) .once
  have hblank : Space (bytes " ") := by
    have htext : bytes " " = [byte ' '] := by decide
    rw [htext]
    exact List.forall_mem_singleton.2 (by decide)
  induction classes with
  | nil => exact absurd rfl hne
  | cons c rest ih =>
    obtain ⟨hc, hrest⟩ := List.forall_mem_cons.1 h
    cases rest with
    | nil =>
      rw [List.map_singleton, String.intercalate_singleton]
      exact .last (hitem hc)
    | cons c' rest =>
      have hitems := ih (List.cons_ne_nil _ _) hrest
      rw [List.map_cons, List.map_cons, bytes_intercalate_cons_cons]
      exact .more (hitem hc) hblank hitems

/-- **Compiling takes text back.** The text of a compiled pattern compiles to the same pattern, with
    the same classes in the same form. -/
theorem compile_render {text : String} {p : Pattern} (h : compile text = .ok p) :
    compile p.render = .ok p := by
  have hitems := derives_render p.nonempty (normal_of_compile h)
  have hpadding : Padding true [] := padding_of_space (List.forall_mem_nil _)
  have hderives : Derives true .sequence (bytes p.render) p.classes := by
    have hsequence := Derives.sequence hpadding hitems hpadding
    rwa [List.nil_append, List.append_nil] at hsequence
  -- What text of the grammar compiles to is what it stands for, so its reading need not be followed.
  have hcompile := compile_of_derives hderives
  have hle : p.classes.length ≤ maxLength := (derives_of_compile h).2
  rw [if_pos hle] at hcompile
  obtain ⟨p', hp', hclasses⟩ := hcompile
  obtain rfl : p' = p := by
    cases p'
    cases p
    congr
  exact hp'

/-- Characters, free nibbles, groups and skips are written in another way than they were read. -/
theorem compile_render_of_mixed :
    let text := "'S (4x){2} ?|%1x0xxxxx & 00-1f +2+"
    let p : Pattern := ⟨[.exact 0x53, .masked 0x40 0xf0, .masked 0x40 0xf0,
      .anyOf [.any, .allOf [.masked 0x80 0xa0, .range 0x00 0x1f]], .any, .any], by decide⟩
    compile text = .ok p ∧ p.render = "53 %0100xxxx %0100xxxx ?|%1x0xxxxx&00-1f ? ?"
      ∧ compile p.render = .ok p := by
  intro text p
  have hoption : (compile text).toOption = some p := by decide +kernel
  have hcompile : compile text = .ok p := by
    cases hresult : compile text with
    | error e =>
      rw [hresult] at hoption
      cases hoption
    | ok p' =>
      rw [hresult] at hoption
      exact congrArg Except.ok (Option.some.inj hoption)
  exact ⟨hcompile, by decide +kernel, compile_render hcompile⟩

end Pattern

end Chiptune
