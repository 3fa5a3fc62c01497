import Chiptune.Proofs.TagRounds
import Chiptune.Proofs.WrittenTexts

namespace Chiptune

/-!
# Headers of tags that were written

The tags of an SNDH file do not say how long they are. A tag is known by its word, and none of the
words begins with another one. What the tag says ends with a zero, or is as many numbers as there are
tunes, so whatever bytes it has, what is behind it is looked at next.

* `Digits` — numbers in decimal digits;
* `Sndh.fieldAt?_of_holdsAt` — the word of a tag tells its field;
* `Sndh.Tag` — the tags behind the number of tunes, and the zeros between them;
* `Sndh.Tag.round_eq`, `Sndh.readAll_tags` — one round for each tag, and what they come to;
* `Sndh.File.parse_image` — the header that is found in the image of a file.
-/

/-! ### Decimal digits -/

/-- A number in decimal digits, of which there is one or more. -/
structure Digits where
  chars : List Char
  ne_nil : chars ≠ []
  all_isDigit : chars.all Char.isDigit = true

namespace Digits

variable (d : Digits)

/-- The digits as a text. -/
def text : String := String.ofList d.chars

/-- The number. -/
def value : Nat := Numeral.value d.chars

theorem isDigit : ∀ c ∈ d.chars, c.isDigit = true := List.all_eq_true.1 d.all_isDigit

section

variable {c : Char} (h : c.isDigit = true)
include h

theorem isBlank_of_isDigit : isBlank c = false := by
  have hrange : 48 ≤ c.toNat ∧ c.toNat ≤ 57 := Char.isDigit_iff_toNat.1 h
  simp [isBlank, blankRanges]
  omega

theorem length_utf8EncodeChar_of_isDigit : (String.utf8EncodeChar c).length = 1 := by
  have hrange : 48 ≤ c.toNat ∧ c.toNat ≤ 57 := Char.isDigit_iff_toNat.1 h
  have hvalue : c.val.toNat = c.toNat := rfl
  rw [String.utf8EncodeChar, hvalue]
  simp only [if_pos (show c.toNat ≤ 127 by omega), List.length_singleton]

theorem ne_of_isDigit {other : Char} (hother : other.isDigit = false) : c ≠ other := by
  rintro rfl
  rw [h] at hother
  cases hother

end

theorem length_encode_text : (Utf8.encode d.text).length = d.chars.length := by
  rw [Utf8.encode_eq_flatMap, text, String.toList_ofList, List.length_flatMap,
    List.map_congr_left fun c hc => length_utf8EncodeChar_of_isDigit (d.isDigit c hc)]
  simp

theorem zero_not_mem_text : '\x00' ∉ d.text.toList := by
  rw [text, String.toList_ofList]
  exact fun h => ne_of_isDigit (d.isDigit _ h) (by decide) rfl

theorem trimBlank_text : trimBlank d.text = d.text := by
  have hdrop : ∀ l : List Char, (∀ c ∈ l, c.isDigit = true) → l.dropWhile isBlank = l := by
    intro l hl
    refine List.dropWhile_eq_self_iff.2 fun hpos => ?_
    rw [isBlank_of_isDigit (hl _ (List.getElem_mem hpos))]
    exact Bool.false_ne_true
  rw [trimBlank, text, String.toList_ofList]
  simp only [hdrop _ d.isDigit,
    hdrop _ fun c hc => d.isDigit c (List.mem_reverse.1 hc), List.reverse_reverse]

theorem parse?_text {bound : Nat} (h : d.value < bound) :
    Numeral.parse? bound d.text = some d.value := by
  have hsign : ∀ rest, d.chars ≠ '+' :: rest := fun rest heq =>
    ne_of_isDigit (d.isDigit '+' (heq ▸ List.mem_cons_self)) (by decide) rfl
  have hne : d.chars.isEmpty = false := by simpa using d.ne_nil
  rw [Numeral.parse?, text, String.toList_ofList]
  split
  · rename_i rest heq
    exact absurd heq (hsign rest)
  · rw [hne, d.all_isDigit, Bool.not_false, Bool.and_self, Bool.true_and]
    exact if_pos (decide_eq_true h)

end Digits

namespace Sndh

variable {w : Window} {pos start stop : Nat}

/-! ### Words -/

/-- All that is told apart at the place of a tag: the zero between tags, the word behind the last one,
    and the words of tags. -/
def openings : List (List UInt8) :=
  [0] :: Window.ascii endWord :: fieldWords.map fun e => Window.ascii e.1

theorem eq_of_isPrefix : ∀ word ∈ openings, ∀ other ∈ openings, word <+: other → word = other := by
  decide +kernel

/-- Only one of them stands at a place. -/
theorem eq_of_holdsAt {word other : List UInt8} (hword : word ∈ openings) (hother : other ∈ openings)
    (h : w.holdsAt pos word = true) (h' : w.holdsAt pos other = true) : word = other := by
  have hprefix : word <+: w.toList.drop pos := Window.take_drop_of_holdsAt h ▸ List.take_prefix ..
  have hprefix' : other <+: w.toList.drop pos := Window.take_drop_of_holdsAt h' ▸ List.take_prefix ..
  -- Of two words at one place the longer begins with the shorter.
  rcases List.prefix_or_prefix_of_prefix hprefix hprefix' with hle | hle
  · exact eq_of_isPrefix word hword other hother hle
  · exact (eq_of_isPrefix other hother word hword hle).symm

theorem ascii_mem_openings {e : String × Field} (he : e ∈ fieldWords) :
    Window.ascii e.1 ∈ openings :=
  List.mem_cons_of_mem _ (List.mem_cons_of_mem _ (List.mem_map_of_mem he))

theorem eq_of_ascii_eq : ∀ e ∈ fieldWords, ∀ other ∈ fieldWords,
    Window.ascii e.1 = Window.ascii other.1 → e = other := by
  decide +kernel

/-- A tag is about the field of its word. -/
theorem fieldAt?_of_holdsAt {e : String × Field} (he : e ∈ fieldWords)
    (h : w.holdsAt pos (Window.ascii e.1) = true) :
    fieldAt? w pos = some (e.2, pos + (Window.ascii e.1).length) := by
  cases hfind : fieldWords.find? fun e => w.holdsAt pos (Window.ascii e.1) with
  | none => exact absurd h (List.find?_eq_none.1 hfind e he)
  | some other =>
    have hother := List.mem_of_find?_eq_some hfind
    have hholds := List.find?_some hfind
    obtain rfl : e = other := eq_of_ascii_eq e he other hother
      (eq_of_holdsAt (ascii_mem_openings he) (ascii_mem_openings hother) h hholds)
    rw [fieldAt?, hfind, Option.map_some, Window.ascii, List.length_map, String.length_toList]

theorem fieldAt?_of_zero (h : w.holdsAt pos [0] = true) : fieldAt? w pos = none := by
  have hnone : fieldWords.find? (fun e => w.holdsAt pos (Window.ascii e.1)) = none := by
    refine List.find?_eq_none.2 fun e he hholds => ?_
    have hzero := eq_of_holdsAt List.mem_cons_self (ascii_mem_openings he) h hholds
    exact absurd hzero ((show ∀ e ∈ fieldWords, [0] ≠ Window.ascii e.1 by decide +kernel) e he)
  rw [fieldAt?, hnone, Option.map_none]

theorem holdsAt_endWord_of_ne {word : List UInt8} (hword : word ∈ openings)
    (hne : word ≠ Window.ascii endWord) (h : w.holdsAt pos word = true) :
    w.holdsAt pos (Window.ascii endWord) = false :=
  Bool.eq_false_iff.2 fun h' =>
    hne (eq_of_holdsAt hword (List.mem_cons_of_mem _ List.mem_cons_self) h h')

theorem ascii_ne_endWord : ∀ e ∈ fieldWords, Window.ascii e.1 ≠ Window.ascii endWord := by
  decide +kernel

/-! ### What a tag says -/

theorem trimmed_of_holdsAt {value : String} (hvalue : '\x00' ∉ value.toList)
    (h : w.holdsAt start (Utf8.terminated value) = true) :
    trimmed w start = (trimBlank value, start + (Utf8.terminated value).length) := by
  rw [trimmed, Window.textFrom_of_holdsAt hvalue h]

/-- The digits are all of the text. -/
theorem trimmed_of_digits {d : Digits} (h : w.holdsAt start (Utf8.terminated d.text) = true) :
    trimmed w start = (d.text, start + (Utf8.terminated d.text).length) := by
  rw [trimmed_of_holdsAt d.zero_not_mem_text h, d.trimBlank_text]

/-- Numbers of the same width, one behind the other. -/
def numberBytes (width : Nat) (values : List Nat) : List UInt8 := values.flatMap (bytesBE width)

@[simp] theorem length_numberBytes (width : Nat) (values : List Nat) :
    (numberBytes width values).length = width * values.length := by
  simp [numberBytes, List.length_flatMap, Nat.mul_comm]

theorem numbers_of_holdsAt {width : Nat} {values : List Nat}
    (hvalues : ∀ n ∈ values, n < 256 ^ width)
    (h : w.holdsAt start (numberBytes width values) = true) :
    numbers w width start values.length = values := by
  induction values generalizing start with
  | nil => rfl
  | cons n rest ih =>
    obtain ⟨hn, hrest⟩ := List.forall_mem_cons.1 hvalues
    rw [numberBytes, List.flatMap_cons, Window.holdsAt_append, Bool.and_eq_true_iff,
      length_bytesBE] at h
    obtain ⟨bytes, hbytes, hvalue⟩ := Option.map_eq_some_iff.1 (Window.valueBE_of_holdsAt h.1 hn)
    rw [List.length_cons, numbers, hbytes]
    simp only [hvalue, ih hrest h.2]

theorem numbers_of_vector {width count : Nat} {β : Type} {toNat : β → Nat} {values : Vector β count}
    (hvalues : ∀ value, toNat value < 256 ^ width)
    (h : w.holdsAt start (numberBytes width (values.toList.map toNat)) = true) :
    numbers w width start count = values.toList.map toNat := by
  have hnumbers := numbers_of_holdsAt (List.forall_mem_map.2 fun value _ => hvalues value) h
  rwa [List.length_map, Vector.length_toList] at hnumbers

/-! ### Tags -/

/-- What tags with a text are about. -/
inductive TextTag where
  | title | author | year | ripper | converter
deriving DecidableEq, Repr

/-- The word of a tag with a text, and its field. -/
def TextTag.entry : TextTag → String × Field
  | .title => ("TITL", .title)
  | .author => ("COMM", .author)
  | .year => ("YEAR", .year)
  | .ripper => ("RIPP", .ripper)
  | .converter => ("CONV", .converter)

/-- What the frames are counted by: a timer, or the blank between pictures. -/
inductive Clock where
  | timerA | timerB | timerC | timerD | blank
deriving DecidableEq, Repr

/-- The word of a tag with a rate. -/
def Clock.word : Clock → String
  | .timerA => "TA"
  | .timerB => "TB"
  | .timerC => "TC"
  | .timerD => "TD"
  | .blank => "!V"

/-- The tags behind the number of tunes, when this is `count`, and the zero that may stand between
    them. A text has no zero before its end, a number is in its range, and there is a length for each
    tune. -/
inductive Tag (count : Nat) where
  | text (tag : TextTag) (value : String) (ends : '\x00' ∉ value.toList)
  | defaultTrack (track : Digits) (pos : 1 ≤ track.value) (le : track.value ≤ count)
  | rate (clock : Clock) (number : Digits) (pos : 1 ≤ number.value)
      (lt : number.value < UInt32.size)
  | seconds (values : Vector UInt16 count)
  | frames (values : Vector UInt32 count)
  | padding

namespace Tag

variable {count : Nat} {tag : Tag count} {h : Header}

/-- The word of a tag, and what it is about. -/
def entry? : Tag count → Option (String × Field)
  | .text tag .. => some tag.entry
  | .defaultTrack .. => some ("!#", .defaultTrack)
  | .rate clock .. => some (clock.word, .rate)
  | .seconds _ => some ("TIME", .seconds)
  | .frames _ => some ("FRMS", .frames)
  | .padding => none

/-- What stands behind the word. -/
def argument : Tag count → List UInt8
  | .text _ value _ => Utf8.terminated value
  | .defaultTrack track _ _ => Utf8.terminated track.text
  | .rate _ number _ _ => Utf8.terminated number.text
  | .seconds values => numberBytes 2 (values.toList.map UInt16.toNat)
  | .frames values => numberBytes 4 (values.toList.map UInt32.toNat)
  | .padding => []

/-- The bytes of a tag. -/
def bytes (tag : Tag count) : List UInt8 :=
  match tag.entry? with
  | some e => Window.ascii e.1 ++ tag.argument
  | none => [0]

/-- The header after a tag. -/
def apply (h : Header) : Tag count → Header
  | .text .title value _ => { h with title := trimBlank value }
  | .text .author value _ => { h with author := trimBlank value }
  | .text .year value _ => { h with year := trimBlank value }
  | .text .ripper value _ => { h with ripper := trimBlank value }
  | .text .converter value _ => { h with converter := trimBlank value }
  | .defaultTrack track _ _ => { h with defaultTrack := track.value }
  | .rate _ number _ _ => { h with rate := number.value }
  | .seconds values => { h with seconds := h.seconds ++ values.toList.map UInt16.toNat }
  | .frames values => { h with frames := h.frames ++ values.toList.map UInt32.toNat }
  | .padding => h

theorem entry_mem {e : String × Field} (he : tag.entry? = some e) : e ∈ fieldWords := by
  have htexts : ∀ t : TextTag, t.entry ∈ fieldWords := by rintro ⟨⟩ <;> decide
  have hrates : ∀ c : Clock, (c.word, Field.rate) ∈ fieldWords := by rintro ⟨⟩ <;> decide
  cases tag with
  | text t => exact Option.some.inj he ▸ htexts t
  | rate c => exact Option.some.inj he ▸ hrates c
  | defaultTrack | seconds | frames =>
    cases he
    decide
  | padding => cases he

@[simp] theorem trackCount_apply : (tag.apply h).trackCount = h.trackCount := by
  cases tag with
  | text t => cases t <;> rfl
  | _ => rfl

/-- What a tag says is read as it was written, up to where it ends. -/
theorem read_eq {e : String × Field} (hcount : count ≤ maxTracks) (htracks : h.trackCount = count)
    (he : tag.entry? = some e) (hholds : w.holdsAt start tag.argument = true) :
    h.read w start e.2 = (tag.apply h, start + tag.argument.length) := by
  cases tag with
  | text t value ends =>
    cases he
    have htext := trimmed_of_holdsAt ends hholds
    cases t <;> simp only [TextTag.entry, Header.read, htext, apply, argument]
  | defaultTrack track pos le =>
    cases he
    have hmax : maxTracks = 128 := rfl
    have hparse := track.parse?_text (show track.value < UInt64.size by unfold UInt64.size; omega)
    simp only [Header.read, trimmed_of_digits hholds, hparse, Option.getD_some, apply, argument]
  | rate clock number pos lt =>
    cases he
    simp only [Header.read, trimmed_of_digits hholds, number.parse?_text lt, Option.getD_some,
      if_neg (Nat.ne_of_gt pos), apply, argument]
  | seconds values =>
    cases he
    have hnumbers := numbers_of_vector UInt16.toNat_lt hholds
    simp only [Header.read, htracks, hnumbers, apply, argument, length_numberBytes]
  | frames values =>
    cases he
    have hnumbers := numbers_of_vector UInt32.toNat_lt hholds
    simp only [Header.read, htracks, hnumbers, apply, argument, length_numberBytes]
  | padding => cases he

/-- **One tag** is read in one round, which ends behind it. -/
theorem round_eq (hcount : count ≤ maxTracks) (htracks : h.trackCount = count)
    (hroom : pos + 4 ≤ stop) (hholds : w.holdsAt pos tag.bytes = true) :
    round w stop h pos = some (tag.apply h, pos + tag.bytes.length) := by
  cases hentry : tag.entry? with
  | none =>
    have hbytes : tag.bytes = [0] := by rw [bytes, hentry]
    have happly : tag.apply h = h := by
      cases tag with
      | padding => rfl
      | _ => cases hentry
    rw [hbytes] at hholds
    have hend := holdsAt_endWord_of_ne List.mem_cons_self (by decide) hholds
    rw [round, if_pos ⟨hroom, hend⟩, fieldAt?_of_zero hholds, happly, hbytes]
    rfl
  | some e =>
    have hbytes : tag.bytes = Window.ascii e.1 ++ tag.argument := by rw [bytes, hentry]
    have hmem := entry_mem hentry
    rw [hbytes, Window.holdsAt_append, Bool.and_eq_true_iff] at hholds
    obtain ⟨hword, hargument⟩ := hholds
    have hend := holdsAt_endWord_of_ne (ascii_mem_openings hmem) (ascii_ne_endWord e hmem) hword
    rw [round, if_pos ⟨hroom, hend⟩, fieldAt?_of_holdsAt hmem hword, hbytes, List.length_append,
      ← Nat.add_assoc]
    simp only [read_eq hcount htracks hentry hargument]

end Tag

/-- **All tags** are read, up to the word behind the last one. -/
theorem readAll_tags {count : Nat} {h : Header} {tags : List (Tag count)} (hcount : count ≤ maxTracks)
    (htracks : h.trackCount = count)
    (hstop : pos + (tags.flatMap Tag.bytes).length + (Window.ascii endWord).length ≤ stop)
    (hholds : w.holdsAt pos (tags.flatMap Tag.bytes ++ Window.ascii endWord) = true) :
    h.readAll w stop pos = tags.foldl Tag.apply h := by
  have hend : (Window.ascii endWord).length = 4 := by decide
  induction tags generalizing h pos with
  | nil =>
    refine readAll_of_round_eq_none (if_neg fun hgoes => ?_)
    rw [List.flatMap_nil, List.nil_append] at hholds
    rw [hholds] at hgoes
    cases hgoes.2
  | cons tag rest ih =>
    rw [List.flatMap_cons, List.length_append] at hstop
    rw [List.flatMap_cons, List.append_assoc, Window.holdsAt_append, Bool.and_eq_true_iff] at hholds
    obtain ⟨htag, hrest⟩ := hholds
    -- The end word is still ahead, so there is room for a word here.
    rw [readAll_of_round_eq_some (Tag.round_eq hcount htracks (by omega) htag), List.foldl_cons]
    exact ih (Tag.trackCount_apply.trans htracks) (by omega) hrest

/-! ### What all tags say -/

section

variable {count : Nat} {α : Type} {f : Tag count → Option α} {tag : Tag count}
  {tags : List (Tag count)} {before : α}

/-- What the last tag says that says something of a kind, or else what was known before. -/
def latest (f : Tag count → Option α) (tags : List (Tag count)) (before : α) : α :=
  (tags.filterMap f).getLast?.getD before

theorem latest_cons : latest f (tag :: tags) before = latest f tags ((f tag).getD before) := by
  rw [latest, latest, List.filterMap_cons]
  cases f tag with
  | none => rfl
  | some value => rw [List.getLast?_cons, Option.getD_some, Option.getD_some]

theorem forall_latest {P : α → Prop} (htags : ∀ tag ∈ tags, ∀ value, f tag = some value → P value)
    (hbefore : P before) : P (latest f tags before) := by
  induction tags generalizing before with
  | nil => exact hbefore
  | cons tag rest ih =>
    obtain ⟨htag, hrest⟩ := List.forall_mem_cons.1 htags
    rw [latest_cons]
    apply ih hrest
    cases hvalue : f tag with
    | none => exact hbefore
    | some value => exact htag value hvalue

/-- The text of a tag of this kind, without blanks at its ends. -/
def Tag.text? (kind : TextTag) : Tag count → Option String
  | .text tag value _ => if tag = kind then some (trimBlank value) else none
  | _ => none

/-- The track of a tag for the default track. -/
def Tag.defaultTrack? : Tag count → Option Nat
  | .defaultTrack track _ _ => some track.value
  | _ => none

/-- The rate of a tag for the rate. -/
def Tag.rate? : Tag count → Option Nat
  | .rate _ number _ _ => some number.value
  | _ => none

/-- The lengths in seconds of a tag. -/
def Tag.secondsOf : Tag count → List Nat
  | .seconds values => values.toList.map UInt16.toNat
  | _ => []

/-- The lengths in frames of a tag. -/
def Tag.framesOf : Tag count → List Nat
  | .frames values => values.toList.map UInt32.toNat
  | _ => []

/-- The header that is left has the last texts and numbers and all lengths. -/
theorem foldl_apply (tags : List (Tag count)) (h : Header) : tags.foldl Tag.apply h = {
    title := latest (Tag.text? .title) tags h.title
    author := latest (Tag.text? .author) tags h.author
    year := latest (Tag.text? .year) tags h.year
    ripper := latest (Tag.text? .ripper) tags h.ripper
    converter := latest (Tag.text? .converter) tags h.converter
    trackCount := h.trackCount
    defaultTrack := latest Tag.defaultTrack? tags h.defaultTrack
    rate := latest Tag.rate? tags h.rate
    frames := h.frames ++ tags.flatMap Tag.framesOf
    seconds := h.seconds ++ tags.flatMap Tag.secondsOf
    names := h.names } := by
  induction tags generalizing h with
  | nil =>
    rw [List.flatMap_nil, List.flatMap_nil, List.append_nil, List.append_nil]
    rfl
  | cons tag rest ih =>
    rw [List.foldl_cons, ih]
    simp only [latest_cons, List.flatMap_cons, ← List.append_assoc]
    cases tag with
    | text kind =>
      cases kind <;>
        simp [Tag.apply, Tag.text?, Tag.defaultTrack?, Tag.rate?, Tag.framesOf, Tag.secondsOf]
    | _ => simp [Tag.apply, Tag.text?, Tag.defaultTrack?, Tag.rate?, Tag.framesOf, Tag.secondsOf]

end

/-! ### Files -/

/-- What the header of a file is made of: where the jump leads, the entry points, the number of tunes
    in two digits and the tags, all of which the jump leads behind. -/
structure File where
  distance : UInt16
  entryPoints : Vector UInt8 8
  count : Digits
  tags : List (Tag count.value)
  two_digits : count.chars.length = 2
  count_pos : 1 ≤ count.value
  inside : tagsOffset + 4 + (tags.flatMap Tag.bytes).length + 4 ≤ distance.toNat + 2

namespace File

variable (file : File)

/-- The bytes before the tags. -/
def opening : List UInt8 :=
  [jump, 0x00] ++ bytesBE 2 file.distance.toNat ++ file.entryPoints.toList ++ Window.ascii magic

/-- The tag with the number of tunes. -/
def countBytes : List UInt8 := Window.ascii "##" ++ Utf8.encode file.count.text

/-- The whole header, up to the word behind the last tag. -/
def image : List UInt8 :=
  file.opening ++ file.countBytes ++ (file.tags.flatMap Tag.bytes ++ Window.ascii endWord)

/-- What the tags say. -/
def header : Header where
  title := latest (Tag.text? .title) file.tags ""
  author := latest (Tag.text? .author) file.tags ""
  year := latest (Tag.text? .year) file.tags ""
  ripper := latest (Tag.text? .ripper) file.tags ""
  converter := latest (Tag.text? .converter) file.tags ""
  trackCount := file.count.value
  defaultTrack := latest Tag.defaultTrack? file.tags 1
  rate := latest Tag.rate? file.tags 50
  frames := file.tags.flatMap Tag.framesOf
  seconds := file.tags.flatMap Tag.secondsOf

theorem count_le : file.count.value ≤ 99 := by
  obtain ⟨a, b, hchars⟩ := List.length_eq_two.1 file.two_digits
  have ha : a.isDigit = true := file.count.isDigit a (hchars ▸ List.mem_cons_self)
  have hb : b.isDigit = true :=
    file.count.isDigit b (hchars ▸ List.mem_cons_of_mem _ List.mem_cons_self)
  have ha : 48 ≤ a.toNat ∧ a.toNat ≤ 57 := Char.isDigit_iff_toNat.1 ha
  have hb : 48 ≤ b.toNat ∧ b.toNat ≤ 57 := Char.isDigit_iff_toNat.1 hb
  rw [Digits.value, hchars]
  show 10 * (10 * 0 + (a.toNat - 48)) + (b.toNat - 48) ≤ 99
  omega

@[simp] theorem length_opening : file.opening.length = tagsOffset := by
  have hmagic : (Window.ascii magic).length = 4 := by decide
  simp [opening, hmagic, tagsOffset]

@[simp] theorem length_countBytes : file.countBytes.length = 4 := by
  have hword : (Window.ascii "##").length = 2 := by decide
  rw [countBytes, List.length_append, hword, Digits.length_encode_text, file.two_digits]

variable {file}

/-- The first tag says how many tunes there are. -/
theorem round_count {h : Header} (hroom : pos + 4 ≤ stop)
    (hholds : w.holdsAt pos file.countBytes = true) :
    round w stop h pos = some ({ h with trackCount := file.count.value }, pos + 4) := by
  have hmem : ("##", Field.trackCount) ∈ fieldWords := by decide
  have hle := file.count_le
  have hpos := file.count_pos
  have hmax : maxTracks = 128 := rfl
  have hlength : (Utf8.encode file.count.text).length = 2 := by
    rw [Digits.length_encode_text, file.two_digits]
  have hword : (Window.ascii "##").length = 2 := by decide
  rw [countBytes, Window.holdsAt_append, Bool.and_eq_true_iff, hword] at hholds
  obtain ⟨hholds, hdigits⟩ := hholds
  have hend := holdsAt_endWord_of_ne (ascii_mem_openings hmem) (ascii_ne_endWord _ hmem) hholds
  have htext : ((w.drop (pos + 2)).take 2).text = file.count.text := by
    have hbytes := Window.toList_slice_of_holdsAt hdigits
    rw [hlength] at hbytes
    rw [Window.text, hbytes, Utf8.decode_encode]
  have hcount : trackCountAt w (pos + 2) = file.count.value := by
    rw [trackCountAt, htext, Digits.trimBlank_text,
      Digits.parse?_text _ (by unfold UInt64.size; omega), Option.getD_some]
    omega
  rw [round, if_pos ⟨hroom, hend⟩, fieldAt?_of_holdsAt hmem hholds, hword]
  simp only [Header.read, hcount, Nat.add_assoc]

/-- The default track is one of the tracks. -/
theorem withDefault_header : file.header.withDefault = file.header := by
  have hdefault : 1 ≤ file.header.defaultTrack ∧ file.header.defaultTrack ≤ file.count.value := by
    refine forall_latest (P := fun track => 1 ≤ track ∧ track ≤ file.count.value)
      (fun tag _ track htrack => ?_) ⟨Nat.le_refl _, file.count_pos⟩
    cases tag with
    | defaultTrack number pos le =>
      cases htrack
      exact ⟨pos, le⟩
    | _ => cases htrack
  refine if_neg ?_
  show ¬(file.header.defaultTrack = 0 ∨ file.count.value < file.header.defaultTrack)
  omega

theorem readAll_of_holdsAt
    (hstop : tagsOffset + 4 + (file.tags.flatMap Tag.bytes).length + 4 ≤ stop)
    (hcount : w.holdsAt tagsOffset file.countBytes = true)
    (htags : w.holdsAt (tagsOffset + 4) (file.tags.flatMap Tag.bytes ++ Window.ascii endWord) = true) :
    ({} : Header).readAll w stop tagsOffset = file.header := by
  have hend : (Window.ascii endWord).length = 4 := by decide
  have hmost : file.count.value ≤ maxTracks := Nat.le_trans file.count_le (by decide)
  rw [readAll_of_round_eq_some (round_count (by omega) hcount),
    readAll_tags hmost rfl (by omega) htags, foldl_apply]
  rfl

theorem parse_of_holdsAt (hholds : w.holdsAt 0 file.image = true) :
    parse w = .ok file.header := by
  have hend : (Window.ascii endWord).length = 4 := by decide
  have hlength : file.image.length
      = tagsOffset + 4 + (file.tags.flatMap Tag.bytes).length + 4 := by
    simp only [image, List.length_append, length_opening, length_countBytes, hend, Nat.add_assoc]
  have hsize : file.image.length ≤ w.size := by
    have hle := Window.add_length_le_of_holdsAt (List.ne_nil_of_length_pos (by omega)) hholds
    omega
  have hinside := file.inside
  rw [image, Window.holdsAt_append, Window.holdsAt_append, Bool.and_eq_true_iff,
    Bool.and_eq_true_iff, List.length_append, length_opening, length_countBytes, Nat.zero_add,
    Nat.zero_add] at hholds
  obtain ⟨⟨hopening, hcount⟩, htags⟩ := hholds
  simp only [opening, Window.holdsAt_append, Bool.and_eq_true, List.length_append, length_bytesBE,
    Vector.length_toList, List.length_cons, List.length_nil, Nat.zero_add, Nat.reduceAdd] at hopening
  obtain ⟨⟨⟨hjump, hdistance⟩, -⟩, hmagic⟩ := hopening
  have hshort : w[1]? = some 0 := Window.getElem?_of_holdsAt (i := 1) hjump (by decide)
  have hfirst : w.holdsAt 0 [jump] = true := by
    rw [Window.holdsAt_cons, Bool.and_eq_true_iff] at hjump
    rw [Window.holdsAt_cons, hjump.1]
    rfl
  have hdistance : w.be16? 2 = some file.distance.toNat :=
    Window.valueBE_of_holdsAt hdistance file.distance.toNat_lt
  have hjump : jumpDistance w = file.distance.toNat := by
    rw [jumpDistance, hshort]
    simp only [if_true, hdistance, Option.getD_some]
  have hmagic : w.holdsAt magicOffset (Window.ascii magic) = true := hmagic
  unfold parse
  simp only [bind, Except.bind, hfirst, hmagic, hjump, Bool.and_self, Bool.not_true,
    Bool.false_eq_true, if_false, if_neg (show ¬w.size < tagsOffset by omega)]
  rw [readAll_of_holdsAt (by omega) hcount htags, withDefault_header]
  rfl

/-- **The tags are read as they were written.** A file with a number of tunes and any tags behind it,
    with zeros between them, each with any text and any numbers in their ranges, is read from its
    image, whatever follows: the texts, the default track and the rate are those of the last tags for
    them, and the lengths those of all tags, one behind the other. -/
theorem parse_image (file : File) {t : List UInt8} (h : w.toList = file.image ++ t) :
    parse w = .ok file.header := by
  apply parse_of_holdsAt
  apply Window.holdsAt_of_prefix
  rw [List.drop_zero, h]
  exact List.prefix_append _ _

/-- The number two in two digits. -/
def two : Digits := ⟨['0', '2'], List.cons_ne_nil _ _, rfl⟩

/-- Two tunes, the second of which is to begin with. The title is given twice, and the second length
    looks like a tag. -/
def twoTunes : File where
  distance := 0x100
  entryPoints := Vector.replicate 8 0x4e
  count := two
  tags := [.text .title "Tune" (by decide), .padding, .defaultTrack two (by decide) (by decide),
    .text .title " Song " (by decide), .rate .timerC ⟨['6', '0'], List.cons_ne_nil _ _, rfl⟩
      (by decide) (by decide),
    .seconds #v[90, 0x5441]]
  two_digits := rfl
  count_pos := by decide
  inside := by decide +kernel

theorem parse_twoTunes :
    let w : Window := .ofByteArray ⟨(twoTunes.image ++ [0x4e, 0x75]).toArray⟩
    let h : Header :=
      { title := "Song", trackCount := 2, defaultTrack := 2, rate := 60, seconds := [90, 0x5441] }
    w.toList = twoTunes.image ++ [0x4e, 0x75] ∧ parse w = .ok h := by
  intro w h
  have hw : w.toList = twoTunes.image ++ [0x4e, 0x75] :=
    Window.toList_ofByteArray (by decide +kernel)
  have hheader : twoTunes.header = h := by decide +kernel
  exact ⟨hw, hheader ▸ parse_image twoTunes hw⟩

end File

end Sndh

end Chiptune
