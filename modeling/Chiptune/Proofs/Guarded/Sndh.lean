import Chiptune.Proofs.Decoding
import Chiptune.Proofs.Guarded.Basic
import Mathlib.Data.List.Find

namespace Chiptune.Sndh

/-!
# Guarded steps of SNDH files

The tags of a header are looked for between two offsets, and what a tag says may reach beyond the
second of them, up to the end of the file and beyond it. A tag never leads back, so the search ends.

* `Sndh.Steps.readAll` — the steps through the tags, whose end nothing bounds;
* `Sndh.Steps.readAll_eq` — they come to the header that `Sndh.Header.readAll` gives;
* `Sndh.Steps.parse_eq`, `Sndh.Steps.read_eq` — the steps end in the result of the reading.
-/

open Guarded

namespace Steps

/-! ### Tags -/

/-- The steps of `trimmed`. -/
def trimmed (w : Window) (start : Nat) : Guarded DecodeError (String × Nat) := do
  let tail := w.drop start
  let (text, next) ← textTo tail start (tail.zeroFrom 0)
  return (trimBlank text, next)

/-- The steps of `Sndh.numbers`, which also find the offset behind the numbers. -/
def numbers (w : Window) (width start : Nat) : (count : Nat) → Guarded DecodeError (List Nat × Nat)
  | 0 => return ([], start)
  | count + 1 => do
    match ← bigEndian? w start width with
    | some value =>
      let next ← add start width
      let (values, stop) ← numbers w width next count
      return (value :: values, stop)
    | none => return ([], start)

/-- The names with distances from `base` on, `count` of them or as many as there are. The first
    distance has the given number. -/
def names (w : Window) (base number : Nat) : (count : Nat) → Guarded DecodeError (List String)
  | 0 => return []
  | count + 1 => do
    let place ← mul number 2
    let start ← add base place
    match ← bigEndian? w start 2 with
    | some distance =>
      let nameStart ← add base distance
      let (name, _) ← trimmed w nameStart
      let rest ← names w base (number + 1) count
      return name :: rest
    | none => return []

/-- The steps of `Header.read`. The track count is read off the four bytes `tag` that the tag begins
    with. -/
def readTag (h : Header) (w tag : Window) (start : Nat) : Field → Guarded DecodeError (Header × Nat)
  | .title => do
    let (text, next) ← trimmed w start
    return ({ h with title := text }, next)
  | .author => do
    let (text, next) ← trimmed w start
    return ({ h with author := text }, next)
  | .year => do
    let (text, next) ← trimmed w start
    return ({ h with year := text }, next)
  | .ripper => do
    let (text, next) ← trimmed w start
    return ({ h with ripper := text }, next)
  | .converter => do
    let (text, next) ← trimmed w start
    return ({ h with converter := text }, next)
  | .seconds => do
    let (values, next) ← numbers w 2 start h.trackCount
    return ({ h with seconds := h.seconds ++ values }, next)
  | .frames => do
    let (values, next) ← numbers w 4 start h.trackCount
    return ({ h with frames := h.frames ++ values }, next)
  | .names => do
    let found ← names w start 0 h.trackCount
    let length ← mul h.trackCount 2
    let next ← add start length
    return ({ h with names := h.names ++ found }, next)
  | .trackCount => do
    let digits ← slice tag 2 4
    let count := (Numeral.parse? UInt64.size (trimBlank digits.text)).getD 1
    let next ← add start 2
    return ({ h with trackCount := min maxTracks (max 1 count) }, next)
  | .defaultTrack => do
    let (text, next) ← trimmed w start
    return ({ h with defaultTrack := (Numeral.parse? UInt64.size text).getD 1 }, next)
  | .rate => do
    let (text, next) ← trimmed w start
    let rate := (Numeral.parse? UInt32.size text).getD 0
    return (if rate = 0 then h else { h with rate }, next)

/-- The steps of `Header.readAll`. -/
def readAll (h : Header) (w : Window) (stop pos : Nat) : Guarded DecodeError Header :=
  Loop.run ⟨fun (h, pos) => do
    let behind ← add pos 4
    if behind ≤ stop then
      let tag ← slice w pos behind
      if tag.holdsAt 0 (Window.ascii endWord) then return .done h
      else match fieldWords.find? fun e => tag.holdsAt 0 (Window.ascii e.1) with
        | none =>
          let next ← add pos 1
          return .again (h, next)
        | some (word, field) =>
          let start ← add pos word.length
          let (h, next) ← readTag h w tag start field
          return .again (h, next)
    else return .done h⟩ (h, pos)

/-! ### Files -/

/-- The steps of `Sndh.jumpDistance`. -/
def jumpDistance (w : Window) : Guarded DecodeError Nat := do
  let short ← index w 1
  if short = 0 then bigEndian w 2 2 else return short.toNat

/-- The steps of `Sndh.parse`. -/
def parse (w : Window) : Guarded DecodeError Header := do
  if w.size < tagsOffset then refuse .truncated
  let first ← index w 0
  if first ≠ jump then refuse .wrongSignature
  let word ← slice w magicOffset tagsOffset
  if !word.holdsAt 0 (Window.ascii magic) then refuse .wrongSignature
  let distance ← jumpDistance w
  let stop ← add distance 2
  let header ← readAll {} w (min stop w.size) tagsOffset
  return header.withDefault

/-- The steps of `Sndh.check`. -/
def check (w : Window) : Guarded DecodeError Bool := admits (signature.matchesStart w) (parse w)

/-- The steps of `Header.frameCount`. -/
def frameCount (h : Header) (track : Nat) : Guarded DecodeError (Option Nat) :=
  match h.frames[track]?.getD 0, h.seconds[track]?.getD 0 with
  | 0, 0 => return none
  | 0, seconds => do
    let count ← mul seconds h.rate
    return some count
  | frames, _ => return some frames

/-- `count` tracks, the first of which has the given number. -/
def tracks (h : Header) (data : Window) (number : Nat) :
    (count : Nat) → Guarded DecodeError (List Track)
  | 0 => return []
  | count + 1 => do
    let name := h.names[number]?.getD ""
    let frameCount ← frameCount h number
    let info : TuneInfo :=
      { h.common with title := if name.isEmpty then h.title else name, frameCount }
    let track ← add number 1
    let rest ← tracks h data (number + 1) count
    return ⟨⟨info, data, some track⟩, info.toProperties⟩ :: rest

/-- The steps of `Sndh.read`. -/
def read (w : Window) : Guarded DecodeError TuneSet := do
  let w ← view w
  let h ← parse w
  let tracks ← tracks h w 0 h.trackCount
  return { consumed := w.size, fixed := (0, w.size), properties := h.toProperties, tracks }

/-! ### What a tag says -/

variable {w : Window} {start width count : Nat}

theorem trimmed_eq (h : start + 1 < 0x10000000000000000) :
    trimmed w start = pure (Sndh.trimmed w start) := by
  rw [trimmed, textTo_eq h, pure_bind, Sndh.trimmed]

theorem trimmed_le : (Sndh.trimmed w start).2 ≤ max start w.size + 1 := by
  have hle : w.zeroFrom start ≤ w.size := Window.firstIndex_le
  show start + (w.zeroFrom start - start) + 1 ≤ _
  omega

theorem lt_of_mem_numbers {n : Nat} (h : n ∈ Sndh.numbers w width start count) :
    n < 256 ^ width := by
  induction count generalizing start with
  | zero => cases h
  | succ count ih =>
    rw [Sndh.numbers] at h
    cases hbytes : w.bytes? start width with
    | none =>
      rw [hbytes] at h
      cases h
    | some bytes =>
      rw [hbytes] at h
      rcases List.mem_cons.1 h with rfl | hrest
      · have hlt := valueBE_lt bytes
        rwa [Window.length_of_bytes? hbytes] at hlt
      · exact ih hrest

theorem length_numbers_le (w : Window) (width start count : Nat) :
    (Sndh.numbers w width start count).length ≤ count := by
  induction count generalizing start with
  | zero => exact Nat.le_refl _
  | succ count ih =>
    rw [Sndh.numbers]
    cases w.bytes? start width with
    | none => exact Nat.zero_le _
    | some bytes => exact Nat.succ_le_succ (ih _)

theorem numbers_eq (hwidth : 0 < width)
    (hword : start + width * (count + 1) < 0x10000000000000000) :
    numbers w width start count = pure (Sndh.numbers w width start count,
      start + width * (Sndh.numbers w width start count).length) := by
  induction count generalizing start with
  | zero => rfl
  | succ count ih =>
    have hmul : width * (count + 1 + 1) = width + width * (count + 1) := by
      rw [Nat.mul_succ, Nat.add_comm]
    rw [numbers, bigEndian?_eq hwidth (by omega), pure_bind, Sndh.numbers]
    cases w.bytes? start width with
    | none => rfl
    | some bytes =>
      show add start width >>= _ = _
      rw [add_of_lt (by omega), pure_bind, ih (by omega), pure_bind, List.length_cons, Nat.mul_succ,
        Nat.add_assoc, Nat.add_comm width]

theorem names_eq {base number : Nat} (hbase : base ≤ w.size)
    (hnumber : number + count ≤ maxTracks) :
    names w base number count = pure ((Sndh.numbers w 2 (base + number * 2) count).map
      fun distance => (Sndh.trimmed w (base + distance)).1) := by
  induction count generalizing number with
  | zero => rfl
  | succ count ih =>
    have hsize := w.size_lt
    have hmax : maxTracks = 128 := rfl
    rw [names, mul_of_lt (by omega), pure_bind, add_of_lt (by omega), pure_bind,
      bigEndian?_eq Nat.two_pos (by omega), pure_bind, Sndh.numbers]
    cases hbytes : w.bytes? (base + number * 2) 2 with
    | none => rfl
    | some bytes =>
      have hdistance := valueBE_lt bytes
      rw [Window.length_of_bytes? hbytes] at hdistance
      show add base (valueBE bytes) >>= _ = _
      rw [add_of_lt (by omega), pure_bind, trimmed_eq (by omega), pure_bind]
      show names w base (number + 1) count >>= _ = _
      rw [ih (by omega), pure_bind, Nat.succ_mul, ← Nat.add_assoc]
      rfl

/-! ### Headers -/

/-- A header that the steps can keep: its numbers are words, and it has no more than the most tracks
    that there can be. -/
structure Fits (h : Header) : Prop where
  trackCount : h.trackCount ≤ maxTracks
  rate : h.rate < UInt32.size
  seconds : ∀ n ∈ h.seconds, n < UInt16.size

variable {h : Header} {tag : Window} {field : Field} {pos : Nat}

theorem readTag_eq (hfits : Fits h) (hpos : pos + 4 ≤ w.size) (hstart : start ≤ pos + 4)
    (hcount : field = .trackCount → start = pos + 2) :
    readTag h w ((w.drop pos).take 4) start field = pure (h.read w start field) := by
  have hsize := w.size_lt
  have hmax : maxTracks = 128 := rfl
  have htracks := hfits.trackCount
  have htext : trimmed w start = pure (Sndh.trimmed w start) := trimmed_eq (by omega)
  cases field with
  | title | author | year | ripper | converter | defaultTrack | rate =>
    rw [readTag, htext, pure_bind]
    rfl
  | seconds | frames =>
    rw [readTag, numbers_eq (by decide) (by omega), pure_bind]
    rfl
  | names =>
    rw [readTag, names_eq (by omega) (by omega), pure_bind, mul_of_lt (by omega), pure_bind,
      add_of_lt (by omega), pure_bind, Nat.zero_mul, Nat.add_zero, Nat.mul_comm]
    rfl
  | trackCount =>
    obtain rfl := hcount rfl
    have htag : 4 ≤ ((w.drop pos).take 4).size := by
      rw [Window.size_take, Window.size_drop]
      omega
    have hdigits : ((((w.drop pos).take 4).drop 2).take 2).text
        = ((w.drop (pos + 2)).take 2).text := by
      rw [Window.text_take_drop_take _ (by omega)]
      simp only [Window.text, Window.toList_take, Window.toList_drop, List.drop_drop]
    rw [readTag, slice_of_le (by omega) htag, pure_bind, add_of_lt (by omega), pure_bind, hdigits]
    rfl

theorem lt_of_parse? {bound n : Nat} {text : String} (h : Numeral.parse? bound text = some n) :
    n < bound := by
  simp only [Numeral.parse?, Option.ite_none_right_eq_some, Bool.and_eq_true, decide_eq_true_eq,
    Option.some.injEq] at h
  obtain ⟨⟨-, hlt⟩, rfl⟩ := h
  exact hlt

theorem fits_read (hfits : Fits h) (w : Window) (start : Nat) (field : Field) :
    Fits (h.read w start field).1 := by
  obtain ⟨htracks, hrate, hseconds⟩ := hfits
  cases field with
  | title | author | year | ripper | converter | defaultTrack =>
    rw [Header.read]
    generalize Sndh.trimmed w start = found
    exact ⟨htracks, hrate, hseconds⟩
  | frames | names =>
    rw [Header.read]
    exact ⟨htracks, hrate, hseconds⟩
  | seconds =>
    rw [Header.read]
    refine ⟨htracks, hrate, fun n hn => ?_⟩
    rcases List.mem_append.1 hn with hn | hn
    · exact hseconds n hn
    · exact lt_of_mem_numbers hn
  | trackCount =>
    have hcount : trackCountAt w start ≤ maxTracks := Nat.min_le_left _ _
    rw [Header.read]
    exact ⟨hcount, hrate, hseconds⟩
  | rate =>
    rw [Header.read]
    obtain ⟨text, next⟩ := Sndh.trimmed w start
    have hlt : (Numeral.parse? UInt32.size text).getD 0 < UInt32.size := by
      cases hvalue : Numeral.parse? UInt32.size text with
      | none => decide
      | some value => exact lt_of_parse? hvalue
    dsimp only
    split
    · exact ⟨htracks, hrate, hseconds⟩
    · exact ⟨htracks, hlt, hseconds⟩

theorem read_le (hfits : Fits h) (hstart : start ≤ w.size) (field : Field) :
    (h.read w start field).2 ≤ w.size + 0x200 := by
  have hmax : maxTracks = 128 := rfl
  have htracks := hfits.trackCount
  have htext : (Sndh.trimmed w start).2 ≤ max start w.size + 1 := trimmed_le
  cases field with
  | title | author | year | ripper | converter | defaultTrack | rate =>
    show (Sndh.trimmed w start).2 ≤ _
    omega
  | seconds =>
    have hlength := length_numbers_le w 2 start h.trackCount
    show start + 2 * _ ≤ _
    omega
  | frames =>
    have hlength := length_numbers_le w 4 start h.trackCount
    show start + 4 * _ ≤ _
    omega
  | names =>
    show start + 2 * h.trackCount ≤ _
    omega
  | trackCount =>
    show start + 2 ≤ _
    omega

theorem holdsAt_tag {bytes : List UInt8} (h : bytes.length ≤ 4) :
    ((w.drop pos).take 4).holdsAt 0 bytes = w.holdsAt pos bytes := by
  rw [Window.holdsAt_take _ (by omega), Window.holdsAt_drop, Nat.add_zero]

theorem fieldAt?_eq : fieldAt? w pos =
    (fieldWords.find? fun e => ((w.drop pos).take 4).holdsAt 0 (Window.ascii e.1)).map fun e =>
      (e.2, pos + e.1.length) := by
  have hlength : ∀ e ∈ fieldWords, (Window.ascii e.1).length ≤ 4 := by decide
  rw [fieldAt?]
  congr 1
  exact List.find?_congr fun e he => (holdsAt_tag (hlength e he)).symm

theorem readAll_round (h : Header) (w : Window) (stop pos : Nat) :
    readAll h w stop pos = (do
      let behind ← add pos 4
      if behind ≤ stop then
        let tag ← slice w pos behind
        if tag.holdsAt 0 (Window.ascii endWord) then return h
        else match fieldWords.find? fun e => tag.holdsAt 0 (Window.ascii e.1) with
          | none =>
            let next ← add pos 1
            readAll h w stop next
          | some (word, field) =>
            let start ← add pos word.length
            let (h, next) ← readTag h w tag start field
            readAll h w stop next
      else return h) := by
  rw [readAll, Loop.run_eq]
  simp only [ite_bind, bind_assoc, pure_bind]
  congr 1
  funext behind
  congr 2
  funext tag
  congr 1
  cases fieldWords.find? fun e => tag.holdsAt 0 (Window.ascii e.1) with
  | none => exact bind_assoc ..
  | some e =>
    simp only [bind_assoc, pure_bind]
    rfl

theorem readAll_eq {stop : Nat} (hstop : stop ≤ w.size) (hpos : pos ≤ w.size + 0x200)
    (hfits : Fits h) :
    readAll h w stop pos = pure (h.readAll w stop pos) ∧ Fits (h.readAll w stop pos) := by
  have hsize := w.size_lt
  have hwords : ∀ e ∈ fieldWords, e.1.length ≤ 4 ∧ (e.2 = .trackCount → e.1.length = 2) := by decide
  have htag : ∀ {pos}, pos + 4 ≤ w.size →
      slice w pos (pos + 4) = (pure ((w.drop pos).take 4) : Guarded DecodeError Window) := by
    intro pos hpos
    rw [slice_of_le (by omega) hpos, Nat.add_sub_cancel_left]
  -- What the tag at `pos` is decides on the case: the end word, no tag, a field, or no room for one.
  fun_induction Header.readAll h w stop pos with
  | case1 h pos hroom hend =>
    rw [readAll_round, add_of_lt (by omega), pure_bind, if_pos hroom, htag (by omega), pure_bind,
      holdsAt_tag (by decide), if_pos hend]
    exact ⟨rfl, hfits⟩
  | case2 h pos hroom hend hnone ih =>
    rw [fieldAt?_eq, Option.map_eq_none_iff] at hnone
    rw [readAll_round, add_of_lt (by omega), pure_bind, if_pos hroom, htag (by omega), pure_bind,
      holdsAt_tag (by decide), if_neg hend, hnone]
    show (add pos 1 >>= fun next => readAll h w stop next) = _ ∧ _
    rw [add_of_lt (by omega), pure_bind]
    exact ih (by omega) hfits
  | case3 h pos hroom hend field start hfield ih =>
    rw [fieldAt?_eq] at hfield
    obtain ⟨e, hfind, heq⟩ := Option.map_eq_some_iff.1 hfield
    obtain ⟨rfl, rfl⟩ := Prod.mk.inj heq
    obtain ⟨hlength, hcount⟩ := hwords e (List.mem_of_find?_eq_some hfind)
    rw [readAll_round, add_of_lt (by omega), pure_bind, if_pos hroom, htag (by omega), pure_bind,
      holdsAt_tag (by decide), if_neg hend, hfind]
    show (add pos e.1.length >>= fun start => readTag h w _ start e.2 >>= fun found =>
      readAll found.1 w stop found.2) = _ ∧ _
    rw [add_of_lt (by omega), pure_bind,
      readTag_eq hfits (by omega) (by omega) fun hfield => by rw [hcount hfield], pure_bind]
    exact ih (read_le hfits (by omega) e.2) (fits_read hfits w _ e.2)
  | case4 h pos hroom =>
    rw [readAll_round, add_of_lt (by omega), pure_bind, if_neg hroom]
    exact ⟨rfl, hfits⟩

/-! ### Results -/

theorem jumpDistance_eq (h : tagsOffset ≤ w.size) :
    jumpDistance w = pure (Sndh.jumpDistance w) ∧ Sndh.jumpDistance w < 0x10000 := by
  have hsize : tagsOffset = 16 := rfl
  have hshort := w.getElem?_of_lt (show 1 < w.size by omega)
  rw [jumpDistance, index_of_eq_some hshort, pure_bind, Sndh.jumpDistance, hshort]
  generalize w.get 1 _ = short
  by_cases hzero : short = 0
  · obtain ⟨bytes, hbytes⟩ := Window.exists_bytes? (show 2 + 2 ≤ w.size by omega)
    have hlt := valueBE_lt bytes
    rw [Window.length_of_bytes? hbytes] at hlt
    rw [if_pos hzero, bigEndian_of_bytes? hbytes]
    simp only [if_pos hzero, Window.be16?, hbytes]
    exact ⟨rfl, hlt⟩
  · have hlt := short.toNat_lt
    rw [if_neg hzero]
    simp only [if_neg hzero]
    exact ⟨trivial, by omega⟩

theorem fits_withDefault (hfits : Fits h) : Fits h.withDefault := by
  unfold Header.withDefault
  split
  · exact ⟨hfits.trackCount, hfits.rate, hfits.seconds⟩
  · exact hfits

theorem yields_parse (w : Window) : Yields (parse w) (Sndh.parse w) Fits := by
  have hoffsets : tagsOffset = 16 ∧ magicOffset = 12 := ⟨rfl, rfl⟩
  obtain ⟨htags, hmagic⟩ := hoffsets
  unfold parse Sndh.parse
  refine yields_unless fun hsize => ?_
  have hfirst := w.getElem?_of_lt (show 0 < w.size by omega)
  have hword : ((w.drop magicOffset).take (tagsOffset - magicOffset)).holdsAt 0
      (Window.ascii magic) = w.holdsAt magicOffset (Window.ascii magic) := holdsAt_tag (by decide)
  refine .step (index_of_eq_some hfirst) ?_
  -- The magic word is only looked at behind a jump.
  by_cases hjump : w.get 0 (by omega) = jump
  · have hholds : w.holdsAt 0 [jump] = true := by
      rw [Window.holdsAt, hfirst, hjump]
      rfl
    rw [if_neg (not_not_intro hjump), hholds, Bool.true_and]
    refine .step (slice_of_le (by decide) (by omega)) ?_
    rw [hword]
    refine yields_unless fun _ => ?_
    obtain ⟨hsteps, hdistance⟩ := jumpDistance_eq (Nat.le_of_not_lt hsize)
    refine .step hsteps (.step (add_of_lt (by omega)) ?_)
    have hempty : Fits {} := ⟨by decide, by decide, fun n hn => by cases hn⟩
    have hstart : tagsOffset ≤ w.size + 0x200 := by omega
    obtain ⟨htags, hfits⟩ := readAll_eq (Nat.min_le_right _ _) hstart hempty
    exact .step htags (yields_pure (fits_withDefault hfits))
  · have hholds : w.holdsAt 0 [jump] = false := by
      rw [Window.holdsAt, hfirst, beq_false_of_ne (fun h => hjump (Option.some.inj h))]
      rfl
    rw [if_pos hjump, hholds, Bool.false_and]
    exact yields_refuse _

theorem parse_eq (w : Window) : parse w = outcome (Sndh.parse w) := (yields_parse w).eq

theorem frameCount_eq (hfits : Fits h) (track : Nat) :
    frameCount h track = pure (h.frameCount track) := by
  have hseconds : h.seconds[track]?.getD 0 < UInt16.size := by
    cases hget : h.seconds[track]? with
    | none => decide
    | some n => exact hfits.seconds n (List.mem_of_getElem? hget)
  have hproduct : h.seconds[track]?.getD 0 * h.rate < 0x10000000000000000 :=
    Nat.lt_of_lt_of_le (Nat.mul_lt_mul'' hseconds hfits.rate) (by decide)
  unfold frameCount Header.frameCount
  generalize h.frames[track]?.getD 0 = frames
  generalize h.seconds[track]?.getD 0 = seconds at hproduct
  cases frames with
  | succ frames => rfl
  | zero =>
    cases seconds with
    | zero => rfl
    | succ seconds =>
      show mul (seconds + 1) h.rate >>= _ = _
      rw [mul_of_lt hproduct]
      rfl

theorem tracks_eq {number : Nat} (hfits : Fits h) (hnumber : number + count ≤ maxTracks) :
    tracks h w number count = pure ((List.range' number count).map fun i =>
      ⟨⟨h.info i, w, some (i + 1)⟩, (h.info i).toProperties⟩) := by
  induction count generalizing number with
  | zero => rfl
  | succ count ih =>
    have hmax : maxTracks = 128 := rfl
    rw [tracks, frameCount_eq hfits, pure_bind, add_of_lt (by omega), pure_bind, ih (by omega),
      pure_bind]
    rfl

theorem read_eq (w : Window) : read w = outcome (Sndh.read w) := by
  suffices h : Yields (read w) (Sndh.read w) fun _ => True from h.eq
  refine .step (view_eq w) ?_
  refine (yields_parse w).bind fun h _ hfits => ?_
  have htracks := tracks_eq (w := w) hfits (show 0 + h.trackCount ≤ maxTracks by
    rw [Nat.zero_add]
    exact hfits.trackCount)
  rw [← List.range_eq_range'] at htracks
  exact .step htracks (yields_pure trivial)

end Steps

end Chiptune.Sndh
