import Chiptune.Proofs.Guarded.Sndh
import Chiptune.Proofs.PropertyValues

namespace Chiptune.Sndh

/-!
# Rounds through the tags

The tags of an SNDH file are read in rounds, each of which moves on by a byte or more. They may come
in any order, more than once, and be cut off or no tags at all. What every round keeps holds of the
header in the end, and what no round can keep, as the number of tunes may change after the first tune
was named, is put right after the last one.

* `round`, `Rounds` — one round, and so many of them up to the last;
* `lt_of_round`, `exists_rounds` — rounds move on, so they come to an end;
* `Header.Sound` — what every round keeps;
* `bounds_of_parse` — the ranges of the numbers in a header, and of the tunes that are made of it.
-/

variable {w : Window} {stop pos count : Nat} {h last : Header} {next : Header × Nat}

/-! ### Rounds -/

/-- One round: the header and the place with which the next one begins, unless this is the end. -/
def round (w : Window) (stop : Nat) (h : Header) (pos : Nat) : Option (Header × Nat) :=
  if pos + 4 ≤ stop ∧ w.holdsAt pos (Window.ascii endWord) = false then
    match fieldAt? w pos with
    | none => some (h, pos + 1)
    | some (field, start) => some (h.read w start field)
  else none

/-- So many rounds lead from a header at a place to the last header. -/
inductive Rounds (w : Window) (stop : Nat) : Nat → Header → Nat → Header → Prop
  | done {h : Header} {pos : Nat} : round w stop h pos = none → Rounds w stop 0 h pos h
  | again {count : Nat} {h last : Header} {pos : Nat} {next : Header × Nat} :
      round w stop h pos = some next → Rounds w stop count next.1 next.2 last →
      Rounds w stop (count + 1) h pos last

theorem readAll_of_round_eq_none (hround : round w stop h pos = none) :
    h.readAll w stop pos = h := by
  unfold round at hround
  rw [Header.readAll]
  split at hround
  · split at hround <;> cases hround
  · rename_i hend
    split
    · rename_i hroom
      rw [if_pos (by simpa [hroom] using hend)]
    · rfl

theorem readAll_of_round_eq_some (hround : round w stop h pos = some next) :
    h.readAll w stop pos = next.1.readAll w stop next.2 := by
  unfold round at hround
  split at hround
  · rename_i hgoes
    rw [Header.readAll, if_pos hgoes.1, if_neg (by simp [hgoes.2])]
    split at hround
    · rename_i hnone
      cases hround
      split
      · rfl
      · rename_i hsome
        rw [hnone] at hsome
        cases hsome
    · rename_i hsome
      cases hround
      split
      · rename_i hnone
        rw [hsome] at hnone
        cases hnone
      · rename_i hsome'
        rw [hsome] at hsome'
        cases hsome'
        rfl
  · cases hround

/-- **A round moves on**, and begins before the end. -/
theorem lt_of_round (hround : round w stop h pos = some next) : pos < next.2 ∧ pos < stop := by
  unfold round at hround
  split at hround
  · rename_i hgoes
    split at hround
    · cases hround
      exact ⟨Nat.lt_succ_self _, by omega⟩
    · rename_i field start hfield
      cases hround
      exact ⟨Nat.lt_of_lt_of_le (lt_of_fieldAt? hfield) (h.le_read w start field), by omega⟩
  · cases hround

/-- **The rounds come to an end**, with the header that is read. -/
theorem exists_rounds (w : Window) (stop : Nat) (h : Header) (pos : Nat) :
    ∃ count, count ≤ stop - pos ∧ Rounds w stop count h pos (h.readAll w stop pos) := by
  induction hleft : stop - pos using Nat.strong_induction_on generalizing h pos with
  | _ left ih =>
    cases hround : round w stop h pos with
    | none =>
      rw [readAll_of_round_eq_none hround]
      exact ⟨0, Nat.zero_le _, .done hround⟩
    | some next =>
      obtain ⟨hlt, hstop⟩ := lt_of_round hround
      obtain ⟨count, hcount, hrounds⟩ := ih _ (by omega) next.1 next.2 rfl
      rw [readAll_of_round_eq_some hround]
      exact ⟨count + 1, by omega, .again hround hrounds⟩

/-- What every tag keeps, the rounds keep. -/
theorem Rounds.keeps {P : Header → Prop} (hrounds : Rounds w stop count h pos last)
    (hread : ∀ h start field, P h → P (h.read w start field).1) (hP : P h) : P last := by
  induction hrounds with
  | done => exact hP
  | again hround _ ih =>
    apply ih
    unfold round at hround
    split at hround
    · split at hround
      · cases hround
        exact hP
      · cases hround
        exact hread _ _ _ hP
    · cases hround

/-! ### Headers -/

/-- What holds of a header after each tag. Its default track may be any. -/
structure Header.Sound (h : Header) : Prop where
  trackCount_pos : 0 < h.trackCount
  rate_pos : 0 < h.rate
  fits : Steps.Fits h

theorem rate_read_pos (hpos : 0 < h.rate) (w : Window) (start : Nat) (field : Field) :
    0 < (h.read w start field).1.rate := by
  cases field with
  | title | author | year | ripper | converter | defaultTrack =>
    rw [Header.read]
    generalize trimmed w start = found
    exact hpos
  | seconds | frames | names | trackCount =>
    rw [Header.read]
    exact hpos
  | rate =>
    rw [Header.read]
    obtain ⟨text, next⟩ := trimmed w start
    dsimp only
    split
    · exact hpos
    · rename_i hrate
      exact Nat.pos_of_ne_zero hrate

/-- **One tag** leaves a sound header. -/
theorem Header.Sound.read (hsound : h.Sound) (w : Window) (start : Nat) (field : Field) :
    (h.read w start field).1.Sound where
  trackCount_pos := trackCount_read_pos hsound.trackCount_pos w start field
  rate_pos := rate_read_pos hsound.rate_pos w start field
  fits := Steps.fits_read hsound.fits w start field

theorem sound_empty : Header.Sound {} :=
  ⟨Nat.one_pos, by decide, ⟨by decide, by decide, fun _ hn => absurd hn List.not_mem_nil⟩⟩

/-- Where the search for tags ends. -/
def stopOf (w : Window) : Nat := min (jumpDistance w + 2) w.size

theorem eq_of_parse (hparse : parse w = .ok h) :
    h = (({} : Header).readAll w (stopOf w) tagsOffset).withDefault := by
  unfold parse at hparse
  simp only [bind, Except.bind] at hparse
  split at hparse
  · cases hparse
  split at hparse
  · cases hparse
  cases hparse
  rfl

/-- Whether the numbers of a header are in their ranges. -/
structure Header.InRange (h : Header) : Prop where
  trackCount : 1 ≤ h.trackCount ∧ h.trackCount ≤ 128
  defaultTrack : 1 ≤ h.defaultTrack ∧ h.defaultTrack ≤ h.trackCount
  rate : 1 ≤ h.rate

theorem Header.Sound.inRange_withDefault (hsound : h.Sound) : h.withDefault.InRange := by
  have hpos := hsound.trackCount_pos
  unfold Header.withDefault
  split
  · exact ⟨⟨hpos, hsound.fits.trackCount⟩, ⟨Nat.le_refl _, hpos⟩, hsound.rate_pos⟩
  · rename_i hdefault
    exact ⟨⟨hpos, hsound.fits.trackCount⟩, by omega, hsound.rate_pos⟩

/-! ### Tunes -/

theorem frameCount_pos {n track : Nat} (hrate : 0 < h.rate) (hn : h.frameCount track = some n) :
    0 < n := by
  unfold Header.frameCount at hn
  generalize h.frames[track]?.getD 0 = frames at hn
  generalize h.seconds[track]?.getD 0 = seconds at hn
  cases frames with
  | succ frames =>
    cases hn
    exact Nat.succ_pos _
  | zero =>
    cases seconds with
    | zero => cases hn
    | succ seconds =>
      cases hn
      exact Nat.mul_pos (Nat.succ_pos _) hrate

/-- What is known of a tune does not name another one. -/
theorem get?_defaultTrack_toProperties (i : TuneInfo) :
    i.toProperties.get? Key.defaultTrack = none := by
  have htexts : ({ i with frameCount := none } : TuneInfo).toProperties.get? Key.defaultTrack
      = none := by
    simp only [TuneInfo.toProperties]
    rw [Properties.get?_setNonEmpty_of_ne _ _ (by decide),
      Properties.get?_setNonEmpty_of_ne _ _ (by decide),
      Properties.get?_setNonEmpty_of_ne _ _ (by decide),
      Properties.get?_setNonEmpty_of_ne _ _ (by decide),
      Properties.get?_setNonEmpty_of_ne _ _ (by decide)]
    rfl
  cases hcount : i.frameCount with
  | none =>
    rw [← htexts]
    simp only [TuneInfo.toProperties, hcount]
  | some count =>
    simp only [TuneInfo.toProperties, hcount]
    rw [Properties.get?_set_of_ne _ _ (by decide)]
    exact htexts

theorem get?_defaultTrack (h : Header) : h.toProperties.get? Key.defaultTrack
    = if 1 < h.defaultTrack then some (.ofNat h.defaultTrack) else none := by
  have hstarted : ((if 1 < h.defaultTrack then
        h.common.toProperties.set Key.defaultTrack (.ofNat h.defaultTrack)
      else h.common.toProperties) : Properties).get? Key.defaultTrack
      = if 1 < h.defaultTrack then some (.ofNat h.defaultTrack) else none := by
    split
    · rw [Properties.get?_set, if_pos rfl]
    · exact get?_defaultTrack_toProperties _
  unfold Header.toProperties
  simp only
  split
  · exact hstarted
  · rw [Properties.get?_set_of_ne _ _ (by decide)]
    exact hstarted

/-- Whether tunes are those of a header: as many as it says, numbered from one, each with a length
    that is positive if it is known, and for which no step goes wrong, and with the default track
    named when it is not the first. -/
structure Header.Plays (h : Header) (t : TuneSet) : Prop where
  numbers : t.tracks.map (·.tune.track) = (List.range' 1 h.trackCount).map some
  lengths : t.tracks.map (·.tune.info.frameCount) = (List.range h.trackCount).map h.frameCount
  lengths_pos : ∀ track ∈ t.tracks, ∀ n, track.tune.info.frameCount = some n → 0 < n
  steps : ∀ i, Steps.frameCount h i = pure (h.frameCount i)
  defaultTrack : t.properties.get? Key.defaultTrack
    = if 1 < h.defaultTrack then some (.ofNat h.defaultTrack) else none

theorem plays_of_parse (hparse : parse w = .ok h) (hfits : Steps.Fits h) (hrate : 0 < h.rate) :
    ∃ t, read w = .ok t ∧ h.Plays t := by
  simp only [read, bind, Except.bind, hparse]
  refine ⟨_, rfl, ?_, ?_, ?_, Steps.frameCount_eq hfits, get?_defaultTrack h⟩
  · rw [List.map_map, List.range'_eq_map_range, List.map_map]
    refine List.map_congr_left fun i _ => congrArg some ?_
    exact Nat.add_comm ..
  · rw [List.map_map]
    rfl
  · intro track htrack n hn
    obtain ⟨i, -, rfl⟩ := List.mem_map.1 htrack
    exact frameCount_pos hrate hn

/-- **Whatever the tags say**, a header that is read has between 1 and 128 tunes, one of them to begin
    with, and a positive rate. It is read in rounds that each move on, so that the loop, which nothing
    else bounds, comes to an end. Its tunes are as many as it says, with lengths that are positive
    words, and the default track is named when it is not the first. -/
theorem bounds_of_parse (hparse : parse w = .ok h) :
    h.InRange
      ∧ (∀ before pos next, round w (stopOf w) before pos = some next → pos < next.2)
      ∧ (∃ count last, count ≤ stopOf w - tagsOffset
          ∧ Rounds w (stopOf w) count {} tagsOffset last
          ∧ Steps.readAll {} w (stopOf w) tagsOffset = pure last ∧ h = last.withDefault)
      ∧ ∃ t, read w = .ok t ∧ h.Plays t := by
  obtain ⟨count, hcount, hrounds⟩ := exists_rounds w (stopOf w) {} tagsOffset
  have hsound := hrounds.keeps (fun _ start field hsound => hsound.read w start field) sound_empty
  obtain ⟨-, hsize, -⟩ := parse_spec hparse
  obtain ⟨hloop, -⟩ := Steps.readAll_eq (Nat.min_le_right (jumpDistance w + 2) w.size)
    (Nat.le_add_right_of_le hsize) sound_empty.fits
  have hlast := eq_of_parse hparse
  have hrange := hsound.inRange_withDefault
  have hfits := Steps.fits_withDefault hsound.fits
  rw [← hlast] at hrange hfits
  exact ⟨hrange, fun _ _ _ hround => (lt_of_round hround).1,
    ⟨count, _, hcount, hrounds, hloop, hlast⟩, plays_of_parse hparse hfits hrange.rate⟩

/-- A file whose tags give the ninth of its tunes as the default one before they say that there are
    two, a rate of zero, and a length for the first tune only. -/
def unordered : Window :=
  .ofByteArray ⟨([0x60, 0x1e] ++ List.replicate 10 0 ++ Window.ascii "SNDH" ++ Window.ascii "!#9"
    ++ [0] ++ Window.ascii "##02" ++ Window.ascii "TA0" ++ [0] ++ Window.ascii "TIME"
    ++ [0, 7]).toArray⟩

theorem bounds_of_unordered :
    let h : Header := { trackCount := 2, seconds := [7] }
    parse unordered = .ok h ∧ h.InRange
      ∧ ∃ t, read unordered = .ok t ∧ t.tracks.map (·.tune.info.frameCount) = [some 350, none] := by
  intro h
  have hparse : parse unordered = .ok h :=
    eq_ok_of_toOption (show (parse unordered).toOption = some h by decide +kernel)
  obtain ⟨hrange, -, -, t, hread, hplays⟩ := bounds_of_parse hparse
  exact ⟨hparse, hrange, t, hread, hplays.lengths⟩

end Chiptune.Sndh
