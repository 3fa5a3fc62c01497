import Chiptune.Proofs.Orderly

namespace Chiptune

/-!
# Scans pass over nothing

The frames of a scan stay in order, so a scan that goes from candidate to candidate finds what a
visit of every offset finds.

* `Scan.orderly_advance` and its like — the steps keep frames in order;
* `Scan.idle_of_lt_lookAhead` — nothing begins at the offsets that are left out;
* `Scan.course_eq_remaining` — the course of a frame in order is what a visit of all offsets finds;
* `Detector.detect_patient` — the same for detectors and those who listen to them.
-/

namespace Scan

variable {s : Scan} {skips : Plugin → Bool} {f g : Frame}

/-! ### Steps keep the order -/

theorem orderly_of_mem_children {opened : Opened} (h : g ∈ s.children f opened) :
    Orderly s.catalog g := by
  obtain ⟨entry, -, rfl⟩ := List.mem_map.1 h
  exact orderly_start ..

theorem orderly_players (h : Orderly s.catalog f) (hphase : f.phase = .archives) :
    Orderly s.catalog { f with phase := .players 0 } := by
  exact ⟨h.foresees.later rfl rfl (Nat.le_refl _), h.archives_of_phase hphase, h.tunes,
    h.offset_le⟩

theorem orderly_behind (h : Orderly s.catalog f) (hphase : f.phase = .archives) {opened : Opened}
    (harchive : s.archiveAt skips f = some opened) : Orderly s.catalog (f.behind opened) := by
  obtain ⟨-, -, -, hclaim, hadd⟩ := archiveAt_spec harchive
  have hstop : (⟨f.offset, opened.claim⟩ : Region).stop ≤ f.data.size := by
    apply Frame.stop_le_size h.offset_le
    rw [hclaim]
    exact Nat.min_le_right ..
  refine ⟨h.foresees.later rfl rfl (Nat.le_refl _), ?_, h.tunes, hstop⟩
  show opened.claims.EndBy f.data.size (f.offset + opened.claim)
  exact (h.archives_of_phase hphase).of_add? hstop f.data.size_lt_word hadd

theorem advance_of_ne_zero {claim : Nat} (h : claim ≠ 0) :
    s.advance skips f claim
      = { f with
          offset := if s.settings.scanRaw then f.offset + claim else f.data.size
          phase := .archives } := by
  unfold advance
  rw [if_neg h]

theorem advance_zero (s : Scan) (skips : Plugin → Bool) (f : Frame) :
    s.advance skips f 0
      = { f with
          candidates := f.refresh (s.tries skips f.depth) s.catalog
          offset := if s.settings.scanRaw then f.offset + (s.lookAhead skips f).2 else f.data.size
          phase := .archives } := by
  unfold advance
  rw [if_pos rfl]
  rfl

/-- A frame moves on behind a claim in order. -/
theorem orderly_advance {claim : Nat} (hclaim : claim ≠ 0) (hforesees : f.Foresees s.catalog)
    (harchives : f.archiveClaims.EndBy f.data.size (f.offset + claim))
    (htunes : f.tuneClaims.EndBy f.data.size (f.offset + claim))
    (hfits : f.offset + claim ≤ f.data.size) : Orderly s.catalog (s.advance skips f claim) := by
  rw [advance_of_ne_zero hclaim]
  by_cases hraw : s.settings.scanRaw = true
  · rw [if_pos hraw]
    exact ⟨hforesees.later rfl rfl (Nat.le_add_right ..), harchives, htunes, hfits⟩
  · -- Without raw scanning the frame goes to the end of its data.
    rw [if_neg hraw]
    have hle : f.offset ≤ f.data.size := Nat.le_trans (Nat.le_add_right ..) hfits
    exact ⟨hforesees.later rfl rfl hle, harchives.mono hfits, htunes.mono hfits,
      Nat.le_refl _⟩

/-- A frame moves on behind tunes that were found at its offset in order. -/
theorem orderly_advance_tunes (h : Orderly s.catalog f) (hle : f.offset ≤ f.data.size)
    {found : Found} (htunes : s.tunesAt skips f = some found) :
    Orderly s.catalog (s.advance skips { f with tuneClaims := found.claims }
      (max f.claimed found.claim)) := by
  obtain ⟨-, -, hsize, hadd⟩ := tunesAt_spec htunes
  have hne : found.claim ≠ 0 := Claims.size_ne_zero_of_add? hadd
  have hstop := Frame.stop_le_size hle hsize
  have hends : found.claims.EndBy f.data.size (f.offset + found.claim) :=
    h.tunes.of_add? hstop f.data.size_lt_word hadd
  have hstop : f.offset + found.claim ≤ f.data.size := hstop
  have hfits := h.fits
  refine orderly_advance (by omega) (h.foresees.later rfl rfl (Nat.le_refl _))
    (h.archives.mono ?_) (hends.mono ?_) ?_
  · show f.offset + f.claimed ≤ f.offset + max f.claimed found.claim
    omega
  · show f.offset + found.claim ≤ f.offset + max f.claimed found.claim
    omega
  · show f.offset + max f.claimed found.claim ≤ f.data.size
    omega

/-! ### Looking ahead -/

/-- The frame with candidates that are up to date. -/
def refreshed (s : Scan) (skips : Plugin → Bool) (f : Frame) : Frame := (s.lookAhead skips f).1

theorem lookAhead_size (s : Scan) (skips : Plugin → Bool) (f : Frame) :
    (s.lookAhead skips f).2
      = max 1 ((s.refreshed skips f).nextOffset (s.tries skips f.depth) s.catalog - f.offset) :=
  rfl

theorem foresees_refreshed (skips : Plugin → Bool) (h : f.Foresees s.catalog)
    (hsigned : ∀ p ∈ s.catalog.plugins, p.ChecksSignature) :
    (s.refreshed skips f).Foresees s.catalog :=
  h.refresh hsigned (s.tries skips f.depth)

/-- The next candidate lies inside the data. -/
theorem offset_add_lookAhead_le (s : Scan) (skips : Plugin → Bool) (h : f.offset < f.data.size) :
    f.offset + (s.lookAhead skips f).2 ≤ f.data.size := by
  have hle := (s.refreshed skips f).nextOffset_le_size (s.tries skips f.depth) s.catalog
  have hle : (s.refreshed skips f).nextOffset (s.tries skips f.depth) s.catalog ≤ f.data.size := hle
  rw [lookAhead_size]
  omega

/-- A frame moves on to its next candidate in order. -/
theorem orderly_advance_zero (h : Orderly s.catalog f) (hclaimed : f.claimed = 0)
    (hsigned : ∀ p ∈ s.catalog.plugins, p.ChecksSignature) (hlt : f.offset < f.data.size) :
    Orderly s.catalog (s.advance skips f 0) := by
  have hforesees := foresees_refreshed skips h.foresees hsigned
  have harchives := h.archives
  rw [hclaimed] at harchives
  have hsize := offset_add_lookAhead_le s skips hlt
  rw [advance_zero]
  by_cases hraw : s.settings.scanRaw = true
  · rw [if_pos hraw]
    exact ⟨hforesees.later rfl rfl (Nat.le_add_right ..),
      harchives.mono (Nat.le_add_right ..), h.tunes.mono (Nat.le_add_right ..), hsize⟩
  · rw [if_neg hraw]
    exact ⟨hforesees.later rfl rfl (Nat.le_of_lt hlt),
      harchives.mono (Nat.le_of_lt hlt), h.tunes.mono (Nat.le_of_lt hlt), Nat.le_refl _⟩

/-! ### Idle places -/

theorem archiveAt_eq_none (h : ∀ p ∈ s.catalog.plugins, s.tries skips f.depth p = true →
    p.locate f.rest = none) : s.archiveAt skips f = none := by
  unfold archiveAt
  by_cases hopens : s.opensAt f.depth = true
  · rw [if_pos hopens, List.findSome?_eq_none_iff]
    intro p hp
    obtain ⟨hp, hskip⟩ := List.mem_filter.1 hp
    have htries : s.tries skips f.depth p = true := by
      rw [tries, hopens, hskip]
      rfl
    have hcheck : ¬p.check f.rest = true := by
      intro hcheck
      have hnone := h p (List.mem_filter.1 hp).1 htries
      rw [Plugin.locate, if_pos hcheck] at hnone
      cases hnone
    rw [Frame.open?, if_neg hcheck]
  · rw [if_neg hopens]

theorem tunesAt_eq_none (h : ∀ p ∈ s.catalog.plugins, s.tries skips f.depth p = true →
    p.locate f.rest = none) : s.tunesAt skips f = none := by
  rw [tunesAt, List.findSome?_eq_none_iff]
  intro p hp
  obtain ⟨hp, hskip⟩ := List.mem_filter.1 hp
  obtain ⟨hmem, hplayer⟩ := List.mem_filter.1 hp
  have htries : s.tries skips f.depth p = true := by
    rw [tries, hplayer, hskip, Bool.or_true]
    rfl
  rw [Frame.find?, h p hmem htries]
  rfl

/-- Nothing begins at the offsets that are left out. -/
theorem idle_of_lt_lookAhead (h : Orderly s.catalog f)
    (hsigned : ∀ p ∈ s.catalog.plugins, p.ChecksSignature) {k : Nat} (hk : f.offset < k)
    (hlt : k < f.offset + (s.lookAhead skips f).2) : s.Idle skips (f.place.withOffset k) := by
  have hforesees := foresees_refreshed skips h.foresees hsigned
  have hnext : k < (s.refreshed skips f).nextOffset (s.tries skips f.depth) s.catalog := by
    rw [lookAhead_size] at hlt
    omega
  have hnone : ∀ p ∈ s.catalog.plugins, s.tries skips f.depth p = true →
      p.locate (f.place.withOffset k).frame.rest = none :=
    fun p hp htries => hforesees.locate_of_lt_nextOffset hp htries hk hnext
  exact ⟨archiveAt_eq_none hnone, tunesAt_eq_none hnone⟩

/-! ### The whole course -/

/-- What a visit of all offsets finds from the point of a frame on. Of an archive at the offset that
    was opened only the claim is left. -/
def remaining (s : Scan) (skips : Plugin → Bool) (f : Frame) : Findings :=
  match f.phase with
  | .archives => s.exhaust skips f.place
  | .players claim =>
    s.here skips f.place
      ++ s.exhaust skips (f.place.behind s (max claim (s.tuneClaim skips f.place)))

theorem remaining_of_archives (h : f.phase = .archives) :
    s.remaining skips f = s.exhaust skips f.place := by
  rw [remaining, h]

theorem remaining_of_players {claim : Nat} (h : f.phase = .players claim) :
    s.remaining skips f = s.here skips f.place
      ++ s.exhaust skips (f.place.behind s (max claim (s.tuneClaim skips f.place))) := by
  rw [remaining, h]

/-- Moving on to the next candidate finds what visiting the offsets up to it does. -/
theorem exhaust_place_advance_zero (h : Orderly s.catalog f)
    (hsigned : ∀ p ∈ s.catalog.plugins, p.ChecksSignature) (hlt : f.offset < f.data.size) :
    s.exhaust skips (s.advance skips f 0).place = s.exhaust skips (f.place.behind s 0) := by
  rw [advance_zero, Place.behind]
  by_cases hraw : s.settings.scanRaw = true
  · have hone : 1 ≤ (s.lookAhead skips f).2 := Nat.le_max_left ..
    have hsize := offset_add_lookAhead_le s skips hlt
    rw [if_pos hraw, if_pos hraw]
    refine (exhaust_eq_of_idle (p := f.place.withOffset (f.offset + 1)) hraw ?_ hsize ?_).symm
    · show f.offset + 1 ≤ f.offset + (s.lookAhead skips f).2
      omega
    · intro k hk hnext
      exact idle_of_lt_lookAhead h hsigned hk hnext
  · rw [if_neg hraw, if_neg hraw]
    rfl

theorem place_advance {claim : Nat} (h : claim ≠ 0) :
    (s.advance skips f claim).place = f.place.behind s claim := by
  have hmax : max 1 claim = claim := by omega
  rw [advance_of_ne_zero h, Place.behind, hmax]
  rfl

theorem courseOf_eq_exhaustAll {frames : List Frame}
    (h : ∀ g ∈ frames, s.course skips g = s.exhaust skips g.place) :
    s.courseOf skips frames = s.exhaustAll skips frames :=
  congrArg Findings.join (List.map_congr_left h)

/-- **Nothing is passed over.** The course of a frame in order is what a visit of all offsets
    finds. -/
theorem course_eq_remaining (hsigned : ∀ p ∈ s.catalog.plugins, p.ChecksSignature)
    (h : Orderly s.catalog f) (hopen : f.phase ≠ .archives → f.offset < f.data.size) :
    s.course skips f = s.remaining skips f := by
  -- The order of frames is the invariant, and each step of the course keeps it.
  induction f using Scan.course.induct s skips with
  | case1 f hdone =>
    have hsize : f.data.size ≤ f.offset := by simpa [Frame.isDone] using hdone
    have hphase : f.phase = .archives := by
      cases hphase : f.phase with
      | archives => rfl
      | players claim =>
        have := hopen (by rw [hphase]; exact Phase.noConfusion)
        omega
    rw [course_of_isDone hdone, remaining_of_archives hphase]
    exact (exhaust_of_size_le hsize).symm
  | case2 f hdone hphase harchive ih =>
    have hlt := f.lt_of_not_isDone hdone
    have hnone : s.archiveAt skips f.place.frame = none := by
      rw [archiveAt_eq_map h hphase] at harchive
      exact Option.map_eq_none_iff.1 harchive
    rw [course_of_archiveAt_none hdone hphase harchive,
      ih (orderly_players h hphase) (fun _ => hlt), remaining_of_players rfl,
      remaining_of_archives hphase, exhaust_of_archiveAt_none hlt hnone]
    rfl
  | case3 f hdone hphase opened harchive ihinside ihbehind =>
    have hlt := f.lt_of_not_isDone hdone
    obtain ⟨opened', hopened, rfl⟩ :
        ∃ opened', s.archiveAt skips f.place.frame = some opened'
          ∧ f.adoptArchive opened' = opened := by
      rw [archiveAt_eq_map h hphase] at harchive
      exact Option.map_eq_some_iff.1 harchive
    -- The entries are those of the place, and each begins a container in order.
    have hinside : s.courseOf skips (s.children f (f.adoptArchive opened'))
        = s.exhaustAll skips (s.children f.place.frame opened') := by
      apply courseOf_eq_exhaustAll
      intro g hg
      have hphase : g.phase = .archives := by
        obtain ⟨entry, -, rfl⟩ := List.mem_map.1 hg
        rfl
      rw [ihinside ⟨g, hg⟩ (orderly_of_mem_children hg) (fun hne => absurd hphase hne),
        remaining_of_archives hphase]
    rw [course_of_archiveAt_some hdone hphase harchive, hinside,
      ihbehind (orderly_behind h hphase harchive) (fun _ => hlt), remaining_of_players rfl,
      remaining_of_archives hphase, exhaust_of_archiveAt_some hlt hopened]
    rfl
  | case4 f hdone claim hphase htunes ih =>
    have hlt := f.lt_of_not_isDone hdone
    have hclaimed := Frame.claimed_of_players hphase
    have hnone : s.tunesAt skips f.place.frame = none := by
      rw [tunesAt_eq_map h] at htunes
      exact Option.map_eq_none_iff.1 htunes
    have hhere : s.here skips f.place = ∅ := by rw [here, hnone]; rfl
    have hclaim : max claim (s.tuneClaim skips f.place) = claim := by
      rw [tuneClaim, hnone]
      exact Nat.max_eq_left (Nat.zero_le claim)
    rw [course_of_tunesAt_none hdone hphase htunes, remaining_of_players hphase, hhere, hclaim,
      Findings.empty_append]
    -- Where nothing is claimed the frame looks ahead, otherwise it goes behind the claim.
    by_cases hzero : claim = 0
    · rw [hzero] at hclaimed ih ⊢
      rw [ih (orderly_advance_zero h hclaimed hsigned hlt) (fun hne => absurd rfl hne),
        remaining_of_archives rfl, exhaust_place_advance_zero h hsigned hlt]
    · have harchives := h.archives
      have hfits := h.fits
      rw [hclaimed] at harchives hfits
      have horderly : Orderly s.catalog (s.advance skips f claim) :=
        orderly_advance hzero h.foresees harchives (h.tunes.mono (Nat.le_add_right ..)) hfits
      rw [ih horderly (fun hne => absurd rfl hne), remaining_of_archives rfl, place_advance hzero]
  | case5 f hdone claim hphase found htunes ih =>
    have hlt := f.lt_of_not_isDone hdone
    have horderly := orderly_advance_tunes h (Nat.le_of_lt hlt) htunes
    have hclaimed := Frame.claimed_of_players hphase
    have hne : found.claim ≠ 0 := Claims.size_ne_zero_of_add? (tunesAt_spec htunes).2.2.2
    have hmax : max claim found.claim ≠ 0 := by omega
    obtain ⟨found', hfound, rfl⟩ :
        ∃ found', s.tunesAt skips f.place.frame = some found' ∧ f.adoptTunes found' = found := by
      rw [tunesAt_eq_map h] at htunes
      exact Option.map_eq_some_iff.1 htunes
    -- What is reported does not depend on the ledger.
    have hhere : s.here skips f.place = s.sightings f (f.adoptTunes found') := by
      rw [here, hfound]; rfl
    have htune : s.tuneClaim skips f.place = (f.adoptTunes found').claim := by
      rw [tuneClaim, hfound]; rfl
    rw [hclaimed] at horderly
    rw [course_of_tunesAt_some hdone hphase htunes, ih horderly (fun hne => absurd rfl hne),
      remaining_of_players hphase, hhere, htune, remaining_of_archives rfl, place_advance hmax]
    rfl

end Scan

/-! ### Detectors -/

namespace Detector

theorem course_start (d : Detector) (hsigned : ∀ p ∈ d.catalog.plugins, p.ChecksSignature)
    (skips : Plugin → Bool) (location : Location) (data : Window) :
    (d.scan location).course skips (d.start location data)
      = (d.scan location).exhaust skips (d.start location data).place :=
  Scan.course_eq_remaining hsigned (orderly_start ..) fun hne => absurd rfl hne

/-- What a visit of all offsets finds in some data, whose location may name a path inside that comes
    before all paths. -/
def exhaustive (d : Detector) (skips : Plugin → Bool) (location : String) (data : Window) :
    Findings :=
  let location := Location.parse location
  (d.scan location).exhaust skips (d.start location data).place

/-- A listener who takes everything hears what a visit of all offsets finds. -/
theorem detect_patient (d : Detector) (hsigned : ∀ p ∈ d.catalog.plugins, p.ChecksSignature)
    (skips : Plugin → Bool) (location : String) (data : Window) :
    d.detect location data (Listener.patient skips).observer []
      = (.ok ⟨(d.exhaustive skips location data).records.length,
          1 + (d.exhaustive skips location data).frames, false⟩,
        (d.exhaustive skips location data).records) := by
  have hrun := Scan.run_start_listener (Listener.patient skips) (d.scan (.parse location)) data
    (.parse d.settings.pathSeparator (Location.parse location).subpath)
  rw [Listener.receive_patient, Scan.course_eq_remaining hsigned (orderly_start ..)
    (fun hne => absurd rfl hne), Scan.remaining_of_archives rfl] at hrun
  obtain ⟨⟨modules, frames, cancelled⟩, hrun, rfl, rfl, hframes⟩ := hrun
  have hframes : frames = 1 + (d.exhaustive skips location data).frames := hframes rfl
  rw [hframes] at hrun
  exact hrun

/-- **A scan is exhaustive.** When the checks of all plugins begin with their signatures, an
    observer that neither stops a scan nor refuses a tune, and skips a fixed set of plugins, is
    offered exactly the records that a visit of all offsets finds, in their order, and tunes and
    containers are counted as there. -/
theorem detect_eq_exhaustive {σ : Type} (d : Detector)
    (hsigned : ∀ p ∈ d.catalog.plugins, p.ChecksSignature) (o : Observer σ)
    {skips : Plugin → Bool} (hskips : ∀ st, o.skips st = skips)
    (hpoll : ∀ st, (o.poll st).1 = false) (hoffer : ∀ record st, (o.offer record st).1 = none)
    (location : String) (data : Window) (st : σ) :
    let found := d.exhaustive skips location data
    let summary : Summary := ⟨found.records.length, 1 + found.frames, false⟩
    (d.detect location data o st).1 = .ok summary
      ∧ d.detect location data o.recording (st, [])
        = (.ok summary, (d.detect location data o st).2, found.records) := by
  intro found summary
  let scan := d.scan (.parse location)
  let start : Walk (σ × List Record) := ⟨[d.start (.parse location) data], 0, 1, (st, [])⟩
  -- The recording observer acts like the observer itself, and its list is that of a listener.
  have hown : d.detect location data o st
      = ((scan.run o.recording start).1, (scan.run o.recording start).2.1) :=
    scan.run_map o.maps_recording start
  have hlist : d.detect location data (Listener.patient skips).observer []
      = ((scan.run o.recording start).1, (scan.run o.recording start).2.2) :=
    scan.run_map (Observer.maps_patient hskips hpoll hoffer) start
  rw [d.detect_patient hsigned skips location data] at hlist
  obtain ⟨hresult, hrecords⟩ := Prod.mk.inj hlist
  refine ⟨by rw [hown, ← hresult], ?_⟩
  show scan.run o.recording start = _
  rw [hown, hrecords]
  exact Prod.ext hresult.symm rfl

/-- The plugins of the library and a listener who takes everything are as required. In a recording
    behind three other bytes, a visit of every offset finds what the scan does, which looks ahead:
    one tune and no container but the data itself. -/
theorem exhaustive_shiftedRecording :
    let d : Detector := ⟨.builtin, {}⟩
    let skips : Plugin → Bool := fun _ => false
    let o := (Listener.patient skips).observer
    (∀ p ∈ d.catalog.plugins, p.ChecksSignature) ∧ (∀ st, o.skips st = skips)
      ∧ (∀ st, (o.poll st).1 = false) ∧ (∀ record st, (o.offer record st).1 = none)
      ∧ (d.exhaustive skips "tunes" shiftedRecording).records.length = 1
      ∧ (d.exhaustive skips "tunes" shiftedRecording).frames = 0 := by
  intro d skips o
  have hsigned := Catalog.checksSignature_builtinWith Lha.openMember
  refine ⟨hsigned, fun _ => rfl, fun _ => rfl, fun _ _ => rfl, ?_⟩
  have hscan := (d.detect_eq_exhaustive hsigned o (fun _ => rfl) (fun _ => rfl)
    (fun _ _ => rfl) "tunes" shiftedRecording []).1
  have hparse : Location.parse "tunes" = ⟨"tunes", ""⟩ := by decide
  have hresult : (d.detect "tunes" shiftedRecording o []).1 = .ok ⟨1, 1, false⟩ :=
    d.map_detect_of_runWithin hparse o Prod.fst 12 (by decide +kernel)
  have hsummary := Except.ok.inj (hscan.symm.trans hresult)
  rw [Summary.mk.injEq] at hsummary
  obtain ⟨hmodules, hframes, -⟩ := hsummary
  exact ⟨hmodules, Nat.add_left_cancel hframes⟩

end Detector

end Chiptune
