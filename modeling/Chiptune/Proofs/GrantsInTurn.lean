import Chiptune.Proofs.Histories
import Chiptune.Proofs.Nesting

namespace Chiptune

/-!
# Claims in one container

A scan goes through a container from its start to its end, and all that is claimed on the way lies
behind it. So the ledgers of a frame, which could refuse any overlap, never have to.

* `Claims.InTurn` — ledgers whose regions were granted one behind the other;
* `Scan.keeps_inTurn` — a step keeps the ledgers of all frames like this;
* `Scan.granted_in_order` — what follows for all chapters of all scans.
-/

/-! ### Ledgers filled from start to end -/

namespace Claims

/-- Whether the regions of a ledger of disjoint regions are those of `granted`, which were granted
    one behind the other, the last of them up to an offset. -/
structure InTurn (c : Claims) (limit offset : Nat) (granted : List Region) : Prop where
  endBy : c.EndBy limit offset
  regions : c.regions = granted.reverse
  nonempty : ∀ r ∈ granted, r.size ≠ 0
  ascending : granted.Pairwise fun r s => r.stop ≤ s.offset

theorem inTurn_empty (limit offset : Nat) : (empty .disjoint limit).InTurn limit offset [] where
  endBy := endBy_empty limit offset
  regions := rfl
  nonempty := List.forall_mem_nil _
  ascending := List.Pairwise.nil

/-- A region behind all others comes first in the list. -/
theorem insert_of_forall_stop_le {r : Region} {regions : List Region}
    (hnonempty : ∀ s ∈ regions, s.size ≠ 0) (hstops : ∀ s ∈ regions, s.stop ≤ r.offset) :
    insert r regions = r :: regions := by
  cases regions with
  | nil => rfl
  | cons s rest =>
    have hsize := hnonempty s List.mem_cons_self
    have hstop : s.offset + s.size ≤ r.offset := hstops s List.mem_cons_self
    rw [insert, if_pos (by omega)]

/-- What begins behind all regions is refused only when it is empty. -/
theorem EndBy.add?_eq_none_iff {c : Claims} {limit : Nat} {r : Region} (h : c.EndBy limit r.offset)
    (hfits : r.stop ≤ limit) (hlimit : limit < UInt64.size) : c.add? r = none ↔ r.size = 0 := by
  constructor
  · intro hnone
    by_contra hsize
    rw [h.add?_eq_grant hsize hfits hlimit] at hnone
    cases hnone
  · exact add?_of_size_eq_zero c

namespace InTurn

variable {c : Claims} {limit offset : Nat} {granted : List Region} {r : Region}

theorem mono (h : c.InTurn limit offset granted) {later : Nat} (hle : offset ≤ later) :
    c.InTurn limit later granted :=
  ⟨h.endBy.mono hle, h.regions, h.nonempty, h.ascending⟩

theorem mem_regions (h : c.InTurn limit offset granted) : r ∈ c.regions ↔ r ∈ granted := by
  rw [h.regions, List.mem_reverse]

theorem stop_le (h : c.InTurn limit offset granted) (hr : r ∈ granted) : r.stop ≤ offset :=
  h.endBy.stops r (h.mem_regions.2 hr)

/-- A claim behind all others is the next in turn. -/
theorem concat (h : c.InTurn limit r.offset granted) (hfits : r.stop ≤ limit)
    (hlimit : limit < UInt64.size) {claims : Claims} (hadd : c.add? r = some claims) :
    claims.InTurn limit r.stop (granted ++ [r]) := by
  have hsize := size_ne_zero_of_add? hadd
  refine ⟨h.endBy.of_add? hfits hlimit hadd, ?_, ?_, ?_⟩
  · -- The ledger keeps the last region first.
    rw [h.endBy.add?_eq_grant hsize hfits hlimit] at hadd
    rw [← Option.some.inj hadd, List.reverse_append, ← h.regions]
    exact insert_of_forall_stop_le (fun s hs => h.nonempty s (h.mem_regions.1 hs)) h.endBy.stops
  · intro s hs
    rcases List.mem_append.1 hs with hs | hs
    · exact h.nonempty s hs
    · rwa [List.mem_singleton.1 hs]
  · refine List.pairwise_append.2 ⟨h.ascending, List.pairwise_singleton _ r, fun s hs t ht => ?_⟩
    rw [List.mem_singleton.1 ht]
    exact h.stop_le hs

/-- Of two regions granted in turn the first begins first, and they have no byte in common. -/
theorem apart (h : c.InTurn limit offset granted) :
    granted.Pairwise fun r s => r.offset < s.offset ∧ r.Apart s := by
  apply h.ascending.imp_of_mem
  intro r s hr hs hle
  have hsize := h.nonempty r hr
  refine ⟨?_, (Region.apart_iff hsize (h.nonempty s hs)).2 (.inl hle)⟩
  unfold Region.stop at hle
  omega

end InTurn

end Claims

/-! ### Chapters in turn -/

/-- Whether all claims of a chapter were granted one behind the other up to where its frame is, and
    all offers were made on the way there. -/
structure Chapter.InTurn (c : Chapter) : Prop where
  archives :
    c.frame.archiveClaims.InTurn c.frame.data.size (c.frame.offset + c.frame.claimed) c.archives
  tunes : c.frame.tuneClaims.InTurn c.frame.data.size c.frame.offset c.tunes
  offers : c.offers.Pairwise fun e e' => e.offset ≤ e'.offset
  offered : ∀ e ∈ c.offers, e.offset ≤ c.frame.offset
  fits : c.frame.offset + c.frame.claimed ≤ c.frame.data.size

namespace Chapter

variable {c : Chapter}

theorem inTurn_start (data : Window) (path : TunePath) (properties : Properties) (depth : Nat)
    (catalog : Catalog) (around : List Opened) :
    ({ frame := .start data path properties depth catalog, around } : Chapter).InTurn where
  archives := Claims.inTurn_empty data.size 0
  tunes := Claims.inTurn_empty data.size 0
  offers := List.Pairwise.nil
  offered := List.forall_mem_nil _
  fits := Nat.zero_le _

namespace InTurn

theorem offset_le (h : c.InTurn) : c.frame.offset ≤ c.frame.data.size :=
  Nat.le_trans (Nat.le_add_right ..) h.fits

/-- Before archives are tried, all their claims lie behind. -/
theorem archives_of_phase (h : c.InTurn) (hphase : c.frame.phase = .archives) :
    c.frame.archiveClaims.InTurn c.frame.data.size c.frame.offset c.archives := by
  have harchives := h.archives
  rwa [Frame.claimed_of_archives hphase] at harchives

/-- The claim of tunes that are found is the next in turn. -/
theorem tunes_play (h : c.InTurn) {p : Plugin} {found : Found} (hfind : c.frame.find? p = some found)
    (offered : List Sighting) :
    found.claims.InTurn c.frame.data.size (c.frame.offset + found.claim)
      (c.play found offered).tunes := by
  obtain ⟨-, -, -, hclaim, hadd⟩ := Frame.find?_spec hfind
  exact h.tunes.concat (Frame.stop_le_size h.offset_le hclaim) c.frame.data.size_lt_word hadd

/-- All that is offered at one offset comes behind what was offered before. -/
theorem offers_play (h : c.InTurn) (found : Found) {offered : List Sighting}
    (hoffered : ∀ e ∈ offered, e.offset = c.frame.offset) :
    (c.play found offered).offers.Pairwise fun e e' => e.offset ≤ e'.offset := by
  refine List.pairwise_append.2 ⟨h.offers, ?_, fun e he e' he' => ?_⟩
  · apply List.pairwise_of_forall_mem_list
    intro e he e' he'
    rw [hoffered e he, hoffered e' he']
  · rw [hoffered e' he']
    exact h.offered e he

theorem offered_play (h : c.InTurn) (found : Found) {offered : List Sighting}
    (hoffered : ∀ e ∈ offered, e.offset = c.frame.offset) :
    ∀ e ∈ (c.play found offered).offers, e.offset ≤ c.frame.offset := by
  intro e he
  rcases List.mem_append.1 he with he | he
  · exact h.offered e he
  · rw [hoffered e he]

end InTurn

end Chapter

namespace Scan

variable {s : Scan} {skips : Plugin → Bool} {f : Frame} {c : Chapter} {told : List Chapter}
  {heard offered : List Sighting} {claim : Nat}

theorem offset_of_mem_wanted {records : List Record} {e : Sighting}
    (h : e ∈ s.wanted f records) : e.offset = f.offset := by
  obtain ⟨r, -, rfl⟩ := List.mem_map.1 h
  rfl

theorem archiveClaims_advance (s : Scan) (skips : Plugin → Bool) (f : Frame) (claim : Nat) :
    (s.advance skips f claim).archiveClaims = f.archiveClaims := by
  simp only [advance, lookAhead]; split <;> rfl

theorem tuneClaims_advance (s : Scan) (skips : Plugin → Bool) (f : Frame) (claim : Nat) :
    (s.advance skips f claim).tuneClaims = f.tuneClaims := by
  simp only [advance, lookAhead]; split <;> rfl

/-- A frame leaves the claim at its offset behind. -/
theorem add_claim_le_offset_advance (s : Scan) (skips : Plugin → Bool)
    (hlt : f.offset < f.data.size) (hfits : f.offset + claim ≤ f.data.size) :
    f.offset + claim ≤ (s.advance skips f claim).offset := by
  by_cases hclaim : claim = 0
  · rw [hclaim]
    exact Nat.le_of_lt (s.lt_offset_advance skips f 0 hlt)
  · rw [advance_of_ne_zero hclaim]
    show f.offset + claim ≤ if s.settings.scanRaw then f.offset + claim else f.data.size
    split
    · exact Nat.le_refl _
    · exact hfits

/-- A frame that moves on behind all claims keeps them in turn. -/
theorem inTurn_advance (skips : Plugin → Bool)
    (harchives : c.frame.archiveClaims.InTurn c.frame.data.size (c.frame.offset + claim) c.archives)
    (htunes : c.frame.tuneClaims.InTurn c.frame.data.size (c.frame.offset + claim) c.tunes)
    (hoffers : c.offers.Pairwise fun e e' => e.offset ≤ e'.offset)
    (hoffered : ∀ e ∈ c.offers, e.offset ≤ c.frame.offset)
    (hlt : c.frame.offset < c.frame.data.size) (hfits : c.frame.offset + claim ≤ c.frame.data.size) :
    (c.turn (s.advance skips c.frame claim)).InTurn := by
  have hbehind := s.add_claim_le_offset_advance skips hlt hfits
  obtain ⟨hon, hend⟩ := s.offset_advance skips c.frame claim hlt hfits
  -- No archive is open at the new offset.
  have hclaimed : (s.advance skips c.frame claim).claimed = 0 := Frame.claimed_of_archives rfl
  refine ⟨?_, ?_, hoffers, ?_, ?_⟩
  · show (s.advance skips c.frame claim).archiveClaims.InTurn _
      ((s.advance skips c.frame claim).offset + (s.advance skips c.frame claim).claimed) _
    rw [archiveClaims_advance, hclaimed]
    show c.frame.archiveClaims.InTurn (s.advance skips c.frame claim).data.size _ c.archives
    rw [data_advance]
    exact harchives.mono hbehind
  · show (s.advance skips c.frame claim).tuneClaims.InTurn
      (s.advance skips c.frame claim).data.size (s.advance skips c.frame claim).offset c.tunes
    rw [tuneClaims_advance, data_advance]
    exact htunes.mono hbehind
  · intro e he
    exact Nat.le_trans (hoffered e he) (Nat.le_of_lt hon)
  · show (s.advance skips c.frame claim).offset + (s.advance skips c.frame claim).claimed
      ≤ (s.advance skips c.frame claim).data.size
    rw [hclaimed, data_advance]
    exact hend

theorem inTurn_unpack (h : c.InTurn) (hphase : c.frame.phase = .archives) {p : Plugin}
    {opened : Opened} (hopen : c.frame.open? s.settings p = some opened) :
    (c.unpack opened).InTurn := by
  obtain ⟨-, -, -, hclaim, hadd⟩ := Frame.open?_spec hopen
  have hle : opened.claim ≤ c.frame.rest.size := hclaim ▸ Nat.min_le_right ..
  have hfits := Frame.stop_le_size h.offset_le hle
  exact ⟨(h.archives_of_phase hphase).concat hfits c.frame.data.size_lt_word hadd, h.tunes, h.offers,
    h.offered, hfits⟩

theorem inTurn_keep (h : c.InTurn) (hphase : c.frame.phase = .archives) :
    (c.turn { c.frame with phase := .players 0 }).InTurn :=
  ⟨h.archives_of_phase hphase, h.tunes, h.offers, h.offered, h.offset_le⟩

theorem inTurn_play (skips : Plugin → Bool) (h : c.InTurn) (hdone : ¬c.frame.isDone = true)
    (hphase : c.frame.phase = .players claim) {p : Plugin} {found : Found}
    (hfind : c.frame.find? p = some found)
    (hoffered : offered <+: s.wanted c.frame (s.records c.frame found)) :
    ((c.play found offered).turn (s.advance skips { c.frame with tuneClaims := found.claims }
      (max claim found.claim))).InTurn := by
  have hlt := c.frame.lt_of_not_isDone hdone
  have hoffsets : ∀ e ∈ offered, e.offset = c.frame.offset :=
    fun e he => offset_of_mem_wanted (hoffered.subset he)
  have harchives := h.archives
  have hfits := h.fits
  rw [Frame.claimed_of_players hphase] at harchives hfits
  obtain ⟨-, -, -, hclaim, -⟩ := Frame.find?_spec hfind
  have hfound := offset_add_claim_le hlt hclaim
  -- The frame moves on behind the larger one of the two claims.
  exact inTurn_advance (c := (c.play found offered).turn
      { c.frame with tuneClaims := found.claims }) skips
    (harchives.mono (Nat.add_le_add_left (Nat.le_max_left ..) _))
    ((h.tunes_play hfind offered).mono (Nat.add_le_add_left (Nat.le_max_right ..) _))
    (h.offers_play found hoffsets) (h.offered_play found hoffsets) hlt
    (show c.frame.offset + max claim found.claim ≤ c.frame.data.size by omega)

theorem inTurn_pass (skips : Plugin → Bool) (h : c.InTurn) (hdone : ¬c.frame.isDone = true)
    (hphase : c.frame.phase = .players claim) :
    (c.turn (s.advance skips c.frame claim)).InTurn := by
  have harchives := h.archives
  have hfits := h.fits
  rw [Frame.claimed_of_players hphase] at harchives hfits
  exact inTurn_advance skips harchives (h.tunes.mono (Nat.le_add_right ..)) h.offers h.offered
    (c.frame.lt_of_not_isDone hdone) hfits

/-- Claims and offers stay in turn whatever a step does. -/
theorem keeps_inTurn (s : Scan) : s.Keeps Chapter.InTurn where
  inside _ hentry := by
    -- The scan of an entry begins, and nothing is claimed in it.
    obtain ⟨entry, -, rfl⟩ := List.mem_map.1 hentry
    exact Chapter.inTurn_start ..
  unpack hc hphase hopen := inTurn_unpack hc hphase hopen
  keep := inTurn_keep
  play skips hc hdone hphase hfind hoffered := inTurn_play skips hc hdone hphase hfind hoffered
  pass := inTurn_pass

theorem inTurn_of_told {data : Window} {root : TunePath} (h : s.Told data root told heard) :
    ∀ c ∈ told, c.InTurn :=
  s.keeps_inTurn.forall_of_told (Chapter.inTurn_start ..) h

end Scan

/-! ### What follows -/

namespace Chapter

/-- Whether the claims of archives, those of tunes and the offers of a chapter come in the order of
    the data: each claim begins behind the one before and has no byte in common with any other, all
    of them end inside the data, and no offer comes from before an earlier one. -/
structure Ascends (c : Chapter) : Prop where
  archives : c.archives.Pairwise fun r s => r.offset < s.offset ∧ r.Apart s
  tunes : c.tunes.Pairwise fun r s => r.offset < s.offset ∧ r.Apart s
  inside : ∀ r, r ∈ c.archives ∨ r ∈ c.tunes → r.stop ≤ c.frame.data.size
  offers : c.offers.Pairwise fun e e' => e.offset ≤ e'.offset

/-- What can be said of a chapter.

    * `ascends` — its claims and offers come in the order of the data;
    * `play_ascends` — so they do with those of a last step, in which an offer is refused;
    * `held` — the ledgers of the frame hold these claims;
    * `stops` — before archives are tried, all claims end by the offset;
    * `archive_refused_iff`, `tunes_refused_iff` — so a claim at the offset is refused only when it is
      empty. -/
structure InOrder (s : Scan) (c : Chapter) : Prop where
  ascends : c.Ascends
  play_ascends : ∀ p found offered, c.frame.find? p = some found →
    offered <+: s.wanted c.frame (s.records c.frame found) → (c.play found offered).Ascends
  held : ∀ r, (r ∈ c.frame.archiveClaims.regions ↔ r ∈ c.archives)
    ∧ (r ∈ c.frame.tuneClaims.regions ↔ r ∈ c.tunes)
  stops : c.frame.phase = .archives →
    ∀ r, r ∈ c.frame.archiveClaims.regions ∨ r ∈ c.frame.tuneClaims.regions →
      r.stop ≤ c.frame.offset
  archive_refused_iff : c.frame.phase = .archives → ∀ size ≤ c.frame.rest.size,
    (c.frame.archiveClaims.add? ⟨c.frame.offset, size⟩ = none ↔ size = 0)
  tunes_refused_iff : ∀ size ≤ c.frame.rest.size,
    (c.frame.tuneClaims.add? ⟨c.frame.offset, size⟩ = none ↔ size = 0)

theorem InTurn.ascends {c : Chapter} (h : c.InTurn) : c.Ascends where
  archives := h.archives.apart
  tunes := h.tunes.apart
  inside r hr := by
    rcases hr with hr | hr
    · exact Nat.le_trans (h.archives.stop_le hr) h.fits
    · exact Nat.le_trans (h.tunes.stop_le hr) h.offset_le
  offers := h.offers

theorem InTurn.play_ascends {c : Chapter} {s : Scan} (h : c.InTurn) {p : Plugin} {found : Found}
    {offered : List Sighting} (hfind : c.frame.find? p = some found)
    (hoffered : offered <+: s.wanted c.frame (s.records c.frame found)) :
    (c.play found offered).Ascends := by
  have htunes := h.tunes_play hfind offered
  obtain ⟨-, -, -, hclaim, -⟩ := Frame.find?_spec hfind
  refine ⟨h.ascends.archives, htunes.apart, fun r hr => ?_, ?_⟩
  · rcases hr with hr | hr
    · exact h.ascends.inside r (.inl hr)
    · exact Nat.le_trans (htunes.stop_le hr) (Frame.stop_le_size h.offset_le hclaim)
  · exact h.offers_play found fun e he => Scan.offset_of_mem_wanted (hoffered.subset he)

theorem InTurn.inOrder {c : Chapter} (h : c.InTurn) (s : Scan) : c.InOrder s where
  ascends := h.ascends
  play_ascends p found offered hfind hoffered := h.play_ascends hfind hoffered
  held r := ⟨h.archives.mem_regions, h.tunes.mem_regions⟩
  stops hphase r hr := by
    rcases hr with hr | hr
    · exact (h.archives_of_phase hphase).endBy.stops r hr
    · exact h.tunes.endBy.stops r hr
  archive_refused_iff hphase size hsize :=
    (h.archives_of_phase hphase).endBy.add?_eq_none_iff (Frame.stop_le_size h.offset_le hsize)
      c.frame.data.size_lt_word
  tunes_refused_iff size hsize :=
    h.tunes.endBy.add?_eq_none_iff (Frame.stop_le_size h.offset_le hsize) c.frame.data.size_lt_word

end Chapter

namespace Scan

/-- **Claims come in order.** Whoever listens to a scan, its steps are told with what they offer, and
    when the last step finds tunes of which one is refused, it offers the first of them. In every
    chapter that is told on the way, claims and offers come in the order of the data. -/
theorem granted_in_order {σ : Type} (s : Scan) (o : Observer σ) (data : Window) (root : TunePath) :
    (∀ (w w' : Walk (σ × List Record)) (told : List Chapter), s.step o.recording w = .on w' →
      told.map Chapter.frame = w.stack → ∃ offered next, s.Tells told offered next
        ∧ next.map Chapter.frame = w'.stack
        ∧ w'.observer.2 = w.observer.2 ++ offered.map Sighting.record)
    ∧ (∀ (w : Walk (σ × List Record)) (told : List Chapter) (error : ScanError)
        (st : σ × List Record), s.step o.recording w = .over (.error error) st →
      told.map Chapter.frame = w.stack → ∃ c below p found offered, told = c :: below
        ∧ c.frame.find? p = some found
        ∧ offered <+: s.wanted c.frame (s.records c.frame found)
        ∧ st.2 = w.observer.2 ++ offered.map Sighting.record)
    ∧ ∀ told heard, s.Told data root told heard → ∀ c ∈ told, c.InOrder s := by
  refine ⟨fun w w' told => tells_of_step, fun w told error st hstep hstack => ?_,
    fun told heard htold c hc => (inTurn_of_told htold c hc).inOrder s⟩
  rcases heard_of_over hstep with ⟨⟨summary, hok⟩, -⟩ |
    ⟨f, below, p, found, offered, reason, hframes, -, -, hfind, hoffered, hheard⟩
  · cases hok
  · rw [hframes] at hstack
    obtain ⟨c, rest, rfl, rfl, -⟩ := List.map_eq_cons_iff.1 hstack
    exact ⟨c, rest, p, found, offered, rfl, hfind, hoffered, hheard⟩

/-- A scan of packed data comes to a stack of two chapters, that of the entry and that of the data
    itself, where all 24 bytes are claimed. Both are in order. -/
theorem granted_in_packedRecording :
    let s : Scan := (⟨.builtin, {}⟩ : Detector).scan ⟨"a", ""⟩
    let c : Chapter := { frame := .start Detector.packedRecording (.empty '/') ∅ 0 s.catalog }
    ∃ opened entry, s.Told Detector.packedRecording (.empty '/')
        [c.inside opened entry, c.unpack opened] []
      ∧ (c.unpack opened).archives = [⟨0, 24⟩] ∧ (c.inside opened entry).InOrder s
      ∧ (c.unpack opened).InOrder s := by
  intro s c
  have hrun : (s.catalog.archives.findSome? (c.frame.open? s.settings)).map
      (fun o => (o.claim, (s.children c.frame o).length)) = some (24, 1) := by
    decide +kernel
  obtain ⟨opened, hopened, hsame⟩ := Option.map_eq_some_iff.1 hrun
  obtain ⟨hclaim, hlength⟩ := Prod.mk.inj hsame
  obtain ⟨p, hp, hopen⟩ := List.exists_of_findSome?_eq_some hopened
  obtain ⟨entry, hentry⟩ := List.length_eq_one_iff.1 hlength
  have hdone : ¬c.frame.isDone = true := by decide
  have htold := Told.start.next (.unpack hdone rfl rfl hp hopen)
  rw [hentry] at htold
  obtain ⟨-, -, horder⟩ := s.granted_in_order Collector.observer Detector.packedRecording
    (.empty '/')
  have hboth := horder _ _ htold
  refine ⟨opened, entry, htold, ?_, hboth _ List.mem_cons_self,
    hboth _ (List.mem_cons_of_mem _ List.mem_cons_self)⟩
  show [(⟨0, opened.claim⟩ : Region)] = _
  rw [hclaim]

end Scan

end Chiptune
