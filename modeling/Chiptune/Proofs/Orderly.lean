import Chiptune.Proofs.Exhaustive
import Chiptune.Proofs.Ledger
import Chiptune.Proofs.Search

namespace Chiptune

/-!
# Frames in order

The steps of a scan keep what they know of a container in its frame: which bytes are claimed, and
where each plugin could begin next.

* `Claims.EndBy` — in a ledger whose regions all lie behind, every claim ahead is granted;
* `Frame.Foresees` — candidates that pass over nothing;
* `Orderly` — both for a frame. At the offset of such a frame nothing depends on earlier offsets:
  `Scan.archiveAt_eq_map`, `Scan.tunesAt_eq_map`.
-/

/-! ### Ledgers behind which all is free -/

/-- Whether all regions of a ledger of disjoint regions end by an offset. -/
structure Claims.EndBy (c : Claims) (limit offset : Nat) : Prop where
  policy : c.policy = .disjoint
  limit : c.limit = limit
  stops : ∀ r ∈ c.regions, r.stop ≤ offset

namespace Claims

theorem endBy_empty (limit offset : Nat) : (empty .disjoint limit).EndBy limit offset :=
  ⟨rfl, rfl, List.forall_mem_nil _⟩

theorem EndBy.mono {c : Claims} {limit offset later : Nat} (h : c.EndBy limit offset)
    (hle : offset ≤ later) : c.EndBy limit later :=
  ⟨h.policy, h.limit, fun r hr => Nat.le_trans (h.stops r hr) hle⟩

section

variable {c : Claims} {limit : Nat} {r : Region}

theorem EndBy.grant (h : c.EndBy limit r.offset) : (c.grant r).EndBy limit r.stop := by
  refine ⟨h.policy, h.limit, fun s hs => ?_⟩
  rcases mem_insert.1 hs with rfl | hs
  · exact Nat.le_refl _
  · exact Nat.le_trans (h.stops s hs) (Nat.le_add_right ..)

/-- What begins behind all regions is granted. -/
theorem EndBy.add?_eq_grant (h : c.EndBy limit r.offset) (hsize : r.size ≠ 0)
    (hfits : r.stop ≤ limit) (hlimit : limit < UInt64.size) : c.add? r = some (c.grant r) := by
  have hpolicy : c.policy ≠ .total := by
    rw [h.policy]
    decide
  rw [add?_of_fits hpolicy hsize (by omega) (h.limit.symm ▸ hfits)]
  cases hlast : c.lastBefore r.stop with
  | none => rfl
  | some s =>
    -- The last region before the end is the only one that could overlap.
    have hstop := h.stops s (List.mem_of_find?_eq_some hlast)
    exact if_neg (by omega)

/-- A ledger whose regions lie behind grants what an empty one does. -/
theorem EndBy.add?_eq_map (h : c.EndBy limit r.offset) (hfits : r.stop ≤ limit)
    (hlimit : limit < UInt64.size) :
    c.add? r = ((empty .disjoint limit).add? r).map fun _ => c.grant r := by
  by_cases hsize : r.size = 0
  · rw [add?_of_size_eq_zero c hsize, add?_of_size_eq_zero _ hsize]
    rfl
  · rw [h.add?_eq_grant hsize hfits hlimit,
      (endBy_empty limit r.offset).add?_eq_grant hsize hfits hlimit]
    rfl

end

/-- A ledger that has granted a claim ends with it. -/
theorem EndBy.of_add? {c claims : Claims} {limit : Nat} {r : Region} (h : c.EndBy limit r.offset)
    (hfits : r.stop ≤ limit) (hlimit : limit < UInt64.size) (hadd : c.add? r = some claims) :
    claims.EndBy limit r.stop := by
  rw [h.add?_eq_grant (size_ne_zero_of_add? hadd) hfits hlimit] at hadd
  rw [← Option.some.inj hadd]
  exact h.grant

end Claims

/-! ### Candidates that pass over nothing -/

/-- Whether no plugin begins between the offset of a frame and its candidate. -/
structure Frame.Foresees (f : Frame) (c : Catalog) : Prop where
  length : f.candidates.length = c.plugins.length
  passed : ∀ (i : Nat) (p : Plugin) (slot : Option Nat), c.plugins[i]? = some p →
    f.candidates[i]? = some slot →
    ∀ k, f.offset < k → k < slot.getD f.data.size → p.locate (f.data.drop k) = none

namespace Frame

variable {f : Frame} {c : Catalog}

theorem foresees_start (data : Window) (path : TunePath) (properties : Properties) (depth : Nat)
    (c : Catalog) : (start data path properties depth c).Foresees c := by
  refine ⟨List.length_replicate, fun i p slot hp hslot k hk hlt => ?_⟩
  have hzero : slot = some 0 := List.eq_of_mem_replicate (List.mem_of_getElem? hslot)
  rw [hzero] at hlt
  exact absurd hlt (Nat.not_lt_zero k)

/-- Candidates still pass over nothing when a frame has moved on. -/
theorem Foresees.later {g : Frame} (h : f.Foresees c) (hdata : g.data = f.data)
    (hcandidates : g.candidates = f.candidates) (hle : f.offset ≤ g.offset) : g.Foresees c := by
  refine ⟨by rw [hcandidates, h.length], fun i p slot hp hslot k hk hlt => ?_⟩
  rw [hcandidates] at hslot
  rw [hdata] at hlt ⊢
  exact h.passed i p slot hp hslot k (by omega) hlt

/-- A candidate that was brought up to date passes over nothing either. -/
theorem locate_of_lt_candidate {p : Plugin} (hp : p.ChecksSignature) {slot : Option Nat}
    (hslot : ∀ k, f.offset < k → k < slot.getD f.data.size → p.locate (f.data.drop k) = none)
    (k : Nat) (hk : f.offset < k) (hlt : k < (slot.bind (f.candidate p)).getD f.data.size) :
    p.locate (f.data.drop k) = none := by
  cases slot with
  | none => exact hslot k hk hlt
  | some known =>
    simp only [Option.bind_some, candidate] at hlt
    by_cases hknown : f.offset < known
    · rw [if_pos hknown] at hlt
      exact hslot k hk hlt
    · -- The plugin is searched for anew: offsets in the rest count from that of the frame.
      rw [if_neg hknown] at hlt
      have hsize : f.rest.size = f.data.size - f.offset := Window.size_drop ..
      have hahead : k - f.offset < p.lookahead f.rest := by
        split at hlt
        · have hlt : k < f.offset + p.lookahead f.rest := hlt
          omega
        · have hlt : k < f.data.size := hlt
          omega
      have hnone := Plugin.locate_drop_of_lt_lookahead hp (Nat.sub_pos_of_lt hk) hahead
      show p.locate (f.data.drop k) = none
      have hshift : f.offset + (k - f.offset) = k := by omega
      rwa [rest, Window.drop_drop, hshift] at hnone

theorem Foresees.refresh (h : f.Foresees c) (hsigned : ∀ p ∈ c.plugins, p.ChecksSignature)
    (tried : Plugin → Bool) : { f with candidates := f.refresh tried c }.Foresees c := by
  refine ⟨?_, fun i p slot hp hslot => ?_⟩
  · show (f.refresh tried c).length = c.plugins.length
    rw [Frame.refresh, List.length_zipWith, h.length, Nat.min_self]
  · have hslot : (f.refresh tried c)[i]? = some slot := hslot
    rw [Frame.refresh, List.getElem?_zipWith, hp] at hslot
    cases hold : f.candidates[i]? with
    | none =>
      rw [hold] at hslot
      cases hslot
    | some old =>
      rw [hold] at hslot
      have hpassed := h.passed i p old hp hold
      simp only [Option.some.injEq] at hslot
      by_cases htried : tried p = true
      · rw [if_pos htried] at hslot
        rw [← hslot]
        exact locate_of_lt_candidate (hsigned p (List.mem_of_getElem? hp)) hpassed
      · rw [if_neg htried] at hslot
        rw [← hslot]
        exact hpassed

/-- No plugin that is tried begins before the next offset. -/
theorem Foresees.locate_of_lt_nextOffset (h : f.Foresees c) {tried : Plugin → Bool} {p : Plugin}
    (hp : p ∈ c.plugins) (htried : tried p = true) {k : Nat} (hk : f.offset < k)
    (hlt : k < f.nextOffset tried c) : p.locate (f.data.drop k) = none := by
  obtain ⟨i, hi⟩ := List.mem_iff_getElem?.1 hp
  have hbound : i < f.candidates.length := by
    rw [h.length]
    exact (List.getElem?_eq_some_iff.1 hi).1
  have hslot := List.getElem?_eq_getElem hbound
  have hmem : (p, f.candidates[i]) ∈ c.plugins.zip f.candidates :=
    List.mem_iff_getElem?.2 ⟨i, List.getElem?_zip_eq_some.2 ⟨hi, hslot⟩⟩
  apply h.passed i p f.candidates[i] hi hslot k hk
  -- The next offset is a minimum, so it is not behind the candidate of any plugin that is tried.
  have hstep : ∀ n (e : Plugin × Option Nat),
      (if tried e.1 then min n (e.2.getD n) else n) ≤ n := by
    intro n e
    split
    · exact Nat.min_le_left ..
    · exact Nat.le_refl n
  cases hcandidate : f.candidates[i] with
  | none => exact Nat.lt_of_lt_of_le hlt (foldl_le_init hstep _ _)
  | some known =>
    rw [hcandidate] at hmem
    refine Nat.lt_of_lt_of_le hlt (foldl_le_of_mem hstep hmem (fun n => ?_) _)
    rw [if_pos htried]
    exact Nat.min_le_right ..

theorem nextOffset_le_size (f : Frame) (tried : Plugin → Bool) (c : Catalog) :
    f.nextOffset tried c ≤ f.data.size := by
  refine foldl_le_init (fun n e => ?_) _ _
  split
  · exact Nat.min_le_left ..
  · exact Nat.le_refl n

end Frame

/-! ### Frames in order -/

/-- The number of bytes that the archive at the offset of a frame claims, once it was opened. -/
def Frame.claimed (f : Frame) : Nat :=
  match f.phase with
  | .archives => 0
  | .players claim => claim

theorem Frame.claimed_of_archives {f : Frame} (h : f.phase = .archives) : f.claimed = 0 := by
  rw [claimed, h]

theorem Frame.claimed_of_players {f : Frame} {claim : Nat} (h : f.phase = .players claim) :
    f.claimed = claim := by
  rw [claimed, h]

/-- Whether the knowledge of a frame is right: no plugin begins before its candidate, all claims end
    by the offset, and the claim of an archive that is at the offset ends inside the data. -/
structure Orderly (c : Catalog) (f : Frame) : Prop where
  foresees : f.Foresees c
  archives : f.archiveClaims.EndBy f.data.size (f.offset + f.claimed)
  tunes : f.tuneClaims.EndBy f.data.size f.offset
  fits : f.offset + f.claimed ≤ f.data.size

theorem orderly_start (data : Window) (path : TunePath) (properties : Properties) (depth : Nat)
    (c : Catalog) : Orderly c (.start data path properties depth c) where
  foresees := Frame.foresees_start data path properties depth c
  archives := Claims.endBy_empty data.size 0
  tunes := Claims.endBy_empty data.size 0
  fits := Nat.zero_le _

section

variable {c : Catalog} {f : Frame}

theorem Orderly.offset_le (h : Orderly c f) : f.offset ≤ f.data.size :=
  Nat.le_trans (Nat.le_add_right ..) h.fits

/-- Before archives are tried, all claims end by the offset. -/
theorem Orderly.archives_of_phase (h : Orderly c f) (hphase : f.phase = .archives) :
    f.archiveClaims.EndBy f.data.size f.offset := by
  have harchives := h.archives
  rwa [Frame.claimed_of_archives hphase] at harchives

end

namespace Frame

/-- The archive with the claim in the ledger of the frame, not in a new one. -/
def adoptArchive (f : Frame) (opened : Opened) : Opened :=
  { opened with claims := f.archiveClaims.grant ⟨f.offset, opened.claim⟩ }

/-- The tunes with the claim in the ledger of the frame, not in a new one. -/
def adoptTunes (f : Frame) (found : Found) : Found :=
  { found with claims := f.tuneClaims.grant ⟨f.offset, found.claim⟩ }

variable {f : Frame}

theorem stop_le_size (hle : f.offset ≤ f.data.size) {claim : Nat} (h : claim ≤ f.rest.size) :
    (⟨f.offset, claim⟩ : Region).stop ≤ f.data.size := by
  have hrest : f.rest.size = f.data.size - f.offset := Window.size_drop ..
  show f.offset + claim ≤ f.data.size
  omega

/-- Claims from before do not keep an archive from being opened. -/
theorem open?_eq_map (h : f.archiveClaims.EndBy f.data.size f.offset)
    (hle : f.offset ≤ f.data.size) (settings : Settings) (p : Plugin) :
    f.open? settings p = (f.place.frame.open? settings p).map f.adoptArchive := by
  have hrest : f.place.frame.rest = f.rest := rfl
  unfold open?
  rw [hrest]
  by_cases hcheck : p.check f.rest = true
  · rw [if_pos hcheck, if_pos hcheck]
    cases p.decoder.contents? settings f.rest with
    | none => rfl
    | some contents =>
      have hadd := h.add?_eq_map (r := ⟨f.offset, min contents.consumed f.rest.size⟩)
        (stop_le_size hle (Nat.min_le_right ..)) f.data.size_lt_word
      show ((f.archiveClaims.add? _).bind fun _ => _) = _
      rw [hadd]
      show _ = Option.map _ (((Claims.empty .disjoint f.data.size).add?
        ⟨f.offset, min contents.consumed f.rest.size⟩).bind fun _ => _)
      -- Granted or refused, the ledger that results is all that differs.
      cases (Claims.empty .disjoint f.data.size).add?
        ⟨f.offset, min contents.consumed f.rest.size⟩ <;> rfl
  · rw [if_neg hcheck, if_neg hcheck]
    rfl

/-- Claims from before do not keep tunes from being found. -/
theorem find?_eq_map (h : f.tuneClaims.EndBy f.data.size f.offset)
    (hle : f.offset ≤ f.data.size) (p : Plugin) :
    f.find? p = (f.place.frame.find? p).map f.adoptTunes := by
  have hrest : f.place.frame.rest = f.rest := rfl
  unfold find?
  rw [hrest]
  cases p.locate f.rest with
  | none => rfl
  | some stub =>
    show ((f.rest.tail? stub).bind fun _ => _) = Option.map _ ((f.rest.tail? stub).bind fun _ => _)
    cases f.rest.tail? stub with
    | none => rfl
    | some body =>
      show ((p.decoder.tunes? body).bind fun _ => _)
        = Option.map _ ((p.decoder.tunes? body).bind fun _ => _)
      cases p.decoder.tunes? body with
      | none => rfl
      | some tunes =>
        simp only [Option.bind_some]
        by_cases htracks : tunes.tracks.isEmpty = true
        · rw [if_pos htracks, if_pos htracks]
          rfl
        · rw [if_neg htracks, if_neg htracks]
          have hadd := h.add?_eq_map
            (r := ⟨f.offset, claimedSize stub tunes.consumed f.rest.size⟩)
            (stop_le_size hle (Nat.min_le_right ..)) f.data.size_lt_word
          show ((f.tuneClaims.add? _).bind fun _ => _) = _
          rw [hadd]
          show _ = Option.map _ (((Claims.empty .disjoint f.data.size).add?
            ⟨f.offset, claimedSize stub tunes.consumed f.rest.size⟩).bind fun _ => _)
          cases (Claims.empty .disjoint f.data.size).add?
            ⟨f.offset, claimedSize stub tunes.consumed f.rest.size⟩ <;> rfl

end Frame

namespace Scan

variable {s : Scan} {skips : Plugin → Bool} {f : Frame}

theorem archiveAt_eq_map (h : Orderly s.catalog f) (hphase : f.phase = .archives) :
    s.archiveAt skips f = (s.archiveAt skips f.place.frame).map f.adoptArchive := by
  have hends := h.archives_of_phase hphase
  have hdepth : f.place.frame.depth = f.depth := rfl
  unfold archiveAt
  rw [hdepth]
  by_cases hopens : s.opensAt f.depth = true
  · rw [if_pos hopens, if_pos hopens, List.map_findSome?]
    exact congrArg (List.findSome? · _) (funext (Frame.open?_eq_map hends h.offset_le _))
  · rw [if_neg hopens, if_neg hopens]
    rfl

theorem tunesAt_eq_map (h : Orderly s.catalog f) :
    s.tunesAt skips f = (s.tunesAt skips f.place.frame).map f.adoptTunes := by
  rw [tunesAt, tunesAt, List.map_findSome?]
  exact congrArg (List.findSome? · _) (funext (Frame.find?_eq_map h.tunes h.offset_le))

end Scan

end Chiptune
