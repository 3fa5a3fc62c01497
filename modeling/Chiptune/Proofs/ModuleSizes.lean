import Chiptune.Proofs.Inheritance
import Chiptune.Proofs.PlainScans
import Chiptune.Proofs.Promises

namespace Chiptune

/-!
# Sizes of modules

A plugin can say that a module has any number of bytes that is a 64-bit word. A scan cuts the module
off at the end of the data, and claims the bytes up to its end. This claim is a sum of two words that
is cut off on its own.

* `Scan.Emits` — a step that offers the tunes of a module;
* `Scan.Measures` — what such a step should make of the size of a module;
* `Scan.measures_iff` — behind a stub it does so only for modules that have bytes and whose end is a
  word.
-/

namespace Scan

variable {s : Scan} {skips : Plugin → Bool} {f : Frame} {p : Plugin} {found : Found}

/-! ### The plugin whose turn it is -/

/-- Whether a scan that is at the offset of a frame comes to a player: it is not skipped, and no
    player before it that is not skipped finds tunes there. -/
structure ComesTo (s : Scan) (skips : Plugin → Bool) (f : Frame) (p : Plugin) : Prop where
  players : ∃ before after, s.catalog.players = before ++ p :: after
    ∧ ∀ q ∈ before, skips q = true ∨ f.find? q = none
  not_skipped : skips p = false

theorem ComesTo.tunesAt_eq (h : s.ComesTo skips f p) :
    ∃ after : List Plugin, s.tunesAt skips f = (f.find? p).or (after.findSome? f.find?) := by
  obtain ⟨before, after, hplayers, hbefore⟩ := h.players
  have hnone : (before.filter (!skips ·)).findSome? f.find? = none := by
    refine List.findSome?_eq_none_iff.2 fun q hq => ?_
    obtain ⟨hq, hskips⟩ := List.mem_filter.1 hq
    exact (hbefore q hq).resolve_left (by simpa using hskips)
  refine ⟨after.filter (!skips ·), ?_⟩
  rw [tunesAt, hplayers, List.filter_append, List.findSome?_append, hnone, Option.none_or,
    List.filter_cons_of_pos (by simp [h.not_skipped]), List.findSome?_cons]
  cases f.find? p <;> rfl

/-- A player that the scan comes to has found what the scan finds, if it has found anything. -/
theorem ComesTo.tunesAt_eq_some_iff (h : s.ComesTo skips f p) :
    s.tunesAt skips f = some found ∧ found.plugin = p ↔ f.find? p = some found := by
  obtain ⟨after, htunes⟩ := h.tunesAt_eq
  rw [htunes]
  constructor
  · rintro ⟨hfound, rfl⟩
    rcases Option.or_eq_some_iff.1 hfound with hfind | ⟨hnone, hafter⟩
    · exact hfind
    · -- A later player finds tunes in its own name.
      obtain ⟨q, -, hfind⟩ := List.exists_of_findSome?_eq_some hafter
      obtain ⟨hplugin, -⟩ := Frame.find?_spec hfind
      rw [hplugin, hfind] at hnone
      cases hnone
  · intro hfind
    exact ⟨by rw [hfind, Option.some_or], (Frame.find?_spec hfind).1⟩

/-! ### Steps that offer tunes -/

/-- Whether the next step of a walk, while everything is taken, offers the tunes that were found: as
    far as they are wanted they are reported, and the frame on top moves on with their claim in its
    ledger. -/
structure Emits (s : Scan) (skips : Plugin → Bool) (w : Walk (List Record)) (found : Found) :
    Prop where
  step : ∃ f below claim, w.stack = f :: below ∧ s.tunesAt skips f = some found
    ∧ s.step (Listener.patient skips).observer w = .on {
        stack := s.advance skips { f with tuneClaims := found.claims } (max claim found.claim) ::
          below
        modules := w.modules + (s.sightings f found).records.length
        frames := w.frames
        observer := w.observer ++ (s.sightings f found).records }

theorem emits_iff {w : Walk (List Record)} {below : List Frame} {claim : Nat}
    (hstack : w.stack = f :: below) (hdone : ¬f.isDone = true) (hphase : f.phase = .players claim) :
    s.Emits skips w found ↔ s.tunesAt skips f = some found := by
  constructor
  · rintro ⟨g, _, _, hstack', htunes, -⟩
    obtain ⟨rfl, -⟩ := List.cons.inj (hstack.symm.trans hstack')
    exact htunes
  · intro htunes
    have hattempt : (Listener.patient skips).observer.firstOf f.find? s.catalog.players w.observer
        = (s.tunesAt skips f, w.observer) := Listener.firstOf_observer rfl ..
    have hpoll : (Listener.patient skips).observer.poll w.observer = (false, w.observer) := rfl
    refine ⟨f, below, claim, hstack, htunes, ?_⟩
    simp only [step, hstack, hpoll, Bool.false_eq_true, if_false, if_neg hdone, hphase, playersStep,
      hattempt, htunes, offerEach_patient s skips f, Nat.zero_add, Findings.records, sightings,
      List.length_map]
    rfl

/-- What was measured comes before all else in every record. -/
theorem measured_of_mem_records {r : Record} (h : r ∈ s.records f found) {name : String}
    {value : Property} (hvalue : (name, value) ∈ found.measured) :
    r.properties.get? name = some value := by
  obtain ⟨i, hi, rfl⟩ := List.mem_mapIdx.1 h
  simp only [Found.measured, List.mem_cons, List.not_mem_nil, or_false, Prod.mk.injEq] at hvalue
  rcases hvalue with ⟨rfl, rfl⟩ | ⟨rfl, rfl⟩ | ⟨rfl, rfl⟩ | ⟨rfl, rfl⟩ <;>
    simp [tuneProperties, foldl_measured, Properties.get?_set, Key.type, Key.size, Key.crc,
      Key.fixedCrc]

/-- All records of a module have its size. -/
theorem size_of_mem_records {r : Record} (h : r ∈ s.records f found) :
    r.properties.get? Key.size = some (.ofNat found.module.size) :=
  measured_of_mem_records h (by simp [Found.measured])

/-! ### The size of a module -/

/-- Whether the next step of a walk, with the frame `f` on top, takes a module of `size` bytes behind
    a stub of `stub` bytes for what it is.

    * `emits_iff` — its tunes are offered when it has bytes, and only then;
    * `size_eq` — its size is the one that is given with each tune;
    * `claim_eq` — the bytes up to its end are claimed, all of them inside the data. -/
structure Measures (s : Scan) (skips : Plugin → Bool) (w : Walk (List Record)) (f : Frame)
    (p : Plugin) (stub size : Nat) : Prop where
  emits_iff : (∃ found, found.plugin = p ∧ s.Emits skips w found) ↔ 1 ≤ size
  size_eq : ∀ found, found.plugin = p → s.Emits skips w found →
    ∀ r ∈ s.records f found, r.properties.get? Key.size = some (.ofNat size)
  claim_eq : ∀ found, found.plugin = p → s.Emits skips w found →
    found.claim = stub + size ∧ f.offset + (stub + size) ≤ f.data.size
      ∧ found.claims = f.tuneClaims.grant ⟨f.offset, stub + size⟩

end Scan

/-- A module without a stub can have any size, and one behind a stub has bytes and ends at a
    word. -/
def FitsBehind (stub consumed : Nat) : Prop :=
  stub = 0 ∨ (0 < consumed ∧ stub + consumed < UInt64.size)

section

variable {stub consumed available : Nat}

/-- Where the sum does not wrap, it is cut off at the end of the module. -/
theorem claimedSize_of_lt (hstub : stub < available) (hword : stub + consumed < UInt64.size) :
    claimedSize stub consumed available = stub + min consumed (available - stub) := by
  rw [claimedSize, Nat.mod_eq_of_lt hword]
  omega

/-- Where it wraps, not even the stub is claimed as a whole. -/
theorem claimedSize_lt_of_le (hconsumed : consumed < UInt64.size) (hstub : stub < UInt64.size)
    (hword : UInt64.size ≤ stub + consumed) (hle : stub < available) :
    claimedSize stub consumed available = stub + consumed - UInt64.size
      ∧ stub + consumed - UInt64.size < stub := by
  have hmod : (stub + consumed) % UInt64.size = stub + consumed - UInt64.size := by
    rw [Nat.mod_eq_sub_mod hword, Nat.mod_eq_of_lt (by omega)]
  rw [claimedSize, hmod]
  omega

/-- The bytes up to the end of a module are claimed, with nothing for a module without bytes, when
    and only when it fits behind its stub. -/
theorem claimedSize_iff_fitsBehind (hconsumed : consumed < UInt64.size) (hstub : stub < available)
    (havailable : available < UInt64.size) :
    let size := min consumed (available - stub)
    ((claimedSize stub consumed available = 0 ↔ size = 0)
      ∧ (size ≠ 0 → claimedSize stub consumed available = stub + size))
    ↔ FitsBehind stub consumed := by
  intro size
  by_cases hword : stub + consumed < UInt64.size
  · rw [claimedSize_of_lt hstub hword]
    unfold FitsBehind
    omega
  · obtain ⟨hclaim, hlt⟩ := claimedSize_lt_of_le hconsumed (by omega) (by omega) hstub
    rw [hclaim]
    unfold FitsBehind
    omega

end

namespace Scan

variable {s : Scan} {skips : Plugin → Bool} {f : Frame} {p : Plugin} {stub : Nat}
  {tunes : TuneSet} {w : Walk (List Record)} {below : List Frame} {claim : Nat}

/-- Whether the next step of a walk comes to a player that reads tunes at the offset of the frame on
    top, behind a stub of `stub` bytes. -/
structure ReadsNext (s : Scan) (skips : Plugin → Bool) (w : Walk (List Record)) (f : Frame)
    (p : Plugin) (stub : Nat) (tunes : TuneSet) : Prop where
  stack : ∃ below, w.stack = f :: below
  not_isDone : ¬f.isDone = true
  phase : ∃ claim, f.phase = .players claim
  comesTo : s.ComesTo skips f p
  reads : f.Reads p stub tunes

namespace ReadsNext

theorem stub_lt (h : s.ReadsNext skips w f p stub tunes) : stub < f.rest.size :=
  h.reads.stub_lt (f.lt_of_not_isDone h.not_isDone)

/-- The tunes are offered when something is claimed for them, and only then. -/
theorem emits_iff (h : s.ReadsNext skips w f p stub tunes)
    (hclaims : f.tuneClaims.EndBy f.data.size f.offset) {found : Found} :
    found.plugin = p ∧ s.Emits skips w found
      ↔ claimedSize stub tunes.consumed f.rest.size ≠ 0 ∧ found = f.granted p stub tunes := by
  obtain ⟨_, hstack⟩ := h.stack
  obtain ⟨_, hphase⟩ := h.phase
  rw [Scan.emits_iff hstack h.not_isDone hphase, and_comm, h.comesTo.tunesAt_eq_some_iff,
    h.reads.find?_eq hclaims (f.lt_of_not_isDone h.not_isDone)]
  split
  · rename_i hclaim
    simp [hclaim]
  · rename_i hclaim
    simp [hclaim, eq_comm]

theorem exists_emits_iff (h : s.ReadsNext skips w f p stub tunes)
    (hclaims : f.tuneClaims.EndBy f.data.size f.offset) :
    (∃ found, found.plugin = p ∧ s.Emits skips w found)
      ↔ claimedSize stub tunes.consumed f.rest.size ≠ 0 := by
  simp only [h.emits_iff hclaims, exists_eq_right]

/-- A step measures a module as it should when the claim, which is computed on its own, ends with the
    module. -/
theorem measures_iff_claimedSize (h : s.ReadsNext skips w f p stub tunes)
    (hclaims : f.tuneClaims.EndBy f.data.size f.offset) {size : Nat}
    (hsize : min tunes.consumed (f.rest.drop stub).size = size) :
    s.Measures skips w f p stub size
      ↔ (claimedSize stub tunes.consumed f.rest.size = 0 ↔ size = 0)
        ∧ (size ≠ 0 → claimedSize stub tunes.consumed f.rest.size = stub + size) := by
  have hexists := h.exists_emits_iff hclaims
  constructor
  · intro hmeasures
    have hemits := hexists.symm.trans hmeasures.emits_iff
    refine ⟨by omega, fun hne => ?_⟩
    -- A module that has bytes is offered, so its claim is that of the step.
    obtain ⟨found, hplugin, hfound⟩ := hmeasures.emits_iff.2 (Nat.one_le_iff_ne_zero.2 hne)
    obtain ⟨hclaim, -⟩ := hmeasures.claim_eq found hplugin hfound
    obtain ⟨-, rfl⟩ := (h.emits_iff hclaims).1 ⟨hplugin, hfound⟩
    exact hclaim
  · rintro ⟨hzero, hclaim⟩
    refine ⟨by rw [hexists]; omega, fun found hplugin hfound => ?_, fun found hplugin hfound => ?_⟩
    · obtain ⟨-, rfl⟩ := (h.emits_iff hclaims).1 ⟨hplugin, hfound⟩
      exact fun r hr => hsize ▸ size_of_mem_records hr
    · obtain ⟨hne, rfl⟩ := (h.emits_iff hclaims).1 ⟨hplugin, hfound⟩
      have hclaim := hclaim (mt hzero.2 hne)
      have hfits : claimedSize stub tunes.consumed f.rest.size ≤ f.rest.size := Nat.min_le_right ..
      have hrest : f.rest.size = f.data.size - f.offset := Window.size_drop ..
      have hlt := f.lt_of_not_isDone h.not_isDone
      refine ⟨hclaim, by omega, ?_⟩
      show f.tuneClaims.grant ⟨f.offset, claimedSize stub tunes.consumed f.rest.size⟩ = _
      rw [hclaim]

end ReadsNext

/-- **What a scan makes of the size of a module.** At every point of a scan, when it comes to a
    player that reads tunes at the offset where it is, whatever number of bytes the player says that
    their module has:

    * the module is offered when it has bytes and only then, cut off at the end of the data, and
      claimed up to its end, if it fits behind its stub; and this is the only condition;
    * a module without bytes behind a stub is offered, and its stub is claimed;
    * of a module whose end is no word the claim does not even reach to the end of the stub, and if
      it would end at `2 ^ 64` it is not offered. -/
theorem measures_iff {data : Window} {root : TunePath} {told : List Chapter} {heard : List Sighting}
    (htold : s.Told data root told heard) (hstack : w.stack = told.map Chapter.frame)
    (h : s.ReadsNext skips w f p stub tunes) :
    (s.Measures skips w f p stub (min tunes.consumed (f.rest.drop stub).size)
      ↔ FitsBehind stub tunes.consumed)
    ∧ (0 < stub → tunes.consumed = 0 → ∃ found, found.plugin = p ∧ s.Emits skips w found
        ∧ found.claim = stub
        ∧ ∀ r ∈ s.records f found, r.properties.get? Key.size = some (.ofNat 0))
    ∧ (UInt64.size ≤ stub + tunes.consumed →
        ((∃ found, found.plugin = p ∧ s.Emits skips w found)
          ↔ UInt64.size < stub + tunes.consumed)
        ∧ ∀ found, found.plugin = p → s.Emits skips w found →
          found.claim = stub + tunes.consumed - UInt64.size ∧ found.claim < stub) := by
  -- The frame on top has been told, so all claims in it lie behind.
  obtain ⟨below, hbelow⟩ := h.stack
  obtain ⟨c, hc, rfl⟩ : ∃ c ∈ told, c.frame = f :=
    List.mem_map.1 (hstack ▸ hbelow ▸ List.mem_cons_self)
  have hclaims := (inTurn_of_told htold c hc).tunes.endBy
  have hstub := h.stub_lt
  have hword := h.reads.word
  have havailable := c.frame.rest.size_lt_word
  refine ⟨?_, fun hpos hzero => ?_, fun hle => ?_⟩
  · rw [h.measures_iff_claimedSize hclaims rfl, Window.size_drop]
    exact claimedSize_iff_fitsBehind hword hstub havailable
  · have hclaim : claimedSize stub tunes.consumed c.frame.rest.size = stub := by
      rw [claimedSize_of_lt hstub (by omega), hzero, Nat.zero_min, Nat.add_zero]
    obtain ⟨hplugin, hemits⟩ := (h.emits_iff hclaims).2 ⟨by omega, rfl⟩
    refine ⟨_, hplugin, hemits, hclaim, fun r hr => ?_⟩
    rw [size_of_mem_records hr]
    show some (Property.ofNat (min tunes.consumed _)) = _
    rw [hzero, Nat.zero_min]
  · obtain ⟨hclaim, hlt⟩ := claimedSize_lt_of_le hword (by omega) hle hstub
    refine ⟨by rw [h.exists_emits_iff hclaims]; omega, fun found hplugin hfound => ?_⟩
    obtain ⟨-, rfl⟩ := (h.emits_iff hclaims).1 ⟨hplugin, hfound⟩
    exact ⟨hclaim, hclaim.trans_lt hlt⟩

end Scan

/-! ### A player with a stub -/

namespace Stubbed

/-- A signature that is a single byte. -/
def byteSignature (b : UInt8) : Signature := .ofPattern ⟨[.exact b], List.cons_ne_nil _ _⟩ 0

/-- A player for modules that begin with the byte 1, which may stand behind a stub that is the byte
    2. It says of each module that it has `consumed` bytes. -/
def plugin (consumed : Nat) : Plugin where
  id := "P"
  description := "modules of a given size"
  features := .none
  signature := byteSignature 1
  decoder := .player [byteSignature 2] fun w =>
    .ok ⟨⟨{ format := "P" }, w, none⟩, consumed, (0, 0), ∅⟩

/-- A scan with this player alone. -/
def scan (consumed : Nat) : Scan :=
  ⟨⟨[plugin consumed], List.nodup_singleton _⟩, {}, ⟨"a", ""⟩, none⟩

/-- A stub and the first byte of a module. -/
def data : Window := .ofByteArray ⟨#[2, 1]⟩

/-- The frame of the data when no archive was found at its start. -/
def frame (consumed : Nat) : Frame :=
  { Frame.start data (.empty '/') ∅ 0 (scan consumed).catalog with phase := .players 0 }

/-- The tunes that are read behind the stub. -/
def tunes (consumed : Nat) : TuneSet :=
  ⟨consumed, (0, 0), ∅, [⟨⟨{ format := "P" }, data.drop 1, none⟩, ∅⟩]⟩

theorem locate_data (consumed : Nat) : (plugin consumed).locate data = some 1 :=
  show (plugin 0).locate data = some 1 by decide +kernel

theorem told_frame (consumed : Nat) :
    (scan consumed).Told data (.empty '/') [{ frame := frame consumed }] [] :=
  Scan.Told.start.next (.keep (show ¬Frame.isDone (.start data (.empty '/') ∅ 0 .empty) = true by
    decide) rfl)

theorem readsNext_frame (consumed : Nat) (h : consumed < UInt64.size) :
    (scan consumed).ReadsNext (fun _ => false) ⟨[frame consumed], 0, 1, []⟩ (frame consumed)
      (plugin consumed) 1 (tunes consumed) where
  stack := ⟨[], rfl⟩
  not_isDone := show ¬Frame.isDone (.start data (.empty '/') ∅ 0 .empty) = true by decide
  phase := ⟨0, rfl⟩
  comesTo := ⟨⟨[], [], rfl, List.forall_mem_nil _⟩, rfl⟩
  reads := ⟨locate_data consumed, rfl, List.cons_ne_nil _ _, h⟩

/-- A module of one byte behind the stub is measured as it should be. -/
theorem measures_oneByte :
    (scan 1).Told data (.empty '/') [{ frame := frame 1 }] []
      ∧ (scan 1).ReadsNext (fun _ => false) ⟨[frame 1], 0, 1, []⟩ (frame 1) (plugin 1) 1 (tunes 1)
      ∧ (scan 1).Measures (fun _ => false) ⟨[frame 1], 0, 1, []⟩ (frame 1) (plugin 1) 1 1 := by
  have hreads := readsNext_frame 1 (by decide)
  obtain ⟨hmeasures, -⟩ := Scan.measures_iff (told_frame 1) rfl hreads
  exact ⟨told_frame 1, hreads, hmeasures.2 (.inr ⟨by decide, by decide⟩)⟩

/-- A module without bytes is reported with the size 0, so not every module is measured as it should
    be. -/
theorem not_measures_empty :
    ((scan 0).run (Listener.patient fun _ => false).observer
        (.start (scan 0).catalog data (.empty '/') [])).2.map (·.properties.get? Key.size)
      = [some (.ofNat 0)]
    ∧ ¬∀ (s : Scan) (skips : Plugin → Bool) (w : Walk (List Record)) (data : Window)
        (root : TunePath) (told : List Chapter) (heard : List Sighting) (f : Frame) (p : Plugin)
        (stub : Nat) (tunes : TuneSet), s.Told data root told heard →
        w.stack = told.map Chapter.frame → s.ReadsNext skips w f p stub tunes →
        s.Measures skips w f p stub (min tunes.consumed (f.rest.drop stub).size) := by
  constructor
  · refine (scan 0).map_run_of_runWithin (Listener.patient fun _ => false).observer
      (fun ending => ending.2.map (·.properties.get? Key.size)) 8 ?_
    decide +kernel
  · intro hall
    have hreads := readsNext_frame 0 (by decide)
    have hclaims := (Scan.inTurn_of_told (told_frame 0) _ List.mem_cons_self).tunes.endBy
    have hmeasures := hall _ _ _ _ _ _ _ _ _ _ _ (told_frame 0) rfl hreads
    -- The stub is claimed, so the module is offered, but it has no bytes.
    have hemits := (hreads.exists_emits_iff hclaims).2 (by decide)
    exact absurd (hmeasures.emits_iff.1 hemits) (by decide)

end Stubbed

end Chiptune
