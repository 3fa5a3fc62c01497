import Chiptune.Proofs.DistinctPaths

namespace Chiptune

/-!
# Doing without some plugins

A plugin can be left out of a scan in three ways: the observer skips it, the catalog does not have
it, or its decoder never decodes anything. The plugins that are left are looked ahead for at
different offsets then, but the same things begin at each offset.

* `Catalog.without`, `Catalog.withDecoders` — the catalogs of the second and the third way;
* `Scan.exhaust_congr` — scans for which the same things begin at each offset find the same;
* `Detector.told_without_plugins` — the three ways come to the same.
-/

/-! ### Catalogs -/

/-- Whether a decoder never decodes anything: it refuses all data, or reads no tunes from it. -/
def Decoder.Barren : Decoder → Prop
  | .archive unpack => ∀ limit w, ∃ fault, unpack limit w = .error fault
  | .player _ read => ∀ w, ∃ fault, read w = .error fault
  | .multitrack _ read =>
    ∀ w, (∃ fault, read w = .error fault) ∨ ∃ tunes, read w = .ok tunes ∧ tunes.tracks = []

namespace Catalog

/-- The catalog without the plugins of the given ids. -/
def without (c : Catalog) (ids : String → Bool) : Catalog where
  plugins := c.plugins.filter fun p => !ids p.id
  nodup := List.filter_sublist.map Plugin.id |>.nodup c.nodup

/-- The plugin with another decoder, if it has one of the given ids. -/
def replace (ids : String → Bool) (decoder : Plugin → Decoder) (p : Plugin) : Plugin :=
  if ids p.id then { p with decoder := decoder p } else p

theorem id_replace (ids : String → Bool) (decoder : Plugin → Decoder) (p : Plugin) :
    (replace ids decoder p).id = p.id := by
  unfold replace
  split <;> rfl

/-- The catalog in which the plugins of the given ids have other decoders. -/
def withDecoders (c : Catalog) (ids : String → Bool) (decoder : Plugin → Decoder) : Catalog where
  plugins := c.plugins.map (replace ids decoder)
  nodup := by
    have hids : (c.plugins.map (replace ids decoder)).map Plugin.id = c.plugins.map Plugin.id := by
      rw [List.map_map]
      exact List.map_congr_left fun p _ => id_replace ids decoder p
    rw [hids]
    exact c.nodup

variable {c : Catalog} {ids : String → Bool} {decoder : Plugin → Decoder}

theorem checksSignature_without (h : ∀ p ∈ c.plugins, p.ChecksSignature) :
    ∀ p ∈ (c.without ids).plugins, p.ChecksSignature :=
  fun p hp => h p (List.mem_filter.1 hp).1

theorem checksSignature_withDecoders (h : ∀ p ∈ c.plugins, p.ChecksSignature) :
    ∀ p ∈ (c.withDecoders ids decoder).plugins, p.ChecksSignature := by
  intro q hq
  obtain ⟨p, hp, rfl⟩ := List.mem_map.1 hq
  unfold replace
  -- The check and the signature stay, whatever the decoder is.
  split
  · exact h p hp
  · exact h p hp

end Catalog

/-! ### What begins at an offset -/

theorem Frame.open?_eq_none_of_barren {p : Plugin} (h : p.decoder.Barren) (f : Frame)
    (settings : Settings) : f.open? settings p = none := by
  have hcontents : p.decoder.contents? settings f.rest = none := by
    cases hdecoder : p.decoder with
    | archive unpack =>
      rw [hdecoder] at h
      obtain ⟨fault, hfault⟩ := h settings f.rest
      show (unpack settings f.rest).toOption = none
      rw [hfault]
      rfl
    | player stubs read => rfl
    | multitrack stubs read => rfl
  unfold Frame.open?
  rw [hcontents]
  split <;> rfl

theorem Frame.find?_eq_none_of_barren {p : Plugin} (h : p.decoder.Barren) (f : Frame) :
    f.find? p = none := by
  cases hfind : f.find? p with
  | none => rfl
  | some found =>
    obtain ⟨-, htunes, htracks, -⟩ := Frame.find?_spec hfind
    cases hdecoder : p.decoder with
    | archive unpack =>
      rw [hdecoder] at htunes
      cases htunes
    | player stubs read =>
      rw [hdecoder] at h htunes
      obtain ⟨fault, hfault⟩ := h found.body
      simp only [Decoder.tunes?, hfault] at htunes
      cases htunes
    | multitrack stubs read =>
      rw [hdecoder] at h htunes
      rcases h found.body with ⟨fault, hfault⟩ | ⟨tunes, hread, hnone⟩
      · simp only [Decoder.tunes?, hfault] at htunes
        cases htunes
      · simp only [Decoder.tunes?, hread] at htunes
        cases htunes
        exact absurd hnone htracks

section

variable {α : Type} {ids : String → Bool} {decoder : Plugin → Decoder}

/-- Plugins that are not in the list are plugins that are passed over. -/
theorem findSome?_without (ids : String → Bool) (keep : Plugin → Bool)
    (attempt : Plugin → Option α) (l : List Plugin) :
    (((l.filter fun p => !ids p.id).filter keep).filter fun _ => true).findSome? attempt
      = ((l.filter keep).filter fun p => !ids p.id).findSome? attempt := by
  rw [List.filter_true, List.filter_filter, List.filter_filter]
  exact congrArg (List.findSome? attempt) (List.filter_congr fun p _ => Bool.and_comm ..)

/-- Plugins with which no attempt succeeds are plugins that are passed over. -/
theorem findSome?_withDecoders (keep : Plugin → Bool) {attempt : Plugin → Option α}
    {l : List Plugin}
    (hbarren : ∀ p ∈ l, ids p.id = true → attempt (Catalog.replace ids decoder p) = none) :
    (((l.map (Catalog.replace ids decoder)).filter keep).filter fun _ => true).findSome? attempt
      = ((l.filter keep).filter fun p => !ids p.id).findSome? attempt := by
  rw [List.filter_true]
  induction l with
  | nil => rfl
  | cons p rest ih =>
    have hrest := ih fun q hq => hbarren q (List.mem_cons_of_mem _ hq)
    rw [List.map_cons]
    by_cases hp : ids p.id = true
    · -- The plugin is found on the left alone, where it does nothing.
      have hnone := hbarren p List.mem_cons_self hp
      have hright : ((p :: rest).filter keep).filter (fun p => !ids p.id)
          = (rest.filter keep).filter fun p => !ids p.id := by
        by_cases hkeep : keep p = true
        · rw [List.filter_cons_of_pos hkeep, List.filter_cons_of_neg (by simp [hp])]
        · rw [List.filter_cons_of_neg hkeep]
      rw [hright, ← hrest]
      by_cases hkeep : keep (Catalog.replace ids decoder p) = true
      · rw [List.filter_cons_of_pos hkeep, List.findSome?_cons, hnone]
      · rw [List.filter_cons_of_neg hkeep]
    · have hsame : Catalog.replace ids decoder p = p := if_neg hp
      rw [hsame]
      by_cases hkeep : keep p = true
      · rw [List.filter_cons_of_pos hkeep, List.filter_cons_of_pos hkeep,
          List.filter_cons_of_pos (by simp [hp]), List.findSome?_cons, List.findSome?_cons, hrest]
      · rw [List.filter_cons_of_neg hkeep, List.filter_cons_of_neg hkeep, hrest]

end

/-! ### Scans that agree at each offset -/

namespace Scan

/-- The scan with another catalog. -/
def withCatalog (s : Scan) (c : Catalog) : Scan := { s with catalog := c }

/-- Whether the same things begin at each offset when the scan has another catalog, and other
    plugins are skipped. -/
structure Agrees (s : Scan) (skips : Plugin → Bool) (c : Catalog) (skips' : Plugin → Bool) :
    Prop where
  archive : ∀ f, (s.withCatalog c).archiveAt skips' f = s.archiveAt skips f
  tunes : ∀ f, (s.withCatalog c).tunesAt skips' f = s.tunesAt skips f

theorem agrees_without (s : Scan) (ids : String → Bool) :
    s.Agrees (fun p => ids p.id) (s.catalog.without ids) fun _ => false where
  archive f := by
    have hplugins := findSome?_without ids (·.decoder.isArchive)
      (f.open? s.settings) s.catalog.plugins
    exact congrArg (fun found => if s.opensAt f.depth then found else none) hplugins
  tunes f := findSome?_without ids (!·.decoder.isArchive) f.find? s.catalog.plugins

theorem agrees_withDecoders {s : Scan} {ids : String → Bool} {decoder : Plugin → Decoder}
    (hbarren : ∀ p ∈ s.catalog.plugins, ids p.id = true → (decoder p).Barren) :
    s.Agrees (fun p => ids p.id) (s.catalog.withDecoders ids decoder) fun _ => false := by
  have hreplaced : ∀ p ∈ s.catalog.plugins, ids p.id = true →
      (Catalog.replace ids decoder p).decoder.Barren := by
    intro p hp hid
    rw [Catalog.replace, if_pos hid]
    exact hbarren p hp hid
  constructor
  · intro f
    have hplugins := findSome?_withDecoders (·.decoder.isArchive)
      fun p hp hid => Frame.open?_eq_none_of_barren (hreplaced p hp hid) f s.settings
    exact congrArg (fun found => if s.opensAt f.depth then found else none) hplugins
  · intro f
    exact findSome?_withDecoders (!·.decoder.isArchive)
      fun p hp hid => Frame.find?_eq_none_of_barren (hreplaced p hp hid) f

variable {s : Scan} {c : Catalog} {skips skips' : Plugin → Bool}

theorem places_children_withCatalog (s : Scan) (c : Catalog) (f : Frame) (opened : Opened) :
    ((s.withCatalog c).children f opened).map Frame.place
      = (s.children f opened).map Frame.place := by
  simp only [children, List.map_map]
  rfl

theorem places_inside_of_agrees (h : s.Agrees skips c skips') (p : Place) :
    ((s.withCatalog c).inside skips' p).map Frame.place
      = (s.inside skips p).map Frame.place := by
  unfold inside
  rw [h.archive]
  cases s.archiveAt skips p.frame with
  | none => rfl
  | some opened => exact s.places_children_withCatalog c p.frame opened

theorem here_of_agrees (h : s.Agrees skips c skips') (p : Place) :
    (s.withCatalog c).here skips' p = s.here skips p := by
  unfold here
  rw [h.tunes]
  rfl

theorem nextPlace_of_agrees (h : s.Agrees skips c skips') (p : Place) :
    (s.withCatalog c).nextPlace skips' p = s.nextPlace skips p := by
  unfold nextPlace archiveClaim tuneClaim
  rw [h.archive, h.tunes]
  rfl

/-- **Agreement.** Scans for which the same things begin at each offset find the same from each
    place on. -/
theorem exhaust_congr (h : s.Agrees skips c skips') (p : Place) :
    (s.withCatalog c).exhaust skips' p = s.exhaust skips p := by
  induction p using Scan.exhaust.induct s skips with
  | case1 p hdone => rw [exhaust_of_size_le hdone, exhaust_of_size_le hdone]
  | case2 p hdone ihinside ihnext =>
    have hlt : p.offset < p.data.size := Nat.lt_of_not_le hdone
    have hplaces := places_inside_of_agrees h p
    have hcount : ((s.withCatalog c).inside skips' p).length = (s.inside skips p).length := by
      simpa using congrArg List.length hplaces
    -- Only the places of the entries count, and these are the same.
    have hinside : (s.withCatalog c).exhaustAll skips' ((s.withCatalog c).inside skips' p)
        = s.exhaustAll skips (s.inside skips p) := by
      have hleft : (s.withCatalog c).exhaustAll skips' ((s.withCatalog c).inside skips' p)
          = .join (((s.inside skips p).map Frame.place).map
              ((s.withCatalog c).exhaust skips')) := by
        rw [← hplaces, List.map_map]
        rfl
      rw [hleft, List.map_map]
      exact congrArg Findings.join (List.map_congr_left fun g hg => ihinside ⟨g, hg⟩)
    rw [exhaust_of_lt_size hlt, exhaust_of_lt_size hlt, hcount, hinside, here_of_agrees h,
      nextPlace_of_agrees h, ihnext]

end Scan

/-! ### Detectors -/

variable {σ : Type}

/-- The observer that skips the plugins of the given ids, and no others. -/
def Observer.skipping (o : Observer σ) (ids : String → Bool) : Observer σ :=
  { o with skips := fun _ p => ids p.id }

namespace Detector

/-- The detector with another catalog. -/
def withCatalog (d : Detector) (c : Catalog) : Detector := { d with catalog := c }

/-- What an observer is told in a scan of some data: the end of the scan, and the records that it
    is offered. -/
def told (d : Detector) (location : String) (data : Window) (o : Observer σ) (st : σ) :
    Except ScanError Summary × List Record :=
  let ending := d.detect location data o.recording (st, [])
  (ending.1, ending.2.2)

/-- What is told of some findings when all of them are taken. -/
def tellAll (found : Findings) : Except ScanError Summary × List Record :=
  (.ok ⟨found.records.length, 1 + found.frames, false⟩, found.records)

/-- An observer that neither stops nor refuses, and always skips the same plugins, is told what a
    visit of all offsets finds. -/
theorem told_eq_tellAll (d : Detector) (hsigned : ∀ p ∈ d.catalog.plugins, p.ChecksSignature)
    (o : Observer σ) {skips : Plugin → Bool} (hskips : ∀ st, o.skips st = skips)
    (hpoll : ∀ st, (o.poll st).1 = false) (hoffer : ∀ record st, (o.offer record st).1 = none)
    (location : String) (data : Window) (st : σ) :
    d.told location data o st = tellAll (d.exhaustive skips location data) := by
  have hrun := (d.scan (.parse location)).run_map (Observer.maps_patient hskips hpoll hoffer)
    ⟨[d.start (.parse location) data], 0, 1, (st, [])⟩
  exact hrun.symm.trans (d.detect_patient hsigned skips location data)

theorem exhaustive_withCatalog {d : Detector} {c : Catalog} {skips skips' : Plugin → Bool}
    (h : ∀ location, (d.scan location).Agrees skips c skips') (location : String)
    (data : Window) :
    (d.withCatalog c).exhaustive skips' location data = d.exhaustive skips location data :=
  Scan.exhaust_congr (h (.parse location)) _

/-- **Doing without plugins.** When the checks of all plugins begin with their signatures, an
    observer that neither stops a scan nor refuses a tune is told the same, the end of the scan with
    its counts and all records in their order, whether it skips the plugins of some ids, or the
    catalog is without them, or they have decoders that never decode anything. -/
theorem told_without_plugins (d : Detector)
    (hsigned : ∀ p ∈ d.catalog.plugins, p.ChecksSignature) (ids : String → Bool)
    (decoder : Plugin → Decoder)
    (hbarren : ∀ p ∈ d.catalog.plugins, ids p.id = true → (decoder p).Barren) (o : Observer σ)
    (hpoll : ∀ st, (o.poll st).1 = false) (hoffer : ∀ record st, (o.offer record st).1 = none)
    (location : String) (data : Window) (st : σ) :
    let skipped := d.told location data (o.skipping ids) st
    let all := o.skipping fun _ => false
    (∃ summary : Summary, skipped.1 = .ok summary)
      ∧ (d.withCatalog (d.catalog.without ids)).told location data all st = skipped
      ∧ (d.withCatalog (d.catalog.withDecoders ids decoder)).told location data all st
        = skipped := by
  intro skipped all
  have hskipped : skipped = tellAll (d.exhaustive (fun p => ids p.id) location data) :=
    d.told_eq_tellAll hsigned (o.skipping ids) (fun _ => rfl) hpoll hoffer location data st
  have hwithout : (d.withCatalog (d.catalog.without ids)).exhaustive (fun _ => false) location data
      = d.exhaustive (fun p => ids p.id) location data :=
    exhaustive_withCatalog (fun location => (d.scan location).agrees_without ids) location data
  have hbroken : (d.withCatalog (d.catalog.withDecoders ids decoder)).exhaustive (fun _ => false)
        location data
      = d.exhaustive (fun p => ids p.id) location data :=
    exhaustive_withCatalog (fun _ => Scan.agrees_withDecoders hbarren) location data
  rw [hskipped]
  refine ⟨⟨_, rfl⟩, ?_, ?_⟩
  · rw [told_eq_tellAll _ (Catalog.checksSignature_without hsigned) all (fun _ => rfl) hpoll hoffer,
      ← hwithout]
  · rw [told_eq_tellAll _ (Catalog.checksSignature_withDecoders hsigned) all (fun _ => rfl) hpoll
      hoffer, ← hbroken]

/-- Without the plugin that unpacks, packed data in which the first bytes of a recording can be read
    is taken for that recording: whether the plugin is skipped, is not in the catalog of the library,
    or refuses all data. -/
theorem told_without_unpacking :
    let ids : String → Bool := fun id => id == "ICE"
    let decoder : Plugin → Decoder := fun _ => .archive fun _ _ => .error .wrongSignature
    let o := (Listener.patient fun _ => false).observer
    let skipped := builtin.told "a" recordedTwice (o.skipping ids) []
    let all := o.skipping fun _ => false
    (∀ p ∈ builtin.catalog.plugins, p.ChecksSignature)
      ∧ (∀ p ∈ builtin.catalog.plugins, ids p.id = true → (decoder p).Barren)
      ∧ (∀ st, (o.poll st).1 = false) ∧ (∀ record st, (o.offer record st).1 = none)
      ∧ skipped.2.map Record.path = [⟨["+14"], '/'⟩]
      ∧ (builtin.withCatalog (builtin.catalog.without ids)).told "a" recordedTwice all []
        = skipped
      ∧ (builtin.withCatalog (builtin.catalog.withDecoders ids decoder)).told "a" recordedTwice
        all [] = skipped := by
  intro ids decoder o skipped all
  have hbarren : ∀ p ∈ builtin.catalog.plugins, ids p.id = true → (decoder p).Barren :=
    fun p _ _ settings w => ⟨.wrongSignature, rfl⟩
  have hpoll : ∀ st, (o.poll st).1 = false := fun _ => rfl
  have hoffer : ∀ record st, (o.offer record st).1 = none := fun _ _ => rfl
  have hsigned := Catalog.checksSignature_builtinWith Lha.openMember
  obtain ⟨-, hwithout, hbroken⟩ := builtin.told_without_plugins hsigned ids
    decoder hbarren o hpoll hoffer "a" recordedTwice []
  have hparse : Location.parse "a" = ⟨"a", ""⟩ := by decide
  have hpaths : skipped.2.map Record.path = [⟨["+14"], '/'⟩] :=
    builtin.map_detect_of_runWithin hparse (o.skipping ids).recording
      (fun ending => ending.2.2.map Record.path) 12 (by decide +kernel)
  exact ⟨hsigned, hbarren, hpoll, hoffer, hpaths, hwithout, hbroken⟩

end Detector

end Chiptune
