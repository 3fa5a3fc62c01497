import Chiptune.Proofs.Inheritance
import Mathlib.Data.List.Forall2

namespace Chiptune

/-!
# Scans below a subpath

The subpath of a location comes before all paths of a scan, and does nothing else.

* `Record.Under` — a tune, and the same tune below a place;
* `Observer.Indifferent` — observers that do not care where tunes are;
* `Scan.step_under`, `Scan.run_under` — with such an observer a scan below a place takes the same
  steps, and finds the same tunes;
* `Detector.detect_subpath` — so a detector asked with a subpath reports the same tunes below it.
-/

variable {σ α : Type}

/-! ### Tunes below a place -/

/-- The names of the properties that hold the path inside the file. -/
def pathNames : List String := [Key.subpath, Key.fullpath]

namespace Properties

variable {names : List String} {p q : Properties}

/-- Whether two sets have the same values for all but some names. -/
def SameBut (names : List String) (p q : Properties) : Prop :=
  ∀ name, name ∉ names → q.get? name = p.get? name

namespace SameBut

theorem overlay (h : SameBut names p q) (inner : Properties) :
    SameBut names (p.overlay inner) (q.overlay inner) := by
  intro name hname
  simp [h name hname]

theorem set (h : SameBut names p q) (other : String) (value : Property) :
    SameBut names (p.set other value) (q.set other value) := by
  intro name hname
  simp [h name hname]

theorem foldl_set (h : SameBut names p q) (changes : List (String × Property)) :
    SameBut names (changes.foldl (fun p e => p.set e.1 e.2) p)
      (changes.foldl (fun p e => p.set e.1 e.2) q) := by
  induction changes generalizing p q with
  | nil => exact h
  | cons e rest ih => exact ih (h.set e.1 e.2)

/-- The new chain depends on nothing but the old one. -/
theorem pushContainer (h : SameBut names p q) (hnames : Key.container ∉ names) (id : String) :
    SameBut names (p.pushContainer id) (q.pushContainer id) := by
  rw [pushContainer_eq, pushContainer_eq, chain_eq_of_get? (h _ hnames)]
  exact h.set _ _

end SameBut

end Properties

/-- Whether `r'` is the tune `r` as it is found below `place`: the path has `place` in front, and no
    properties differ but those that hold the path. -/
structure Record.Under (place : TunePath) (r r' : Record) : Prop where
  path : r'.path = place.join r.path
  plugin : r'.plugin = r.plugin
  tune : r'.tune = r.tune
  properties : r.properties.SameBut pathNames r'.properties

/-- A container as it is below `place`. -/
def Frame.under (place : TunePath) (f : Frame) : Frame := { f with path := place.join f.path }

namespace Frame

@[simp] theorem depth_under (place : TunePath) (f : Frame) : (f.under place).depth = f.depth := rfl

@[simp] theorem phase_under (place : TunePath) (f : Frame) : (f.under place).phase = f.phase := rfl

@[simp] theorem isDone_under (place : TunePath) (f : Frame) :
    (f.under place).isDone = f.isDone := rfl

/-- What begins at an offset does not depend on the path of the container. -/
@[simp] theorem open?_under (place : TunePath) (f : Frame) : (f.under place).open? = f.open? := rfl

@[simp] theorem find?_under (place : TunePath) (f : Frame) : (f.under place).find? = f.find? := rfl

theorem located_under (place : TunePath) (f : Frame) :
    (f.under place).located = place.join f.located := Scan.located_join rfl rfl

theorem start_under (data : Window) (place path : TunePath) (properties : Properties)
    (depth : Nat) (c : Catalog) :
    (start data path properties depth c).under place
      = start data (place.join path) properties depth c := rfl

end Frame

namespace Scan

variable {s : Scan} {place : TunePath}

theorem sameBut_placeProperties (s : Scan) (path path' : TunePath) :
    (s.placeProperties path).SameBut pathNames (s.placeProperties path') := by
  intro name hname
  have hsubpath : name ≠ Key.subpath := fun heq => hname (heq ▸ by decide)
  have hfullpath : name ≠ Key.fullpath := fun heq => hname (heq ▸ by decide)
  simp only [placeProperties_eq, Properties.get?_setNonEmpty_of_ne _ _ hsubpath,
    Properties.get?_setNonEmpty_of_ne _ _ hfullpath]

theorem sameBut_tuneProperties (s : Scan) (place : TunePath) (f : Frame) (found : Found)
    {measured : List (String × Property)} {path path' : TunePath} {track : Track} :
    (s.tuneProperties f found measured path track).SameBut pathNames
      (s.tuneProperties (f.under place) found measured path' track) := by
  have hplace := s.sameBut_placeProperties path path'
  -- Only the place lies at the bottom; all that is laid over it is the same.
  have hmerged := ((hplace.overlay f.properties).overlay found.tunes.properties).overlay
    track.properties
  unfold tuneProperties
  refine Properties.SameBut.foldl_set ?_ measured
  split
  · exact hmerged.pushContainer (by decide) _
  · exact hmerged

/-- The tunes that are found in a container are those that are found in it below a place. -/
theorem records_under (s : Scan) (place : TunePath) (f : Frame) (found : Found) :
    List.Forall₂ (Record.Under place) (s.records f found) (s.records (f.under place) found) := by
  refine List.forall₂_iff_get.2 ⟨?_, fun index hindex hindex' => ?_⟩
  · simp [records]
  · simp only [records, List.get_eq_getElem, List.getElem_mapIdx]
    refine ⟨tunePath_join (f.located_under place) found index, rfl, rfl, ?_⟩
    exact s.sameBut_tuneProperties place f found

/-- The entries of an archive lie below the place of the archive. -/
theorem children_under (htarget : s.target = none) (place : TunePath) (f : Frame)
    (opened : Opened) :
    s.children (f.under place) opened = (s.children f opened).map (Frame.under place) := by
  unfold children
  simp only [mayHold_of_target_eq_none htarget, List.filter_eq_self.2 fun _ _ => rfl, List.map_map,
    entryPath_join (f.located_under place)]
  rfl

theorem advance_under (s : Scan) (skips : Plugin → Bool) (place : TunePath) (f : Frame)
    (claim : Nat) :
    s.advance skips (f.under place) claim = (s.advance skips f claim).under place := by
  unfold advance
  by_cases hclaim : claim = 0
  · rw [if_pos hclaim, if_pos hclaim]
    rfl
  · rw [if_neg hclaim, if_neg hclaim]
    rfl

end Scan

/-! ### Observers that do not care where tunes are -/

/-- Whether an observer reacts to related tunes alike, and to all messages, and skips the same
    plugins, when its states are related. -/
structure Observer.Indifferent (o : Observer σ) (Q : Record → Record → Prop) (R : σ → σ → Prop) :
    Prop where
  skips : ∀ {st st'}, R st st' → o.skips st' = o.skips st
  poll : ∀ {st st'}, R st st' →
    (o.poll st').1 = (o.poll st).1 ∧ R (o.poll st).2 (o.poll st').2
  log : ∀ {st st'} (message message' : String), R st st' →
    R (o.log message st) (o.log message' st')
  offer : ∀ {st st' r r'}, Q r r' → R st st' →
    (o.offer r' st').1 = (o.offer r st).1 ∧ R (o.offer r st).2 (o.offer r' st').2

namespace Observer.Indifferent

variable {o : Observer σ} {Q : Record → Record → Prop} {R : σ → σ → Prop} {st st' : σ}

theorem firstOf (h : o.Indifferent Q R) (attempt : Plugin → Option α) (plugins : List Plugin)
    (hst : R st st') :
    (o.firstOf attempt plugins st').1 = (o.firstOf attempt plugins st).1
      ∧ R (o.firstOf attempt plugins st).2 (o.firstOf attempt plugins st').2 := by
  induction plugins generalizing st st' with
  | nil => exact ⟨rfl, hst⟩
  | cons p rest ih =>
    obtain ⟨hsame, hpolled⟩ := h.poll hst
    simp only [Observer.firstOf, hsame]
    by_cases hstop : (o.poll st).1 = true
    · simp only [hstop, if_true]
      exact ⟨trivial, hpolled⟩
    · simp only [hstop, h.skips hpolled]
      cases if o.skips (o.poll st).2 p then none else attempt p with
      | some result => exact ⟨rfl, hpolled⟩
      | none => exact ih hpolled

/-- Of related tunes as many are taken, up to the same one that is refused. -/
theorem offerEach (h : o.Indifferent Q R) {s : Scan} (htarget : s.target = none) (taken : Nat)
    {records records' : List Record} (hrecords : List.Forall₂ Q records records')
    (hst : R st st') :
    (s.offerEach o taken records' st').1 = (s.offerEach o taken records st).1
      ∧ (s.offerEach o taken records' st').2.1 = (s.offerEach o taken records st).2.1
      ∧ R (s.offerEach o taken records st).2.2 (s.offerEach o taken records' st').2.2 := by
  induction hrecords generalizing taken st st' with
  | nil => exact ⟨rfl, rfl, hst⟩
  | @cons r r' rest rest' hr hrest ih =>
    obtain ⟨hsame, hpolled⟩ := h.poll hst
    obtain ⟨hanswer, hoffered⟩ := h.offer hr hpolled
    simp only [Scan.offerEach, Scan.wants_of_target_eq_none htarget, if_true, hsame]
    by_cases hstop : (o.poll st).1 = true
    · simp only [hstop, if_true]
      exact ⟨trivial, trivial, hpolled⟩
    · simp only [hstop]
      generalize o.offer r (o.poll st).2 = given at hanswer hoffered ⊢
      generalize o.offer r' (o.poll st').2 = given' at hanswer hoffered ⊢
      obtain ⟨answer, next⟩ := given
      obtain ⟨answer', next'⟩ := given'
      obtain rfl : answer' = answer := hanswer
      cases answer' with
      | none => exact ih _ hoffered
      | some reason => exact ⟨rfl, rfl, hoffered⟩

/-- With a list beside the states, related states have related lists. -/
theorem recording (h : o.Indifferent Q R) :
    o.recording.Indifferent Q fun a b => R a.1 b.1 ∧ List.Forall₂ Q a.2 b.2 where
  skips hst := h.skips hst.1
  poll hst := ⟨(h.poll hst.1).1, (h.poll hst.1).2, hst.2⟩
  log message message' hst := ⟨h.log message message' hst.1, hst.2⟩
  offer hr hst := by
    obtain ⟨hanswer, hoffered⟩ := h.offer hr hst.1
    exact ⟨hanswer, hoffered, List.rel_append hst.2 (.cons hr .nil)⟩

end Observer.Indifferent

/-- A collector only counts. -/
theorem Collector.indifferent_observer (Q : Record → Record → Prop) :
    observer.Indifferent Q fun c c' =>
      c'.limit = c.limit ∧ List.Forall₂ Q c.records.toList c'.records.toList where
  skips _ := rfl
  poll := by
    rintro c c' ⟨hlimit, hrecords⟩
    have hsize : c'.records.size = c.records.size := hrecords.length_eq.symm
    have hfull : c'.isFull = c.isFull := by rw [isFull, isFull, hlimit, hsize]
    exact ⟨hfull, hlimit, hrecords⟩
  log _ _ hst := hst
  offer := by
    rintro c c' r r' hr ⟨hlimit, hrecords⟩
    refine ⟨rfl, hlimit, ?_⟩
    simp only [observer, Array.toList_push]
    exact List.rel_append hrecords (.cons hr .nil)

/-! ### Scans below a place -/

section

variable {R : σ → σ → Prop} {place : TunePath}

/-- Two points of a scan, the second with all containers below a place. -/
structure Walk.Under (place : TunePath) (R : σ → σ → Prop) (w w' : Walk σ) : Prop where
  stack : w'.stack = w.stack.map (Frame.under place)
  modules : w'.modules = w.modules
  frames : w'.frames = w.frames
  observer : R w.observer w'.observer

/-- Whether two scans end alike: with the same summary, or when a tune is refused for the same
    reason, in the same container and at the same offset. -/
inductive Scan.SameEnd (s : Scan) (place : TunePath) :
    Except ScanError Summary → Except ScanError Summary → Prop where
  | ok (summary : Summary) : SameEnd s place (.ok summary) (.ok summary)
  | refused (f : Frame) (reason : String) :
      SameEnd s place (.error (s.refusal f reason)) (.error (s.refusal (f.under place) reason))

/-- Two steps of a scan, the second with all containers below a place. -/
inductive Step.Under (s : Scan) (place : TunePath) (R : σ → σ → Prop) :
    Step σ → Step σ → Prop where
  | on {w w' : Walk σ} : w.Under place R w' → Under s place R (.on w) (.on w')
  | last {result result' : Except ScanError Summary} {st st' : σ} :
      s.SameEnd place result result' → R st st' →
      Under s place R (.over result st) (.over result' st')

namespace Scan

variable {s : Scan} {o : Observer σ} {w w' : Walk σ}

theorem archivesStep_under (htarget : s.target = none)
    (ho : o.Indifferent (Record.Under place) R) (hw : w.Under place R w') (f : Frame)
    (below : List Frame) :
    (s.archivesStep o w f below).Under place R
      (s.archivesStep o w' (f.under place) (below.map (Frame.under place))) := by
  obtain ⟨-, hmodules, hframes, hst⟩ := hw
  simp only [archivesStep, Frame.depth_under, Frame.open?_under]
  by_cases hopens : s.opensAt f.depth = true
  · simp only [hopens, if_true]
    -- The same plugins are tried up to the same answer.
    obtain ⟨hsame, hlast⟩ := ho.firstOf (f.open? s.settings) s.catalog.archives
      hst
    generalize o.firstOf _ s.catalog.archives w.observer = tried at hsame hlast ⊢
    generalize o.firstOf _ s.catalog.archives w'.observer = tried' at hsame hlast ⊢
    obtain ⟨opened?, next⟩ := tried
    obtain ⟨opened?', next'⟩ := tried'
    obtain rfl : opened?' = opened? := hsame
    cases opened?' with
    | none => exact ⟨rfl, hmodules, hframes, hlast⟩
    | some opened =>
      simp only [children_under htarget, List.length_map]
      refine ⟨?_, hmodules, by rw [hframes], ho.log _ _ hlast⟩
      rw [List.map_append]
      rfl
  · simp only [hopens]
    exact ⟨rfl, hmodules, hframes, hst⟩

theorem playersStep_under (htarget : s.target = none)
    (ho : o.Indifferent (Record.Under place) R) (hw : w.Under place R w') (f : Frame)
    (below : List Frame) (claim : Nat) :
    (s.playersStep o w f below claim).Under s place R
      (s.playersStep o w' (f.under place) (below.map (Frame.under place)) claim) := by
  obtain ⟨-, hmodules, hframes, hst⟩ := hw
  simp only [playersStep, Frame.find?_under]
  obtain ⟨hsame, hlast⟩ := ho.firstOf f.find? s.catalog.players hst
  generalize o.firstOf _ s.catalog.players w.observer = tried at hsame hlast ⊢
  generalize o.firstOf _ s.catalog.players w'.observer = tried' at hsame hlast ⊢
  obtain ⟨found?, next⟩ := tried
  obtain ⟨found?', next'⟩ := tried'
  obtain rfl : found?' = found? := hsame
  cases found?' with
  | none =>
    refine .on ⟨?_, hmodules, hframes, hlast⟩
    simp only [ho.skips hlast, advance_under, List.map_cons]
  | some found =>
    -- Paths play no part in how many of the tunes are taken.
    have hoffered := ho.offerEach htarget 0 (s.records_under place f found) hlast
    simp only
    generalize s.offerEach o 0 (s.records f found) next = given at hoffered ⊢
    generalize s.offerEach o 0 (s.records (f.under place) found) next' = given' at hoffered ⊢
    obtain ⟨taken, refusal, last⟩ := given
    obtain ⟨taken', refusal', last'⟩ := given'
    obtain ⟨rfl, rfl, hlast⟩ := hoffered
    cases refusal' with
    | none =>
      refine .on ⟨?_, by simp only [hmodules], hframes, hlast⟩
      have hnext := s.advance_under (o.skips last) place { f with tuneClaims := found.claims }
        (max claim found.claim)
      simp only [List.map_cons, ho.skips hlast, ← hnext]
      rfl
    | some reason => exact .last (.refused f reason) hlast

/-- **One step.** Below a place a scan takes the same step, and everything stays below it. -/
theorem step_under (htarget : s.target = none) (ho : o.Indifferent (Record.Under place) R)
    (hw : w.Under place R w') : (s.step o w).Under s place R (s.step o w') := by
  obtain ⟨stack, modules, frames, st⟩ := w
  obtain ⟨stack', modules', frames', st'⟩ := w'
  obtain ⟨hstack, hmodules, hframes, hst⟩ := hw
  simp only at hstack hmodules hframes hst
  subst hstack hmodules hframes
  cases stack with
  | nil => exact .last (.ok _) hst
  | cons f below =>
    obtain ⟨hsame, hpolled⟩ := ho.poll hst
    have hhere : Walk.Under place R ⟨f :: below, modules', frames', (o.poll st).2⟩
        ⟨(f :: below).map (Frame.under place), modules', frames', (o.poll st').2⟩ :=
      ⟨rfl, rfl, rfl, hpolled⟩
    simp only [step, List.map_cons, hsame, Frame.isDone_under, Frame.phase_under]
    by_cases hstop : (o.poll st).1 = true
    · simp only [hstop, if_true]
      exact .last (.ok _) hpolled
    · simp only [hstop]
      by_cases hdone : f.isDone = true
      · simp only [hdone, if_true]
        exact .on ⟨rfl, rfl, rfl, ho.log _ _ hpolled⟩
      · simp only [hdone]
        cases f.phase with
        | archives => exact .on (archivesStep_under htarget ho hhere f below)
        | players claim => exact playersStep_under htarget ho hhere f below claim

/-- **Whole scans.** Below a place a scan ends alike. -/
theorem run_under (htarget : s.target = none) (ho : o.Indifferent (Record.Under place) R)
    (hw : w.Under place R w') :
    s.SameEnd place (s.run o w).1 (s.run o w').1 ∧ R (s.run o w).2 (s.run o w').2 := by
  -- Induction along the run of the one, with the point of the other behind it.
  induction w using Scan.run.induct s o generalizing w' with
  | case1 w result st hstep =>
    have hunder := step_under htarget ho hw
    rw [hstep] at hunder
    generalize hstep' : s.step o w' = step' at hunder
    cases hunder with
    | last hend hst =>
      rw [run_over hstep, run_over hstep']
      exact ⟨hend, hst⟩
  | case2 w next hstep ih =>
    have hunder := step_under htarget ho hw
    rw [hstep] at hunder
    generalize hstep' : s.step o w' = step' at hunder
    cases hunder with
    | on hnext =>
      rw [run_on hstep, run_on hstep']
      exact ih hnext

/-! ### Locations with a subpath -/

/-- The same scan when the location has another path inside. -/
def withSubpath (s : Scan) (subpath : String) : Scan :=
  { s with location := s.location.withSubpath subpath }

theorem offerEach_withSubpath (s : Scan) (subpath : String) (o : Observer σ) (taken : Nat)
    (records : List Record) (st : σ) :
    (s.withSubpath subpath).offerEach o taken records st = s.offerEach o taken records st := by
  induction records generalizing taken st with
  | nil => rfl
  | cons r rest ih =>
    simp only [offerEach, ih]
    rfl

/-- The place of a tune replaces the path inside that the location has. -/
theorem step_withSubpath (s : Scan) (subpath : String) (o : Observer σ) (w : Walk σ) :
    (s.withSubpath subpath).step o w = s.step o w := by
  unfold step playersStep
  simp only [offerEach_withSubpath]
  rfl

theorem run_withSubpath (s : Scan) (subpath : String) (o : Observer σ) (w : Walk σ) :
    (s.withSubpath subpath).run o w = s.run o w := by
  induction w using Scan.run.induct s o with
  | case1 w result st hstep =>
    rw [run_over hstep, run_over ((s.step_withSubpath subpath o w).trans hstep)]
  | case2 w w' hstep ih =>
    rw [run_on hstep, run_on ((s.step_withSubpath subpath o w).trans hstep), ih]

/-- Where no plugin sets a property of the place, it is that of the place. -/
theorem Merges.eq_property? {s : Scan} {c : Chapter} {found : Found} {track : Track}
    {path : TunePath} {p : Properties} (h : s.Merges c found track path p) {name : String}
    (hname : name ∈ pathNames) (hlacks : ∀ layer ∈ c.layersOf found track, layer.get? name = none) :
    p.get? name = (s.location.withSubpath path.render).property? name := by
  have hother : name ∉ [Key.type, Key.size, Key.crc, Key.fixedCrc, Key.container] := by
    simp only [pathNames, List.mem_cons, List.not_mem_nil, or_false] at hname
    rcases hname with rfl | rfl
    · decide
    · decide
  rw [h.others name hother, List.findSome?_eq_none_iff.2 hlacks, Option.none_or]

end Scan

end

/-! ### Detectors -/

namespace Detector

variable {path : String}

theorem detect_of_not_mem (d : Detector) (hpath : '?' ∉ path.toList) (data : Window)
    (o : Observer σ) (st : σ) :
    d.detect path data o st = (d.scan ⟨path, ""⟩).run o
      (.start d.catalog data (.parse d.settings.pathSeparator "") st) := by
  rw [detect_eq_run, Location.parse_of_not_mem hpath]
  rfl

theorem detect_append (d : Detector) (hpath : '?' ∉ path.toList) (subpath : String)
    (data : Window) (o : Observer σ) (st : σ) :
    d.detect (path ++ "?" ++ subpath) data o st = (d.scan ⟨path, subpath⟩).run o
      (.start d.catalog data (.parse d.settings.pathSeparator subpath) st) := by
  rw [detect_eq_run, Location.parse_append hpath]
  rfl

/-- The scan with a subpath is the one without it, but that it starts below the subpath. -/
theorem under_start (place : TunePath) (c : Catalog) (data : Window) {R : σ → σ → Prop} (st : σ)
    (hst : R st st) :
    Walk.Under place R (.start c data (.parse place.separator "") st) (.start c data place st) := by
  have hjoin : place.join (.parse place.separator "") = place :=
    congrArg (TunePath.mk · _) (List.append_nil _)
  refine ⟨?_, rfl, rfl, hst⟩
  simp only [Walk.start, List.map_cons, List.map_nil, Frame.start_under, hjoin]

/-- **A subpath is put in front.** A detector that is asked with a subpath ends alike, and reports
    the same tunes in the same order, with the components of the subpath before their paths. No
    properties differ but those that hold the path, and these are those of the new path where
    neither the plugin of the tune nor one of the archives around it sets them. This holds for
    whoever listens and does not care where tunes are. -/
theorem detect_subpath (d : Detector) {R : σ → σ → Prop} {o : Observer σ}
    (hpath : '?' ∉ path.toList) (subpath : String) (data : Window) (st : σ)
    (ho : o.Indifferent (Record.Under (.parse d.settings.pathSeparator subpath)) R)
    (hst : R st st) :
    let place := TunePath.parse d.settings.pathSeparator subpath
    let alone := d.detect path data o.recording (st, [])
    let below := d.detect (path ++ "?" ++ subpath) data o.recording (st, [])
    (d.scan ⟨path, ""⟩).SameEnd place alone.1 below.1 ∧ R alone.2.1 below.2.1
    ∧ List.Forall₂ (Record.Under place) alone.2.2 below.2.2
    ∧ ∀ r ∈ below.2.2, ∃ w c rest heard found, ∃ (index : Nat) (track : Track),
        (d.scan ⟨path, subpath⟩).ToldTo o data place st w (c :: rest) heard
        ∧ (d.scan ⟨path, subpath⟩).Offers o w c.frame found r
        ∧ found.tunes.tracks[index]? = some track
        ∧ ∀ name ∈ pathNames, (∀ layer ∈ c.layersOf found track, layer.get? name = none) →
            r.properties.get? name = (Location.mk path r.path.render).property? name := by
  intro place alone below
  have hbelow : below = (d.scan ⟨path, subpath⟩).run o.recording
      (.start d.catalog data place (st, [])) := d.detect_append hpath subpath data ..
  -- Both locations have the same file, so both are scans for one location.
  have hplain : below = (d.scan ⟨path, ""⟩).run o.recording
      (.start d.catalog data place (st, [])) :=
    hbelow.trans ((d.scan ⟨path, ""⟩).run_withSubpath subpath ..)
  have halone : alone = (d.scan ⟨path, ""⟩).run o.recording
      (.start d.catalog data (.parse place.separator "") (st, [])) :=
    d.detect_of_not_mem hpath data ..
  obtain ⟨hend, hstate, hrecords⟩ := (d.scan ⟨path, ""⟩).run_under rfl ho.recording
    (under_start place d.catalog data (st, []) ⟨hst, .nil⟩)
  rw [← halone, ← hplain] at hend hstate hrecords
  refine ⟨hend, hstate, hrecords, ?_⟩
  rw [hbelow]
  refine Scan.forall_mem_run (d.scan ⟨path, subpath⟩) o data place st
    fun w c rest heard found htold r hr => ?_
  obtain ⟨index, hindex, rfl⟩ := List.mem_mapIdx.1 hr.mem_records
  have hinherits := Scan.inherits_of_told htold.toTold c List.mem_cons_self
  have hmerges := Scan.merges_tuneProperties hinherits (d.scan ⟨path, subpath⟩) found
    found.tunes.tracks[index] (Scan.tunePath c.frame found index)
  exact ⟨w, c, rest, heard, found, index, found.tunes.tracks[index], htold, hr,
    List.getElem?_eq_getElem hindex, fun name hname hlacks => hmerges.eq_property? hname hlacks⟩

/-- With the plugins of the library, a recording behind three bytes is found with and without a
    subpath. -/
theorem detect_subpath_in_shiftedRecording :
    let d : Detector := ⟨.builtin, {}⟩
    let o := Collector.observer.recording
    let place := TunePath.parse '/' "b//c"
    '?' ∉ "a".toList ∧ ∃ r r',
      (d.detect "a" shiftedRecording o ({}, [])).2.2 = [r]
      ∧ (d.detect ("a" ++ "?" ++ "b//c") shiftedRecording o ({}, [])).2.2 = [r']
      ∧ r.path = ⟨["+3"], '/'⟩ ∧ r'.path = ⟨["b", "c", "+3"], '/'⟩ ∧ Record.Under place r r'
      ∧ r.properties.get? Key.fullpath = some (.text "a?+3")
      ∧ r'.properties.get? Key.fullpath = some (.text "a?b/c/+3") := by
  intro d o place
  have hpath : '?' ∉ "a".toList := by decide
  have hseen : (d.detect "a" shiftedRecording o ({}, [])).2.2.map
      (fun r => (r.path, r.properties.get? Key.fullpath))
        = [(⟨["+3"], '/'⟩, some (.text "a?+3"))] :=
    d.map_detect_of_runWithin (Location.parse_of_not_mem hpath) o
      (fun ending => ending.2.2.map fun r => (r.path, r.properties.get? Key.fullpath)) 12
      (by decide +kernel)
  have hseen' : (d.detect ("a" ++ "?" ++ "b//c") shiftedRecording o ({}, [])).2.2.map
      (fun r => r.properties.get? Key.fullpath) = [some (.text "a?b/c/+3")] :=
    d.map_detect_of_runWithin (Location.parse_append hpath "b//c") o
      (fun ending => ending.2.2.map fun r => r.properties.get? Key.fullpath) 12 (by decide +kernel)
  obtain ⟨r, halone, hvalues⟩ := List.map_eq_singleton_iff.1 hseen
  obtain ⟨r', hbelow, hvalue'⟩ := List.map_eq_singleton_iff.1 hseen'
  obtain ⟨hrpath, hvalue⟩ := Prod.mk.inj hvalues
  obtain ⟨-, -, hrecords, -⟩ := d.detect_subpath hpath "b//c" shiftedRecording {}
    (Collector.indifferent_observer (Record.Under place)) ⟨rfl, .nil⟩
  rw [halone, hbelow, List.forall₂_cons] at hrecords
  have hunder := hrecords.1
  refine ⟨hpath, r, r', halone, hbelow, hrpath, ?_, hunder, hvalue, hvalue'⟩
  rw [hunder.path, hrpath]
  decide

end Detector

end Chiptune
