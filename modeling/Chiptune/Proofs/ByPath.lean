import Chiptune.Plugin.Builtin
import Chiptune.Proofs.Course
import Chiptune.Proofs.TunePaths

namespace Chiptune

/-!
# Opening a tune by its path

A scan for one tune leaves out every container that the path does not lead through and every tune
with another path.

* `Scan.leadsTo_of_mem_course` — the path of a frame leads to those of the tunes in it;
* `Scan.course_toward` — so what is left out holds nothing that is looked for, and the tunes that
  are left are those of the full scan with the right path;
* `Detector.find?_append_eq_find?_reported` — a detector finds the first of them.
-/

namespace Scan

variable {s : Scan} {skips : Plugin → Bool}

/-! ### Containers and their paths -/

/-- Whether two frames are points in the scan of one container. -/
structure SameContainer (f g : Frame) : Prop where
  data : g.data = f.data
  path : g.path = f.path
  properties : g.properties = f.properties
  depth : g.depth = f.depth

theorem sameContainer_advance (s : Scan) (skips : Plugin → Bool) (f : Frame) (claim : Nat) :
    SameContainer f (s.advance skips f claim) := by
  refine ⟨data_advance .., ?_, ?_, depth_advance ..⟩
  · simp only [advance, lookAhead]
    split <;> rfl
  · simp only [advance, lookAhead]
    split <;> rfl

/-- A property of containers that entries inherit passes on to all tunes inside. -/
theorem forall_mem_course {I : Frame → Prop} {P : Sighting → Prop}
    (hsame : ∀ f g, SameContainer f g → I f → I g)
    (hinside : ∀ f opened, s.archiveAt skips f = some opened → I f → ∀ g ∈ s.children f opened, I g)
    (hhere : ∀ f found, s.tunesAt skips f = some found → I f →
      ∀ e ∈ s.wanted f (s.records f found), P e)
    {f : Frame} (hf : I f) : ∀ e ∈ (s.course skips f).sightings, P e := by
  -- All points of the course are in the same container, but for those in its entries.
  induction f using Scan.course.induct s skips with
  | case1 f hdone => simp [course_of_isDone hdone]
  | case2 f hdone hphase harchive ih =>
    rw [course_of_archiveAt_none hdone hphase harchive]
    exact ih (hsame f _ ⟨rfl, rfl, rfl, rfl⟩ hf)
  | case3 f hdone hphase opened harchive ihinside ihbehind =>
    rw [course_of_archiveAt_some hdone hphase harchive]
    intro e he
    rcases List.mem_append.1 he with he | he
    · obtain ⟨g, hg, heg⟩ : ∃ g ∈ s.children f opened, e ∈ (s.course skips g).sightings := by
        simpa [mem_courseOf] using he
      exact ihinside ⟨g, hg⟩ (hinside f opened harchive hf g hg) e heg
    · exact ihbehind (hsame f _ ⟨rfl, rfl, rfl, rfl⟩ hf) e he
  | case4 f hdone claim hphase htunes ih =>
    rw [course_of_tunesAt_none hdone hphase htunes]
    exact ih (hsame f _ (sameContainer_advance ..) hf)
  | case5 f hdone claim hphase found htunes ih =>
    rw [course_of_tunesAt_some hdone hphase htunes]
    intro e he
    rcases List.mem_append.1 he with he | he
    · exact hhere f found htunes hf e he
    · have hnext := sameContainer_advance s skips { f with tuneClaims := found.claims }
        (max claim found.claim)
      exact ih (hsame f _ ⟨hnext.data, hnext.path, hnext.properties, hnext.depth⟩ hf) e he

theorem leadsTo_located (f : Frame) : f.path.LeadsTo f.located := by
  unfold Frame.located
  split
  · exact .refl _
  · exact f.path.leadsTo_append _

theorem leadsTo_entryPath (f : Frame) (entry : Entry) : f.located.LeadsTo (entryPath f entry) := by
  unfold entryPath
  split
  · exact f.located.leadsTo_append _
  · exact .refl _

theorem leadsTo_tunePath (f : Frame) (found : Found) (index : Nat) :
    f.located.LeadsTo (tunePath f found index) := by
  unfold tunePath
  split
  · exact f.located.leadsTo_append _
  · exact .refl _

theorem leadsTo_of_mem_children {f g : Frame} {opened : Opened} (h : g ∈ s.children f opened) :
    f.located.LeadsTo g.path := by
  obtain ⟨entry, -, rfl⟩ := List.mem_map.1 h
  exact leadsTo_entryPath f entry

theorem leadsTo_of_mem_wanted {f : Frame} {found : Found} {e : Sighting}
    (h : e ∈ s.wanted f (s.records f found)) : f.located.LeadsTo e.record.path := by
  obtain ⟨r, hr, rfl⟩ := List.mem_map.1 h
  obtain ⟨index, hindex, hrecord⟩ := List.mem_mapIdx.1 (List.mem_filter.1 hr).1
  rw [← hrecord]
  exact leadsTo_tunePath f found index

/-- The path of a container leads to the tunes inside. -/
theorem leadsTo_of_mem_course {f : Frame} {e : Sighting} (h : e ∈ (s.course skips f).sightings) :
    f.path.LeadsTo e.record.path :=
  forall_mem_course (I := fun g => f.path.LeadsTo g.path)
    (fun _ _ hsame hg => hsame.path ▸ hg)
    (fun g _ _ hg _ hinside =>
      hg.trans ((leadsTo_located g).trans (leadsTo_of_mem_children hinside)))
    (fun g _ _ hg _ he => hg.trans ((leadsTo_located g).trans (leadsTo_of_mem_wanted he)))
    (.refl _) e h

/-! ### Looking for one path -/

/-- The scan that reports only tunes with the path `target`. -/
def toward (s : Scan) (target : TunePath) : Scan := { s with target := some target }

theorem children_toward (hs : s.target = none) (target : TunePath) (f : Frame) (opened : Opened) :
    (s.toward target).children f opened
      = (s.children f opened).filter fun g => target.startsWith g.path := by
  simp only [children, List.filter_map, List.filter_filter]
  refine congrArg (List.map _) (List.filter_congr fun entry _ => ?_)
  simp [mayHold, toward, hs, Frame.start]

theorem wanted_toward (hs : s.target = none) (target : TunePath) (f : Frame)
    (records : List Record) :
    (s.toward target).wanted f records
      = (s.wanted f records).filter fun e => e.record.path = target := by
  simp only [wanted, List.filter_map, List.filter_filter]
  refine congrArg (List.map _) (List.filter_congr fun r _ => ?_)
  simp [wants, toward, hs, Bool.beq_eq_decide_eq, eq_comm]

theorem sightings_courseOf_eq_filter {s' : Scan} {p : Sighting → Bool} {frames : List Frame}
    (h : ∀ g ∈ frames, (s'.course skips g).sightings = (s.course skips g).sightings.filter p) :
    (s'.courseOf skips frames).sightings = (s.courseOf skips frames).sightings.filter p := by
  induction frames with
  | nil => rfl
  | cons g rest ih =>
    have hrest := ih fun g' hg' => h g' (List.mem_cons_of_mem _ hg')
    simp [h g List.mem_cons_self, hrest]

/-- The containers that the path does not lead through hold no tune with this path. -/
theorem courseOf_filter_startsWith (target : TunePath) (frames : List Frame) :
    ((s.courseOf skips (frames.filter fun g => target.startsWith g.path)).sightings).filter
        (fun e => e.record.path = target)
      = (s.courseOf skips frames).sightings.filter fun e => e.record.path = target := by
  induction frames with
  | nil => rfl
  | cons g rest ih =>
    by_cases hg : target.startsWith g.path = true
    · simp [hg, ih]
    · -- The path of a tune in the container would begin with that of the container.
      have hnone : (s.course skips g).sightings.filter (fun e => e.record.path = target) = [] := by
        refine List.filter_eq_nil_iff.2 fun e he hpath => hg ?_
        rw [← of_decide_eq_true hpath]
        exact (leadsTo_of_mem_course he).startsWith
      simp [hg, ih, hnone]

/-- **The tunes with one path.** A scan for a path reports those tunes of the full scan that have
    this path, in the same order. -/
theorem course_toward (hs : s.target = none) (target : TunePath) (f : Frame) :
    ((s.toward target).course skips f).sightings
      = (s.course skips f).sightings.filter fun e => e.record.path = target := by
  -- Archives are opened and tunes are found as before, so both courses have the same points.
  induction f using Scan.course.induct s skips with
  | case1 f hdone => rw [course_of_isDone hdone, course_of_isDone hdone]; rfl
  | case2 f hdone hphase harchive ih =>
    rw [course_of_archiveAt_none hdone hphase harchive,
      course_of_archiveAt_none (s := s.toward target) hdone hphase harchive, ih]
  | case3 f hdone hphase opened harchive ihinside ihbehind =>
    -- Entries are left out, but they hold no tune with this path.
    have hinside :
        ((s.toward target).courseOf skips ((s.toward target).children f opened)).sightings
        = (s.courseOf skips (s.children f opened)).sightings.filter
            fun e => e.record.path = target := by
      rw [children_toward hs, ← courseOf_filter_startsWith]
      apply sightings_courseOf_eq_filter
      intro g hg
      exact ihinside ⟨g, (List.mem_filter.1 hg).1⟩
    rw [course_of_archiveAt_some hdone hphase harchive,
      course_of_archiveAt_some (s := s.toward target) hdone hphase harchive]
    simp only [Findings.sightings_append, List.filter_append, hinside, ihbehind, List.filter_nil]
  | case4 f hdone claim hphase htunes ih =>
    rw [course_of_tunesAt_none hdone hphase htunes,
      course_of_tunesAt_none (s := s.toward target) hdone hphase htunes, ← ih]
    rfl
  | case5 f hdone claim hphase found htunes ih =>
    rw [course_of_tunesAt_some hdone hphase htunes,
      course_of_tunesAt_some (s := s.toward target) hdone hphase htunes]
    rw [Findings.sightings_append, Findings.sightings_append, List.filter_append, ← ih]
    exact congrArg (· ++ _) (wanted_toward hs target f (s.records f found))

end Scan

/-! ### Locations -/

theorem Location.bne_delimiter_of_not_mem {path : String} (h : '?' ∉ path.toList) :
    ∀ c ∈ path.toList, (c != delimiter) = true := by
  intro c hc
  rw [bne_iff_ne]
  rintro rfl
  exact h hc

theorem Location.parse_of_not_mem {path : String} (h : '?' ∉ path.toList) :
    Location.parse path = ⟨path, ""⟩ := by
  have hall := bne_delimiter_of_not_mem h
  unfold parse
  rw [← List.append_nil path.toList, List.takeWhile_append_of_pos hall,
    List.dropWhile_append_of_pos hall]
  simp

theorem Location.parse_append {path : String} (h : '?' ∉ path.toList) (subpath : String) :
    Location.parse (path ++ "?" ++ subpath) = ⟨path, subpath⟩ := by
  have hall := bne_delimiter_of_not_mem h
  have htext : (path ++ "?" ++ subpath).toList = path.toList ++ '?' :: subpath.toList := by
    simp
  unfold parse
  rw [htext, List.takeWhile_append_of_pos hall, List.dropWhile_append_of_pos hall]
  simp [delimiter]

/-! ### Detectors -/

namespace Detector

variable {path : String}

theorem reported_of_not_mem (d : Detector) (hpath : '?' ∉ path.toList) (data : Window) :
    d.reported path data
      = ((d.scan ⟨path, ""⟩).course (fun _ => false) (d.start ⟨path, ""⟩ data)).records := by
  rw [d.reported_eq_course, Location.parse_of_not_mem hpath]

/-- What is found at a path is the first tune of the full scan with this path. -/
theorem find?_append_eq_find?_reported (d : Detector) (hpath : '?' ∉ path.toList)
    (subpath : String) (data : Window) :
    d.find? (path ++ "?" ++ subpath) data
      = (d.reported path data).find?
          fun r => r.path = TunePath.parse d.settings.pathSeparator subpath := by
  -- The scan for one path ends with the first tune.
  obtain ⟨summary, hrun, -⟩ := Scan.run_start_collector
    ((d.scan ⟨path, ""⟩).toward (.parse d.settings.pathSeparator subpath)) data
    (.parse d.settings.pathSeparator "") (some 1)
  have hfirst : d.find? (path ++ "?" ++ subpath) data
      = ((((d.scan ⟨path, ""⟩).toward (.parse d.settings.pathSeparator subpath)).course
          (fun _ => false) (d.start ⟨path, ""⟩ data)).records.take 1)[0]? := by
    unfold find?
    rw [Location.parse_append hpath]
    refine (congrArg (·.2.records[0]?) hrun).trans ?_
    exact List.getElem?_toArray ..
  rw [hfirst, List.getElem?_take_of_lt (by simp), ← List.head?_eq_getElem?, Findings.records,
    Scan.course_toward rfl, List.head?_map, List.head?_filter, d.reported_of_not_mem hpath,
    Findings.records, List.find?_map]
  rfl

theorem isClean_of_mem_reported (d : Detector) (hpath : '?' ∉ path.toList) {data : Window}
    {r : Record} (h : r ∈ d.reported path data) :
    r.path.IsClean ∧ r.path.separator = d.settings.pathSeparator := by
  rw [d.reported_of_not_mem hpath] at h
  obtain ⟨e, he, rfl⟩ := List.mem_map.1 h
  have hleads := Scan.leadsTo_of_mem_course he
  exact ⟨hleads.isClean (TunePath.isClean_parse _ _), hleads.separator_eq⟩

/-- **Opening is looking up.** A detector asked for a path inside of some data finds the first tune
    with this path among those that it reports of the data, and nothing when it reports none.
    Reporting never fails, and every tune that is reported has a path at which a tune is found. -/
theorem find?_is_first_reported (d : Detector) (hpath : '?' ∉ path.toList) (data : Window) :
    (∃ summary, (d.detect path data Collector.observer {}).1 = .ok summary)
    ∧ (∀ subpath : String,
      d.find? (path ++ "?" ++ subpath) data
        = (d.reported path data).find?
            fun r => r.path = TunePath.parse d.settings.pathSeparator subpath)
    ∧ (∀ subpath : String,
      d.find? (path ++ "?" ++ subpath) data = none
        ↔ ∀ r ∈ d.reported path data, r.path ≠ TunePath.parse d.settings.pathSeparator subpath)
    ∧ ∀ r ∈ d.reported path data,
      ∃ r', d.find? (path ++ "?" ++ r.path.render) data = some r' ∧ r'.path = r.path := by
  refine ⟨?_, fun subpath => d.find?_append_eq_find?_reported hpath subpath data,
    fun subpath => ?_, fun r hr => ?_⟩
  · obtain ⟨summary, hdetect⟩ := d.detect_collector path data
    exact ⟨summary, congrArg Prod.fst hdetect⟩
  · rw [d.find?_append_eq_find?_reported hpath, List.find?_eq_none]
    simp
  · obtain ⟨hclean, hseparator⟩ := d.isClean_of_mem_reported hpath hr
    have hparse : TunePath.parse d.settings.pathSeparator r.path.render = r.path := by
      rw [← hseparator]
      exact TunePath.parse_render hclean
    rw [d.find?_append_eq_find?_reported hpath, hparse]
    have hsome : ((d.reported path data).find? fun r' => r'.path = r.path).isSome = true :=
      List.find?_isSome.2 ⟨r, hr, by simp⟩
    obtain ⟨r', hr'⟩ := Option.isSome_iff_exists.1 hsome
    exact ⟨r', hr', by simpa using List.find?_some hr'⟩

/-- With the plugins of the library, the tune three bytes from the start is found by its path, and
    none is found one byte behind it. -/
theorem find?_in_shiftedRecording :
    let d : Detector := ⟨.builtin, {}⟩
    '?' ∉ "tunes".toList
      ∧ (d.find? ("tunes" ++ "?" ++ "+3") shiftedRecording).map Record.path = some ⟨["+3"], '/'⟩
      ∧ d.find? ("tunes" ++ "?" ++ "+4") shiftedRecording = none := by
  intro d
  have hpath : '?' ∉ "tunes".toList := by decide
  have hpaths : (d.reported "tunes" shiftedRecording).map Record.path = [⟨["+3"], '/'⟩] :=
    d.map_detect_of_runWithin (Location.parse_of_not_mem hpath) Collector.observer
      (fun ending => ending.2.records.toList.map Record.path) 12 (by decide +kernel)
  obtain ⟨r, hr, hrpath⟩ := List.map_eq_singleton_iff.1 hpaths
  obtain ⟨-, hfirst, hnone, -⟩ := d.find?_is_first_reported hpath shiftedRecording
  refine ⟨hpath, ?_, (hnone "+4").2 fun r' hr' => ?_⟩
  · have hparse : TunePath.parse d.settings.pathSeparator "+3" = ⟨["+3"], '/'⟩ := by decide
    rw [hfirst "+3", hr, hparse]
    simp [hrpath]
  · rw [hr, List.mem_singleton] at hr'
    rw [hr', hrpath]
    decide

end Detector

end Chiptune
