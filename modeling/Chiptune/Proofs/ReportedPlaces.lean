import Chiptune.CommandLine.Run
import Chiptune.Proofs.Locations
import Chiptune.Proofs.Subpaths

namespace Chiptune

/-!
# The places that reports name

A report names a tune by its file and the path inside. The properties of the tune name it by a
location, for which a scan reads the name of the file. The two agree where this name has no mark.

* `Scan.property?_of_mem_course` — what the properties of a tune say of its place is what its
  location does;
* `CommandLine.under_recordsOf` — a mark in the name puts what is behind it before all paths;
* `Report.Placed` — what a report says of the place of a tune, and what the properties in it say;
* `CommandLine.run_placed` — so all reports of a command line are placed.
-/

/-! ### Paths below a place -/

namespace TunePath

variable {p q : TunePath}

theorem length_render_le_join (p q : TunePath) :
    q.render.length ≤ (p.join q).render.length := by
  obtain ⟨components, separator⟩ := p
  unfold join render
  induction components with
  | nil => exact Nat.le_refl _
  | cons first rest ih =>
    by_cases hrest : rest ++ q.components = []
    · rw [(List.append_eq_nil_iff.1 hrest).2]
      exact Nat.zero_le _
    · simp only [List.cons_append, String.intercalate_cons_of_ne_nil hrest, String.length_append]
      simp only at ih
      omega

/-- A place is seen in the text of a path, unless it has no components. -/
theorem render_join_eq_iff (hp : p.IsClean) :
    (p.join q).render = q.render ↔ p.isEmpty = true := by
  obtain ⟨components, separator⟩ := p
  cases components with
  | nil => exact ⟨fun _ => rfl, fun _ => rfl⟩
  | cons first rest =>
    have hfirst : first ≠ "" := (hp first List.mem_cons_self).1
    refine ⟨fun h => ?_, fun h => by cases h⟩
    by_cases hrest : rest ++ q.components = []
    · -- The place is one component, and the path is empty.
      obtain ⟨rfl, hq⟩ := List.append_eq_nil_iff.1 hrest
      unfold join render at h
      rw [hq] at h
      exact absurd ((String.intercalate_singleton ..).symm.trans h) hfirst
    · have hle := length_render_le_join ⟨rest, separator⟩ q
      have hlength := congrArg String.length h
      unfold join render at hle hlength
      simp only [List.cons_append, String.intercalate_cons_of_ne_nil hrest, String.length_append,
        String.length_singleton] at hlength
      simp only at hle
      omega

end TunePath

/-! ### What properties say of a place -/

/-- The names of the properties that a location gives. -/
def Location.names : List String :=
  [Key.path, Key.filename, Key.extension, Key.subpath, Key.fullpath]

namespace Scan

variable {s : Scan} {skips : Plugin → Bool} {f : Frame}

theorem get?_tuneProperties {found : Found} {track : Track} {name : String}
    (hname : name ∈ Location.names) (hf : f.properties.get? name = none)
    (hmodule : found.tunes.properties.get? name = none) (htrack : track.properties.get? name = none)
    (s : Scan) (path : TunePath) :
    (s.tuneProperties f found found.measured path track).get? name
      = (s.location.withSubpath path.render).property? name := by
  have hothers : ∀ name ∈ Location.names,
      name ∉ [Key.type, Key.size, Key.crc, Key.fixedCrc] ∧ name ≠ Key.container := by decide
  obtain ⟨hmeasured, hcontainer⟩ := hothers name hname
  have hmerged : ((((s.placeProperties path).overlay f.properties).overlay
      found.tunes.properties).overlay track.properties).get? name
        = (s.location.withSubpath path.render).property? name := by
    rw [Properties.get?_overlay, Properties.get?_overlay, Properties.get?_overlay, htrack, hmodule,
      hf, Option.none_or, Option.none_or, Option.none_or, get?_placeProperties]
  unfold tuneProperties
  rw [get?_foldl_measured_of_not_mem _ _ hmeasured, ← hmerged]
  split
  · exact Properties.get?_pushContainer_of_ne _ _ hcontainer
  · rfl

/-- The plugins of the library do not say where a tune is, and neither do the archives that they
    open. -/
theorem property?_of_mem_course {reader : Lha.MemberReader}
    (hcatalog : s.catalog.plugins.Perm (Catalog.builtinWith reader).plugins)
    (hf : f.properties.Lacks Location.names) :
    ∀ e ∈ (s.course skips f).sightings, ∀ name ∈ Location.names,
      e.record.properties.get? name
        = (s.location.withSubpath e.record.path.render).property? name := by
  have hunplaced := (Catalog.unplaced_builtinWith reader).of_perm hcatalog
  refine forall_mem_course (I := fun g => g.properties.Lacks Location.names) ?_ ?_ ?_ hf
  · intro g g' hsame hg
    exact hsame.properties ▸ hg
  · intro g opened harchive hg g' hg'
    exact lacks_of_mem_children (by decide) hg (opened_unplaced hunplaced harchive).2 hg'
  · intro g found htunes hg e he name hname
    -- The tunes were read by a plugin of the library.
    obtain ⟨p, hp, hfind⟩ := find?_of_tunesAt htunes
    have hread := (Frame.find?_spec hfind).2.1
    have hplugin := hcatalog.mem_iff.1 (List.mem_filter.1 hp).1
    have hlacks : found.tunes.Lacks Location.names :=
      Catalog.lacks_of_mem_pluginsWith (by decide) hplugin hread
    obtain ⟨hmodule, htracks⟩ := hlacks
    obtain ⟨r, hr, rfl⟩ := List.mem_map.1 he
    obtain ⟨index, hindex, rfl⟩ := List.mem_mapIdx.1 (List.mem_filter.1 hr).1
    exact get?_tuneProperties hname (hg name hname) (hmodule name hname)
      (htracks _ (List.getElem_mem hindex) name hname) s _

end Scan

/-! ### The tunes of a file -/

namespace CommandLine

/-- The tunes that a scan reports of some bytes to the command line, under a name. -/
def recordsOf (d : Detector) (skip : List String) (name : String) (bytes : ByteArray) :
    List Record :=
  (d.detect name (.ofByteArray bytes) (observer skip) {}).2.records.toList

theorem scanFile_eq_map (d : Detector) (skip : List String) (file : String) (bytes : ByteArray) :
    scanFile d skip file bytes = (recordsOf d skip file bytes).map (Report.ofRecord file) := rfl

/-- The command line listens to all that a scan reports. -/
theorem maps_observer (skip : List String) :
    Observer.Maps (fun heard => (⟨heard.toArray, none⟩ : Collector))
      (Listener.patient ((observer skip).skips {})).observer (observer skip) where
  skips _ := rfl
  poll _ := rfl
  log _ _ := rfl
  offer record heard := by
    simp only [observer, Collector.observer, Listener.observer, Listener.patient, List.push_toArray]

theorem recordsOf_eq_course (d : Detector) (skip : List String) (name : String)
    (bytes : ByteArray) :
    recordsOf d skip name bytes = ((d.scan (.parse name)).course ((observer skip).skips {})
      (d.start (.parse name) (.ofByteArray bytes))).records := by
  have hmap := (d.scan (.parse name)).run_map (maps_observer skip)
    (.start d.catalog (.ofByteArray bytes)
      (.parse d.settings.pathSeparator (Location.parse name).subpath) [])
  have hrun := Scan.run_start_listener (.patient ((observer skip).skips {})) (d.scan (.parse name))
    (.ofByteArray bytes) (.parse d.settings.pathSeparator (Location.parse name).subpath)
  rw [Listener.receive_patient] at hrun
  obtain ⟨summary, hsummary, -⟩ := hrun
  rw [show (d.scan (.parse name)).catalog = d.catalog from rfl] at hsummary
  rw [hsummary] at hmap
  exact congrArg (·.2.records.toList) hmap

/-- It only counts. -/
theorem indifferent_observer (skip : List String) (Q : Record → Record → Prop) :
    (observer skip).Indifferent Q fun c c' =>
      c'.limit = c.limit ∧ List.Forall₂ Q c.records.toList c'.records.toList where
  skips _ := rfl
  poll := (Collector.indifferent_observer Q).poll
  log := (Collector.indifferent_observer Q).log
  offer := (Collector.indifferent_observer Q).offer

/-- A mark in the name of a file puts what is behind it before the paths of all tunes. -/
theorem under_recordsOf (d : Detector) (skip : List String) (file : String) (bytes : ByteArray) :
    List.Forall₂
      (Record.Under (.parse d.settings.pathSeparator (Location.parse file).subpath))
      (recordsOf d skip (Location.parse file).path bytes) (recordsOf d skip file bytes) := by
  let l := Location.parse file
  let place := TunePath.parse d.settings.pathSeparator l.subpath
  -- Whatever the path inside of the location, it does not change the scan itself.
  let s := d.scan ⟨l.path, ""⟩
  have halone : recordsOf d skip l.path bytes = (s.run (observer skip)
      (.start d.catalog (.ofByteArray bytes) (.parse place.separator "") {})).2.records.toList := by
    unfold recordsOf
    rw [d.detect_of_not_mem (Location.not_mem_path_parse file)]
    rfl
  have hbelow : recordsOf d skip file bytes = (s.run (observer skip)
      (.start d.catalog (.ofByteArray bytes) place {})).2.records.toList := by
    rw [← s.run_withSubpath l.subpath]
    rfl
  obtain ⟨-, -, hrecords⟩ := s.run_under rfl (indifferent_observer skip (Record.Under place))
    (Detector.under_start place d.catalog (.ofByteArray bytes) {} ⟨rfl, .nil⟩)
  rw [halone, hbelow]
  exact hrecords

theorem property?_of_mem_recordsOf {reader : Lha.MemberReader} {d : Detector}
    (hcatalog : d.catalog.plugins.Perm (Catalog.builtinWith reader).plugins) {skip : List String}
    {name : String} {bytes : ByteArray} {r : Record} (h : r ∈ recordsOf d skip name bytes) :
    ∀ key ∈ Location.names, r.properties.get? key
      = ((Location.parse name).withSubpath r.path.render).property? key := by
  rw [recordsOf_eq_course] at h
  obtain ⟨e, he, rfl⟩ := List.mem_map.1 h
  exact Scan.property?_of_mem_course (s := d.scan (.parse name)) hcatalog
    (Properties.lacks_empty _) e he

end CommandLine

/-! ### What a report says of a place -/

namespace Report

variable {r : Report}

theorem location_eq_full (r : Report) : r.location = (Location.mk r.file r.subpath).full := by
  unfold location
  split
  · rename_i hempty
    rw [show r.subpath = "" by simpa using hempty, Location.full_of_empty]
  · rename_i hnot
    rw [Location.full_of_ne (by simpa using hnot)]

/-- The line of a report begins with its location. -/
theorem exists_textLine_eq (r : Report) : ∃ rest, r.textLine = r.location ++ "\t" ++ rest := by
  unfold textLine
  rw [String.intercalate_cons_cons, String.append_assoc]
  exact ⟨_, rfl⟩

/-- A text that a location gives is read from the properties, and so is an empty one, which they
    leave out. -/
theorem text_eq_of_property? {l : Location} {name text : String}
    (h : r.properties.get? name = l.property? name) (htext : l.texts.lookup name = some text) :
    r.text name = text := by
  unfold Report.text Properties.text?
  rw [h, Location.property?, htext]
  by_cases hempty : text = ""
  · rw [hempty]
    rfl
  · simp [hempty, Option.filter, Property.text?]

/-- What the report of a tune in a file says of its place.

    * `line`, `column` — the line of the report begins with its location, and the table has the path
      inside;
    * `subpath_eq` — this path has in front what is behind a mark in the name of the file;
    * `properties` — the properties of the place are those of the location that is read from the
      name;
    * `fullpath_iff`, `path_iff` — so they are the location and the file of the report where there
      is no mark, and only there;
    * `subpath_iff` — the path inside is that of the tune where no component is behind a mark. -/
structure Placed (separator : Char) (file : String) (tune : Record) (r : Report) : Prop where
  file_eq : r.file = file
  plugin_eq : r.plugin = tune.plugin
  line : ∃ rest, r.textLine = r.location ++ "\t" ++ rest
  column : (columns.zip r.csvRow).lookup "subpath" = some r.subpath
  subpath_eq : r.subpath
    = ((TunePath.parse separator (Location.parse file).subpath).join tune.path).render
  properties : ∀ name ∈ Location.names,
    r.properties.get? name = ((Location.parse file).withSubpath r.subpath).property? name
  fullpath_iff : r.text Key.fullpath = r.location ↔ '?' ∉ file.toList
  path_iff : r.text Key.path = r.file ↔ '?' ∉ file.toList
  subpath_iff : r.subpath = tune.path.render
    ↔ (TunePath.parse separator (Location.parse file).subpath).isEmpty = true

theorem placed_of_under {separator : Char} {file : String} {tune record : Record}
    (hunder : Record.Under (.parse separator (Location.parse file).subpath) tune record)
    (hproperties : ∀ name ∈ Location.names, record.properties.get? name
      = ((Location.parse file).withSubpath record.path.render).property? name) :
    (ofRecord file record).Placed separator file tune := by
  have hsubpath : (ofRecord file record).subpath
      = ((TunePath.parse separator (Location.parse file).subpath).join tune.path).render :=
    congrArg TunePath.render hunder.path
  have hfullpath : (ofRecord file record).text Key.fullpath
      = (Location.mk (Location.parse file).path record.path.render).full :=
    text_eq_of_property? (hproperties Key.fullpath (by decide)) rfl
  have hpath : (ofRecord file record).text Key.path = (Location.parse file).path :=
    text_eq_of_property? (hproperties Key.path (by decide)) rfl
  refine ⟨rfl, hunder.plugin, exists_textLine_eq _, rfl, hsubpath, hproperties, ?_, ?_, ?_⟩
  · -- Both texts have the same path inside, behind two paths that differ by the mark.
    rw [hfullpath, location_eq_full, ← Location.path_parse_eq_iff]
    exact Location.full_inj
  · rw [hpath, ← Location.path_parse_eq_iff]
    rfl
  · rw [hsubpath]
    exact TunePath.render_join_eq_iff (TunePath.isClean_parse _ _)

end Report

namespace CommandLine

/-- The reports of a file beside the tunes in it, which are found under the part of the name in
    front of a mark. -/
theorem placed_scanFile {reader : Lha.MemberReader} {d : Detector}
    (hcatalog : d.catalog.plugins.Perm (Catalog.builtinWith reader).plugins)
    (skip : List String) (file : String) (bytes : ByteArray) :
    List.Forall₂ (Report.Placed d.settings.pathSeparator file)
      (recordsOf d skip (Location.parse file).path bytes) (scanFile d skip file bytes) := by
  have hunder := under_recordsOf d skip file bytes
  rw [scanFile_eq_map, List.forall₂_map_right_iff]
  refine List.forall₂_iff_get.2 ⟨hunder.length_eq, fun index hindex hindex' => ?_⟩
  exact Report.placed_of_under (hunder.get hindex hindex')
    (property?_of_mem_recordsOf hcatalog (List.getElem_mem hindex'))

/-- The reports of all files, but for their order. -/
theorem perm_scanAll (files : Files Id) (d : Detector) (a : Arguments) :
    (scanAll (m := Id) files d a).Perm ((a.paths.flatMap files.below).flatMap fun file =>
      ((files.load file).map (scanFile d a.skip file)).getD []) := by
  let reportsOf (file : String) : List Report :=
    ((files.load file).map (scanFile d a.skip file)).getD []
  have hpaths : a.paths.mapM (m := Id) files.below = pure (a.paths.map files.below) :=
    List.mapM_pure
  have hreports (paths : List String) :
      (paths.mapM (m := Id) fun path => do
        let bytes ← files.load path
        return (bytes.map (scanFile d a.skip path)).getD []) = pure (paths.map reportsOf) :=
    List.mapM_pure
  have hall : scanAll (m := Id) files d a
      = sortReports ((a.paths.map files.below).flatten.map reportsOf).flatten := by
    unfold scanAll
    rw [hpaths, pure_bind, hreports, pure_bind]
    rfl
  -- Only sorting changes the order.
  rw [hall, List.flatMap_def, List.flatMap_def]
  exact List.mergeSort_perm _ _

theorem perm_of_detectorOf {c : Catalog} {a : Arguments} {settings : Except Failure Settings}
    {d : Detector} (h : detectorOf c a settings = .ok d) :
    d.catalog.plugins.Perm c.plugins := by
  cases settings with
  | error failure => cases h
  | ok settings =>
    cases hcatalog : Detector.ofCatalog c (adjust a settings) with
    | error e =>
      have hfailed : Except.mapError Failure.scan (.error e : Except ScanError Detector) = .ok d :=
        hcatalog ▸ h
      cases hfailed
    | ok d' =>
      have hmade : Except.mapError Failure.scan (.ok d' : Except ScanError Detector) = .ok d :=
        hcatalog ▸ h
      cases hmade
      obtain ⟨c', hreorder, rfl⟩ := Detector.exists_of_ofCatalog hcatalog
      exact Catalog.perm_of_reorder hreorder

/-- **The command line and its scans.** With the plugins of the library, whatever reads the members
    of LHA archives, what a command line prints are the reports of the files that it names, as many
    of each file as there are tunes. The line of a report begins with the file and the path inside.
    These are the properties of the tune where the name of the file has no mark. A scan takes a name
    that has one for a location, so the properties then are of another file, and what is behind the
    mark comes before the path of the tune. -/
theorem run_placed (reader : Lha.MemberReader) (files : Files Id) {words : List String}
    {a : Arguments} {d : Detector} (hwords : Arguments.parse? words = some a)
    (hlist : a.listPlugins = false)
    (hdetector : detectorOf (.builtinWith reader) a (loadSettings (m := Id) files a) = .ok d) :
    run (m := Id) (.builtinWith reader) files words
        = .printed (Report.renderAll (a.format.getD .text) (scanAll (m := Id) files d a))
      ∧ (scanAll (m := Id) files d a).Perm ((a.paths.flatMap files.below).flatMap fun file =>
          ((files.load file).map (scanFile d a.skip file)).getD [])
      ∧ ∀ file bytes, List.Forall₂ (Report.Placed d.settings.pathSeparator file)
          (recordsOf d a.skip (Location.parse file).path bytes) (scanFile d a.skip file bytes) := by
  refine ⟨?_, perm_scanAll files d a, ?_⟩
  · have hlist' : ¬a.listPlugins = true := by simp [hlist]
    obtain ⟨settings, hsettings⟩ : ∃ settings, loadSettings (m := Id) files a = pure settings :=
      ⟨_, rfl⟩
    rw [hsettings] at hdetector
    change detectorOf (.builtinWith reader) a settings = .ok d at hdetector
    unfold run
    simp only [hwords, hsettings, pure_bind, hdetector, if_neg hlist']
    rfl
  · exact fun file bytes => placed_scanFile (perm_of_detectorOf hdetector) a.skip file bytes

/-- A file with a recording of a single frame. -/
def recording : ByteArray :=
  ⟨#[0x59, 0x4d, 0x32, 0x21, 0, 0, 0, 0, 0, 0, 0, 0, 0, 0, 0, 0, 0, 0]⟩

/-- The directory with this file under a name. -/
def directoryOf (name : String) : FileTree := .directory [(name, .file recording)]

/-- What a scan of the file finds in a few steps, and where. -/
theorem map_recordsOf_of_runWithin (name : String)
    (seen : List (TunePath × Option Property × Option Property))
    (h : (((⟨.builtin, {}⟩ : Detector).scan (.parse name)).runWithin (observer []) 12
        (.start .builtin (.ofByteArray recording) (.parse '/' (Location.parse name).subpath)
          {})).map (fun result => result.2.records.toList.map fun r =>
            (r.path, r.properties.get? Key.path, r.properties.get? Key.fullpath)) = some seen) :
    (recordsOf ⟨.builtin, {}⟩ [] name recording).map (fun r =>
      (r.path, r.properties.get? Key.path, r.properties.get? Key.fullpath)) = seen := by
  exact Scan.map_run_of_runWithin _ (observer []) _ 12 h

/-- A recording with a plain name is reported with the properties of its file. -/
theorem run_placed_plainName :
    let files := (directoryOf "b.ym").files
    let d : Detector := ⟨.builtin, {}⟩
    let a : Arguments := { paths := ["b.ym"] }
    Arguments.parse? ["b.ym"] = some a ∧ a.listPlugins = false
      ∧ detectorOf .builtin a (loadSettings (m := Id) files a) = .ok d
      ∧ ∃ tune report, recordsOf d [] "b.ym" recording = [tune]
        ∧ scanFile d [] "b.ym" recording = [report] ∧ report.Placed '/' "b.ym" tune
        ∧ tune.path = ⟨[], '/'⟩ ∧ report.text Key.path = "b.ym" := by
  intro files d a
  have hwords : Arguments.parse? ["b.ym"] = some a := by decide +kernel
  have hdetector : detectorOf .builtin a (loadSettings (m := Id) files a) = .ok d := rfl
  have hseen := map_recordsOf_of_runWithin "b.ym" [(⟨[], '/'⟩, some (.text "b.ym"),
    some (.text "b.ym"))] (by decide +kernel)
  obtain ⟨tune, htune, hvalues⟩ := List.map_eq_singleton_iff.1 hseen
  obtain ⟨hpath, -⟩ := Prod.mk.inj hvalues
  obtain ⟨-, -, hplaced⟩ := run_placed Lha.openMember files hwords rfl hdetector
  have hreports := hplaced "b.ym" recording
  have hname : (Location.parse "b.ym").path = "b.ym" := by decide
  rw [hname, show a.skip = [] from rfl, htune, List.forall₂_cons_left_iff] at hreports
  obtain ⟨report, rest, hreport, hrest, hscan⟩ := hreports
  rw [List.forall₂_nil_left_iff.1 hrest] at hscan
  refine ⟨hwords, rfl, hdetector, tune, report, htune, hscan, hreport, hpath, ?_⟩
  exact (hreport.path_iff.2 (by decide)).trans hreport.file_eq

/-- A recording with a mark in its name is reported with the properties of another file. -/
theorem not_agree_markedName :
    let files := (directoryOf "a?b.ym").files
    let d : Detector := ⟨.builtin, {}⟩
    let a : Arguments := { paths := ["a?b.ym"] }
    Arguments.parse? ["a?b.ym"] = some a
      ∧ detectorOf .builtin a (loadSettings (m := Id) files a) = .ok d
      ∧ ∃ report, scanAll (m := Id) files d a = [report] ∧ report.file = "a?b.ym"
        ∧ report.location = "a?b.ym?b.ym" ∧ report.subpath = "b.ym"
        ∧ report.properties.get? Key.path = some (.text "a")
        ∧ report.properties.get? Key.fullpath = some (.text "a?b.ym")
        ∧ report.text Key.path ≠ report.file ∧ report.text Key.fullpath ≠ report.location := by
  intro files d a
  have hwords : Arguments.parse? ["a?b.ym"] = some a := by decide +kernel
  have hdetector : detectorOf .builtin a (loadSettings (m := Id) files a) = .ok d := rfl
  have hseen := map_recordsOf_of_runWithin "a?b.ym" [(⟨["b.ym"], '/'⟩, some (.text "a"),
    some (.text "a?b.ym"))] (by decide +kernel)
  obtain ⟨record, hrecord, hvalues⟩ := List.map_eq_singleton_iff.1 hseen
  obtain ⟨hpath, hproperties⟩ := Prod.mk.inj hvalues
  obtain ⟨hfile, hfullpath⟩ := Prod.mk.inj hproperties
  have hall : scanAll (m := Id) files d a = [Report.ofRecord "a?b.ym" record] := by
    have hfiles : a.paths.flatMap files.below = ["a?b.ym"] := rfl
    have hload : files.load "a?b.ym" = some recording := rfl
    have hperm := perm_scanAll files d a
    rw [hfiles, List.flatMap_singleton, hload, Option.map_some, Option.getD_some,
      scanFile_eq_map, show a.skip = [] from rfl, hrecord] at hperm
    exact List.perm_singleton.1 hperm
  have hsubpath : (Report.ofRecord "a?b.ym" record).subpath = "b.ym" := by
    show record.path.render = _
    rw [hpath]
    decide
  have hlocation : (Report.ofRecord "a?b.ym" record).location = "a?b.ym?b.ym" := by
    rw [Report.location_eq_full, hsubpath]
    rfl
  have htexts (name text : String) (h : record.properties.get? name = some (.text text)) :
      (Report.ofRecord "a?b.ym" record).text name = text := by
    show ((record.properties.get? name).bind Property.text?).getD "" = text
    rw [h]
    rfl
  refine ⟨hwords, hdetector, _, hall, rfl, hlocation, hsubpath, hfile, hfullpath, ?_, ?_⟩
  · rw [htexts _ _ hfile]
    show "a" ≠ "a?b.ym"
    decide
  · rw [htexts _ _ hfullpath, hlocation]
    decide

end CommandLine

end Chiptune
