import Chiptune.Proofs.ByPath
import Chiptune.Proofs.Ledger
import Chiptune.Proofs.Unplaced

namespace Chiptune

/-!
# Scans inside scans

What a scan finds inside an archive is what a scan of the entry alone finds, seen from outside: with
the path of the entry before all paths, and the archive before all container chains.

* `Record.nested`, `Frame.nested` — a tune and a container, seen from outside;
* `Scan.course_nested` — the course of a container that is nested;
* `Detector.isPrefix_reported` — a scan of an archive begins with the scans of its entries.
-/

/-! ### Seen from outside -/

namespace TunePath

/-- The path `q` inside of something with the path `p`. -/
def join (p q : TunePath) : TunePath := ⟨p.components ++ q.components, q.separator⟩

theorem append_join (p q : TunePath) (text : String) :
    (p.join q).append text = p.join (q.append text) := by
  unfold join append
  rw [List.append_assoc]

theorem render_eq_empty_of_join {p q : TunePath} (h : (p.join q).render = "") :
    q.render = "" := by
  obtain ⟨components, separator⟩ := p
  unfold join render at h
  cases components with
  | nil => exact h
  | cons first rest =>
    by_cases hrest : rest ++ q.components = []
    · rw [render, (List.append_eq_nil_iff.1 hrest).2]
      rfl
    · -- There would be a separator in the text.
      have hlength := congrArg String.length h
      simp only [List.cons_append, String.intercalate_cons_of_ne_nil hrest, String.length_append,
        String.length_singleton, String.length_empty] at hlength
      omega

end TunePath

/-- The properties of a tune in an entry of the archive that `id` opened, when its path is `path` as
    seen from outside. -/
def Properties.relocate (p : Properties) (location : Location) (path : TunePath) (id : String) :
    Properties :=
  p.setNonEmpty Key.subpath path.render
    |>.setNonEmpty Key.fullpath (location.withSubpath path.render).full
    |>.enclose id

/-- A tune that was found in an entry alone, as it is found in the archive that `id` opened, where
    the entry has the path `place`. -/
def Record.nested (location : Location) (place : TunePath) (id : String) (r : Record) : Record :=
  { r with
    path := place.join r.path
    properties := r.properties.relocate location (place.join r.path) id }

/-- The same for a sighting. -/
def Sighting.nested (location : Location) (place : TunePath) (id : String) (e : Sighting) :
    Sighting :=
  ⟨e.offset, place.join e.container, e.record.nested location place id⟩

/-- The same findings with other sightings. -/
def Findings.map (change : Sighting → Sighting) (a : Findings) : Findings :=
  ⟨a.sightings.map change, a.frames⟩

theorem Findings.map_append (change : Sighting → Sighting) (a b : Findings) :
    (a ++ b).map change = a.map change ++ b.map change := by
  ext1
  · exact List.map_append
  · rfl

/-- A container in an entry alone, as it is in the archive. -/
def Frame.nested (place : TunePath) (id : String) (f : Frame) : Frame :=
  { f with
    path := place.join f.path
    properties := f.properties.enclose id
    depth := f.depth + 1 }

/-! ### Properties -/

namespace Properties

variable {p q : Properties} {location : Location} {path : TunePath} {id name : String}

theorem relocate_overlay (h : q.Lacks placeNames) :
    (p.relocate location path id).overlay q = (p.overlay q).relocate location path id := by
  have hcontainer := h Key.container (by decide)
  have hsubpath := h Key.subpath (by decide)
  have hfullpath := h Key.fullpath (by decide)
  rw [relocate, relocate, enclose_overlay _ id hcontainer, setNonEmpty_overlay _ _ hfullpath,
    setNonEmpty_overlay _ _ hsubpath]

theorem relocate_set (value : Property) (h : name ∉ placeNames) :
    (p.set name value).relocate location path id
      = (p.relocate location path id).set name value := by
  have hcontainer : name ≠ Key.container := fun heq => h (heq ▸ by decide)
  have hsubpath : Key.subpath ≠ name := fun heq => h (heq ▸ by decide)
  have hfullpath : Key.fullpath ≠ name := fun heq => h (heq ▸ by decide)
  rw [relocate, relocate, ← setNonEmpty_set_comm _ _ _ hsubpath,
    ← setNonEmpty_set_comm _ _ _ hfullpath, set_enclose _ _ _ hcontainer]

theorem relocate_foldl_set {changes : List (String × Property)}
    (h : ∀ e ∈ changes, e.1 ∉ placeNames) :
    (changes.foldl (fun p e => p.set e.1 e.2) p).relocate location path id
      = changes.foldl (fun p e => p.set e.1 e.2) (p.relocate location path id) := by
  induction changes generalizing p with
  | nil => rfl
  | cons e rest ih =>
    obtain ⟨he, hrest⟩ := List.forall_mem_cons.1 h
    rw [List.foldl_cons, List.foldl_cons, ih hrest, relocate_set _ he]

theorem relocate_pushContainer {last : String} (hid : id ≠ "") (hlast : last ≠ "") :
    (p.pushContainer last).relocate location path id
      = (p.relocate location path id).pushContainer last := by
  rw [relocate, relocate, ← setNonEmpty_pushContainer _ _ _ (by decide),
    ← setNonEmpty_pushContainer _ _ _ (by decide), pushContainer_enclose _ hid hlast]

end Properties

namespace Scan

variable {s : Scan} {skips : Plugin → Bool} {f : Frame} {place path : TunePath} {id : String}
  {opened : Opened} {found : Found} {depth : UInt64}

/-- The properties of the file, whatever the path inside. -/
def fileProperties (s : Scan) : Properties :=
  (∅ : Properties)
    |>.setNonEmpty Key.path s.location.path
    |>.setNonEmpty Key.filename s.location.filename
    |>.setNonEmpty Key.extension s.location.extension

theorem placeProperties_eq (s : Scan) (path : TunePath) :
    s.placeProperties path
      = (s.fileProperties.setNonEmpty Key.subpath path.render).setNonEmpty Key.fullpath
          (s.location.withSubpath path.render).full := rfl

theorem lacks_placeProperties (s : Scan) (path : TunePath) :
    (s.placeProperties path).Lacks [Key.container] := by
  have hfile : s.fileProperties.Lacks [Key.container] :=
    (((Properties.lacks_empty _).setNonEmpty (by decide) _).setNonEmpty (by decide) _).setNonEmpty
      (by decide) _
  rw [placeProperties_eq]
  exact (hfile.setNonEmpty (by decide) _).setNonEmpty (by decide) _

theorem full_eq_empty_of_join (location : Location)
    (h : (location.withSubpath (place.join path).render).full = "") :
    (location.withSubpath path.render).full = "" := by
  unfold Location.full Location.withSubpath at *
  simp only at *
  by_cases hempty : (place.join path).render = ""
  · rw [TunePath.render_eq_empty_of_join hempty]
    rw [hempty] at h
    exact h
  · have hnot : ¬(place.join path).render.isEmpty = true := by simpa using hempty
    rw [if_neg hnot] at h
    simp at h

/-- The properties of a place depend on the path only in two of them. -/
theorem placeProperties_join (s : Scan) (place path : TunePath) :
    ((s.placeProperties path).setNonEmpty Key.subpath (place.join path).render).setNonEmpty
        Key.fullpath (s.location.withSubpath (place.join path).render).full
      = s.placeProperties (place.join path) := by
  have hnames : Key.fullpath ≠ Key.subpath := by decide
  rw [placeProperties_eq, placeProperties_eq, Properties.setNonEmpty_comm _ _ _ hnames,
    Properties.setNonEmpty_setNonEmpty _ _ _ TunePath.render_eq_empty_of_join,
    Properties.setNonEmpty_setNonEmpty _ _ _ (full_eq_empty_of_join s.location)]

/-! ### Frames and records -/

/-- What begins at an offset moves with its container. -/
theorem located_join {f g : Frame} (hoffset : g.offset = f.offset)
    (hpath : g.path = place.join f.path) : g.located = place.join f.located := by
  unfold Frame.located
  rw [hoffset, hpath]
  split
  · rfl
  · exact TunePath.append_join ..

theorem entryPath_join {f g : Frame} (h : g.located = place.join f.located) (entry : Entry) :
    entryPath g entry = place.join (entryPath f entry) := by
  unfold entryPath
  rw [h]
  cases entry.name with
  | none => rfl
  | some name => exact TunePath.append_join ..

theorem tunePath_join {f g : Frame} (h : g.located = place.join f.located) (found : Found)
    (index : Nat) : tunePath g found index = place.join (tunePath f found index) := by
  unfold tunePath
  rw [h]
  split
  · exact TunePath.append_join ..
  · rfl

theorem located_nested (place : TunePath) (id : String) (f : Frame) :
    (f.nested place id).located = place.join f.located := located_join rfl rfl

theorem inherited_nested (f : Frame) (hid : id ≠ "") (hplugin : opened.plugin.id ≠ "")
    (hcontents : opened.contents.properties = ∅) :
    inherited (f.nested place id) opened = (inherited f opened).enclose id := by
  have hnone : (∅ : Properties).get? Key.container = none := rfl
  unfold inherited
  rw [hcontents, Properties.pushContainer_enclose _ hid hplugin,
    ← Properties.enclose_overlay _ _ hnone]
  rfl

/-- The properties of a tune are those of the tune in the entry alone but for its place. -/
theorem tuneProperties_nested (s : Scan) (place path : TunePath) (hid : id ≠ "")
    (hplugin : found.plugin.id ≠ "")
    (hf : f.properties.Lacks [Key.subpath, Key.fullpath])
    (htunes : found.tunes.properties.Lacks placeNames) {track : Track}
    (htrack : track.properties.Lacks placeNames) {measured : List (String × Property)}
    (hmeasured : ∀ e ∈ measured, e.1 ∉ placeNames) :
    s.tuneProperties (f.nested place id) found measured (place.join path) track
      = (s.tuneProperties f found measured path track).relocate s.location (place.join path)
          id := by
  -- What lies over the place does not name it, so the place can be changed behind it as well.
  have hplace : (s.placeProperties (place.join path)).overlay (f.properties.enclose id)
      = ((s.placeProperties path).overlay f.properties).relocate s.location (place.join path)
          id := by
    have hcontainer := s.lacks_placeProperties (place.join path) Key.container (by decide)
    have hsubpath := hf Key.subpath (by decide)
    have hfullpath := hf Key.fullpath (by decide)
    rw [Properties.overlay_enclose _ _ hcontainer, ← placeProperties_join,
      Properties.setNonEmpty_overlay _ _ hfullpath, Properties.setNonEmpty_overlay _ _ hsubpath]
    rfl
  have hmerged : (((s.placeProperties (place.join path)).overlay (f.properties.enclose id)).overlay
        found.tunes.properties).overlay track.properties
      = ((((s.placeProperties path).overlay f.properties).overlay
          found.tunes.properties).overlay track.properties).relocate s.location
            (place.join path) id := by
    rw [hplace, Properties.relocate_overlay htunes, Properties.relocate_overlay htrack]
  unfold tuneProperties
  rw [Properties.relocate_foldl_set hmeasured]
  simp only [Frame.nested, hmerged]
  split
  · rw [Properties.relocate_pushContainer hid hplugin]
  · rfl

theorem measured_not_mem_placeNames (found : Found) : ∀ e ∈ found.measured, e.1 ∉ placeNames := by
  simp only [Found.measured, List.forall_mem_cons]
  exact ⟨by decide, by decide, by decide, by decide, List.forall_mem_nil _⟩

theorem records_nested (s : Scan) (place : TunePath) (hid : id ≠ "")
    (hplugin : found.plugin.id ≠ "") (hf : f.properties.Lacks [Key.subpath, Key.fullpath])
    (htunes : found.tunes.Unplaced) :
    s.records (f.nested place id) found
      = (s.records f found).map (Record.nested s.location place id) := by
  unfold records
  apply List.ext_getElem
  · simp
  · intro index hindex _
    rw [List.length_mapIdx] at hindex
    have htrack := htunes.2 _ (List.getElem_mem hindex)
    have hproperties := s.tuneProperties_nested place (tunePath f found index) hid hplugin hf
      htunes.1 htrack (measured_not_mem_placeNames found)
    simp only [List.getElem_map, List.getElem_mapIdx, tunePath_join (located_nested place id f),
      hproperties]
    rfl

/-! ### One level deeper -/

/-- The same scan with another depth. -/
def withDepth (s : Scan) (depth : UInt64) : Scan :=
  { s with settings := { s.settings with maxDepth := depth } }

theorem opensAt_withDepth (s : Scan) (hdepth : (depth + 1).toNat = depth.toNat + 1) (n : Nat) :
    (s.withDepth (depth + 1)).opensAt (n + 1) = (s.withDepth depth).opensAt n := by
  show decide (n + 1 < (depth + 1).toNat) = decide (n < depth.toNat)
  rw [hdepth]
  exact decide_eq_decide.2 Nat.add_lt_add_iff_right

/-- Whether the archives of a scan are opened in the same way whatever the depth is. -/
def IgnoresDepth (s : Scan) : Prop :=
  ∀ depth depth', s.catalog.OpensAlike (s.withDepth depth).settings (s.withDepth depth').settings

theorem archiveAt_nested (skips : Plugin → Bool) (place : TunePath) (id : String) (f : Frame)
    (hignores : s.IgnoresDepth) (hdepth : (depth + 1).toNat = depth.toNat + 1) :
    (s.withDepth (depth + 1)).archiveAt skips (f.nested place id)
      = (s.withDepth depth).archiveAt skips f := by
  have hfirst := (hignores (depth + 1) depth).findSome?_archives skips f
  unfold archiveAt
  rw [Frame.nested, opensAt_withDepth s hdepth]
  exact congrArg (fun found => if (s.withDepth depth).opensAt f.depth then found else none) hfirst

theorem tunesAt_nested (s : Scan) (skips : Plugin → Bool) (place : TunePath) (id : String)
    (f : Frame) :
    (s.withDepth (depth + 1)).tunesAt skips (f.nested place id)
      = (s.withDepth depth).tunesAt skips f := rfl

theorem advance_nested (s : Scan) (skips : Plugin → Bool) (place : TunePath) (id : String)
    (f : Frame) (claim : Nat) (hdepth : (depth + 1).toNat = depth.toNat + 1) :
    (s.withDepth (depth + 1)).advance skips (f.nested place id) claim
      = ((s.withDepth depth).advance skips f claim).nested place id := by
  -- As many levels are left as without the outer one, so the same plugins are looked for.
  have htries : (s.withDepth (depth + 1)).tries skips (f.depth + 1)
      = (s.withDepth depth).tries skips f.depth := by
    funext p
    rw [tries, tries, opensAt_withDepth s hdepth]
  by_cases hclaim : claim = 0
  · have hsame : (s.withDepth (depth + 1)).lookAhead skips (f.nested place id)
        = (((s.withDepth depth).lookAhead skips f).1.nested place id,
          ((s.withDepth depth).lookAhead skips f).2) := by
      unfold lookAhead
      rw [Frame.nested, htries]
      rfl
    unfold advance
    rw [if_pos hclaim, if_pos hclaim, hsame]
    rfl
  · unfold advance
    rw [if_neg hclaim, if_neg hclaim]
    rfl

theorem mayHold_of_target_eq_none (h : s.target = none) (path : TunePath) :
    s.mayHold path = true := by
  rw [mayHold, h]
  rfl

theorem wants_of_target_eq_none (h : s.target = none) (path : TunePath) : s.wants path = true := by
  rw [wants, h]
  rfl

theorem children_nested (s : Scan) (depth : UInt64) (place : TunePath) (f : Frame)
    (htarget : s.target = none)
    (hid : id ≠ "") (hplugin : opened.plugin.id ≠ "")
    (hcontents : opened.contents.properties = ∅) :
    (s.withDepth (depth + 1)).children (f.nested place id) opened
      = ((s.withDepth depth).children f opened).map (Frame.nested place id) := by
  have hold := fun t => mayHold_of_target_eq_none (s := s.withDepth t) htarget
  unfold children
  simp only [hold, List.filter_eq_self.2 fun _ _ => rfl, inherited_nested f hid hplugin hcontents,
    List.map_map]
  apply List.map_congr_left
  intro entry _
  rw [entryPath_join (located_nested place id f)]
  rfl

theorem sightings_nested (s : Scan) (depth : UInt64) (place : TunePath)
    (htarget : s.target = none) (hid : id ≠ "")
    (hplugin : found.plugin.id ≠ "") (hf : f.properties.Lacks [Key.subpath, Key.fullpath])
    (htunes : found.tunes.Unplaced) :
    (s.withDepth (depth + 1)).sightings (f.nested place id) found
      = ((s.withDepth depth).sightings f found).map (Sighting.nested s.location place id) := by
  have hwant := fun t => wants_of_target_eq_none (s := s.withDepth t) htarget
  have hrecords := (s.withDepth depth).records_nested place hid hplugin hf htunes
  ext1
  · show wanted _ _ ((s.withDepth depth).records (f.nested place id) found) = _
    simp only [sightings, Findings.map, wanted, hwant, List.filter_eq_self.2 fun _ _ => rfl,
      hrecords, List.map_map]
    rfl
  · rfl

/-! ### The course of a frame -/

theorem opened_unplaced (h : s.catalog.Unplaced) (harchive : s.archiveAt skips f = some opened) :
    opened.plugin.id ≠ "" ∧ opened.contents.properties = ∅ := by
  obtain ⟨hmem, -, hcontents, -⟩ := archiveAt_spec harchive
  have hplugin := (List.mem_filter.1 hmem).1
  exact ⟨h.ids _ hplugin, h.contents _ hplugin _ _ _ hcontents⟩

theorem found_unplaced (h : s.catalog.Unplaced) (htunes : s.tunesAt skips f = some found) :
    found.plugin.id ≠ "" ∧ found.tunes.Unplaced := by
  obtain ⟨p, hmem, hfind⟩ := find?_of_tunesAt htunes
  obtain ⟨rfl, hread, -⟩ := Frame.find?_spec hfind
  have hplugin := (List.mem_filter.1 hmem).1
  exact ⟨h.ids _ hplugin, h.tunes _ hplugin _ _ hread⟩

theorem lacks_of_mem_children {g : Frame} {names : List String} (hnames : Key.container ∉ names)
    (hf : f.properties.Lacks names) (hcontents : opened.contents.properties = ∅)
    (h : g ∈ s.children f opened) : g.properties.Lacks names := by
  obtain ⟨entry, -, rfl⟩ := List.mem_map.1 h
  show (inherited f opened).Lacks _
  unfold inherited
  rw [hcontents, Properties.pushContainer_eq]
  exact Properties.Lacks.set hf hnames _

theorem courseOf_nested {frames : List Frame}
    (h : ∀ g ∈ frames, (s.withDepth (depth + 1)).course skips (g.nested place id)
      = ((s.withDepth depth).course skips g).map (Sighting.nested s.location place id)) :
    (s.withDepth (depth + 1)).courseOf skips (frames.map (Frame.nested place id))
      = ((s.withDepth depth).courseOf skips frames).map (Sighting.nested s.location place id) := by
  induction frames with
  | nil => rfl
  | cons g rest ih =>
    have hrest := ih fun g' hg' => h g' (List.mem_cons_of_mem _ hg')
    rw [List.map_cons, courseOf_cons, courseOf_cons, Findings.map_append, h g List.mem_cons_self,
      hrest]

/-- **The course of a nested container.** It finds the same as the container alone, seen from
    outside. -/
theorem course_nested (s : Scan) (skips : Plugin → Bool) (place : TunePath)
    (hcatalog : s.catalog.Unplaced) (hignores : s.IgnoresDepth) (htarget : s.target = none)
    (hid : id ≠ "")
    (hdepth : (depth + 1).toNat = depth.toNat + 1)
    (hf : f.properties.Lacks [Key.subpath, Key.fullpath]) :
    (s.withDepth (depth + 1)).course skips (f.nested place id)
      = ((s.withDepth depth).course skips f).map (Sighting.nested s.location place id) := by
  -- Both courses come to the same archives and the same tunes.
  induction f using Scan.course.induct (s.withDepth depth) skips with
  | case1 f hdone =>
    have hdone' : (f.nested place id).isDone = true := hdone
    rw [course_of_isDone hdone, course_of_isDone hdone']
    rfl
  | case2 f hdone hphase harchive ih =>
    have hnested := archiveAt_nested skips place id f hignores hdepth
    rw [course_of_archiveAt_none hdone hphase harchive, ← ih hf,
      course_of_archiveAt_none (f := f.nested place id) hdone hphase (hnested.trans harchive)]
    rfl
  | case3 f hdone hphase opened harchive ihinside ihbehind =>
    have hnested := archiveAt_nested skips place id f hignores hdepth
    obtain ⟨hplugin, hcontents⟩ := opened_unplaced (s := s.withDepth depth) hcatalog harchive
    have hchildren := s.children_nested depth place f htarget hid hplugin hcontents
    have hinside : (s.withDepth (depth + 1)).courseOf skips
          (((s.withDepth depth).children f opened).map (Frame.nested place id))
        = ((s.withDepth depth).courseOf skips ((s.withDepth depth).children f opened)).map
            (Sighting.nested s.location place id) :=
      courseOf_nested fun g hg =>
        ihinside ⟨g, hg⟩ (lacks_of_mem_children (by decide) hf hcontents hg)
    rw [course_of_archiveAt_some hdone hphase harchive, Findings.map_append, Findings.map_append,
      ← ihbehind hf, ← hinside,
      course_of_archiveAt_some (f := f.nested place id) hdone hphase (hnested.trans harchive),
      hchildren, List.length_map]
    rfl
  | case4 f hdone claim hphase htunes ih =>
    have hnext := s.advance_nested skips place id f claim hdepth
    have hsame := sameContainer_advance (s.withDepth depth) skips f claim
    have htunes' : (s.withDepth (depth + 1)).tunesAt skips (f.nested place id) = none :=
      (s.tunesAt_nested skips place id f).trans htunes
    rw [course_of_tunesAt_none hdone hphase htunes, ← ih (hsame.properties ▸ hf), ← hnext,
      course_of_tunesAt_none (f := f.nested place id) hdone hphase htunes']
  | case5 f hdone claim hphase found htunes ih =>
    obtain ⟨hplugin, hset⟩ := found_unplaced (s := s.withDepth depth) hcatalog htunes
    have hhere := s.sightings_nested depth place htarget hid hplugin hf hset
    have hnext := s.advance_nested skips place id { f with tuneClaims := found.claims }
      (max claim found.claim) hdepth
    have hsame := (sameContainer_advance (s.withDepth depth) skips
      { f with tuneClaims := found.claims } (max claim found.claim)).properties
    have htunes' : (s.withDepth (depth + 1)).tunesAt skips (f.nested place id) = some found :=
      (s.tunesAt_nested skips place id f).trans htunes
    have hlacks : Properties.Lacks _ _ := hsame.symm ▸ hf
    rw [course_of_tunesAt_some hdone hphase htunes, Findings.map_append, ← hhere,
      ← ih hlacks, ← hnext,
      course_of_tunesAt_some (f := f.nested place id) hdone hphase htunes']
    rfl

theorem records_courseOf (s : Scan) (skips : Plugin → Bool) (frames : List Frame) :
    (s.courseOf skips frames).records = frames.flatMap fun g => (s.course skips g).records := by
  induction frames with
  | nil => rfl
  | cons g rest ih => rw [courseOf_cons, Findings.records_append, ih, List.flatMap_cons]

theorem records_map_nested (location : Location) (place : TunePath) (id : String) (a : Findings) :
    (a.map (Sighting.nested location place id)).records
      = a.records.map (Record.nested location place id) := by
  unfold Findings.records Findings.map
  rw [List.map_map, List.map_map]
  rfl

/-! ### Entries of the first archive -/

section

variable {separator : Char}

/-- The frame with which a scan of some data alone begins. -/
def alone (s : Scan) (separator : Char) (data : Window) : Frame :=
  .start data (.parse separator "") ∅ 0 s.catalog

/-- An entry of an archive at the start is the entry alone, seen from outside. -/
theorem children_alone (htarget : s.target = none) (hcontents : opened.contents.properties = ∅)
    (data : Window) :
    s.children (s.alone separator data) opened
      = (consistent (.empty .shared data.size) opened.contents.entries).map fun entry =>
          (s.alone separator entry.data).nested (.parse separator (entry.name.getD ""))
            opened.plugin.id := by
  have hinherited : inherited (s.alone separator data) opened
      = (∅ : Properties).enclose opened.plugin.id := by
    unfold inherited
    rw [hcontents]
    rfl
  have hpath (entry : Entry) : entryPath (s.alone separator data) entry
      = (TunePath.parse separator (entry.name.getD "")).join (.parse separator "") := by
    unfold entryPath
    cases entry.name with
    | none => rfl
    | some name => exact congrArg (TunePath.mk · separator) (List.append_nil _).symm
  unfold children
  simp only [mayHold_of_target_eq_none htarget, List.filter_eq_self.2 fun _ _ => rfl, hinherited,
    hpath]
  rfl

/-- What is found inside the archive at the start comes first. -/
theorem isPrefix_records (s : Scan) (skips : Plugin → Bool) (hcatalog : s.catalog.Unplaced)
    (hignores : s.IgnoresDepth) (htarget : s.target = none)
    (hdepth : (depth + 1).toNat = depth.toNat + 1) {data : Window}
    (harchive : (s.withDepth (depth + 1)).archiveAt skips (s.alone separator data)
      = some opened) :
    ((consistent (.empty .shared data.size) opened.contents.entries).flatMap fun entry =>
        ((s.withDepth depth).course skips (s.alone separator entry.data)).records.map
          (Record.nested s.location (.parse separator (entry.name.getD "")) opened.plugin.id))
      <+: ((s.withDepth (depth + 1)).course skips (s.alone separator data)).records := by
  obtain ⟨hplugin, hcontents⟩ := opened_unplaced (s := s.withDepth (depth + 1)) hcatalog harchive
  have hdone : ¬(s.alone separator data).isDone = true := by
    -- An archive claims bytes, so there are some.
    have hclaim : opened.claim ≠ 0 :=
      Claims.size_ne_zero_of_add? (archiveAt_spec harchive).2.2.2.2
    have hsize : opened.claim ≤ data.size := by
      rw [(archiveAt_spec harchive).2.2.2.1]
      exact Nat.min_le_right ..
    show ¬decide (data.size ≤ 0) = true
    rw [decide_eq_true_iff]
    omega
  have hchildren : (s.withDepth (depth + 1)).children (s.alone separator data) opened
      = (consistent (.empty .shared data.size) opened.contents.entries).map fun entry =>
          (s.alone separator entry.data).nested (.parse separator (entry.name.getD ""))
            opened.plugin.id := children_alone htarget hcontents data
  have hentry (place : TunePath) (entry : Window) := s.course_nested skips place hcatalog hignores
    htarget hplugin hdepth (f := s.alone separator entry) (Properties.lacks_empty _)
  rw [course_of_archiveAt_some hdone rfl harchive, Findings.records_append,
    Findings.records_append, records_courseOf, hchildren, List.flatMap_map]
  simp only [hentry, records_map_nested]
  exact List.prefix_append ..

end

end Scan

/-! ### Detectors -/

namespace Detector

theorem exists_of_ofCatalog {c : Catalog} {settings : Settings} {d : Detector}
    (h : ofCatalog c settings = .ok d) :
    ∃ c', c.reorder settings.pluginOrder = .ok c' ∧ d = ⟨c', settings⟩ := by
  cases hreorder : c.reorder settings.pluginOrder with
  | error e =>
    rw [ofCatalog, hreorder] at h
    cases h
  | ok c' =>
    rw [ofCatalog, hreorder] at h
    exact ⟨c', rfl, (Except.ok.inj h).symm⟩

/-- **Nesting.** When an archive is opened at the start of some data, a scan with room for one more
    level begins with what scans of the entries alone report: the same tunes in the same order, with
    the path of the entry before their paths, the archive before their container chains, and the
    properties that follow from the longer paths. The plugins are those of the library, whatever
    reads the members of LHA archives. -/
theorem isPrefix_reported (reader : Lha.MemberReader) (settings : Settings) (depth : UInt64)
    (hdepth : depth.toNat + 1 < UInt64.size) {outer inner : Detector}
    (houter : ofCatalog (.builtinWith reader) { settings with maxDepth := depth + 1 } = .ok outer)
    (hinner : ofCatalog (.builtinWith reader) { settings with maxDepth := depth } = .ok inner)
    {location : String} (hlocation : '?' ∉ location.toList) (data : Window) {opened : Opened}
    (hopened : outer.catalog.archives.findSome?
      ((outer.start ⟨location, ""⟩ data).open? outer.settings) = some opened) :
    ((consistent (.empty .shared data.size) opened.contents.entries).flatMap fun entry =>
        (inner.reported location entry.data).map
          (Record.nested ⟨location, ""⟩
            (.parse settings.pathSeparator (entry.name.getD "")) opened.plugin.id))
      <+: outer.reported location data := by
  obtain ⟨c, hreorder, rfl⟩ := exists_of_ofCatalog houter
  obtain ⟨c', hreorder', rfl⟩ := exists_of_ofCatalog hinner
  -- The order of the plugins does not depend on the depth.
  obtain rfl : c' = c := Except.ok.inj (hreorder'.symm.trans hreorder)
  have hperm := Catalog.perm_of_reorder hreorder
  have hcatalog := (Catalog.unplaced_builtinWith reader).of_perm hperm
  have hnext : (depth + 1).toNat = depth.toNat + 1 := by
    rw [UInt64.toNat_add]
    exact Nat.mod_eq_of_lt hdepth
  let s : Scan := ⟨c', settings, ⟨location, ""⟩, none⟩
  have hignores : s.IgnoresDepth := fun a b p hp => by
    have halike : (Catalog.builtinWith reader).OpensAlike (s.withDepth a).settings
        (s.withDepth b).settings := Catalog.opensAlike_builtinWith reader rfl
    exact halike p (hperm.subset hp)
  have harchive : (s.withDepth (depth + 1)).archiveAt (fun _ => false)
      (s.alone settings.pathSeparator data) = some opened := by
    have hopens : (s.withDepth (depth + 1)).opensAt 0 = true := by
      show decide (0 < (depth + 1).toNat) = true
      rw [hnext]
      exact decide_eq_true (Nat.succ_pos _)
    have hall : s.catalog.archives.filter (fun _ => true) = s.catalog.archives :=
      List.filter_eq_self.2 fun _ _ => rfl
    unfold Scan.archiveAt
    exact (if_pos hopens).trans ((congrArg (List.findSome? _) hall).trans hopened)
  simp only [reported_of_not_mem _ hlocation]
  exact s.isPrefix_records (fun _ => false) hcatalog hignores rfl hnext harchive

/-- Packed data that unpacks to 24 bytes with a recording of a single frame behind them. -/
def packedRecording : Window :=
  .ofByteArray ⟨#[
    0x49, 0x43, 0x45, 0x21, 0x00, 0x00, 0x00, 0x18, 0x00, 0x00, 0x00, 0x2a,
    0x40, 0x07, 0x59, 0x4d, 0x32, 0x21, 0xde, 0x81, 0x03, 0x00, 0xbc, 0x80]⟩

/-- With the plugins of the library, a scan of the packed data begins with the tune of what it
    unpacks to, as found where no archives are opened. -/
theorem isPrefix_in_packedRecording :
    let outer : Detector := ⟨.builtin, { maxDepth := 0 + 1 }⟩
    let inner : Detector := ⟨.builtin, { maxDepth := 0 }⟩
    (0 : UInt64).toNat + 1 < UInt64.size ∧ '?' ∉ "a".toList
      ∧ ofCatalog .builtin { maxDepth := 0 + 1 } = .ok outer
      ∧ ofCatalog .builtin { maxDepth := 0 } = .ok inner
      ∧ ∃ opened entry record, outer.catalog.archives.findSome?
          ((outer.start ⟨"a", ""⟩ packedRecording).open? outer.settings) = some opened
        ∧ opened.plugin.id = "ICE"
        ∧ consistent (.empty .shared packedRecording.size) opened.contents.entries = [entry]
        ∧ inner.reported "a" entry.data = [record] ∧ record.path = ⟨["+24"], '/'⟩
        ∧ [record.nested ⟨"a", ""⟩ (.parse '/' (entry.name.getD "")) opened.plugin.id]
          <+: outer.reported "a" packedRecording := by
  intro outer inner
  have hdepth : (0 : UInt64).toNat + 1 < UInt64.size := by decide
  have hlocation : '?' ∉ "a".toList := by decide
  have houter : ofCatalog .builtin { maxDepth := 0 + 1 } = .ok outer := rfl
  have hinner : ofCatalog .builtin { maxDepth := 0 } = .ok inner := rfl
  -- The data is unpacked, and its one entry is scanned.
  have hrun : (outer.catalog.archives.findSome? ((outer.start ⟨"a", ""⟩ packedRecording).open?
      outer.settings)).map (fun opened => (opened.plugin.id,
        (consistent (.empty .shared packedRecording.size) opened.contents.entries).map fun entry =>
          ((inner.scan ⟨"a", ""⟩).runWithin Collector.observer 12
            ⟨[inner.start ⟨"a", ""⟩ entry.data], 0, 1, {}⟩).map
              fun r => r.2.records.toList.map Record.path))
        = some ("ICE", [some [⟨["+24"], '/'⟩]]) := by
    decide +kernel
  obtain ⟨opened, hopened, hsame⟩ := Option.map_eq_some_iff.1 hrun
  obtain ⟨hplugin, hscans⟩ := Prod.mk.inj hsame
  obtain ⟨entry, hentries, hscan⟩ := List.map_eq_singleton_iff.1 hscans
  have hpaths : (inner.reported "a" entry.data).map Record.path = [⟨["+24"], '/'⟩] :=
    inner.map_detect_of_runWithin (Location.parse_of_not_mem hlocation) _ _ 12 hscan
  obtain ⟨record, hreported, hpath⟩ := List.map_eq_singleton_iff.1 hpaths
  have hprefix := isPrefix_reported Lha.openMember {} 0 hdepth houter hinner hlocation
    packedRecording hopened
  rw [hentries, List.flatMap_singleton, hreported] at hprefix
  exact ⟨hdepth, hlocation, houter, hinner, opened, entry, record, hopened, hplugin, hentries,
    hreported, hpath, hprefix⟩

end Detector

end Chiptune
