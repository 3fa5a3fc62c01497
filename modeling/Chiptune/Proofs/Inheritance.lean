import Chiptune.Proofs.Histories
import Chiptune.Proofs.Nesting

namespace Chiptune

/-!
# Where properties come from

The properties of a tune come in layers: those of the tune and of its module, those of the archives
around it, and its place.

* `Properties.containerOf?` — the container chain of some plugins;
* `Location.property?` — the properties that a location gives;
* `Chapter.Inherits` — the properties of a frame are those of the archives around it;
* `Scan.Merges`, `Scan.merges_of_mem_run` — so every record has the values of the first layers that
  define them.
-/

namespace Properties

/-! ### Container chains -/

/-- Ids with marks between them. Those before the first one that is not empty are left out. -/
def joinIds (ids : List String) : String :=
  (String.singleton containerDelimiter).intercalate (ids.dropWhile (·.isEmpty))

/-- The container chain of some plugins, outermost first. Without plugins there is none. -/
def containerOf? : List String → Option Property
  | [] => none
  | ids => some (.text (joinIds ids))

theorem containerOf?_concat (ids : List String) (id : String) :
    containerOf? (ids ++ [id]) = some (.text (joinIds (ids ++ [id]))) := by
  cases ids <;> rfl

theorem intercalate_ne_empty (separator : String) {first : String} (h : first ≠ "")
    (rest : List String) :
    separator.intercalate (first :: rest) ≠ "" := by
  cases rest with
  | nil => rwa [String.intercalate_singleton]
  | cons second rest =>
    rw [String.intercalate_cons_cons]
    simp [h]

/-- A chain of empty ids is taken for none, so the next id stands alone. -/
theorem link_joinIds (ids : List String) (id : String) :
    link (joinIds ids) id = joinIds (ids ++ [id]) := by
  unfold joinIds
  rw [List.dropWhile_append]
  cases hkept : ids.dropWhile (·.isEmpty) with
  | nil =>
    by_cases hid : id.isEmpty = true
    · have hempty : id = "" := by simpa using hid
      rw [hempty]
      rfl
    · simp [link, hid]
  | cons first rest =>
    have hfirst : first ≠ "" := by
      have hhead := List.head_dropWhile_not (fun id : String => id.isEmpty) (l := ids)
      simp only [hkept] at hhead
      simpa using hhead
    have hchain := intercalate_ne_empty (String.singleton containerDelimiter) hfirst rest
    rw [if_neg (by simp), String.intercalate_append_of_ne_nil (List.cons_ne_nil _ _)
      (List.cons_ne_nil _ _), String.intercalate_singleton, link, if_neg (by simpa using hchain)]
    rw [String.append_singleton]

/-- One more plugin behind the chain, if the chain is that of the plugins before. -/
theorem get?_pushContainer {p : Properties} {ids : List String}
    (h : p.get? Key.container = containerOf? ids) (id : String) :
    (p.pushContainer id).get? Key.container = containerOf? (ids ++ [id]) := by
  have hchain : p.chain = joinIds ids := by
    rw [chain, text?, h]
    cases ids <;> rfl
  rw [pushContainer_eq, hchain, link_joinIds, get?_set, if_pos rfl, containerOf?_concat]

theorem get?_pushContainer_of_ne (p : Properties) (id : String) {name : String}
    (h : name ≠ Key.container) : (p.pushContainer id).get? name = p.get? name :=
  get?_set_of_ne p _ h

/-! ### Texts that are not empty -/

theorem get?_setNonEmpty (p : Properties) (name text other : String) :
    (p.setNonEmpty name text).get? other
      = if other = name ∧ text ≠ "" then some (.text text) else p.get? other := by
  by_cases htext : text = ""
  · rw [htext, setNonEmpty_empty, if_neg (by simp)]
  · rw [setNonEmpty_of_ne p name htext, get?_set]
    simp [htext]

theorem get?_foldl_setNonEmpty {texts : List (String × String)}
    (h : (texts.map Prod.fst).Nodup) (p : Properties) (name : String) :
    (texts.foldl (fun q e => q.setNonEmpty e.1 e.2) p).get? name
      = (((texts.lookup name).filter (· ≠ "")).map .text).or (p.get? name) := by
  induction texts generalizing p with
  | nil => rfl
  | cons head rest ih =>
    obtain ⟨first, text⟩ := head
    rw [List.map_cons, List.nodup_cons] at h
    rw [List.foldl_cons, ih h.2, get?_setNonEmpty, List.lookup_cons]
    by_cases hname : name = first
    · -- The name does not come again.
      have hnone : rest.lookup first = none := by
        refine List.lookup_eq_none_iff.2 fun e he => ?_
        have hne : first ≠ e.1 := fun hsame => h.1 (List.mem_map.2 ⟨e, he, hsame.symm⟩)
        simpa using hne
      rw [hname, hnone]
      by_cases htext : text = ""
      · simp [htext, Option.filter]
      · simp [htext, Option.filter]
    · have hne : (name == first) = false := beq_eq_false_iff_ne.2 hname
      simp [hne, hname]

end Properties

/-! ### Places -/

namespace Location

/-- The texts that say where a location is, by name. -/
def texts (l : Location) : List (String × String) :=
  [(Key.path, l.path), (Key.filename, l.filename), (Key.extension, l.extension),
    (Key.subpath, l.subpath), (Key.fullpath, l.full)]

/-- The property with a name that a location gives. Empty texts give none. -/
def property? (l : Location) (name : String) : Option Property :=
  ((l.texts.lookup name).filter (· ≠ "")).map .text

theorem nodup_texts (l : Location) : (l.texts.map Prod.fst).Nodup := by
  show [Key.path, Key.filename, Key.extension, Key.subpath, Key.fullpath].Nodup
  decide

theorem property?_container (l : Location) : l.property? Key.container = none := by
  simp [property?, texts, List.lookup_cons, Key.container, Key.path, Key.filename,
    Key.extension, Key.subpath, Key.fullpath]

end Location

theorem Scan.placeProperties_eq_foldl (s : Scan) (path : TunePath) :
    s.placeProperties path = (s.location.withSubpath path.render).texts.foldl
      (fun p e => p.setNonEmpty e.1 e.2) ∅ := by
  simp only [placeProperties, Location.texts, List.foldl_cons, List.foldl_nil]

theorem Scan.get?_placeProperties (s : Scan) (path : TunePath) (name : String) :
    (s.placeProperties path).get? name
      = (s.location.withSubpath path.render).property? name := by
  rw [placeProperties_eq_foldl, Properties.get?_foldl_setNonEmpty (Location.nodup_texts _)]
  exact Option.or_none

/-! ### Archives around a frame -/

namespace Chapter

/-- The properties of the archives around a container, innermost first. -/
def layers (c : Chapter) : List Properties := c.around.map (·.contents.properties)

/-- The plugins of the archives around a container, outermost first. -/
def openers (c : Chapter) : List String := (c.around.map (·.plugin.id)).reverse

/-- The properties that plugins read for a tune, those that come first in front: of the tune, of its
    module, and of the archives around it. -/
def layersOf (c : Chapter) (found : Found) (track : Track) : List Properties :=
  track.properties :: found.tunes.properties :: c.layers

/-- The plugins whose containers a tune was found in, outermost first. A module of several tunes
    counts as a container of its own. -/
def containersOf (c : Chapter) (found : Found) : List String :=
  c.openers ++ if 1 < found.tunes.tracks.length then [found.plugin.id] else []

/-- Whether the properties of a frame are those of the archives around it: each has the value of the
    innermost archive that has one, but for the container chain, which is that of the plugins when no
    archive brings one of its own. -/
structure Inherits (c : Chapter) : Prop where
  values : ∀ name, name ≠ Key.container →
    c.frame.properties.get? name = c.layers.findSome? (·.get? name)
  chain : (∀ layer ∈ c.layers, layer.get? Key.container = none) →
    c.frame.properties.get? Key.container = Properties.containerOf? c.openers

variable {c : Chapter}

theorem inherits_start (data : Window) (path : TunePath) (catalog : Catalog) :
    ({ frame := .start data path ∅ 0 catalog } : Chapter).Inherits where
  values _ _ := rfl
  chain _ := rfl

namespace Inherits

/-- All points in one container have the same properties. -/
theorem of_same (h : c.Inherits) {c' : Chapter}
    (hproperties : c'.frame.properties = c.frame.properties) (haround : c'.around = c.around) :
    c'.Inherits := by
  obtain ⟨hvalues, hchain⟩ := h
  unfold layers at hvalues hchain
  unfold openers at hchain
  rw [← hproperties, ← haround] at hvalues hchain
  exact ⟨hvalues, hchain⟩

/-- An entry has the properties of its archive over those around it, and one more plugin in its
    container chain. -/
theorem inside (h : c.Inherits) (opened : Opened) {entry : Frame}
    (hproperties : entry.properties = Scan.inherited c.frame opened) :
    (c.inside opened entry).Inherits where
  values name hname := by
    show entry.properties.get? name = (opened.contents.properties :: c.layers).findSome? (·.get? name)
    rw [hproperties, Scan.inherited, Properties.get?_pushContainer_of_ne _ _ hname,
      Properties.get?_overlay, h.values name hname, List.findSome?_cons]
    cases opened.contents.properties.get? name <;> rfl
  chain hlacks := by
    obtain ⟨hopened, haround⟩ := List.forall_mem_cons.1 hlacks
    have hbelow : (c.frame.properties.overlay opened.contents.properties).get? Key.container
        = Properties.containerOf? c.openers := by
      rw [Properties.get?_overlay, hopened]
      exact h.chain haround
    have hopeners : (c.inside opened entry).openers = c.openers ++ [opened.plugin.id] := by
      simp [openers, Chapter.inside]
    show entry.properties.get? Key.container = _
    rw [hproperties, Scan.inherited, hopeners]
    exact Properties.get?_pushContainer hbelow _

end Inherits

end Chapter

namespace Scan

variable {s : Scan} {told : List Chapter} {heard : List Sighting}

/-- Frames keep the properties of the archives around them whatever a step does. -/
theorem keeps_inherits (s : Scan) : s.Keeps Chapter.Inherits where
  inside hc hentry := by
    -- Each entry begins with what it inherits, whatever is in the others.
    obtain ⟨entry, -, rfl⟩ := List.mem_map.1 hentry
    exact hc.inside _ rfl
  unpack hc _ _ := hc.of_same rfl rfl
  keep hc _ := hc.of_same rfl rfl
  play skips hc _ _ _ _ := hc.of_same (sameContainer_advance ..).properties rfl
  pass skips hc _ _ := hc.of_same (sameContainer_advance ..).properties rfl

theorem inherits_of_told {data : Window} {root : TunePath} (h : s.Told data root told heard) :
    ∀ c ∈ told, c.Inherits :=
  s.keeps_inherits.forall_of_told (Chapter.inherits_start ..) h

/-! ### Tunes -/

/-- What the properties of a tune are that was found in a container.

    * `type`, `size`, `crc`, `fixedCrc` — what the scan itself finds out;
    * `chain` — the plugins around it, when no plugin gives a chain of its own;
    * `others` — for all other names the first value that a plugin read, or else that of the place,
      or none. -/
structure Merges (s : Scan) (c : Chapter) (found : Found) (track : Track) (path : TunePath)
    (p : Properties) : Prop where
  type : p.get? Key.type = some (.text found.plugin.id)
  size : p.get? Key.size = some (.ofNat found.module.size)
  crc : p.get? Key.crc = some (.ofNat found.module.crc32.toNat)
  fixedCrc : p.get? Key.fixedCrc = some (.ofNat found.fixed.crc32.toNat)
  chain : (∀ layer ∈ c.layersOf found track, layer.get? Key.container = none) →
    p.get? Key.container = Properties.containerOf? (c.containersOf found)
  others : ∀ name, name ∉ [Key.type, Key.size, Key.crc, Key.fixedCrc, Key.container] →
    p.get? name = ((c.layersOf found track).findSome? (·.get? name)).or
      ((s.location.withSubpath path.render).property? name)

section

variable (found : Found) (p : Properties)

theorem foldl_measured : found.measured.foldl (fun p e => p.set e.1 e.2) p
    = (((p.set Key.type (.text found.plugin.id)).set Key.size (.ofNat found.module.size)).set
      Key.crc (.ofNat found.module.crc32.toNat)).set Key.fixedCrc
        (.ofNat found.fixed.crc32.toNat) := by
  simp only [Found.measured, List.foldl_cons, List.foldl_nil]

theorem get?_foldl_measured_of_not_mem {name : String}
    (h : name ∉ [Key.type, Key.size, Key.crc, Key.fixedCrc]) :
    (found.measured.foldl (fun p e => p.set e.1 e.2) p).get? name = p.get? name := by
  simp only [List.mem_cons, List.not_mem_nil, or_false, not_or] at h
  obtain ⟨htype, hsize, hcrc, hfixed⟩ := h
  rw [foldl_measured, Properties.get?_set_of_ne _ _ hfixed, Properties.get?_set_of_ne _ _ hcrc,
    Properties.get?_set_of_ne _ _ hsize, Properties.get?_set_of_ne _ _ htype]

end

/-- The values that plugins read come before those of the place. -/
theorem get?_layered {c : Chapter} {name : String} (s : Scan) (found : Found) (track : Track)
    (path : TunePath) (h : c.frame.properties.get? name = c.layers.findSome? (·.get? name)) :
    ((((s.placeProperties path).overlay c.frame.properties).overlay found.tunes.properties).overlay
        track.properties).get? name
      = ((c.layersOf found track).findSome? (·.get? name)).or
          ((s.location.withSubpath path.render).property? name) := by
  rw [Properties.get?_overlay, Properties.get?_overlay, Properties.get?_overlay, h,
    get?_placeProperties, Chapter.layersOf, List.findSome?_cons, List.findSome?_cons]
  cases track.properties.get? name with
  | some value => rfl
  | none => cases found.tunes.properties.get? name <;> rfl

/-- Where no plugin gives a container chain, it is that of the frame. -/
theorem get?_container {c : Chapter} (h : c.Inherits) (s : Scan) {found : Found} {track : Track}
    (path : TunePath) (hlacks : ∀ layer ∈ c.layersOf found track, layer.get? Key.container = none) :
    ((((s.placeProperties path).overlay c.frame.properties).overlay found.tunes.properties).overlay
        track.properties).get? Key.container = Properties.containerOf? c.openers := by
  obtain ⟨htrack, hrest⟩ := List.forall_mem_cons.1 hlacks
  obtain ⟨hmodule, haround⟩ := List.forall_mem_cons.1 hrest
  rw [Properties.get?_overlay, Properties.get?_overlay, Properties.get?_overlay, htrack, hmodule,
    h.chain haround, get?_placeProperties, Location.property?_container]
  exact Option.or_none

theorem merges_tuneProperties {c : Chapter} (h : c.Inherits) (s : Scan) (found : Found)
    (track : Track) (path : TunePath) :
    s.Merges c found track path
      (s.tuneProperties c.frame found found.measured path track) := by
  unfold tuneProperties
  simp only
  constructor
  · simp [foldl_measured, Properties.get?_set, Key.type, Key.size, Key.crc, Key.fixedCrc]
  · simp [foldl_measured, Properties.get?_set, Key.size, Key.crc, Key.fixedCrc]
  · simp [foldl_measured, Properties.get?_set, Key.crc, Key.fixedCrc]
  · simp [foldl_measured, Properties.get?_set]
  · intro hlacks
    have hchain := get?_container h s path hlacks
    rw [get?_foldl_measured_of_not_mem _ _ (by decide), Chapter.containersOf]
    by_cases hmany : 1 < found.tunes.tracks.length
    · have hmultitrack : found.isMultitrack = true := decide_eq_true hmany
      rw [if_pos hmultitrack, if_pos hmany]
      exact Properties.get?_pushContainer hchain _
    · have hsingle : ¬found.isMultitrack = true := by simpa [Found.isMultitrack] using hmany
      rw [if_neg hsingle, if_neg hmany, List.append_nil]
      exact hchain
  · intro name hname
    have hcontainer : name ≠ Key.container := fun heq => hname (by simp [heq])
    have hmeasured : name ∉ [Key.type, Key.size, Key.crc, Key.fixedCrc] :=
      fun hmem => hname (List.mem_append_left [Key.container] hmem)
    have hlayered := get?_layered s found track path
      (h.values name hcontainer)
    rw [get?_foldl_measured_of_not_mem _ _ hmeasured, ← hlayered]
    split
    · exact Properties.get?_pushContainer_of_ne _ _ hcontainer
    · rfl

/-- **Merged properties.** Whoever listens to a scan is offered tunes with the values of the first
    layers that define them: what the scan found out, what plugins read for the tune, its module and
    the archives around it from the inside out, and its place. -/
theorem merges_of_mem_run {σ : Type} (s : Scan) (o : Observer σ) (data : Window) (root : TunePath)
    (st : σ) : ∀ r ∈ (s.run o.recording (.start s.catalog data root (st, []))).2.2,
      ∃ w c below heard found index track, s.ToldTo o data root st w (c :: below) heard
        ∧ s.Offers o w c.frame found r ∧ found.tunes.tracks[index]? = some track
        ∧ r.path = tunePath c.frame found index ∧ r.plugin = found.plugin.id ∧ r.tune = track.tune
        ∧ s.Merges c found track r.path r.properties := by
  refine forall_mem_run s o data root st fun w c below heard found htold r hr => ?_
  obtain ⟨index, hindex, rfl⟩ := List.mem_mapIdx.1 hr.mem_records
  have hinherits := inherits_of_told htold.toTold c List.mem_cons_self
  exact ⟨w, c, below, heard, found, index, found.tunes.tracks[index], htold, hr,
    List.getElem?_eq_getElem hindex, rfl, rfl, rfl, merges_tuneProperties hinherits s found _ _⟩

/-- A tune in packed data is offered once, with its plugin and the one that unpacked it. -/
theorem merges_in_packedRecording :
    let s : Scan := (⟨.builtin, {}⟩ : Detector).scan ⟨"a", ""⟩
    let o := Collector.observer
    ∃ r ∈ (s.run o.recording (.start s.catalog Detector.packedRecording (.empty '/') ({}, []))).2.2,
      r.properties.get? Key.type = some (.text "YM")
      ∧ r.properties.get? Key.container = some (.text "ICE")
      ∧ ∃ w c below heard found, ∃ (index : Nat) (track : Track),
        s.ToldTo o Detector.packedRecording (.empty '/') {} w (c :: below) heard
        ∧ s.Offers o w c.frame found r ∧ found.tunes.tracks[index]? = some track
        ∧ s.Merges c found track r.path r.properties := by
  intro s o
  have hvalues : (s.run o.recording (.start s.catalog Detector.packedRecording (.empty '/')
      ({}, []))).2.2.map (fun r => (r.properties.get? Key.type, r.properties.get? Key.container))
        = [(some (.text "YM"), some (.text "ICE"))] :=
    s.map_run_of_runWithin o.recording (fun ending => ending.2.2.map fun r =>
      (r.properties.get? Key.type, r.properties.get? Key.container)) 12 (by decide +kernel)
  obtain ⟨r, hr, hvalue⟩ := List.mem_map.1 (hvalues ▸ List.mem_cons_self)
  obtain ⟨htype, hcontainer⟩ := Prod.mk.inj hvalue
  obtain ⟨w, c, below, heard, found, index, track, htold, hoffers, htrack, -, -, -, hmerges⟩ :=
    s.merges_of_mem_run o Detector.packedRecording (.empty '/') {} r hr
  exact ⟨r, hr, htype, hcontainer, w, c, below, heard, found, index, track, htold, hoffers, htrack,
    hmerges⟩

end Scan

/-! ### A plugin without a name -/

namespace Nameless

/-- A plugin with an empty id, for a byte before other data. -/
def wrapper : Plugin where
  id := ""
  description := "a byte before other data"
  features := .none
  signature := .ofPattern ⟨[.exact 1], by decide⟩ 0
  decoder := .archive fun _ w => .ok { entries := [⟨none, none, w.drop 1⟩], consumed := w.size }

/-- A plugin for modules of two tunes. -/
def couple : Plugin where
  id := "M"
  description := "two tunes"
  features := .none
  signature := .ofPattern ⟨[.exact 2], by decide⟩ 0
  decoder := .multitrack [] fun w =>
    let track : Track := ⟨⟨{ format := "M" }, w, none⟩, ∅⟩
    .ok ⟨w.size, (0, w.size), ∅, [track, track]⟩

/-- A scan with both plugins. -/
def scan : Scan := ⟨⟨[wrapper, couple], by decide⟩, {}, ⟨"a", ""⟩, none⟩

/-- A module of two tunes behind a byte. -/
def data : Window := .ofByteArray ⟨#[1, 2]⟩

/-- The frame of the data. -/
def outer : Frame := .start data (.empty '/') ∅ 0 scan.catalog

theorem isSome_open? : (outer.open? scan.settings wrapper).isSome = true := by
  decide +kernel

/-- What is unpacked at its start. -/
def opened : Opened := (outer.open? scan.settings wrapper).get isSome_open?

/-- The frame of the entry. -/
def inner : Frame := .start (data.drop 1) (.empty '/') (Scan.inherited outer opened) 1 scan.catalog

/-- The same frame when nothing was unpacked at its start. -/
def kept : Frame := { inner with phase := .players 0 }

theorem isSome_find? : (kept.find? couple).isSome = true := by
  decide +kernel

/-- The tunes that are found there. -/
def found : Found := (kept.find? couple).get isSome_find?

theorem toldTo_kept :
    scan.ToldTo Collector.observer data (.empty '/') {} ⟨[kept, outer.behind opened], 0, 2, ({}, [])⟩
      [({ frame := outer } : Chapter).inside opened inner |>.turn kept,
        ({ frame := outer } : Chapter).unpack opened] [] := by
  have hunpack : scan.Tells [{ frame := outer }] []
      [({ frame := outer } : Chapter).inside opened inner,
        ({ frame := outer } : Chapter).unpack opened] :=
    .unpack (p := wrapper) (by decide) rfl rfl List.mem_cons_self (Option.some_get _).symm
  have hkeep : scan.Tells [({ frame := outer } : Chapter).inside opened inner,
      ({ frame := outer } : Chapter).unpack opened] []
      [({ frame := outer } : Chapter).inside opened inner |>.turn kept,
        ({ frame := outer } : Chapter).unpack opened] :=
    .keep (by decide) rfl
  exact (Scan.ToldTo.start.next rfl hunpack rfl rfl).next rfl hkeep rfl rfl

/-- The container chain of a tune in it is not the joined ids of its plugins: the empty one is left
    out, with the mark behind it. -/
theorem not_joined_with_empty :
    ¬∀ r ∈ (scan.run Collector.observer.recording
        (.start scan.catalog data (.empty '/') ({}, []))).2.2,
      ∀ w c below heard found (index : Nat) (track : Track),
        scan.ToldTo Collector.observer data (.empty '/') {} w (c :: below) heard →
        scan.Offers Collector.observer w c.frame found r →
        found.tunes.tracks[index]? = some track →
        (∀ layer ∈ c.layersOf found track, layer.get? Key.container = none) →
        c.containersOf found ≠ [] →
        r.properties.get? Key.container = some (.text (">".intercalate (c.containersOf found))) := by
  intro hjoined
  have hrun : scan.run Collector.observer.recording
      (.start scan.catalog data (.empty '/') ({}, []))
        = (.ok ⟨2, 2, false⟩, ⟨(scan.records kept found).toArray, none⟩, scan.records kept found) := by
    have hwithin : scan.runWithin Collector.observer.recording 12
        (.start scan.catalog data (.empty '/') ({}, [])) = some (.ok ⟨2, 2, false⟩,
          ⟨(scan.records kept found).toArray, none⟩, scan.records kept found) := rfl
    exact Scan.run_eq_of_runWithin hwithin
  have hchains : (scan.records kept found).map (fun r => r.properties.get? Key.container)
      = [some (.text "M"), some (.text "M")] := by
    decide +kernel
  obtain ⟨r, hr, hchain⟩ := List.mem_map.1 (hchains ▸ List.mem_cons_self)
  have hoffers : scan.Offers Collector.observer ⟨[kept, outer.behind opened], 0, 2, ({}, [])⟩ kept
      found r :=
    ⟨⟨couple, List.mem_cons_self, (Option.some_get _).symm⟩, hr, _, hr, rfl⟩
  have hlacks : ∀ layer ∈ [(∅ : Properties), ∅, ∅], layer.get? Key.container = none := by decide
  -- Both ids stand in the joined text, but only one in the chain.
  have hboth := hjoined r (by rw [hrun]; exact hr) _ _ _ _ _ 0 _ toldTo_kept hoffers rfl hlacks
    (List.cons_ne_nil _ _)
  rw [hchain] at hboth
  have hdiffers : (some (.text "M") : Option Property) ≠ some (.text (">".intercalate ["", "M"])) := by
    decide
  exact hdiffers hboth

end Nameless

end Chiptune
