import Chiptune.Proofs.EntryNames
import Chiptune.Proofs.PropertyValues
import Chiptune.Scan.Finding

namespace Chiptune

/-!
# Plugins that do not say where a tune is

A scan adds the place of a tune to the properties that a plugin reads. For the plugins of the
library the two never meet.

* `Catalog.lacks_of_mem_pluginsWith` — the properties that they read are no others than `tuneNames`;
* `Catalog.Unplaced` — catalogs of plugins that do not say where a tune is;
* `Catalog.unplaced_builtinWith` — the catalog of the library is one, in any order.
-/

/-- The properties that tell where a tune is, but for the file. -/
def placeNames : List String := [Key.container, Key.subpath, Key.fullpath]

/-- Tunes whose properties do not tell where they are. -/
def TuneSet.Unplaced (tunes : TuneSet) : Prop :=
  tunes.properties.Lacks placeNames ∧ ∀ track ∈ tunes.tracks, track.properties.Lacks placeNames

/-- Whether the plugins of a catalog leave it to the scan to say where a tune is: they have ids for
    the container chain, archives have no properties that are inherited, and tunes none that tell
    their place. -/
structure Catalog.Unplaced (c : Catalog) : Prop where
  ids : ∀ p ∈ c.plugins, p.id ≠ ""
  contents : ∀ p ∈ c.plugins, ∀ (settings : Settings) (w : Window) (contents : Unpacked),
    p.decoder.contents? settings w = some contents → contents.properties = ∅
  tunes : ∀ p ∈ c.plugins, ∀ (w : Window) (tunes : TuneSet), p.decoder.tunes? w = some tunes →
    tunes.Unplaced

/-! ### Tunes of the library -/

/-- The properties that the plugins of the library read. -/
def tuneNames : List String :=
  [Key.title, Key.author, Key.comment, Key.date, Key.program, Key.frames, Key.defaultTrack]

section

variable {names : List String}

theorem TuneInfo.lacks_toProperties (hnames : ∀ name ∈ tuneNames, name ∉ names) (i : TuneInfo) :
    i.toProperties.Lacks names := by
  have htexts : ({ i with frameCount := none } : TuneInfo).toProperties.Lacks names :=
    (((((Properties.lacks_empty _).setNonEmpty (hnames _ (by decide)) _).setNonEmpty
      (hnames _ (by decide)) _).setNonEmpty (hnames _ (by decide)) _).setNonEmpty
      (hnames _ (by decide)) _).setNonEmpty (hnames _ (by decide)) _
  unfold toProperties at htexts ⊢
  cases i.frameCount with
  | none => exact htexts
  | some count => exact htexts.set (hnames _ (by decide)) _

/-- Whether tunes have none of some properties. -/
def TuneSet.Lacks (names : List String) (tunes : TuneSet) : Prop :=
  tunes.properties.Lacks names ∧ ∀ track ∈ tunes.tracks, track.properties.Lacks names

theorem Ay.lacks_read (hnames : ∀ name ∈ tuneNames, name ∉ names) {w : Window} {tunes : TuneSet}
    (h : read w = .ok tunes) : tunes.Lacks names := by
  simp only [read, bind, Except.bind] at h
  split at h
  · cases h
  · split at h
    · cases h
      refine ⟨?_, fun track htrack => ?_⟩
      · exact (((Properties.lacks_empty _).setNonEmpty (hnames _ (by decide)) _).setNonEmpty
          (hnames _ (by decide)) _).set (hnames _ (by decide)) _
      · obtain ⟨song, -, rfl⟩ := List.mem_map.1 htrack
        exact TuneInfo.lacks_toProperties hnames _
    · cases h

theorem Sndh.Header.lacks_toProperties (hnames : ∀ name ∈ tuneNames, name ∉ names) (h : Header) :
    h.toProperties.Lacks names := by
  have hcommon := h.common.lacks_toProperties hnames
  have hstarted : (if 1 < h.defaultTrack then
        h.common.toProperties.set Key.defaultTrack (.ofNat h.defaultTrack)
      else h.common.toProperties).Lacks names := by
    split
    · exact hcommon.set (hnames _ (by decide)) _
    · exact hcommon
  unfold toProperties
  simp only
  split
  · exact hstarted
  · exact hstarted.set (hnames _ (by decide)) _

theorem Sndh.lacks_read (hnames : ∀ name ∈ tuneNames, name ∉ names) {w : Window} {tunes : TuneSet}
    (h : read w = .ok tunes) : tunes.Lacks names := by
  simp only [read, bind, Except.bind] at h
  split at h
  · cases h
  · rename_i header _
    cases h
    refine ⟨header.lacks_toProperties hnames, fun track htrack => ?_⟩
    obtain ⟨i, -, rfl⟩ := List.mem_map.1 htrack
    exact TuneInfo.lacks_toProperties hnames _

theorem Ym.lacks_read (hnames : ∀ name ∈ tuneNames, name ∉ names) {w : Window} {tune : SingleTune}
    (h : read w = .ok tune) : tune.toTuneSet.Lacks names := by
  simp only [read, bind, Except.bind] at h
  split at h
  · cases h
  · rename_i recording _
    split at h
    · cases h
      refine ⟨recording.info.lacks_toProperties hnames, fun track htrack => ?_⟩
      obtain rfl := List.mem_singleton.1 htrack
      exact Properties.lacks_empty _
    · cases h

/-- The plugins of the library read nothing else. -/
theorem Catalog.lacks_of_mem_pluginsWith (hnames : ∀ name ∈ tuneNames, name ∉ names)
    {reader : Lha.MemberReader} {p : Plugin} (hp : p ∈ pluginsWith reader) {w : Window}
    {tunes : TuneSet} (h : p.decoder.tunes? w = some tunes) : tunes.Lacks names := by
  simp only [pluginsWith, List.mem_cons, List.not_mem_nil, or_false] at hp
  rcases hp with rfl | rfl | rfl | rfl | rfl | rfl | rfl
  · cases h
  · cases h
  · cases h
  · cases h
  · exact Ay.lacks_read hnames (eq_ok_of_toOption h)
  · exact Sndh.lacks_read hnames (eq_ok_of_toOption h)
  · obtain ⟨tune, hread, rfl⟩ := Option.map_eq_some_iff.1 h
    exact Ym.lacks_read hnames (eq_ok_of_toOption hread)

end

/-! ### Catalogs -/

namespace Catalog

/-- **The plugins of the library** do not say where a tune is. -/
theorem unplaced_builtinWith (reader : Lha.MemberReader) : (builtinWith reader).Unplaced where
  ids p hp := by
    have hids : "" ∉ ["HOBETA", "SCL", "ICE", "LHA", "AY", "SNDH", "YM"] := by decide
    rintro hid
    exact hids (hid ▸ List.mem_map_of_mem hp)
  contents := by
    intro p hp settings w contents h
    -- Players have no contents, and archives no tunes.
    simp only [builtinWith, pluginsWith, List.mem_cons, List.not_mem_nil, or_false] at hp
    rcases hp with rfl | rfl | rfl | rfl | rfl | rfl | rfl
    · exact (Hobeta.unpack_spec (Decoder.eq_ok_of_contents? h)).2
    · exact (Scl.unpack_spec (Decoder.eq_ok_of_contents? h)).2
    · exact (Ice.unpack_spec (Decoder.eq_ok_of_contents? h)).2
    · exact (Lha.unpack_spec (Decoder.eq_ok_of_contents? h)).2
    · cases h
    · cases h
    · cases h
  tunes _ hp _ _ h := lacks_of_mem_pluginsWith (by decide) hp h

theorem Unplaced.of_perm {c c' : Catalog} (h : c.Unplaced) (hperm : c'.plugins.Perm c.plugins) :
    c'.Unplaced where
  ids p hp := h.ids p (hperm.mem_iff.1 hp)
  contents p hp := h.contents p (hperm.mem_iff.1 hp)
  tunes p hp := h.tunes p (hperm.mem_iff.1 hp)

theorem perm_of_reorder {c c' : Catalog} {order : List String} (h : c.reorder order = .ok c') :
    c'.plugins.Perm c.plugins := by
  unfold reorder at h
  split at h
  · cases h
  · rename_i arranged harrange
    cases h
    exact perm_of_arrange harrange

end Catalog

end Chiptune
