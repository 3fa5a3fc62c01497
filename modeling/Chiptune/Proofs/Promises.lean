import Chiptune.Proofs.Decoding
import Chiptune.Proofs.GrantsInTurn

namespace Chiptune

/-!
# What the plugins of the library promise

A scan asks a player where it begins, and only then lets it read. Nothing that begins is lost on the
way.

* `Frame.Reads.find?_eq` — tunes that are read at the offset of a frame are lost only with an empty
  claim;
* `Frame.find?_eq_some` — a player that begins there and keeps its promises finds its tunes;
* `Catalog.builtin_promises` — what they promise, and what follows for scans.
-/

/-! ### Players at the offset of a frame -/

namespace Plugin

variable {p : Plugin} {w : Window} {stub : Nat}

theorem exists_tunes_of_check (hexact : p.Exact) (hplayer : p.decoder.isArchive = false)
    (h : p.check w = true) : ∃ t, p.decoder.tunes? w = some t := by
  rw [hexact {} w] at h
  cases hdecoder : p.decoder with
  | archive unpack =>
    rw [hdecoder] at hplayer
    cases hplayer
  | player stubs read =>
    rw [hdecoder] at h
    obtain ⟨t, ht⟩ := isOk_iff.1 h
    refine ⟨t.toTuneSet, ?_⟩
    show (read w).toOption.map _ = _
    rw [ht]
    rfl
  | multitrack stubs read =>
    rw [hdecoder] at h
    obtain ⟨t, ht⟩ := isOk_iff.1 h
    refine ⟨t, ?_⟩
    show (read w).toOption = _
    rw [ht]
    rfl

/-- Where a plugin begins, behind a stub or at the start, its check admits the data. -/
theorem check_drop_of_locate (hsize : 0 < w.size) (h : p.locate w = some stub) :
    stub < w.size ∧ p.check (w.drop stub) = true := by
  unfold locate at h
  split at h
  · rename_i hcheck
    cases h
    rw [Window.drop_zero]
    exact ⟨hsize, hcheck⟩
  · obtain ⟨signature, -, hstub⟩ := List.exists_of_findSome?_eq_some h
    simp only at hstub
    split at hstub
    · rename_i hconditions
      cases hstub
      rw [Bool.and_eq_true_iff, Bool.and_eq_true_iff, decide_eq_true_iff] at hconditions
      exact ⟨hconditions.1.2, hconditions.2⟩
    · cases hstub

end Plugin

namespace Frame

variable {f : Frame} {p : Plugin} {stub : Nat} {tunes : TuneSet}

/-- Whether a plugin begins at the offset of a frame and reads tunes there, behind a stub of so many
    bytes, if it has one. What it says of their size is a 64-bit word. -/
structure Reads (f : Frame) (p : Plugin) (stub : Nat) (tunes : TuneSet) : Prop where
  locate_eq : p.locate f.rest = some stub
  tunes_eq : p.decoder.tunes? (f.rest.drop stub) = some tunes
  tracks_ne_nil : tunes.tracks ≠ []
  word : tunes.consumed < UInt64.size

/-- What a plugin finds at the offset of a frame when its claim is granted. -/
def granted (f : Frame) (p : Plugin) (stub : Nat) (tunes : TuneSet) : Found :=
  let claim := claimedSize stub tunes.consumed f.rest.size
  ⟨p, f.rest.drop stub, tunes, claim, f.tuneClaims.grant ⟨f.offset, claim⟩⟩

theorem Reads.stub_lt (h : f.Reads p stub tunes) (hlt : f.offset < f.data.size) :
    stub < f.rest.size := by
  have hrest : f.rest.size = f.data.size - f.offset := Window.size_drop ..
  exact (Plugin.check_drop_of_locate (by omega) h.locate_eq).1

/-- Where all claims before end by the offset, tunes that are read are lost only when nothing is
    claimed for them. -/
theorem Reads.find?_eq (h : f.Reads p stub tunes)
    (hclaims : f.tuneClaims.EndBy f.data.size f.offset) (hlt : f.offset < f.data.size) :
    f.find? p = if claimedSize stub tunes.consumed f.rest.size = 0 then none
      else some (f.granted p stub tunes) := by
  have hrest : f.rest.size = f.data.size - f.offset := Window.size_drop ..
  have htail : f.rest.tail? stub = some (f.rest.drop stub) := if_pos (h.stub_lt hlt)
  have hempty : ¬tunes.tracks.isEmpty = true := by simpa using h.tracks_ne_nil
  unfold find?
  simp only [h.locate_eq, htail, h.tunes_eq, if_neg hempty, Option.bind_eq_bind, Option.bind_some,
    Option.pure_def]
  by_cases hclaim : claimedSize stub tunes.consumed f.rest.size = 0
  · rw [if_pos hclaim, Claims.add?_of_size_eq_zero _ hclaim, Option.bind_none]
  · have hle : claimedSize stub tunes.consumed f.rest.size ≤ f.rest.size := Nat.min_le_right ..
    rw [if_neg hclaim, hclaims.add?_eq_grant (r := ⟨f.offset, claimedSize stub tunes.consumed _⟩)
      hclaim (show f.offset + claimedSize stub tunes.consumed _ ≤ f.data.size by omega)
      f.data.size_lt_word, Option.bind_some]
    rfl

/-- A player that begins at the offset of a frame finds tunes there, and claims some of the data for
    them, when all claims before end by the offset. -/
theorem find?_eq_some (hexact : p.Exact) (hproper : p.Proper)
    (hplayer : p.decoder.isArchive = false)
    (hclaims : f.tuneClaims.EndBy f.data.size f.offset) (hlt : f.offset < f.data.size)
    (hlocate : p.locate f.rest = some stub) :
    ∃ found, f.find? p = some found ∧ found.plugin = p ∧ 0 < found.claim := by
  have hrest : f.rest.size = f.data.size - f.offset := Window.size_drop ..
  obtain ⟨hstub, hcheck⟩ := Plugin.check_drop_of_locate (by omega) hlocate
  obtain ⟨tunes, htunes⟩ := Plugin.exists_tunes_of_check hexact hplayer hcheck
  have hproper := hproper.tunes _ _ htunes
  have hconsumed := hproper.consumed_le
  have hpos := hproper.consumed_pos
  have hsize := f.rest.size_lt
  rw [Window.size_drop] at hconsumed
  -- Stub and module end inside the data, so no word overflows.
  have hword : stub + tunes.consumed < UInt64.size := by
    unfold UInt64.size
    omega
  have hclaim : claimedSize stub tunes.consumed f.rest.size = stub + tunes.consumed := by
    rw [claimedSize, Nat.mod_eq_of_lt hword, Nat.min_eq_left (by omega)]
  have hreads : f.Reads p stub tunes :=
    ⟨hlocate, htunes, hproper.tracks_ne_nil, Nat.lt_of_le_of_lt (Nat.le_add_left ..) hword⟩
  refine ⟨f.granted p stub tunes, ?_, rfl, ?_⟩
  · rw [hreads.find?_eq hclaims hlt, if_neg (by omega)]
  · show 0 < claimedSize stub tunes.consumed f.rest.size
    omega

end Frame

theorem Frame.isSome_find? {f : Frame} {p : Plugin} (hexact : p.Exact) (hproper : p.Proper)
    (hplayer : p.decoder.isArchive = false)
    (hclaims : f.tuneClaims.EndBy f.data.size f.offset) (hlt : f.offset < f.data.size) :
    (f.find? p).isSome = (p.locate f.rest).isSome := by
  cases hlocate : p.locate f.rest with
  | none =>
    unfold find?
    rw [hlocate]
    rfl
  | some stub =>
    obtain ⟨found, hfind, -⟩ := find?_eq_some hexact hproper hplayer hclaims hlt hlocate
    rw [hfind]
    rfl

/-- Of players that keep their promises, the first that begins at the offset of a frame is the first
    that finds tunes there. -/
theorem Frame.map_plugin_findSome? {f : Frame} {players : List Plugin}
    (hplayers : ∀ p ∈ players, p.Exact ∧ p.Proper ∧ p.decoder.isArchive = false)
    (hclaims : f.tuneClaims.EndBy f.data.size f.offset) (hlt : f.offset < f.data.size) :
    (players.findSome? f.find?).map Found.plugin
      = players.find? fun p => (p.locate f.rest).isSome := by
  induction players with
  | nil => rfl
  | cons p rest ih =>
    obtain ⟨⟨hexact, hproper, hplayer⟩, hrest⟩ := List.forall_mem_cons.1 hplayers
    rw [List.findSome?_cons, List.find?_cons, ← isSome_find? hexact hproper hplayer hclaims hlt]
    cases hfind : f.find? p with
    | none => exact ih hrest
    | some found =>
      obtain ⟨hplugin, -⟩ := find?_spec hfind
      exact congrArg some hplugin

/-- The plugins that an observer does not skip, when it is asked for one after the other. -/
def Observer.unskipped {σ : Type} (o : Observer σ) : List Plugin → σ → List Plugin
  | [], _ => []
  | p :: rest, st =>
    let (_, st) := o.poll st
    if o.skips st p then o.unskipped rest st else p :: o.unskipped rest st

theorem Observer.unskipped_subset {σ : Type} (o : Observer σ) (plugins : List Plugin) (st : σ) :
    o.unskipped plugins st ⊆ plugins := by
  induction plugins generalizing st with
  | nil => exact List.Subset.refl _
  | cons p rest ih =>
    rw [unskipped]
    simp only
    split
    · exact List.subset_cons_of_subset p (ih _)
    · exact List.cons_subset_cons p (ih _)

/-- An observer that does not stop gets the result of the first plugin that has one, among those
    that it does not skip. -/
theorem Observer.firstOf_eq_findSome? {σ α : Type} (o : Observer σ)
    (hpoll : ∀ st, (o.poll st).1 = false) (attempt : Plugin → Option α) (plugins : List Plugin)
    (st : σ) :
    (o.firstOf attempt plugins st).1 = (o.unskipped plugins st).findSome? attempt := by
  induction plugins generalizing st with
  | nil => rfl
  | cons p rest ih =>
    have hstop := hpoll st
    rw [firstOf, unskipped]
    simp only [hstop, Bool.false_eq_true, if_false]
    cases hskip : o.skips (o.poll st).2 p with
    | true => exact ih _
    | false =>
      cases hattempt : attempt p with
      | none => simpa [hattempt] using ih _
      | some result => simp [hattempt]

/-! ### The library -/

namespace Catalog

variable {reader : Lha.MemberReader} {p : Plugin}

theorem admits_of_mem_pluginsWith (h : p ∈ pluginsWith reader) : p.Admits := by
  simp only [pluginsWith, List.mem_cons, List.not_mem_nil, or_false] at h
  rcases h with rfl | rfl | rfl | rfl | rfl | rfl | rfl
  · exact Hobeta.exact.admits
  · exact Scl.admits
  · exact Ice.admits
  · exact Lha.admits
  · exact Ay.exact.admits
  · exact Sndh.exact.admits
  · exact Ym.exact.admits

theorem proper_of_mem_pluginsWith (h : p ∈ pluginsWith reader) : p.Proper := by
  simp only [pluginsWith, List.mem_cons, List.not_mem_nil, or_false] at h
  rcases h with rfl | rfl | rfl | rfl | rfl | rfl | rfl
  · exact Plugin.proper_of_archive rfl fun _ _ _ => Hobeta.proper_unpack
  · exact Plugin.proper_of_archive rfl fun _ _ _ => Scl.proper_unpack
  · exact Plugin.proper_of_archive rfl fun _ _ _ => Ice.proper_unpack
  · exact Plugin.proper_of_archive rfl fun _ _ _ => Lha.proper_unpack
  · exact Plugin.proper_of_multitrack rfl fun _ _ => Ay.proper_read
  · exact Plugin.proper_of_multitrack rfl fun _ _ => Sndh.proper_read
  · exact Plugin.proper_of_player rfl fun _ _ => Ym.proper_read

/-- The ids of the plugins whose check admits exactly what they decode. -/
def exactIds : List String := ["HOBETA", "AY", "SNDH", "YM"]

theorem exact_of_mem_exactIds (h : p ∈ pluginsWith reader) (hid : p.id ∈ exactIds) : p.Exact := by
  simp only [pluginsWith, List.mem_cons, List.not_mem_nil, or_false] at h
  rcases h with rfl | rfl | rfl | rfl | rfl | rfl | rfl
  · exact Hobeta.exact
  · exact absurd hid (by decide)
  · exact absurd hid (by decide)
  · exact absurd hid (show ¬"LHA" ∈ exactIds by decide)
  · exact Ay.exact
  · exact Sndh.exact
  · exact Ym.exact

/-- All players of the library are among these plugins. -/
theorem exact_of_player (h : p ∈ pluginsWith reader) (hplayer : p.decoder.isArchive = false) :
    p.Exact := by
  apply exact_of_mem_exactIds h
  simp only [pluginsWith, List.mem_cons, List.not_mem_nil, or_false] at h
  rcases h with rfl | rfl | rfl | rfl | rfl | rfl | rfl
  · cases hplayer
  · cases hplayer
  · cases hplayer
  · cases hplayer
  · decide
  · decide
  · decide

/-- **The plugins of the library keep their promises**, whatever reads the members of LHA archives.
    All that can be decoded is admitted, and by four of them nothing else is; what is decoded takes
    some of the data and no more, and is not empty. So at no point of a scan is a module dropped
    that one of their players begins with: the first player that begins at an offset and is not
    skipped finds tunes there, which are recorded. -/
theorem builtin_promises (reader : Lha.MemberReader) :
    (∀ p ∈ pluginsWith reader, p.Admits ∧ p.Proper ∧ (p.id ∈ exactIds → p.Exact))
    ∧ ∀ s : Scan, (∀ p ∈ s.catalog.players, p ∈ pluginsWith reader) →
        ∀ data root told heard, s.Told data root told heard →
          ∀ c ∈ told, ¬c.frame.isDone = true →
            ∀ {σ : Type} (o : Observer σ) (st : σ), (∀ st, (o.poll st).1 = false) →
              let found? := (o.firstOf c.frame.find? s.catalog.players st).1
              found?.map Found.plugin = (o.unskipped s.catalog.players st).find?
                  (fun p => (p.locate c.frame.rest).isSome)
                ∧ ∀ found, found? = some found →
                    0 < found.claim ∧ s.records c.frame found ≠ [] := by
  refine ⟨fun p hp => ⟨admits_of_mem_pluginsWith hp, proper_of_mem_pluginsWith hp,
    exact_of_mem_exactIds hp⟩, ?_⟩
  intro s hplayers data root told heard htold c hc hdone σ o st hpoll found?
  have hclaims := (Scan.inTurn_of_told htold c hc).tunes.endBy
  have hlt := c.frame.lt_of_not_isDone hdone
  have hunskipped : ∀ p ∈ o.unskipped s.catalog.players st,
      p.Exact ∧ p.Proper ∧ p.decoder.isArchive = false := by
    intro p hp
    have hp := o.unskipped_subset s.catalog.players st hp
    have hplayer : p.decoder.isArchive = false := by simpa using (List.mem_filter.1 hp).2
    exact ⟨exact_of_player (hplayers p hp) hplayer, proper_of_mem_pluginsWith (hplayers p hp),
      hplayer⟩
  have hfirst : found? = _ := o.firstOf_eq_findSome? hpoll c.frame.find? s.catalog.players st
  rw [hfirst]
  refine ⟨Frame.map_plugin_findSome? hunskipped hclaims hlt, fun found hfound => ?_⟩
  obtain ⟨p, -, hfind⟩ := List.exists_of_findSome?_eq_some hfound
  obtain ⟨-, -, htracks, -, hadd⟩ := Frame.find?_spec hfind
  refine ⟨Nat.pos_of_ne_zero (Claims.size_ne_zero_of_add? hadd), fun hnil => htracks ?_⟩
  have hlength := congrArg List.length hnil
  rw [Scan.records, List.length_mapIdx] at hlength
  exact List.length_eq_zero_iff.1 hlength

/-- At the start of a plain recording the last player of the library begins, and finds its tune. -/
theorem promises_for_recording :
    let s : Scan := (⟨.builtin, {}⟩ : Detector).scan ⟨"a", ""⟩
    let data : Window := .ofByteArray ⟨#[
      0x59, 0x4d, 0x33, 0x21, 0, 0, 0, 0, 0, 0, 0, 0, 0, 0, 0, 0, 0, 0]⟩
    let f : Frame := .start data (.empty '/') ∅ 0 s.catalog
    let o := (Listener.patient fun _ => false).observer
    (∀ p ∈ s.catalog.players, p ∈ pluginsWith Lha.openMember)
      ∧ s.Told data (.empty '/') [{ frame := f }] [] ∧ ¬f.isDone = true
      ∧ (∀ st, (o.poll st).1 = false)
      ∧ (o.firstOf f.find? s.catalog.players []).1.map (·.plugin.id) = some "YM" := by
  intro s data f o
  have hplayers : ∀ p ∈ s.catalog.players, p ∈ pluginsWith Lha.openMember :=
    fun p hp => (List.mem_filter.1 hp).1
  have htold : s.Told data (.empty '/') [{ frame := f }] [] := .start
  have hdone : ¬f.isDone = true := by decide
  have hpoll : ∀ st, (o.poll st).1 = false := fun _ => rfl
  obtain ⟨hfound, -⟩ := (builtin_promises Lha.openMember).2 s hplayers data (.empty '/') _ _ htold
    { frame := f } List.mem_cons_self hdone o [] hpoll
  refine ⟨hplayers, htold, hdone, hpoll, ?_⟩
  have hlocated : ((o.unskipped s.catalog.players []).find? fun p =>
      (p.locate f.rest).isSome).map Plugin.id = some "YM" := by
    decide +kernel
  rw [← hfound, Option.map_map] at hlocated
  exact hlocated

end Catalog

end Chiptune
