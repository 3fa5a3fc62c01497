import Chiptune.Proofs.Guarded.Basic
import Chiptune.Proofs.ModuleSizes
import Chiptune.Proofs.WrittenRecordings

namespace Chiptune

/-!
# The bytes of a module

Several parties cut a module out of the data: a decoder for each tune that it reads, and the scan for
the size and the checksums that it gives with them. With the players of the library they all come to
the same bytes. With any other plugin the scan cuts off what is out of range.

* `TuneSet.Holds` — whether tunes hold the bytes of their module;
* `Catalog.holds_of_mem_pluginsWith` — the players of the library read such tunes;
* `Record.Covers` — whether a record is about some bytes, in all that it says of them;
* `Guarded.measure` — the steps in which a scan measures a module, and `Guarded.measure_eq`, that none
  of them fails;
* `Scan.covers_of_mem_run` — every record of a scan covers a stretch of the container in which it was
  found.
-/

/-! ### Tunes with the bytes of their module -/

/-- Whether each of the tunes that were read at the start of `w` holds the bytes of their module. -/
def TuneSet.Holds (t : TuneSet) (w : Window) : Prop :=
  ∀ track ∈ t.tracks, track.tune.data.toList = w.toList.take t.consumed

theorem Ay.holds_read {w : Window} {t : TuneSet} (h : read w = .ok t) : t.Holds w := by
  obtain ⟨⟨f, n⟩, hparse, -⟩ := ok_of_bind h
  obtain ⟨t', hread, hconsumed, -, htracks⟩ := read_of_parse hparse
  cases hread.symm.trans h
  intro track htrack
  rw [htracks] at htrack
  obtain ⟨⟨s, i⟩, -, rfl⟩ := List.mem_map.1 htrack
  rw [hconsumed, Window.toList_take, Window.drop_zero]

theorem Sndh.holds_read {w : Window} {t : TuneSet} (h : read w = .ok t) : t.Holds w := by
  obtain ⟨header, hparse, -⟩ := ok_of_bind h
  obtain ⟨t', hread, hconsumed, -, htracks⟩ := read_of_parse hparse
  cases hread.symm.trans h
  intro track htrack
  rw [htracks] at htrack
  obtain ⟨i, -, rfl⟩ := List.mem_map.1 htrack
  rw [hconsumed, ← w.length_toList, List.take_length]

theorem Ym.holds_read {w : Window} {t : SingleTune} (h : read w = .ok t) :
    t.toTuneSet.Holds w := by
  obtain ⟨recording, hparse, -⟩ := ok_of_bind h
  rw [read_of_parse hparse] at h
  cases h
  intro track htrack
  rw [List.mem_singleton.1 htrack, Window.drop_zero]
  exact w.toList_take recording.size

/-- The players of the library cut out what they say that they consumed. -/
theorem Catalog.holds_of_mem_pluginsWith {reader : Lha.MemberReader} {p : Plugin} {w : Window}
    {t : TuneSet} (hp : p ∈ pluginsWith reader) (h : p.decoder.tunes? w = some t) : t.Holds w := by
  simp only [pluginsWith, List.mem_cons, List.not_mem_nil, or_false] at hp
  rcases hp with rfl | rfl | rfl | rfl | rfl | rfl | rfl
  · cases h
  · cases h
  · cases h
  · cases h
  · exact Ay.holds_read (eq_ok_of_toOption h)
  · exact Sndh.holds_read (eq_ok_of_toOption h)
  · obtain ⟨tune, htune, rfl⟩ := Option.map_eq_some_iff.1 h
    exact Ym.holds_read (eq_ok_of_toOption htune)

/-! ### Where modules lie -/

namespace Frame

variable {f : Frame} {p : Plugin} {found : Found}

/-- What is found is what the plugin reads behind the stub that it has located. -/
theorem body_of_find? (h : f.find? p = some found) :
    ∃ stub, p.locate f.rest = some stub ∧ stub < f.rest.size ∧ found.body = f.rest.drop stub := by
  unfold find? at h
  obtain ⟨stub, hlocate, h⟩ := Option.bind_eq_some_iff.1 h
  obtain ⟨body, htail, h⟩ := Option.bind_eq_some_iff.1 h
  obtain ⟨tunes, -, h⟩ := Option.bind_eq_some_iff.1 h
  split at h
  · cases h
  · obtain ⟨claims, -, h⟩ := Option.bind_eq_some_iff.1 h
    cases h
    unfold Window.tail? at htail
    split at htail
    · rename_i hstub
      exact ⟨stub, hlocate, hstub, (Option.some.inj htail).symm⟩
    · cases htail

end Frame

/-- The bytes that a frame has behind its offset and a stub. -/
theorem Frame.toList_drop_rest (f : Frame) (stub : Nat) :
    (f.rest.drop stub).toList = f.data.toList.drop (f.offset + stub) := by
  rw [rest, Window.toList_drop, Window.toList_drop, List.drop_drop]

namespace Found

variable (found : Found)

theorem toList_module : found.module.toList = found.body.toList.take found.tunes.consumed :=
  Window.toList_take ..

theorem toList_fixed : found.fixed.toList
    = (found.module.toList.take found.tunes.fixed.2).drop found.tunes.fixed.1 := by
  rw [fixed, Window.toList_drop, Window.toList_take]

end Found

/-! ### Records -/

/-- Whether a record is about the given bytes: its tune holds them, and what was measured are their
    number, of one at least, their checksum, and that of the stretch of them that is given. -/
structure Record.Covers (r : Record) (bytes : List UInt8) (fixed : Nat × Nat) : Prop where
  data : r.tune.data.toList = bytes
  length_pos : 1 ≤ bytes.length
  size : r.properties.get? Key.size = some (.ofNat bytes.length)
  crc : r.properties.get? Key.crc = some (.ofNat (crc32Of bytes).toNat)
  fixedCrc : r.properties.get? Key.fixedCrc
    = some (.ofNat (crc32Of ((bytes.take fixed.2).drop fixed.1)).toNat)

theorem Scan.covers_of_mem_records {s : Scan} {f : Frame} {found : Found} {r : Record}
    (hholds : found.tunes.Holds found.body) (hproper : found.tunes.Proper found.body)
    (hr : r ∈ s.records f found) :
    r.Covers (found.body.toList.take found.tunes.consumed) found.tunes.fixed := by
  have hsize : found.module.size = (found.body.toList.take found.tunes.consumed).length := by
    rw [← found.toList_module, Window.length_toList]
  have hcrc : r.properties.get? Key.crc = some (.ofNat found.module.crc32.toNat) :=
    measured_of_mem_records hr (by simp [Found.measured])
  have hpos := hproper.consumed_pos
  have hle := hproper.consumed_le
  have hlength : (found.body.toList.take found.tunes.consumed).length = found.tunes.consumed := by
    rw [List.length_take_of_le]
    rwa [Window.length_toList]
  refine ⟨?_, by omega, ?_, ?_, ?_⟩
  · obtain ⟨i, hi, rfl⟩ := List.mem_mapIdx.1 hr
    exact hholds _ (List.getElem_mem hi)
  · rw [size_of_mem_records hr, hsize]
  · rw [hcrc, Window.crc32_eq, found.toList_module]
  · rw [fixedCrc_of_mem_records hr, Window.crc32_eq, found.toList_fixed, found.toList_module]

/-! ### Steps of a measurement -/

/-- What two cuts leave is a stretch that begins and ends inside the window. -/
theorem Window.drop_take_eq (w : Window) (start stop : Nat) :
    (w.take stop).drop start = (w.drop (min start (min stop w.size))).take
      (min stop w.size - min start (min stop w.size)) := by
  simp only [take, drop, mk.injEq, true_and]
  omega

namespace Guarded

variable {ε : Type}

/-- What a scan measures of a module of tunes that the plugin `p` has read, behind a stub at the
    offset of a frame. There is nothing to measure when the data ends with the stub. -/
def measure (f : Frame) (p : Plugin) (stub : Nat) (tunes : TuneSet) :
    Guarded ε (Option (List (String × Property))) := do
  let some rest ← part? f.data f.offset (f.data.size - f.offset) | return none
  let some body ← part? rest stub (rest.size - stub) | return none
  let bytes ← view body
  let module ← slice bytes 0 (min tunes.consumed bytes.size)
  let fixedStop := min tunes.fixed.2 module.size
  let fixed ← slice module (min tunes.fixed.1 fixedStop) fixedStop
  return some [(Key.type, .text p.id), (Key.size, .ofNat module.size),
    (Key.crc, .ofNat module.crc32.toNat), (Key.fixedCrc, .ofNat fixed.crc32.toNat)]

/-- The part up to the end is all that follows. -/
theorem part?_to_end (w : Window) (offset : Nat) :
    (part? w offset (w.size - offset) : Guarded ε (Option Window)) = pure (w.tail? offset) := by
  rw [part?_eq, Window.sub?, Window.tail?]
  by_cases h : offset < w.size
  · rw [if_pos ⟨h, by omega⟩, if_pos h, ← Window.size_drop, Window.take_size]
  · rw [if_neg (by omega), if_neg h]

/-- No step fails, whatever the plugin says of the size of the module and of its music. -/
theorem measure_eq (f : Frame) (p : Plugin) (stub : Nat) (tunes : TuneSet) :
    (measure f p stub tunes : Guarded ε _)
      = pure (if stub < f.rest.size then some (f.granted p stub tunes).measured else none) := by
  rw [measure, part?_to_end, pure_bind, Window.tail?]
  by_cases hoffset : f.offset < f.data.size
  · rw [if_pos hoffset]
    show part? f.rest stub (f.rest.size - stub) >>= _ = _
    rw [part?_to_end, pure_bind, Window.tail?]
    by_cases hstub : stub < f.rest.size
    · rw [if_pos hstub, if_pos hstub]
      show view (f.rest.drop stub) >>= _ = _
      -- The two minima are the bounds that the cuts ask for.
      have hmodule : (f.rest.drop stub).take (min tunes.consumed (f.rest.drop stub).size)
          = (f.granted p stub tunes).module := Window.take_min _ _
      rw [view_eq, pure_bind, slice_zero (Nat.min_le_right ..), pure_bind, hmodule]
      show slice (f.granted p stub tunes).module _ _ >>= _ = _
      rw [slice_of_le (Nat.min_le_right ..) (Nat.min_le_right ..), pure_bind,
        ← Window.drop_take_eq]
      rfl
    · rw [if_neg hstub, if_neg hstub]
  · have hrest : f.rest.size = f.data.size - f.offset := Window.size_drop ..
    rw [if_neg hoffset, if_neg (by omega)]

end Guarded

/-! ### Records of a scan -/

namespace Scan

/-- **The bytes of a module.** In a scan with the players of the library every record covers as many
    bytes as its decoder has reported, which follow the stub, if there is one, at the offset of the
    container in which it was found; and the music is a stretch of them. With any plugin at all,
    whatever it reports, no step of the measurement fails. -/
theorem covers_of_mem_run (reader : Lha.MemberReader) (s : Scan) :
    ((∀ p ∈ s.catalog.players, p ∈ Catalog.pluginsWith reader) →
      ∀ {σ : Type} (o : Observer σ) (data : Window) (root : TunePath) (st : σ),
        ∀ r ∈ (s.run o.recording (.start s.catalog data root (st, []))).2.2,
          ∃ w c below heard found stub, s.ToldTo o data root st w (c :: below) heard
            ∧ s.Offers o w c.frame found r ∧ found.plugin.locate c.frame.rest = some stub
            ∧ found.plugin.decoder.tunes? (c.frame.rest.drop stub) = some found.tunes
            ∧ c.frame.offset + stub + found.tunes.consumed ≤ c.frame.data.size
            ∧ found.tunes.fixed.1 ≤ found.tunes.fixed.2
            ∧ found.tunes.fixed.2 ≤ found.tunes.consumed
            ∧ r.Covers ((c.frame.data.toList.drop (c.frame.offset + stub)).take found.tunes.consumed)
                found.tunes.fixed)
    ∧ ∀ {ε : Type} (f : Frame) (p : Plugin) (stub : Nat) (tunes : TuneSet),
        ∃ values?, (Guarded.measure f p stub tunes : Guarded ε _) = pure values?
          ∧ ∀ found, f.find? p = some found → p.locate f.rest = some stub →
            p.decoder.tunes? (f.rest.drop stub) = some tunes → values? = some found.measured := by
  refine ⟨fun hplayers σ o data root st => ?_, fun f p stub tunes => ?_⟩
  · refine forall_mem_run s o data root st fun w c below heard found htold r hr => ?_
    obtain ⟨p, hp, hfind⟩ := hr.finds
    obtain ⟨rfl, htunes, -⟩ := Frame.find?_spec hfind
    obtain ⟨stub, hlocate, hstub, hbody⟩ := Frame.body_of_find? hfind
    have hlibrary := hplayers _ hp
    have hproper := (Catalog.proper_of_mem_pluginsWith hlibrary).tunes _ _ htunes
    have hholds := Catalog.holds_of_mem_pluginsWith hlibrary htunes
    have hcovers := covers_of_mem_records hholds hproper hr.mem_records
    have hinside := hproper.consumed_le
    have hrest : c.frame.rest.size = c.frame.data.size - c.frame.offset := Window.size_drop ..
    rw [hbody, Window.size_drop] at hinside
    rw [hbody, Frame.toList_drop_rest] at hcovers
    rw [hbody] at htunes
    exact ⟨w, c, below, heard, found, stub, htold, hr, hlocate, htunes, by omega, hproper.fixed_le,
      hproper.fixed_inside, hcovers⟩
  · refine ⟨_, Guarded.measure_eq f p stub tunes, fun found hfind hlocate htunes => ?_⟩
    obtain ⟨rfl, hfound, -⟩ := Frame.find?_spec hfind
    obtain ⟨stub', hlocate', hstub, hbody⟩ := Frame.body_of_find? hfind
    cases hlocate.symm.trans hlocate'
    rw [hbody] at hfound
    cases htunes.symm.trans hfound
    rw [if_pos hstub, Frame.granted, ← hbody]
    rfl

end Scan

/-- A file without tags. -/
def Sndh.tagless : List UInt8 := jump :: List.replicate 11 0 ++ Window.ascii magic

/-- The same behind the header of an executable. -/
def Sndh.taglessExecutable : Window :=
  .ofByteArray ⟨([jump, 0x1a] ++ List.replicate 26 0 ++ tagless).toArray⟩

/-- The tune behind a stub of 28 bytes is offered with the 16 bytes of its file. A plugin that says
    that the music ends before it begins does no harm. -/
theorem Scan.covers_in_taglessExecutable :
    let s : Scan := (⟨.builtin, {}⟩ : Detector).scan ⟨"a", ""⟩
    let o := Collector.observer
    let data := Sndh.taglessExecutable
    (∀ p ∈ s.catalog.players, p ∈ Catalog.pluginsWith Lha.openMember)
      ∧ (∃ r ∈ (s.run o.recording (.start s.catalog data (.empty '/') ({}, []))).2.2,
          ∃ fixed, r.Covers Sndh.tagless fixed)
      ∧ ∃ values?, (Guarded.measure (.start data (.empty '/') ∅ 0 s.catalog) Sndh.plugin 28
          ⟨100, (9, 3), ∅, []⟩ : Guarded Empty _) = pure values? := by
  intro s o data
  have hplayers : ∀ p ∈ s.catalog.players, p ∈ Catalog.pluginsWith Lha.openMember :=
    fun p hp => (List.mem_filter.1 hp).1
  have hvalues : (s.run o.recording (.start s.catalog data (.empty '/') ({}, []))).2.2.map
      (·.tune.data.toList) = [Sndh.tagless] :=
    s.map_run_of_runWithin o.recording (fun ending => ending.2.2.map (·.tune.data.toList)) 12
      (by decide +kernel)
  obtain ⟨r, hr, hdata⟩ := List.mem_map.1 (hvalues ▸ List.mem_cons_self)
  obtain ⟨hrecords, hsteps⟩ := covers_of_mem_run Lha.openMember s
  obtain ⟨w, c, below, heard, found, stub, -, -, -, -, -, -, -, hcovers⟩ :=
    hrecords hplayers o data (.empty '/') {} r hr
  rw [← hcovers.data, hdata] at hcovers
  obtain ⟨values?, hmeasure, -⟩ := @hsteps Empty
    (.start data (.empty '/') ∅ 0 s.catalog) Sndh.plugin 28 ⟨100, (9, 3), ∅, []⟩
  exact ⟨hplayers, ⟨r, hr, _, hcovers⟩, values?, hmeasure⟩

end Chiptune
