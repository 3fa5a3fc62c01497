import Chiptune.Proofs.DecodeLimit
import Chiptune.Proofs.DistinctPaths
import Chiptune.Proofs.Moves

namespace Chiptune

/-!
# How large containers get

What is unpacked may be larger than its archive, and archives lie in archives. Still no container of
a scan is larger than the scanned data or the limit of unpacking, whichever is more: files of a disk
are cut out of their container, and packed data keeps the limit.

* `Entry.CutFrom` — an entry is a stretch of its container, the one that it states as its origin;
* `Scan.frame_of_moves` — where the frames of a stack come from;
* `Frame.Sized`, `Scan.sized_of_moves` — the sizes that every frame keeps;
* `Scan.sizes_within_limits` — the sizes of all containers and entries of a scan.
-/

/-! ### Sizes of entries -/

/-- Whether an entry is a stretch of the bytes of `w`, from the offset and of the size that it
    states as its origin. -/
def Entry.CutFrom (e : Entry) (w : Window) : Prop :=
  ∃ origin, e.origin = some origin ∧ origin.stop ≤ w.size
    ∧ e.data = (w.drop origin.offset).take origin.size

theorem Entry.CutFrom.size_le {e : Entry} {w : Window} (h : e.CutFrom w) :
    e.data.size ≤ w.size := by
  obtain ⟨origin, -, -, hdata⟩ := h
  rw [hdata, Window.size_take, Window.size_drop]
  omega

theorem Window.eq_of_sub? {w part : Window} {offset size : Nat}
    (h : w.sub? offset size = some part) : part = (w.drop offset).take size := by
  unfold sub? at h
  split at h
  · exact (Option.some.inj h).symm
  · cases h

theorem Window.size_ofByteArray_le (bytes : ByteArray) : (ofByteArray bytes).size ≤ bytes.size := by
  unfold ofByteArray
  split
  · exact Nat.le_refl _
  · exact Nat.zero_le _

variable {w : Window} {u : Unpacked} {limit : UInt64} {settings : Settings}

theorem Hobeta.cutFrom_of_mem (h : unpack w = .ok u) : ∀ e ∈ u.entries, e.CutFrom w := by
  obtain ⟨header, hparse, -⟩ := ok_of_bind h
  have hinside := (parse_spec hparse).2
  rw [unpack_of_parse hparse] at h
  cases h
  simp only [List.mem_singleton, forall_eq]
  exact ⟨_, rfl, hinside, rfl⟩

/-- The files of an image lie one behind the other. -/
theorem Scl.cutFrom_of_mem_entries {claims : Claims} {used : List String} {offset : Nat}
    {records : List FileRecord}
    (hend : offset + (records.map FileRecord.sectors).sum * sectorSize ≤ w.size) :
    ∀ e ∈ entries w claims used offset records, e.CutFrom w := by
  induction records generalizing claims used offset with
  | nil => exact List.forall_mem_nil _
  | cons record rest ih =>
    rw [List.map_cons, List.sum_cons, Nat.add_mul, ← Nat.add_assoc] at hend
    simp only [entries]
    split
    · exact ih hend
    · split
      · exact ih hend
      · rename_i data hdata
        refine List.forall_mem_cons.2 ⟨⟨_, rfl, ?_, Window.eq_of_sub? hdata⟩, ih hend⟩
        show offset + record.sectors * sectorSize ≤ w.size
        omega

theorem Scl.cutFrom_of_mem (h : unpack w = .ok u) : ∀ e ∈ u.entries, e.CutFrom w := by
  obtain ⟨found, hlayout, h⟩ := ok_of_bind h
  simp only at h
  split at h
  · cases h
  cases h
  have hinside := (layout_spec hlayout).2
  have hsize := (layout_iff.1 hlayout).size
  rw [foldl_size] at hsize
  exact cutFrom_of_mem_entries (by omega)

theorem Ice.size_le_of_mem (h : unpack limit w = .ok u) :
    ∀ e ∈ u.entries, e.data.size ≤ limit.toNat := by
  obtain ⟨packed, unpacked, output, -, hlimit, hdepack, rfl⟩ := unpack_iff.1 h
  simp only [List.mem_singleton, forall_eq]
  have hsize := size_depack hdepack
  have hle := Window.size_ofByteArray_le output
  omega

theorem Lha.size_le_of_mem {reader : MemberReader} (h : unpack reader limit w = .ok u) :
    ∀ e ∈ u.entries, e.data.size ≤ limit.toNat := by
  obtain ⟨-, consumed, bytes, -, hbytes, rfl⟩ := unpack_iff.1 h
  obtain ⟨member, -, -, -, -, hsize, -⟩ := unpackMember_iff.1 hbytes
  simpa using hsize

namespace Catalog

variable {reader : Lha.MemberReader} {p : Plugin}

/-- Archives of files cut their entries out of the data, and packed data keeps the limit. -/
theorem entries_of_contents? (hp : p ∈ pluginsWith reader)
    (h : p.decoder.contents? settings w = some u) :
    (p.id ∈ ["HOBETA", "SCL"] ∧ ∀ e ∈ u.entries, e.CutFrom w)
    ∨ (p.id ∈ ["ICE", "LHA"]
      ∧ ∀ e ∈ u.entries, e.data.size ≤ settings.maxDecodedSize.toNat) := by
  simp only [pluginsWith, List.mem_cons, List.not_mem_nil, or_false] at hp
  rcases hp with rfl | rfl | rfl | rfl | rfl | rfl | rfl
  · exact .inl ⟨by decide, Hobeta.cutFrom_of_mem (Decoder.contents?_eq_some.1 h)⟩
  · exact .inl ⟨by decide, Scl.cutFrom_of_mem (Decoder.contents?_eq_some.1 h)⟩
  · exact .inr ⟨by decide, Ice.size_le_of_mem (Decoder.contents?_eq_some.1 h)⟩
  · exact .inr ⟨List.mem_cons_of_mem _ List.mem_cons_self,
      Lha.size_le_of_mem (Decoder.contents?_eq_some.1 h)⟩
  · cases h
  · cases h
  · cases h

/-- No entry is larger than the data or the limit. -/
theorem size_le_of_contents? (hp : p ∈ pluginsWith reader)
    (h : p.decoder.contents? settings w = some u) {e : Entry} (he : e ∈ u.entries) :
    e.data.size ≤ max w.size settings.maxDecodedSize.toNat := by
  rcases entries_of_contents? hp h with ⟨-, hcut⟩ | ⟨-, hlimit⟩
  · exact Nat.le_trans (hcut e he).size_le (Nat.le_max_left ..)
  · exact Nat.le_trans (hlimit e he) (Nat.le_max_right ..)

end Catalog

/-! ### Sizes of frames -/

/-- Whether a frame in a scan of `data` keeps its size: the root is the data itself, and all others
    hold bytes, no more than `bound`. -/
structure Frame.Sized (data : Window) (bound : Nat) (f : Frame) : Prop where
  root : f.depth = 0 → f.data = data
  nonempty : f.depth ≠ 0 → 0 < f.data.size
  size_le : f.data.size ≤ bound

namespace Scan

variable {s : Scan} {frames next : List Frame} {f g : Frame} {data : Window} {root : TunePath}
  {bound : Nat}

/-- A frame of the next stack was there before, as far as its depth and its data go, or it is that
    of an entry of an archive that was opened. -/
theorem frame_of_moves (h : s.Moves frames next) (hg : g ∈ next) :
    (∃ f ∈ frames, g.depth = f.depth ∧ g.data = f.data)
    ∨ ∃ f ∈ frames, ∃ p ∈ s.catalog.archives, ∃ opened,
        f.open? s.settings p = some opened ∧ g ∈ s.children f opened := by
  cases h with
  | leave hdone => exact .inl ⟨g, List.mem_cons_of_mem _ hg, rfl, rfl⟩
  | @unpack f below p opened hdone hphase hopens hp hopen =>
    rcases List.mem_append.1 hg with hg | hg
    · exact .inr ⟨f, List.mem_cons_self, p, hp, opened, hopen, hg⟩
    · rcases List.mem_cons.1 hg with rfl | hg
      · exact .inl ⟨f, List.mem_cons_self, rfl, rfl⟩
      · exact .inl ⟨g, List.mem_cons_of_mem _ hg, rfl, rfl⟩
  | @keep f below hdone hphase =>
    rcases List.mem_cons.1 hg with rfl | hg
    · exact .inl ⟨f, List.mem_cons_self, rfl, rfl⟩
    · exact .inl ⟨g, List.mem_cons_of_mem _ hg, rfl, rfl⟩
  | @play f below p found claim skips hdone hphase hp hfind =>
    rcases List.mem_cons.1 hg with rfl | hg
    · exact .inl ⟨f, List.mem_cons_self, depth_advance .., data_advance ..⟩
    · exact .inl ⟨g, List.mem_cons_of_mem _ hg, rfl, rfl⟩
  | @pass f below claim skips hdone hphase =>
    rcases List.mem_cons.1 hg with rfl | hg
    · exact .inl ⟨f, List.mem_cons_self, depth_advance .., data_advance ..⟩
    · exact .inl ⟨g, List.mem_cons_of_mem _ hg, rfl, rfl⟩

/-- The frame of an entry is one deeper than its archive, and its data is that of the entry. -/
theorem exists_of_mem_children {opened : Opened} (h : g ∈ s.children f opened) :
    ∃ e ∈ opened.contents.entries, g.depth = f.depth + 1 ∧ g.data = e.data := by
  obtain ⟨e, he, rfl⟩ := List.mem_map.1 h
  exact ⟨e, (sublist_consistent _ _).subset (List.mem_of_mem_filter he), rfl, rfl⟩

/-- Every move keeps the sizes: an entry is not empty, and is no larger than what its archive was
    found in or than the limit. -/
theorem sized_of_moves {reader : Lha.MemberReader}
    (hcatalog : ∀ p ∈ s.catalog.archives, p ∈ Catalog.pluginsWith reader)
    (hlimit : s.settings.maxDecodedSize.toNat ≤ bound)
    (hsized : ∀ f ∈ frames, f.Sized data bound) (h : s.Moves frames next) :
    ∀ g ∈ next, g.Sized data bound := by
  intro g hg
  rcases frame_of_moves h hg with ⟨f, hf, hdepth, hdata⟩ | ⟨f, hf, p, hp, opened, hopen, hg⟩
  · obtain ⟨hroot, hnonempty, hsize⟩ := hsized f hf
    rw [← hdepth, ← hdata] at hroot hnonempty
    rw [← hdata] at hsize
    exact ⟨hroot, hnonempty, hsize⟩
  · obtain ⟨e, he, hdepth, hdata⟩ := exists_of_mem_children hg
    obtain ⟨rfl, -, hcontents, -, -⟩ := Frame.open?_spec hopen
    have hproper := (Catalog.proper_of_mem_pluginsWith (hcatalog _ hp)).contents _ _ _ hcontents
    have hsize := Catalog.size_le_of_contents? (hcatalog _ hp) hcontents he
    have hrest : f.rest.size ≤ bound := by
      rw [Frame.rest, Window.size_drop]
      exact Nat.le_trans (Nat.sub_le ..) (hsized f hf).size_le
    -- An entry is no root, since it is one deeper than its archive.
    refine ⟨fun hzero => ?_, fun _ => ?_, ?_⟩
    · omega
    · rw [hdata]
      exact hproper.entry_size_pos e he
    · rw [hdata]
      exact Nat.le_trans hsize (Nat.max_le.2 ⟨hrest, hlimit⟩)

theorem sized_of_reaches {reader : Lha.MemberReader}
    (hcatalog : ∀ p ∈ s.catalog.archives, p ∈ Catalog.pluginsWith reader)
    (h : s.Reaches data root frames) :
    ∀ f ∈ frames, f.Sized data (max data.size s.settings.maxDecodedSize.toNat) := by
  induction h with
  | refl =>
    intro f hf
    rw [List.mem_singleton.1 hf]
    exact ⟨fun _ => rfl, fun hdepth => absurd rfl hdepth, Nat.le_max_left ..⟩
  | tail _ hmoves ih => exact sized_of_moves hcatalog (Nat.le_max_right ..) ih hmoves

/-- The stacks of a scan are reached by moves. -/
theorem reaches_of_steps {σ : Type} {o : Observer σ} {st : σ} {w : Walk σ}
    (h : Relation.ReflTransGen (fun w w' => s.step o w = .on w')
      (.start s.catalog data root st) w) : s.Reaches data root w.stack :=
  h.lift Walk.stack fun _ _ => moves_of_step

/-- **The sizes of containers.** Take a scan with plugins of the library, with any observer, of any
    data. However its steps go, each frame on the stack is no deeper than the settings allow; but for
    the data itself it holds bytes; and it is no larger than that data or the limit of unpacking.
    The entries of `HOBETA` and `SCL` archives are stretches of their containers, at the places that
    they state, and the one entry of an `ICE` or `LHA` archive keeps the limit. -/
theorem sizes_within_limits {reader : Lha.MemberReader} (s : Scan)
    (hcatalog : ∀ p ∈ s.catalog.archives, p ∈ Catalog.pluginsWith reader) (data : Window)
    (root : TunePath) :
    (∀ {σ : Type} (o : Observer σ) (st : σ) (w : Walk σ),
      Relation.ReflTransGen (fun w w' => s.step o w = .on w')
        (.start s.catalog data root st) w →
      ∀ f ∈ w.stack, f.depth ≤ s.settings.maxDepth.toNat ∧ (f.depth = 0 → f.data = data)
        ∧ (f.depth ≠ 0 → 0 < f.data.size)
        ∧ f.data.size ≤ max data.size s.settings.maxDecodedSize.toNat)
    ∧ ∀ p ∈ s.catalog.archives, ∀ w u,
        p.decoder.contents? s.settings w = some u →
        (p.id ∈ ["HOBETA", "SCL"] ∧ ∀ e ∈ u.entries, e.CutFrom w)
        ∨ (p.id ∈ ["ICE", "LHA"]
          ∧ ∀ e ∈ u.entries, e.data.size ≤ s.settings.maxDecodedSize.toNat) := by
  refine ⟨fun o st w hsteps f hf => ?_, fun p hp w u hu => ?_⟩
  · have hreaches := reaches_of_steps hsteps
    have hsized := sized_of_reaches hcatalog hreaches f hf
    exact ⟨(within_of_reaches hreaches f hf).depth_le, hsized.root, hsized.nonempty,
      hsized.size_le⟩
  · exact Catalog.entries_of_contents? (hcatalog p hp) hu

/-- All archives of a detector for the library are plugins of the library, in whichever order. -/
theorem mem_pluginsWith_of_ofCatalog {reader : Lha.MemberReader} {settings : Settings}
    {d : Detector} (h : Detector.ofCatalog (.builtinWith reader) settings = .ok d) :
    ∀ p ∈ d.catalog.archives, p ∈ Catalog.pluginsWith reader := by
  obtain ⟨c, hreorder, rfl⟩ := Detector.exists_of_ofCatalog h
  exact fun p hp => (Catalog.perm_of_reorder hreorder).subset (List.mem_filter.1 hp).1

/-- The packed recording of 24 bytes is unpacked to 42 bytes, which are scanned first. -/
theorem sizes_in_packedRecording :
    let s : Scan := (⟨.builtin, {}⟩ : Detector).scan ⟨"a", ""⟩
    let data := Detector.packedRecording
    (∀ p ∈ s.catalog.archives, p ∈ Catalog.pluginsWith Lha.openMember)
      ∧ ∃ w : Walk Collector,
          s.step Collector.observer (.start s.catalog data (.empty '/') {}) = .on w
          ∧ w.stack.map (fun f => (f.depth, f.data.size)) = [(1, 42), (0, 24)]
          ∧ ∀ f ∈ w.stack, f.depth ≤ 16 ∧ f.data.size ≤ max data.size 16777216 := by
  intro s data
  have hcatalog : ∀ p ∈ s.catalog.archives, p ∈ Catalog.pluginsWith Lha.openMember :=
    mem_pluginsWith_of_ofCatalog Detector.ofCatalog_builtin
  have hrun : (match s.step Collector.observer (.start s.catalog data (.empty '/') {}) with
      | .on w => w.stack.map fun f => (f.depth, f.data.size)
      | .over .. => []) = [(1, 42), (0, 24)] := by
    decide +kernel
  refine ⟨hcatalog, ?_⟩
  rcases hstep : s.step Collector.observer (.start s.catalog data (.empty '/') {})
    with w | ⟨result, st⟩
  · rw [hstep] at hrun
    refine ⟨w, rfl, hrun, fun f hf => ?_⟩
    obtain ⟨hframes, -⟩ := s.sizes_within_limits hcatalog data (.empty '/')
    obtain ⟨hdepth, -, -, hsize⟩ := hframes Collector.observer {} w (.single hstep) f hf
    exact ⟨hdepth, hsize⟩
  · rw [hstep] at hrun
    cases hrun

end Scan

end Chiptune
