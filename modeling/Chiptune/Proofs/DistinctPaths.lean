import Chiptune.Proofs.ByPath
import Chiptune.Proofs.EntryNames
import Chiptune.Proofs.Refinement

namespace Chiptune

/-!
# When tunes have paths of their own

Offsets, tracks and named entries have components of their own in paths. Packed data has none: what
is inside has the path of the place where the packed data stands, and so can have a path that
something outside has too. There is no other way for two tunes to have one path.

* `Scan.Visits` — the places that a visit of all offsets comes to;
* `Scan.Clashes` — packed data in which a tune has the path of one outside;
* `Scan.nodup_paths_exhaust_iff` — paths are distinct exactly where there is no such place.
-/

/-! ### Paths of findings -/

/-- The paths of the tunes. -/
def Findings.paths (a : Findings) : List TunePath := a.records.map Record.path

@[simp] theorem Findings.paths_append (a b : Findings) : (a ++ b).paths = a.paths ++ b.paths := by
  rw [paths, records_append, List.map_append]
  rfl

theorem Findings.mem_paths {a : Findings} {path : TunePath} :
    path ∈ a.paths ↔ ∃ e ∈ a.sightings, e.record.path = path := by
  simp [paths, records]

namespace Scan

variable {s : Scan} {skips : Plugin → Bool} {p q : Place}

theorem paths_exhaustAll (s : Scan) (skips : Plugin → Bool) (frames : List Frame) :
    (s.exhaustAll skips frames).paths
      = frames.flatMap fun g => (s.exhaust skips g.place).paths := by
  unfold exhaustAll
  induction frames with
  | nil => rfl
  | cons g rest ih =>
    rw [List.map_cons, Findings.join_cons, Findings.paths_append, ih, List.flatMap_cons]

/-- The paths of the tunes inside the archive at a place. -/
def pathsInside (s : Scan) (skips : Plugin → Bool) (p : Place) : List TunePath :=
  (s.inside skips p).flatMap fun g => (s.exhaust skips g.place).paths

theorem mem_pathsInside {path : TunePath} :
    path ∈ s.pathsInside skips p
      ↔ ∃ g ∈ s.inside skips p, path ∈ (s.exhaust skips g.place).paths :=
  List.mem_flatMap

theorem paths_exhaust (h : p.offset < p.data.size) :
    (s.exhaust skips p).paths
      = s.pathsInside skips p ++ (s.here skips p).paths
        ++ (s.exhaust skips (s.nextPlace skips p)).paths := by
  rw [exhaust_of_lt_size h, Findings.paths_append, Findings.paths_append, Findings.paths_append,
    paths_exhaustAll]
  rfl

/-! ### Places and clashes -/

/-- Whether a visit of all offsets from one place on comes to another, in the same container or in
    one inside of it. -/
inductive Visits (s : Scan) (skips : Plugin → Bool) : Place → Place → Prop where
  | here {p : Place} : p.offset < p.data.size → Visits s skips p p
  | inside {p q : Place} {g : Frame} : p.offset < p.data.size → g ∈ s.inside skips p →
      Visits s skips g.place q → Visits s skips p q
  | later {p q : Place} : p.offset < p.data.size → Visits s skips (s.nextPlace skips p) q →
      Visits s skips p q

/-- Whether something in an entry without a name, which has the path of its place, has the path of
    something outside: of a tune at the same place or, when the place is the start of its container,
    of anything further on in the container. -/
def Clashes (s : Scan) (skips : Plugin → Bool) (p : Place) : Prop :=
  ∃ g ∈ s.inside skips p, g.path = p.frame.located ∧
    ∃ path ∈ (s.exhaust skips g.place).paths,
      path ∈ (s.here skips p).paths
        ∨ p.offset = 0 ∧ path ∈ (s.exhaust skips (s.nextPlace skips p)).paths

/-- Where all paths are distinct, no place clashes. -/
theorem not_clashes_of_visits (hvisits : s.Visits skips p q)
    (hnodup : (s.exhaust skips p).paths.Nodup) : ¬s.Clashes skips q := by
  induction hvisits with
  | here hlt =>
    rintro ⟨g, hg, -, path, hpath, houtside⟩
    rw [paths_exhaust hlt, List.nodup_append, List.nodup_append] at hnodup
    obtain ⟨⟨-, -, hhere⟩, -, hlater⟩ := hnodup
    have hinside := mem_pathsInside.2 ⟨g, hg, hpath⟩
    rcases houtside with hpath' | ⟨-, hpath'⟩
    · exact hhere path hinside path hpath' rfl
    · exact hlater path (List.mem_append_left _ hinside) path hpath' rfl
  | inside hlt hg _ ih =>
    apply ih
    rw [paths_exhaust hlt, List.nodup_append, List.nodup_append] at hnodup
    exact (List.pairwise_flatMap.1 hnodup.1.1).1 _ hg
  | later hlt _ ih =>
    apply ih
    rw [paths_exhaust hlt, List.nodup_append] at hnodup
    exact hnodup.2.1

/-! ### Components of their own -/

theorem located_of_eq_zero (h : p.offset = 0) : p.frame.located = p.path := by
  have hoffset : p.frame.offset = 0 := h
  rw [Frame.located, if_pos hoffset]
  rfl

theorem located_of_ne_zero (hsep : p.path.separator = '/') (h : p.offset ≠ 0) :
    p.frame.located = p.path.child s!"+{p.offset}" := by
  have hoffset : ¬p.frame.offset = 0 := h
  have hcomponent : TunePath.IsComponent p.frame.path.separator s!"+{p.frame.offset}" := by
    have hsep : p.frame.path.separator = '/' := hsep
    rw [hsep]
    exact isComponent_offset p.offset
  rw [Frame.located, if_neg hoffset, TunePath.append_of_isComponent hcomponent]
  rfl

theorem separator_located (hsep : p.path.separator = '/') :
    p.frame.located.separator = '/' :=
  (leadsTo_located p.frame).separator_eq.trans hsep

/-- The paths of tunes at a place, in their order. -/
theorem paths_records (s : Scan) (f : Frame) (found : Found) :
    (s.records f found).map Record.path
      = (List.range found.tunes.tracks.length).map (tunePath f found) := by
  apply List.ext_getElem (by simp [records])
  intro i hi hi'
  simp [records]

theorem sublist_paths_here {found : Found} (h : s.tunesAt skips p.frame = some found) :
    (s.here skips p).paths.Sublist
      ((List.range found.tunes.tracks.length).map (tunePath p.frame found)) := by
  have hhere : s.here skips p = s.sightings p.frame found := by rw [here, h]; rfl
  have hpaths : (s.sightings p.frame found).paths
      = ((s.records p.frame found).filter fun r => s.wants r.path).map Record.path := by
    simp [Findings.paths, Findings.records, sightings, wanted, Function.comp_def]
  rw [hhere, hpaths, ← paths_records s p.frame found]
  exact List.filter_sublist.map Record.path

/-- The tunes at a place have its path, or a number each behind it. -/
theorem paths_here_spec (hsep : p.path.separator = '/') :
    (s.here skips p).paths.Nodup ∧ ∀ path ∈ (s.here skips p).paths,
      path = p.frame.located ∨ ∃ n : Nat, path = p.frame.located.child s!"#{n}" := by
  cases htunes : s.tunesAt skips p.frame with
  | none =>
    have hhere : s.here skips p = ∅ := by rw [here, htunes]; rfl
    rw [hhere]
    exact ⟨List.nodup_nil, List.forall_mem_nil _⟩
  | some found =>
    have hsub := sublist_paths_here htunes
    by_cases hmulti : found.isMultitrack = true
    · have htrack : ∀ index, tunePath p.frame found index
          = p.frame.located.child s!"#{index + 1}" := by
        intro index
        have hcomponent : TunePath.IsComponent p.frame.located.separator s!"#{index + 1}" := by
          rw [separator_located hsep]
          exact isComponent_track (index + 1)
        rw [tunePath, if_pos hmulti, TunePath.append_of_isComponent hcomponent]
      have hnodup :
          ((List.range found.tunes.tracks.length).map (tunePath p.frame found)).Nodup := by
        refine List.pairwise_map.2 (List.nodup_range.imp ?_)
        intro i j hne heq
        rw [htrack, htrack] at heq
        have hnumber := numbered_inj "#" (TunePath.child_inj heq)
        omega
      refine ⟨hsub.nodup hnodup, fun path hpath => ?_⟩
      obtain ⟨index, -, rfl⟩ := List.mem_map.1 (hsub.mem hpath)
      exact .inr ⟨index + 1, htrack index⟩
    · have htrack : ∀ index, tunePath p.frame found index = p.frame.located := by
        intro index
        rw [tunePath, if_neg hmulti]
      have hsingle : found.tunes.tracks.length ≤ 1 := by
        simpa [Found.isMultitrack] using hmulti
      have hnodup :
          ((List.range found.tunes.tracks.length).map (tunePath p.frame found)).Nodup := by
        -- There is one position at most.
        apply List.pairwise_iff_getElem.2
        intro i j hi hj hij
        rw [List.length_map, List.length_range] at hi hj
        omega
      refine ⟨hsub.nodup hnodup, fun path hpath => ?_⟩
      obtain ⟨index, -, rfl⟩ := List.mem_map.1 (hsub.mem hpath)
      exact .inl (htrack index)

/-! ### Entries -/

theorem sublist_consistent (origins : Claims) (entries : List Entry) :
    (consistent origins entries).Sublist entries := by
  induction entries generalizing origins with
  | nil => exact List.Sublist.refl _
  | cons entry rest ih =>
    unfold consistent
    split
    · exact (ih origins).cons entry
    · split
      · split
        · exact (ih _).cons_cons entry
        · exact (ih origins).cons entry
      · exact (ih origins).cons_cons entry

/-- The frames for entries, of which some may be left out. -/
theorem children_eq_map (s : Scan) (f : Frame) (opened : Opened) :
    ∃ kept : List Entry, kept.Sublist opened.contents.entries
      ∧ (s.children f opened).map Frame.path = kept.map (entryPath f) := by
  refine ⟨(consistent (.empty .shared f.rest.size) opened.contents.entries).filter
    fun entry => s.mayHold (entryPath f entry), ?_, ?_⟩
  · exact List.filter_sublist.trans (sublist_consistent _ _)
  · rw [children, List.map_map]
    rfl

/-- An entry whose name can be a component has a path of one component more. -/
theorem map_entryPath {f : Frame} {entries : List Entry} {names : List String}
    (hnames : entries.map Entry.name = names.map some)
    (hcomponents : ∀ name ∈ names, TunePath.IsComponent f.located.separator name) :
    entries.map (entryPath f) = names.map f.located.child := by
  -- The path of an entry depends on nothing but its name.
  have hentry : entryPath f
      = (fun name => name.elim f.located f.located.append) ∘ Entry.name := by
    funext entry
    unfold entryPath
    cases h : entry.name <;> simp [h]
  rw [hentry, ← List.map_map, hnames, List.map_map]
  exact List.map_congr_left fun name h => TunePath.append_of_isComponent (hcomponents name h)

/-- What is inside an archive has the path of the place, and is the only entry, or all entries have
    components of their own. -/
theorem paths_inside_spec (skips : Plugin → Bool) (hnamed : s.catalog.NamesEntries)
    (hsep : p.path.separator = '/') :
    ((s.inside skips p).length ≤ 1 ∧ ∀ g ∈ s.inside skips p, g.path = p.frame.located)
    ∨ ∃ names : List String, (s.inside skips p).map Frame.path = names.map p.frame.located.child
      ∧ names.Nodup ∧ ∀ name ∈ names, IsFileName name := by
  cases harchive : s.archiveAt skips p.frame with
  | none =>
    have hinside : s.inside skips p = [] := by rw [inside, harchive]; rfl
    rw [hinside]
    exact .inl ⟨Nat.zero_le 1, List.forall_mem_nil _⟩
  | some opened =>
    have hinside : s.inside skips p = s.children p.frame opened := by rw [inside, harchive]; rfl
    obtain ⟨kept, hsub, hpaths⟩ := s.children_eq_map p.frame opened
    rw [hinside]
    obtain ⟨hplugin, -, hcontents, -⟩ := archiveAt_spec harchive
    have hmem : opened.plugin ∈ s.catalog.plugins := (List.mem_filter.1 hplugin).1
    cases hnamed _ hmem _ _ _ hcontents with
    | packed entry hentries hname =>
      rw [hentries] at hsub
      refine .inl ⟨?_, fun g hg => ?_⟩
      · have hlength := congrArg List.length hpaths
        rw [List.length_map, List.length_map] at hlength
        rw [hlength]
        exact hsub.length_le
      · have hpath : g.path ∈ kept.map (entryPath p.frame) := by
          rw [← hpaths]
          exact List.mem_map_of_mem hg
        obtain ⟨entry', hentry', heq⟩ := List.mem_map.1 hpath
        rw [← heq, List.mem_singleton.1 (hsub.mem hentry'), entryPath, hname]
    | files names hnames hnodup hgood =>
      have hkept := hsub.map Entry.name
      rw [hnames] at hkept
      obtain ⟨names', hnames', heq⟩ := List.sublist_map_iff.1 hkept
      refine .inr ⟨names', ?_, hnames'.nodup hnodup, fun name h => hgood name (hnames'.mem h)⟩
      rw [hpaths]
      refine map_entryPath heq fun name h => ?_
      rw [separator_located hsep]
      exact (hgood name (hnames'.mem h)).component

/-- A container inside an archive has the path of the place, or a file name behind it. -/
theorem located_or_child_of_mem_inside (hnamed : s.catalog.NamesEntries)
    (hsep : p.path.separator = '/') {g : Frame} (hg : g ∈ s.inside skips p) :
    g.path = p.frame.located
      ∨ ∃ name, IsFileName name ∧ g.path = p.frame.located.child name := by
  rcases paths_inside_spec skips hnamed hsep with ⟨-, hpacked⟩ | ⟨names, hpaths, -, hgood⟩
  · exact .inl (hpacked g hg)
  · have hmem : g.path ∈ names.map p.frame.located.child := by
      rw [← hpaths]
      exact List.mem_map_of_mem hg
    obtain ⟨name, hname, hpath⟩ := List.mem_map.1 hmem
    exact .inr ⟨name, hgood name hname, hpath.symm⟩

/-! ### Paths from a place on -/

theorem leadsTo_of_mem_inside {g : Frame} (h : g ∈ s.inside skips p) :
    p.frame.located.LeadsTo g.path := by
  unfold inside at h
  cases harchive : s.archiveAt skips p.frame with
  | none =>
    rw [harchive] at h
    cases h
  | some opened =>
    rw [harchive] at h
    exact leadsTo_of_mem_children h

theorem leadsTo_of_mem_here {path : TunePath} (h : path ∈ (s.here skips p).paths) :
    p.frame.located.LeadsTo path := by
  obtain ⟨e, he, rfl⟩ := Findings.mem_paths.1 h
  unfold here at he
  cases htunes : s.tunesAt skips p.frame with
  | none =>
    rw [htunes] at he
    cases he
  | some found =>
    rw [htunes] at he
    exact leadsTo_of_mem_wanted he

/-- Everything from a place on lies at an offset of the container. -/
theorem exists_offset_of_mem_paths {path : TunePath} (h : path ∈ (s.exhaust skips p).paths) :
    ∃ k, p.offset ≤ k ∧ (p.withOffset k).frame.located.LeadsTo path := by
  induction p using Scan.exhaust.induct s skips with
  | case1 p hdone =>
    rw [exhaust_of_size_le hdone] at h
    cases h
  | case2 p hlt ihinside ihlater =>
    rw [paths_exhaust (Nat.lt_of_not_le hlt)] at h
    rcases List.mem_append.1 h with h | h
    · refine ⟨p.offset, Nat.le_refl _, ?_⟩
      show p.frame.located.LeadsTo path
      rcases List.mem_append.1 h with h | h
      · obtain ⟨g, hg, hpath⟩ := mem_pathsInside.1 h
        obtain ⟨k, -, hleads⟩ := ihinside ⟨g, hg⟩ hpath
        have hg := leadsTo_of_mem_inside hg
        exact hg.trans ((leadsTo_located (g.place.withOffset k).frame).trans hleads)
      · exact leadsTo_of_mem_here h
    · -- The next place is further on in the same container.
      obtain ⟨k, hk, hleads⟩ := ihlater h
      have hnext := Place.lt_offset_behind (Nat.lt_of_not_le hlt) s
        (max (s.archiveClaim skips p) (s.tuneClaim skips p))
      refine ⟨k, ?_, hleads⟩
      have hk : (p.behind s (max (s.archiveClaim skips p) (s.tuneClaim skips p))).offset ≤ k := hk
      omega

/-- Everything in a container has the path of the container or lies inside of it. -/
theorem leadsTo_of_mem_paths {path : TunePath} (h : path ∈ (s.exhaust skips p).paths) :
    p.path.LeadsTo path := by
  obtain ⟨k, -, hleads⟩ := exists_offset_of_mem_paths h
  exact (leadsTo_located (p.withOffset k).frame).trans hleads

/-- Everything behind a place lies behind the component of a greater offset. -/
theorem exists_child_of_mem_later (hsep : p.path.separator = '/') (hlt : p.offset < p.data.size)
    {path : TunePath} (h : path ∈ (s.exhaust skips (s.nextPlace skips p)).paths) :
    ∃ k, p.offset < k ∧ (p.path.child s!"+{k}").LeadsTo path := by
  obtain ⟨k, hk, hleads⟩ := exists_offset_of_mem_paths h
  have hnext := Place.lt_offset_behind hlt s
    (max (s.archiveClaim skips p) (s.tuneClaim skips p))
  have hk : (p.behind s (max (s.archiveClaim skips p) (s.tuneClaim skips p))).offset ≤ k := hk
  have hpositive : (p.withOffset k).offset ≠ 0 := by
    show k ≠ 0
    omega
  refine ⟨k, by omega, ?_⟩
  have hlocated : (p.withOffset k).frame.located = p.path.child s!"+{k}" :=
    located_of_ne_zero hsep hpositive
  rw [← hlocated]
  exact hleads

/-! ### Distinct paths -/

/-- The entries of an archive have nothing in common. -/
theorem nodup_pathsInside (hnamed : s.catalog.NamesEntries) (hsep : p.path.separator = '/')
    (h : ∀ g ∈ s.inside skips p, (s.exhaust skips g.place).paths.Nodup) :
    (s.pathsInside skips p).Nodup := by
  refine List.pairwise_flatMap.2 ⟨h, ?_⟩
  have hapart : (s.inside skips p).Pairwise fun g g' =>
      ∀ path, g.path.LeadsTo path → ¬g'.path.LeadsTo path := by
    rcases paths_inside_spec skips hnamed hsep with ⟨hsingle, -⟩ | ⟨names, hpaths, hnodup, -⟩
    · apply List.pairwise_iff_getElem.2
      intro i j hi hj hij
      omega
    · -- Different names make different components, whatever stands behind them.
      have hchildren : (names.map p.frame.located.child).Pairwise
          fun a b => ∀ path, a.LeadsTo path → ¬b.LeadsTo path := by
        refine List.pairwise_map.2 (hnodup.imp ?_)
        intro name name' hne path hpath hpath'
        exact hne (TunePath.child_inj_of_leadsTo hpath hpath')
      rw [← hpaths] at hchildren
      exact List.pairwise_map.1 hchildren
  apply hapart.imp
  intro g g' hdisjoint path hpath path' hpath' heq
  rw [← heq] at hpath'
  exact hdisjoint path (leadsTo_of_mem_paths hpath) (leadsTo_of_mem_paths hpath')

/-- What is inside an archive has other paths than the tunes at the same place, unless these
    clash. -/
theorem ne_of_mem_pathsInside_of_mem_here (hnamed : s.catalog.NamesEntries)
    (hsep : p.path.separator = '/') (hclash : ¬s.Clashes skips p) {path path' : TunePath}
    (h : path ∈ s.pathsInside skips p) (h' : path' ∈ (s.here skips p).paths) : path ≠ path' := by
  rintro rfl
  obtain ⟨g, hg, hpath⟩ := mem_pathsInside.1 h
  rcases located_or_child_of_mem_inside hnamed hsep hg with hpacked | ⟨name, hname, hchild⟩
  · exact hclash ⟨g, hg, hpacked, path, hpath, .inl h'⟩
  · have hleads : (p.frame.located.child name).LeadsTo path := by
      rw [← hchild]
      exact leadsTo_of_mem_paths hpath
    rcases (paths_here_spec hsep).2 path h' with rfl | ⟨n, rfl⟩
    · exact TunePath.not_child_leadsTo _ name hleads
    · exact hname.ne_track n (TunePath.child_inj_of_leadsTo hleads (.refl _))

/-- What is at a place has other paths than everything behind it, unless these clash. -/
theorem ne_of_mem_of_mem_later (hnamed : s.catalog.NamesEntries) (hsep : p.path.separator = '/')
    (hlt : p.offset < p.data.size) (hclash : ¬s.Clashes skips p) {path path' : TunePath}
    (h : path ∈ s.pathsInside skips p ++ (s.here skips p).paths)
    (h' : path' ∈ (s.exhaust skips (s.nextPlace skips p)).paths) : path ≠ path' := by
  rintro rfl
  obtain ⟨k, hk, hlater⟩ := exists_child_of_mem_later hsep hlt h'
  by_cases hzero : p.offset = 0
  · -- At the start the path is that of the container, so components behind it are compared.
    have hlocated := located_of_eq_zero hzero
    rcases List.mem_append.1 h with h | h
    · obtain ⟨g, hg, hpath⟩ := mem_pathsInside.1 h
      rcases located_or_child_of_mem_inside hnamed hsep hg with hpacked | ⟨name, hname, hchild⟩
      · exact hclash ⟨g, hg, hpacked, path, hpath, .inr ⟨hzero, h'⟩⟩
      · have hleads : (p.path.child name).LeadsTo path := by
          rw [← hlocated, ← hchild]
          exact leadsTo_of_mem_paths hpath
        exact hname.ne_offset k (TunePath.child_inj_of_leadsTo hleads hlater)
    · rcases (paths_here_spec hsep).2 path h with rfl | ⟨n, rfl⟩
      · rw [hlocated] at hlater
        exact TunePath.not_child_leadsTo _ _ hlater
      · rw [hlocated] at hlater
        exact track_ne_offset n k (TunePath.child_inj_of_leadsTo (.refl _) hlater)
  · -- Elsewhere the component of the offset tells them apart.
    have hleads : p.frame.located.LeadsTo path := by
      rcases List.mem_append.1 h with h | h
      · obtain ⟨g, hg, hpath⟩ := mem_pathsInside.1 h
        exact (leadsTo_of_mem_inside hg).trans (leadsTo_of_mem_paths hpath)
      · exact leadsTo_of_mem_here h
    rw [located_of_ne_zero hsep hzero] at hleads
    have hsame := numbered_inj "+" (TunePath.child_inj_of_leadsTo hleads hlater)
    omega

/-- **When paths are distinct.** Where entries have names of their own, the tunes from a place on
    have distinct paths exactly when no place on the way clashes. -/
theorem nodup_paths_exhaust_iff (hnamed : s.catalog.NamesEntries) (hsep : p.path.separator = '/') :
    (s.exhaust skips p).paths.Nodup ↔ ∀ q, s.Visits skips p q → ¬s.Clashes skips q := by
  constructor
  · intro hnodup q hvisits
    exact not_clashes_of_visits hvisits hnodup
  · intro h
    -- The paths at a place come in three parts, and no two of them share a path.
    induction p using Scan.exhaust.induct s skips with
    | case1 p hdone =>
      rw [exhaust_of_size_le hdone]
      exact List.nodup_nil
    | case2 p hlt ihinside ihlater =>
      have hlt := Nat.lt_of_not_le hlt
      have hclash := h p (.here hlt)
      have hinside : (s.pathsInside skips p).Nodup := by
        apply nodup_pathsInside hnamed hsep
        intro g hg
        refine ihinside ⟨g, hg⟩ ?_ fun q hq => h q (.inside hlt hg hq)
        exact (leadsTo_of_mem_inside hg).separator_eq.trans (separator_located hsep)
      rw [paths_exhaust hlt, List.nodup_append, List.nodup_append]
      refine ⟨⟨hinside, (paths_here_spec hsep).1, fun path hpath path' hpath' => ?_⟩,
        ihlater hsep fun q hq => h q (.later hlt hq), fun path hpath path' hpath' => ?_⟩
      · exact ne_of_mem_pathsInside_of_mem_here hnamed hsep hclash hpath hpath'
      · exact ne_of_mem_of_mem_later hnamed hsep hlt hclash hpath hpath'

end Scan

/-! ### Detectors -/

namespace Detector

/-- The detector with all plugins of the library and the usual settings. -/
def builtin : Detector := ⟨.builtin, {}⟩

theorem ofCatalog_builtin : ofCatalog .builtin {} = .ok builtin := rfl

/-- **Paths of a scan.** With the plugins of the library and the usual settings, the tunes of a scan
    have distinct paths exactly when no place that a visit of all offsets comes to holds packed data
    in which a tune has the path of one outside. So they are distinct where nothing is packed, that
    is, where all entries have names. -/
theorem nodup_paths_reported_iff (reader : Lha.MemberReader) (location : String) (data : Window) :
    let d : Detector := ⟨.builtinWith reader, {}⟩
    let s := d.scan (.parse location)
    let root := (d.start (.parse location) data).place
    (((d.reported location data).map Record.path).Nodup
        ↔ ∀ p, s.Visits (fun _ => false) root p → ¬s.Clashes (fun _ => false) p)
      ∧ ((∀ p, s.Visits (fun _ => false) root p →
          ∀ g ∈ s.inside (fun _ => false) p, g.path ≠ p.frame.located) →
        ((d.reported location data).map Record.path).Nodup) := by
  intro d s root
  have hreported : (d.reported location data).map Record.path
      = (s.exhaust (fun _ => false) root).paths := by
    rw [d.reported_eq_course location data,
      d.course_start (Catalog.checksSignature_builtinWith reader)]
    rfl
  have hiff : (s.exhaust (fun _ => false) root).paths.Nodup
      ↔ ∀ p, s.Visits (fun _ => false) root p → ¬s.Clashes (fun _ => false) p :=
    Scan.nodup_paths_exhaust_iff (Catalog.namesEntries_builtinWith reader) rfl
  rw [hreported]
  refine ⟨hiff, fun hnamed => hiff.2 fun p hvisits => ?_⟩
  rintro ⟨g, hg, hpacked, -⟩
  exact hnamed p hvisits g hg hpacked

/-- Packed data of 24 bytes with a recording behind it. It unpacks to 24 other bytes with the same
    recording behind them. -/
def recordedTwice : Window :=
  .ofByteArray ⟨#[
    0x49, 0x43, 0x45, 0x21, 0x00, 0x00, 0x00, 0x18, 0x00, 0x00, 0x00, 0x2a,
    0x40, 0x07, 0x59, 0x4d, 0x32, 0x21, 0xde, 0x81, 0x03, 0x00, 0xbc, 0x80,
    0x59, 0x4d, 0x32, 0x21, 0x00, 0x00, 0x00, 0x00, 0x00, 0x00, 0x00, 0x00,
    0x00, 0x00, 0x00, 0x00, 0x00, 0x00]⟩

/-- Both recordings have the offset 24 and nothing else in their paths. -/
theorem paths_recordedTwice :
    (builtin.reported "a" recordedTwice).map Record.path = [⟨["+24"], '/'⟩, ⟨["+24"], '/'⟩] := by
  have hparse : Location.parse "a" = ⟨"a", ""⟩ := by decide
  exact builtin.map_detect_of_runWithin hparse Collector.observer
    (fun ending => ending.2.records.toList.map Record.path) 12 (by decide +kernel)

/-- So the paths of a scan are not always distinct. -/
theorem not_nodup_paths_recordedTwice :
    ¬((builtin.reported "a" recordedTwice).map Record.path).Nodup := by
  rw [paths_recordedTwice]
  decide

end Detector

end Chiptune
