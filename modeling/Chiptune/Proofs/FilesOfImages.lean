import Chiptune.Proofs.DiskImages
import Chiptune.Proofs.DistinctPaths
import Chiptune.Proofs.Nesting

namespace Chiptune

/-!
# The files of an image as frames

Files of one disk can have the same name, but their entries do not, and a scan goes into each of
them.

* `Scl.numbered_ne_fileName` — a name with a number behind it is no name of a file;
* `Scl.Renames` — names that were made unique, with no number where none is needed;
* `Scl.consistent_placed` — files that stand one behind the other do not overlap;
* `Scl.frames_of_files` — the entries of an image and their frames.
-/

theorem Frame.rest_start (data : Window) (path : TunePath) (properties : Properties) (depth : Nat)
    (catalog : Catalog) : (start data path properties depth catalog).rest = data :=
  Window.drop_zero data

namespace Scl

/-! ### Names with numbers -/

section

variable {used bases : List String} {base : String}

/-- A name that is not used stays as it is. -/
theorem uniqueName_of_not_mem (h : base ∉ used) : uniqueName used base = base := by
  rw [uniqueName_eq, candidates, List.find?_cons_of_pos (by simpa using h), Option.getD_some]

theorem uniqueName_eq_or (used : List String) (base : String) :
    uniqueName used base = base
      ∨ ∃ k, 2 ≤ k ∧ uniqueName used base = base ++ "~" ++ toString k := by
  obtain ⟨name, hfind⟩ := exists_find?_candidates used base
  rw [uniqueName_eq, hfind, Option.getD_some]
  rcases List.mem_cons.1 (List.mem_of_find?_eq_some hfind) with hname | hname
  · exact .inl hname
  · obtain ⟨i, -, hname⟩ := List.mem_map.1 hname
    exact .inr ⟨i + 2, Nat.le_add_left .., hname.symm⟩

/-- In the name of a file the last character but one is a dot. -/
theorem getLast?_dropLast_fileName (r : FileRecord) :
    r.fileName.toList.dropLast.getLast? = some '.' := by
  rw [FileRecord.fileName, trdosName, String.toList_ofList,
    List.dropLast_append_of_ne_nil (List.cons_ne_nil _ _)]
  exact List.getLast?_concat

theorem numbered_ne_fileName (text : String) (k : Nat) (r : FileRecord) :
    text ++ "~" ++ toString k ≠ r.fileName := by
  intro h
  have hdot := getLast?_dropLast_fileName r
  have hdigits : (toString k).toList ≠ [] := by
    rw [Nat.toString_eq_repr, Nat.toList_repr]
    exact Nat.toDigits_ne_nil
  have htilde : "~".toList = ['~'] := by decide
  rw [← h, String.append_assoc, String.toList_append, String.toList_append, htilde,
    List.singleton_append, List.dropLast_append_of_ne_nil (List.cons_ne_nil _ _),
    List.dropLast_cons_of_ne_nil hdigits,
    List.getLast?_append_of_ne_nil _ (List.cons_ne_nil _ _)] at hdot
  -- Behind the mark there are only digits, and one of them was dropped.
  rcases List.mem_cons.1 (List.mem_of_getLast? hdot) with hmark | hdigit
  · exact absurd hmark (by decide)
  · exact absurd (isDigit_of_mem_toString (List.dropLast_subset _ hdigit)) (by decide)

/-! ### Names made unique -/

/-- Whether names come from file names as follows: no two are the same, each is its file name or has
    a number from two on behind it, and the first one from a file name is this name itself. A loop
    that looks for a new name finds it, and it ends. -/
structure Renames (bases names : List String) : Prop where
  nodup : names.Nodup
  forall₂ : List.Forall₂
    (fun base name => name = base ∨ ∃ k, 2 ≤ k ∧ name = base ++ "~" ++ toString k) bases names
  first : ∀ i base, bases[i]? = some base → base ∉ bases.take i → names[i]? = some base
  loop : ∀ i base name, bases[i]? = some base → names[i]? = some name →
    Steps.newName (names.take i).reverse base base 1 = pure name

theorem forall₂_distinctNames (used bases : List String) :
    List.Forall₂ (fun base name => name = base ∨ ∃ k, 2 ≤ k ∧ name = base ++ "~" ++ toString k)
      bases (distinctNames used bases) := by
  induction bases generalizing used with
  | nil => exact .nil
  | cons base rest ih => exact .cons (uniqueName_eq_or used base) (ih _)

/-- A file name that neither was used nor came before stays as it is: a number behind another name
    never gives a file name. -/
theorem getElem?_distinctNames_of_not_mem {r : FileRecord} {i : Nat} (hused : r.fileName ∉ used)
    (hbase : bases[i]? = some r.fileName) (hbefore : r.fileName ∉ bases.take i) :
    (distinctNames used bases)[i]? = some r.fileName := by
  induction bases generalizing used i with
  | nil => cases hbase
  | cons base rest ih =>
    cases i with
    | zero =>
      obtain rfl : base = r.fileName := Option.some.inj hbase
      exact congrArg some (uniqueName_of_not_mem hused)
    | succ i =>
      rw [List.take_succ_cons, List.mem_cons, not_or] at hbefore
      have hnew : r.fileName ≠ uniqueName used base := by
        intro hsame
        rcases uniqueName_eq_or used base with hname | ⟨k, -, hname⟩
        · exact hbefore.1 (hsame.trans hname)
        · exact numbered_ne_fileName base k r (hname.symm.trans hsame.symm)
      exact ih (List.not_mem_cons_of_ne_of_not_mem hnew hused) hbase hbefore.2

theorem newName_distinctNames {name : String} {i : Nat}
    (hlength : used.length + bases.length < 0x7fffffff) (hbase : bases[i]? = some base)
    (hname : (distinctNames used bases)[i]? = some name) :
    Steps.newName (((distinctNames used bases).take i).reverse ++ used) base base 1 = pure name := by
  induction bases generalizing used i with
  | nil => cases hbase
  | cons first rest ih =>
    rw [List.length_cons] at hlength
    cases i with
    | zero =>
      obtain rfl := Option.some.inj hbase
      obtain rfl := Option.some.inj hname
      show Steps.newName used first first 1 = pure (uniqueName used first)
      exact Steps.newName_eq first (by omega)
    | succ i =>
      have hnext : (uniqueName used first :: used).length + rest.length < 0x7fffffff := by
        rw [List.length_cons]
        omega
      have hrest := ih hnext hbase hname
      rwa [distinctNames, List.take_succ_cons, List.reverse_cons, List.append_assoc]

/-- The file names of an image are made unique. A record is counted by a byte, so the loop never
    comes to a number that is too large. -/
theorem renames_distinctNames {records : List FileRecord} (hle : records.length ≤ 255)
    (hnodup : (distinctNames [] (records.map FileRecord.fileName)).Nodup) :
    Renames (records.map FileRecord.fileName)
      (distinctNames [] (records.map FileRecord.fileName)) where
  nodup := hnodup
  forall₂ := forall₂_distinctNames [] _
  first := by
    intro i base hbase hfirst
    obtain ⟨r, -, rfl⟩ := List.mem_map.1 (List.mem_of_getElem? hbase)
    exact getElem?_distinctNames_of_not_mem List.not_mem_nil hbase hfirst
  loop := by
    intro i base name hbase hname
    have hfew : ([] : List String).length + (records.map FileRecord.fileName).length
        < 0x7fffffff := by
      rw [List.length_nil, List.length_map]
      omega
    have hloop := newName_distinctNames hfew hbase hname
    rwa [List.append_nil] at hloop

end

/-! ### Regions one behind the other -/

/-- No file overlaps one before it, and all of them have bytes. -/
theorem consistent_placed {w : Window} {c : Claims} {held : List Region} {used : List String}
    {offset : Nat} {records : List FileRecord} (h : Claims.Records .shared w.size c held)
    (hheld : ∀ s ∈ held, s.stop ≤ offset) (hinside : offset + sectorBytes records ≤ w.size)
    (hrecords : ∀ r ∈ records, r.sectors ≠ 0) :
    consistent c (placed w used offset records) = placed w used offset records := by
  induction records generalizing c held used offset with
  | nil => rfl
  | cons r rest ih =>
    obtain ⟨hr, hrest⟩ := List.forall_mem_cons.1 hrecords
    rw [sectorBytes_cons] at hinside
    have hsize : r.size ≠ 0 := by simp [FileRecord.size, hr, sectorSize]
    have hword : offset + r.size < UInt64.size := Nat.lt_of_le_of_lt (by omega) w.size_lt_word
    have hdata : ((w.drop offset).take r.size).isEmpty = false := by
      rw [Window.isEmpty, Window.size_take, Window.size_drop, beq_eq_false_iff_ne]
      omega
    -- All regions that are held end before this one begins.
    have hapart : ∀ s ∈ held, (⟨offset, r.size⟩ : Region).Apart s := by
      intro s hs
      have hne := h.ordered.nonempty s ((h.mem_regions (by decide)).2 hs)
      exact (Region.apart_iff hsize hne).2 (.inr (hheld s hs))
    obtain ⟨claims, hadd, hnext⟩ := h.exists_grant (r := ⟨offset, r.size⟩) (by decide) hsize hword
      (show offset + r.size ≤ w.size by omega) hapart
    have hheld' : ∀ s ∈ held ++ [⟨offset, r.size⟩], s.stop ≤ offset + r.size := by
      intro s hs
      rcases List.mem_append.1 hs with hs | hs
      · exact Nat.le_trans (hheld s hs) (Nat.le_add_right ..)
      · rw [List.mem_singleton.1 hs]
        exact Nat.le_refl _
    rw [placed, consistent, hdata]
    simp only [Bool.false_eq_true, if_false, hadd]
    rw [ih hnext hheld' (by omega) hrest]

/-- All files of a valid image are kept when it is opened. -/
theorem consistent_of_layout {w : Window} {found : Layout} (h : layout w = .ok found) :
    consistent (.empty .shared w.size) (placed w [] found.dataStart (occupied found.records))
      = placed w [] found.dataStart (occupied found.records) := by
  refine consistent_placed (Claims.records_empty .shared w.size) (List.forall_mem_nil _) ?_
    fun r hr => by simpa using (List.mem_filter.1 hr).2
  rw [sectorBytes_occupied]
  exact Nat.le_trans (dataStart_add_sectorBytes_le h) (layout_spec h).2

/-! ### Files and frames -/

/-- **The files of an image.** The entries of every image that is unpacked have names that come from
    the names of the files with sectors as `Renames` says. When an image is opened while all is
    wanted, and paths have their usual separator, all entries are kept: they become frames in their
    order, whose paths are those of the image with one component more, the name of the entry, and
    differ from each other. -/
theorem frames_of_files {w : Window} {u : Unpacked} (h : unpack w = .ok u) :
    ∃ found names, layout w = .ok found ∧ u.entries.map Entry.name = names.map some
      ∧ Renames ((found.records.filter (·.sectors ≠ 0)).map FileRecord.fileName) names
      ∧ ∀ (s : Scan) (f : Frame) (opened : Opened), s.target = none → f.path.separator = '/' →
        f.rest = w → opened.contents = u →
        consistent (.empty .shared f.rest.size) u.entries = u.entries
          ∧ s.children f opened = u.entries.map (fun entry => .start entry.data
              (Scan.entryPath f entry) (Scan.inherited f opened) (f.depth + 1) s.catalog)
          ∧ (s.children f opened).map Frame.path = names.map f.located.child
          ∧ ((s.children f opened).map Frame.path).Nodup := by
  obtain ⟨found, hlayout, -, rfl⟩ := unpack_iff.1 h
  have hsmall := Steps.small_readRecords? (layout_iff.1 hlayout).records
  -- The entries without a ledger are those with one, whose names differ.
  obtain ⟨names, hnames, hnodup, hgood⟩ :=
    entries_spec w (.empty .total found.size) [] found.dataStart found.records
  rw [entries_of_layout hlayout] at hnames
  obtain rfl : distinctNames [] ((occupied found.records).map FileRecord.fileName) = names :=
    List.map_injective_iff.2 (fun _ _ => Option.some.inj) ((map_name_placed ..).symm.trans hnames)
  have hlength : (occupied found.records).length ≤ 255 :=
    Nat.le_trans (List.length_filter_le ..) hsmall.length_le
  refine ⟨found, _, hlayout, hnames, renames_distinctNames hlength hnodup, ?_⟩
  rintro s f opened htarget hsep rfl hcontents
  have hkept := consistent_of_layout hlayout
  have hchildren : s.children f opened
      = (placed f.rest [] found.dataStart (occupied found.records)).map fun entry =>
        .start entry.data (Scan.entryPath f entry) (Scan.inherited f opened) (f.depth + 1)
          s.catalog := by
    simp only [Scan.children, hcontents, hkept, Scan.mayHold_of_target_eq_none htarget,
      List.filter_true]
  have hpaths : (s.children f opened).map Frame.path = (distinctNames []
      ((occupied found.records).map FileRecord.fileName)).map f.located.child := by
    rw [hchildren, List.map_map]
    refine Scan.map_entryPath hnames fun name hname => ?_
    rw [(Scan.leadsTo_located f).separator_eq, hsep]
    exact (hgood name hname).1.component
  refine ⟨hkept, hchildren, hpaths, ?_⟩
  rw [hpaths]
  exact hnodup.map fun _ _ => TunePath.child_inj

/-- Two files of the same name become two frames, and the second one has a number in its path. -/
theorem frames_of_files_songTwice :
    let w : Window := .ofByteArray ⟨(image [song, song]).toArray⟩
    let s : Scan := (⟨.builtin, {}⟩ : Detector).scan ⟨"a", ""⟩
    let f : Frame := .start w (.empty '/') ∅ 0 s.catalog
    ∃ u, unpack w = .ok u ∧ s.target = none ∧ f.path.separator = '/' ∧ f.rest = w
      ∧ (s.children f ⟨plugin, u, u.consumed, f.archiveClaims⟩).map (·.path.components)
        = [["SONG.C"], ["SONG.C~2"]] := by
  intro w s f
  have hlength : (image [song, song]).length = 553 :=
    (length_image _).trans (congrArg (· + checksumSize) (length_body _))
  have hw : w.toList = image [song, song] := Window.toList_ofByteArray (by simp [hlength])
  have hfilled : filled [song, song] ≠ [] := List.cons_ne_nil _ _
  have hholds : w.holdsAt 0 (image [song, song]) = true := Window.holdsAt_of_prefix (by simp [hw])
  have hlayout := layout_of_holdsAt (by decide) (by decide) hfilled hholds
  have hoccupied : occupied ([song, song].map File.fileRecord) ≠ [] := by
    rw [occupied_map_fileRecord]
    exact mt List.map_eq_nil_iff.1 hfilled
  have hunpack := unpack_iff.2 ⟨_, hlayout, hoccupied, rfl⟩
  have hrest : f.rest = w := Frame.rest_start ..
  obtain ⟨_, names, -, hnames, -, hframes⟩ := frames_of_files hunpack
  obtain ⟨-, -, hpaths, -⟩ := hframes s f ⟨plugin, _, _, f.archiveClaims⟩ rfl rfl hrest rfl
  refine ⟨_, hunpack, rfl, rfl, hrest, ?_⟩
  -- The names are those that are made unique.
  rw [map_name_placed] at hnames
  obtain rfl := List.map_injective_iff.2 (fun _ _ => Option.some.inj) hnames
  have hcomponents := congrArg (List.map TunePath.components) hpaths
  rw [List.map_map] at hcomponents
  exact hcomponents.trans (by decide +kernel)

end Scl

end Chiptune
