import Chiptune.Plugin.Builtin
import Chiptune.Proofs.Outcomes
import Chiptune.Proofs.TunePaths
import Chiptune.Scan.Opening

namespace Chiptune

/-!
# Names of entries

Offsets, tracks and files give the components of paths. None of them can be taken for another.

* `numbered_inj` — texts that end in different numbers differ;
* `Scl.uniqueName_not_mem` — a name that was made unique is new;
* `Catalog.namesEntries_builtinWith` — the archives of the library hold files with names of their own,
  or a single piece of data without a name;
* `Catalog.opensAlike_builtinWith` — of the settings these archives look at nothing but the limit.
-/

/-! ### Texts that end in a number -/

theorem isDigit_of_mem_toString {n : Nat} {c : Char} (h : c ∈ (toString n).toList) :
    c.isDigit = true := by
  rw [Nat.toString_eq_repr, Nat.toList_repr] at h
  exact Nat.isDigit_of_mem_toDigits (by decide) (by decide) h

theorem toString_inj {m n : Nat} (h : toString m = toString n) : m = n := by
  have hdigits : Nat.toDigits 10 m = Nat.toDigits 10 n := by
    rw [← Nat.toList_repr, ← Nat.toList_repr, ← Nat.toString_eq_repr, ← Nat.toString_eq_repr, h]
  rw [← Nat.ofDigitChars_ten_toDigits (n := m), hdigits, Nat.ofDigitChars_ten_toDigits]

/-- The number at the end of a text can be told from the text. -/
theorem numbered_inj (mark : String) {m n : Nat} (h : mark ++ toString m = mark ++ toString n) :
    m = n := by
  refine toString_inj (String.toList_inj.1 ?_)
  have hlists := congrArg String.toList h
  rw [String.toList_append, String.toList_append] at hlists
  exact List.append_cancel_left hlists

theorem not_mem_numbered {c : Char} {mark : String} (hmark : c ∉ mark.toList)
    (hdigit : c.isDigit = false) (n : Nat) : c ∉ (mark ++ toString n).toList := by
  intro h
  rw [String.toList_append] at h
  rcases List.mem_append.1 h with h | h
  · exact hmark h
  · rw [isDigit_of_mem_toString h] at hdigit
    cases hdigit

theorem isComponent_numbered {mark : String} (hne : mark ≠ "") (hmark : '/' ∉ mark.toList)
    (n : Nat) : TunePath.IsComponent '/' (mark ++ toString n) := by
  refine ⟨fun hempty => hne ?_, not_mem_numbered hmark (by decide) n⟩
  have hlists := congrArg String.toList hempty
  rw [String.toList_append] at hlists
  exact String.toList_inj.1 (List.append_eq_nil_iff.1 hlists).1

theorem isComponent_offset (k : Nat) : TunePath.IsComponent '/' s!"+{k}" :=
  isComponent_numbered (by decide) (by decide) k

theorem isComponent_track (n : Nat) : TunePath.IsComponent '/' s!"#{n}" :=
  isComponent_numbered (by decide) (by decide) n

theorem track_ne_offset (n k : Nat) : s!"#{n}" ≠ s!"+{k}" := by
  intro h
  -- Only one of them has a plus.
  have hplus : '+' ∈ ("+" ++ toString k).toList := by
    rw [String.toList_append]
    exact List.mem_append_left _ (by decide)
  have hnone : '+' ∉ ("#" ++ toString n).toList := not_mem_numbered (by decide) (by decide) n
  exact hnone (h ▸ hplus)

/-! ### Files of disk images -/

theorem trdosChar_ne_separator (b : UInt8) : trdosChar b ≠ '/' := by
  intro h
  simp only [trdosChar] at h
  split at h
  · rename_i hprintable
    rw [h] at hprintable
    exact absurd hprintable (by simp)
  · exact absurd h (by decide)

/-- A file name that can be a component, and has a dot. -/
structure IsFileName (name : String) : Prop where
  component : TunePath.IsComponent '/' name
  dotted : '.' ∈ name.toList

theorem IsFileName.ne_offset {name : String} (h : IsFileName name) (k : Nat) : name ≠ s!"+{k}" :=
  fun heq => not_mem_numbered (by decide) (by decide) k (heq ▸ h.dotted)

theorem IsFileName.ne_track {name : String} (h : IsFileName name) (n : Nat) : name ≠ s!"#{n}" :=
  fun heq => not_mem_numbered (by decide) (by decide) n (heq ▸ h.dotted)

theorem isFileName_trdosName (name : List UInt8) (type : UInt8) :
    IsFileName (trdosName name type) := by
  have hdotted : '.' ∈ (trdosName name type).toList := by
    rw [trdosName, String.toList_ofList]
    exact List.mem_append_right _ List.mem_cons_self
  refine ⟨⟨?_, ?_⟩, hdotted⟩
  · intro hempty
    rw [hempty] at hdotted
    cases hdotted
  · rw [trdosName, String.toList_ofList]
    intro h
    rcases List.mem_append.1 h with h | h
    · split at h
      · exact absurd h (by decide)
      · have hmem := (List.dropWhile_suffix _).mem (List.mem_reverse.1 h)
        obtain ⟨b, -, hb⟩ := List.mem_map.1 (List.mem_reverse.1 hmem)
        exact trdosChar_ne_separator b hb
    · rcases List.mem_cons.1 h with h | h
      · exact absurd h (by decide)
      · exact trdosChar_ne_separator type (List.mem_singleton.1 h).symm

namespace Scl

/-- The names that are tried for a file when so many names are used. -/
def candidates (count : Nat) (base : String) : List String :=
  base :: (List.range count).map fun i => base ++ "~" ++ toString (i + 2)

theorem nodup_candidates (count : Nat) (base : String) : (candidates count base).Nodup := by
  refine List.nodup_cons.2 ⟨fun hmem => ?_, ?_⟩
  · -- The other candidates are longer than the base.
    obtain ⟨i, -, hi⟩ := List.mem_map.1 hmem
    have hlength := congrArg (fun text : String => text.toList.length) hi
    simp only [String.toList_append, List.length_append] at hlength
    have htilde : "~".toList.length = 1 := by decide
    omega
  · refine List.pairwise_map.2 (List.nodup_range.imp fun hne heq => hne ?_)
    have := numbered_inj (base ++ "~") heq
    omega

theorem uniqueName_eq (used : List String) (base : String) :
    uniqueName used base
      = ((candidates used.length base).find? fun name => !used.contains name).getD base := rfl

/-- There are more candidates than used names, so one of them is new. -/
theorem exists_find?_candidates (used : List String) (base : String) :
    ∃ name, (candidates used.length base).find? (fun name => !used.contains name) = some name := by
  cases hfind : (candidates used.length base).find? fun name => !used.contains name with
  | some name => exact ⟨name, rfl⟩
  | none =>
    have hused : candidates used.length base ⊆ used := by
      intro name hname
      have := List.find?_eq_none.1 hfind name hname
      simpa using this
    have hlength := (nodup_candidates used.length base).length_le_of_subset hused
    simp only [candidates, List.length_cons, List.length_map, List.length_range] at hlength
    omega

/-- **A name that was made unique is new.** -/
theorem uniqueName_not_mem (used : List String) (base : String) :
    uniqueName used base ∉ used := by
  obtain ⟨name, hfind⟩ := exists_find?_candidates used base
  have hnew := List.find?_some hfind
  rw [uniqueName_eq, hfind]
  simpa using hnew

theorem isFileName_uniqueName {base : String} (h : IsFileName base) (used : List String) :
    IsFileName (uniqueName used base) := by
  obtain ⟨name, hfind⟩ := exists_find?_candidates used base
  have hmem := List.mem_of_find?_eq_some hfind
  rw [uniqueName_eq, hfind]
  show IsFileName name
  rcases List.mem_cons.1 hmem with rfl | hmem
  · exact h
  · obtain ⟨i, -, rfl⟩ := List.mem_map.1 hmem
    have hdotted : '.' ∈ (base ++ "~" ++ toString (i + 2)).toList := by
      rw [String.append_assoc, String.toList_append]
      exact List.mem_append_left _ h.dotted
    refine ⟨⟨fun hempty => ?_, ?_⟩, hdotted⟩
    · rw [hempty] at hdotted
      cases hdotted
    · refine not_mem_numbered ?_ (by decide) (i + 2)
      rw [String.toList_append]
      intro hslash
      rcases List.mem_append.1 hslash with hslash | hslash
      · exact h.component.2 hslash
      · exact absurd hslash (by decide)

/-- The entries of an image have names, none of which was used before or is used twice. -/
theorem entries_spec (w : Window) (claims : Claims) (used : List String) (offset : Nat)
    (records : List FileRecord) :
    ∃ names : List String,
      (entries w claims used offset records).map Entry.name = names.map some
      ∧ names.Nodup ∧ ∀ name ∈ names, IsFileName name ∧ name ∉ used := by
  induction records generalizing claims used offset with
  | nil => exact ⟨[], rfl, List.nodup_nil, List.forall_mem_nil _⟩
  | cons record rest ih =>
    -- Whatever becomes of the record, the sectors of the next one begin behind its sectors.
    simp only [entries]
    cases claims.add? ⟨offset, record.size⟩ with
    | none => exact ih claims used (offset + record.size)
    | some claims' =>
      cases w.sub? offset record.size with
      | none => exact ih claims' used (offset + record.size)
      | some data =>
        obtain ⟨names, hnames, hnodup, hgood⟩ := ih claims'
          (uniqueName used (trdosName record.name record.type) :: used) (offset + record.size)
        refine ⟨uniqueName used (trdosName record.name record.type) :: names, ?_, ?_, ?_⟩
        · simp only [List.map_cons, hnames]
        · refine List.nodup_cons.2 ⟨fun hmem => ?_, hnodup⟩
          exact (hgood _ hmem).2 List.mem_cons_self
        · intro name hname
          rcases List.mem_cons.1 hname with rfl | hname
          · exact ⟨isFileName_uniqueName (isFileName_trdosName ..) used,
              uniqueName_not_mem used _⟩
          · obtain ⟨hfile, hnew⟩ := hgood name hname
            exact ⟨hfile, fun hmem => hnew (List.mem_cons_of_mem _ hmem)⟩

end Scl

/-! ### Archives of the library -/

/-- Whether the entries of an archive can be told apart by their names: it is packed data, which is
    a single entry without a name, or all entries have names, and these differ. -/
inductive Unpacked.IsWellNamed (contents : Unpacked) : Prop where
  | packed (entry : Entry) : contents.entries = [entry] → entry.name = none →
      contents.IsWellNamed
  | files (names : List String) : contents.entries.map Entry.name = names.map some →
      names.Nodup → (∀ name ∈ names, IsFileName name) → contents.IsWellNamed

theorem Hobeta.unpack_spec {w : Window} {contents : Unpacked} (h : unpack w = .ok contents) :
    contents.IsWellNamed ∧ contents.properties = ∅ := by
  simp only [unpack, bind, Except.bind] at h
  split at h
  · cases h
  · split at h
    · cases h
      exact ⟨.packed _ rfl rfl, rfl⟩
    · cases h

theorem Ice.unpack_spec {limit : UInt64} {w : Window} {contents : Unpacked}
    (h : unpack limit w = .ok contents) :
    contents.IsWellNamed ∧ contents.properties = ∅ := by
  simp only [unpack, bind, Except.bind] at h
  split at h
  · split at h
    · cases h
    · split at h
      · cases h
      · cases h
        exact ⟨.packed _ rfl rfl, rfl⟩
  · cases h

theorem Lha.unpack_spec {reader : MemberReader} {limit : UInt64} {w : Window}
    {contents : Unpacked} (h : unpack reader limit w = .ok contents) :
    contents.IsWellNamed ∧ contents.properties = ∅ := by
  simp only [unpack, bind, Except.bind] at h
  split at h
  · cases h
  · split at h
    · split at h
      · cases h
      · cases h
        exact ⟨.packed _ rfl rfl, rfl⟩
    · cases h

theorem Scl.unpack_spec {w : Window} {contents : Unpacked} (h : unpack w = .ok contents) :
    contents.IsWellNamed ∧ contents.properties = ∅ := by
  simp only [unpack, bind, Except.bind] at h
  split at h
  · cases h
  · rename_i layout hlayout
    split at h
    · cases h
    · cases h
      obtain ⟨names, hnames, hnodup, hgood⟩ :=
        entries_spec w (.empty .total layout.size) [] layout.dataStart layout.records
      exact ⟨.files names hnames hnodup fun name hname => (hgood name hname).1, rfl⟩

theorem Decoder.eq_ok_of_contents? {unpack : Settings → Window → Except DecodeError Unpacked}
    {settings : Settings} {w : Window} {contents : Unpacked}
    (h : (archive unpack).contents? settings w = some contents) :
    unpack settings w = .ok contents :=
  eq_ok_of_toOption h

/-- Whether all archives that the plugins of a catalog open can have their entries told apart. -/
def Catalog.NamesEntries (c : Catalog) : Prop :=
  ∀ p ∈ c.plugins, ∀ (settings : Settings) (w : Window) (contents : Unpacked),
    p.decoder.contents? settings w = some contents → contents.IsWellNamed

/-- **The archives of the library.** Their entries can be told apart. -/
theorem Catalog.namesEntries_builtinWith (reader : Lha.MemberReader) :
    (builtinWith reader).NamesEntries := by
  intro p hp settings w contents h
  simp only [builtinWith, pluginsWith, List.mem_cons, List.not_mem_nil, or_false] at hp
  rcases hp with rfl | rfl | rfl | rfl | rfl | rfl | rfl
  · exact (Hobeta.unpack_spec (Decoder.eq_ok_of_contents? h)).1
  · exact (Scl.unpack_spec (Decoder.eq_ok_of_contents? h)).1
  · exact (Ice.unpack_spec (Decoder.eq_ok_of_contents? h)).1
  · exact (Lha.unpack_spec (Decoder.eq_ok_of_contents? h)).1
  · cases h
  · cases h
  · cases h

/-! ### Settings -/

/-- Whether the archives of a catalog open in the same way under either of two settings. -/
def Catalog.OpensAlike (c : Catalog) (settings settings' : Settings) : Prop :=
  ∀ p ∈ c.plugins, ∀ w, p.decoder.contents? settings w = p.decoder.contents? settings' w

theorem Catalog.OpensAlike.open? {c : Catalog} {settings settings' : Settings}
    (h : c.OpensAlike settings settings') {p : Plugin} (hp : p ∈ c.plugins) (f : Frame) :
    f.open? settings p = f.open? settings' p := by
  unfold Frame.open?
  rw [h p hp]

/-- The first archive that opens is the same, of any plugins of the catalog. -/
theorem Catalog.OpensAlike.findSome?_open? {c : Catalog} {settings settings' : Settings}
    (h : c.OpensAlike settings settings') {plugins : List Plugin} (hmem : plugins ⊆ c.plugins)
    (f : Frame) :
    plugins.findSome? (f.open? settings) = plugins.findSome? (f.open? settings') := by
  induction plugins with
  | nil => rfl
  | cons p rest ih =>
    obtain ⟨hp, hrest⟩ := List.cons_subset.1 hmem
    rw [List.findSome?_cons, List.findSome?_cons, h.open? hp, ih hrest]

/-- It is the same of the archives of the catalog, whatever is skipped. -/
theorem Catalog.OpensAlike.findSome?_archives {c : Catalog} {settings settings' : Settings}
    (h : c.OpensAlike settings settings') (skips : Plugin → Bool) (f : Frame) :
    (c.archives.filter (!skips ·)).findSome? (f.open? settings)
      = (c.archives.filter (!skips ·)).findSome? (f.open? settings') :=
  h.findSome?_open? (fun _ hp => (List.mem_filter.1 (List.mem_filter.1 hp).1).1) f

/-- The archives of the library look at nothing but the limit on unpacked data. -/
theorem Catalog.opensAlike_builtinWith (reader : Lha.MemberReader) {settings settings' : Settings}
    (h : settings.maxDecodedSize = settings'.maxDecodedSize) :
    (builtinWith reader).OpensAlike settings settings' := by
  intro p hp w
  simp only [builtinWith, pluginsWith, List.mem_cons, List.not_mem_nil, or_false] at hp
  rcases hp with rfl | rfl | rfl | rfl | rfl | rfl | rfl
  · rfl
  · rfl
  · exact congrArg (fun limit => (Ice.unpack limit w).toOption) h
  · exact congrArg (fun limit => (Lha.unpack reader limit w).toOption) h
  · rfl
  · rfl
  · rfl

end Chiptune
