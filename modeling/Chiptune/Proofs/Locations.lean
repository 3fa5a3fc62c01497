import Chiptune.Proofs.ByPath

namespace Chiptune.Location

/-!
# Locations and their texts

* `parse_full`, `full_parse` — a location is read back from its text, and almost every text from its
  location;
* `behindLast_spec`, `behindLast_append` — the last part of a text;
* `filename_spec`, `extension_eq_iff` — the file name and its extension;
* `Lawful` — what holds of the parts of a location, such as all that come from text.
-/

variable {l : Location} {text path : String}

/-! ### Reading back -/

/-- A text without a mark is a path. Any other is divided by its first mark. -/
theorem parse_cases (text : String) :
    ('?' ∉ text.toList ∧ parse text = ⟨text, ""⟩)
      ∨ ∃ path subpath, '?' ∉ path.toList ∧ text = path ++ "?" ++ subpath
        ∧ parse text = ⟨path, subpath⟩ := by
  by_cases hmark : '?' ∈ text.toList
  · obtain ⟨before, behind, htext, hbefore⟩ := List.eq_append_cons_of_mem hmark
    have hpath : '?' ∉ (String.ofList before).toList := by simpa using hbefore
    have hsplit : text = String.ofList before ++ "?" ++ String.ofList behind := by
      apply String.toList_inj.1
      simp [htext]
    refine .inr ⟨_, _, hpath, hsplit, ?_⟩
    rw [hsplit, parse_append hpath]
  · exact .inl ⟨hmark, parse_of_not_mem hmark⟩

theorem full_of_empty (path : String) : (Location.mk path "").full = path := rfl

theorem full_of_ne {subpath : String} (h : subpath ≠ "") :
    (Location.mk path subpath).full = path ++ "?" ++ subpath := by
  have hempty : ¬subpath.isEmpty = true := by simpa using h
  rw [full, if_neg hempty]
  rfl

/-- A location is read back from its text, when the mark is not in its path. -/
theorem parse_full (h : '?' ∉ l.path.toList) : parse l.full = l := by
  obtain ⟨path, subpath⟩ := l
  by_cases hempty : subpath = ""
  · subst hempty
    exact parse_of_not_mem h
  · rw [full_of_ne hempty]
    exact parse_append h subpath

theorem not_mem_path_parse (text : String) : '?' ∉ (parse text).path.toList := by
  rcases parse_cases text with ⟨hmark, hparse⟩ | ⟨path, subpath, hpath, -, hparse⟩
  · rwa [hparse]
  · rwa [hparse]

/-- The text of a location is the one it comes from, but for a mark that nothing follows. -/
theorem full_parse (text : String) :
    (∃ path, '?' ∉ path.toList ∧ text = path ++ "?" ∧ (parse text).full = path)
      ∨ (∀ path, '?' ∉ path.toList → text ≠ path ++ "?") ∧ (parse text).full = text := by
  rcases parse_cases text with ⟨hmark, hparse⟩ | ⟨path, subpath, hpath, htext, hparse⟩
  · refine .inr ⟨fun path _ htext => hmark ?_, ?_⟩
    · simp [htext]
    · rw [hparse, full_of_empty]
  · -- A mark is left out of the text when nothing follows it.
    by_cases hempty : subpath = ""
    · subst hempty
      refine .inl ⟨path, hpath, ?_, ?_⟩
      · rw [htext, String.append_empty]
      · rw [hparse, full_of_empty]
    · refine .inr ⟨fun other hother hmark => hempty ?_, ?_⟩
      · have := parse_append hother ""
        rw [String.append_empty, ← hmark, hparse] at this
        exact congrArg Location.subpath this
      · rw [hparse, full_of_ne hempty, htext]

/-- The path of a text is the text itself, unless there is a mark. -/
theorem path_parse_eq_iff : (parse text).path = text ↔ '?' ∉ text.toList := by
  refine ⟨fun h => ?_, fun h => ?_⟩
  · rw [← h]
    exact not_mem_path_parse text
  · rw [parse_of_not_mem h]

/-- Texts of the same place in two files are different. -/
theorem full_inj {other subpath : String} :
    (Location.mk path subpath).full = (Location.mk other subpath).full ↔ path = other := by
  by_cases hempty : subpath = ""
  · rw [hempty, full_of_empty, full_of_empty]
  · rw [full_of_ne hempty, full_of_ne hempty, String.append_left_inj, String.append_left_inj]

/-! ### The last part of a text -/

section BehindLast

variable {p : Char → Bool}

/-- What is left behind the last accepted character has none, and it is all of the text or starts
    right behind one. -/
theorem behindLast_spec (p : Char → Bool) (cs : List Char) :
    (∀ c ∈ behindLast p cs, p c = false)
      ∧ (behindLast p cs = cs ∨ ∃ stem c, p c = true ∧ cs = stem ++ c :: behindLast p cs) := by
  constructor
  · intro c hc
    have hall := List.all_takeWhile (p := fun c => !p c) (l := cs.reverse)
    rw [List.all_eq_true] at hall
    simpa using hall c (List.mem_reverse.1 hc)
  · -- Read backwards, the text is divided before its first accepted character.
    have hcs : (cs.reverse.dropWhile fun c => !p c).reverse ++ behindLast p cs = cs := by
      rw [behindLast, ← List.reverse_append, List.takeWhile_append_dropWhile, List.reverse_reverse]
    cases hdrop : cs.reverse.dropWhile fun c => !p c with
    | nil =>
      rw [hdrop] at hcs
      exact .inl hcs
    | cons c stem =>
      have hc := List.head?_dropWhile_not (fun c => !p c) cs.reverse
      rw [hdrop] at hc hcs
      refine .inr ⟨stem.reverse, c, by simpa using hc, ?_⟩
      simpa using hcs.symm

theorem behindLast_append {c : Char} (hc : p c = true) {tail : List Char}
    (htail : ∀ d ∈ tail, p d = false) (stem : List Char) :
    behindLast p (stem ++ c :: tail) = tail := by
  have hall : ∀ d ∈ tail.reverse, (!p d) = true := by
    intro d hd
    simpa using htail d (List.mem_reverse.1 hd)
  rw [behindLast, List.reverse_append, List.reverse_cons, List.append_assoc,
    List.takeWhile_append_of_pos hall]
  simp [hc]

end BehindLast

/-! ### The file name and its extension -/

/-- The path is a folder and the file name, with nothing or a separator at the end of the folder
    and no separator in the name. -/
theorem filename_spec (l : Location) :
    '/' ∉ l.filename.toList ∧ '\\' ∉ l.filename.toList
      ∧ ∃ folder, l.path = folder ++ l.filename
        ∧ (folder = "" ∨ ∃ parent, folder = parent ++ "/" ∨ folder = parent ++ "\\") := by
  obtain ⟨hplain, hends⟩ := behindLast_spec (fun c => c == '/' || c == '\\') l.path.toList
  refine ⟨fun hc => ?_, fun hc => ?_, ?_⟩
  · have := hplain '/' (by simpa [filename] using hc)
    simp at this
  · have := hplain '\\' (by simpa [filename] using hc)
    simp at this
  · rcases hends with hall | ⟨parent, c, hc, hpath⟩
    · refine ⟨"", ?_, .inl rfl⟩
      rw [filename, hall, String.ofList_toList, String.empty_append]
    · refine ⟨String.ofList (parent ++ [c]), ?_, .inr ⟨String.ofList parent, ?_⟩⟩
      · apply String.toList_inj.1
        simpa [filename] using hpath
      · have hor : c = '/' ∨ c = '\\' := by simpa using hc
        refine hor.imp ?_ ?_ <;>
        · rintro rfl
          apply String.toList_inj.1
          simp

/-- The extension is what follows the last dot, when the dot is not the start of the name. -/
theorem extension_eq_iff {ext : String} (h : ext ≠ "") (l : Location) :
    l.extension = ext ↔ ∃ stem ≠ "", l.filename = stem ++ "." ++ ext ∧ '.' ∉ ext.toList := by
  obtain ⟨hplain, hends⟩ := behindLast_spec (· == '.') l.filename.toList
  constructor
  · intro hext
    unfold extension at hext
    dsimp only at hext
    split at hext
    case isFalse => exact absurd hext.symm h
    case isTrue hlong =>
      have htail : behindLast (· == '.') l.filename.toList = ext.toList := by
        rw [← hext, String.toList_ofList]
      rw [htail] at hplain hends hlong
      rcases hends with hall | ⟨stem, c, hc, hname⟩
      · -- Without a dot the last part would be the whole name.
        rw [hall] at hlong
        omega
      · have hdot : c = '.' := by simpa using hc
        refine ⟨String.ofList stem, ?_, ?_, fun hmem => ?_⟩
        · rintro hempty
          have hstem : stem = [] := by simpa using congrArg String.toList hempty
          rw [hname, hstem] at hlong
          simp at hlong
        · apply String.toList_inj.1
          simp [hname, hdot]
        · simpa using hplain '.' hmem
  · rintro ⟨stem, hstem, hname, hdot⟩
    have hchars : l.filename.toList = stem.toList ++ '.' :: ext.toList := by simp [hname]
    have htail : behindLast (· == '.') l.filename.toList = ext.toList := by
      rw [hchars]
      refine behindLast_append (by rfl) (fun c hc => ?_) _
      rw [beq_eq_false_iff_ne]
      rintro rfl
      exact hdot hc
    have hlong : ext.toList.length + 1 < l.filename.toList.length := by
      have hpos : 0 < stem.toList.length := by
        rw [List.length_pos_iff]
        simpa using hstem
      rw [hchars, List.length_append, List.length_cons]
      omega
    unfold extension
    dsimp only
    rw [htail, if_pos hlong, String.ofList_toList]

/-! ### Locations that come from text -/

/-- What holds of the parts of a location. -/
structure Lawful (l : Location) : Prop where
  reads_back : parse l.full = l
  unmarked : '?' ∉ l.path.toList
  named : ∃ folder, l.path = folder ++ l.filename
    ∧ (folder = "" ∨ ∃ parent, folder = parent ++ "/" ∨ folder = parent ++ "\\")
  plain : '/' ∉ l.filename.toList ∧ '\\' ∉ l.filename.toList
  extended : ∀ ext ≠ "",
    l.extension = ext ↔ ∃ stem ≠ "", l.filename = stem ++ "." ++ ext ∧ '.' ∉ ext.toList

theorem Lawful.of_unmarked (h : '?' ∉ l.path.toList) : l.Lawful where
  reads_back := parse_full h
  unmarked := h
  named := l.filename_spec.2.2
  plain := ⟨l.filename_spec.1, l.filename_spec.2.1⟩
  extended _ hext := extension_eq_iff hext l

/-- **Locations keep to their texts.** A location that comes from a text, and every other one in the
    same file, is read back from its own text. Its text is the one it comes from, without the mark
    when the only mark is at its end. Its path has no mark and ends with the file name, which has no
    separator of either style, and an extension is what follows the last dot of the file name, with
    something in front of the dot. -/
theorem lawful_of_parse (text subpath : String) :
    (parse text).Lawful ∧ ((parse text).withSubpath subpath).Lawful
      ∧ (∀ path, '?' ∉ path.toList → text = path ++ "?" → (parse text).full = path)
      ∧ ((∀ path, '?' ∉ path.toList → text ≠ path ++ "?") → (parse text).full = text) := by
  have hpath := not_mem_path_parse text
  refine ⟨.of_unmarked hpath, .of_unmarked hpath, fun path hmark htext => ?_, fun hno => ?_⟩
  · rcases full_parse text with ⟨other, -, hother, hfull⟩ | ⟨hno, -⟩
    · rw [hfull]
      exact (String.append_left_inj "?").1 (hother.symm.trans htext)
    · exact absurd htext (hno path hmark)
  · rcases full_parse text with ⟨path, hmark, htext, -⟩ | ⟨-, hfull⟩
    · exact absurd htext (hno path hmark)
    · exact hfull

/-- A mark at the end of a text is dropped, and one inside a path in the file is kept. -/
theorem lawful_of_parse_markAtEnd :
    '?' ∉ "a/b.trd".toList ∧ (parse "a/b.trd?").full = "a/b.trd"
      ∧ (parse "a/b.trd?+512?").full = "a/b.trd?+512?"
      ∧ ((parse "a/b.trd?").withSubpath "+512/#3?").Lawful
      ∧ ∃ stem ≠ "", (parse "a/b.trd?").filename = stem ++ "." ++ "trd" := by
  have hpath : '?' ∉ "a/b.trd".toList := by decide
  obtain ⟨hlawful, hother, hdropped, -⟩ := lawful_of_parse "a/b.trd?" "+512/#3?"
  obtain ⟨-, -, -, hkept⟩ := lawful_of_parse "a/b.trd?+512?" ""
  refine ⟨hpath, hdropped _ hpath (by decide), hkept fun path hmark htext => ?_, hother, ?_⟩
  · -- The text has two marks, so that one of them would be in the path.
    have hcount : (path ++ "?").toList.count '?' = 2 := by rw [← htext]; decide
    rw [String.toList_append, List.count_append, List.count_eq_zero_of_not_mem hmark] at hcount
    exact absurd hcount (by decide)
  · obtain ⟨stem, hstem, hname, -⟩ := (hlawful.extended "trd" (by decide)).1 (by decide +kernel)
    exact ⟨stem, hstem, hname⟩

end Chiptune.Location
