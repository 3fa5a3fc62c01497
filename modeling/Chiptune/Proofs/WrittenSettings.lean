import Chiptune.Proofs.WrittenJson
import Chiptune.ScanError

namespace Chiptune

/-!
# Settings that were written

Settings are read back from their JSON text, unless they cannot be used.

* `Settings.Usable` — the settings that `Settings.validate` accepts;
* `Settings.ofJson?_toJson` — every field is read back from its value;
* `Settings.render_denotes` — so the text of settings denotes them, or is refused with the reason
  why they cannot be used, and no text denotes settings that cannot.
-/

namespace Settings

/-! ### Values of fields -/

theorem word?_toNat (w : UInt64) : word? (.integer w.toNat) = some w := by
  have hrange : (0 : Int) ≤ w.toNat ∧ (w.toNat : Int) < UInt64.size :=
    ⟨Int.natCast_nonneg _, by exact_mod_cast w.toNat_lt_size⟩
  rw [word?, if_pos hrange, Int.toNat_natCast, UInt64.ofNat_toNat]

theorem char?_singleton (c : Char) : char? (.text (String.singleton c)) = some c := by
  rw [char?, String.toList_singleton]

theorem mapM_text? (ids : List String) : (ids.map Json.text).mapM text? = some ids := by
  induction ids with
  | nil => rfl
  | cons id ids ih =>
    rw [List.map_cons, List.mapM_cons, ih]
    rfl

theorem isWord_toNat (w : UInt64) : Json.IsWord w.toNat := by
  have hsize : w.toNat < UInt64.size := w.toNat_lt_size
  unfold Json.IsWord
  omega

/-! ### Settings as a value -/

theorem ofJson?_toJson (s : Settings) : ofJson? s.toJson = some s := by
  obtain ⟨maxDepth, maxDecodedSize, scanRaw, pathSeparator, pluginOrder⟩ := s
  have hnames : fieldNames.Nodup := by decide
  unfold toJson ofJson?
  refine (if_pos hnames).trans ?_
  simp only [ofFields?, List.foldlM_cons, List.foldlM_nil, setField?, word?_toNat, char?_singleton,
    mapM_text?, Option.bind_eq_bind, Option.bind_some, Option.pure_def]

theorem writable_toJson (s : Settings) : s.toJson.Writable := by
  refine .object fun field hfield => ?_
  simp only [List.mem_cons, List.not_mem_nil, or_false] at hfield
  rcases hfield with rfl | rfl | rfl | rfl | rfl
  · exact .integer (isWord_toNat _)
  · exact .integer (isWord_toNat _)
  · exact .bool _
  · exact .text _
  · refine .array fun item hitem => ?_
    obtain ⟨id, -, rfl⟩ := List.mem_map.1 hitem
    exact .text id

/-! ### Settings as text -/

/-- The text of settings denotes them, and they are checked. -/
theorem parse_render (s : Settings) : parse s.render = s.validate := by
  rw [parse, render, Json.parse?_compact s.writable_toJson, Option.bind_some, ofJson?_toJson]

/-- Whether settings can be used: containers are opened, and the separator of path components is not
    the mark between a file and the path inside. -/
structure Usable (s : Settings) : Prop where
  depth : 1 ≤ s.maxDepth.toNat
  separator : s.pathSeparator ≠ '?'

theorem one_le_toNat_iff {w : UInt64} : 1 ≤ w.toNat ↔ w ≠ 0 := by
  rw [Nat.one_le_iff_ne_zero, ne_eq, ne_eq, ← UInt64.toNat_inj]
  rfl

theorem validate_of_usable {s : Settings} (h : s.Usable) : s.validate = .ok s := by
  rw [validate, if_neg (one_le_toNat_iff.1 h.depth)]
  exact if_neg h.separator

theorem usable_of_validate {s s' : Settings} (h : s.validate = .ok s') : s'.Usable := by
  unfold validate at h
  split at h
  · cases h
  · rename_i hdepth
    split at h
    · cases h
    · rename_i hseparator
      cases h
      exact ⟨one_le_toNat_iff.2 hdepth, hseparator⟩

/-- Settings that are accepted are those that a value denotes, and can be used. -/
theorem usable_of_parse {text : String} {s : Settings} (h : parse text = .ok s) : s.Usable := by
  unfold parse at h
  split at h
  · exact usable_of_validate h
  · cases h

/-- **Settings are read back.** The text of settings that can be used denotes these settings. Others
    are refused, with the first of the two reasons why they cannot be used. No text denotes settings
    that cannot be used. -/
theorem render_denotes (s : Settings) :
    (s.Usable → parse s.render = .ok s)
    ∧ (¬s.Usable → ∃ fault, parse s.render = .error fault
      ∧ (ScanError.settings fault).message
        = if s.maxDepth = 0 then "invalid configuration: max_depth must be at least 1"
          else "invalid configuration: path_separator cannot be '?'")
    ∧ ∀ text s', parse text = .ok s' → s'.Usable := by
  rw [parse_render]
  refine ⟨validate_of_usable, fun hunusable => ?_, fun _ _ => usable_of_parse⟩
  by_cases hdepth : s.maxDepth = 0
  · refine ⟨.zeroDepth, by rw [validate, if_pos hdepth], ?_⟩
    rw [if_pos hdepth]
    rfl
  · have hseparator : s.pathSeparator = '?' := Decidable.byContradiction fun hseparator =>
      hunusable ⟨one_le_toNat_iff.2 hdepth, hseparator⟩
    refine ⟨.reservedSeparator, ?_, ?_⟩
    · rw [validate, if_neg hdepth]
      exact if_pos hseparator
    · rw [if_neg hdepth]
      rfl

/-- Settings with quotes, escape marks, control characters and a character of two surrogates. -/
def quoted : Settings where
  maxDecodedSize := 0xffffffffffffffff
  pathSeparator := '"'
  pluginOrder := ["\\", "\x00\n", "𝄞"]

/-- They are read back, and are refused without any depth. -/
theorem render_denotes_quoted :
    quoted.Usable ∧ parse quoted.render = .ok quoted
      ∧ ¬{ quoted with maxDepth := 0 }.Usable
      ∧ ∃ fault, parse { quoted with maxDepth := 0 }.render = .error fault := by
  obtain ⟨hdenotes, -, haccepted⟩ := render_denotes quoted
  have hparse : parse quoted.render = .ok quoted := hdenotes ⟨by decide, by decide⟩
  have hzero : ¬{ quoted with maxDepth := 0 }.Usable := fun h => absurd h.depth (by decide)
  obtain ⟨fault, hfault, -⟩ := (render_denotes { quoted with maxDepth := 0 }).2.1 hzero
  exact ⟨haccepted _ _ hparse, hparse, hzero, fault, hfault⟩

end Settings

end Chiptune
