import Chiptune.Proofs.TunePaths

namespace Chiptune.TunePath

/-!
# Operations on paths

A path begins empty or with a text, and operations make others of it. None of them is given
components: each splits the text that it is given, or leaves components out.

* `TunePath.Made` — the paths that operations lead to;
* `TunePath.isClean_of_made` — all of their components can stand between separators;
* `TunePath.split_append_separator` — texts with a separator between them are split one by one;
* `TunePath.laws_of_made` — so paths and their texts stand for each other, and texts are appended
  together as they are one by one;
* `TunePath.leadingParts_of_made` — what is extracted is what was appended, and `startsWith` is an
  order of the paths with one separator.
-/

variable {separator : Char} {p q : TunePath}

/-- Whether a path is empty, or that of a text, or comes from such a one by any operations. -/
inductive Made (separator : Char) : TunePath → Prop
  | empty : Made separator (empty separator)
  | parse (text : String) : Made separator (parse separator text)
  | append {p : TunePath} (text : String) : Made separator p → Made separator (p.append text)
  | extract {p q : TunePath} {text : String} : Made separator p → p.extract? text = some q →
      Made separator q
  | parent {p : TunePath} : Made separator p → Made separator p.parent

/-! ### What operations keep -/

theorem isClean_empty (separator : Char) : (empty separator).IsClean := List.forall_mem_nil _

theorem IsClean.append (h : p.IsClean) (text : String) : (p.append text).IsClean :=
  (leadsTo_append p text).isClean h

/-- What remains behind a leading part are the last components. -/
theorem extract?_eq_some {text : String} (h : p.extract? text = some q) :
    split p.separator text ++ q.components = p.components ∧ q.separator = p.separator := by
  unfold extract? at h
  dsimp only at h
  split at h
  · rename_i hlead
    cases h
    obtain ⟨rest, hrest⟩ := List.isPrefixOf_iff_prefix.1 hlead
    refine ⟨?_, rfl⟩
    rw [← hrest, List.drop_left]
  · cases h

theorem extract?_eq_some_iff {text : String} :
    p.extract? text = some q
      ↔ split p.separator text ++ q.components = p.components ∧ q.separator = p.separator := by
  refine ⟨extract?_eq_some, fun ⟨hcomponents, hseparator⟩ => ?_⟩
  have hlead : (split p.separator text).isPrefixOf p.components = true :=
    List.isPrefixOf_iff_prefix.2 ⟨q.components, hcomponents⟩
  unfold extract?
  dsimp only
  rw [if_pos hlead, ← hcomponents, List.drop_left, ← hseparator]

theorem IsClean.extract {text : String} (h : p.IsClean) (hextract : p.extract? text = some q) :
    q.IsClean := by
  obtain ⟨hcomponents, hseparator⟩ := extract?_eq_some hextract
  intro part hpart
  rw [hseparator]
  exact h part (hcomponents ▸ List.mem_append_right _ hpart)

theorem IsClean.parent (h : p.IsClean) : p.parent.IsClean :=
  fun part hpart => h part (List.dropLast_subset _ hpart)

/-- No operation changes the separator. -/
theorem separator_of_made (h : Made separator p) : p.separator = separator := by
  induction h with
  | empty => rfl
  | parse text => rfl
  | append text _ ih => exact ih
  | extract _ hextract ih => exact (extract?_eq_some hextract).2.trans ih
  | parent _ ih => exact ih

theorem isClean_of_made (h : Made separator p) : p.IsClean := by
  induction h with
  | empty => exact isClean_empty separator
  | parse text => exact isClean_parse separator text
  | append text _ ih => exact ih.append text
  | extract _ hextract ih => exact ih.extract hextract
  | parent _ ih => exact ih.parent

/-! ### Texts with a separator between them -/

/-- A separator ends a component, even one that would be empty, and nothing else. -/
theorem split_append_separator (separator : Char) (a b : String) :
    split separator (a ++ String.singleton separator ++ b)
      = split separator a ++ split separator b := by
  simp only [split, String.toList_append, String.toList_singleton, List.append_assoc,
    List.singleton_append, List.splitOn_append_cons_self, List.filter_append, List.map_append]

theorem append_append (p : TunePath) (a b : String) :
    (p.append a).append b = p.append (a ++ String.singleton p.separator ++ b) := by
  simp only [append, split_append_separator, List.append_assoc]

/-- **Paths and their texts.** However operations made a path, each of its components has characters
    and none of them is the separator, and its text is parsed to this path again. A text is appended
    to the empty path as it is parsed. Two texts are appended one after the other as they are
    together, with a separator between them, and then they are also parsed one after the other. -/
theorem laws_of_made (h : Made separator p) :
    p.separator = separator ∧ (∀ part ∈ p.components, part ≠ "" ∧ separator ∉ part.toList)
      ∧ parse separator p.render = p
      ∧ ∀ a b : String, (empty separator).append a = parse separator a
        ∧ (p.append a).append b = p.append (a ++ String.singleton separator ++ b)
        ∧ (parse separator (a ++ String.singleton separator ++ b)).components
          = (parse separator a).components ++ (parse separator b).components := by
  have hseparator := separator_of_made h
  have hclean := isClean_of_made h
  subst hseparator
  exact ⟨rfl, hclean, parse_render hclean, fun a b =>
    ⟨rfl, append_append p a b, split_append_separator p.separator a b⟩⟩

/-- What is behind a disk image with a doubled separator, one component further out. -/
theorem laws_of_made_behindImage :
    ∃ p : TunePath, ((parse '/' "/disk.scl//SONG.C/").append "#2/").extract? "disk.scl" = some p
      ∧ Made '/' p.parent ∧ p.parent.components = ["SONG.C"] ∧ p.parent.render = "SONG.C"
      ∧ parse '/' p.parent.render = p.parent := by
  have hextract : ((parse '/' "/disk.scl//SONG.C/").append "#2/").extract? "disk.scl"
      = some ⟨["SONG.C", "#2"], '/'⟩ := by
    decide +kernel
  have hmade : Made '/' (parent ⟨["SONG.C", "#2"], '/'⟩) :=
    .parent (.extract (.append _ (.parse _)) hextract)
  obtain ⟨-, -, hparse, -⟩ := laws_of_made hmade
  exact ⟨_, hextract, hmade, rfl, rfl, hparse⟩

/-! ### Leading parts -/

theorem startsWith_iff : p.startsWith q = true ↔ q.components <+: p.components :=
  List.isPrefixOf_iff_prefix

theorem startsWith_refl (p : TunePath) : p.startsWith p = true :=
  startsWith_iff.2 (List.prefix_refl _)

theorem startsWith_trans {r : TunePath} (hpq : p.startsWith q = true)
    (hqr : q.startsWith r = true) : p.startsWith r = true :=
  startsWith_iff.2 ((startsWith_iff.1 hqr).trans (startsWith_iff.1 hpq))

theorem startsWith_antisymm (hseparator : p.separator = q.separator)
    (hpq : p.startsWith q = true) (hqp : q.startsWith p = true) : p = q := by
  have hcomponents : p.components = q.components :=
    (startsWith_iff.1 hqp).eq_of_length_le (startsWith_iff.1 hpq).length_le
  rw [TunePath.mk.injEq]
  exact ⟨hcomponents, hseparator⟩

theorem extract?_isSome_iff {text : String} :
    (∃ q, p.extract? text = some q) ↔ p.startsWith (parse p.separator text) = true := by
  rw [startsWith_iff]
  constructor
  · rintro ⟨q, hextract⟩
    exact ⟨q.components, (extract?_eq_some_iff.1 hextract).1⟩
  · rintro ⟨rest, hrest⟩
    exact ⟨⟨rest, p.separator⟩, extract?_eq_some_iff.2 ⟨hrest, rfl⟩⟩

/-- A clean path that remains is the one whose text completes the leading part. -/
theorem IsClean.extract?_eq_some_iff_append {text : String} (hq : q.IsClean)
    (hseparator : q.separator = p.separator) :
    p.extract? text = some q ↔ (parse p.separator text).append q.render = p := by
  have hrender : split p.separator q.render = q.components := by
    rw [← hseparator]
    exact split_intercalate hq
  rw [extract?_eq_some_iff, parse, TunePath.append]
  dsimp only
  rw [hrender, TunePath.mk.injEq]
  exact ⟨fun h => ⟨h.1, rfl⟩, fun h => ⟨h.1, hseparator⟩⟩

theorem IsClean.extract?_append (h : p.IsClean) (text : String) :
    (p.append text).extract? p.render = some (parse p.separator text) := by
  have hrender : split p.separator p.render = p.components := split_intercalate h
  apply extract?_eq_some_iff.2
  refine ⟨?_, rfl⟩
  show split p.separator p.render ++ split p.separator text = p.components ++ split p.separator text
  rw [hrender]

/-- **Leading parts.** However operations made a path, something remains of it behind a text exactly
    when it starts with the path of this text. What remains is the path that operations can make
    whose text has to be appended to that of the leading part, and behind the text of a path remains
    what was appended to the path. Every path starts with itself, one that starts with another
    starts with all that the other starts with, and of two paths with one separator that start with
    each other neither has more. -/
theorem leadingParts_of_made (h : Made separator p) :
    (∀ text : String,
      ((∃ q, p.extract? text = some q) ↔ p.startsWith (parse separator text) = true)
      ∧ (∀ q, p.extract? text = some q
        ↔ Made separator q ∧ (parse separator text).append q.render = p)
      ∧ (p.append text).extract? p.render = some (parse separator text))
    ∧ p.startsWith p = true
    ∧ (∀ q r : TunePath, p.startsWith q = true → q.startsWith r = true → p.startsWith r = true)
    ∧ ∀ q : TunePath, p.separator = q.separator → p.startsWith q = true →
      q.startsWith p = true → p = q := by
  have hseparator := separator_of_made h
  have hclean := isClean_of_made h
  subst hseparator
  refine ⟨fun text => ⟨extract?_isSome_iff, fun q => ⟨fun hextract => ?_, fun ⟨hq, happend⟩ => ?_⟩,
    hclean.extract?_append text⟩, startsWith_refl p, fun q r => startsWith_trans,
    fun q => startsWith_antisymm⟩
  · have hsame := (extract?_eq_some hextract).2
    exact ⟨.extract h hextract,
      ((hclean.extract hextract).extract?_eq_some_iff_append hsame).1 hextract⟩
  · have hsame := separator_of_made hq
    exact ((isClean_of_made hq).extract?_eq_some_iff_append hsame).2 happend

/-- A component that another one begins with is no leading part, and a doubled separator is none. -/
theorem leadingParts_of_made_inDiskImage :
    ∃ p q : TunePath, Made '/' p ∧ p = parse '/' "disk.scl/SONG.C/#2"
      ∧ p.startsWith (parse '/' "disk") = false ∧ p.extract? "disk" = none
      ∧ p.extract? "//disk.scl/" = some q ∧ q.render = "SONG.C/#2"
      ∧ (parse '/' "//disk.scl/").append q.render = p
      ∧ (p.append "#3").extract? p.render = some (parse '/' "#3") := by
  have hmade : Made '/' (parse '/' "disk.scl/SONG.C/#2") := .parse _
  have hextract : (parse '/' "disk.scl/SONG.C/#2").extract? "//disk.scl/"
      = some ⟨["SONG.C", "#2"], '/'⟩ := by
    decide +kernel
  have hlaws := (leadingParts_of_made hmade).1
  obtain ⟨-, hremains, -⟩ := hlaws "//disk.scl/"
  obtain ⟨-, -, hbehind⟩ := hlaws "#3"
  exact ⟨_, _, hmade, rfl, by decide +kernel, by decide +kernel, hextract, rfl,
    ((hremains _).1 hextract).2, hbehind⟩

end Chiptune.TunePath
