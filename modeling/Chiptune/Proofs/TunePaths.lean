import Chiptune.TunePath

namespace Chiptune.TunePath

/-!
# Components of paths

* `TunePath.IsComponent` — the texts that can be one component, which are those that `split` gives;
* `TunePath.parse_render` — a path made of such components is read back from its text;
* `TunePath.LeadsTo` — the order of paths by what was appended to them.
-/

/-! ### Splitting -/

/-- Whether a text can be one component: it is not empty and does not hold the separator. -/
def IsComponent (separator : Char) (part : String) : Prop :=
  part ≠ "" ∧ separator ∉ part.toList

theorem not_mem_of_mem_splitOn {separator : Char} {text part : List Char}
    (h : part ∈ text.splitOn separator) : separator ∉ part := by
  induction text generalizing part with
  | nil =>
    rw [List.splitOn_nil, List.mem_singleton] at h
    rw [h]
    exact List.not_mem_nil
  | cons c text ih =>
    -- A separator begins a new part, and any other character is put in front of the first one.
    rw [List.splitOn_cons_eq_if_modifyHead] at h
    split at h
    · rcases List.mem_cons.1 h with rfl | h
      · exact List.not_mem_nil
      · exact ih h
    · rename_i hc
      obtain ⟨first, rest, hsplit⟩ :=
        List.exists_cons_of_ne_nil (List.splitOn_ne_nil separator text)
      rw [hsplit, List.modifyHead_cons] at h
      rcases List.mem_cons.1 h with rfl | h
      · intro hmem
        rcases List.mem_cons.1 hmem with rfl | hmem
        · exact hc (beq_self_eq_true _)
        · exact ih (hsplit ▸ List.mem_cons_self) hmem
      · exact ih (hsplit ▸ List.mem_cons_of_mem _ h)

theorem isComponent_of_mem_split {separator : Char} {text part : String}
    (h : part ∈ split separator text) : IsComponent separator part := by
  obtain ⟨chars, hmem, rfl⟩ := List.mem_map.1 h
  obtain ⟨hsplit, hne⟩ := List.mem_filter.1 hmem
  refine ⟨fun hempty => ?_, ?_⟩
  · simp_all
  · rw [String.toList_ofList]
    exact not_mem_of_mem_splitOn hsplit

/-- **Splitting undoes joining.** -/
theorem split_intercalate {separator : Char} {parts : List String}
    (h : ∀ part ∈ parts, IsComponent separator part) :
    split separator ((String.singleton separator).intercalate parts) = parts := by
  rw [split, String.toList_intercalate, String.toList_singleton]
  by_cases hparts : parts = []
  · subst hparts
    rfl
  · -- No part holds the separator, and none is dropped for being empty.
    have hfree : ∀ chars ∈ parts.map String.toList, separator ∉ chars := by
      intro chars hmem
      obtain ⟨part, hpart, rfl⟩ := List.mem_map.1 hmem
      exact (h part hpart).2
    have hfull : ∀ chars ∈ parts.map String.toList, (!chars.isEmpty) = true := by
      intro chars hmem
      obtain ⟨part, hpart, rfl⟩ := List.mem_map.1 hmem
      simpa using (h part hpart).1
    rw [List.splitOn_intercalate separator hfree (by simpa using hparts),
      List.filter_eq_self.2 hfull, List.map_map]
    exact List.map_id'' (fun part => String.ofList_toList) parts

/-- A text that is one component splits into itself. -/
theorem split_of_isComponent {separator : Char} {part : String} (h : IsComponent separator part) :
    split separator part = [part] := by
  have hparts : ∀ p ∈ [part], IsComponent separator p := fun p hp => List.mem_singleton.1 hp ▸ h
  have hsplit := split_intercalate hparts
  rwa [String.intercalate_singleton] at hsplit

/-! ### Clean paths -/

/-- Whether all components of a path can stand between separators. -/
def IsClean (p : TunePath) : Prop := ∀ part ∈ p.components, IsComponent p.separator part

theorem isClean_parse (separator : Char) (text : String) : (parse separator text).IsClean :=
  fun _ h => isComponent_of_mem_split h

/-- **A path is read back from its text.** -/
theorem parse_render {p : TunePath} (h : p.IsClean) : parse p.separator p.render = p := by
  rw [parse, render, split_intercalate h]

/-! ### Inwards -/

/-- Whether `q` is `p` or lies inside of it: `q` is `p` with components behind. -/
def LeadsTo (p q : TunePath) : Prop :=
  ∃ parts : List String, (∀ part ∈ parts, IsComponent p.separator part)
    ∧ q = ⟨p.components ++ parts, p.separator⟩

theorem LeadsTo.refl (p : TunePath) : p.LeadsTo p :=
  ⟨[], List.forall_mem_nil _, by rw [List.append_nil]⟩

theorem leadsTo_append (p : TunePath) (text : String) : p.LeadsTo (p.append text) :=
  ⟨split p.separator text, fun _ h => isComponent_of_mem_split h, rfl⟩

theorem LeadsTo.trans {p q r : TunePath} (hpq : p.LeadsTo q) (hqr : q.LeadsTo r) :
    p.LeadsTo r := by
  obtain ⟨parts, hparts, rfl⟩ := hpq
  obtain ⟨more, hmore, rfl⟩ := hqr
  refine ⟨parts ++ more, fun part h => ?_, by rw [List.append_assoc]⟩
  rcases List.mem_append.1 h with h | h
  · exact hparts part h
  · exact hmore part h

theorem LeadsTo.separator_eq {p q : TunePath} (h : p.LeadsTo q) : q.separator = p.separator := by
  obtain ⟨parts, -, rfl⟩ := h
  rfl

theorem LeadsTo.isClean {p q : TunePath} (h : p.LeadsTo q) (hp : p.IsClean) : q.IsClean := by
  obtain ⟨parts, hparts, rfl⟩ := h
  intro part hpart
  rcases List.mem_append.1 hpart with hpart | hpart
  · exact hp part hpart
  · exact hparts part hpart

theorem LeadsTo.startsWith {p q : TunePath} (h : p.LeadsTo q) : q.startsWith p = true := by
  obtain ⟨parts, -, rfl⟩ := h
  rw [TunePath.startsWith, List.isPrefixOf_iff_prefix]
  exact List.prefix_append _ _

/-! ### One component more -/

/-- The path with one more component. -/
def child (p : TunePath) (part : String) : TunePath := ⟨p.components ++ [part], p.separator⟩

theorem append_of_isComponent {p : TunePath} {part : String} (h : IsComponent p.separator part) :
    p.append part = p.child part := by
  rw [append, split_of_isComponent h]
  rfl

/-- Paths that different components lead to differ. -/
theorem child_inj_of_leadsTo {p q : TunePath} {part part' : String}
    (h : (p.child part).LeadsTo q) (h' : (p.child part').LeadsTo q) : part = part' := by
  obtain ⟨parts, -, rfl⟩ := h
  obtain ⟨parts', -, heq⟩ := h'
  have hcomponents := (TunePath.mk.injEq _ _ _ _ ▸ heq).1
  simp only [child, List.append_assoc, List.append_cancel_left_eq] at hcomponents
  exact (List.cons.inj hcomponents).1

theorem child_inj {p : TunePath} {part part' : String} (h : p.child part = p.child part') :
    part = part' := by
  have hself : (p.child part').LeadsTo (p.child part) := by
    rw [h]
    exact .refl _
  exact child_inj_of_leadsTo (.refl _) hself

theorem not_child_leadsTo (p : TunePath) (part : String) : ¬(p.child part).LeadsTo p := by
  rintro ⟨parts, -, heq⟩
  -- The child has more components.
  have hlength := congrArg (fun q : TunePath => q.components.length) heq
  simp only [child, List.length_append, List.length_singleton] at hlength
  omega

end Chiptune.TunePath
