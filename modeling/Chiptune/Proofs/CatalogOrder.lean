import Chiptune.Plugin.Builtin
import Chiptune.Proofs.Outcomes
import Mathlib.Data.List.Nodup

namespace Chiptune.Catalog

/-!
# The order of catalogs

Plugins are moved to the front one by one, and each is searched among those that were not moved
yet. What comes of it can be said without this search.

* `Catalog.Arranged` — a new order, or the first id that cannot be moved;
* `Catalog.arranged` — what `arrange` makes of plugins with distinct ids;
* `Catalog.Change`, `Catalog.pushed` — the calls that make a catalog, and the plugins that they add;
* `Catalog.order_of_changes` — the order and the plugins of every catalog that calls have made.
-/

/-! ### Picking one plugin -/

/-- The first plugin with the given id. -/
def named (plugins : List Plugin) (id : String) : Option Plugin :=
  plugins.find? fun p => p.id == id

/-- The plugins whose ids are not in `order`. -/
def unlisted (order : List String) (plugins : List Plugin) : List Plugin :=
  plugins.filter fun p => p.id ∉ order

variable {plugins others : List Plugin} {order : List String} {id : String} {p : Plugin}

theorem map_id_unlisted (order : List String) (plugins : List Plugin) :
    (unlisted order plugins).map Plugin.id = (plugins.map Plugin.id).filter (· ∉ order) := by
  rw [unlisted, List.filter_map]
  rfl

theorem unlisted_cons (id : String) (order : List String) (plugins : List Plugin) :
    unlisted order (unlisted [id] plugins) = unlisted (id :: order) plugins := by
  rw [unlisted, unlisted, unlisted, List.filter_filter]
  apply List.filter_congr
  intro p _
  simp only [List.mem_cons, List.not_mem_nil, or_false, not_or, Bool.decide_and, Bool.and_comm]

theorem named_unlisted (h : id ∉ order) :
    named (unlisted order plugins) id = named plugins id := by
  rw [named, named, unlisted, List.find?_filter]
  congr 1
  funext p
  by_cases hp : p.id = id
  · simp [hp, h]
  · simp [hp]

theorem mem_of_named (h : named plugins id = some p) : p ∈ plugins ∧ p.id = id := by
  unfold named at h
  have hid := List.find?_some h
  exact ⟨List.mem_of_find?_eq_some h, eq_of_beq hid⟩

/-- Only one plugin has an id when ids are distinct. -/
theorem named_eq_some_iff (hnodup : (plugins.map Plugin.id).Nodup) :
    named plugins id = some p ↔ p ∈ plugins ∧ p.id = id := by
  refine ⟨mem_of_named, ?_⟩
  rintro ⟨hp, rfl⟩
  obtain ⟨q, hq⟩ : ∃ q, named plugins p.id = some q :=
    Option.isSome_iff_exists.1 (List.find?_isSome.2 ⟨p, hp, beq_self_eq_true _⟩)
  obtain ⟨hmem, hid⟩ := mem_of_named hq
  rw [hq, List.inj_on_of_nodup_map hnodup hmem hp hid]

theorem pick?_eq_none_iff : pick? id plugins = none ↔ id ∉ plugins.map Plugin.id := by
  induction plugins with
  | nil => simp [pick?]
  | cons q rest ih =>
    rw [pick?, List.map_cons, List.mem_cons, not_or]
    by_cases hq : q.id = id
    · simp [hq]
    · rw [if_neg hq, Option.map_eq_none_iff, ih]
      exact ⟨fun h => ⟨fun heq => hq heq.symm, h⟩, And.right⟩

theorem unlisted_of_not_mem (h : id ∉ plugins.map Plugin.id) : unlisted [id] plugins = plugins := by
  apply List.filter_eq_self.2
  intro p hp
  have hne : p.id ≠ id := fun heq => h (heq ▸ List.mem_map_of_mem hp)
  simpa using hne

/-- With distinct ids, the others are those with another id. -/
theorem pick?_eq_some (hnodup : (plugins.map Plugin.id).Nodup)
    (h : pick? id plugins = some (p, others)) :
    named plugins id = some p ∧ others = unlisted [id] plugins := by
  induction plugins generalizing others with
  | nil => cases h
  | cons q rest ih =>
    obtain ⟨hfresh, hrest⟩ := List.nodup_cons.1 hnodup
    rw [pick?] at h
    split at h
    · rename_i hq
      cases h
      subst hq
      refine ⟨List.find?_cons_of_pos (beq_self_eq_true _), ?_⟩
      rw [unlisted, List.filter_cons_of_neg (by simp)]
      exact (unlisted_of_not_mem hfresh).symm
    · rename_i hq
      obtain ⟨⟨r, left⟩, hpick, heq⟩ := Option.map_eq_some_iff.1 h
      cases heq
      obtain ⟨hnamed, hleft⟩ := ih hrest hpick
      refine ⟨?_, ?_⟩
      · rw [named, List.find?_cons_of_neg (by simpa using hq)]
        exact hnamed
      · rw [unlisted, List.filter_cons_of_pos (by simpa using hq), hleft]
        rfl

/-! ### Arranging all plugins -/

/-- What `order` makes of plugins. When its ids are distinct and all of them name plugins, these
    come first, in this order, and all others behind them, in theirs. Otherwise there is a first id
    that names no plugin or comes for the second time. -/
inductive Arranged (plugins : List Plugin) (order : List String) :
    Except ScanError (List Plugin) → Prop where
  | placed : order.Nodup → (∀ id ∈ order, id ∈ plugins.map Plugin.id) →
      Arranged plugins order (.ok (order.filterMap (named plugins) ++ unlisted order plugins))
  | refused {taken rest : List String} {id : String} : order = taken ++ id :: rest →
      taken.Nodup → (∀ i ∈ taken, i ∈ plugins.map Plugin.id) →
      (id ∉ plugins.map Plugin.id ∨ id ∈ taken) →
      Arranged plugins order (.error (.unknownPlugin id))

theorem mem_map_id_unlisted_singleton {i : String} :
    i ∈ (unlisted [id] plugins).map Plugin.id ↔ i ∈ plugins.map Plugin.id ∧ i ≠ id := by
  rw [map_id_unlisted, List.mem_filter]
  simp

/-- One plugin more in front of those that the rest of an order names. -/
theorem Arranged.cons {result : Except ScanError (List Plugin)} (hp : named plugins id = some p)
    (h : Arranged (unlisted [id] plugins) order result) :
    Arranged plugins (id :: order) (result.map (p :: ·)) := by
  have hid : id ∈ plugins.map Plugin.id := List.mem_map.2 ⟨p, mem_of_named hp⟩
  cases h with
  | placed hnodup hknown =>
    have hfresh : id ∉ order := fun hmem =>
      (mem_map_id_unlisted_singleton.1 (hknown id hmem)).2 rfl
    -- The plugins that the rest of the order names are still the same.
    have hnamed :
        order.filterMap (named (unlisted [id] plugins)) = order.filterMap (named plugins) := by
      apply List.filterMap_congr
      intro i hi
      apply named_unlisted
      intro hmem
      exact hfresh (List.mem_singleton.1 hmem ▸ hi)
    have hall := @Arranged.placed plugins _ (List.nodup_cons.2 ⟨hfresh, hnodup⟩) (by
      intro i hi
      rcases List.mem_cons.1 hi with rfl | hi
      · exact hid
      · exact (mem_map_id_unlisted_singleton.1 (hknown i hi)).1)
    rw [List.filterMap_cons_some hp, ← unlisted_cons] at hall
    rw [hnamed]
    exact hall
  | refused heq hnodup hknown hid' =>
    rename_i taken rest i
    have hfresh : id ∉ taken := fun hmem =>
      (mem_map_id_unlisted_singleton.1 (hknown id hmem)).2 rfl
    have hsplit : id :: order = (id :: taken) ++ i :: rest := by
      rw [heq]
      rfl
    refine .refused hsplit (List.nodup_cons.2 ⟨hfresh, hnodup⟩) ?_ ?_
    · intro j hj
      rcases List.mem_cons.1 hj with rfl | hj
      · exact hid
      · exact (mem_map_id_unlisted_singleton.1 (hknown j hj)).1
    · -- A plugin that is gone was either never there, or has been moved just now.
      by_cases hi : i = id
      · exact .inr (hi ▸ List.mem_cons_self)
      · rcases hid' with hunknown | htaken
        · exact .inl fun hmem => hunknown (mem_map_id_unlisted_singleton.2 ⟨hmem, hi⟩)
        · exact .inr (List.mem_cons_of_mem _ htaken)

theorem arranged (hnodup : (plugins.map Plugin.id).Nodup) (order : List String) :
    Arranged plugins order (arrange order plugins) := by
  induction order generalizing plugins with
  | nil =>
    have hall : unlisted [] plugins = plugins := List.filter_eq_self.2 fun p _ => by simp
    have hplaced := @Arranged.placed plugins [] List.nodup_nil (List.forall_mem_nil _)
    rw [List.filterMap_nil, List.nil_append, hall] at hplaced
    exact hplaced
  | cons id order ih =>
    rw [arrange]
    cases hpick : pick? id plugins with
    | none =>
      have hsplit : id :: order = [] ++ id :: order := rfl
      exact .refused hsplit List.nodup_nil (List.forall_mem_nil _)
        (.inl (pick?_eq_none_iff.1 hpick))
    | some r =>
      obtain ⟨p, others⟩ := r
      obtain ⟨hp, rfl⟩ := pick?_eq_some hnodup hpick
      refine .cons hp (ih ?_)
      rw [map_id_unlisted]
      exact hnodup.filter _

/-! ### Changing the order of a catalog -/

variable {c c' : Catalog}

theorem arrange_of_reorder (c : Catalog) (order : List String) :
    arrange order c.plugins = (c.reorder order).map Catalog.plugins := by
  unfold reorder
  split
  · rename_i e h
    exact h
  · rename_i arranged h
    exact h

theorem eq_of_plugins_eq (h : c.plugins = c'.plugins) : c = c' := by
  cases c
  cases c'
  cases h
  rfl

theorem Arranged.of_ok {arranged : List Plugin} (h : Arranged plugins order (.ok arranged)) :
    order.Nodup ∧ (∀ id ∈ order, id ∈ plugins.map Plugin.id)
      ∧ arranged = order.filterMap (named plugins) ++ unlisted order plugins := by
  cases h with
  | placed hnodup hknown => exact ⟨hnodup, hknown, rfl⟩

theorem Arranged.of_error {e : ScanError} (h : Arranged plugins order (.error e)) :
    ∃ taken id rest, order = taken ++ id :: rest ∧ taken.Nodup
      ∧ (∀ i ∈ taken, i ∈ plugins.map Plugin.id) ∧ (id ∉ plugins.map Plugin.id ∨ id ∈ taken)
      ∧ e = .unknownPlugin id := by
  cases h with
  | refused heq hnodup hknown hid => exact ⟨_, _, _, heq, hnodup, hknown, hid, rfl⟩

theorem order_of_reorder (h : c.reorder order = .ok c') :
    order.Nodup ∧ (∀ id ∈ order, id ∈ c.ids)
      ∧ c'.plugins = order.filterMap c.find? ++ unlisted order c.plugins := by
  have harranged := arranged c.nodup order
  rw [arrange_of_reorder, h] at harranged
  exact Arranged.of_ok harranged

theorem error_of_reorder {e : ScanError} (h : c.reorder order = .error e) :
    ∃ taken id rest, order = taken ++ id :: rest ∧ taken.Nodup ∧ (∀ i ∈ taken, i ∈ c.ids)
      ∧ (id ∉ c.ids ∨ id ∈ taken) ∧ e = .unknownPlugin id := by
  have harranged := arranged c.nodup order
  rw [arrange_of_reorder, h] at harranged
  exact Arranged.of_error harranged

theorem reorder_succeeds_iff (c : Catalog) (order : List String) :
    (∃ c', c.reorder order = .ok c') ↔ order.Nodup ∧ ∀ id ∈ order, id ∈ c.ids := by
  constructor
  · rintro ⟨c', h⟩
    obtain ⟨hnodup, hknown, -⟩ := order_of_reorder h
    exact ⟨hnodup, hknown⟩
  · rintro ⟨hnodup, hknown⟩
    cases h : c.reorder order with
    | ok c' => exact ⟨c', rfl⟩
    | error e =>
      obtain ⟨taken, id, rest, rfl, -, -, hunknown | htaken, -⟩ := error_of_reorder h
      · exact absurd (hknown id (List.mem_append_right _ List.mem_cons_self)) hunknown
      · have hfresh := (List.nodup_cons.1 (List.nodup_middle.1 hnodup)).1
        exact absurd (List.mem_append_left _ htaken) hfresh

theorem perm_plugins_of_reorder (h : c.reorder order = .ok c') : c'.plugins.Perm c.plugins := by
  have harrange := arrange_of_reorder c order
  rw [h] at harrange
  exact perm_of_arrange harrange

theorem find?_eq_some_iff : c.find? id = some p ↔ p ∈ c.plugins ∧ p.id = id :=
  named_eq_some_iff c.nodup

theorem find?_of_perm (h : c'.plugins.Perm c.plugins) (id : String) : c'.find? id = c.find? id := by
  apply Option.ext
  intro p
  rw [find?_eq_some_iff, find?_eq_some_iff, h.mem_iff]

/-- The plugins that an order names have the ids of this order. -/
theorem map_id_filterMap_find? (hknown : ∀ id ∈ order, id ∈ c.ids) :
    (order.filterMap c.find?).map Plugin.id = order := by
  induction order with
  | nil => rfl
  | cons id order ih =>
    obtain ⟨p, hp, hid⟩ := List.mem_map.1 (hknown id List.mem_cons_self)
    rw [List.filterMap_cons_some (find?_eq_some_iff.2 ⟨hp, hid⟩), List.map_cons, hid,
      ih fun i hi => hknown i (List.mem_cons_of_mem _ hi)]

theorem ids_of_reorder (h : c.reorder order = .ok c') :
    c'.ids = order ++ c.ids.filter (· ∉ order) := by
  obtain ⟨-, hknown, hplugins⟩ := order_of_reorder h
  rw [ids, hplugins, List.map_append, map_id_filterMap_find? hknown, map_id_unlisted]
  rfl

/-- In the order that was wanted, nothing is left to move. -/
theorem reorder_reorder (c : Catalog) (order : List String) :
    (c.reorder order >>= fun c' => c'.reorder order) = c.reorder order := by
  cases h : c.reorder order with
  | error e => rfl
  | ok c' =>
    show c'.reorder order = .ok c'
    obtain ⟨hnodup, hknown, hplugins⟩ := order_of_reorder h
    have hperm := perm_plugins_of_reorder h
    have hknown' : ∀ id ∈ order, id ∈ c'.ids := fun id hid =>
      (hperm.map Plugin.id).mem_iff.2 (hknown id hid)
    obtain ⟨c'', h'⟩ := (reorder_succeeds_iff c' order).2 ⟨hnodup, hknown'⟩
    obtain ⟨-, -, hplugins'⟩ := order_of_reorder h'
    -- The plugins in front are those that are named, and no others are.
    have hfront : unlisted order (order.filterMap c.find?) = [] := by
      apply List.filter_eq_nil_iff.2
      intro p hp
      have hid : p.id ∈ order := map_id_filterMap_find? hknown ▸ List.mem_map_of_mem hp
      simpa using hid
    have hbehind : unlisted order (unlisted order c.plugins) = unlisted order c.plugins := by
      rw [unlisted, unlisted, List.filter_filter]
      simp only [Bool.and_self]
    have hunlisted : unlisted order c'.plugins = unlisted order c.plugins := by
      rw [hplugins]
      calc unlisted order (order.filterMap c.find? ++ unlisted order c.plugins)
          = unlisted order (order.filterMap c.find?) ++ unlisted order (unlisted order c.plugins) :=
            List.filter_append _ _
        _ = unlisted order c.plugins := by rw [hfront, hbehind, List.nil_append]
    have hsame : c''.plugins = c'.plugins := by
      rw [hplugins', hunlisted, funext (find?_of_perm hperm), hplugins]
    rw [h', eq_of_plugins_eq hsame]

/-! ### Making a catalog -/

/-- A call that makes another catalog of one. -/
inductive Change where
  | push (p : Plugin)
  | reorder (order : List String)

/-- The catalog after a call. -/
def Change.apply (c : Catalog) : Change → Except ScanError Catalog
  | push p => c.push p
  | reorder order => c.reorder order

/-- The plugin that a call adds. -/
def Change.added? : Change → Option Plugin
  | push p => some p
  | reorder _ => none

/-- The plugins that calls add, in the order of the calls. -/
def pushed (changes : List Change) : List Plugin := changes.filterMap Change.added?

theorem plugins_of_push (h : c.push p = .ok c') : c'.plugins = c.plugins ++ [p] := by
  unfold push at h
  split at h
  · cases h
  · cases h
    rfl

theorem perm_of_apply {change : Change} (h : change.apply c = .ok c') :
    c'.plugins.Perm (c.plugins ++ change.added?.toList) := by
  cases change with
  | push p => exact .of_eq (plugins_of_push h)
  | reorder order =>
    rw [Change.added?, Option.toList_none, List.append_nil]
    exact perm_plugins_of_reorder h

/-- However calls follow each other, the plugins are those that were there and those added. -/
theorem perm_of_changes {changes : List Change} (h : changes.foldlM Change.apply c = .ok c') :
    c'.plugins.Perm (c.plugins ++ pushed changes) := by
  induction changes generalizing c with
  | nil =>
    cases h
    exact .of_eq (List.append_nil _).symm
  | cons change changes ih =>
    rw [List.foldlM_cons] at h
    obtain ⟨next, hnext, h⟩ := ok_of_bind h
    have hpushed : pushed (change :: changes) = change.added?.toList ++ pushed changes := by
      cases hadded : change.added? with
      | none => exact List.filterMap_cons_none hadded
      | some p => exact List.filterMap_cons_some hadded
    rw [hpushed, ← List.append_assoc]
    exact (ih h).trans ((perm_of_apply hnext).append_right _)

/-- **The order of a catalog.** However calls made a catalog, its ids are distinct, and its plugins
    are those that were added. A new order is taken exactly when no id comes twice in it and every
    id is in the catalog. Then these plugins come first, in the new order, and all others behind
    them, in the order that they had, so there are the same plugins with the same ids as before.
    Otherwise the error names the first id that is in the catalog no more: an unknown one, or one
    that came before. To want the same order again changes nothing. -/
theorem order_of_changes {changes : List Change} {c : Catalog}
    (h : changes.foldlM Change.apply empty = .ok c) :
    c.ids.Nodup ∧ c.plugins.Perm (pushed changes) ∧ ∀ order : List String,
      ((∃ c', c.reorder order = .ok c') ↔ order.Nodup ∧ ∀ id ∈ order, id ∈ c.ids)
      ∧ (∀ c', c.reorder order = .ok c' →
        c'.ids = order ++ c.ids.filter (· ∉ order)
        ∧ c'.plugins = order.filterMap c.find? ++ c.plugins.filter (·.id ∉ order)
        ∧ c'.plugins.Perm c.plugins ∧ ∀ id, c'.find? id = c.find? id)
      ∧ (∀ e, c.reorder order = .error e → ∃ taken id rest, order = taken ++ id :: rest
        ∧ taken.Nodup ∧ (∀ i ∈ taken, i ∈ c.ids) ∧ (id ∉ c.ids ∨ id ∈ taken)
        ∧ e = .unknownPlugin id)
      ∧ (c.reorder order >>= fun c' => c'.reorder order) = c.reorder order := by
  refine ⟨c.nodup, perm_of_changes h, fun order => ⟨reorder_succeeds_iff c order, fun c' hc' => ?_,
    fun e => error_of_reorder, reorder_reorder c order⟩⟩
  have hperm := perm_plugins_of_reorder hc'
  exact ⟨ids_of_reorder hc', (order_of_reorder hc').2.2, hperm, find?_of_perm hperm⟩

/-- Three plugins, one of which is moved while they are added. -/
theorem order_of_changes_threePlugins :
    ∃ c : Catalog, [Change.push Ym.plugin, .push Scl.plugin, .reorder ["SCL"],
        .push Ay.plugin].foldlM Change.apply empty = .ok c
      ∧ c.ids = ["SCL", "YM", "AY"] ∧ c.plugins.Perm [Ym.plugin, Scl.plugin, Ay.plugin]
      ∧ (∃ c', c.reorder ["AY", "SCL"] = .ok c' ∧ c'.ids = ["AY", "SCL", "YM"])
      ∧ c.reorder ["AY", "SCL", "AY", "MOD"] = .error (.unknownPlugin "AY")
      ∧ (c.reorder ["AY", "SCL"] >>= fun c' => c'.reorder ["AY", "SCL"])
        = c.reorder ["AY", "SCL"] := by
  have hmade : [Change.push Ym.plugin, .push Scl.plugin, .reorder ["SCL"],
      .push Ay.plugin].foldlM Change.apply empty
        = .ok ⟨[Scl.plugin, Ym.plugin, Ay.plugin], by decide⟩ := rfl
  obtain ⟨-, hperm, horder⟩ := order_of_changes hmade
  obtain ⟨htaken, hfront, -, hagain⟩ := horder ["AY", "SCL"]
  obtain ⟨c', hc'⟩ := htaken.2 (by decide)
  exact ⟨_, hmade, rfl, hperm, ⟨c', hc', (hfront c' hc').1⟩, rfl, hagain⟩

end Chiptune.Catalog
