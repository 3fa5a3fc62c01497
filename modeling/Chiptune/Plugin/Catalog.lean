import Chiptune.Plugin.Basic
import Chiptune.ScanError

namespace Chiptune

/-!
# Catalogs of plugins

A `Catalog` is a list of plugins in the order in which they are tried. No two have the same id.

* `Catalog.push` — add a plugin at the end;
* `Catalog.reorder` — move chosen plugins to the front.
-/

/-- Plugins with distinct ids. -/
structure Catalog where
  plugins : List Plugin
  nodup : (plugins.map Plugin.id).Nodup

namespace Catalog

/-- The catalog without plugins. -/
def empty : Catalog := ⟨[], List.nodup_nil⟩

/-- The ids in order. -/
def ids (c : Catalog) : List String := c.plugins.map Plugin.id

/-- The number of plugins. -/
def size (c : Catalog) : Nat := c.plugins.length

/-- The plugin with the given id. -/
def find? (c : Catalog) (id : String) : Option Plugin := c.plugins.find? fun p => p.id == id

/-- The plugins that open archives. -/
def archives (c : Catalog) : List Plugin := c.plugins.filter (·.decoder.isArchive)

/-- The plugins that read tunes. -/
def players (c : Catalog) : List Plugin := c.plugins.filter (!·.decoder.isArchive)

/-- The catalog with one more plugin, whose id has to be new. -/
def push (c : Catalog) (p : Plugin) : Except ScanError Catalog :=
  if h : p.id ∈ c.ids then .error (.settings (.duplicatePlugin p.id))
  else .ok ⟨c.plugins ++ [p], by
    rw [List.map_append, List.nodup_append]
    refine ⟨c.nodup, by simp, fun a ha b hb hab => h ?_⟩
    rw [List.map_cons, List.map_nil, List.mem_singleton] at hb
    exact hb ▸ hab ▸ ha⟩

/-! ### Order -/

/-- The plugin with the given id, and all others. -/
def pick? (id : String) : List Plugin → Option (Plugin × List Plugin)
  | [] => none
  | p :: rest =>
    if p.id = id then some (p, rest)
    else (pick? id rest).map fun (q, others) => (q, p :: others)

theorem perm_of_pick? {id : String} {plugins : List Plugin} {p : Plugin} {others : List Plugin}
    (h : pick? id plugins = some (p, others)) : (p :: others).Perm plugins := by
  induction plugins generalizing others with
  | nil => simp [pick?] at h
  | cons q rest ih =>
    simp only [pick?] at h
    split at h
    · simp only [Option.some.injEq, Prod.mk.injEq] at h
      obtain ⟨rfl, rfl⟩ := h
      exact List.Perm.refl _
    · obtain ⟨⟨r, left⟩, hpick, heq⟩ := Option.map_eq_some_iff.1 h
      simp only [Prod.mk.injEq] at heq
      obtain ⟨rfl, rfl⟩ := heq
      exact (List.Perm.swap ..).trans ((ih hpick).cons q)

/-- The plugins that `order` names, in this order, with all others behind them. An id that names no
    plugin, or one that was already moved, is refused. -/
def arrange : List String → List Plugin → Except ScanError (List Plugin)
  | [], plugins => .ok plugins
  | id :: order, plugins =>
    match pick? id plugins with
    | none => .error (.unknownPlugin id)
    | some (p, others) => (arrange order others).map (p :: ·)

theorem perm_of_arrange {order : List String} {plugins arranged : List Plugin}
    (h : arrange order plugins = .ok arranged) : arranged.Perm plugins := by
  induction order generalizing plugins arranged with
  | nil => cases h; exact List.Perm.refl _
  | cons id order ih =>
    simp only [arrange] at h
    split at h
    · cases h
    · rename_i p others hpick
      cases hrest : arrange order others with
      | error e => rw [hrest] at h; cases h
      | ok left =>
        rw [hrest] at h
        cases h
        exact ((ih hrest).cons p).trans (perm_of_pick? hpick)

/-- The catalog with the plugins named by `order` first. -/
def reorder (c : Catalog) (order : List String) : Except ScanError Catalog :=
  match h : arrange order c.plugins with
  | .error e => .error e
  | .ok arranged => .ok ⟨arranged, ((perm_of_arrange h).map Plugin.id).nodup_iff.2 c.nodup⟩

end Catalog

end Chiptune
