import Chiptune.Json.Properties
import Chiptune.Proofs.PropertyValues
import Chiptune.Proofs.WrittenJson

namespace Chiptune

/-!
# Properties that were written

A set of properties is read back from its JSON text.

* `Property.ofJson?_toJson` — a value is read back with its kind;
* `Properties.ofJson?_object`, `Properties.ofJson?_toJson` — what an object denotes, and that the
  object of a set denotes the set;
* `Properties.render_keeps` — so the text of a set denotes the set.
-/

namespace Property

theorem isWord_toInt (n : Int64) : Json.IsWord n.toInt := by
  have hlow := n.le_toInt
  have hhigh := n.toInt_lt
  unfold Json.IsWord
  simp only [UInt64.size]
  omega

theorem writable_toJson (v : Property) : v.toJson.Writable := by
  cases v with
  | integer n => exact .integer (isWord_toInt n)
  | text s => exact .text s

/-- A value is read back with its kind. -/
theorem ofJson?_toJson (v : Property) : ofJson? v.toJson = some v := by
  cases v with
  | integer n =>
    have hrange : Int64.minValue.toInt ≤ n.toInt ∧ n.toInt ≤ Int64.maxValue.toInt :=
      ⟨n.minValue_le_toInt, n.toInt_le⟩
    rw [toJson, ofJson?, if_pos hrange, Int64.ofInt_toInt]
  | text s => rfl

end Property

namespace Properties

/-! ### Objects -/

/-- The property that a field denotes, with its name. -/
def entry? (field : String × Json) : Option (String × Property) :=
  (Property.ofJson? field.2).map (field.1, ·)

theorem foldlM_eq_map_mapM (fields : List (String × Json)) (p : Properties) :
    fields.foldlM (fun p e => do return p.set e.1 (← Property.ofJson? e.2)) p
      = (fields.mapM entry?).map fun entries => entries.foldl (fun q e => q.set e.1 e.2) p := by
  induction fields generalizing p with
  | nil => rfl
  | cons field fields ih =>
    rw [List.foldlM_cons, List.mapM_cons, entry?]
    cases Property.ofJson? field.2 with
    | none => rfl
    | some value =>
      refine (ih (p.set field.1 value)).trans ?_
      cases fields.mapM entry? <;> rfl

/-- An object denotes a set when each of its fields denotes a property. -/
theorem ofJson?_object (fields : List (String × Json)) :
    ofJson? (.object fields)
      = (fields.mapM entry?).map fun entries => entries.foldl (fun q e => q.set e.1 e.2) ∅ :=
  foldlM_eq_map_mapM fields ∅

/-- Of values that are set one after the other the last one counts. -/
theorem get?_foldl_set_eq_lookup (entries : List (String × Property)) (p : Properties)
    (name : String) :
    (entries.foldl (fun q e => q.set e.1 e.2) p).get? name
      = (entries.reverse.lookup name).or (p.get? name) := by
  induction entries generalizing p with
  | nil => rfl
  | cons e entries ih =>
    rw [List.foldl_cons, ih, get?_set, List.reverse_cons, List.lookup_append, lookup_cons,
      Option.or_assoc]
    by_cases hname : name = e.1
    · rw [if_pos hname, if_pos hname]
      rfl
    · rw [if_neg hname, if_neg hname]
      rfl

theorem mapM_entry? (entries : List (String × Property)) :
    (entries.map fun e => (e.1, e.2.toJson)).mapM entry? = some entries := by
  induction entries with
  | nil => rfl
  | cons e entries ih =>
    rw [List.map_cons, List.mapM_cons, ih, entry?, Property.ofJson?_toJson]
    rfl

/-- Every set comes from setting its values one after the other. -/
theorem foldl_set_entries (p : Properties) :
    p.entries.foldl (fun q e => q.set e.1 e.2) ∅ = p := by
  refine ext_get? fun name => ?_
  rw [get?_foldl_set p.ascending]
  exact Option.or_none

/-- The object of a set denotes the set. -/
theorem ofJson?_toJson (p : Properties) : ofJson? p.toJson = some p := by
  rw [toJson, ofJson?_object, mapM_entry?, Option.map_some, foldl_set_entries]

theorem lookup_map_toJson (entries : List (String × Property)) (name : String) :
    (entries.map fun e => (e.1, e.2.toJson)).lookup name
      = (entries.lookup name).map Property.toJson := by
  induction entries with
  | nil => rfl
  | cons e entries ih =>
    rw [List.map_cons, List.lookup_cons, List.lookup_cons, ih]
    cases name == e.1 <;> rfl

/-! ### Sets as text -/

theorem writable_toJson (p : Properties) : p.toJson.Writable := by
  refine .object fun field hfield => ?_
  obtain ⟨e, -, rfl⟩ := List.mem_map.1 hfield
  exact e.2.writable_toJson

theorem parse?_render (p : Properties) : parse? p.render = some p := by
  rw [parse?, render, Json.parse?_compact p.writable_toJson, Option.bind_some, ofJson?_toJson]

theorem exists_object_of_parse? {text : String} {p : Properties} (h : parse? text = some p) :
    ∃ fields entries, Json.parse? text = some (.object fields)
      ∧ fields.mapM entry? = some entries ∧ ∀ name, p.get? name = entries.reverse.lookup name := by
  obtain ⟨v, hv, hp⟩ := Option.bind_eq_some_iff.1 h
  cases v with
  | object fields =>
    rw [ofJson?_object] at hp
    obtain ⟨entries, hentries, rfl⟩ := Option.map_eq_some_iff.1 hp
    refine ⟨fields, entries, hv, hentries, fun name => ?_⟩
    rw [get?_foldl_set_eq_lookup]
    exact Option.or_none
  | _ => cases hp

/-- **Properties are read back.** The text of a set denotes the set. It is an object, in which every
    name of the set has an integer or a text, of the kind that the set has. What any other text
    denotes is an object too, in which the last value of a name counts, and when it is written it is
    read back as well. -/
theorem render_keeps (p : Properties) :
    parse? p.render = some p
    ∧ (∃ fields, Json.parse? p.render = some (.object fields)
      ∧ ∀ name, fields.lookup name = (p.get? name).map Property.toJson)
    ∧ ∀ text q, parse? text = some q → parse? q.render = some q
      ∧ ∃ fields entries, Json.parse? text = some (.object fields)
        ∧ fields.mapM entry? = some entries
        ∧ ∀ name, q.get? name = entries.reverse.lookup name := by
  refine ⟨p.parse?_render, ⟨_, Json.parse?_compact p.writable_toJson, fun name => ?_⟩,
    fun text q hq => ⟨q.parse?_render, exists_object_of_parse? hq⟩⟩
  exact lookup_map_toJson p.entries name

/-- A name that is repeated has the kind of its last value, and keeps it. -/
theorem render_keeps_repeatedName :
    let fields : List (String × Json) :=
      [("Size", .integer 1), ("\n", .integer (-3)), ("Size", .text "1")]
    let p : Properties := ((∅ : Properties).set "Size" (.text "1")).set "\n" (.integer (-3))
    parse? (Json.object fields).compact = some p ∧ parse? p.render = some p
      ∧ p.get? "Size" = some (.text "1") ∧ p.get? "\n" = some (.integer (-3)) := by
  intro fields p
  have hwritable : (Json.object fields).Writable := by
    refine .object fun field hfield => ?_
    simp only [fields, List.mem_cons, List.not_mem_nil, or_false] at hfield
    rcases hfield with rfl | rfl | rfl
    · exact .integer ⟨by decide, by decide⟩
    · exact .integer ⟨by decide, by decide⟩
    · exact .text _
  have hparse : parse? (Json.object fields).compact = some p := by
    rw [parse?, Json.parse?_compact hwritable]
    rfl
  obtain ⟨-, -, hkeeps⟩ := render_keeps p
  exact ⟨hparse, (hkeeps _ p hparse).1, rfl, rfl⟩

end Properties

end Chiptune
