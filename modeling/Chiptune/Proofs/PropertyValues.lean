import Chiptune.Properties

namespace Chiptune.Properties

/-!
# Values of property sets

What `Properties.get?` reads behind each operation. Sets are equal when they have the same values,
so equations between operations follow.

* `get?_set`, `get?_setNonEmpty_of_ne`, `get?_overlay` — the values;
* `ext_get?` — equality by values;
* `Lacks` — sets without certain names, over which other sets can be laid in any order.
-/

variable {p q : Properties} {name other : String} {value : Property}

/-! ### Values -/

theorem lookup_cons (first : String) (value : Property) (rest : List (String × Property))
    (name : String) :
    ((first, value) :: rest).lookup name = if name = first then some value else rest.lookup name := by
  rw [List.lookup_cons]
  by_cases h : name = first
  · simp [h]
  · have hne : (name == first) = false := beq_eq_false_iff_ne.2 h
    rw [hne, if_neg h]

theorem lookup_insertEntry (name : String) (value : Property)
    (entries : List (String × Property)) (other : String) :
    (insertEntry name value entries).lookup other
      = if other = name then some value else entries.lookup other := by
  induction entries with
  | nil => exact lookup_cons name value [] other
  | cons head rest ih =>
    obtain ⟨first, old⟩ := head
    unfold insertEntry
    split
    · exact lookup_cons name value _ other
    · split
      · rename_i hsame
        rw [lookup_cons, lookup_cons, ← hsame]
        by_cases hother : other = name
        · rw [if_pos hother, if_pos hother]
        · rw [if_neg hother, if_neg hother, if_neg hother]
      · rename_i hdiffers
        rw [lookup_cons, lookup_cons, ih]
        by_cases hother : other = first
        · rw [if_pos hother, if_neg (hother ▸ Ne.symm hdiffers), if_pos hother]
        · rw [if_neg hother, if_neg hother]

@[simp] theorem get?_set (p : Properties) (name : String) (value : Property) (other : String) :
    (p.set name value).get? other = if other = name then some value else p.get? other :=
  lookup_insertEntry name value p.entries other

theorem get?_set_of_ne (p : Properties) (value : Property) (h : other ≠ name) :
    (p.set name value).get? other = p.get? other := by
  rw [get?_set, if_neg h]

theorem setNonEmpty_empty (p : Properties) (name : String) : p.setNonEmpty name "" = p := rfl

theorem setNonEmpty_of_ne (p : Properties) (name : String) {text : String} (h : text ≠ "") :
    p.setNonEmpty name text = p.set name (.text text) := by
  have hempty : ¬text.isEmpty = true := by simpa using h
  rw [setNonEmpty, if_neg hempty]

theorem get?_setNonEmpty_of_ne (p : Properties) (text : String) (h : other ≠ name) :
    (p.setNonEmpty name text).get? other = p.get? other := by
  by_cases htext : text = ""
  · rw [htext, setNonEmpty_empty]
  · rw [setNonEmpty_of_ne p name htext, get?_set_of_ne p _ h]

theorem lookup_eq_none_of_forall_lt {first : String} {entries : List (String × Property)}
    (h : ∀ e ∈ entries, first < e.1) : entries.lookup first = none := by
  refine List.lookup_eq_none_iff.2 fun e he => ?_
  simpa using String.ne_of_lt (h e he)

theorem get?_foldl_set {entries : List (String × Property)}
    (h : entries.Pairwise fun a b => a.1 < b.1) (p : Properties) (name : String) :
    (entries.foldl (fun q e => q.set e.1 e.2) p).get? name
      = (entries.lookup name).or (p.get? name) := by
  induction entries generalizing p with
  | nil => rfl
  | cons head rest ih =>
    obtain ⟨first, value⟩ := head
    obtain ⟨hfirst, hrest⟩ := List.pairwise_cons.1 h
    rw [List.foldl_cons, ih hrest, get?_set, lookup_cons]
    by_cases hname : name = first
    · -- The name does not come again behind its entry.
      rw [if_pos hname, if_pos hname, hname, lookup_eq_none_of_forall_lt hfirst]
      rfl
    · rw [if_neg hname, if_neg hname]

/-- The values of the inner set come first. -/
@[simp] theorem get?_overlay (p inner : Properties) (name : String) :
    (p.overlay inner).get? name = (inner.get? name).or (p.get? name) :=
  get?_foldl_set inner.ascending p name

/-! ### Equality -/

theorem eq_of_lookup_eq {entries others : List (String × Property)}
    (hentries : entries.Pairwise fun a b => a.1 < b.1)
    (hothers : others.Pairwise fun a b => a.1 < b.1)
    (h : ∀ name, entries.lookup name = others.lookup name) : entries = others := by
  induction entries generalizing others with
  | nil =>
    cases others with
    | nil => rfl
    | cons head rest =>
      have hhead := h head.1
      rw [lookup_cons, if_pos rfl] at hhead
      cases hhead
  | cons head rest ih =>
    obtain ⟨first, value⟩ := head
    cases others with
    | nil =>
      have hhead := h first
      rw [lookup_cons, if_pos rfl] at hhead
      cases hhead
    | cons head' rest' =>
      obtain ⟨first', value'⟩ := head'
      obtain ⟨hfirst, hrest⟩ := List.pairwise_cons.1 hentries
      obtain ⟨hfirst', hrest'⟩ := List.pairwise_cons.1 hothers
      -- The least name is the same, as each list has an entry for the first name of the other.
      have hle : ¬first < first' := by
        intro hlt
        have hnone : ((first', value') :: rest').lookup first = none := by
          refine lookup_eq_none_of_forall_lt (List.forall_mem_cons.2 ⟨hlt, fun e he => ?_⟩)
          exact String.lt_trans hlt (hfirst' e he)
        rw [← h, lookup_cons, if_pos rfl] at hnone
        cases hnone
      have hle' : ¬first' < first := by
        intro hlt
        have hnone : ((first, value) :: rest).lookup first' = none := by
          refine lookup_eq_none_of_forall_lt (List.forall_mem_cons.2 ⟨hlt, fun e he => ?_⟩)
          exact String.lt_trans hlt (hfirst e he)
        rw [h, lookup_cons, if_pos rfl] at hnone
        cases hnone
      obtain rfl : first = first' :=
        String.le_antisymm (String.not_lt.1 hle') (String.not_lt.1 hle)
      have hvalue := h first
      rw [lookup_cons, lookup_cons, if_pos rfl, if_pos rfl] at hvalue
      have htail : rest = rest' := by
        apply ih hrest hrest'
        intro name
        have hname := h name
        rw [lookup_cons, lookup_cons] at hname
        by_cases hsame : name = first
        · rw [hsame, lookup_eq_none_of_forall_lt hfirst, lookup_eq_none_of_forall_lt hfirst']
        · rwa [if_neg hsame, if_neg hsame] at hname
      rw [Option.some.inj hvalue, htail]

/-- Sets with the same values are equal. -/
theorem ext_get? (h : ∀ name, p.get? name = q.get? name) : p = q := by
  obtain ⟨entries, hp⟩ := p
  obtain ⟨others, hq⟩ := q
  obtain rfl : entries = others := eq_of_lookup_eq hp hq h
  rfl

/-! ### Order of changes -/

theorem set_comm (p : Properties) (value value' : Property) (h : name ≠ other) :
    (p.set name value).set other value' = (p.set other value').set name value := by
  refine ext_get? fun key => ?_
  rw [get?_set, get?_set, get?_set, get?_set]
  by_cases hkey : key = other
  · rw [if_pos hkey, if_neg (hkey ▸ Ne.symm h), if_pos hkey]
  · rw [if_neg hkey, if_neg hkey]

theorem set_set (p : Properties) (name : String) (value value' : Property) :
    (p.set name value).set name value' = p.set name value' := by
  refine ext_get? fun key => ?_
  rw [get?_set, get?_set, get?_set]
  by_cases hkey : key = name
  · rw [if_pos hkey, if_pos hkey]
  · rw [if_neg hkey, if_neg hkey, if_neg hkey]

/-- What an inner set does not name can be set before or behind it. -/
theorem set_overlay (p : Properties) (value : Property) (h : q.get? name = none) :
    (p.set name value).overlay q = (p.overlay q).set name value := by
  refine ext_get? fun key => ?_
  rw [get?_overlay, get?_set, get?_set, get?_overlay]
  by_cases hkey : key = name
  · rw [if_pos hkey, if_pos hkey, hkey, h]
    rfl
  · rw [if_neg hkey, if_neg hkey]

theorem overlay_set (p q : Properties) (name : String) (value : Property) :
    p.overlay (q.set name value) = (p.overlay q).set name value := by
  refine ext_get? fun key => ?_
  rw [get?_overlay, get?_set, get?_set, get?_overlay]
  by_cases hkey : key = name
  · rw [if_pos hkey, if_pos hkey]
    rfl
  · rw [if_neg hkey, if_neg hkey]

section

variable (p : Properties) (text : String)

theorem setNonEmpty_set_comm (value : Property) (h : name ≠ other) :
    (p.setNonEmpty name text).set other value = (p.set other value).setNonEmpty name text := by
  by_cases htext : text = ""
  · rw [htext, setNonEmpty_empty, setNonEmpty_empty]
  · rw [setNonEmpty_of_ne _ _ htext, setNonEmpty_of_ne _ _ htext, set_comm p _ _ h]

theorem setNonEmpty_comm (text' : String) (h : name ≠ other) :
    (p.setNonEmpty name text).setNonEmpty other text'
      = (p.setNonEmpty other text').setNonEmpty name text := by
  by_cases htext : text' = ""
  · rw [htext, setNonEmpty_empty, setNonEmpty_empty]
  · rw [setNonEmpty_of_ne _ _ htext, setNonEmpty_of_ne _ _ htext, setNonEmpty_set_comm p text _ h]

theorem setNonEmpty_setNonEmpty (name : String) {text' : String} (h : text' = "" → text = "") :
    (p.setNonEmpty name text).setNonEmpty name text' = p.setNonEmpty name text' := by
  by_cases htext : text = ""
  · rw [htext, setNonEmpty_empty]
  · have htext' : text' ≠ "" := fun hempty => htext (h hempty)
    rw [setNonEmpty_of_ne _ _ htext, setNonEmpty_of_ne _ _ htext', setNonEmpty_of_ne _ _ htext',
      set_set]

theorem setNonEmpty_overlay (h : q.get? name = none) :
    (p.setNonEmpty name text).overlay q = (p.overlay q).setNonEmpty name text := by
  by_cases htext : text = ""
  · rw [htext, setNonEmpty_empty, setNonEmpty_empty]
  · rw [setNonEmpty_of_ne _ _ htext, setNonEmpty_of_ne _ _ htext, set_overlay p _ h]

end

/-! ### Names that are missing -/

/-- Whether a set has no value for any of some names. -/
def Lacks (p : Properties) (names : List String) : Prop := ∀ name ∈ names, p.get? name = none

theorem lacks_empty (names : List String) : (∅ : Properties).Lacks names := fun _ _ => rfl

theorem Lacks.set {names : List String} (h : p.Lacks names) (hname : name ∉ names)
    (value : Property) : (p.set name value).Lacks names := by
  intro key hkey
  rw [get?_set_of_ne p value (ne_of_mem_of_not_mem hkey hname)]
  exact h key hkey

theorem Lacks.setNonEmpty {names : List String} (h : p.Lacks names) (hname : name ∉ names)
    (text : String) : (p.setNonEmpty name text).Lacks names := by
  intro key hkey
  rw [get?_setNonEmpty_of_ne p text (ne_of_mem_of_not_mem hkey hname)]
  exact h key hkey

/-! ### The container chain -/

/-- The plugins of the containers around a tune. -/
def chain (p : Properties) : String := (p.text? Key.container).getD ""

/-- A chain with one more plugin behind it. -/
def link (chain id : String) : String :=
  if chain.isEmpty then id else chain.push containerDelimiter ++ id

theorem pushContainer_eq (p : Properties) (id : String) :
    p.pushContainer id = p.set Key.container (.text (link p.chain id)) := rfl

theorem chain_eq_of_get? (h : p.get? Key.container = q.get? Key.container) : p.chain = q.chain := by
  rw [chain, chain, text?, text?, h]

theorem chain_set_of_ne (p : Properties) (value : Property) (h : Key.container ≠ name) :
    (p.set name value).chain = p.chain :=
  chain_eq_of_get? (get?_set_of_ne p value h)

theorem chain_set_container (p : Properties) (chain : String) :
    (p.set Key.container (.text chain)).chain = chain := by
  rw [Properties.chain, text?, get?_set, if_pos rfl]
  rfl

theorem setNonEmpty_pushContainer (p : Properties) (text id : String)
    (h : name ≠ Key.container) :
    (p.setNonEmpty name text).pushContainer id = (p.pushContainer id).setNonEmpty name text := by
  by_cases htext : text = ""
  · rw [htext, setNonEmpty_empty, setNonEmpty_empty]
  · rw [setNonEmpty_of_ne _ _ htext, setNonEmpty_of_ne _ _ htext, pushContainer_eq,
      pushContainer_eq, chain_set_of_ne p _ h.symm, set_comm p _ _ h]

/-- The set with `id` before the container chain. -/
def enclose (p : Properties) (id : String) : Properties :=
  p.set Key.container
    (.text (if p.chain.isEmpty then id else id.push containerDelimiter ++ p.chain))

theorem set_enclose (p : Properties) (value : Property) (id : String)
    (h : name ≠ Key.container) :
    (p.set name value).enclose id = (p.enclose id).set name value := by
  rw [enclose, enclose, chain_set_of_ne p value h.symm, set_comm p _ _ h]

theorem enclose_overlay (p : Properties) (id : String) (h : q.get? Key.container = none) :
    (p.enclose id).overlay q = (p.overlay q).enclose id := by
  have hchain : (p.overlay q).chain = p.chain := by
    apply chain_eq_of_get?
    rw [get?_overlay, h]
    rfl
  rw [enclose, enclose, hchain, set_overlay p _ h]

theorem overlay_enclose (q : Properties) (id : String) (h : p.get? Key.container = none) :
    p.overlay (q.enclose id) = (p.overlay q).enclose id := by
  have hchain : (p.overlay q).chain = q.chain := by
    apply chain_eq_of_get?
    rw [get?_overlay, h, Option.or_none]
  rw [enclose, enclose, hchain, overlay_set]

/-- A plugin before the chain and one behind it do not meet. -/
theorem pushContainer_enclose (p : Properties) {id last : String} (hid : id ≠ "")
    (hlast : last ≠ "") : (p.pushContainer last).enclose id = (p.enclose id).pushContainer last := by
  have hid : ¬id.isEmpty = true := by simpa using hid
  have hlast : ¬last.isEmpty = true := by simpa using hlast
  have hassoc : id.push containerDelimiter ++ (p.chain.push containerDelimiter ++ last)
      = (id.push containerDelimiter ++ p.chain).push containerDelimiter ++ last := by
    apply String.toList_injective
    simp
  rw [pushContainer_eq, pushContainer_eq, enclose, enclose, chain_set_container,
    chain_set_container, set_set, set_set]
  unfold link
  by_cases hchain : p.chain.isEmpty = true
  · rw [if_pos hchain, if_pos hchain, if_neg hlast, if_neg hid]
  · have hpush : ¬(p.chain.push containerDelimiter ++ last).isEmpty = true := by simp
    have hfront : ¬(id.push containerDelimiter ++ p.chain).isEmpty = true := by simp
    rw [if_neg hchain, if_neg hchain, if_neg hpush, if_neg hfront, hassoc]

end Chiptune.Properties
