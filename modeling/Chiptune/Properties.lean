namespace Chiptune

/-!
# Properties

Named values that describe a tune. A `Properties` set holds each name once, in ascending order, so
two sets with the same values are equal.

* `Properties.set`, `Properties.overlay` — write one value, or all values of an inner set;
* `Properties.get?` — read one;
* `Properties.pushContainer` — extend the chain of containers a tune was found in.
-/

/-- The value of a property: a 64-bit integer or a text. -/
inductive Property where
  | integer (value : Int64)
  | text (value : String)
deriving DecidableEq

namespace Property

/-- The integer for a size or a count. One beyond the 64-bit range becomes the greatest integer. -/
def ofNat (n : Nat) : Property := .integer (Int64.ofNat (min n 0x7fffffffffffffff))

/-- The value as text. -/
def render : Property → String
  | .integer value => toString value.toInt
  | .text value => value

/-- The integer, if the value is one. -/
def integer? : Property → Option Int64
  | .integer value => some value
  | .text _ => none

/-- The text, if the value is one. -/
def text? : Property → Option String
  | .integer _ => none
  | .text value => some value

end Property

/-! ### Well-known names -/

namespace Key

/-- The plugin that recognised the tune. -/
def type : String := "Type"

/-- The plugins whose containers the tune was found in, outermost first. -/
def container : String := "Container"

/-- Where the tune lies inside the file. -/
def subpath : String := "Subpath"

/-- The name of the file. -/
def filename : String := "Filename"

/-- The extension of the file, without the dot. -/
def extension : String := "Extension"

/-- The path of the file. -/
def path : String := "Path"

/-- The path of the file together with the path inside. -/
def fullpath : String := "Fullpath"

/-- The checksum of all bytes of the tune. -/
def crc : String := "CRC"

/-- The checksum of the bytes that make the tune, however it is packaged. -/
def fixedCrc : String := "FixedCRC"

/-- The number of bytes of the tune. -/
def size : String := "Size"

/-- The title. -/
def title : String := "Title"

/-- The author or composer. -/
def author : String := "Author"

/-- A free comment. -/
def comment : String := "Comment"

/-- The year or date of release. -/
def date : String := "Date"

/-- The format or program the tune was made for. -/
def program : String := "Program"

/-- The number of frames, when it is known. -/
def frames : String := "Frames"

/-- The track a file of several tunes begins with, when it is not the first. -/
def defaultTrack : String := "DefaultTrack"

end Key

/-! ### Sets of properties -/

/-- Entries in strictly ascending order of names. -/
structure Properties where
  entries : List (String × Property)
  ascending : entries.Pairwise (fun a b => a.1 < b.1) := by exact List.Pairwise.nil
deriving DecidableEq

namespace Properties

instance : EmptyCollection Properties := ⟨⟨[], List.Pairwise.nil⟩⟩

instance : Inhabited Properties := ⟨∅⟩

/-- Put the value of `name` into an ascending list. -/
def insertEntry (name : String) (value : Property) :
    List (String × Property) → List (String × Property)
  | [] => [(name, value)]
  | (other, old) :: rest =>
    if name < other then (name, value) :: (other, old) :: rest
    else if name = other then (name, value) :: rest
    else (other, old) :: insertEntry name value rest

theorem mem_insertEntry {name : String} {value : Property} {entries : List (String × Property)}
    {e : String × Property} (h : e ∈ insertEntry name value entries) :
    e = (name, value) ∨ e ∈ entries := by
  induction entries with
  | nil => exact .inl (List.mem_singleton.1 h)
  | cons head rest ih =>
    obtain ⟨other, old⟩ := head
    simp only [insertEntry] at h
    split at h
    · exact (List.mem_cons.1 h).imp id id
    · split at h
      · exact (List.mem_cons.1 h).imp id (List.mem_cons_of_mem _)
      · rcases List.mem_cons.1 h with rfl | h
        · exact .inr (List.mem_cons_self ..)
        · exact (ih h).imp id (List.mem_cons_of_mem _)

theorem pairwise_insertEntry (name : String) (value : Property)
    (entries : List (String × Property)) (h : entries.Pairwise (fun a b => a.1 < b.1)) :
    (insertEntry name value entries).Pairwise (fun a b => a.1 < b.1) := by
  induction entries with
  | nil => exact List.pairwise_singleton ..
  | cons head rest ih =>
    obtain ⟨other, old⟩ := head
    have ⟨hhead, hrest⟩ := List.pairwise_cons.1 h
    simp only [insertEntry]
    split
    · rename_i hlt
      refine List.pairwise_cons.2 ⟨fun e he => ?_, h⟩
      rcases List.mem_cons.1 he with rfl | he
      · exact hlt
      · exact String.lt_trans hlt (hhead e he)
    · rename_i hnlt
      split
      · rename_i heq
        subst heq
        exact List.pairwise_cons.2 ⟨hhead, hrest⟩
      · rename_i hne
        refine List.pairwise_cons.2 ⟨fun e he => ?_, ih hrest⟩
        rcases mem_insertEntry he with rfl | he
        · exact Decidable.byContradiction fun h =>
            hne (String.le_antisymm (String.not_lt.1 h) (String.not_lt.1 hnlt))
        · exact hhead e he

/-- The set in which `name` has the given value. -/
def set (p : Properties) (name : String) (value : Property) : Properties :=
  ⟨insertEntry name value p.entries, pairwise_insertEntry _ _ _ p.ascending⟩

/-- The set in which `name` has the given text, unless the text is empty. -/
def setNonEmpty (p : Properties) (name text : String) : Properties :=
  if text.isEmpty then p else p.set name (.text text)

/-- The value of `name`. -/
def get? (p : Properties) (name : String) : Option Property := p.entries.lookup name

/-- The text of `name`, if it has one. -/
def text? (p : Properties) (name : String) : Option String := (p.get? name).bind Property.text?

/-- The integer of `name`, if it has one. -/
def integer? (p : Properties) (name : String) : Option Int64 :=
  (p.get? name).bind Property.integer?

/-- Whether `name` has a value. -/
def contains (p : Properties) (name : String) : Bool := (p.get? name).isSome

/-- The set whose values are those of `inner`, and those of `p` for all other names. -/
def overlay (p inner : Properties) : Properties :=
  inner.entries.foldl (fun q e => q.set e.1 e.2) p

/-- The mark between the plugins of a container chain. -/
def containerDelimiter : Char := '>'

/-- The set in which the container chain is longer by `id`. -/
def pushContainer (p : Properties) (id : String) : Properties :=
  let chain := (p.text? Key.container).getD ""
  p.set Key.container (.text (if chain.isEmpty then id else chain.push containerDelimiter ++ id))

/-- The number of properties. -/
def size (p : Properties) : Nat := p.entries.length

/-- Whether no property is set. -/
def isEmpty (p : Properties) : Bool := p.entries.isEmpty

end Properties

end Chiptune
