import Chiptune.Claims
import Mathlib.Algebra.GroupWithZero.Nat
import Mathlib.Data.List.Dedup
import Mathlib.Data.List.Pairwise

namespace Chiptune

/-!
# Ledgers under any calls

A ledger compares a region with one neighbour, the last admitted region that begins before its end.
That this decides whether it overlaps any admitted region at all rests on the order of the regions,
which every call keeps.

* `Region.Apart` — regions without a common byte;
* `Claims.Ordered` — regions none of which reaches into another, and what one neighbour tells of
  them: `Claims.Ordered.add?_of_apart`, `Claims.Ordered.add?_of_not_apart`;
* `Claims.Records` — what a ledger keeps of the regions it has admitted; `Claims.Records.add?` is
  the step and `Claims.Records.after` the run;
* `Claims.account_after` — what follows for a ledger under any sequence of calls.
-/

namespace Region

/-- Whether the byte at `i` belongs to the region. -/
def Holds (r : Region) (i : Nat) : Prop := r.offset ≤ i ∧ i < r.stop

/-- Whether two regions have no byte in common. -/
def Apart (r s : Region) : Prop := ∀ i, r.Holds i → ¬s.Holds i

theorem Apart.symm {r s : Region} (h : r.Apart s) : s.Apart r := fun i hs hr => h i hr hs

/-- Of two regions that are apart one ends before the other begins. -/
theorem apart_iff {r s : Region} (hr : r.size ≠ 0) (hs : s.size ≠ 0) :
    r.Apart s ↔ r.stop ≤ s.offset ∨ s.stop ≤ r.offset := by
  constructor
  · intro h
    by_contra hnot
    -- Both hold the byte where the later one begins.
    have hr' : r.Holds (max r.offset s.offset) := by
      unfold Holds stop at *
      omega
    have hs' : s.Holds (max r.offset s.offset) := by
      unfold Holds stop at *
      omega
    exact h _ hr' hs'
  · intro h i hi hi'
    unfold Holds at hi hi'
    omega

theorem not_apart_self {r : Region} (hr : r.size ≠ 0) : ¬r.Apart r := by
  rw [apart_iff hr hr]
  unfold stop
  omega

end Region

namespace Claims

/-! ### Regions in order -/

theorem perm_insert (r : Region) (regions : List Region) :
    (insert r regions).Perm (r :: regions) := by
  induction regions with
  | nil => exact List.Perm.refl _
  | cons s rest ih =>
    unfold insert
    split
    · exact List.Perm.refl _
    · exact (ih.cons s).trans (List.Perm.swap r s rest)

theorem mem_insert {r s : Region} {regions : List Region} :
    s ∈ insert r regions ↔ s = r ∨ s ∈ regions := by
  rw [(perm_insert r regions).mem_iff, List.mem_cons]

/-- The sum of the sizes. -/
def sizes (regions : List Region) : Nat := (regions.map Region.size).sum

theorem sizes_cons (r : Region) (regions : List Region) :
    sizes (r :: regions) = r.size + sizes regions := List.sum_cons

theorem sizes_append (regions others : List Region) :
    sizes (regions ++ others) = sizes regions + sizes others := by
  rw [sizes, List.map_append, List.sum_append]
  rfl

theorem sizes_perm {regions others : List Region} (h : regions.Perm others) :
    sizes regions = sizes others := (h.map Region.size).sum_nat

/-- Whether regions hold bytes, all before `limit`, and come last one first, so that none reaches
    into one that stands before it in the list. -/
structure Ordered (limit : Nat) (regions : List Region) : Prop where
  nonempty : ∀ r ∈ regions, r.size ≠ 0
  stops : ∀ r ∈ regions, r.stop ≤ limit
  descending : regions.Pairwise fun r s => s.stop ≤ r.offset

theorem ordered_nil (limit : Nat) : Ordered limit [] :=
  ⟨List.forall_mem_nil _, List.forall_mem_nil _, List.Pairwise.nil⟩

namespace Ordered

variable {limit : Nat} {regions : List Region}

theorem apart (h : Ordered limit regions) : regions.Pairwise Region.Apart := by
  apply h.descending.imp_of_mem
  intro r s hr hs hle
  exact (Region.apart_iff (h.nonempty r hr) (h.nonempty s hs)).2 (.inr hle)

theorem eq_or_apart (h : Ordered limit regions) {r s : Region} (hr : r ∈ regions)
    (hs : s ∈ regions) : r = s ∨ r.Apart s := by
  by_cases hne : r = s
  · exact .inl hne
  · have : Std.Symm Region.Apart := ⟨fun _ _ hapart => hapart.symm⟩
    exact .inr (h.apart.forall hr hs hne)

/-- Regions that are apart fit side by side. -/
theorem sizes_le (h : Ordered limit regions) : sizes regions ≤ limit := by
  induction regions generalizing limit with
  | nil => exact Nat.zero_le limit
  | cons r rest ih =>
    obtain ⟨hnonempty, hstops, hdescending⟩ := h
    rw [List.pairwise_cons] at hdescending
    -- All others end before the first one begins.
    have hrest : sizes rest ≤ r.offset :=
      ih ⟨fun s hs => hnonempty s (List.mem_cons_of_mem r hs), hdescending.1, hdescending.2⟩
    have hstop : r.offset + r.size ≤ limit := hstops r List.mem_cons_self
    rw [sizes_cons]
    omega

theorem descending_insert (h : Ordered limit regions) {r : Region} (hsize : r.size ≠ 0)
    (hapart : ∀ s ∈ regions, r.Apart s) :
    (Claims.insert r regions).Pairwise fun r s => s.stop ≤ r.offset := by
  induction regions with
  | nil => exact List.pairwise_singleton _ r
  | cons s rest ih =>
    obtain ⟨hnonempty, hstops, hdescending⟩ := h
    rw [List.pairwise_cons] at hdescending
    have hsne := hnonempty s List.mem_cons_self
    have hsides := (Region.apart_iff hsize hsne).1 (hapart s List.mem_cons_self)
    unfold Region.stop at hsides
    unfold Claims.insert
    split
    · -- The region begins behind `s`, so behind all others too.
      have hs : s.stop ≤ r.offset := by
        unfold Region.stop
        omega
      refine List.pairwise_cons.2 ⟨fun t ht => ?_, List.pairwise_cons.2 hdescending⟩
      rcases List.mem_cons.1 ht with rfl | ht
      · exact hs
      · have hts := hdescending.1 t ht
        unfold Region.stop at *
        omega
    · have hr : r.stop ≤ s.offset := by
        unfold Region.stop
        omega
      refine List.pairwise_cons.2 ⟨fun t ht => ?_, ?_⟩
      · rcases mem_insert.1 ht with rfl | ht
        · exact hr
        · exact hdescending.1 t ht
      · exact ih ⟨fun t ht => hnonempty t (List.mem_cons_of_mem s ht),
          fun t ht => hstops t (List.mem_cons_of_mem s ht), hdescending.2⟩
          fun t ht => hapart t (List.mem_cons_of_mem s ht)

theorem insert (h : Ordered limit regions) {r : Region} (hsize : r.size ≠ 0)
    (hstop : r.stop ≤ limit) (hapart : ∀ s ∈ regions, r.Apart s) :
    Ordered limit (Claims.insert r regions) := by
  refine ⟨fun s hs => ?_, fun s hs => ?_, h.descending_insert hsize hapart⟩
  · rcases mem_insert.1 hs with rfl | hs
    · exact hsize
    · exact h.nonempty s hs
  · rcases mem_insert.1 hs with rfl | hs
    · exact hstop
    · exact h.stops s hs

end Ordered

/-! ### One neighbour -/

section

variable {c : Claims} {r s : Region}

/-- All other regions begin at the end or later, or end before the last one begins. -/
theorem Ordered.of_lastBefore {limit stop : Nat} (h : Ordered limit c.regions)
    (hlast : c.lastBefore stop = some s) :
    s ∈ c.regions ∧ s.offset < stop
      ∧ ∀ t ∈ c.regions, t = s ∨ stop ≤ t.offset ∨ t.stop ≤ s.offset := by
  refine ⟨List.mem_of_find?_eq_some hlast, by simpa using List.find?_some hlast, ?_⟩
  obtain ⟨-, above, below, hregions, habove⟩ := List.find?_eq_some_iff_append.1 hlast
  have hdescending := h.descending
  rw [hregions, List.pairwise_append, List.pairwise_cons] at hdescending
  intro t ht
  rw [hregions] at ht
  -- Those above the one that was found begin too late, and those below it end before it begins.
  rcases List.mem_append.1 ht with ht | ht
  · have hnot := habove t ht
    exact .inr (.inl (by simpa using hnot))
  · rcases List.mem_cons.1 ht with rfl | ht
    · exact .inl rfl
    · exact .inr (.inr (hdescending.2.1.1 t ht))

theorem le_offset_of_lastBefore {stop : Nat} (hlast : c.lastBefore stop = none) :
    ∀ s ∈ c.regions, stop ≤ s.offset := by
  intro s hs
  have hnot := List.find?_eq_none.1 hlast s hs
  simpa using hnot

/-- A region that no policy but that of a sum refuses for itself is looked up in the ledger. -/
theorem add?_of_fits (hpolicy : c.policy ≠ .total) (hsize : r.size ≠ 0)
    (hword : r.stop < UInt64.size) (hlimit : r.stop ≤ c.limit) :
    c.add? r = match c.lastBefore r.stop with
      | some s =>
        if r.offset < s.stop then if c.policy = .shared ∧ s = r then some c else none
        else some (c.grant r)
      | none => some (c.grant r) := by
  have hvalid : ¬(r.size = 0 ∨ UInt64.size ≤ r.stop) := by omega
  have hinside : ¬c.limit < r.stop := by omega
  unfold add?
  rw [if_neg hvalid]
  cases hp : c.policy with
  | total => exact absurd hp hpolicy
  | disjoint => exact if_neg hinside
  | shared => exact if_neg hinside

theorem add?_of_not_fits (hpolicy : c.policy ≠ .total)
    (h : ¬(r.size ≠ 0 ∧ r.stop < UInt64.size ∧ r.stop ≤ c.limit)) : c.add? r = none := by
  unfold add?
  by_cases hvalid : r.size = 0 ∨ UInt64.size ≤ r.stop
  · rw [if_pos hvalid]
  · have hlimit : c.limit < r.stop := by omega
    rw [if_neg hvalid]
    cases hp : c.policy with
    | total => exact absurd hp hpolicy
    | disjoint => exact if_pos hlimit
    | shared => exact if_pos hlimit

theorem add?_of_size_eq_zero (c : Claims) (h : r.size = 0) : c.add? r = none := by
  rw [add?, if_pos (.inl h)]

theorem size_ne_zero_of_add? {claims : Claims} (h : c.add? r = some claims) : r.size ≠ 0 := by
  intro hsize
  rw [add?_of_size_eq_zero c hsize] at h
  cases h

/-- What is apart from every region is granted. -/
theorem Ordered.add?_of_apart (h : Ordered c.limit c.regions) (hpolicy : c.policy ≠ .total)
    (hsize : r.size ≠ 0) (hword : r.stop < UInt64.size) (hlimit : r.stop ≤ c.limit)
    (hapart : ∀ s ∈ c.regions, r.Apart s) : c.add? r = some (c.grant r) := by
  rw [add?_of_fits hpolicy hsize hword hlimit]
  cases hlast : c.lastBefore r.stop with
  | none => rfl
  | some s =>
    obtain ⟨hs, hbefore, -⟩ := h.of_lastBefore hlast
    have hsides := (Region.apart_iff hsize (h.nonempty s hs)).1 (hapart s hs)
    exact if_neg (by omega)

/-- What overlaps some region overlaps the neighbour, so it is granted only when a shared ledger has
    it already. -/
theorem Ordered.add?_of_not_apart (h : Ordered c.limit c.regions) (hpolicy : c.policy ≠ .total)
    (hsize : r.size ≠ 0) (hword : r.stop < UInt64.size) (hlimit : r.stop ≤ c.limit)
    (hs : s ∈ c.regions) (hoverlap : ¬r.Apart s) :
    c.add? r = if c.policy = .shared ∧ r ∈ c.regions then some c else none := by
  rw [add?_of_fits hpolicy hsize hword hlimit]
  rw [Region.apart_iff hsize (h.nonempty s hs)] at hoverlap
  cases hlast : c.lastBefore r.stop with
  | none =>
    have hle := le_offset_of_lastBefore hlast s hs
    omega
  | some t =>
    obtain ⟨ht, hbefore, hothers⟩ := h.of_lastBefore hlast
    -- Another region than the neighbour reaches into `r` only across the neighbour.
    have hreach : r.offset < t.stop := by
      rcases hothers s hs with rfl | hlater | hearlier
      · omega
      · omega
      · have hoffset : t.offset ≤ t.stop := Nat.le_add_right ..
        omega
    -- The regions hold no other that overlaps the neighbour.
    have hsame : t = r ↔ r ∈ c.regions := by
      constructor
      · rintro rfl
        exact ht
      · intro hr
        rcases h.eq_or_apart hr ht with heq | hapart
        · exact heq.symm
        · rw [Region.apart_iff hsize (h.nonempty t ht)] at hapart
          omega
    simp only [if_pos hreach, hsame]

end

/-! ### What a ledger records -/

/-- The lowest offset and the highest end of some regions. -/
def stretch (regions : List Region) : Option (Nat × Nat) := do
  return (← (regions.map Region.offset).min?, ← (regions.map Region.stop).max?)

theorem stretch_concat (regions : List Region) (r : Region) :
    stretch (regions ++ [r]) = some (cover (stretch regions) r) := by
  cases regions with
  | nil => rfl
  | cons s rest =>
    simp only [stretch, cover, List.cons_append, List.map_cons, List.map_append, List.map_nil,
      List.min?_cons', List.max?_cons', List.foldl_append, List.foldl_cons, List.foldl_nil]
    rfl

theorem cover_stretch_of_mem {regions : List Region} {r : Region} (h : r ∈ regions) :
    some (cover (stretch regions) r) = stretch regions := by
  have hne : regions ≠ [] := List.ne_nil_of_mem h
  obtain ⟨low, hlow⟩ := Option.ne_none_iff_exists'.1
    (mt List.min?_eq_none_iff.1 (mt List.map_eq_nil_iff.1 hne) :
      (regions.map Region.offset).min? ≠ none)
  obtain ⟨high, hhigh⟩ := Option.ne_none_iff_exists'.1
    (mt List.max?_eq_none_iff.1 (mt List.map_eq_nil_iff.1 hne) :
      (regions.map Region.stop).max? ≠ none)
  have hle := (List.min?_eq_some_iff.1 hlow).2 _ (List.mem_map_of_mem h)
  have hle' := (List.max?_eq_some_iff.1 hhigh).2 _ (List.mem_map_of_mem h)
  simp [stretch, hlow, hhigh, cover, Nat.min_eq_left hle, Nat.max_eq_left hle']

/-- The regions whose sizes count. In a shared ledger each of them counts once, however often it was
    admitted. -/
def counted (policy : Policy) (held : List Region) : List Region :=
  match policy with
  | .shared => held.dedup
  | _ => held

theorem mem_counted {policy : Policy} {held : List Region} {r : Region} :
    r ∈ counted policy held ↔ r ∈ held := by
  cases policy with
  | shared => exact List.mem_dedup
  | _ => exact Iff.rfl

theorem perm_counted_concat (policy : Policy) {held : List Region} {r : Region} (h : r ∉ held) :
    (counted policy (held ++ [r])).Perm (r :: counted policy held) := by
  cases policy with
  | shared =>
    have hnodup : (r :: held.dedup).Nodup :=
      List.nodup_cons.2 ⟨mt List.mem_dedup.1 h, List.nodup_dedup held⟩
    refine (List.perm_ext_iff_of_nodup (List.nodup_dedup _) hnodup).2 fun s => ?_
    simp [or_comm]
  | _ => exact List.perm_append_singleton r held

theorem perm_counted_concat_of_mem {held : List Region} {r : Region} (h : r ∈ held) :
    (counted .shared (held ++ [r])).Perm (counted .shared held) := by
  refine (List.perm_ext_iff_of_nodup (List.nodup_dedup _) (List.nodup_dedup _)).2 fun s => ?_
  simp only [List.mem_dedup, List.mem_append, List.mem_singleton, or_iff_left_iff_imp]
  rintro rfl
  exact h

/-- Whether a ledger is one that has admitted the regions of `held`, in the order of the calls. The
    regions themselves are kept by all policies but that of a sum. -/
structure Records (policy : Policy) (limit : Nat) (c : Claims) (held : List Region) : Prop where
  policy_eq : c.policy = policy
  limit_eq : c.limit = limit
  ordered : Ordered limit c.regions
  regions : policy ≠ .total → c.regions.Perm (counted policy held)
  total : c.total = sizes (counted policy held)
  total_le : c.total ≤ limit
  span : c.span = stretch held

/-- Whether a ledger that holds the regions of `held` admits `r`. A sum looks at sizes alone, and
    the other policies compare `r` with every region. -/
def Admissible (policy : Policy) (limit : Nat) (held : List Region) (r : Region) : Prop :=
  r.size ≠ 0 ∧ r.stop < UInt64.size ∧ match policy with
    | .total => sizes held + r.size ≤ limit
    | .disjoint => r.stop ≤ limit ∧ ∀ s ∈ held, r.Apart s
    | .shared => r.stop ≤ limit ∧ (r ∈ held ∨ ∀ s ∈ held, r.Apart s)

theorem records_empty (policy : Policy) (limit : Nat) :
    Records policy limit (empty policy limit) [] where
  policy_eq := rfl
  limit_eq := rfl
  ordered := ordered_nil limit
  regions _ := by cases policy <;> exact List.Perm.refl _
  total := by cases policy <;> rfl
  total_le := Nat.zero_le limit
  span := rfl

namespace Records

variable {policy : Policy} {limit : Nat} {c : Claims} {held : List Region} {r : Region}

theorem mem_regions (h : Records policy limit c held) (hpolicy : policy ≠ .total) :
    r ∈ c.regions ↔ r ∈ held :=
  (h.regions hpolicy).mem_iff.trans mem_counted

/-- In a sum only the sizes are looked at. -/
theorem add?_of_total (h : Records .total limit c held) (r : Region) :
    c.add? r = if r.size ≠ 0 ∧ r.stop < UInt64.size ∧ sizes held + r.size ≤ limit then
      some { c with total := c.total + r.size, span := cover c.span r } else none := by
  have htotal : c.total = sizes held := h.total
  unfold add?
  by_cases hvalid : r.size = 0 ∨ UInt64.size ≤ r.stop
  · rw [if_pos hvalid, if_neg (by omega)]
  · rw [if_neg hvalid, h.policy_eq]
    simp only [h.limit_eq, htotal]
    by_cases hfits : sizes held + r.size ≤ limit
    · rw [if_pos hfits, if_pos (by omega)]
    · rw [if_neg hfits, if_neg (by omega)]

theorem concat_of_total (h : Records .total limit c held) (hle : sizes held + r.size ≤ limit) :
    Records .total limit { c with total := c.total + r.size, span := cover c.span r }
      (held ++ [r]) := by
  have htotal : c.total = sizes held := h.total
  refine ⟨h.policy_eq, h.limit_eq, h.ordered, fun hne => absurd rfl hne, ?_, ?_, ?_⟩
  · show c.total + r.size = sizes (held ++ [r])
    rw [htotal, sizes_append]
    rfl
  · show c.total + r.size ≤ limit
    rw [htotal]
    exact hle
  · show some (cover c.span r) = stretch (held ++ [r])
    rw [stretch_concat, h.span]

/-- A region that is granted is recorded with the others. -/
theorem grant (h : Records policy limit c held) (hpolicy : policy ≠ .total) (hsize : r.size ≠ 0)
    (hlimit : r.stop ≤ limit) (hapart : ∀ s ∈ held, r.Apart s) :
    Records policy limit (c.grant r) (held ++ [r]) := by
  -- No region is apart from itself, so this one is new.
  have hmem : r ∉ held := fun hr => Region.not_apart_self hsize (hapart r hr)
  have hordered : Ordered limit (insert r c.regions) :=
    h.ordered.insert hsize hlimit fun s hs => hapart s ((h.mem_regions hpolicy).1 hs)
  have hregions : (insert r c.regions).Perm (counted policy (held ++ [r])) :=
    (perm_insert r c.regions).trans
      (((h.regions hpolicy).cons r).trans (perm_counted_concat policy hmem).symm)
  have htotal : c.total + r.size = sizes (counted policy (held ++ [r])) := by
    rw [sizes_perm (perm_counted_concat policy hmem), sizes_cons, h.total, Nat.add_comm]
  refine ⟨h.policy_eq, h.limit_eq, hordered, fun _ => hregions, htotal, ?_, ?_⟩
  · show c.total + r.size ≤ limit
    rw [htotal, ← sizes_perm hregions]
    exact hordered.sizes_le
  · show some (cover c.span r) = stretch (held ++ [r])
    rw [stretch_concat, h.span]

/-- A region that a shared ledger admits again changes nothing. -/
theorem concat_of_mem (h : Records .shared limit c held) (hr : r ∈ held) :
    Records .shared limit c (held ++ [r]) := by
  have hperm := perm_counted_concat_of_mem hr
  refine ⟨h.policy_eq, h.limit_eq, h.ordered, fun hne => ?_, ?_, h.total_le, ?_⟩
  · exact (h.regions hne).trans hperm.symm
  · rw [h.total, sizes_perm hperm]
  · rw [h.span, stretch_concat, cover_stretch_of_mem hr]

theorem add?_of_mem (h : Records .shared limit c held) (hword : limit < UInt64.size)
    (hr : r ∈ held) : c.add? r = some c := by
  have hmem := (h.mem_regions (by decide)).2 hr
  have hsize := h.ordered.nonempty r hmem
  have hstop := h.ordered.stops r hmem
  have hordered : Ordered c.limit c.regions := h.limit_eq.symm ▸ h.ordered
  rw [hordered.add?_of_not_apart (by rw [h.policy_eq]; decide) hsize (by omega)
    (h.limit_eq.symm ▸ hstop) hmem (Region.not_apart_self hsize), if_pos ⟨h.policy_eq, hmem⟩]

/-- Whether a call is admitted exactly when its region is admissible, and recorded if it is. -/
def Answers (policy : Policy) (limit : Nat) (c : Claims) (held : List Region) (r : Region) : Prop :=
  (Admissible policy limit held r
    ∧ ∃ claims, c.add? r = some claims ∧ Records policy limit claims (held ++ [r]))
  ∨ (¬Admissible policy limit held r ∧ c.add? r = none)

theorem answers_of_total (h : Records .total limit c held) (r : Region) :
    Answers .total limit c held r := by
  have hadd := h.add?_of_total r
  by_cases hfits : r.size ≠ 0 ∧ r.stop < UInt64.size ∧ sizes held + r.size ≤ limit
  · rw [if_pos hfits] at hadd
    exact .inl ⟨hfits, _, hadd, h.concat_of_total hfits.2.2⟩
  · rw [if_neg hfits] at hadd
    exact .inr ⟨hfits, hadd⟩

/-- A region that fits and is apart from all others is granted by both other policies. -/
theorem exists_grant (h : Records policy limit c held) (hpolicy : policy ≠ .total)
    (hsize : r.size ≠ 0) (hstop : r.stop < UInt64.size) (hlimit : r.stop ≤ limit)
    (hapart : ∀ s ∈ held, r.Apart s) :
    ∃ claims, c.add? r = some claims ∧ Records policy limit claims (held ++ [r]) := by
  have hordered : Ordered c.limit c.regions := h.limit_eq.symm ▸ h.ordered
  refine ⟨_, ?_, h.grant hpolicy hsize hlimit hapart⟩
  exact hordered.add?_of_apart (h.policy_eq.symm ▸ hpolicy) hsize hstop (h.limit_eq.symm ▸ hlimit)
    fun s hs => hapart s ((h.mem_regions hpolicy).1 hs)

/-- Of the regions that overlap others, a shared ledger admits those that it has already. -/
theorem add?_of_overlap (h : Records policy limit c held) (hpolicy : policy ≠ .total)
    (hsize : r.size ≠ 0) (hstop : r.stop < UInt64.size) (hlimit : r.stop ≤ limit)
    (hoverlap : ¬∀ s ∈ held, r.Apart s) :
    c.add? r = if policy = .shared ∧ r ∈ held then some c else none := by
  have hordered : Ordered c.limit c.regions := h.limit_eq.symm ▸ h.ordered
  push Not at hoverlap
  obtain ⟨s, hs, hnot⟩ := hoverlap
  rw [hordered.add?_of_not_apart (h.policy_eq.symm ▸ hpolicy) hsize hstop
    (h.limit_eq.symm ▸ hlimit) ((h.mem_regions hpolicy).2 hs) hnot, h.policy_eq]
  simp only [h.mem_regions hpolicy]

theorem answers_of_disjoint (h : Records .disjoint limit c held) (r : Region) :
    Answers .disjoint limit c held r := by
  by_cases hfits : r.size ≠ 0 ∧ r.stop < UInt64.size ∧ r.stop ≤ limit
  · obtain ⟨hsize, hstop, hlimit⟩ := hfits
    by_cases hapart : ∀ s ∈ held, r.Apart s
    · exact .inl ⟨⟨hsize, hstop, hlimit, hapart⟩,
        h.exists_grant (by decide) hsize hstop hlimit hapart⟩
    · refine .inr ⟨fun hadmissible => hapart hadmissible.2.2.2, ?_⟩
      rw [h.add?_of_overlap (by decide) hsize hstop hlimit hapart]
      exact if_neg fun hshared => Policy.noConfusion hshared.1
  · refine .inr ⟨fun ⟨hsize, hstop, hlimit, _⟩ => hfits ⟨hsize, hstop, hlimit⟩, ?_⟩
    exact add?_of_not_fits (by rw [h.policy_eq]; decide) (h.limit_eq.symm ▸ hfits)

theorem answers_of_shared (h : Records .shared limit c held) (r : Region) :
    Answers .shared limit c held r := by
  by_cases hfits : r.size ≠ 0 ∧ r.stop < UInt64.size ∧ r.stop ≤ limit
  · obtain ⟨hsize, hstop, hlimit⟩ := hfits
    by_cases hapart : ∀ s ∈ held, r.Apart s
    · exact .inl ⟨⟨hsize, hstop, hlimit, .inr hapart⟩,
        h.exists_grant (by decide) hsize hstop hlimit hapart⟩
    · have hadd := h.add?_of_overlap (by decide) hsize hstop hlimit hapart
      by_cases hr : r ∈ held
      · rw [if_pos ⟨rfl, hr⟩] at hadd
        exact .inl ⟨⟨hsize, hstop, hlimit, .inl hr⟩, c, hadd, h.concat_of_mem hr⟩
      · rw [if_neg fun hshared => hr hshared.2] at hadd
        exact .inr ⟨fun hadmissible => hadmissible.2.2.2.elim hr hapart, hadd⟩
  · refine .inr ⟨fun ⟨hsize, hstop, hlimit, _⟩ => hfits ⟨hsize, hstop, hlimit⟩, ?_⟩
    exact add?_of_not_fits (by rw [h.policy_eq]; decide) (h.limit_eq.symm ▸ hfits)

/-- **One call.** The neighbour decides as a comparison with all regions does. -/
theorem answers (h : Records policy limit c held) (r : Region) :
    Answers policy limit c held r := by
  cases policy with
  | total => exact h.answers_of_total r
  | disjoint => exact h.answers_of_disjoint r
  | shared => exact h.answers_of_shared r

end Records

/-! ### Any calls -/

/-- The ledger after some calls, whether it admitted them or not. -/
def after (c : Claims) (calls : List Region) : Claims := calls.foldl (fun c r => (c.add? r).getD c) c

/-- The regions of the calls that the ledger admits. -/
def admitted (c : Claims) : (calls : List Region) → List Region
  | [] => []
  | r :: rest =>
    match c.add? r with
    | some claims => r :: admitted claims rest
    | none => admitted c rest

theorem Records.after {policy : Policy} {limit : Nat} {c : Claims} {held : List Region}
    (h : Records policy limit c held) (calls : List Region) :
    Records policy limit (c.after calls) (held ++ c.admitted calls) := by
  -- Every answer leads to a ledger that records the call, or to the same ledger.
  induction calls generalizing c held with
  | nil => simpa [Claims.after, admitted] using h
  | cons r rest ih =>
    rcases h.answers r with ⟨-, claims, hadd, hrecords⟩ | ⟨-, hadd⟩
    · simpa [Claims.after, admitted, hadd] using ih hrecords
    · simpa [Claims.after, admitted, hadd] using ih h

/-- What can be said of a ledger when it has admitted the regions of `held`.

    * `fits`, `apart` — but for a sum, regions hold bytes, end by the limit and do not overlap;
    * `admits_iff` — what it admits next;
    * `after_cons` — a region that is refused, or that a shared ledger has already, makes no
      difference to all that follows;
    * `total_eq`, `total_lt` — the total is the sum of the sizes, and a 64-bit word;
    * `affected_eq` — the bytes from the lowest to the highest that is claimed. -/
structure Account (policy : Policy) (limit : Nat) (c : Claims) (held : List Region) : Prop where
  fits : policy ≠ .total → ∀ r ∈ held, r.size ≠ 0 ∧ r.stop ≤ limit
  apart : policy ≠ .total → ∀ r ∈ held, ∀ s ∈ held, r ≠ s → r.Apart s
  admits_iff : ∀ r, (c.add? r).isSome = true ↔ Admissible policy limit held r
  after_cons : ∀ r, c.add? r = none ∨ (policy = .shared ∧ r ∈ held) →
    ∀ later, c.after (r :: later) = c.after later
  total_eq : c.total = sizes (counted policy held)
  total_lt : c.total < UInt64.size
  affected_eq : c.affected = (stretch held).getD (0, 0)

theorem Records.account {policy : Policy} {limit : Nat} {c : Claims} {held : List Region}
    (h : Records policy limit c held) (hword : limit < UInt64.size) :
    Account policy limit c held where
  fits hpolicy r hr :=
    have hmem := (h.mem_regions hpolicy).2 hr
    ⟨h.ordered.nonempty r hmem, h.ordered.stops r hmem⟩
  apart hpolicy r hr s hs hne :=
    (h.ordered.eq_or_apart ((h.mem_regions hpolicy).2 hr) ((h.mem_regions hpolicy).2 hs)).resolve_left
      hne
  admits_iff r := by
    rcases h.answers r with ⟨hadmissible, claims, hadd, -⟩ | ⟨hadmissible, hadd⟩
    · simp [hadd, hadmissible]
    · simp [hadd, hadmissible]
  after_cons r hr later := by
    have hsame : (c.add? r).getD c = c := by
      rcases hr with hadd | ⟨rfl, hr⟩
      · rw [hadd]
        rfl
      · rw [h.add?_of_mem hword hr]
        rfl
    show Claims.after ((c.add? r).getD c) later = c.after later
    rw [hsame]
  total_eq := h.total
  total_lt := Nat.lt_of_le_of_lt h.total_le hword
  affected_eq := by rw [affected, h.span]

/-- **Ledgers under any calls.** Whatever is claimed of a new ledger, by any policy and with any
    limit that is a 64-bit word, the regions that it has admitted so far account for it. -/
theorem account_after (policy : Policy) (limit : UInt64) (calls : List Region) :
    Account policy limit.toNat ((empty policy limit.toNat).after calls)
      ((empty policy limit.toNat).admitted calls) :=
  ((records_empty policy limit.toNat).after calls).account limit.toNat_lt

/-- A shared ledger admits a region again, but neither a part of it nor more than it. -/
example : (empty .shared 100).admitted [⟨0, 10⟩, ⟨0, 10⟩, ⟨9, 1⟩, ⟨0, 11⟩, ⟨10, 90⟩]
    = [⟨0, 10⟩, ⟨0, 10⟩, ⟨10, 90⟩] := by decide

end Claims

end Chiptune
