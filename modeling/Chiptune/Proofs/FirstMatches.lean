import Chiptune.Proofs.Search

namespace Chiptune

/-!
# First matches

A search gives the first match, whichever offsets it tries on the way.

* `Pattern.IsLeast`, `Pattern.search_eq_iff` — the offset that a search gives;
* `Pattern.scanFor_eq_scan` — the two ways to search, one by one and by the first byte, agree;
* `Signature.matchesStart_drop_nextMatch` — a signature matches at its next match;
* `Plugin.lookahead_exact` — a plugin looks ahead to the first offset where it can begin.
-/

/-- A class with an exact value holds this byte and no other. -/
theorem ByteClass.accepts_iff_of_exactValue? {c : ByteClass} {value : UInt8}
    (h : c.exactValue? = some value) (b : UInt8) : c.accepts b = true ↔ b = value := by
  refine ⟨eq_of_accepts h, ?_⟩
  rintro rfl
  unfold exactValue? at h
  split at h
  · rename_i v mask
    by_cases hmask : (mask == 0xff) = true
    · rw [if_pos hmask] at h
      cases h
      have hfull : mask = 255 := by simpa using hmask
      rw [accepts, hfull, show (255 : UInt8) = -1 from rfl, UInt8.and_neg_one]
      exact beq_self_eq_true b
    · rw [if_neg hmask] at h
      cases h
  · rename_i low high
    by_cases heq : (low == high) = true
    · rw [if_pos heq] at h
      cases h
      have hsame : b = high := by simpa using heq
      rw [accepts, ← hsame]
      simp
    · rw [if_neg heq] at h
      cases h
  · cases h

/-! ### Searching for a pattern -/

namespace Pattern

variable {p : Pattern} {w : Window}

/-- There is only one first match. -/
theorem IsFirst.unique {start stop : Nat} {found found' : Option Nat}
    (h : p.IsFirst w start stop found) (h' : p.IsFirst w start stop found') : found = found' := by
  cases found with
  | none =>
    cases found' with
    | none => rfl
    | some k =>
      obtain ⟨hstart, hstop, hmatch, -⟩ := h'
      rw [h k hstart hstop] at hmatch
      cases hmatch
  | some j =>
    obtain ⟨hstart, hstop, hmatch, hfirst⟩ := h
    cases found' with
    | none =>
      rw [h' j hstart hstop] at hmatch
      cases hmatch
    | some k =>
      obtain ⟨hstart', -, hmatch', hfirst'⟩ := h'
      -- Neither of the two matches comes before the other.
      rcases Nat.lt_trichotomy j k with hlt | heq | hlt
      · rw [hfirst' j hstart hlt] at hmatch
        cases hmatch
      · rw [heq]
      · rw [hfirst k hstart' hlt] at hmatch'
        cases hmatch'

/-- Offsets where the first byte does not stand need not be tried. -/
theorem scanFor_eq_scan {lead : UInt8}
    (hlead : p.classes.head?.bind ByteClass.exactValue? = some lead) (w : Window)
    (stop start : Nat) : p.scanFor lead w stop start = p.scan w stop start :=
  (isFirst_scanFor hlead w stop start).unique (p.isFirst_scan w stop start)

theorem search_eq_scan (h : p.length ≤ w.size) :
    p.search w = (p.scan w (w.size - p.length + 1) 0).getD w.size := by
  obtain ⟨found, hfirst, hsearch⟩ := search_of_length_le h
  rw [hsearch, hfirst.unique (p.isFirst_scan w _ 0)]

theorem matchesStart_drop (p : Pattern) (w : Window) (k : Nat) :
    p.matchesStart (w.drop k) = p.matchesAt w k := p.matchesAt_drop w k 0

/-- Whether `k` is the least offset where the pattern matches what is left of the data, or the size
    of the data when there is none. -/
def IsLeast (p : Pattern) (w : Window) (k : Nat) : Prop :=
  (k + p.length ≤ w.size ∧ p.matchesStart (w.drop k) = true
    ∧ ∀ j < k, p.matchesStart (w.drop j) = false)
  ∨ (k = w.size ∧ ∀ j, j + p.length ≤ w.size → p.matchesStart (w.drop j) = false)

theorem isLeast_search (p : Pattern) (w : Window) : p.IsLeast w (p.search w) := by
  obtain ⟨hsize, hbefore, hmatch⟩ := p.search_spec w
  unfold IsLeast
  simp only [matchesStart_drop]
  by_cases hlt : p.search w < w.size
  · exact .inl ⟨add_length_le_of_matchesAt (hmatch hlt), hmatch hlt, hbefore⟩
  · have hend : p.search w = w.size := by omega
    have hlength : 0 < p.length := List.length_pos_iff.2 p.nonempty
    exact .inr ⟨hend, fun j hj => hbefore j (by omega)⟩

theorem search_eq_of_isLeast {k : Nat} (h : p.IsLeast w k) : p.search w = k := by
  obtain ⟨hsize, hbefore, hmatch⟩ := p.search_spec w
  unfold IsLeast at h
  simp only [matchesStart_drop] at h
  rcases h with ⟨hfits, hk, hfirst⟩ | ⟨rfl, hnone⟩
  · rcases Nat.lt_trichotomy (p.search w) k with hlt | heq | hlt
    · have hlength : 0 < p.length := List.length_pos_iff.2 p.nonempty
      have hfound := hmatch (by omega)
      rw [hfirst _ hlt] at hfound
      cases hfound
    · exact heq
    · rw [hbefore k hlt] at hk
      cases hk
  · by_cases hlt : p.search w < w.size
    · have hfound := hmatch hlt
      rw [hnone _ (add_length_le_of_matchesAt hfound)] at hfound
      cases hfound
    · omega

/-- **Searching.** A search gives the least offset where the pattern matches what is left of the
    data, and the size of the data when there is none. Trying the offsets one by one leads to it,
    and so does going from one place of the first byte to the next, which is done when the first
    class has an exact value: such a class holds its value and no other byte. -/
theorem search_eq_iff (p : Pattern) (w : Window) :
    (∀ k, p.search w = k ↔ p.IsLeast w k)
    ∧ (p.length ≤ w.size → p.search w = (p.scan w (w.size - p.length + 1) 0).getD w.size)
    ∧ (∀ lead, p.classes.head?.bind ByteClass.exactValue? = some lead →
        ∀ stop start, p.scanFor lead w stop start = p.scan w stop start)
    ∧ ∀ (c : ByteClass) (value : UInt8), c.exactValue? = some value →
        ∀ b, c.accepts b = true ↔ b = value := by
  refine ⟨fun k => ⟨fun h => h ▸ p.isLeast_search w, search_eq_of_isLeast⟩, search_eq_scan,
    fun lead hlead => scanFor_eq_scan hlead w, fun c value => ByteClass.accepts_iff_of_exactValue?⟩

/-- The byte `61` stands twice in `61 00 61 62`. Followed by `62` it stands there once, at the last
    offset where two bytes fit. -/
theorem search_at_last_offset :
    let p : Pattern := ⟨[.exact 0x61, .range 0x62 0x63], by decide⟩
    let w := Window.ofByteArray ⟨#[0x61, 0, 0x61, 0x62]⟩
    p.classes.head?.bind ByteClass.exactValue? = some 0x61 ∧ p.length ≤ w.size
      ∧ p.IsLeast w 2 ∧ p.scanFor 0x61 w 3 0 = p.scan w 3 0 ∧ p.scan w 3 0 = some 2
      ∧ ∀ b, (ByteClass.exact 0x61).accepts b = true ↔ b = 0x61 := by
  intro p w
  have hlead : p.classes.head?.bind ByteClass.exactValue? = some 0x61 := by decide
  have hlength : p.length ≤ w.size := by decide
  have hsearch : p.search w = 2 := by decide +kernel
  obtain ⟨hleast, hscan, hways, hexact⟩ := p.search_eq_iff w
  have hfound : (p.scan w 3 0).getD w.size = 2 := (hscan hlength).symm.trans hsearch
  refine ⟨hlead, hlength, (hleast 2).1 hsearch, hways 0x61 hlead 3 0, ?_,
    hexact (.exact 0x61) 0x61 rfl⟩
  decide +kernel

end Pattern

/-! ### The next match of a signature -/

namespace Signature

variable {s : Signature} {w : Window}

theorem nextMatch_le_size (s : Signature) (w : Window) : s.nextMatch w ≤ w.size := by
  unfold nextMatch
  split
  · exact Nat.le_refl _
  · simp only
    split
    · omega
    · exact Nat.le_refl _

theorem nextMatch_pos (s : Signature) (h : 0 < w.size) : 0 < s.nextMatch w := by
  unfold nextMatch
  split
  · exact h
  · simp only
    split
    · omega
    · exact h

/-- A signature matches at its next match, if it has one. -/
theorem matchesStart_drop_nextMatch (h : s.nextMatch w < w.size) :
    s.matchesStart (w.drop (s.nextMatch w)) = true := by
  obtain ⟨-, -, hmatch⟩ := s.pattern.search_spec (w.drop 1)
  have hsize : (w.drop 1).size = w.size - 1 := Window.size_drop ..
  unfold nextMatch at h ⊢
  by_cases hone : w.size ≤ 1
  · rw [if_pos hone] at h
    exact absurd h (Nat.lt_irrefl _)
  · rw [if_neg hone] at h ⊢
    by_cases hfound : 1 + s.pattern.search (w.drop 1) < w.size
        ∧ s.minSize ≤ w.size - (1 + s.pattern.search (w.drop 1))
    · simp only [if_pos hfound]
      obtain ⟨hlt, hmin⟩ := hfound
      -- The data is searched behind its first byte.
      have hstart := hmatch (by omega)
      rw [Pattern.matchesAt_drop] at hstart
      rw [matchesStart, Pattern.matchesStart_drop, hstart, Window.size_drop,
        decide_eq_true hmin]
      rfl
    · simp only [if_neg hfound] at h
      exact absurd h (Nat.lt_irrefl _)

end Signature

/-! ### Looking ahead for a plugin -/

namespace Plugin

/-- The signature of the format, and those of the stubs that may come before it. -/
def signatures (p : Plugin) : List Signature := p.signature :: p.decoder.stubs

variable {p : Plugin} {w : Window}

theorem lookahead_le_nextMatch_of_mem_signatures {s : Signature} (h : s ∈ p.signatures)
    (w : Window) : p.lookahead w ≤ s.nextMatch w := by
  rcases List.mem_cons.1 h with rfl | h
  · exact p.lookahead_le_nextMatch w
  · exact lookahead_le_nextMatch_of_mem h w

/-- A least value over some signatures is the value of one of them. -/
theorem exists_eq_foldl_min (next : Signature → Nat) (first : Signature) (rest : List Signature) :
    ∃ s ∈ first :: rest, rest.foldl (fun least s => min least (next s)) (next first) = next s := by
  induction rest generalizing first with
  | nil => exact ⟨first, List.mem_cons_self, rfl⟩
  | cons second rest ih =>
    rw [List.foldl_cons]
    rcases Nat.le_total (next first) (next second) with hle | hle
    · rw [Nat.min_eq_left hle]
      obtain ⟨s, hs, hleast⟩ := ih first
      refine ⟨s, ?_, hleast⟩
      rcases List.mem_cons.1 hs with rfl | hs
      · exact List.mem_cons_self
      · exact List.mem_cons_of_mem _ (List.mem_cons_of_mem _ hs)
    · rw [Nat.min_eq_right hle]
      obtain ⟨s, hs, hleast⟩ := ih second
      exact ⟨s, List.mem_cons_of_mem _ hs, hleast⟩

/-- A plugin looks ahead to the next match of one of its signatures. -/
theorem exists_lookahead_eq (p : Plugin) (w : Window) :
    ∃ s ∈ p.signatures, p.lookahead w = s.nextMatch w :=
  exists_eq_foldl_min (fun s => s.nextMatch w) p.signature p.decoder.stubs

/-- **Looking ahead.** When the check of a plugin begins with its signature, the plugin looks ahead
    neither too far nor too short. It begins at no offset before, neither itself nor behind a stub,
    and none of its signatures matches there. Where it looks to inside the data, one of them
    matches, with as much data behind as it needs. And it looks one byte ahead at least, as far as
    there are any, and not beyond the end. -/
theorem lookahead_exact (p : Plugin) (hp : p.ChecksSignature) (w : Window) :
    (∀ k, 0 < k → k < p.lookahead w →
      p.locate (w.drop k) = none ∧ ∀ s ∈ p.signatures, s.matchesStart (w.drop k) = false)
    ∧ (0 < w.size → 1 ≤ p.lookahead w) ∧ p.lookahead w ≤ w.size
    ∧ (p.lookahead w < w.size → ∃ s ∈ p.signatures,
        s.minSize ≤ (w.drop (p.lookahead w)).size
          ∧ s.matchesStart (w.drop (p.lookahead w)) = true) := by
  obtain ⟨s, hs, hahead⟩ := p.exists_lookahead_eq w
  refine ⟨fun k hk hlt => ⟨locate_drop_of_lt_lookahead hp hk hlt, fun t ht => ?_⟩, ?_, ?_, ?_⟩
  · have hnext := lookahead_le_nextMatch_of_mem_signatures ht w
    exact Signature.matchesStart_drop_of_lt_nextMatch hk (Nat.lt_of_lt_of_le hlt hnext)
  · rw [hahead]
    exact s.nextMatch_pos
  · rw [hahead]
    exact s.nextMatch_le_size w
  · rw [hahead]
    intro hlt
    have hmatch := Signature.matchesStart_drop_nextMatch hlt
    exact ⟨s, hs, of_decide_eq_true (Bool.and_eq_true_iff.1 hmatch).1, hmatch⟩

/-- The header of an executable behind three other bytes is where the plugin for `SNDH` files looks
    to, although no such file begins there. -/
theorem lookahead_exact_before_stub :
    let p := Sndh.plugin
    let w := Window.ofByteArray ⟨#[0, 0, 0, 0x60, 0x1a] ++ Array.replicate 26 0⟩
    p.ChecksSignature ∧ p.lookahead w = 3 ∧ 3 < w.size ∧ p.locate (w.drop 2) = none
      ∧ (∀ s ∈ p.signatures, s.matchesStart (w.drop 2) = false)
      ∧ (∃ s ∈ p.signatures, s.minSize ≤ (w.drop 3).size ∧ s.matchesStart (w.drop 3) = true)
      ∧ p.check (w.drop 3) = false := by
  intro p w
  have hp : p.ChecksSignature := Catalog.checksSignature_builtinWith Lha.openMember p
    (by simp [p, Catalog.builtinWith, Catalog.pluginsWith])
  have hahead : p.lookahead w = 3 := by decide +kernel
  have hsize : 3 < w.size := by decide
  obtain ⟨hbefore, -, -, hreached⟩ := p.lookahead_exact hp w
  rw [hahead] at hbefore hreached
  obtain ⟨hlocate, hnone⟩ := hbefore 2 (by decide) (by decide)
  exact ⟨hp, hahead, hsize, hlocate, hnone, hreached hsize, by decide +kernel⟩

end Plugin

end Chiptune
