import Chiptune.Plugin.Builtin

namespace Chiptune

/-!
# Where patterns and formats begin

* `Pattern.search_spec` — a search gives the least offset where a pattern matches, whichever way it
  looks for candidates;
* `Signature.matchesStart_drop_of_lt_nextMatch` — the next match of a signature passes over none;
* `Plugin.locate_drop_of_lt_lookahead` — no plugin begins before the offset that it looks ahead to.
-/

/-! ### Bytes of smaller windows -/

namespace Window

theorem size_lt_word (w : Window) : w.size < UInt64.size :=
  Nat.lt_trans w.size_lt (by decide)

theorem getElem?_eq_getElem?_toList (w : Window) (i : Nat) : w[i]? = w.toList[i]? := by
  by_cases h : i < w.size
  · have hfits := w.fits
    have hbuffer : w.offset + i < w.buffer.data.toList.length := by
      rw [Array.length_toList]
      show w.offset + i < w.buffer.size
      omega
    rw [toList_eq, List.getElem?_take_of_lt h, List.getElem?_drop, List.getElem?_eq_getElem hbuffer]
    show (if h : i < w.size then some (w.get i h) else none) = _
    rw [dif_pos h]
    rfl
  · have hlength : w.toList.length ≤ i := by rw [length_toList]; omega
    rw [List.getElem?_eq_none hlength]
    exact dif_neg h

theorem getElem?_drop (w : Window) (n i : Nat) : (w.drop n)[i]? = w[n + i]? := by
  rw [getElem?_eq_getElem?_toList, toList_drop, List.getElem?_drop, ← getElem?_eq_getElem?_toList]

theorem getElem?_eq_none_of_size_le {w : Window} {i : Nat} (h : w.size ≤ i) : w[i]? = none := by
  rw [getElem?_eq_getElem?_toList]
  exact List.getElem?_eq_none (by rw [length_toList]; exact h)

theorem drop_drop (w : Window) (m n : Nat) : (w.drop m).drop n = w.drop (m + n) := by
  have hoffset : w.offset + min m w.size + min n (w.size - min m w.size)
      = w.offset + min (m + n) w.size := by omega
  have hsize : w.size - min m w.size - min n (w.size - min m w.size)
      = w.size - min (m + n) w.size := by omega
  simp only [drop, hoffset, hsize]

/-- No byte between the start and the first index is the one that is looked for. -/
theorem ne_of_lt_firstIndex {w : Window} {byte : UInt8} {stop start k : Nat} (hstart : start ≤ k)
    (hk : k < w.firstIndex byte stop start) : w[k]? ≠ some byte := by
  fun_induction firstIndex w byte stop start with
  | case1 start hlt hbyte => omega
  | case2 start hlt hbyte ih =>
    by_cases heq : k = start
    · rw [heq]
      simpa using hbyte
    · exact ih (by omega) hk
  | case3 start hlt => omega

end Window

/-! ### Searching for a pattern -/

theorem ByteClass.eq_of_accepts {c : ByteClass} {value b : UInt8}
    (hvalue : c.exactValue? = some value) (hb : c.accepts b = true) : b = value := by
  unfold exactValue? at hvalue
  split at hvalue
  · rename_i v mask
    by_cases hmask : (mask == 0xff) = true
    · rw [if_pos hmask] at hvalue
      cases hvalue
      have hfull : mask = 255 := by simpa using hmask
      rw [accepts, hfull, show (255 : UInt8) = -1 from rfl, UInt8.and_neg_one] at hb
      simpa using hb
    · rw [if_neg hmask] at hvalue
      cases hvalue
  · rename_i low high
    by_cases heq : (low == high) = true
    · rw [if_pos heq] at hvalue
      cases hvalue
      have hsame : value = high := by simpa using heq
      rw [accepts, ← hsame, Bool.and_eq_true, decide_eq_true_iff, decide_eq_true_iff] at hb
      exact UInt8.le_antisymm hb.2 hb.1
    · rw [if_neg heq] at hvalue
      cases hvalue
  · cases hvalue

namespace Pattern

theorem meets_drop (w : Window) (n offset : Nat) (classes : List ByteClass) :
    meets (w.drop n) offset classes = meets w (n + offset) classes := by
  induction classes generalizing offset with
  | nil => rfl
  | cons c rest ih =>
    rw [meets, meets, Window.getElem?_drop, ih]
    rfl

/-- A match in what remains behind some bytes is a match at their number. -/
theorem matchesAt_drop (p : Pattern) (w : Window) (n offset : Nat) :
    p.matchesAt (w.drop n) offset = p.matchesAt w (n + offset) :=
  meets_drop w n offset p.classes

theorem add_length_le_of_meets {w : Window} {offset : Nat} {classes : List ByteClass}
    (hne : classes ≠ []) (h : meets w offset classes = true) :
    offset + classes.length ≤ w.size := by
  induction classes generalizing offset with
  | nil => exact absurd rfl hne
  | cons c rest ih =>
    unfold meets at h
    by_cases hsize : offset < w.size
    · cases rest with
      | nil =>
        show offset + 1 ≤ w.size
        omega
      | cons d rest =>
        split at h
        · have := ih (List.cons_ne_nil d rest) (Bool.and_eq_true_iff.1 h).2
          simp only [List.length_cons] at this ⊢
          omega
        · cases h
    · rw [Window.getElem?_eq_none_of_size_le (by omega)] at h
      cases h

/-- A match ends inside the window. -/
theorem add_length_le_of_matchesAt {p : Pattern} {w : Window} {offset : Nat}
    (h : p.matchesAt w offset = true) : offset + p.length ≤ w.size :=
  add_length_le_of_meets p.nonempty h

/-- Whether `found` is the least offset from `start` on, below `stop`, where the pattern matches, or
    nothing when there is none. -/
def IsFirst (p : Pattern) (w : Window) (start stop : Nat) : Option Nat → Prop
  | some k => start ≤ k ∧ k < stop ∧ p.matchesAt w k = true
      ∧ ∀ j, start ≤ j → j < k → p.matchesAt w j = false
  | none => ∀ j, start ≤ j → j < stop → p.matchesAt w j = false

/-- A search may begin behind offsets without a match. -/
theorem IsFirst.of_le {p : Pattern} {w : Window} {start later stop : Nat} {found : Option Nat}
    (h : p.IsFirst w later stop found) (hle : start ≤ later)
    (hnone : ∀ j, start ≤ j → j < later → p.matchesAt w j = false) :
    p.IsFirst w start stop found := by
  cases found with
  | none =>
    intro j hstart hstop
    by_cases hj : j < later
    · exact hnone j hstart hj
    · exact h j (by omega) hstop
  | some k =>
    obtain ⟨hk, hstop, hmatch, hfirst⟩ := h
    refine ⟨by omega, hstop, hmatch, fun j hstart hjk => ?_⟩
    by_cases hj : j < later
    · exact hnone j hstart hj
    · exact hfirst j (by omega) hjk

theorem isFirst_scan (p : Pattern) (w : Window) (stop start : Nat) :
    p.IsFirst w start stop (p.scan w stop start) := by
  fun_induction scan p w stop start with
  | case1 start hlt hmatch =>
    exact ⟨Nat.le_refl _, hlt, hmatch, fun j hstart hj => by omega⟩
  | case2 start hlt hmatch ih =>
    apply ih.of_le (Nat.le_succ _)
    intro j hstart hj
    obtain rfl : j = start := by omega
    simpa using hmatch
  | case3 start hlt => exact fun j hstart hstop => by omega

/-- A pattern that begins with one exact byte matches only where this byte stands. -/
theorem getElem?_of_matchesAt {p : Pattern} {w : Window} {lead : UInt8} {offset : Nat}
    (hlead : p.classes.head?.bind ByteClass.exactValue? = some lead)
    (h : p.matchesAt w offset = true) : w[offset]? = some lead := by
  obtain ⟨c, hc, hvalue⟩ := Option.bind_eq_some_iff.1 hlead
  obtain ⟨rest, hclasses⟩ := List.head?_eq_some_iff.1 hc
  rw [matchesAt, hclasses, meets] at h
  split at h
  · rename_i b hb
    rw [hb, ByteClass.eq_of_accepts hvalue (Bool.and_eq_true_iff.1 h).1]
  · cases h

theorem isFirst_scanFor {p : Pattern} {lead : UInt8}
    (hlead : p.classes.head?.bind ByteClass.exactValue? = some lead) (w : Window)
    (stop start : Nat) : p.IsFirst w start stop (p.scanFor lead w stop start) := by
  -- Offsets before the candidate hold another byte, so the pattern does not match there.
  have hbefore : ∀ start j, start ≤ j → j < w.firstIndex lead stop start →
      p.matchesAt w j = false := by
    intro start j hstart hj
    have hne := Window.ne_of_lt_firstIndex hstart hj
    exact Bool.eq_false_iff.2 fun hmatch => hne (getElem?_of_matchesAt hlead hmatch)
  fun_induction scanFor p lead w stop start with
  | case1 start candidate h hmatch =>
    have hle := w.le_firstIndex lead stop start (by omega)
    exact ⟨hle, h.2, hmatch, hbefore start⟩
  | case2 start candidate h hmatch hle ih =>
    -- No match at the candidate: the search goes on behind it.
    apply ih.of_le (by omega)
    intro j hstart hj
    by_cases heq : j = candidate
    · rw [heq]
      simpa using hmatch
    · exact hbefore start j hstart (by omega)
  | case3 start candidate h =>
    intro j hstart hstop
    exact hbefore start j hstart (by omega)

theorem search_of_size_lt {p : Pattern} {w : Window} (h : w.size < p.length) :
    p.search w = w.size := by
  rw [search, if_pos h]

theorem search_of_length_le {p : Pattern} {w : Window} (h : p.length ≤ w.size) :
    ∃ found, p.IsFirst w 0 (w.size - p.length + 1) found ∧ p.search w = found.getD w.size := by
  unfold search
  rw [if_neg (by omega)]
  refine ⟨_, ?_, rfl⟩
  split
  · exact isFirst_scanFor ‹_› w _ 0
  · exact p.isFirst_scan w _ 0

/-- **Searching.** A search gives the least offset where the pattern matches, or the size of the
    window when it matches nowhere. -/
theorem search_spec (p : Pattern) (w : Window) :
    p.search w ≤ w.size ∧ (∀ k < p.search w, p.matchesAt w k = false)
      ∧ (p.search w < w.size → p.matchesAt w (p.search w) = true) := by
  have hends : ∀ k, p.matchesAt w k = true → k + p.length ≤ w.size :=
    fun k hk => add_length_le_of_matchesAt hk
  by_cases hshort : w.size < p.length
  · rw [search_of_size_lt hshort]
    -- The window is too short for any match.
    refine ⟨Nat.le_refl _, fun k _ => ?_, fun h => absurd h (Nat.lt_irrefl _)⟩
    exact Bool.eq_false_iff.2 fun hk => by have := hends k hk; omega
  · obtain ⟨found, hfirst, hsearch⟩ := search_of_length_le (p := p) (w := w) (by omega)
    rw [hsearch]
    cases found with
    | none =>
      refine ⟨Nat.le_refl _, fun k _ => ?_, fun h => absurd h (Nat.lt_irrefl _)⟩
      apply Bool.eq_false_iff.2
      intro hk
      have := hends k hk
      rw [hfirst k (Nat.zero_le k) (by omega)] at hk
      cases hk
    | some k =>
      obtain ⟨-, -, hmatch, hbefore⟩ := hfirst
      have := hends k hmatch
      refine ⟨?_, fun j hj => hbefore j (Nat.zero_le j) hj, fun _ => hmatch⟩
      show k ≤ w.size
      omega

end Pattern

/-! ### Looking ahead for a signature -/

namespace Signature

variable {s : Signature} {w : Window}

theorem length_pos (s : Signature) : 0 < s.pattern.length :=
  List.length_pos_iff.2 s.pattern.nonempty

/-- A match has as many bytes as the format needs. -/
theorem minSize_le (h : s.matchesStart w = true) : s.minSize ≤ w.size :=
  of_decide_eq_true (Bool.and_eq_true_iff.1 h).1

theorem length_le_size_of_matchesStart (h : s.matchesStart w = true) : s.pattern.length ≤ w.size :=
  Nat.le_trans s.length_le_minSize (minSize_le h)

/-- No match begins at the end of the data. -/
theorem lt_size_of_matchesStart_drop {k : Nat} (h : s.matchesStart (w.drop k) = true) :
    k < w.size := by
  have hlength := length_le_size_of_matchesStart h
  have hpos := s.length_pos
  rw [Window.size_drop] at hlength
  omega

/-- There is no match before the next one. -/
theorem matchesStart_drop_of_lt_nextMatch {k : Nat} (hk : 0 < k)
    (hnext : k < s.nextMatch w) : s.matchesStart (w.drop k) = false := by
  obtain ⟨hsize, hbefore, -⟩ := s.pattern.search_spec (w.drop 1)
  unfold nextMatch at hnext
  by_cases hone : w.size ≤ 1
  · rw [if_pos hone] at hnext
    omega
  · rw [if_neg hone] at hnext
    by_cases hfound : k < 1 + s.pattern.search (w.drop 1)
    · have hnone := hbefore (k - 1) (by omega)
      have hshift : 1 + (k - 1) = k := by omega
      rw [Pattern.matchesAt_drop, hshift] at hnone
      rw [matchesStart, Pattern.matchesStart, Pattern.matchesAt_drop, Nat.add_zero, hnone,
        Bool.and_false]
    · -- The first match before `k` has not enough data behind it, so what is behind `k` is less.
      have hshort : ¬s.minSize ≤ (w.drop k).size := by
        rw [Window.size_drop]
        intro hmin
        simp only at hnext
        split at hnext <;> omega
      rw [matchesStart, decide_eq_false hshort, Bool.false_and]

end Signature

/-! ### Looking ahead for a plugin -/

theorem foldl_le_init {α : Type} {f : Nat → α → Nat} (hle : ∀ n a, f n a ≤ n) (l : List α)
    (init : Nat) : l.foldl f init ≤ init := by
  induction l generalizing init with
  | nil => exact Nat.le_refl _
  | cons a l ih => exact Nat.le_trans (ih _) (hle init a)

theorem foldl_le_of_mem {α : Type} {f : Nat → α → Nat} (hle : ∀ n a, f n a ≤ n) {l : List α} {a : α}
    (ha : a ∈ l) {bound : Nat} (hbound : ∀ n, f n a ≤ bound) (init : Nat) :
    l.foldl f init ≤ bound := by
  induction l generalizing init with
  | nil => cases ha
  | cons b l ih =>
    rcases List.mem_cons.1 ha with rfl | ha
    · exact Nat.le_trans (foldl_le_init hle l _) (hbound init)
    · exact ih ha _

namespace Plugin

/-- Whether all that the check of the plugin admits has its signature. -/
def ChecksSignature (p : Plugin) : Prop :=
  ∀ w, p.check w = true → p.signature.matchesStart w = true

theorem lookahead_le_nextMatch (p : Plugin) (w : Window) :
    p.lookahead w ≤ p.signature.nextMatch w :=
  foldl_le_init (fun _ _ => Nat.min_le_left ..) _ _

theorem lookahead_le_nextMatch_of_mem {p : Plugin} {stub : Signature}
    (h : stub ∈ p.decoder.stubs) (w : Window) : p.lookahead w ≤ stub.nextMatch w :=
  foldl_le_of_mem (f := fun next stub => min next (stub.nextMatch w))
    (fun _ _ => Nat.min_le_left ..) h (fun _ => Nat.min_le_right ..) _

/-- **Nothing is passed over.** A plugin begins at no offset before the one that it looks ahead
    to, neither itself nor behind a stub. -/
theorem locate_drop_of_lt_lookahead {p : Plugin} (hp : p.ChecksSignature) {w : Window} {k : Nat}
    (hk : 0 < k) (hahead : k < p.lookahead w) : p.locate (w.drop k) = none := by
  have hcheck : ¬p.check (w.drop k) = true := by
    intro hcheck
    have hmatch := hp _ hcheck
    rw [Signature.matchesStart_drop_of_lt_nextMatch hk
      (Nat.lt_of_lt_of_le hahead (p.lookahead_le_nextMatch w))] at hmatch
    cases hmatch
  rw [locate, if_neg hcheck, List.findSome?_eq_none_iff]
  intro stub hstub
  have hnone := Signature.matchesStart_drop_of_lt_nextMatch hk
    (Nat.lt_of_lt_of_le hahead (lookahead_le_nextMatch_of_mem hstub w))
  simp [hnone]

end Plugin

/-- The checks of all plugins of the library begin with their signatures. -/
theorem Catalog.checksSignature_builtinWith (reader : Lha.MemberReader) :
    ∀ p ∈ (builtinWith reader).plugins, p.ChecksSignature := by
  -- Three plugins read their header in the check, and look for the signature before that.
  have hhobeta : Hobeta.plugin.ChecksSignature := by
    intro w h
    by_cases hmatch : Hobeta.signature.matchesStart w = true
    · exact hmatch
    · simp [Hobeta.plugin, Hobeta.check, Hobeta.parse, hmatch] at h
      cases h
  have hscl : Scl.plugin.ChecksSignature := by
    intro w h
    by_cases hmatch : Scl.signature.matchesStart w = true
    · exact hmatch
    · simp [Scl.plugin, Scl.check, Scl.layout, hmatch] at h
      cases h
  have hice : Ice.plugin.ChecksSignature := by
    intro w h
    by_cases hmatch : Ice.signature.matchesStart w = true
    · exact hmatch
    · simp [Ice.plugin, Ice.check, Ice.sizes?, hmatch] at h
  -- The check of the others is that of the signature and something more.
  have hlha : (Lha.pluginWith reader).ChecksSignature := fun w h => (Bool.and_eq_true_iff.1 h).1
  have hay : Ay.plugin.ChecksSignature := fun w h => (Bool.and_eq_true_iff.1 h).1
  have hsndh : Sndh.plugin.ChecksSignature := fun w h => (Bool.and_eq_true_iff.1 h).1
  have hym : Ym.plugin.ChecksSignature := fun w h => (Bool.and_eq_true_iff.1 h).1
  intro p hp
  simp only [builtinWith, pluginsWith, List.mem_cons, List.not_mem_nil, or_false] at hp
  rcases hp with rfl | rfl | rfl | rfl | rfl | rfl | rfl <;> assumption

end Chiptune
