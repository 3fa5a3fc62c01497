import Chiptune.Proofs.FirstMatches
import Mathlib.Data.List.Basic

namespace Chiptune

/-!
# Scans for a signature

A scan for a signature goes on by what an attempt says: over the bytes that matched, or to the next
candidate.

* `Signature.one_le_advance`, `Signature.advance_le_size` — an attempt leads on, inside the data;
* `Signature.IsLeftmost` — occurrences that do not overlap, each of them the first that it can be;
* `Signature.isLeftmost_hitsFrom` — the attempts that match are such occurrences;
* `Signature.scan_exact` — what a scan does in all data.
-/

namespace Probe

/-- How far an attempt leads: over what matched, or else to the next candidate. -/
def advance : Probe → Nat
  | hit size => size
  | miss next => next

/-- Whether the attempt found a match. -/
def isHit : Probe → Bool
  | hit _ => true
  | miss _ => false

theorem step_eq_max (p : Probe) : p.step = max 1 p.advance := by
  cases p <;> rfl

theorem step_eq_advance {p : Probe} (h : 1 ≤ p.advance) : p.step = p.advance := by
  rw [step_eq_max, Nat.max_eq_right h]

end Probe

namespace Signature

variable {s : Signature} {w : Window}

/-! ### One attempt -/

theorem detect_of_matchesStart (h : s.matchesStart w = true) :
    s.detect w = .hit s.pattern.length := if_pos h

theorem detect_of_not_matchesStart (h : s.matchesStart w = false) :
    s.detect w = .miss (s.nextMatch w) := by
  rw [detect, h]
  exact if_neg Bool.false_ne_true

theorem not_matchesStart_of_size_le {k : Nat} (h : w.size ≤ k) :
    s.matchesStart (w.drop k) = false := by
  by_contra hne
  have hlt := lt_size_of_matchesStart_drop (Bool.of_not_eq_false hne)
  omega

/-- An attempt in data leads on. -/
theorem one_le_advance (s : Signature) (h : 0 < w.size) : 1 ≤ (s.detect w).advance := by
  by_cases hmatch : s.matchesStart w = true
  · rw [detect_of_matchesStart hmatch]
    exact s.length_pos
  · rw [detect_of_not_matchesStart (Bool.of_not_eq_true hmatch)]
    exact s.nextMatch_pos h

/-- An attempt does not lead beyond the end. -/
theorem advance_le_size (s : Signature) (w : Window) : (s.detect w).advance ≤ w.size := by
  by_cases hmatch : s.matchesStart w = true
  · rw [detect_of_matchesStart hmatch]
    exact length_le_size_of_matchesStart hmatch
  · rw [detect_of_not_matchesStart (Bool.of_not_eq_true hmatch)]
    exact s.nextMatch_le_size w

/-! ### The attempts of a scan -/

theorem scanFrom_of_size_le {offset : Nat} (h : w.size ≤ offset) : s.scanFrom w offset = [] := by
  rw [scanFrom, if_neg (Nat.not_lt.2 h)]

/-- A scan goes on by what the attempt says, without the least step of one. -/
theorem scanFrom_of_lt_size {offset : Nat} (h : offset < w.size) :
    s.scanFrom w offset = (offset, s.detect (w.drop offset))
      :: s.scanFrom w (offset + (s.detect (w.drop offset)).advance) := by
  have hpos := s.one_le_advance (w := w.drop offset) (by rw [Window.size_drop]; omega)
  rw [scanFrom, if_pos h]
  simp only [Probe.step_eq_advance hpos]

/-- The rule for what holds of all scans: of those from the end, and of one from any other offset
    when it holds of the scan that goes on from there. -/
theorem scanFrom_induction {motive : (offset : Nat) → List (Nat × Probe) → Prop}
    (done : motive w.size [])
    (attempt : ∀ offset later, offset < w.size → 1 ≤ (s.detect (w.drop offset)).advance →
      offset + (s.detect (w.drop offset)).advance ≤ w.size →
      motive (offset + (s.detect (w.drop offset)).advance) later →
      motive offset ((offset, s.detect (w.drop offset)) :: later))
    {offset : Nat} (h : offset ≤ w.size) : motive offset (s.scanFrom w offset) := by
  induction hleft : w.size - offset using Nat.strongRecOn generalizing offset with
  | ind left ih =>
    rcases Nat.lt_or_eq_of_le h with hlt | rfl
    · have hsize : (w.drop offset).size = w.size - offset := Window.size_drop ..
      have hpos := s.one_le_advance (w := w.drop offset) (by omega)
      have hle := s.advance_le_size (w.drop offset)
      rw [scanFrom_of_lt_size hlt]
      exact attempt offset _ hlt hpos (by omega) (ih _ (by omega) (by omega) rfl)
    · rw [scanFrom_of_size_le (Nat.le_refl _)]
      exact done

theorem attempts_scanFrom {offset : Nat} (h : offset ≤ w.size) :
    ∀ e ∈ s.scanFrom w offset,
      e.1 < w.size ∧ e.2 = s.detect (w.drop e.1) ∧ 1 ≤ e.2.advance := by
  refine scanFrom_induction (motive := fun _ l => ∀ e ∈ l,
    e.1 < w.size ∧ e.2 = s.detect (w.drop e.1) ∧ 1 ≤ e.2.advance)
    (List.forall_mem_nil _) (fun offset later hlt hpos _ ih => ?_) h
  exact List.forall_mem_cons.2 ⟨⟨hlt, rfl, hpos⟩, ih⟩

/-- Each attempt stands where the one before it leads to, and the last one leads to the end. -/
theorem offsets_scanFrom {offset : Nat} (h : offset ≤ w.size) :
    (s.scanFrom w offset).map Prod.fst ++ [w.size]
      = ((s.scanFrom w offset).map fun e => e.2.advance).scanl (· + ·) offset := by
  refine scanFrom_induction (motive := fun offset l => l.map Prod.fst ++ [w.size]
    = (l.map fun e => e.2.advance).scanl (· + ·) offset) rfl (fun offset later _ _ _ ih => ?_) h
  simp only [List.map_cons, List.cons_append, List.scanl_cons]
  rw [ih]

theorem length_scanFrom_le {offset : Nat} (h : offset ≤ w.size) :
    (s.scanFrom w offset).length ≤ w.size - offset := by
  refine scanFrom_induction (motive := fun offset l => l.length ≤ w.size - offset)
    (Nat.zero_le _) (fun offset later hlt hpos _ ih => ?_) h
  rw [List.length_cons]
  omega

/-! ### Occurrences -/

/-- Occurrences of a signature from `start` on that do not overlap: the first of them is the first
    match, and each other one is the first match from the end of the one before it. A match needs as
    much data as the signature says, and has the length of the pattern. -/
inductive IsLeftmost (s : Signature) (w : Window) : (start : Nat) → List Nat → Prop where
  | done {start : Nat} (none : ∀ k, start ≤ k → s.matchesStart (w.drop k) = false) :
      IsLeftmost s w start []
  | next {start k : Nat} {rest : List Nat} (le : start ≤ k)
      (found : s.matchesStart (w.drop k) = true)
      (first : ∀ j, start ≤ j → j < k → s.matchesStart (w.drop j) = false)
      (later : IsLeftmost s w (k + s.pattern.length) rest) : IsLeftmost s w start (k :: rest)

/-- A scan may begin behind offsets without a match. -/
theorem IsLeftmost.of_le {start later : Nat} {l : List Nat} (h : s.IsLeftmost w later l)
    (hle : start ≤ later)
    (hnone : ∀ j, start ≤ j → j < later → s.matchesStart (w.drop j) = false) :
    s.IsLeftmost w start l := by
  cases h with
  | done none =>
    refine .done fun k hk => ?_
    by_cases hlater : later ≤ k
    · exact none k hlater
    · exact hnone k hk (by omega)
  | @next _ k rest le found first later' =>
    refine .next (Nat.le_trans hle le) found (fun j hj hjk => ?_) later'
    by_cases hlater : later ≤ j
    · exact first j hlater hjk
    · exact hnone j hj (by omega)

/-- There is one way only to choose the occurrences. -/
theorem IsLeftmost.unique {start : Nat} {l l' : List Nat} (h : s.IsLeftmost w start l)
    (h' : s.IsLeftmost w start l') : l = l' := by
  induction h generalizing l' with
  | done none =>
    cases h' with
    | done => rfl
    | next le found => simp [none _ le] at found
  | @next start k rest le found first _ ih =>
    cases h' with
    | done none => simp [none _ le] at found
    | @next _ k' rest' le' found' first' later' =>
      -- Neither of the two first matches comes before the other.
      obtain rfl : k = k' := by
        rcases Nat.lt_trichotomy k k' with hlt | heq | hlt
        · simp [first' k le hlt] at found
        · exact heq
        · simp [first k' le' hlt] at found'
      rw [ih later']

/-- The offsets of the attempts that match. -/
def hits (attempts : List (Nat × Probe)) : List Nat :=
  (attempts.filter fun e => e.2.isHit).map Prod.fst

theorem isLeftmost_hitsFrom {offset : Nat} (h : offset ≤ w.size) :
    s.IsLeftmost w offset (hits (s.scanFrom w offset)) := by
  refine scanFrom_induction (motive := fun offset l => s.IsLeftmost w offset (hits l))
    (.done fun k hk => not_matchesStart_of_size_le hk) (fun offset later _ _ _ ih => ?_) h
  by_cases hmatch : s.matchesStart (w.drop offset) = true
  · rw [detect_of_matchesStart hmatch] at ih ⊢
    exact .next (Nat.le_refl _) hmatch (fun j hj hlt => by omega) ih
  · -- The candidate that the attempt leads to comes before all later matches.
    have hmiss := Bool.of_not_eq_true hmatch
    rw [detect_of_not_matchesStart hmiss] at ih ⊢
    refine IsLeftmost.of_le (l := hits later) ih (Nat.le_add_right ..) fun j hj hlt => ?_
    have hlt : j < offset + s.nextMatch (w.drop offset) := hlt
    rcases Nat.lt_or_eq_of_le hj with hbehind | rfl
    · have hnone := matchesStart_drop_of_lt_nextMatch (s := s) (w := w.drop offset)
        (k := j - offset) (by omega) (by omega)
      rwa [Window.drop_drop, Nat.add_sub_of_le hj] at hnone
    · exact hmiss

/-! ### Scans -/

/-- **Scanning for a signature.** A scan begins at the start of the data. Each attempt is made
    inside the data and leads on by one byte at least, to where the next one is made, and the last
    one leads to the end of the data exactly; so there are no more attempts than bytes. The attempts
    that match are the leftmost occurrences: the first match, and behind each the first match that
    does not overlap it. No other offsets are. -/
theorem scan_exact (s : Signature) (w : Window) :
    (∀ e ∈ s.scan w, e.1 < w.size ∧ e.2 = s.detect (w.drop e.1) ∧ 1 ≤ e.2.advance)
    ∧ (s.scan w).map Prod.fst ++ [w.size]
      = ((s.scan w).map fun e => e.2.advance).scanl (· + ·) 0
    ∧ (s.scan w).length ≤ w.size
    ∧ ∀ l, s.IsLeftmost w 0 l ↔ l = hits (s.scan w) := by
  have hstart : 0 ≤ w.size := Nat.zero_le _
  refine ⟨attempts_scanFrom hstart, offsets_scanFrom hstart, length_scanFrom_le hstart,
    fun l => ⟨fun h => h.unique (isLeftmost_hitsFrom hstart), ?_⟩⟩
  rintro rfl
  exact isLeftmost_hitsFrom hstart

/-- Of two matches that overlap only the first is an occurrence, and at the end of the data the
    signature needs one byte more than there is. -/
example : hits ((ofPattern ⟨[.exact 0x61, .exact 0x61], by decide⟩ 3).scan
    (.ofByteArray ⟨#[0, 0x61, 0x61, 0x61, 0, 0x61, 0x61]⟩)) = [1] := by decide +kernel

end Signature

end Chiptune
