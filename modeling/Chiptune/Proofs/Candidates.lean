import Chiptune.Proofs.Course
import Chiptune.Proofs.FirstMatches
import Mathlib.Data.List.Forall2

namespace Chiptune

/-!
# Candidates that are kept

A frame keeps for each plugin where it could begin next, and the plugin is searched for again only
when the scan has come to that offset. Wherever the scan goes on, it sees as far as if it had
searched for all plugins anew.

* `Plugin.SignalsAt` — one of the signatures of a plugin matches at an offset;
* `Plugin.Recalls`, `Frame.Recalls` — what a kept candidate says, and those of a frame;
* `Scan.reach` — how far a frame sees when each plugin is searched for;
* `Scan.lookAhead_of_recalls`, `Scan.recalls_lookAhead` — one look ahead: it is exact, and what it
  keeps is right;
* `Scan.lookAheads_exact` — all looks ahead from one frame.
-/

/-! ### Where the signatures of a plugin match -/

namespace Plugin

/-- Whether a signature of the plugin, that of its format or of a stub, matches at `k`. -/
def SignalsAt (p : Plugin) (w : Window) (k : Nat) : Prop :=
  ∃ s ∈ p.signatures, s.matchesStart (w.drop k) = true

variable {p : Plugin} {w : Window} {k : Nat}

theorem SignalsAt.lt_size (h : p.SignalsAt w k) : k < w.size := by
  obtain ⟨s, -, hmatch⟩ := h
  exact Signature.lt_size_of_matchesStart_drop hmatch

theorem signalsAt_drop (n : Nat) : p.SignalsAt (w.drop n) k ↔ p.SignalsAt w (n + k) := by
  simp only [SignalsAt, Window.drop_drop]

theorem lookahead_le_size (p : Plugin) (w : Window) : p.lookahead w ≤ w.size :=
  Nat.le_trans (p.lookahead_le_nextMatch w) (p.signature.nextMatch_le_size w)

theorem lookahead_pos (p : Plugin) (h : 0 < w.size) : 0 < p.lookahead w := by
  obtain ⟨s, -, hahead⟩ := p.exists_lookahead_eq w
  exact hahead ▸ s.nextMatch_pos h

theorem not_signalsAt_of_lt_lookahead (hk : 0 < k) (h : k < p.lookahead w) :
    ¬p.SignalsAt w k := by
  rintro ⟨s, hs, hmatch⟩
  have hnext := Nat.lt_of_lt_of_le h (lookahead_le_nextMatch_of_mem_signatures hs w)
  rw [Signature.matchesStart_drop_of_lt_nextMatch hk hnext] at hmatch
  cases hmatch

theorem signalsAt_lookahead (h : p.lookahead w < w.size) : p.SignalsAt w (p.lookahead w) := by
  obtain ⟨s, hs, hahead⟩ := p.exists_lookahead_eq w
  rw [hahead] at h ⊢
  exact ⟨s, hs, Signature.matchesStart_drop_nextMatch h⟩

/-- A plugin looks ahead to the first later offset where it signals. -/
theorem lookahead_eq_of_signalsAt (hk : 0 < k) (h : p.SignalsAt w k)
    (hfirst : ∀ j, 0 < j → j < k → ¬p.SignalsAt w j) : p.lookahead w = k := by
  have hsize := h.lt_size
  have hpos := p.lookahead_pos (w := w) (by omega)
  rcases Nat.lt_trichotomy (p.lookahead w) k with hlt | heq | hlt
  · exact absurd (signalsAt_lookahead (by omega)) (hfirst _ hpos hlt)
  · exact heq
  · exact absurd h (not_signalsAt_of_lt_lookahead hk hlt)

/-- A plugin without a later signal looks ahead to the end. -/
theorem lookahead_eq_size (h : ∀ j, 0 < j → ¬p.SignalsAt w j) : p.lookahead w = w.size := by
  by_contra hne
  have hlt : p.lookahead w < w.size := Nat.lt_of_le_of_ne (p.lookahead_le_size w) hne
  exact h _ (p.lookahead_pos (by omega)) (signalsAt_lookahead hlt)

/-! ### What a candidate says -/

/-- What a candidate says when the scan is at `offset`. One that is ahead is the first later offset
    where the plugin signals; one that the scan has come to says nothing. Where there is none, the
    plugin signals at no later offset. -/
def Recalls (p : Plugin) (w : Window) (offset : Nat) : Option Nat → Prop
  | some known => offset < known →
      p.SignalsAt w known ∧ ∀ k, offset < k → k < known → ¬p.SignalsAt w k
  | none => ∀ k, offset < k → ¬p.SignalsAt w k

theorem Recalls.later {offset later : Nat} {slot : Option Nat} (h : p.Recalls w offset slot)
    (hle : offset ≤ later) : p.Recalls w later slot := by
  cases slot with
  | some known =>
    intro hlater
    obtain ⟨hsignals, hfirst⟩ := h (by omega)
    exact ⟨hsignals, fun k hk => hfirst k (by omega)⟩
  | none => exact fun k hk => h k (by omega)

end Plugin

namespace Frame

variable {f : Frame} {p : Plugin} {c : Catalog}

/-- A plugin that is searched for anew. -/
theorem candidate_zero (f : Frame) (p : Plugin) :
    f.candidate p 0
      = if p.lookahead f.rest < f.rest.size then some (f.offset + p.lookahead f.rest) else none :=
  if_neg (Nat.not_lt_zero _)

theorem size_rest (f : Frame) : f.rest.size = f.data.size - f.offset := Window.size_drop ..

theorem signalsAt_rest (f : Frame) (k : Nat) :
    p.SignalsAt f.rest k ↔ p.SignalsAt f.data (f.offset + k) := Plugin.signalsAt_drop f.offset

/-- What a search finds is right. -/
theorem recalls_candidate (f : Frame) (p : Plugin) :
    p.Recalls f.data f.offset (f.candidate p 0) := by
  have hsilent : ∀ k, f.offset < k → k < f.offset + p.lookahead f.rest →
      ¬p.SignalsAt f.data k := by
    intro k hk hlt
    have hnone := p.not_signalsAt_of_lt_lookahead (w := f.rest) (k := k - f.offset)
      (by omega) (by omega)
    rwa [signalsAt_rest, Nat.add_sub_of_le (Nat.le_of_lt hk)] at hnone
  rw [candidate_zero]
  by_cases hahead : p.lookahead f.rest < f.rest.size
  · rw [if_pos hahead]
    exact fun _ => ⟨(f.signalsAt_rest _).1 (Plugin.signalsAt_lookahead hahead), hsilent⟩
  · -- The search came to the end, and there are no signals behind the end.
    rw [if_neg hahead]
    intro k hk hsignals
    have hsize := f.size_rest
    have hlt := hsignals.lt_size
    exact hsilent k hk (by omega) hsignals

/-- A candidate that is right is the one that a new search finds. -/
theorem bind_candidate {slot : Option Nat} (h : p.Recalls f.data f.offset slot) :
    slot.bind (f.candidate p) = f.candidate p 0 := by
  rw [candidate_zero]
  cases slot with
  | none =>
    have hnone : p.lookahead f.rest = f.rest.size := by
      apply Plugin.lookahead_eq_size
      intro j hj hsignals
      exact h _ (by omega) ((f.signalsAt_rest j).1 hsignals)
    rw [if_neg (by omega)]
    rfl
  | some known =>
    simp only [Option.bind_some, candidate]
    by_cases hknown : f.offset < known
    · obtain ⟨hsignals, hfirst⟩ := h hknown
      have hlt := hsignals.lt_size
      have hshift : f.offset + (known - f.offset) = known := by omega
      have hahead : p.lookahead f.rest = known - f.offset := by
        apply Plugin.lookahead_eq_of_signalsAt (by omega)
        · rwa [signalsAt_rest, hshift]
        · intro j hj hjk hj'
          exact hfirst _ (by omega) (by omega) ((f.signalsAt_rest j).1 hj')
      rw [if_pos hknown, hahead, hshift, if_pos (by rw [size_rest]; omega)]
    · rw [if_neg hknown]

/-! ### Frames that recall -/

/-- Whether all candidates of a frame are right. -/
def Recalls (f : Frame) (c : Catalog) : Prop :=
  List.Forall₂ (fun p slot => p.Recalls f.data f.offset slot) c.plugins f.candidates

/-- The frame at some offset, when nothing is known of where the plugins could begin. -/
def renewed (f : Frame) (c : Catalog) (offset : Nat) : Frame :=
  { f with offset, candidates := List.replicate c.size (some 0) }

theorem recalls_renewed (f : Frame) (c : Catalog) (offset : Nat) :
    (f.renewed c offset).Recalls c := by
  unfold Recalls
  refine List.forall₂_iff_get.2 ⟨by simp [renewed, Catalog.size], fun i hi hi' => ?_⟩
  have hslot : (f.renewed c offset).candidates.get ⟨i, hi'⟩ = some 0 := by simp [renewed]
  rw [hslot]
  exact fun h => absurd h (Nat.not_lt_zero _)

theorem Recalls.recalls_getElem? (h : f.Recalls c) {i : Nat} {slot : Option Nat}
    (hp : c.plugins[i]? = some p) (hslot : f.candidates[i]? = some slot) :
    p.Recalls f.data f.offset slot := by
  obtain ⟨hi, rfl⟩ := List.getElem?_eq_some_iff.1 hp
  obtain ⟨hi', rfl⟩ := List.getElem?_eq_some_iff.1 hslot
  exact (List.forall₂_iff_get.1 h).2 i hi hi'

/-- Candidates stay right when the scan moves on. -/
theorem Recalls.moveTo (h : f.Recalls c) {offset : Nat} (hle : f.offset ≤ offset) :
    { f with offset }.Recalls c :=
  List.Forall₂.imp (fun _ _ hslot => hslot.later hle) h

theorem Recalls.refresh (h : f.Recalls c) (tried : Plugin → Bool) :
    { f with candidates := f.refresh tried c }.Recalls c := by
  show List.Forall₂ (fun p slot => p.Recalls f.data f.offset slot) c.plugins
    (f.refresh tried c)
  unfold Recalls at h
  unfold Frame.refresh
  generalize c.plugins = plugins at h ⊢
  generalize f.candidates = slots at h ⊢
  induction h with
  | nil => exact .nil
  | @cons p slot plugins slots hslot _ ih =>
    refine .cons ?_ ih
    by_cases htried : tried p = true
    · simp only [htried, if_true, bind_candidate hslot]
      exact f.recalls_candidate p
    · simpa only [htried, Bool.false_eq_true, if_false] using hslot

/-- The least candidate, counted from the offset. Plugins that are not tried take no part in it. -/
theorem foldl_refresh {plugins : List Plugin} {slots : List (Option Nat)}
    (h : List.Forall₂ (fun p slot => p.Recalls f.data f.offset slot) plugins slots)
    (tried : Plugin → Bool) {next : Nat} (hnext : next ≤ f.data.size) :
    (plugins.zip (List.zipWith (fun p slot =>
        if tried p then slot.bind (f.candidate p) else slot) plugins slots)).foldl
      (fun next e => if tried e.1 then min next (e.2.getD next) else next) next - f.offset
      = ((plugins.filter tried).map fun p => p.lookahead f.rest).foldl min (next - f.offset) := by
  induction h generalizing next with
  | nil => rfl
  | @cons p slot plugins slots hslot _ ih =>
    have hsize := f.size_rest
    have hle := p.lookahead_le_size f.rest
    simp only [List.zipWith_cons_cons, List.zip_cons_cons, List.foldl_cons, List.filter_cons]
    by_cases htried : tried p = true
    · simp only [htried, if_true, List.map_cons, List.foldl_cons, bind_candidate hslot,
        candidate_zero]
      by_cases hahead : p.lookahead f.rest < f.rest.size
      · simp only [if_pos hahead, Option.getD_some]
        rw [ih (by omega)]
        congr 1
        omega
      · simp only [if_neg hahead, Option.getD_none, Nat.min_self]
        rw [ih hnext]
        congr 1
        omega
    · simp only [htried, Bool.false_eq_true, if_false]
      exact ih hnext

end Frame

/-! ### Looking ahead -/

namespace Scan

variable {s : Scan} {skips : Plugin → Bool} {f : Frame}

/-- How far a frame sees: to the least of the offsets that the plugins which are tried look ahead
    to, not beyond its end, and one byte at least. -/
def reach (s : Scan) (skips : Plugin → Bool) (f : Frame) : Nat :=
  max 1 (((s.catalog.plugins.filter (s.tries skips f.depth)).map fun p =>
    p.lookahead f.rest).foldl min f.rest.size)

/-- One look ahead with candidates that are right. -/
theorem lookAhead_of_recalls (h : f.Recalls s.catalog) :
    (s.lookAhead skips f).2 = s.reach skips f := by
  have hleast := Frame.foldl_refresh h (s.tries skips f.depth) (Nat.le_refl f.data.size)
  rw [reach, Frame.size_rest, ← hleast]
  rfl

theorem recalls_lookAhead (skips : Plugin → Bool) (h : f.Recalls s.catalog) :
    (s.lookAhead skips f).1.Recalls s.catalog :=
  h.refresh (s.tries skips f.depth)

/-- Looks ahead from one offset after another: the frame that keeps what was found, and the
    distances that were seen. -/
def lookAheads (s : Scan) (skips : Plugin → Bool) (f : Frame) : List Nat → Frame × List Nat
  | [] => (f, [])
  | offset :: later =>
    let (f, distance) := s.lookAhead skips { f with offset }
    let (f, distances) := s.lookAheads skips f later
    (f, distance :: distances)

theorem lookAheads_of_recalls (skips : Plugin → Bool) {offsets : List Nat}
    (h : f.Recalls s.catalog) (hrising : (f.offset :: offsets).Pairwise (· ≤ ·)) :
    (s.lookAheads skips f offsets).2 = offsets.map (fun o => s.reach skips { f with offset := o })
    ∧ (s.lookAheads skips f offsets).1.Recalls s.catalog
    ∧ (s.lookAheads skips f offsets).1.data = f.data
    ∧ (s.lookAheads skips f offsets).1.offset = (f.offset :: offsets).getLast (by simp) := by
  induction offsets generalizing f with
  | nil => exact ⟨rfl, h, rfl, rfl⟩
  | cons offset later ih =>
    obtain ⟨hle, hlater⟩ := List.pairwise_cons.1 hrising
    have hmoved : { f with offset }.Recalls s.catalog := h.moveTo (hle offset (by simp))
    obtain ⟨hdistances, hrecalls, hdata, hoffset⟩ :=
      ih (recalls_lookAhead skips hmoved) hlater
    refine ⟨?_, hrecalls, hdata, ?_⟩
    · simp only [lookAheads, List.map_cons]
      -- Looking ahead changes nothing but the candidates, which a reach does not depend on.
      rw [hdistances, lookAhead_of_recalls hmoved]
      rfl
    · simp only [lookAheads]
      rw [hoffset, List.getLast_cons (List.cons_ne_nil _ _)]
      rfl

/-! ### How far a frame sees -/

/-- A reach is one of the offsets it is the least of, the end of the frame among them. -/
theorem reach_spec (s : Scan) (skips : Plugin → Bool) (f : Frame) :
    ∃ least ≤ f.rest.size, s.reach skips f = max 1 least
      ∧ (∀ p ∈ s.catalog.plugins, s.tries skips f.depth p = true → least ≤ p.lookahead f.rest)
      ∧ (least < f.rest.size → ∃ p ∈ s.catalog.plugins, s.tries skips f.depth p = true
          ∧ p.lookahead f.rest = least) := by
  have hmin : (f.rest.size :: (s.catalog.plugins.filter (s.tries skips f.depth)).map fun p =>
      p.lookahead f.rest).min? = some _ := List.min?_cons'
  obtain ⟨hmem, hle⟩ := List.min?_eq_some_iff.1 hmin
  refine ⟨_, hle _ List.mem_cons_self, rfl, fun p hp htries => ?_, fun hlt => ?_⟩
  · have htried := List.mem_filter.2 ⟨hp, htries⟩
    exact hle _ (List.mem_cons_of_mem _ (List.mem_map_of_mem htried))
  · rcases List.mem_cons.1 hmem with heq | hmem
    · exact absurd heq (Nat.ne_of_lt hlt)
    · obtain ⟨p, hp, heq⟩ := List.mem_map.1 hmem
      obtain ⟨hp, htries⟩ := List.mem_filter.1 hp
      exact ⟨p, hp, htries, heq⟩

/-- Between its offset and the one that a frame sees, no plugin that is tried signals. -/
theorem not_signalsAt_of_lt_reach {p : Plugin} (hp : p ∈ s.catalog.plugins)
    (htries : s.tries skips f.depth p = true) {k : Nat} (hk : f.offset < k)
    (hlt : k < f.offset + s.reach skips f) : ¬p.SignalsAt f.data k := by
  obtain ⟨least, -, hreach, hle, -⟩ := s.reach_spec skips f
  have hahead := hle p hp htries
  have hnone := p.not_signalsAt_of_lt_lookahead (w := f.rest) (k := k - f.offset)
    (by omega) (by omega)
  rwa [f.signalsAt_rest, Nat.add_sub_of_le (Nat.le_of_lt hk)] at hnone

/-- Where a frame sees to inside its data, a plugin that is tried signals. -/
theorem signalsAt_reach (h : f.offset + s.reach skips f < f.data.size) :
    ∃ p ∈ s.catalog.plugins, s.tries skips f.depth p = true
      ∧ p.SignalsAt f.data (f.offset + s.reach skips f) := by
  obtain ⟨least, hleast, hreach, -, hattained⟩ := s.reach_spec skips f
  have hsize := f.size_rest
  have hinside : least < f.rest.size := by omega
  obtain ⟨p, hp, htries, hahead⟩ := hattained hinside
  clear hattained
  have hpos := p.lookahead_pos (w := f.rest) (by omega)
  have hsignals := p.signalsAt_lookahead (w := f.rest) (by omega)
  have hsame : p.lookahead f.rest = s.reach skips f := by omega
  exact ⟨p, hp, htries, by rwa [f.signalsAt_rest, hsame] at hsignals⟩

theorem offset_add_reach_le (s : Scan) (skips : Plugin → Bool) (h : f.offset < f.data.size) :
    f.offset + s.reach skips f ≤ f.data.size := by
  obtain ⟨least, hleast, hreach, -, -⟩ := s.reach_spec skips f
  have hsize := f.size_rest
  omega

/-! ### All looks ahead -/

/-- **Candidates that are kept.** From a frame about which nothing is known, let a scan look ahead
    at offsets that do not go back, whatever lies between them. Each time it sees as far as it would
    with nothing known. That is as far as the plugins that are tried look ahead from there, the end
    of the frame if that comes first, and one byte at least: to the first later offset where one of
    them signals, or to the end. And a plugin whose candidate was given up signals nowhere behind
    the offsets. -/
theorem lookAheads_exact (s : Scan) (skips : Plugin → Bool) (f : Frame) {offsets : List Nat}
    (hrising : offsets.Pairwise (· ≤ ·)) :
    (s.lookAheads skips (f.renewed s.catalog 0) offsets).2
      = offsets.map (fun o => (s.lookAhead skips (f.renewed s.catalog o)).2)
    ∧ (∀ o, (s.lookAhead skips (f.renewed s.catalog o)).2
        = max 1 (((s.catalog.plugins.filter (s.tries skips f.depth)).map fun p =>
            p.lookahead (f.data.drop o)).foldl min (f.data.size - o)))
    ∧ (∀ o < f.data.size, ∃ next ≤ f.data.size,
        (s.lookAhead skips (f.renewed s.catalog o)).2 = next - o ∧ o < next
        ∧ (∀ k, o < k → k < next → ∀ p ∈ s.catalog.plugins, s.tries skips f.depth p = true →
            ¬p.SignalsAt f.data k)
        ∧ (next < f.data.size → ∃ p ∈ s.catalog.plugins, s.tries skips f.depth p = true
            ∧ p.SignalsAt f.data next))
    ∧ ∀ (i : Nat) (p : Plugin), s.catalog.plugins[i]? = some p →
        (s.lookAheads skips (f.renewed s.catalog 0) offsets).1.candidates[i]? = some none →
        ∀ k, (∀ o ∈ offsets, o < k) → ¬p.SignalsAt f.data k := by
  have hrenewed : ∀ o, (s.lookAhead skips (f.renewed s.catalog o)).2
      = s.reach skips (f.renewed s.catalog o) :=
    fun o => lookAhead_of_recalls (f.recalls_renewed s.catalog o)
  obtain ⟨hdistances, hrecalls, hdata, hoffset⟩ := lookAheads_of_recalls skips
    (f.recalls_renewed s.catalog 0) (List.pairwise_cons.2 ⟨fun o _ => Nat.zero_le o, hrising⟩)
  refine ⟨?_, fun o => ?_, fun o ho => ?_, fun i p hp hslot k hk => ?_⟩
  · rw [hdistances]
    exact List.map_congr_left fun o _ => (hrenewed o).symm
  · rw [hrenewed, reach, Frame.size_rest]
    rfl
  · have hle := s.offset_add_reach_le skips (f := f.renewed s.catalog o) ho
    have hpos : 1 ≤ s.reach skips (f.renewed s.catalog o) := Nat.le_max_left ..
    refine ⟨o + s.reach skips (f.renewed s.catalog o), hle, ?_, by omega, ?_,
      signalsAt_reach (f := f.renewed s.catalog o)⟩
    · rw [hrenewed, Nat.add_sub_cancel_left]
    · exact fun k hk hlt p hp htries =>
        not_signalsAt_of_lt_reach (f := f.renewed s.catalog o) hp htries hk hlt
  · cases offsets with
    | nil =>
      -- Before the first look every candidate is a number.
      obtain ⟨hi, hnone⟩ := List.getElem?_eq_some_iff.1 hslot
      simp [lookAheads, Frame.renewed] at hnone
    | cons first later =>
      have hlast := hk _ (List.getLast_mem (List.cons_ne_nil first later))
      rw [List.getLast_cons (List.cons_ne_nil first later)] at hoffset
      have hsilent := Frame.Recalls.recalls_getElem? hrecalls hp hslot
      rw [hdata, hoffset] at hsilent
      exact hsilent k hlast

/-- A recording begins three bytes behind the start of the data. A scan that looks ahead at the
    offsets 0, 2 and 3 sees it twice and then the end, where all candidates are given up. -/
theorem lookAheads_to_shiftedRecording :
    let s : Scan := (⟨.builtin, {}⟩ : Detector).scan ⟨"tunes", ""⟩
    let f := Frame.start Detector.shiftedRecording (.empty '/') ∅ 0 .builtin
    let looks := s.lookAheads (fun _ => false) (f.renewed .builtin 0) [0, 2, 3]
    [0, 2, 3].Pairwise (· ≤ ·) ∧ looks.2 = [3, 1, 18]
      ∧ looks.2 = [0, 2, 3].map
          (fun o => (s.lookAhead (fun _ => false) (f.renewed .builtin o)).2)
      ∧ looks.1.candidates[6]? = some none ∧ Catalog.builtin.plugins[6]? = some Ym.plugin
      ∧ ¬Ym.plugin.SignalsAt Detector.shiftedRecording 7 := by
  intro s f looks
  have hrising : [0, 2, 3].Pairwise (· ≤ ·) := by decide
  have hslot : looks.1.candidates[6]? = some none := by decide +kernel
  obtain ⟨hsame, -, -, hgiven⟩ := s.lookAheads_exact (fun _ => false) f hrising
  exact ⟨hrising, by decide +kernel, hsame, hslot, rfl, hgiven 6 _ rfl hslot 7 (by decide)⟩

end Scan

end Chiptune
