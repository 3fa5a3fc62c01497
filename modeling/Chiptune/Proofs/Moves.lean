import Chiptune.Proofs.Refinement
import Mathlib.Logic.Relation
import Mathlib.Order.WellFounded

namespace Chiptune

/-!
# Where a scan can go

What a step does to the stack depends on the observer in few ways: it may keep a plugin from being
tried, or stop the trying. `Scan.Moves` are the steps for all that an observer could do, also for
one that changes its mind about plugins during a scan.

* `Scan.moves_of_step` — the steps of a scan are such moves;
* `Scan.wellFounded_moves` — no sequence of moves is endless;
* `Frame.Within`, `Scan.within_of_moves` — the bounds that every frame keeps;
* `Scan.ends_within_bounds` — so every scan ends, and moves on inside its data.
-/

variable {σ α : Type}

/-- A first result is the result of one of the plugins. -/
theorem Observer.exists_of_firstOf {o : Observer σ} {attempt : Plugin → Option α}
    {plugins : List Plugin} {st st' : σ} {result : α}
    (h : o.firstOf attempt plugins st = (some result, st')) :
    ∃ p ∈ plugins, attempt p = some result := by
  induction plugins generalizing st with
  | nil => cases h
  | cons p rest ih =>
    unfold Observer.firstOf at h
    simp only at h
    split at h
    · cases h
    · split at h
      · -- A plugin that is skipped gives no result.
        rename_i hattempt
        cases h
        split at hattempt
        · cases hattempt
        · exact ⟨p, List.mem_cons_self, hattempt⟩
      · obtain ⟨q, hq, hattempt⟩ := ih h
        exact ⟨q, List.mem_cons_of_mem p hq, hattempt⟩

namespace Scan

/-- What one step can make of a stack, whatever the observer answers: a frame that is done is left;
    archives are tried and one is opened, or none; players are tried and one finds tunes, or none,
    and the frame moves on with any choice of plugins to look ahead for. -/
inductive Moves (s : Scan) : List Frame → List Frame → Prop where
  | leave {f : Frame} {below : List Frame} : f.isDone = true → Moves s (f :: below) below
  | unpack {f : Frame} {below : List Frame} {p : Plugin} {opened : Opened} : ¬f.isDone = true →
      f.phase = .archives → s.opensAt f.depth = true → p ∈ s.catalog.archives →
      f.open? s.settings p = some opened →
      Moves s (f :: below) (s.children f opened ++ f.behind opened :: below)
  | keep {f : Frame} {below : List Frame} : ¬f.isDone = true → f.phase = .archives →
      Moves s (f :: below) ({ f with phase := .players 0 } :: below)
  | play {f : Frame} {below : List Frame} {p : Plugin} {found : Found} {claim : Nat}
      (skips : Plugin → Bool) : ¬f.isDone = true → f.phase = .players claim →
      p ∈ s.catalog.players → f.find? p = some found →
      Moves s (f :: below)
        (s.advance skips { f with tuneClaims := found.claims } (max claim found.claim) :: below)
  | pass {f : Frame} {below : List Frame} {claim : Nat} (skips : Plugin → Bool) :
      ¬f.isDone = true → f.phase = .players claim →
      Moves s (f :: below) (s.advance skips f claim :: below)

variable {s : Scan} {o : Observer σ} {w w' : Walk σ} {f : Frame} {below frames next : List Frame}

theorem moves_archivesStep (hdone : ¬f.isDone = true) (hphase : f.phase = .archives) :
    s.Moves (f :: below) (s.archivesStep o w f below).stack := by
  simp only [archivesStep]
  split
  · exact .keep hdone hphase
  · rename_i opened hopened
    by_cases hopens : s.opensAt f.depth = true
    · rw [if_pos hopens] at hopened
      obtain ⟨p, hp, hopen⟩ := Observer.exists_of_firstOf (Prod.ext hopened rfl)
      exact .unpack hdone hphase hopens hp hopen
    · rw [if_neg hopens] at hopened
      cases hopened

theorem moves_playersStep (hdone : ¬f.isDone = true) {claim : Nat}
    (hphase : f.phase = .players claim) (h : s.playersStep o w f below claim = .on w') :
    s.Moves (f :: below) w'.stack := by
  unfold playersStep at h
  split at h
  · cases h
    exact .pass _ hdone hphase
  · rename_i found st hfound
    obtain ⟨p, hp, hfind⟩ := Observer.exists_of_firstOf hfound
    split at h
    · cases h
    · cases h
      exact .play _ hdone hphase hp hfind

/-- The steps of a scan are moves. -/
theorem moves_of_step (h : s.step o w = .on w') : s.Moves w.stack w'.stack := by
  unfold step at h
  split at h
  · cases h
  · rename_i f below hstack
    rw [hstack]
    simp only at h
    split at h
    · cases h
    · split at h
      · rename_i hdone
        cases h
        exact .leave hdone
      · rename_i hdone
        split at h
        · cases h
          exact moves_archivesStep hdone ‹_›
        · exact moves_playersStep hdone ‹_› h

/-! ### Every sequence of moves ends -/

theorem descends_of_moves (h : s.Moves frames next) :
    @Stack.Descends s.settings.maxDepth.toNat next frames := by
  cases h with
  | leave hdone => exact Stack.descends_append (List.forall_mem_nil _)
  | unpack hdone hphase hopens hp hopen => exact descends_children hopens hphase
  | keep hdone hphase => exact Stack.descends_cons (below_players rfl rfl rfl hphase rfl)
  | @play f below p found claim skips hdone hphase hp hfind =>
    exact s.descends_advance skips found.claims _ (f.lt_of_not_isDone hdone) hphase
  | @pass f below claim skips hdone hphase =>
    exact s.descends_advance skips f.tuneClaims claim (f.lt_of_not_isDone hdone) hphase

/-- Entries may be larger than their archive, and there may be any number of them, but each move
    leaves a lower stack. -/
theorem wellFounded_moves (s : Scan) : WellFounded fun next frames => s.Moves frames next :=
  Subrelation.wf descends_of_moves Stack.wellFounded_descends

/-- A run takes finitely many steps. -/
theorem exists_runWithin (s : Scan) (o : Observer σ) (w : Walk σ) :
    ∃ steps, s.runWithin o steps w = some (s.run o w) := by
  -- Induction along the run, which is defined by the order of stacks.
  induction w using Scan.run.induct s o with
  | case1 w result st hstep =>
    refine ⟨1, ?_⟩
    rw [runWithin, run_over hstep, hstep]
  | case2 w w' hstep ih =>
    obtain ⟨steps, hrun⟩ := ih
    refine ⟨steps + 1, ?_⟩
    rw [runWithin, run_on hstep, hstep]
    exact hrun

end Scan

/-! ### Bounds of frames -/

/-- Whether a frame keeps within its bounds: it is no deeper than a scan goes, the archive at its
    offset ends inside its data, and it has not come to the end while players are still to be
    tried. -/
structure Frame.Within (maxDepth : Nat) (f : Frame) : Prop where
  depth_le : f.depth ≤ maxDepth
  fits : f.offset + f.claimed ≤ f.data.size
  unfinished : f.phase ≠ .archives → f.offset < f.data.size

theorem Frame.within_start (data : Window) (path : TunePath) (properties : Properties)
    {depth maxDepth : Nat} (h : depth ≤ maxDepth) (c : Catalog) :
    (start data path properties depth c).Within maxDepth where
  depth_le := h
  fits := Nat.zero_le _
  unfinished hphase := absurd rfl hphase

namespace Scan

variable {s : Scan} {f g : Frame} {frames next below : List Frame} {claim : Nat}

/-- A frame moves on by one byte at least, and not beyond the end. -/
theorem offset_advance (s : Scan) (skips : Plugin → Bool) (f : Frame) (claim : Nat)
    (hlt : f.offset < f.data.size) (hfits : f.offset + claim ≤ f.data.size) :
    f.offset < (s.advance skips f claim).offset
      ∧ (s.advance skips f claim).offset ≤ f.data.size := by
  refine ⟨s.lt_offset_advance skips f claim hlt, ?_⟩
  by_cases hclaim : claim = 0
  · rw [hclaim, advance_zero]
    have hahead := offset_add_lookAhead_le s skips hlt
    show (if s.settings.scanRaw then _ else _) ≤ f.data.size
    split
    · exact hahead
    · exact Nat.le_refl _
  · rw [advance_of_ne_zero hclaim]
    show (if s.settings.scanRaw then _ else _) ≤ f.data.size
    split
    · exact hfits
    · exact Nat.le_refl _

/-- The tunes at an offset end inside the data. -/
theorem offset_add_claim_le (hlt : f.offset < f.data.size) (h : claim ≤ f.rest.size) :
    f.offset + claim ≤ f.data.size :=
  Frame.stop_le_size (Nat.le_of_lt hlt) h

/-- A move from a frame for which players are tried takes this frame further inside its data, and
    leaves all others as they are. -/
theorem exists_of_moves_players (hwithin : f.Within s.settings.maxDepth.toNat)
    (hphase : f.phase = .players claim) (h : s.Moves (f :: below) next) :
    ∃ g, next = g :: below ∧ g.data = f.data ∧ g.depth = f.depth ∧ g.phase = .archives
      ∧ f.offset < g.offset ∧ g.offset ≤ f.data.size := by
  have hlt : f.offset < f.data.size := hwithin.unfinished (by rw [hphase]; exact Phase.noConfusion)
  have hfits := hwithin.fits
  rw [Frame.claimed_of_players hphase] at hfits
  cases h with
  | leave hdone =>
    have hle : f.data.size ≤ f.offset := by simpa [Frame.isDone] using hdone
    omega
  | unpack hdone harchives => simp [hphase] at harchives
  | keep hdone harchives => simp [hphase] at harchives
  | @play _ _ p found claim' skips hdone hphase' hp hfind =>
    obtain rfl : claim' = claim := by simpa [hphase] using hphase'.symm
    obtain ⟨-, -, -, hclaim, -⟩ := Frame.find?_spec hfind
    have hfound := offset_add_claim_le hlt hclaim
    have hmax : f.offset + max claim' found.claim ≤ f.data.size := by omega
    exact ⟨_, rfl, data_advance .., depth_advance .., rfl,
      offset_advance s skips { f with tuneClaims := found.claims } _ hlt hmax⟩
  | @pass _ _ claim' skips hdone hphase' =>
    obtain rfl : claim' = claim := by simpa [hphase] using hphase'.symm
    exact ⟨_, rfl, data_advance .., depth_advance .., rfl, offset_advance s skips f _ hlt hfits⟩

theorem within_of_moves_players
    (hwithin : ∀ g ∈ f :: below, g.Within s.settings.maxDepth.toNat)
    (hphase : f.phase = .players claim) (h : s.Moves (f :: below) next) :
    ∀ g ∈ next, g.Within s.settings.maxDepth.toNat := by
  obtain ⟨hf, hbelow⟩ := List.forall_mem_cons.1 hwithin
  obtain ⟨g, rfl, hdata, hdepth, harchives, -, hle⟩ := exists_of_moves_players hf hphase h
  refine List.forall_mem_cons.2 ⟨⟨?_, ?_, fun hne => absurd harchives hne⟩, hbelow⟩
  · rw [hdepth]
    exact hf.depth_le
  · rw [Frame.claimed_of_archives harchives, hdata]
    exact hle

/-- Every move keeps all frames within their bounds. -/
theorem within_of_moves (hwithin : ∀ g ∈ frames, g.Within s.settings.maxDepth.toNat)
    (h : s.Moves frames next) : ∀ g ∈ next, g.Within s.settings.maxDepth.toNat := by
  cases h with
  | leave hdone => exact (List.forall_mem_cons.1 hwithin).2
  | @unpack f below p opened hdone hphase hopens hp hopen =>
    obtain ⟨hf, hbelow⟩ := List.forall_mem_cons.1 hwithin
    have hlt := f.lt_of_not_isDone hdone
    intro g hg
    rcases List.mem_append.1 hg with hg | hg
    · -- Archives are only opened where there is room for one more level.
      obtain ⟨entry, -, rfl⟩ := List.mem_map.1 hg
      have hdepth : f.depth < s.settings.maxDepth.toNat := by simpa [opensAt] using hopens
      exact Frame.within_start _ _ _ hdepth _
    · rcases List.mem_cons.1 hg with rfl | hg
      · obtain ⟨-, -, -, hclaim, -⟩ := Frame.open?_spec hopen
        have hle : opened.claim ≤ f.rest.size := hclaim ▸ Nat.min_le_right ..
        exact ⟨hf.depth_le, offset_add_claim_le hlt hle, fun _ => hlt⟩
      · exact hbelow g hg
  | @keep f below hdone hphase =>
    obtain ⟨hf, hbelow⟩ := List.forall_mem_cons.1 hwithin
    have hlt := f.lt_of_not_isDone hdone
    exact List.forall_mem_cons.2 ⟨⟨hf.depth_le, Nat.le_of_lt hlt, fun _ => hlt⟩, hbelow⟩
  | play skips hdone hphase hp hfind =>
    exact within_of_moves_players hwithin hphase (.play skips hdone hphase hp hfind)
  | pass skips hdone hphase =>
    exact within_of_moves_players hwithin hphase (.pass skips hdone hphase)

/-- Whether a sequence of moves leads from the start of a scan to a stack. -/
def Reaches (s : Scan) (data : Window) (root : TunePath) (frames : List Frame) : Prop :=
  Relation.ReflTransGen s.Moves [.start data root ∅ 0 s.catalog] frames

theorem within_of_reaches {data : Window} {root : TunePath} (h : s.Reaches data root frames) :
    ∀ g ∈ frames, g.Within s.settings.maxDepth.toNat := by
  induction h with
  | refl => exact List.forall_mem_singleton.2 (Frame.within_start _ _ _ (Nat.zero_le _) _)
  | tail _ hmoves ih => exact within_of_moves ih hmoves

/-- **Every scan ends within its bounds.** The steps of an observer are moves, of which there is no
    endless sequence, and every run takes finitely many steps. Wherever moves lead to, no frame is
    deeper than the scan goes, and trying players takes a frame further on, but not beyond the end
    of its data. -/
theorem ends_within_bounds {σ : Type} (s : Scan) (o : Observer σ) (data : Window)
    (root : TunePath) (st : σ) :
    (∀ w w' : Walk σ, s.step o w = .on w' → s.Moves w.stack w'.stack)
    ∧ (∀ frames : Nat → List Frame, ¬∀ i, s.Moves (frames i) (frames (i + 1)))
    ∧ (∃ steps, s.runWithin o steps (.start s.catalog data root st)
        = some (s.run o (.start s.catalog data root st)))
    ∧ ∀ frames, s.Reaches data root frames →
        (∀ f ∈ frames, f.depth ≤ s.settings.maxDepth.toNat)
        ∧ ∀ f below claim next, frames = f :: below → f.phase = .players claim →
            s.Moves frames next → ∃ g, next = g :: below ∧ g.data = f.data
              ∧ f.offset < g.offset ∧ g.offset ≤ g.data.size := by
  refine ⟨fun _ _ => moves_of_step, fun frames hmoves => ?_, s.exists_runWithin o _,
    fun frames hreaches => ⟨fun f hf => (within_of_reaches hreaches f hf).depth_le, ?_⟩⟩
  · exact (wellFounded_iff_isEmpty_descending_chain.1 s.wellFounded_moves).false ⟨frames, hmoves⟩
  · rintro f below claim next rfl hphase hmoves
    have hwithin := within_of_reaches hreaches f List.mem_cons_self
    obtain ⟨g, hnext, hdata, -, -, hlt, hle⟩ := exists_of_moves_players hwithin hphase hmoves
    exact ⟨g, hnext, hdata, hlt, hdata ▸ hle⟩

/-- A scan for a recording comes to try players at the start of the data, three bytes before the
    recording. From there it moves on. -/
theorem moves_on_in_shiftedRecording :
    let s : Scan := (⟨.builtin, {}⟩ : Detector).scan ⟨"tunes", ""⟩
    let data := Detector.shiftedRecording
    let f : Frame := { Frame.start data (.empty '/') ∅ 0 .builtin with phase := .players 0 }
    s.Reaches data (.empty '/') [f] ∧ s.Moves [f] [s.advance (fun _ => false) f 0]
      ∧ ∃ g, [s.advance (fun _ => false) f 0] = [g] ∧ f.offset < g.offset
        ∧ g.offset ≤ g.data.size := by
  intro s data f
  have hdone : ¬f.isDone = true := by decide
  have hreaches : s.Reaches data (.empty '/') [f] := .single (.keep hdone rfl)
  have hmoves : s.Moves [f] [s.advance (fun _ => false) f 0] := .pass _ hdone rfl
  obtain ⟨-, -, -, hbounds⟩ := s.ends_within_bounds Collector.observer data (.empty '/') {}
  obtain ⟨g, hnext, -, hlt, hle⟩ := (hbounds [f] hreaches).2 f [] 0 _ rfl rfl hmoves
  exact ⟨hreaches, hmoves, g, hnext, hlt, hle⟩

end Scan

end Chiptune
