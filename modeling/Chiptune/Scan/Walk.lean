import Chiptune.Scan.Finding
import Chiptune.Scan.Lookahead
import Chiptune.Scan.Observer
import Chiptune.Scan.Opening
import Chiptune.Scan.Stack

namespace Chiptune

/-!
# The course of a scan

A scan is a sequence of steps on a stack of frames.

* `Scan.step` — one step: finish a frame, try the archives at its offset, or try the players there
  and move on;
* `Scan.descends_step` — a step leaves a lower stack, so every scan ends;
* `Scan.run` — all steps.
-/

variable {σ α : Type}

/-- A scan between two steps: the frames that are not finished, the numbers of tunes and frames so
    far, and the state of the observer. -/
structure Walk (σ : Type) where
  stack : List Frame
  modules : Nat
  frames : Nat
  observer : σ

/-- The outcome of a step: the scan goes on, or it is over. -/
inductive Step (σ : Type) where
  | on (w : Walk σ)
  | over (result : Except ScanError Summary) (observer : σ)

/-- The first result of `attempt`, for the plugins in their order, leaving out those that the
    observer skips. The observer is polled before each of them, and then asked whether to skip it.
    There is no result once it wants to stop. -/
def Observer.firstOf (o : Observer σ) (attempt : Plugin → Option α) :
    List Plugin → σ → Option α × σ
  | [], state => (none, state)
  | p :: rest, state =>
    let (stop, state) := o.poll state
    if stop then (none, state)
    else match if o.skips state p then none else attempt p with
      | some result => (some result, state)
      | none => o.firstOf attempt rest state

namespace Scan

/-- Offer the records that are wanted, and count those that are taken on top of `taken`. The
    observer is polled before each record, wanted or not. A refusal ends it with its reason. -/
def offerEach (s : Scan) (o : Observer σ) (taken : Nat) :
    List Record → σ → Nat × Option String × σ
  | [], state => (taken, none, state)
  | record :: rest, state =>
    let (stop, state) := o.poll state
    if stop then (taken, none, state)
    else if s.wants record.path then
      match o.offer record state with
      | (none, state) => s.offerEach o (taken + 1) rest state
      | (some reason, state) => (taken, some reason, state)
    else s.offerEach o taken rest state

/-! ### Steps -/

/-- The frame at its next offset: behind the larger claim, or where anything could match. A scan
    that is not raw ends here. -/
def advance (s : Scan) (skips : Plugin → Bool) (f : Frame) (claim : Nat) : Frame :=
  let (f, size) := if claim = 0 then s.lookAhead skips f else (f, claim)
  { f with
    offset := if s.settings.scanRaw then f.offset + size else f.data.size
    phase := .archives }

/-- Try the archives at the offset of the frame `f`, which lies on `below`. The entries of an
    archive are put on top of its frame. -/
def archivesStep (s : Scan) (o : Observer σ) (w : Walk σ) (f : Frame) (below : List Frame) :
    Walk σ :=
  let (opened?, state) :=
    if s.opensAt f.depth then
      o.firstOf (f.open? s.settings) s.catalog.archives w.observer
    else (none, w.observer)
  match opened? with
  | none => { w with stack := { f with phase := .players 0 } :: below, observer := state }
  | some opened =>
    let children := s.children f opened
    { w with
      stack := children ++ f.behind opened :: below
      frames := w.frames + children.length
      observer := o.log (openedMessage f opened children.length) state }

/-- The error for a record of the frame `f` that was refused. -/
def refusal (s : Scan) (f : Frame) (reason : String) : ScanError :=
  .refused f.offset (s.location.withSubpath f.path.render).full reason

/-- Try the players at the offset of the frame `f`, which lies on `below`, and move on. -/
def playersStep (s : Scan) (o : Observer σ) (w : Walk σ) (f : Frame) (below : List Frame)
    (claim : Nat) : Step σ :=
  match o.firstOf f.find? s.catalog.players w.observer with
  | (none, state) =>
    .on { w with stack := s.advance (o.skips state) f claim :: below, observer := state }
  | (some found, state) =>
    match s.offerEach o 0 (s.records f found) state with
    | (_, some reason, state) => .over (.error (s.refusal f reason)) state
    | (taken, none, state) =>
      let f := { f with tuneClaims := found.claims }
      .on { w with
        stack := s.advance (o.skips state) f (max claim found.claim) :: below
        modules := w.modules + taken
        observer := state }

/-- One step of a scan. -/
def step (s : Scan) (o : Observer σ) (w : Walk σ) : Step σ :=
  match w.stack with
  | [] => .over (.ok ⟨w.modules, w.frames, false⟩) w.observer
  | f :: below =>
    let (stop, state) := o.poll w.observer
    let w := { w with observer := state }
    if stop then .over (.ok ⟨w.modules, w.frames, true⟩) state
    else if f.isDone then .on { w with stack := below, observer := o.log f.doneMessage state }
    else match f.phase with
      | .archives => .on (s.archivesStep o w f below)
      | .players claim => s.playersStep o w f below claim

/-! ### Termination -/

theorem data_advance (s : Scan) (skips : Plugin → Bool) (f : Frame) (claim : Nat) :
    (s.advance skips f claim).data = f.data := by
  simp only [advance, lookAhead]; split <;> rfl

theorem depth_advance (s : Scan) (skips : Plugin → Bool) (f : Frame) (claim : Nat) :
    (s.advance skips f claim).depth = f.depth := by
  simp only [advance, lookAhead]; split <;> rfl

theorem lt_offset_advance (s : Scan) (skips : Plugin → Bool) (f : Frame) (claim : Nat)
    (h : f.offset < f.data.size) : f.offset < (s.advance skips f claim).offset := by
  simp only [advance, lookAhead]
  split <;> split <;> simp only <;> omega

theorem below_advance (s : Scan) (skips : Plugin → Bool) (f g : Frame) (claim : Nat)
    {maxDepth : Nat} (hdata : g.data = f.data) (hdepth : g.depth = f.depth)
    (hoffset : g.offset = f.offset) (h : f.offset < f.data.size) {c : Nat}
    (hphase : f.phase = .players c) : (s.advance skips g claim).Below maxDepth f := by
  have hlt := s.lt_offset_advance skips g claim (by rw [hoffset, hdata]; exact h)
  have hphase' : (s.advance skips g claim).phase = .archives := by
    simp only [advance]
  simp only [Frame.Below, Frame.rank, data_advance, depth_advance, hdata, hdepth, hphase, hphase']
  refine Prod.Lex.right _ ?_
  simp only [Frame.phaseRank]
  omega

theorem below_of_mem_children {s : Scan} {f g : Frame} {opened : Opened}
    (hdepth : s.opensAt f.depth = true) (h : g ∈ s.children f opened) :
    g.Below s.settings.maxDepth.toNat f := by
  simp only [children, List.mem_map] at h
  obtain ⟨entry, -, rfl⟩ := h
  simp only [opensAt, decide_eq_true_eq] at hdepth
  refine Prod.Lex.left _ _ ?_
  simp only [Frame.start]
  omega

theorem below_players {f g : Frame} {maxDepth : Nat} (hdata : g.data = f.data)
    (hdepth : g.depth = f.depth) (hoffset : g.offset = f.offset) {c : Nat}
    (hf : f.phase = .archives) (hg : g.phase = .players c) : g.Below maxDepth f := by
  simp only [Frame.Below, Frame.rank, hdata, hdepth, hoffset, hf, hg]
  exact Prod.Lex.right _ (Nat.lt_succ_self _)

theorem descends_children {s : Scan} {f : Frame} {opened : Opened} {below : List Frame}
    (hdepth : s.opensAt f.depth = true) (hphase : f.phase = .archives) :
    @Stack.Descends s.settings.maxDepth.toNat
      (s.children f opened ++ f.behind opened :: below) (f :: below) := by
  have hlower : ∀ g ∈ s.children f opened ++ [f.behind opened],
      g.Below s.settings.maxDepth.toNat f := by
    intro g hg
    rcases List.mem_append.1 hg with hg | hg
    · exact below_of_mem_children hdepth hg
    · rw [List.mem_singleton.1 hg]
      exact below_players rfl rfl rfl hphase rfl
  rw [← List.singleton_append, ← List.append_assoc]
  exact Stack.descends_append hlower

theorem descends_advance (s : Scan) (skips : Plugin → Bool) {f : Frame} {below : List Frame}
    (tuneClaims : Claims) (claim : Nat) (hlt : f.offset < f.data.size) {c : Nat}
    (hphase : f.phase = .players c) :
    @Stack.Descends s.settings.maxDepth.toNat
      (s.advance skips { f with tuneClaims } claim :: below) (f :: below) :=
  Stack.descends_cons (s.below_advance skips f { f with tuneClaims } claim rfl rfl rfl hlt hphase)

theorem descends_archivesStep {s : Scan} {o : Observer σ} {w : Walk σ} {f : Frame}
    {below : List Frame} (hphase : f.phase = .archives) :
    @Stack.Descends s.settings.maxDepth.toNat (s.archivesStep o w f below).stack
      (f :: below) := by
  simp only [archivesStep]
  split
  · exact Stack.descends_cons (below_players rfl rfl rfl hphase rfl)
  · rename_i opened hopened
    have hdepth : s.opensAt f.depth = true := by
      refine Decidable.byContradiction fun h => ?_
      simp [h] at hopened
    exact descends_children hdepth hphase

theorem descends_playersStep {s : Scan} {o : Observer σ} {w w' : Walk σ} {f : Frame}
    {below : List Frame} {claim : Nat} (hphase : f.phase = .players claim)
    (hdone : f.offset < f.data.size) (h : s.playersStep o w f below claim = .on w') :
    @Stack.Descends s.settings.maxDepth.toNat w'.stack (f :: below) := by
  simp only [playersStep] at h
  split at h
  · cases h
    exact s.descends_advance _ f.tuneClaims _ hdone hphase
  · split at h
    · cases h
    · cases h
      exact s.descends_advance _ _ _ hdone hphase

/-- A step that is not the last leaves a lower stack. -/
theorem descends_step {s : Scan} {o : Observer σ} {w w' : Walk σ} (h : s.step o w = .on w') :
    @Stack.Descends s.settings.maxDepth.toNat w'.stack w.stack := by
  simp only [step] at h
  split at h
  · cases h
  · rename_i f below hstack
    rw [hstack]
    split at h
    · cases h
    · split at h
      · cases h
        exact Stack.descends_append (List.forall_mem_nil _)
      · rename_i hdone
        have hdone : f.offset < f.data.size := by simpa [Frame.isDone] using hdone
        split at h
        · cases h
          exact descends_archivesStep ‹_›
        · exact descends_playersStep ‹_› hdone h

/-! ### Runs -/

/-- All steps of a scan from a point on. -/
def run (s : Scan) (o : Observer σ) (w : Walk σ) : Except ScanError Summary × σ :=
  match _h : s.step o w with
  | .over result state => (result, state)
  | .on w' => s.run o w'
termination_by Stack.ofFrames s.settings.maxDepth.toNat w.stack
decreasing_by exact descends_step _h

end Scan

/-- The start of a scan of `data` with the path `root`. -/
def Walk.start (catalog : Catalog) (data : Window) (root : TunePath) (observer : σ) : Walk σ where
  stack := [.start data root ∅ 0 catalog]
  modules := 0
  frames := 1
  observer := observer

end Chiptune
