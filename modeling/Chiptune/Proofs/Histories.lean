import Chiptune.Proofs.Moves

namespace Chiptune

/-!
# What happens in a container

A frame keeps what its scan needs and no more. A `Chapter` is a frame with what happened in its
container so far, and how the scan came there.

* `Scan.Tells` — the moves of a scan with a chapter for each frame;
* `Scan.tells_of_step`, `Scan.heard_of_over` — the steps of a scan are told, whoever listens;
* `Scan.Told` — all points that moves lead to from the start of a scan;
* `Scan.Keeps` — properties of chapters that every step keeps;
* `Scan.ToldTo` — those of them that a scan comes to, with someone who listens;
* `Scan.forall_mem_run` — what holds of all records that are offered at such points holds of every
  record.
-/

variable {σ α : Type}

/-! ### Chapters -/

/-- A frame with the archives around its container, innermost first, the regions that were granted
    there to archives and to tunes, and the sightings that were offered from there. Regions and
    sightings come first to last. -/
structure Chapter where
  frame : Frame
  around : List Opened := []
  archives : List Region := []
  tunes : List Region := []
  offers : List Sighting := []

namespace Chapter

/-- The chapter of an entry of the archive that was opened at the offset. -/
def inside (c : Chapter) (opened : Opened) (entry : Frame) : Chapter where
  frame := entry
  around := opened :: c.around

/-- The chapter with the claim of the archive that was opened at the offset. -/
def unpack (c : Chapter) (opened : Opened) : Chapter :=
  { c with
    frame := c.frame.behind opened
    archives := c.archives ++ [⟨c.frame.offset, opened.claim⟩] }

/-- The chapter with the claim of the tunes that were found at the offset, of which some were
    offered. -/
def play (c : Chapter) (found : Found) (offered : List Sighting) : Chapter :=
  { c with
    tunes := c.tunes ++ [⟨c.frame.offset, found.claim⟩]
    offers := c.offers ++ offered }

/-- The chapter with its frame at another point. -/
def turn (c : Chapter) (f : Frame) : Chapter := { c with frame := f }

end Chapter

namespace Scan

/-- What one step can make of the chapters of a stack, and the sightings that it offers. Of the tunes
    that were found an observer can be offered all that are wanted, or the first of them. -/
inductive Tells (s : Scan) : List Chapter → List Sighting → List Chapter → Prop where
  | leave {c : Chapter} {below : List Chapter} : c.frame.isDone = true →
      Tells s (c :: below) [] below
  | unpack {c : Chapter} {below : List Chapter} {p : Plugin} {opened : Opened} :
      ¬c.frame.isDone = true → c.frame.phase = .archives → s.opensAt c.frame.depth = true →
      p ∈ s.catalog.archives → c.frame.open? s.settings p = some opened →
      Tells s (c :: below) []
        ((s.children c.frame opened).map (c.inside opened) ++ c.unpack opened :: below)
  | keep {c : Chapter} {below : List Chapter} : ¬c.frame.isDone = true →
      c.frame.phase = .archives →
      Tells s (c :: below) [] (c.turn { c.frame with phase := .players 0 } :: below)
  | play {c : Chapter} {below : List Chapter} {p : Plugin} {found : Found} {claim : Nat}
      {offered : List Sighting} (skips : Plugin → Bool) : ¬c.frame.isDone = true →
      c.frame.phase = .players claim → p ∈ s.catalog.players → c.frame.find? p = some found →
      offered <+: s.wanted c.frame (s.records c.frame found) →
      Tells s (c :: below) offered
        ((c.play found offered).turn (s.advance skips { c.frame with tuneClaims := found.claims }
          (max claim found.claim)) :: below)
  | pass {c : Chapter} {below : List Chapter} {claim : Nat} (skips : Plugin → Bool) :
      ¬c.frame.isDone = true → c.frame.phase = .players claim →
      Tells s (c :: below) [] (c.turn (s.advance skips c.frame claim) :: below)

/-- The chapters of a stack that moves lead to from the start of a scan, and all sightings that were
    offered on the way. -/
inductive Told (s : Scan) (data : Window) (root : TunePath) :
    List Chapter → List Sighting → Prop where
  | start : Told s data root [{ frame := .start data root ∅ 0 s.catalog }] []
  | next {told next : List Chapter} {heard offered : List Sighting} : Told s data root told heard →
      s.Tells told offered next → Told s data root next (heard ++ offered)

variable {s : Scan} {o : Observer σ} {data : Window} {root : TunePath} {told next : List Chapter}
  {heard offered : List Sighting}

/-- Whether a property of chapters is kept by all that steps do: the chapter on top goes on with it,
    and the entries of an archive begin with it. -/
structure Keeps (s : Scan) (I : Chapter → Prop) : Prop where
  inside : ∀ {c : Chapter} {opened : Opened} {entry : Frame}, I c →
    entry ∈ s.children c.frame opened → I (c.inside opened entry)
  unpack : ∀ {c : Chapter} {p : Plugin} {opened : Opened}, I c → c.frame.phase = .archives →
    c.frame.open? s.settings p = some opened → I (c.unpack opened)
  keep : ∀ {c : Chapter}, I c → c.frame.phase = .archives →
    I (c.turn { c.frame with phase := .players 0 })
  play : ∀ {c : Chapter} {p : Plugin} {found : Found} {claim : Nat} {offered : List Sighting}
    (skips : Plugin → Bool), I c → ¬c.frame.isDone = true → c.frame.phase = .players claim →
    c.frame.find? p = some found → offered <+: s.wanted c.frame (s.records c.frame found) →
    I ((c.play found offered).turn (s.advance skips { c.frame with tuneClaims := found.claims }
      (max claim found.claim)))
  pass : ∀ {c : Chapter} {claim : Nat} (skips : Plugin → Bool), I c → ¬c.frame.isDone = true →
    c.frame.phase = .players claim → I (c.turn (s.advance skips c.frame claim))

section

variable {I : Chapter → Prop}

/-- **One step** keeps the property for all chapters of the stack. -/
theorem Keeps.forall_of_tells (hkeeps : s.Keeps I) (hI : ∀ c ∈ told, I c)
    (h : s.Tells told offered next) : ∀ c ∈ next, I c := by
  cases h with
  | leave hdone => exact (List.forall_mem_cons.1 hI).2
  | @unpack c below p opened hdone hphase hopens hp hopen =>
    obtain ⟨hc, hbelow⟩ := List.forall_mem_cons.1 hI
    have hbehind := List.forall_mem_cons.2 ⟨hkeeps.unpack hc hphase hopen, hbelow⟩
    intro c' hc'
    rcases List.mem_append.1 hc' with hc' | hc'
    · obtain ⟨entry, hentry, rfl⟩ := List.mem_map.1 hc'
      exact hkeeps.inside hc hentry
    · exact hbehind c' hc'
  | keep hdone hphase =>
    obtain ⟨hc, hbelow⟩ := List.forall_mem_cons.1 hI
    exact List.forall_mem_cons.2 ⟨hkeeps.keep hc hphase, hbelow⟩
  | play skips hdone hphase hp hfind hoffered =>
    obtain ⟨hc, hbelow⟩ := List.forall_mem_cons.1 hI
    exact List.forall_mem_cons.2 ⟨hkeeps.play skips hc hdone hphase hfind hoffered, hbelow⟩
  | pass skips hdone hphase =>
    obtain ⟨hc, hbelow⟩ := List.forall_mem_cons.1 hI
    exact List.forall_mem_cons.2 ⟨hkeeps.pass skips hc hdone hphase, hbelow⟩

/-- So it holds of all chapters that are told, when it does at the start. -/
theorem Keeps.forall_of_told (hkeeps : s.Keeps I)
    (hstart : I { frame := .start data root ∅ 0 s.catalog }) (h : s.Told data root told heard) :
    ∀ c ∈ told, I c := by
  induction h with
  | start => exact List.forall_mem_singleton.2 hstart
  | next _ htells ih => exact hkeeps.forall_of_tells ih htells

end

end Scan

/-! ### Steps are told -/

/-- All records that were offered up to the end of a step. -/
def Step.heard : Step (σ × List Record) → List Record
  | .on w => w.observer.2
  | .over _ st => st.2

/-- No record is offered while plugins are tried. -/
theorem Observer.heard_firstOf (o : Observer σ) (attempt : Plugin → Option α)
    (plugins : List Plugin) (st : σ × List Record) :
    (o.recording.firstOf attempt plugins st).2.2 = st.2 := by
  induction plugins generalizing st with
  | nil => rfl
  | cons p rest ih =>
    unfold firstOf
    simp only
    split
    · rfl
    · split
      · rfl
      · exact ih _

namespace Scan

variable {s : Scan} {o : Observer σ} {w w' : Walk (σ × List Record)} {told : List Chapter}
  {f : Frame} {below : List Frame}

/-- Of the records that are wanted, the first are offered, up to one that is refused or up to where
    the observer stops. -/
theorem heard_offerEach (f : Frame) {taken taken' : Nat} {records : List Record}
    {st st' : σ × List Record} {refusal : Option String}
    (h : s.offerEach o.recording taken records st = (taken', refusal, st')) :
    ∃ offered, offered <+: s.wanted f records
      ∧ st'.2 = st.2 ++ offered.map Sighting.record := by
  induction records generalizing taken st with
  | nil =>
    cases h
    exact ⟨[], List.prefix_rfl, (List.append_nil _).symm⟩
  | cons r rest ih =>
    unfold offerEach at h
    simp only at h
    split at h
    · cases h
      exact ⟨[], List.nil_prefix, (List.append_nil _).symm⟩
    · split at h
      · rename_i hwant
        rw [wanted_cons_of_wants hwant]
        split at h
        · -- The record was taken, and more may follow.
          rename_i st₁ hoffer
          have hst₁ : st₁.2 = st.2 ++ [r] := congrArg (fun a => a.2.2) hoffer.symm
          obtain ⟨offered, hlead, hheard⟩ := ih h
          refine ⟨⟨f.offset, f.path, r⟩ :: offered, ?_, ?_⟩
          · exact List.cons_prefix_cons.2 ⟨rfl, hlead⟩
          · simp [hheard, hst₁]
        · rename_i reason st₁ hoffer
          have hst₁ : st₁.2 = st.2 ++ [r] := congrArg (fun a => a.2.2) hoffer.symm
          cases h
          refine ⟨[⟨f.offset, f.path, r⟩], ?_, hst₁⟩
          exact List.cons_prefix_cons.2 ⟨rfl, List.nil_prefix⟩
      · rename_i hwant
        rw [wanted_cons_of_not_wants hwant]
        obtain ⟨offered, hlead, hheard⟩ := ih h
        exact ⟨offered, hlead, hheard⟩

theorem tells_archivesStep {c : Chapter} (below : List Chapter) (hdone : ¬c.frame.isDone = true)
    (hphase : c.frame.phase = .archives) (w : Walk (σ × List Record)) :
    ∃ next, s.Tells (c :: below) [] next
      ∧ next.map Chapter.frame
        = (s.archivesStep o.recording w c.frame (below.map Chapter.frame)).stack
      ∧ (s.archivesStep o.recording w c.frame (below.map Chapter.frame)).observer.2
        = w.observer.2 := by
  have hheard := o.heard_firstOf (c.frame.open? s.settings) s.catalog.archives
    w.observer
  unfold archivesStep
  by_cases hopens : s.opensAt c.frame.depth = true
  · rw [if_pos hopens]
    cases hfirst : o.recording.firstOf (c.frame.open? s.settings)
        s.catalog.archives w.observer with
    | mk opened? st =>
      rw [hfirst] at hheard
      cases opened? with
      | none => exact ⟨_, .keep hdone hphase, rfl, hheard⟩
      | some opened =>
        obtain ⟨p, hp, hopen⟩ := Observer.exists_of_firstOf hfirst
        refine ⟨_, .unpack hdone hphase hopens hp hopen, ?_, hheard⟩
        rw [List.map_append, List.map_map]
        exact congrArg (· ++ _) (List.map_id _)
  · rw [if_neg hopens]
    exact ⟨_, .keep hdone hphase, rfl, rfl⟩

theorem tells_playersStep {c : Chapter} {below : List Chapter} (hdone : ¬c.frame.isDone = true)
    {claim : Nat} (hphase : c.frame.phase = .players claim)
    (h : s.playersStep o.recording w c.frame (below.map Chapter.frame) claim = .on w') :
    ∃ offered next, s.Tells (c :: below) offered next ∧ next.map Chapter.frame = w'.stack
      ∧ w'.observer.2 = w.observer.2 ++ offered.map Sighting.record := by
  have hheard := o.heard_firstOf c.frame.find? s.catalog.players w.observer
  unfold playersStep at h
  split at h
  · rename_i st hfirst
    cases h
    rw [hfirst] at hheard
    exact ⟨[], _, .pass _ hdone hphase, rfl, by simpa using hheard⟩
  · rename_i found st hfirst
    rw [hfirst] at hheard
    obtain ⟨p, hp, hfind⟩ := Observer.exists_of_firstOf hfirst
    split at h
    · cases h
    · rename_i taken st' hoffer
      cases h
      obtain ⟨offered, hlead, hoffered⟩ := heard_offerEach c.frame hoffer
      refine ⟨offered, _, .play _ hdone hphase hp hfind hlead, rfl, ?_⟩
      show st'.2 = _
      rw [hoffered, hheard]

/-- Whoever listens, a step of a scan is told, with what it offers. -/
theorem tells_of_step (h : s.step o.recording w = .on w')
    (hstack : told.map Chapter.frame = w.stack) :
    ∃ offered next, s.Tells told offered next ∧ next.map Chapter.frame = w'.stack
      ∧ w'.observer.2 = w.observer.2 ++ offered.map Sighting.record := by
  unfold step at h
  split at h
  · cases h
  · rename_i f below hframes
    rw [hframes] at hstack
    obtain ⟨c, rest, rfl, rfl, rfl⟩ := List.map_eq_cons_iff.1 hstack
    simp only at h
    split at h
    · cases h
    · split at h
      · rename_i hdone
        cases h
        exact ⟨[], rest, .leave hdone, rfl, (List.append_nil _).symm⟩
      · rename_i hdone
        split at h
        · rename_i hphase
          obtain ⟨next, htells, hnext, hheard⟩ := tells_archivesStep (o := o) rest
            hdone hphase { w with observer := (o.recording.poll w.observer).2 }
          cases h
          exact ⟨[], next, htells, hnext, hheard.trans (List.append_nil _).symm⟩
        · rename_i claim hphase
          obtain ⟨offered, next, htells, hnext, hheard⟩ := tells_playersStep hdone hphase h
          exact ⟨offered, next, htells, hnext, hheard⟩

/-- The last step of a scan offers nothing, or it is one that finds tunes of which one is refused. -/
theorem heard_of_over {result : Except ScanError Summary} {st : σ × List Record}
    (h : s.step o.recording w = .over result st) :
    ((∃ summary, result = .ok summary) ∧ st.2 = w.observer.2)
    ∨ ∃ f below p found offered reason, w.stack = f :: below ∧ result = .error (s.refusal f reason)
      ∧ p ∈ s.catalog.players ∧ f.find? p = some found
      ∧ offered <+: s.wanted f (s.records f found)
      ∧ st.2 = w.observer.2 ++ offered.map Sighting.record := by
  unfold step at h
  split at h
  · cases h
    exact .inl ⟨⟨_, rfl⟩, rfl⟩
  · rename_i f below hstack
    simp only at h
    split at h
    · cases h
      exact .inl ⟨⟨_, rfl⟩, rfl⟩
    · split at h
      · cases h
      · split at h
        · cases h
        · rename_i claim hphase
          have hheard := o.heard_firstOf f.find? s.catalog.players (o.recording.poll w.observer).2
          unfold playersStep at h
          split at h
          · cases h
          · rename_i found st₁ hfirst
            rw [hfirst] at hheard
            obtain ⟨p, hp, hfind⟩ := Observer.exists_of_firstOf hfirst
            split at h
            · rename_i taken reason st₂ hoffer
              cases h
              obtain ⟨offered, hlead, hoffered⟩ := heard_offerEach f hoffer
              refine .inr ⟨f, below, p, found, offered, reason, hstack, rfl, hp, hfind, hlead, ?_⟩
              rw [hoffered, hheard]
              rfl
            · cases h

/-! ### Whole scans -/

/-- The points of a scan with someone who listens, told from the start, and the sightings that were
    offered on the way. -/
inductive ToldTo (s : Scan) (o : Observer σ) (data : Window) (root : TunePath) (st : σ) :
    Walk (σ × List Record) → List Chapter → List Sighting → Prop where
  | start : ToldTo s o data root st (.start s.catalog data root (st, []))
      [{ frame := .start data root ∅ 0 s.catalog }] []
  | next {w w' : Walk (σ × List Record)} {told next : List Chapter} {heard offered : List Sighting} :
      ToldTo s o data root st w told heard → s.step o.recording w = .on w' →
      s.Tells told offered next → next.map Chapter.frame = w'.stack →
      w'.observer.2 = w.observer.2 ++ offered.map Sighting.record →
      ToldTo s o data root st w' next (heard ++ offered)

section

variable {data : Window} {root : TunePath} {st : σ} {heard : List Sighting}

theorem ToldTo.toTold (h : s.ToldTo o data root st w told heard) : s.Told data root told heard := by
  induction h with
  | start => exact .start
  | next _ _ htells _ _ ih => exact ih.next htells

theorem ToldTo.map_frame (h : s.ToldTo o data root st w told heard) :
    told.map Chapter.frame = w.stack := by
  cases h with
  | start => rfl
  | next _ _ _ hnext _ => exact hnext

/-- Whether the step of a scan from a point offers a record, and tunes that are found at the offset
    of the frame on top are the ones that it offers. -/
structure Offers (s : Scan) (o : Observer σ) (w : Walk (σ × List Record)) (f : Frame)
    (found : Found) (r : Record) : Prop where
  finds : ∃ p ∈ s.catalog.players, f.find? p = some found
  mem_records : r ∈ s.records f found
  step : ∃ offered, r ∈ offered ∧ (s.step o.recording w).heard = w.observer.2 ++ offered

/-- What holds of all records that steps offer holds of every record that is offered from a told
    point on. -/
theorem forall_mem_run_of_toldTo {P : Record → Prop}
    (hP : ∀ w c below heard found, s.ToldTo o data root st w (c :: below) heard →
      ∀ r, s.Offers o w c.frame found r → P r)
    (htold : s.ToldTo o data root st w told heard) (hw : ∀ r ∈ w.observer.2, P r) :
    ∀ r ∈ (s.run o.recording w).2.2, P r := by
  -- All that a step offers are records of tunes found at the frame on top.
  have hoffers : ∀ {w c below heard p found offered},
      s.ToldTo o data root st w (c :: below) heard → p ∈ s.catalog.players →
      c.frame.find? p = some found → offered <+: s.wanted c.frame (s.records c.frame found) →
      (s.step o.recording w).heard = w.observer.2 ++ offered.map Sighting.record →
      ∀ r ∈ offered.map Sighting.record, P r := by
    intro w c below heard p found offered htold hp hfind hlead hheard r hr
    refine hP w c below heard found htold r ⟨⟨p, hp, hfind⟩, ?_, _, hr, hheard⟩
    obtain ⟨e, he, rfl⟩ := List.mem_map.1 hr
    obtain ⟨r', hr', rfl⟩ := List.mem_map.1 (hlead.subset he)
    exact (List.mem_filter.1 hr').1
  -- Induction on the steps of the run, which are told.
  induction w using Scan.run.induct s o.recording generalizing told heard with
  | case1 w result st hstep =>
    have hstack := htold.map_frame
    rw [run_over hstep]
    rcases heard_of_over hstep with ⟨-, hheard⟩ |
      ⟨f, below, p, found, offered, reason, hframes, -, hp, hfind, hlead, hheard⟩
    · simpa [hheard] using hw
    · rw [hframes] at hstack
      obtain ⟨c, rest, rfl, rfl, -⟩ := List.map_eq_cons_iff.1 hstack
      intro r hr
      rw [hheard] at hr
      rcases List.mem_append.1 hr with hr | hr
      · exact hw r hr
      · exact hoffers htold hp hfind hlead (by rw [hstep]; exact hheard) r hr
  | case2 w w' hstep ih =>
    obtain ⟨offered, next, htells, hnext, hheard⟩ := tells_of_step hstep htold.map_frame
    rw [run_on hstep]
    refine ih (htold.next hstep htells hnext hheard) fun r hr => ?_
    rw [hheard] at hr
    rcases List.mem_append.1 hr with hr | hr
    · exact hw r hr
    · cases htells with
      | play skips hdone hphase hp hfind hlead =>
        exact hoffers htold hp hfind hlead (by rw [hstep]; exact hheard) r hr
      | _ => cases hr

end

/-- **Where records come from.** Whoever listens to a scan is offered tunes that are found at the
    told points of it, and nothing else. -/
theorem forall_mem_run {P : Record → Prop} (s : Scan) (o : Observer σ) (data : Window)
    (root : TunePath) (st : σ)
    (hP : ∀ w c below heard found, s.ToldTo o data root st w (c :: below) heard →
      ∀ r, s.Offers o w c.frame found r → P r) :
    ∀ r ∈ (s.run o.recording (.start s.catalog data root (st, []))).2.2, P r :=
  forall_mem_run_of_toldTo hP .start (List.forall_mem_nil _)

end Scan

end Chiptune
