import Chiptune.Proofs.Histories

namespace Chiptune

/-!
# Scans that end early

An observer can end a scan in two ways: it stops, or it refuses a record. Up to there it takes what
those take who do neither.

* `Detector.detect_limit` — a collector stops at its limit;
* `Observer.Takes` — the states of an observer that has refused nothing so far;
* `Observer.Mirrors` — an observer that does as one who takes everything, up to one record;
* `Scan.run_of_mirrors` — a scan goes the way of that other one up to the refusal;
* `Detector.detect_refused` — what comes of an observer that refuses one record.
-/

variable {σ τ α : Type}

/-! ### Limits -/

/-- A collector with a list of what it is offered is the listener with its limit, for as long as the
    list is what it collected. -/
theorem Listener.maps_collector_recording (limit : Option Nat) :
    Observer.Maps (fun heard => ((⟨heard.toArray, limit⟩ : Collector), heard))
      (upTo limit).observer Collector.observer.recording where
  skips _ := rfl
  poll heard := by
    have hpoll := (maps_collector limit).poll heard
    rw [Observer.poll_recording, hpoll]
    rfl
  log _ _ := rfl
  offer record heard := by
    have hoffer := (maps_collector limit).offer record heard
    rw [Observer.offer_recording, hoffer]
    rfl

/-- **Limits.** A collector with a limit is offered, and collects, the first of the records that one
    without is offered, as many as the limit says. The scan is cancelled when there are that many,
    be it only just. -/
theorem Detector.detect_limit (d : Detector) (location : String) (data : Window) (n : Nat) :
    let all := d.reported location data
    ∃ summary : Summary,
      d.detect location data Collector.observer { limit := some n }
        = (.ok summary, ⟨(all.take n).toArray, some n⟩)
      ∧ (d.detect location data Collector.observer.recording ({ limit := some n }, [])).2.2
        = all.take n
      ∧ summary.modules = min n all.length
      ∧ (summary.cancelled = true ↔ n ≤ all.length) := by
  intro all
  let s := d.scan (.parse location)
  let root := TunePath.parse d.settings.pathSeparator (Location.parse location).subpath
  obtain ⟨summary, hrun, hcancelled, hmodules, -⟩ := s.run_start_collector data root (some n)
  have hall : (s.course (fun _ => false) (.start data root ∅ 0 s.catalog)).records = all :=
    (d.reported_eq_course location data).symm
  simp only [Option.elim_some, Option.any_some, hall] at hrun hcancelled hmodules
  refine ⟨summary, hrun, ?_, by rw [hmodules, List.length_take], by simp [hcancelled]⟩
  -- The list is what was collected.
  have hlist := s.run_map (Listener.maps_collector_recording (some n)) (.start s.catalog data root [])
  have hcollected := s.run_map (Listener.maps_collector (some n)) (.start s.catalog data root [])
  have hsame : (⟨_, some n⟩ : Collector) = ⟨(all.take n).toArray, some n⟩ :=
    (congrArg Prod.snd hcollected).symm.trans (congrArg Prod.snd hrun)
  have harrays := congrArg (fun c => c.records.toList) hsame
  exact (congrArg (fun r => r.2.2) hlist).trans harrays

/-! ### Observers that have refused nothing so far -/

namespace Observer

/-- The states that an observer can come to while it takes records, with the records that it
    took. -/
inductive Takes (o : Observer σ) (start : σ) : σ → List Record → Prop where
  | start : Takes o start start []
  | poll {st : σ} {taken : List Record} : Takes o start st taken →
      Takes o start (o.poll st).2 taken
  | log {st : σ} {taken : List Record} (message : String) : Takes o start st taken →
      Takes o start (o.log message st) taken
  | offer {st st' : σ} {taken : List Record} {record : Record} : Takes o start st taken →
      o.offer record st = (none, st') → Takes o start st' (taken ++ [record])

/-- Whether an observer does not stop while it takes records. -/
def Stays (o : Observer σ) (start : σ) : Prop :=
  ∀ st taken, o.Takes start st taken → (o.poll st).1 = false

/-- Whether an observer never stops, and refuses the record behind the first `n` that it takes and no
    other. Without a number it takes them all. -/
structure RefusesOnly (o : Observer σ) (start : σ) (n : Option Nat) : Prop where
  stays : o.Stays start
  takes_iff : ∀ st taken record, o.Takes start st taken →
    ((o.offer record st).1 = none ↔ n ≠ some taken.length)

/-- The states that two observers can come to side by side, while they are asked and told the same
    and take the same records. -/
inductive Abreast (o : Observer σ) (o' : Observer τ) (start : σ) (start' : τ) :
    σ → τ → List Record → Prop where
  | start : Abreast o o' start start' start start' []
  | poll {st : σ} {st' : τ} {taken : List Record} : Abreast o o' start start' st st' taken →
      Abreast o o' start start' (o.poll st).2 (o'.poll st').2 taken
  | log {st : σ} {st' : τ} {taken : List Record} (message : String) :
      Abreast o o' start start' st st' taken →
      Abreast o o' start start' (o.log message st) (o'.log message st') taken
  | offer {st next : σ} {st' next' : τ} {taken : List Record} {record : Record} :
      Abreast o o' start start' st st' taken → o.offer record st = (none, next) →
      o'.offer record st' = (none, next') →
      Abreast o o' start start' next next' (taken ++ [record])

/-- Whether an observer does as a calm one does, who takes everything: it skips the same plugins
    whenever they have heard the same. Behind the first `n` records it refuses one. -/
structure Mirrors (o : Observer σ) (start : σ) (n : Option Nat) (calm : Observer τ) (calmly : τ) :
    Prop where
  takes : calm.RefusesOnly calmly none
  refuses : o.RefusesOnly start n
  skips : ∀ st st' taken, Abreast o calm start calmly st st' taken → o.skips st = calm.skips st'

variable {o : Observer σ} {calm : Observer τ} {start st : σ} {calmly st' : τ} {n : Option Nat}
  {taken heard : List Record}

theorem Abreast.left (h : Abreast o calm start calmly st st' taken) : o.Takes start st taken := by
  induction h with
  | start => exact .start
  | poll _ ih => exact ih.poll
  | log message _ ih => exact ih.log message
  | offer _ hoffer _ ih => exact ih.offer hoffer

theorem Abreast.right (h : Abreast o calm start calmly st st' taken) :
    calm.Takes calmly st' taken := by
  induction h with
  | start => exact .start
  | poll _ ih => exact ih.poll
  | log message _ ih => exact ih.log message
  | offer _ _ hoffer ih => exact ih.offer hoffer

/-- An observer is beside itself in the same state. -/
theorem Abreast.eq {st' : σ} (h : Abreast o o start start st st' taken) : st = st' := by
  induction h with
  | start => rfl
  | poll _ ih => rw [ih]
  | log _ _ ih => rw [ih]
  | offer _ hoffer hoffer' ih =>
    rw [ih, hoffer'] at hoffer
    exact (congrArg Prod.snd hoffer).symm

theorem Takes.abreast (h : o.Takes start st taken) : Abreast o o start start st st taken := by
  induction h with
  | start => exact .start
  | poll _ ih => exact ih.poll
  | log message _ ih => exact ih.log message
  | offer _ hoffer ih => exact ih.offer hoffer hoffer

/-- One who takes everything does as it does itself. -/
theorem RefusesOnly.mirrors (h : o.RefusesOnly start none) : o.Mirrors start none o start where
  takes := h
  refuses := h
  skips _ _ _ habreast := congrArg o.skips habreast.eq

/-- An observer that refuses a record takes those before it. -/
theorem RefusesOnly.length_le {n : Nat} (h : o.RefusesOnly start (some n))
    (ht : o.Takes start st taken) : taken.length ≤ n := by
  induction ht with
  | start => exact Nat.zero_le n
  | poll _ ih => exact ih
  | log _ _ ih => exact ih
  | @offer st st' taken record htaken hoffer ih =>
    have hne := (h.takes_iff st taken record htaken).1 (congrArg Prod.fst hoffer)
    have hlength : n ≠ taken.length := fun heq => hne (congrArg some heq)
    rw [List.length_append, List.length_singleton]
    omega

/-- What it refuses stands behind as many records as it is to take. -/
theorem RefusesOnly.eq_length (h : o.RefusesOnly start n) (ht : o.Takes start st taken)
    {record : Record} {reason : String} {next : σ}
    (hoffer : o.offer record st = (some reason, next)) : n = some taken.length := by
  by_contra hne
  have hnone := (h.takes_iff st taken record ht).2 hne
  rw [hoffer] at hnone
  cases hnone

/-- Who takes everything takes any record. -/
theorem RefusesOnly.offer_eq (h : o.RefusesOnly start none) (ht : o.Takes start st taken)
    (record : Record) : o.offer record st = (none, (o.offer record st).2) :=
  Prod.ext ((h.takes_iff st taken record ht).2 nofun) rfl

/-- Both observers get the first result of the plugins that they do not skip. -/
theorem Mirrors.firstOf (h : o.Mirrors start n calm calmly) (attempt : Plugin → Option α)
    (plugins : List Plugin) (habreast : Abreast o calm start calmly st st' heard) :
    ∃ result next next', o.recording.firstOf attempt plugins (st, heard) = (result, next, heard)
      ∧ calm.recording.firstOf attempt plugins (st', heard) = (result, next', heard)
      ∧ Abreast o calm start calmly next next' heard := by
  induction plugins generalizing st st' with
  | nil => exact ⟨none, st, st', rfl, rfl, habreast⟩
  | cons p rest ih =>
    have hpoll := h.refuses.stays _ _ habreast.left
    have hpoll' := h.takes.stays _ _ habreast.right
    have hskips := h.skips _ _ _ habreast.poll
    unfold Observer.firstOf
    simp only [poll_recording, skips_recording, hpoll, hpoll', hskips, Bool.false_eq_true, if_false]
    cases if calm.skips (calm.poll st').2 p then none else attempt p with
    | some result => exact ⟨some result, _, _, rfl, rfl, habreast.poll⟩
    | none => exact ih habreast.poll

end Observer

/-! ### Refusals -/

/-- A refusal of one of some sightings that are offered to an observer when it has taken `heard`: the
    observer takes those before it, and then leaves a state behind with its reason. -/
structure Refusal (o : Observer σ) (start : σ) (heard : List Record) (offers : List Sighting) where
  before : List Sighting
  sighting : Sighting
  after : List Sighting
  split : offers = before ++ sighting :: after
  reason : String
  state : σ
  refuses : ∃ st, o.Takes start st (heard ++ before.map Sighting.record)
    ∧ o.offer sighting.record st = (some reason, state)

namespace Refusal

variable {o : Observer σ} {start : σ} {heard : List Record} {offers : List Sighting}

/-- The state that is left behind, with all records that were offered. -/
def left (r : Refusal o start heard offers) : σ × List Record :=
  (r.state, heard ++ r.before.map Sighting.record ++ [r.sighting.record])

/-- Those up to the refusal come first. -/
theorem isPrefix (r : Refusal o start heard offers) : r.before ++ [r.sighting] <+: offers :=
  ⟨r.after, (List.append_assoc ..).trans r.split.symm⟩

/-- The refusal behind a sighting that is taken. -/
def prepend (e : Sighting) (r : Refusal o start (heard ++ [e.record]) offers) :
    Refusal o start heard (e :: offers) :=
  { r with
    before := e :: r.before
    split := by rw [List.cons_append, ← r.split]
    refuses := by
      rw [List.map_cons, ← List.singleton_append, ← List.append_assoc]
      exact r.refuses }

theorem left_prepend (e : Sighting) (r : Refusal o start (heard ++ [e.record]) offers) :
    (r.prepend e).left = r.left := by
  simp [left, prepend]

end Refusal

namespace Scan

variable {o : Observer σ} {calm : Observer τ} {start st : σ} {calmly st' : τ} {n : Option Nat}
  {s : Scan} {heard : List Record} {f : Frame} {below : List Frame}

/-- Who takes everything is offered all records that are wanted. -/
theorem offerEach_of_takes (hcalm : calm.RefusesOnly calmly none) (f : Frame) (taken : Nat)
    (records : List Record) (ht : calm.Takes calmly st' heard) :
    ∃ next', s.offerEach calm.recording taken records (st', heard)
        = (taken + (s.wanted f records).length, none, next',
            heard ++ (s.wanted f records).map Sighting.record)
      ∧ calm.Takes calmly next' (heard ++ (s.wanted f records).map Sighting.record) := by
  induction records generalizing taken st' heard with
  | nil =>
    refine ⟨st', by simp [offerEach], ?_⟩
    simpa using ht
  | cons r rest ih =>
    have hpoll := hcalm.stays _ _ ht
    have hoffer := hcalm.offer_eq ht.poll r
    unfold offerEach
    simp only [Observer.poll_recording, Observer.offer_recording, hpoll, Bool.false_eq_true,
      if_false]
    by_cases hwant : s.wants r.path = true
    · rw [if_pos hwant, wanted_cons_of_wants hwant, hoffer]
      obtain ⟨next', hrest, hnext⟩ := ih (taken + 1) (ht.poll.offer hoffer)
      refine ⟨next', ?_, by simpa using hnext⟩
      simp [hrest, Nat.add_assoc, Nat.add_comm 1]
    · rw [if_neg hwant, wanted_cons_of_not_wants hwant]
      exact ih taken ht.poll

/-- Both observers take all records that are wanted, or the one takes them up to one that it
    refuses. -/
theorem offerEach_of_mirrors (h : o.Mirrors start n calm calmly) (f : Frame) (taken : Nat)
    (records : List Record) (habreast : o.Abreast calm start calmly st st' heard) :
    (∃ next next', s.offerEach o.recording taken records (st, heard)
          = (taken + (s.wanted f records).length, none, next,
              heard ++ (s.wanted f records).map Sighting.record)
        ∧ s.offerEach calm.recording taken records (st', heard)
          = (taken + (s.wanted f records).length, none, next',
              heard ++ (s.wanted f records).map Sighting.record)
        ∧ o.Abreast calm start calmly next next'
          (heard ++ (s.wanted f records).map Sighting.record))
    ∨ ∃ taken', ∃ r : Refusal o start heard (s.wanted f records),
      s.offerEach o.recording taken records (st, heard) = (taken', some r.reason, r.left) := by
  induction records generalizing taken st st' heard with
  | nil =>
    refine .inl ⟨st, st', by simp [offerEach], by simp [offerEach], ?_⟩
    simpa using habreast
  | cons r rest ih =>
    have hpoll := h.refuses.stays _ _ habreast.left
    have hpoll' := h.takes.stays _ _ habreast.right
    have hoffer' := h.takes.offer_eq habreast.poll.right r
    unfold offerEach
    simp only [Observer.poll_recording, Observer.offer_recording, hpoll, hpoll',
      Bool.false_eq_true, if_false]
    by_cases hwant : s.wants r.path = true
    · rw [if_pos hwant, if_pos hwant, wanted_cons_of_wants hwant, hoffer']
      rcases hoffer : o.offer r (o.poll st).2 with ⟨_ | reason, next⟩
      · -- The record is taken, and the rest is offered behind it.
        rcases ih (taken + 1) (habreast.poll.offer hoffer hoffer') with
          ⟨next, next', hrest, hrest', hnext⟩ | ⟨taken', refusal, hrest⟩
        · refine .inl ⟨next, next', ?_, ?_, by simpa using hnext⟩
          · simp [hrest, Nat.add_assoc, Nat.add_comm 1]
          · simp [hrest', Nat.add_assoc, Nat.add_comm 1]
        · refine .inr ⟨taken', refusal.prepend ⟨f.offset, f.path, r⟩, ?_⟩
          rw [Refusal.left_prepend]
          exact hrest
      · refine .inr ⟨taken, ⟨[], ⟨f.offset, f.path, r⟩, s.wanted f rest, rfl, reason, next, ?_⟩, ?_⟩
        · exact ⟨_, by simpa using habreast.poll.left, hoffer⟩
        · simp [Refusal.left]
    · rw [if_neg hwant, if_neg hwant, wanted_cons_of_not_wants hwant]
      exact ih taken habreast.poll

/-! ### Two scans side by side -/

/-- Whether two scans are at the same point, and their observers side by side. -/
structure SamePoint (o : Observer σ) (calm : Observer τ) (start : σ) (calmly : τ)
    (w : Walk (σ × List Record)) (v : Walk (τ × List Record)) : Prop where
  stack : v.stack = w.stack
  modules : v.modules = w.modules
  frames : v.frames = w.frames
  heard : v.observer.2 = w.observer.2
  observers : o.Abreast calm start calmly w.observer.1 v.observer.1 w.observer.2

variable {w : Walk (σ × List Record)} {v : Walk (τ × List Record)}

theorem samePoint_archivesStep (h : o.Mirrors start n calm calmly)
    (hpoint : SamePoint o calm start calmly w v) (f : Frame) (below : List Frame) :
    SamePoint o calm start calmly (s.archivesStep o.recording w f below)
      (s.archivesStep calm.recording v f below) := by
  obtain ⟨stack, modules, frames, st, heard⟩ := w
  obtain ⟨stack', modules', frames', st', heard'⟩ := v
  obtain ⟨rfl, rfl, rfl, rfl, habreast⟩ := hpoint
  obtain ⟨opened?, next, next', hfirst, hfirst', hnext⟩ : ∃ opened? next next',
      (if s.opensAt f.depth then o.recording.firstOf (f.open? s.settings) s.catalog.archives
          (st, heard') else (none, st, heard')) = (opened?, next, heard')
        ∧ (if s.opensAt f.depth then calm.recording.firstOf (f.open? s.settings) s.catalog.archives
          (st', heard') else (none, st', heard')) = (opened?, next', heard')
        ∧ o.Abreast calm start calmly next next' heard' := by
    by_cases hopens : s.opensAt f.depth = true
    · rw [if_pos hopens, if_pos hopens]
      exact h.firstOf _ _ habreast
    · rw [if_neg hopens, if_neg hopens]
      exact ⟨none, st, st', rfl, rfl, habreast⟩
  simp only [archivesStep, hfirst, hfirst']
  cases opened? with
  | none => exact ⟨rfl, rfl, rfl, rfl, hnext⟩
  | some opened => exact ⟨rfl, rfl, rfl, rfl, hnext.log _⟩

/-- Whether the one observer refuses a tune that is found at the offset of a frame, while the other
    takes all of them. -/
def Parts (s : Scan) (o : Observer σ) (calm : Observer τ) (start : σ) (calmly : τ) (f : Frame)
    (heard : List Record) (step : Step (σ × List Record)) (step' : Step (τ × List Record)) : Prop :=
  ∃ p found, p ∈ s.catalog.players ∧ f.find? p = some found
    ∧ ∃ r : Refusal o start heard (s.wanted f (s.records f found)),
      step = .over (.error (s.refusal f r.reason)) r.left
      ∧ ∃ v', step' = .on v' ∧ calm.Takes calmly v'.observer.1 v'.observer.2
        ∧ v'.observer.2 = heard ++ (s.wanted f (s.records f found)).map Sighting.record

theorem playersStep_of_mirrors (h : o.Mirrors start n calm calmly)
    (hpoint : SamePoint o calm start calmly w v) (f : Frame) (below : List Frame) (claim : Nat) :
    (∃ w' v', s.playersStep o.recording w f below claim = .on w'
        ∧ s.playersStep calm.recording v f below claim = .on v'
        ∧ SamePoint o calm start calmly w' v')
    ∨ s.Parts o calm start calmly f w.observer.2 (s.playersStep o.recording w f below claim)
        (s.playersStep calm.recording v f below claim) := by
  obtain ⟨stack, modules, frames, st, heard⟩ := w
  obtain ⟨stack', modules', frames', st', heard'⟩ := v
  obtain ⟨rfl, rfl, rfl, rfl, habreast⟩ := hpoint
  obtain ⟨found?, next, next', hfirst, hfirst', hnext⟩ :=
    h.firstOf f.find? s.catalog.players habreast
  simp only [playersStep, hfirst, hfirst', Observer.skips_recording]
  cases found? with
  | none =>
    refine .inl ⟨_, _, rfl, rfl, ?_, rfl, rfl, rfl, hnext⟩
    rw [h.skips _ _ _ hnext]
  | some found =>
    rcases s.offerEach_of_mirrors h f 0 (s.records f found) hnext with
      ⟨last, last', hoffer, hoffer', hlast⟩ | ⟨taken, r, hoffer⟩
    · simp only [hoffer, hoffer']
      refine .inl ⟨_, _, rfl, rfl, ?_, rfl, rfl, rfl, hlast⟩
      rw [h.skips _ _ _ hlast]
    · obtain ⟨last', hoffer', hlast⟩ :=
        s.offerEach_of_takes h.takes f 0 (s.records f found) hnext.right
      obtain ⟨p, hp, hfind⟩ := Observer.exists_of_firstOf hfirst
      simp only [hoffer, hoffer']
      exact .inr ⟨p, found, hp, hfind, r, rfl, _, rfl, hlast, rfl⟩

theorem step_of_stack_nil (o : Observer σ) {w : Walk σ} (h : w.stack = []) :
    s.step o w = .over (.ok ⟨w.modules, w.frames, false⟩) w.observer := by
  unfold step
  rw [h]

/-- Both scans go on, or nothing is left, or they part. -/
theorem step_of_mirrors (h : o.Mirrors start n calm calmly)
    (hpoint : SamePoint o calm start calmly w v) :
    (∃ w' v', s.step o.recording w = .on w' ∧ s.step calm.recording v = .on v'
        ∧ SamePoint o calm start calmly w' v')
    ∨ w.stack = []
    ∨ ∃ f below, w.stack = f :: below
      ∧ s.Parts o calm start calmly f w.observer.2 (s.step o.recording w)
          (s.step calm.recording v) := by
  have hpoll := h.refuses.stays _ _ hpoint.observers.left
  have hpoll' := h.takes.stays _ _ hpoint.observers.right
  cases hstack : w.stack with
  | nil => exact .inr (.inl rfl)
  | cons f below =>
    have hstack' : v.stack = f :: below := hpoint.stack.trans hstack
    -- Behind the poll both are still at the same point.
    have hpolled : SamePoint o calm start calmly
        { w with observer := o.recording.poll w.observer |>.2 }
        { v with observer := calm.recording.poll v.observer |>.2 } :=
      ⟨hpoint.stack, hpoint.modules, hpoint.frames, hpoint.heard, hpoint.observers.poll⟩
    simp only [step, hstack, hstack', Observer.poll_recording, hpoll, hpoll', Bool.false_eq_true,
      if_false]
    by_cases hdone : f.isDone = true
    · rw [if_pos hdone, if_pos hdone]
      exact .inl ⟨_, _, rfl, rfl, rfl, hpoint.modules, hpoint.frames, hpoint.heard,
        hpoint.observers.poll.log _⟩
    · rw [if_neg hdone, if_neg hdone]
      cases f.phase with
      | archives => exact .inl ⟨_, _, rfl, rfl, samePoint_archivesStep h hpolled f below⟩
      | players claim =>
        rcases playersStep_of_mirrors h hpolled f below claim with hon | hparts
        · exact .inl hon
        · exact .inr (.inr ⟨f, below, rfl, hparts⟩)

/-- Who takes everything goes on until nothing is left. -/
theorem step_of_takes (hcalm : calm.RefusesOnly calmly none)
    (ht : calm.Takes calmly v.observer.1 v.observer.2) :
    v.stack = [] ∨ ∃ v', s.step calm.recording v = .on v'
      ∧ calm.Takes calmly v'.observer.1 v'.observer.2 := by
  rcases s.step_of_mirrors hcalm.mirrors ⟨rfl, rfl, rfl, rfl, ht.abreast⟩ with
    ⟨v', _, hstep, -, hpoint⟩ | hstack | ⟨f, below, -, hparts⟩
  · exact .inr ⟨v', hstep, hpoint.observers.left⟩
  · exact .inl hstack
  · obtain ⟨_, _, -, -, _, -, v', hstep, ht', -⟩ := hparts
    exact .inr ⟨v', hstep, ht'⟩

/-! ### Whole scans -/

section

variable {data : Window} {root : TunePath} {told : List Chapter} {sighted : List Sighting}

/-- The sightings of an offset are known by their records. -/
theorem wanted_eq_map (s : Scan) (f : Frame) (records : List Record) :
    s.wanted f records
      = ((s.wanted f records).map Sighting.record).map (⟨f.offset, f.path, ·⟩) := by
  simp [wanted, Function.comp_def]

theorem eq_map_of_tells {c : Chapter} {below next : List Chapter} {offered : List Sighting}
    (h : s.Tells (c :: below) offered next) :
    offered = (offered.map Sighting.record).map (⟨c.frame.offset, c.frame.path, ·⟩) := by
  cases h with
  | @play _ _ p found claim _ skips hdone hphase hp hfind hlead =>
    obtain ⟨later, hwanted⟩ := hlead
    have hmap := s.wanted_eq_map c.frame (s.records c.frame found)
    rw [← hwanted, List.map_append, List.map_append] at hmap
    exact List.append_inj_left hmap (by simp)
  | _ => rfl

theorem ToldTo.heard_eq (h : s.ToldTo o data root start w told sighted) :
    w.observer.2 = sighted.map Sighting.record := by
  induction h with
  | start => rfl
  | next _ _ _ _ hheard ih => rw [hheard, ih, List.map_append]

/-- Who takes everything comes to the end of a scan. -/
theorem run_of_takes (hcalm : calm.RefusesOnly calmly none)
    (htold : s.ToldTo calm data root calmly v told sighted)
    (ht : calm.Takes calmly v.observer.1 v.observer.2) :
    ∃ v' later, s.ToldTo calm data root calmly v' [] (sighted ++ later)
      ∧ s.run calm.recording v = (.ok ⟨v'.modules, v'.frames, false⟩, v'.observer) := by
  induction v using Scan.run.induct s calm.recording generalizing told sighted with
  | case1 v result st hstep =>
    rcases s.step_of_takes hcalm ht with hstack | ⟨v', hon, -⟩
    · obtain rfl : told = [] := List.map_eq_nil_iff.1 (htold.map_frame.trans hstack)
      refine ⟨v, [], (List.append_nil sighted).symm ▸ htold, ?_⟩
      exact run_over (step_of_stack_nil calm.recording hstack)
    · rw [hstep] at hon
      cases hon
  | case2 v v' hstep ih =>
    rcases s.step_of_takes hcalm ht with hstack | ⟨v₁, hon, ht'⟩
    · rw [step_of_stack_nil calm.recording hstack] at hstep
      cases hstep
    · rw [hstep] at hon
      cases hon
      obtain ⟨offered, next, htells, hnext, hheard⟩ := tells_of_step hstep htold.map_frame
      obtain ⟨v'', later, hend, hrun⟩ := ih (htold.next hstep htells hnext hheard) ht'
      refine ⟨v'', offered ++ later, ?_, ?_⟩
      · rwa [← List.append_assoc]
      · rw [run_on hstep, hrun]

/-- The end of a scan at a point that it comes to: of the tunes that are found there some are taken,
    and then `e` is refused. The sightings that are taken up to there are `before`. -/
structure EndsAt (s : Scan) (o : Observer σ) (data : Window) (root : TunePath) (start : σ)
    (before : List Sighting) (e : Sighting)
    (ending : Except ScanError Summary × σ × List Record) where
  walk : Walk (σ × List Record)
  chapter : Chapter
  below : List Chapter
  heard : List Sighting
  offered : List Sighting
  plugin : Plugin
  found : Found
  reason : String
  state : σ
  told : s.ToldTo o data root start walk (chapter :: below) heard
  before_eq : before = heard ++ offered
  mem_players : plugin ∈ s.catalog.players
  find?_eq : chapter.frame.find? plugin = some found
  isPrefix : offered ++ [e] <+: s.wanted chapter.frame (s.records chapter.frame found)
  takes : o.Takes start state (before.map Sighting.record)
  refuses : o.offer e.record state = (some reason, ending.2.1)
  error_eq : ending.1 = .error (.refused chapter.frame.offset
    (s.location.withSubpath chapter.frame.path.render).full reason)
  heard_eq : ending.2.2 = (before ++ [e]).map Sighting.record

/-- **Up to a refusal.** An observer that does as a calm one does, but for one refusal, goes the same
    way: to the same end, or up to what it refuses. -/
theorem run_of_mirrors (h : o.Mirrors start n calm calmly)
    (hpoint : SamePoint o calm start calmly w v)
    (hw : s.ToldTo o data root start w told sighted)
    (hv : s.ToldTo calm data root calmly v told sighted) :
    ∃ v' later, s.ToldTo calm data root calmly v' [] (sighted ++ later)
      ∧ s.run calm.recording v = (.ok ⟨v'.modules, v'.frames, false⟩, v'.observer)
      ∧ ((∃ st, s.run o.recording w
            = (.ok ⟨v'.modules, v'.frames, false⟩, st, v'.observer.2)
          ∧ o.Takes start st v'.observer.2)
        ∨ ∃ before e, Nonempty (s.EndsAt o data root start before e (s.run o.recording w))
          ∧ before ++ [e] <+: sighted ++ later) := by
  -- Induction on the steps of the one run. The other takes the same steps until they part.
  induction w using Scan.run.induct s o.recording generalizing v told sighted with
  | case1 w result st hstep =>
    rcases s.step_of_mirrors h hpoint with ⟨w', v', hon, -⟩ | hstack | ⟨f, below, hstack, hparts⟩
    · rw [hstep] at hon
      cases hon
    · obtain rfl : told = [] := List.map_eq_nil_iff.1 (hw.map_frame.trans hstack)
      refine ⟨v, [], (List.append_nil sighted).symm ▸ hv, ?_, .inl ⟨w.observer.1, ?_, ?_⟩⟩
      · exact run_over (step_of_stack_nil calm.recording (hpoint.stack.trans hstack))
      · rw [run_over (step_of_stack_nil o.recording hstack), hpoint.modules, hpoint.frames,
          hpoint.heard]
      · rw [hpoint.heard]
        exact hpoint.observers.left
    · obtain ⟨p, found, hp, hfind, r, hover, v', hon, ht, hheard⟩ := hparts
      obtain ⟨c, rest, rfl, rfl, -⟩ := List.map_eq_cons_iff.1 (hw.map_frame.trans hstack)
      -- The calm one takes all tunes of the offset, and then the rest.
      obtain ⟨offered, next, htells, hnext, hoffered⟩ := tells_of_step hon hv.map_frame
      have hwanted : offered = s.wanted c.frame (s.records c.frame found) := by
        rw [hpoint.heard, hheard] at hoffered
        rw [eq_map_of_tells htells, ← List.append_cancel_left hoffered, ← s.wanted_eq_map]
      obtain ⟨v'', later, hend, hrun⟩ :=
        run_of_takes h.takes (hv.next hon htells hnext hoffered) ht
      obtain ⟨st, htakes, hoffer⟩ := r.refuses
      have hsighted : w.observer.2 ++ r.before.map Sighting.record
          = (sighted ++ r.before).map Sighting.record := by
        rw [List.map_append]
        exact congrArg (· ++ _) hw.heard_eq
      rw [hsighted] at htakes
      have hleft : r.left.2 = (sighted ++ r.before ++ [r.sighting]).map Sighting.record := by
        rw [List.map_append, ← hsighted]
        rfl
      refine ⟨v'', offered ++ later, ?_, ?_, .inr ⟨sighted ++ r.before, r.sighting, ?_, ?_⟩⟩
      · rwa [← List.append_assoc]
      · rw [run_on hon, hrun]
      · rw [run_over hover]
        exact ⟨w, c, rest, sighted, r.before, p, found, r.reason, st, hw, rfl, hp, hfind,
          r.isPrefix, htakes, hoffer, rfl, hleft⟩
      · rw [List.append_assoc, hwanted]
        exact (List.prefix_append_right_inj sighted).2
          (r.isPrefix.trans (List.prefix_append _ later))
  | case2 w w' hstep ih =>
    rcases s.step_of_mirrors h hpoint with ⟨w₁, v', hon, hon', hpoint'⟩ | hstack |
      ⟨f, below, hstack, hparts⟩
    · rw [hstep] at hon
      cases hon
      obtain ⟨offered, next, htells, hnext, hheard⟩ := tells_of_step hstep hw.map_frame
      have hnext' : next.map Chapter.frame = v'.stack := hnext.trans hpoint'.stack.symm
      have hheard' : v'.observer.2 = v.observer.2 ++ offered.map Sighting.record := by
        rw [hpoint'.heard, hpoint.heard, hheard]
      obtain ⟨v'', later, hend, hrun', hrun⟩ := ih hpoint'
        (hw.next hstep htells hnext hheard) (hv.next hon' htells hnext' hheard')
      rw [List.append_assoc] at hend
      refine ⟨v'', offered ++ later, hend, ?_, ?_⟩
      · rw [run_on hon', hrun']
      · rw [run_on hstep]
        rwa [List.append_assoc] at hrun
    · rw [step_of_stack_nil o.recording hstack] at hstep
      cases hstep
    · obtain ⟨_, _, -, -, r, hover, -⟩ := hparts
      rw [hstep] at hover
      cases hover

end

end Scan

/-! ### Failures -/

namespace Scan

variable {o : Observer σ} {s : Scan} {w w' : Walk σ} {f : Frame} {below : List Frame}

theorem exists_of_offerEach {taken taken' : Nat} {records : List Record} {st st' : σ}
    {reason : String} (h : s.offerEach o taken records st = (taken', some reason, st')) :
    ∃ r ∈ records, ∃ st, (o.offer r st).1 = some reason := by
  induction records generalizing taken st with
  | nil => cases h
  | cons r rest ih =>
    -- A record is offered, or what was refused is one of the rest.
    have hrest : ∀ {taken st}, s.offerEach o taken rest st = (taken', some reason, st') →
        ∃ r' ∈ r :: rest, ∃ st, (o.offer r' st).1 = some reason := by
      intro taken st h
      obtain ⟨r', hr', hoffer⟩ := ih h
      exact ⟨r', List.mem_cons_of_mem r hr', hoffer⟩
    unfold offerEach at h
    simp only at h
    split at h
    · cases h
    · split at h
      · split at h
        · exact hrest h
        · rename_i hoffer
          cases h
          exact ⟨r, List.mem_cons_self, _, congrArg Prod.fst hoffer⟩
      · exact hrest h

/-- The only step that fails is one at which a tune is refused. -/
theorem refusal_of_step {error : ScanError} {st : σ} (h : s.step o w = .over (.error error) st) :
    ∃ f below p found r reason st, w.stack = f :: below ∧ f.find? p = some found
      ∧ r ∈ s.records f found ∧ (o.offer r st).1 = some reason ∧ error = s.refusal f reason := by
  unfold step at h
  split at h
  · cases h
  · rename_i f below hstack
    simp only at h
    split at h
    · cases h
    · split at h
      · cases h
      · split at h
        · cases h
        · unfold playersStep at h
          split at h
          · cases h
          · rename_i found st₁ hfirst
            obtain ⟨p, -, hfind⟩ := Observer.exists_of_firstOf hfirst
            split at h
            · rename_i taken reason st₂ hoffer
              cases h
              obtain ⟨r, hr, st₃, hrefuses⟩ := exists_of_offerEach hoffer
              exact ⟨f, below, p, found, r, reason, st₃, hstack, hfind, hr, hrefuses, rfl⟩
            · cases h

/-- **Only refusals fail.** When a scan fails, whoever listens, a tune was refused that is found at
    the offset of a frame that the scan came to. What decoders make of the data plays no part. -/
theorem refusal_of_run {data : Window} {root : TunePath} {error : ScanError}
    (hreaches : s.Reaches data root w.stack) (h : (s.run o w).1 = .error error) :
    ∃ f below p found r reason st, s.Reaches data root (f :: below) ∧ f.find? p = some found
      ∧ r ∈ s.records f found ∧ (o.offer r st).1 = some reason ∧ error = s.refusal f reason := by
  induction w using Scan.run.induct s o with
  | case1 w result st hstep =>
    rw [run_over hstep] at h
    cases h
    obtain ⟨f, below, p, found, r, reason, st, hstack, hrest⟩ := refusal_of_step hstep
    exact ⟨f, below, p, found, r, reason, st, hstack ▸ hreaches, hrest⟩
  | case2 w w' hstep ih =>
    rw [run_on hstep] at h
    exact ih (hreaches.tail (moves_of_step hstep)) h

end Scan

/-! ### Observers that refuse one record -/

namespace Observer

/-- The observer that counts the records that it is offered, and refuses one behind `n` others. It
    skips some plugins, which may depend on the count. -/
def counting (n : Option Nat) (reason : String)
    (skips : Nat → Plugin → Bool := fun _ _ => false) : Observer Nat where
  skips := skips
  offer _ count := (if n = some count then some reason else none, count + 1)

variable {n : Option Nat} {reason : String} {skips : Nat → Plugin → Bool}

theorem count_of_takes {count : Nat} {taken : List Record}
    (h : (counting n reason skips).Takes 0 count taken) : count = taken.length := by
  induction h with
  | start => rfl
  | poll _ ih => exact ih
  | log _ _ ih => exact ih
  | offer _ hoffer ih =>
    rw [List.length_append, ← ih]
    exact (congrArg Prod.snd hoffer).symm

theorem refusesOnly_counting (n : Option Nat) (reason : String) (skips : Nat → Plugin → Bool) :
    (counting n reason skips).RefusesOnly 0 n where
  stays _ _ _ := rfl
  takes_iff count taken record h := by
    rw [← count_of_takes h]
    simp [counting]

/-- Observers that count skip alike when their counts decide in the same way. -/
theorem mirrors_counting (n : Option Nat) (reason : String) (skips : Nat → Plugin → Bool) :
    (counting n reason skips).Mirrors 0 n (counting none reason skips) 0 where
  takes := refusesOnly_counting ..
  refuses := refusesOnly_counting ..
  skips count count' taken h := by
    have hcount : count = count' :=
      (count_of_takes h.left).trans (count_of_takes h.right).symm
    rw [hcount]
    rfl

end Observer

namespace Detector

/-- The frames that a scan for a location can come to. -/
def Reaches (d : Detector) (location : String) (data : Window) (frames : List Frame) : Prop :=
  (d.scan (.parse location)).Reaches data
    (.parse d.settings.pathSeparator (Location.parse location).subpath) frames

/-- The list of what an observer is offered changes nothing. -/
theorem detect_recording (d : Detector) (location : String) (data : Window) (o : Observer σ)
    (start : σ) : d.detect location data o start
      = ((d.detect location data o.recording (start, [])).1,
          (d.detect location data o.recording (start, [])).2.1) :=
  (d.scan (.parse location)).run_map o.maps_recording
    (⟨[d.start (.parse location) data], 0, 1, (start, [])⟩ : Walk (σ × List Record))

/-- **Refusals.** An observer that takes everything ends a scan without a failure. One that does as
    it does, and skips the same plugins for as long as it hears the same, but refuses the record
    behind `n` others, is offered the same records up to that one, if there are so many. Then the
    scan fails with its reason, the offset of the tunes in the container where they were found, and
    the location of this container. Otherwise the scan ends with the same records and result. Nothing
    but a refusal makes a scan fail, whoever listens. -/
theorem detect_refused (d : Detector) (location : String) (data : Window) {calm : Observer τ}
    {calmly : τ} {o : Observer σ} {start : σ} {n : Nat}
    (h : o.Mirrors start (some n) calm calmly) :
    let s := d.scan (.parse location)
    let root := TunePath.parse d.settings.pathSeparator (Location.parse location).subpath
    let whole := d.detect location data calm.recording (calmly, [])
    let run := d.detect location data o.recording (start, [])
    ∃ all : List Sighting,
      (∃ v summary, s.ToldTo calm data root calmly v [] all ∧ whole = (.ok summary, v.observer))
      ∧ whole.2.2 = all.map Sighting.record
      ∧ d.detect location data o start = (run.1, run.2.1)
      ∧ (∀ e, all[n]? = some e → run.2.2 = whole.2.2.take (n + 1)
          ∧ Nonempty (s.EndsAt o data root start (all.take n) e run))
      ∧ (all.length ≤ n → run.1 = whole.1 ∧ run.2.2 = whole.2.2)
      ∧ ∀ {ρ : Type} (anyone : Observer ρ) (st : ρ) (error : ScanError),
          (d.detect location data anyone st).1 = .error error →
          ∃ f below p found r reason st', d.Reaches location data (f :: below)
            ∧ f.find? p = some found ∧ r ∈ s.records f found
            ∧ (anyone.offer r st').1 = some reason
            ∧ error = .refused f.offset (s.location.withSubpath f.path.render).full reason := by
  intro s root whole run
  have htold : s.ToldTo o data root start (.start s.catalog data root (start, [])) _ [] := .start
  obtain ⟨v, all, hall, hwhole, hrun⟩ :=
    Scan.run_of_mirrors h ⟨rfl, rfl, rfl, rfl, .start⟩ htold .start
  rw [List.nil_append] at hall
  have hrecords : whole.2.2 = all.map Sighting.record :=
    (congrArg (fun r => r.2.2) hwhole).trans hall.heard_eq
  refine ⟨all, ⟨v, _, hall, hwhole⟩, hrecords, d.detect_recording location data o start, ?_⟩
  have honly : ∀ {ρ : Type} (anyone : Observer ρ) (st : ρ) (error : ScanError),
      (d.detect location data anyone st).1 = .error error →
      ∃ f below p found r reason st', d.Reaches location data (f :: below)
        ∧ f.find? p = some found ∧ r ∈ s.records f found
        ∧ (anyone.offer r st').1 = some reason
        ∧ error = .refused f.offset (s.location.withSubpath f.path.render).full reason :=
    fun anyone st error herror =>
      Scan.refusal_of_run (w := ⟨[d.start (.parse location) data], 0, 1, st⟩) .refl herror
  have hlength : all.length = v.observer.2.length := by
    rw [hall.heard_eq, List.length_map]
  rcases hrun with ⟨st, hrun, ht⟩ | ⟨before, e, ⟨hends⟩, hlead⟩
  · -- The observer takes everything, so there is nothing that it would refuse.
    have hle := h.refuses.length_le ht
    refine ⟨fun e he => ?_, fun _ => ?_, honly⟩
    · have hlt := (List.getElem?_eq_some_iff.1 he).1
      omega
    · exact ⟨(congrArg Prod.fst hrun).trans (congrArg Prod.fst hwhole).symm,
        (congrArg (fun r => r.2.2) hrun).trans (congrArg (fun r => r.2.2) hwhole).symm⟩
  · have hbefore : n = before.length := by
      rw [Option.some.inj (h.refuses.eq_length hends.takes hends.refuses), List.length_map]
    obtain ⟨later, rfl⟩ : ∃ later, before ++ e :: later = all := by
      obtain ⟨later, hlater⟩ := hlead
      exact ⟨later, by simpa using hlater⟩
    subst hbefore
    refine ⟨fun e' he' => ?_, fun hle => ?_, honly⟩
    · obtain rfl : e = e' := by simpa using he'
      rw [List.take_left, hrecords, ← List.map_take]
      refine ⟨hends.heard_eq.trans ?_, ⟨hends⟩⟩
      rw [List.take_append, List.take_of_length_le (Nat.le_succ _)]
      simp
    · rw [List.length_append, List.length_cons] at hle
      omega

/-- A recording behind three other bytes is the one tune of a scan. Refused, it is heard of none the
    less, and the scan fails with its offset in the data. Behind the first record both observers would
    skip a plugin. -/
theorem refused_in_shiftedRecording :
    let d : Detector := ⟨.builtin, {}⟩
    let skips : Nat → Plugin → Bool := fun count p => count != 0 && p.id == "ICE"
    let calm := Observer.counting none "full" skips
    let o := Observer.counting (some 0) "full" skips
    let run := d.detect "tunes" shiftedRecording o.recording (0, [])
    o.Mirrors 0 (some 0) calm 0
      ∧ (d.detect "tunes" shiftedRecording calm.recording (0, [])).2.2.length = 1
      ∧ run.1 = .error (.refused 3 "tunes" "full")
      ∧ run.2.2 = (d.detect "tunes" shiftedRecording calm.recording (0, [])).2.2 := by
  intro d skips calm o run
  have hmirrors : o.Mirrors 0 (some 0) calm 0 := Observer.mirrors_counting ..
  obtain ⟨all, -, hwhole, -, hrefused, -⟩ := d.detect_refused "tunes" shiftedRecording hmirrors
  have hparse : Location.parse "tunes" = ⟨"tunes", ""⟩ := by decide
  -- Both scans are run: one has a single tune, and the other fails.
  have hlength : (d.detect "tunes" shiftedRecording calm.recording (0, [])).2.2.length = 1 :=
    d.map_detect_of_runWithin hparse calm.recording (fun ending => ending.2.2.length) 12
      (by decide +kernel)
  have herror : run.1 = .error (.refused 3 "tunes" "full") :=
    d.map_detect_of_runWithin hparse o.recording Prod.fst 12 (by decide +kernel)
  have hone : all.length = 1 := by rwa [hwhole, List.length_map] at hlength
  have hfirst := List.getElem?_eq_getElem (hone.symm ▸ Nat.zero_lt_one)
  obtain ⟨hheard, -⟩ := hrefused _ hfirst
  refine ⟨hmirrors, hlength, herror, ?_⟩
  rw [hheard]
  exact List.take_of_length_le (Nat.le_of_eq hlength)

end Detector

end Chiptune
