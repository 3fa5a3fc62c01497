import Chiptune.Scan.Detector

namespace Chiptune

/-!
# Observers compared

Two observers that react alike drive a scan through the same steps, whatever else their states
hold.

* `Observer.Maps` — a map between the states of two observers under which they react alike, and
  `Scan.run_map`, by which it carries one run over to the other;
* `Listener` — the observers that decide by nothing but the records they were offered so far;
* `Observer.recording` — any observer, with a list of what it was offered beside its own state.
-/

variable {σ τ : Type}

/-! ### Maps between observers -/

/-- `g` takes every state of `o` to a state of `o'` that reacts in the same way. -/
structure Observer.Maps (g : σ → τ) (o : Observer σ) (o' : Observer τ) : Prop where
  skips : ∀ st, o'.skips (g st) = o.skips st
  poll : ∀ st, o'.poll (g st) = ((o.poll st).1, g (o.poll st).2)
  log : ∀ message st, o'.log message (g st) = g (o.log message st)
  offer : ∀ record st, o'.offer record (g st) = ((o.offer record st).1, g (o.offer record st).2)

/-- The same point of a scan, followed by another observer. -/
def Walk.map (g : σ → τ) (w : Walk σ) : Walk τ := ⟨w.stack, w.modules, w.frames, g w.observer⟩

/-- The same step of a scan, followed by another observer. -/
def Step.map (g : σ → τ) : Step σ → Step τ
  | .on w => .on (w.map g)
  | .over result st => .over result (g st)

variable {g : σ → τ} {o : Observer σ} {o' : Observer τ}

theorem Observer.Maps.firstOf {α : Type} (h : Observer.Maps g o o') (attempt : Plugin → Option α)
    (plugins : List Plugin) (st : σ) :
    o'.firstOf attempt plugins (g st)
      = ((o.firstOf attempt plugins st).1, g (o.firstOf attempt plugins st).2) := by
  induction plugins generalizing st with
  | nil => rfl
  | cons p rest ih =>
    simp only [Observer.firstOf, h.poll, h.skips]
    by_cases hstop : (o.poll st).1 = true
    · simp only [hstop, if_true]
    · simp only [hstop]
      cases if o.skips (o.poll st).2 p then none else attempt p with
      | some result => rfl
      | none => exact ih _

theorem Observer.Maps.offerEach (h : Observer.Maps g o o') (s : Scan) (taken : Nat)
    (records : List Record) (st : σ) :
    s.offerEach o' taken records (g st)
      = ((s.offerEach o taken records st).1, (s.offerEach o taken records st).2.1,
          g (s.offerEach o taken records st).2.2) := by
  induction records generalizing taken st with
  | nil => rfl
  | cons record rest ih =>
    simp only [Scan.offerEach, h.poll, h.offer]
    by_cases hstop : (o.poll st).1 = true
    · simp only [hstop, if_true]
    · simp only [hstop]
      by_cases hwant : s.wants record.path = true
      · simp only [hwant, if_true]
        rcases o.offer record (o.poll st).2 with ⟨_ | reason, st'⟩
        · exact ih _ _
        · rfl
      · simp only [hwant]
        exact ih _ _

/-- Observers that react alike take every step alike. -/
theorem Scan.step_map (s : Scan) (h : Observer.Maps g o o') (w : Walk σ) :
    s.step o' (w.map g) = (s.step o w).map g := by
  rcases w with ⟨_ | ⟨f, below⟩, modules, frames, st⟩
  · rfl
  · -- Every question gets the same answer from both, and the states stay related.
    simp only [Scan.step, Walk.map, h.poll]
    by_cases hstop : (o.poll st).1 = true
    · simp only [hstop, if_true]; rfl
    · simp only [hstop]
      by_cases hdone : f.isDone = true
      · simp only [hdone, if_true, h.log]; rfl
      · simp only [hdone]
        cases f.phase with
        | archives =>
          simp only [Scan.archivesStep]
          by_cases hopens : s.opensAt f.depth = true
          · simp only [hopens, if_true, h.firstOf]
            rcases o.firstOf (f.open? s.settings) s.catalog.archives
              (o.poll st).2 with ⟨_ | opened, st'⟩
            · rfl
            · simp only [h.log]; rfl
          · simp only [hopens]; rfl
        | players claim =>
          simp only [Scan.playersStep, h.firstOf]
          rcases o.firstOf f.find? s.catalog.players (o.poll st).2 with ⟨_ | found, st'⟩
          · simp only [h.skips]; rfl
          · simp only [h.offerEach]
            rcases s.offerEach o 0 (s.records f found) st' with ⟨taken, _ | reason, st''⟩
            · simp only [h.skips]; rfl
            · rfl

theorem Scan.run_over {s : Scan} {w : Walk σ} {result : Except ScanError Summary} {st : σ}
    (h : s.step o w = .over result st) : s.run o w = (result, st) := by
  rw [Scan.run]
  split
  · rename_i heq
    rw [h] at heq
    cases heq
    rfl
  · rename_i heq
    rw [h] at heq
    cases heq

theorem Scan.run_on {s : Scan} {w w' : Walk σ} (h : s.step o w = .on w') :
    s.run o w = s.run o w' := by
  rw [Scan.run]
  split
  · rename_i heq
    rw [h] at heq
    cases heq
  · rename_i heq
    rw [h] at heq
    cases heq
    rfl

/-- **Runs are carried over.** Observers that react alike end a scan with the same result. -/
theorem Scan.run_map (s : Scan) (h : Observer.Maps g o o') (w : Walk σ) :
    s.run o' (w.map g) = ((s.run o w).1, g (s.run o w).2) := by
  induction w using Scan.run.induct s o with
  | case1 w result st hstep =>
    have hstep' : s.step o' (w.map g) = .over result (g st) := by
      rw [s.step_map h, hstep]; rfl
    rw [Scan.run_over hstep, Scan.run_over hstep']
  | case2 w w' hstep ih =>
    have hstep' : s.step o' (w.map g) = .on (w'.map g) := by
      rw [s.step_map h, hstep]; rfl
    rw [Scan.run_on hstep, Scan.run_on hstep', ih]

/-! ### Observers that only listen -/

/-- What an observer does that has no state but the records it was offered: it leaves out some
    plugins, and the records so far decide whether it stops and whether it refuses the next. -/
structure Listener where
  skips : Plugin → Bool
  stop : List Record → Bool
  refuse : List Record → Record → Option String

namespace Listener

/-- The listener as an observer. Its state is the list of the records that it was offered. -/
def observer (l : Listener) : Observer (List Record) where
  skips _ := l.skips
  poll heard := (l.stop heard, heard)
  offer record heard := (l.refuse heard record, heard ++ [record])

@[simp] theorem skips_observer (l : Listener) (heard : List Record) :
    l.observer.skips heard = l.skips := rfl

@[simp] theorem poll_observer (l : Listener) (heard : List Record) :
    l.observer.poll heard = (l.stop heard, heard) := rfl

@[simp] theorem log_observer (l : Listener) (message : String) (heard : List Record) :
    l.observer.log message heard = heard := rfl

@[simp] theorem offer_observer (l : Listener) (record : Record) (heard : List Record) :
    l.observer.offer record heard = (l.refuse heard record, heard ++ [record]) := rfl

/-- The listener that takes every record. -/
def patient (skips : Plugin → Bool) : Listener := ⟨skips, fun _ => false, fun _ _ => none⟩

/-- The listener that stops once it has as many records as a limit says, if there is one. -/
def upTo (limit : Option Nat) : Listener :=
  ⟨fun _ => false, fun heard => limit.any (· ≤ heard.length), fun _ _ => none⟩

/-- A collector is the listener with its limit. -/
theorem maps_collector (limit : Option Nat) :
    Observer.Maps (fun heard => (⟨heard.toArray, limit⟩ : Collector)) (upTo limit).observer
      Collector.observer where
  skips _ := rfl
  poll heard := by
    simp only [Collector.observer, Collector.isFull, observer, upTo, List.size_toArray]
  log _ _ := rfl
  offer record heard := by
    simp only [Collector.observer, observer, upTo, List.push_toArray]

end Listener

/-! ### Keeping a list -/

/-- The observer with a list of all records that it was offered beside its own state. -/
def Observer.recording (o : Observer σ) : Observer (σ × List Record) where
  skips st := o.skips st.1
  poll st := ((o.poll st.1).1, (o.poll st.1).2, st.2)
  log message st := (o.log message st.1, st.2)
  offer record st := ((o.offer record st.1).1, (o.offer record st.1).2, st.2 ++ [record])

@[simp] theorem Observer.skips_recording (o : Observer σ) (st : σ × List Record) :
    o.recording.skips st = o.skips st.1 := rfl

@[simp] theorem Observer.poll_recording (o : Observer σ) (st : σ × List Record) :
    o.recording.poll st = ((o.poll st.1).1, (o.poll st.1).2, st.2) := rfl

@[simp] theorem Observer.log_recording (o : Observer σ) (message : String)
    (st : σ × List Record) : o.recording.log message st = (o.log message st.1, st.2) := rfl

@[simp] theorem Observer.offer_recording (o : Observer σ) (record : Record)
    (st : σ × List Record) : o.recording.offer record st
      = ((o.offer record st.1).1, (o.offer record st.1).2, st.2 ++ [record]) := rfl

/-- The list changes nothing. -/
theorem Observer.maps_recording (o : Observer σ) : Observer.Maps Prod.fst o.recording o where
  skips _ := rfl
  poll _ := rfl
  log _ _ := rfl
  offer _ _ := rfl

/-- The list of an observer that neither stops nor refuses, and always skips the same plugins, is
    that of the listener who takes every record. -/
theorem Observer.maps_patient {skips : Plugin → Bool} (hskips : ∀ st, o.skips st = skips)
    (hpoll : ∀ st, (o.poll st).1 = false) (hoffer : ∀ record st, (o.offer record st).1 = none) :
    Observer.Maps Prod.snd o.recording (Listener.patient skips).observer where
  skips st := (hskips st.1).symm
  poll st := by simp only [recording, hpoll]; rfl
  log _ _ := rfl
  offer record st := by simp only [recording, hoffer]; rfl

end Chiptune
