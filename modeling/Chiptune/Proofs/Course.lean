import Chiptune.Proofs.Observation

namespace Chiptune

/-!
# The course of a scan without its stack

As long as the same plugins are skipped, what a scan reports does not depend on who listens. Only
how much of it is heard does.

* `Scan.course` — all that a frame and the containers inside it lead to, by recursion on frames and
  without a stack;
* `Listener.receive` — how much of it a listener takes;
* `Scan.run_listener` — a run is the course of its stack, as received by the listener.
-/

/-! ### Findings -/

/-- A record with the place where it is found: an offset in the container with the given path. -/
structure Sighting where
  offset : Nat
  container : TunePath
  record : Record

/-- What a scan finds: the tunes in their order, and the number of containers that it opens. -/
structure Findings where
  sightings : List Sighting
  frames : Nat

namespace Findings

instance : EmptyCollection Findings := ⟨⟨[], 0⟩⟩

instance : Append Findings := ⟨fun a b => ⟨a.sightings ++ b.sightings, a.frames + b.frames⟩⟩

/-- Findings one after the other. -/
def join : List Findings → Findings
  | [] => ∅
  | first :: rest => first ++ join rest

/-- The records of the tunes. -/
def records (a : Findings) : List Record := a.sightings.map Sighting.record

@[simp] theorem sightings_empty : (∅ : Findings).sightings = [] := rfl
@[simp] theorem frames_empty : (∅ : Findings).frames = 0 := rfl

@[simp] theorem sightings_append (a b : Findings) :
    (a ++ b).sightings = a.sightings ++ b.sightings := rfl

@[simp] theorem frames_append (a b : Findings) : (a ++ b).frames = a.frames + b.frames := rfl

@[ext] theorem ext {a b : Findings} (hs : a.sightings = b.sightings) (hf : a.frames = b.frames) :
    a = b := by
  cases a; cases b; simp_all

@[simp] theorem empty_append (a : Findings) : ∅ ++ a = a := by
  ext1 <;> simp

@[simp] theorem append_empty (a : Findings) : a ++ ∅ = a := by
  ext1 <;> simp

theorem append_assoc (a b c : Findings) : a ++ b ++ c = a ++ (b ++ c) := by
  ext1 <;> simp [Nat.add_assoc]

@[simp] theorem join_nil : join [] = ∅ := rfl
@[simp] theorem join_cons (a : Findings) (rest : List Findings) :
    join (a :: rest) = a ++ join rest := rfl

theorem join_append (as bs : List Findings) : join (as ++ bs) = join as ++ join bs := by
  induction as with
  | nil => simp
  | cons a as ih => simp [ih, append_assoc]

@[simp] theorem records_empty : (∅ : Findings).records = [] := rfl

@[simp] theorem records_append (a b : Findings) : (a ++ b).records = a.records ++ b.records := by
  simp [records]

end Findings

/-! ### The course of a frame -/

namespace Frame

theorem lt_of_not_isDone (f : Frame) (h : ¬f.isDone = true) : f.offset < f.data.size := by
  simpa [isDone] using h

/-- A plugin opens what it admits and unpacks, when the claim is granted. -/
theorem open?_spec {f : Frame} {settings : Settings} {p : Plugin} {opened : Opened}
    (h : f.open? settings p = some opened) :
    opened.plugin = p ∧ opened.plugin.check f.rest = true
      ∧ opened.plugin.decoder.contents? settings f.rest = some opened.contents
      ∧ opened.claim = min opened.contents.consumed f.rest.size
      ∧ f.archiveClaims.add? ⟨f.offset, opened.claim⟩ = some opened.claims := by
  unfold open? at h
  split at h
  · rename_i hcheck
    obtain ⟨contents, hcontents, h⟩ := Option.bind_eq_some_iff.1 h
    obtain ⟨claims, hclaims, h⟩ := Option.bind_eq_some_iff.1 h
    cases h
    exact ⟨rfl, hcheck, hcontents, rfl, hclaims⟩
  · cases h

/-- A plugin finds the tunes that it reads, when there are any and the claim is granted. -/
theorem find?_spec {f : Frame} {p : Plugin} {found : Found} (h : f.find? p = some found) :
    found.plugin = p ∧ p.decoder.tunes? found.body = some found.tunes ∧ found.tunes.tracks ≠ []
      ∧ found.claim ≤ f.rest.size
      ∧ f.tuneClaims.add? ⟨f.offset, found.claim⟩ = some found.claims := by
  unfold find? at h
  obtain ⟨stub, -, h⟩ := Option.bind_eq_some_iff.1 h
  obtain ⟨body, -, h⟩ := Option.bind_eq_some_iff.1 h
  obtain ⟨tunes, htunes, h⟩ := Option.bind_eq_some_iff.1 h
  split at h
  · cases h
  · rename_i htracks
    obtain ⟨claims, hclaims, h⟩ := Option.bind_eq_some_iff.1 h
    cases h
    exact ⟨rfl, htunes, by simpa using htracks, Nat.min_le_right .., hclaims⟩

end Frame

namespace Scan

/-- The archive that is opened at the offset of a frame: the first in the order of the catalog that
    opens there, if the depth allows any. -/
def archiveAt (s : Scan) (skips : Plugin → Bool) (f : Frame) : Option Opened :=
  if s.opensAt f.depth then
    (s.catalog.archives.filter (!skips ·)).findSome? (f.open? s.settings)
  else none

/-- The tunes that are found at the offset of a frame, by the first player in the order of the
    catalog that finds any. -/
def tunesAt (s : Scan) (skips : Plugin → Bool) (f : Frame) : Option Found :=
  (s.catalog.players.filter (!skips ·)).findSome? f.find?

/-- The records that are wanted among some that belong to the offset of a frame. -/
def wanted (s : Scan) (f : Frame) (records : List Record) : List Sighting :=
  (records.filter fun r => s.wants r.path).map fun r => ⟨f.offset, f.path, r⟩

@[simp] theorem wanted_nil (s : Scan) (f : Frame) : s.wanted f [] = [] := rfl

theorem wanted_cons_of_wants {s : Scan} {r : Record} (h : s.wants r.path = true) (f : Frame)
    (records : List Record) :
    s.wanted f (r :: records) = ⟨f.offset, f.path, r⟩ :: s.wanted f records := by
  simp [wanted, h]

theorem wanted_cons_of_not_wants {s : Scan} {r : Record} (h : ¬s.wants r.path = true) (f : Frame)
    (records : List Record) : s.wanted f (r :: records) = s.wanted f records := by
  simp [wanted, h]

/-- The tunes that were found and are wanted. -/
def sightings (s : Scan) (f : Frame) (found : Found) : Findings :=
  ⟨s.wanted f (s.records f found), 0⟩

/-- An archive that is opened is one that its plugin admits, at a depth where archives are opened,
    and its claim is granted. -/
theorem archiveAt_spec {s : Scan} {skips : Plugin → Bool} {f : Frame} {opened : Opened}
    (h : s.archiveAt skips f = some opened) :
    opened.plugin ∈ s.catalog.archives ∧ opened.plugin.check f.rest = true
      ∧ opened.plugin.decoder.contents? s.settings f.rest = some opened.contents
      ∧ opened.claim = min opened.contents.consumed f.rest.size
      ∧ f.archiveClaims.add? ⟨f.offset, opened.claim⟩ = some opened.claims := by
  unfold archiveAt at h
  split at h
  · obtain ⟨p, hp, hopen⟩ := List.exists_of_findSome?_eq_some h
    obtain ⟨rfl, hopened⟩ := Frame.open?_spec hopen
    exact ⟨(List.mem_filter.1 hp).1, hopened⟩
  · cases h

theorem find?_of_tunesAt {s : Scan} {skips : Plugin → Bool} {f : Frame} {found : Found}
    (h : s.tunesAt skips f = some found) : ∃ p ∈ s.catalog.players, f.find? p = some found := by
  obtain ⟨p, hp, hfind⟩ := List.exists_of_findSome?_eq_some h
  exact ⟨p, (List.mem_filter.1 hp).1, hfind⟩

/-- Tunes that are found are read behind the place where their plugin begins, and their claim is
    granted. -/
theorem tunesAt_spec {s : Scan} {skips : Plugin → Bool} {f : Frame} {found : Found}
    (h : s.tunesAt skips f = some found) :
    found.plugin ∈ s.catalog.players ∧ found.tunes.tracks ≠ []
      ∧ found.claim ≤ f.rest.size
      ∧ f.tuneClaims.add? ⟨f.offset, found.claim⟩ = some found.claims := by
  obtain ⟨p, hp, hfind⟩ := find?_of_tunesAt h
  obtain ⟨rfl, -, htracks, hclaim, hadd⟩ := Frame.find?_spec hfind
  exact ⟨hp, htracks, hclaim, hadd⟩

theorem opensAt_of_archiveAt {s : Scan} {skips : Plugin → Bool} {f : Frame} {opened : Opened}
    (h : s.archiveAt skips f = some opened) : s.opensAt f.depth = true := by
  by_cases hopens : s.opensAt f.depth = true
  · exact hopens
  · simp [archiveAt, hopens] at h

/-- All that a frame leads to from its point on: at each offset what is inside the archive there,
    then the tunes there, then the offsets behind. -/
def course (s : Scan) (skips : Plugin → Bool) (f : Frame) : Findings :=
  if _hdone : f.isDone then ∅
  else match _hphase : f.phase with
    | .archives =>
      match _hopen : s.archiveAt skips f with
      | none => s.course skips { f with phase := .players 0 }
      | some opened =>
        ⟨[], (s.children f opened).length⟩
          ++ .join ((s.children f opened).attach.map fun g => s.course skips g.1)
          ++ s.course skips (f.behind opened)
    | .players claim =>
      match s.tunesAt skips f with
      | none => s.course skips (s.advance skips f claim)
      | some found =>
        s.sightings f found
          ++ s.course skips
              (s.advance skips { f with tuneClaims := found.claims } (max claim found.claim))
termination_by f.rank s.settings.maxDepth.toNat
decreasing_by
  -- Entries are deeper; all else is a later point in the same data.
  · exact below_players rfl rfl rfl _hphase rfl
  · exact below_of_mem_children (opensAt_of_archiveAt _hopen) g.2
  · exact below_players rfl rfl rfl _hphase rfl
  · exact s.below_advance skips f f claim rfl rfl rfl (f.lt_of_not_isDone _hdone) _hphase
  · exact s.below_advance skips f { f with tuneClaims := found.claims } _ rfl rfl rfl
      (f.lt_of_not_isDone _hdone) _hphase

/-- All that the frames of a stack lead to, top first. -/
def courseOf (s : Scan) (skips : Plugin → Bool) (frames : List Frame) : Findings :=
  .join (frames.map (s.course skips))

@[simp] theorem courseOf_nil (s : Scan) (skips : Plugin → Bool) : s.courseOf skips [] = ∅ := rfl

@[simp] theorem courseOf_cons (s : Scan) (skips : Plugin → Bool) (f : Frame) (below : List Frame) :
    s.courseOf skips (f :: below) = s.course skips f ++ s.courseOf skips below := rfl

theorem courseOf_append (s : Scan) (skips : Plugin → Bool) (above below : List Frame) :
    s.courseOf skips (above ++ below) = s.courseOf skips above ++ s.courseOf skips below := by
  rw [courseOf, List.map_append, Findings.join_append]
  rfl

section

variable {s : Scan} {skips : Plugin → Bool} {f : Frame}

theorem mem_courseOf {frames : List Frame} {e : Sighting} :
    e ∈ (s.courseOf skips frames).sightings
      ↔ ∃ g ∈ frames, e ∈ (s.course skips g).sightings := by
  induction frames with
  | nil => simp
  | cons g rest ih => simp [ih]

theorem course_of_isDone (h : f.isDone = true) : s.course skips f = ∅ := by
  rw [course, dif_pos h]

theorem course_of_archiveAt_none (hdone : ¬f.isDone = true) (hphase : f.phase = .archives)
    (h : s.archiveAt skips f = none) :
    s.course skips f = s.course skips { f with phase := .players 0 } := by
  rw [course, dif_neg hdone]
  split
  · split
    · rfl
    · simp_all
  · simp_all

theorem course_of_archiveAt_some (hdone : ¬f.isDone = true) (hphase : f.phase = .archives)
    {opened : Opened} (h : s.archiveAt skips f = some opened) :
    s.course skips f = ⟨[], (s.children f opened).length⟩ ++ s.courseOf skips (s.children f opened)
      ++ s.course skips (f.behind opened) := by
  rw [course, dif_neg hdone]
  split
  · split
    · simp_all
    · rename_i opened' h'
      obtain rfl : opened' = opened := by simpa [h] using h'.symm
      rw [courseOf, List.attach_map_val]
  · simp_all

theorem course_of_tunesAt_none (hdone : ¬f.isDone = true) {claim : Nat}
    (hphase : f.phase = .players claim) (h : s.tunesAt skips f = none) :
    s.course skips f = s.course skips (s.advance skips f claim) := by
  rw [course, dif_neg hdone]
  split
  · simp_all
  · rename_i claim' hphase'
    obtain rfl : claim' = claim := by simpa [hphase] using hphase'.symm
    rw [h]

theorem course_of_tunesAt_some (hdone : ¬f.isDone = true) {claim : Nat}
    (hphase : f.phase = .players claim) {found : Found} (h : s.tunesAt skips f = some found) :
    s.course skips f = s.sightings f found ++ s.course skips
      (s.advance skips { f with tuneClaims := found.claims } (max claim found.claim)) := by
  rw [course, dif_neg hdone]
  split
  · simp_all
  · rename_i claim' hphase'
    obtain rfl : claim' = claim := by simpa [hphase] using hphase'.symm
    rw [h]

end

end Scan

/-! ### Listening -/

/-- The error for a tune that was refused. -/
def Scan.refusalOf (s : Scan) (e : Sighting) (reason : String) : ScanError :=
  .refused e.offset (s.location.withSubpath e.container.render).full reason

namespace Listener

/-- How a listener takes some findings when it has heard of some records before: whether it stops
    or what it fails with, and all that it has heard of in the end. It may also stop behind the
    last of them. -/
def receive (l : Listener) (s : Scan) (heard : List Record) :
    List Sighting → Except ScanError Bool × List Record
  | [] => (.ok (l.stop heard), heard)
  | e :: rest =>
    if l.stop heard then (.ok true, heard)
    else match l.refuse heard e.record with
      | none => l.receive s (heard ++ [e.record]) rest
      | some reason => (.error (s.refusalOf e reason), heard ++ [e.record])

theorem receive_of_stop {l : Listener} {heard : List Record} (h : l.stop heard = true) (s : Scan)
    (es : List Sighting) : l.receive s heard es = (.ok true, heard) := by
  cases es with
  | nil => rw [receive, h]
  | cons e rest => rw [receive, if_pos h]

theorem receive_patient (skips : Plugin → Bool) (s : Scan) (heard : List Record)
    (es : List Sighting) :
    (patient skips).receive s heard es = (.ok false, heard ++ es.map Sighting.record) := by
  induction es generalizing heard with
  | nil => simp [receive, patient]
  | cons e rest ih =>
    have hrest := ih (heard ++ [e.record])
    simpa [receive, patient] using hrest

/-- A listener with a limit takes as many records as it still has room for. It stops when there are
    that many. -/
theorem receive_upTo (limit : Nat) (s : Scan) {heard : List Record} (h : heard.length ≤ limit)
    (es : List Sighting) :
    (upTo (some limit)).receive s heard es
      = (.ok (decide (limit ≤ heard.length + es.length)),
          heard ++ (es.map Sighting.record).take (limit - heard.length)) := by
  induction es generalizing heard with
  | nil => simp [receive, upTo]
  | cons e rest ih =>
    by_cases hfull : limit ≤ heard.length
    · -- No room is left, so the listener stops before the next record.
      have hstop : (upTo (some limit)).stop heard = true := by simp [upTo, hfull]
      have hroom : limit - heard.length = 0 := by omega
      rw [receive_of_stop hstop, hroom, List.take_zero, List.append_nil,
        decide_eq_true (by omega)]
    · have hstop : (upTo (some limit)).stop heard = false := by simp [upTo, hfull]
      have hroom : limit - heard.length = limit - (heard.length + 1) + 1 := by omega
      have hmore : (heard ++ [e.record]).length ≤ limit := by
        rw [List.length_append, List.length_singleton]
        omega
      have hrest := ih hmore
      rw [receive, if_neg (by simp [hstop])]
      simp only [upTo] at hrest ⊢
      rw [hrest, List.map_cons, hroom, List.take_succ_cons]
      simp [Nat.add_assoc, Nat.add_comm 1]

/-- While a listener does not stop, it gets the first result of the plugins that it does not
    skip. -/
theorem firstOf_observer {α : Type} {l : Listener} {heard : List Record}
    (h : l.stop heard = false) (attempt : Plugin → Option α) (plugins : List Plugin) :
    l.observer.firstOf attempt plugins heard
      = ((plugins.filter (!l.skips ·)).findSome? attempt, heard) := by
  induction plugins with
  | nil => rfl
  | cons p rest ih =>
    rw [Observer.firstOf, poll_observer, h]
    simp only [skips_observer]
    by_cases hskip : l.skips p = true
    · simpa [hskip] using ih
    · cases hp : attempt p with
      | some result => simp [hskip, hp]
      | none => simpa [hskip, hp] using ih

section

variable {l : Listener} {s : Scan} {heard heard' : List Record} {taken taken' : Nat} {r : Record}
  {records : List Record}

theorem offerEach_of_stop (h : l.stop heard = true) :
    s.offerEach l.observer taken (r :: records) heard = (taken, none, heard) := by
  simp [Scan.offerEach, h]

theorem offerEach_of_not_wants (h : l.stop heard = false) (hwant : ¬s.wants r.path = true) :
    s.offerEach l.observer taken (r :: records) heard
      = s.offerEach l.observer taken records heard := by
  simp [Scan.offerEach, h, hwant]

theorem offerEach_of_refuse_none (h : l.stop heard = false) (hwant : s.wants r.path = true)
    (hrefuse : l.refuse heard r = none) :
    s.offerEach l.observer taken (r :: records) heard
      = s.offerEach l.observer (taken + 1) records (heard ++ [r]) := by
  simp [Scan.offerEach, h, hwant, hrefuse]

theorem offerEach_of_refuse_some (h : l.stop heard = false) (hwant : s.wants r.path = true)
    {reason : String} (hrefuse : l.refuse heard r = some reason) :
    s.offerEach l.observer taken (r :: records) heard = (taken, some reason, heard ++ [r]) := by
  simp [Scan.offerEach, h, hwant, hrefuse]

/-- Records that were offered one by one were received, and what follows is still to be. -/
theorem receive_of_offerEach_none (f : Frame) (rest : List Sighting)
    (h : s.offerEach l.observer taken records heard = (taken', none, heard')) :
    l.receive s heard (s.wanted f records ++ rest) = l.receive s heard' rest
      ∧ taken' + heard.length = taken + heard'.length := by
  induction records generalizing taken heard with
  | nil =>
    cases h
    exact ⟨rfl, rfl⟩
  | cons r records ih =>
    cases hstop : l.stop heard with
    | true =>
      rw [offerEach_of_stop hstop] at h
      cases h
      rw [receive_of_stop hstop, receive_of_stop hstop]
      exact ⟨rfl, rfl⟩
    | false =>
      by_cases hwant : s.wants r.path = true
      · cases hrefuse : l.refuse heard r with
        | some reason =>
          rw [offerEach_of_refuse_some hstop hwant hrefuse] at h
          cases h
        | none =>
          rw [offerEach_of_refuse_none hstop hwant hrefuse] at h
          obtain ⟨hreceive, hcount⟩ := ih h
          rw [List.length_append, List.length_singleton] at hcount
          refine ⟨?_, by omega⟩
          rw [← hreceive, Scan.wanted_cons_of_wants hwant, List.cons_append, receive,
            if_neg (by simp [hstop]), hrefuse]
      · rw [offerEach_of_not_wants hstop hwant] at h
        rw [Scan.wanted_cons_of_not_wants hwant]
        exact ih h

/-- A refusal while records are offered one by one is what ends receiving them. -/
theorem receive_of_offerEach_some (f : Frame) (rest : List Sighting) {reason : String}
    (h : s.offerEach l.observer taken records heard = (taken', some reason, heard')) :
    l.receive s heard (s.wanted f records ++ rest) = (.error (s.refusal f reason), heard') := by
  induction records generalizing taken heard with
  | nil => cases h
  | cons r records ih =>
    cases hstop : l.stop heard with
    | true =>
      rw [offerEach_of_stop hstop] at h
      cases h
    | false =>
      by_cases hwant : s.wants r.path = true
      · rw [Scan.wanted_cons_of_wants hwant, List.cons_append, receive,
          if_neg (by simp [hstop])]
        cases hrefuse : l.refuse heard r with
        | some reason' =>
          rw [offerEach_of_refuse_some hstop hwant hrefuse] at h
          cases h
          rfl
        | none =>
          rw [offerEach_of_refuse_none hstop hwant hrefuse] at h
          exact ih h
      · rw [offerEach_of_not_wants hstop hwant] at h
        rw [Scan.wanted_cons_of_not_wants hwant]
        exact ih h

end

end Listener

/-! ### Runs -/

/-- A step goes on with the same course: what the listener receives in the end, and the numbers of
    tunes and frames in the end, are those of before. -/
structure Walk.Continues (l : Listener) (s : Scan) (w w' : Walk (List Record)) : Prop where
  polled : w'.stack = [] → l.stop w'.observer = false
  receive : l.receive s w'.observer (s.courseOf l.skips w'.stack).sightings
    = l.receive s w.observer (s.courseOf l.skips w.stack).sightings
  modules : w'.modules + w.observer.length = w.modules + w'.observer.length
  frames : w'.frames + (s.courseOf l.skips w'.stack).frames
    = w.frames + (s.courseOf l.skips w.stack).frames

namespace Scan

variable {l : Listener} {s : Scan} {w w' : Walk (List Record)} {f : Frame} {below : List Frame}

theorem continues_archivesStep (hstack : w.stack = f :: below) (hstop : l.stop w.observer = false)
    (hdone : ¬f.isDone = true) (hphase : f.phase = .archives) :
    w.Continues l s (s.archivesStep l.observer w f below) := by
  -- The observer is asked before each plugin, and does not stop for as long as it hears nothing.
  have hattempt : (if s.opensAt f.depth then
      l.observer.firstOf (f.open? s.settings) s.catalog.archives w.observer
      else (none, w.observer)) = (s.archiveAt l.skips f, w.observer) := by
    rw [Listener.firstOf_observer hstop, archiveAt]
    split <;> rfl
  rw [archivesStep, hattempt]
  cases harchive : s.archiveAt l.skips f with
  | none =>
    have hcourse := course_of_archiveAt_none hdone hphase harchive
    refine ⟨?_, by simp [hstack, hcourse], rfl, by simp [hstack, hcourse]⟩
    intro hempty
    exact absurd hempty (List.cons_ne_nil _ _)
  | some opened =>
    have hcourse := course_of_archiveAt_some hdone hphase harchive
    refine ⟨?_, ?_, rfl, ?_⟩
    · intro h
      simp at h
    · simp [hstack, hcourse, courseOf_append]
    · simp only [hstack, hcourse, courseOf_append, courseOf_cons, Findings.frames_append]
      omega

theorem continues_playersStep (hstack : w.stack = f :: below) (hstop : l.stop w.observer = false)
    (hdone : ¬f.isDone = true) {claim : Nat} (hphase : f.phase = .players claim)
    (h : s.playersStep l.observer w f below claim = .on w') : w.Continues l s w' := by
  rw [playersStep, Listener.firstOf_observer hstop] at h
  cases htunes : s.tunesAt l.skips f with
  | none =>
    have hcourse := course_of_tunesAt_none hdone hphase htunes
    rw [tunesAt] at htunes
    simp only [htunes] at h
    cases h
    refine ⟨?_, by simp [hstack, hcourse], rfl, by simp [hstack, hcourse]⟩
    intro hempty
    exact absurd hempty (List.cons_ne_nil _ _)
  | some found =>
    have hcourse := course_of_tunesAt_some hdone hphase htunes
    rw [tunesAt] at htunes
    simp only [htunes] at h
    split at h
    · cases h
    · -- No tune was refused, so the listener goes on behind all of them.
      rename_i taken heard hoffer
      cases h
      obtain ⟨hreceive, hcount⟩ := Listener.receive_of_offerEach_none f
        (s.courseOf l.skips (s.advance l.skips { f with tuneClaims := found.claims }
          (max claim found.claim) :: below)).sightings hoffer
      refine ⟨fun hempty => absurd hempty (List.cons_ne_nil _ _), ?_, ?_, ?_⟩
      · simpa [hstack, hcourse, sightings] using hreceive.symm
      · simp only
        omega
      · simp [hstack, hcourse, sightings]

theorem receive_of_playersStep (hstack : w.stack = f :: below) (hstop : l.stop w.observer = false)
    (hdone : ¬f.isDone = true) {claim : Nat} (hphase : f.phase = .players claim)
    {result : Except ScanError Summary} {heard : List Record}
    (h : s.playersStep l.observer w f below claim = .over result heard) :
    ∃ e, result = .error e
      ∧ l.receive s w.observer (s.courseOf l.skips w.stack).sightings = (.error e, heard) := by
  rw [playersStep, Listener.firstOf_observer hstop] at h
  cases htunes : s.tunesAt l.skips f with
  | none =>
    rw [tunesAt] at htunes
    simp only [htunes] at h
    cases h
  | some found =>
    have hcourse := course_of_tunesAt_some hdone hphase htunes
    rw [tunesAt] at htunes
    simp only [htunes] at h
    split at h
    · rename_i taken reason heard' hoffer
      cases h
      refine ⟨s.refusal f reason, rfl, ?_⟩
      have hreceive := Listener.receive_of_offerEach_some f
        (s.courseOf l.skips (s.advance l.skips { f with tuneClaims := found.claims }
          (max claim found.claim) :: below)).sightings hoffer
      simpa [hstack, hcourse, sightings] using hreceive
    · cases h

/-- A step that is not the last goes on with the same course. -/
theorem continues_step (h : s.step l.observer w = .on w') : w.Continues l s w' := by
  rw [step] at h
  split at h
  · cases h
  · rename_i f below hstack
    rw [Listener.poll_observer] at h
    cases hstop : l.stop w.observer with
    | true =>
      simp only [hstop, if_true] at h
      cases h
    | false =>
      simp only [hstop, Bool.false_eq_true, if_false] at h
      by_cases hdone : f.isDone = true
      · rw [if_pos hdone] at h
        cases h
        exact ⟨fun _ => hstop, by simp [hstack, course_of_isDone hdone], rfl,
          by simp [hstack, course_of_isDone hdone]⟩
      · rw [if_neg hdone] at h
        split at h
        · cases h
          exact continues_archivesStep hstack hstop hdone ‹_›
        · exact continues_playersStep hstack hstop hdone ‹_› h

/-- The last step ends with what the listener receives of nothing more, or with a refusal. -/
theorem receive_of_over (hpolled : w.stack = [] → l.stop w.observer = false)
    {result : Except ScanError Summary} {heard : List Record}
    (h : s.step l.observer w = .over result heard) :
    (∃ e, result = .error e
      ∧ l.receive s w.observer (s.courseOf l.skips w.stack).sightings = (.error e, heard))
    ∨ (∃ cancelled, result = .ok ⟨w.modules, w.frames, cancelled⟩ ∧ heard = w.observer
      ∧ l.receive s w.observer (s.courseOf l.skips w.stack).sightings = (.ok cancelled, heard)
      ∧ (cancelled = false → (s.courseOf l.skips w.stack).frames = 0)) := by
  rw [step] at h
  split at h
  · -- Nothing is left. The listener did not stop, as it was asked behind the last record.
    rename_i hstack
    cases h
    refine .inr ⟨false, rfl, rfl, ?_, fun _ => by simp [hstack]⟩
    rw [hstack, courseOf_nil, Findings.sightings_empty, Listener.receive, hpolled hstack]
  · rename_i f below hstack
    rw [Listener.poll_observer] at h
    cases hstop : l.stop w.observer with
    | true =>
      simp only [hstop, if_true] at h
      cases h
      exact .inr ⟨true, rfl, rfl, Listener.receive_of_stop hstop _ _, Bool.noConfusion⟩
    | false =>
      simp only [hstop, Bool.false_eq_true, if_false] at h
      by_cases hdone : f.isDone = true
      · rw [if_pos hdone] at h
        cases h
      · rw [if_neg hdone] at h
        split at h
        · cases h
        · exact .inl (receive_of_playersStep hstack hstop hdone ‹_› h)

/-- **A run is its course.** A listener ends a scan with what it receives of the course of the
    stack. The tunes that it took are counted, and when it did not stop so are all containers. -/
theorem run_listener (l : Listener) (s : Scan) (w : Walk (List Record))
    (hpolled : w.stack = [] → l.stop w.observer = false) :
    match l.receive s w.observer (s.courseOf l.skips w.stack).sightings with
    | (.error e, heard) => s.run l.observer w = (.error e, heard)
    | (.ok cancelled, heard) =>
      ∃ summary : Summary, s.run l.observer w = (.ok summary, heard)
        ∧ summary.cancelled = cancelled
        ∧ summary.modules + w.observer.length = w.modules + heard.length
        ∧ (cancelled = false →
          summary.frames = w.frames + (s.courseOf l.skips w.stack).frames) := by
  -- Induction on the steps of the run, which keep what is received in the end.
  induction w using Scan.run.induct s l.observer with
  | case1 w result heard hstep =>
    rw [run_over hstep]
    rcases receive_of_over hpolled hstep with ⟨e, rfl, hreceive⟩ |
      ⟨cancelled, rfl, rfl, hreceive, hframes⟩
    · rw [hreceive]
    · rw [hreceive]
      exact ⟨_, rfl, rfl, rfl, fun h => by rw [hframes h]; rfl⟩
  | case2 w w' hstep ih =>
    obtain ⟨hpolled', hreceive, hmodules, hframes⟩ := continues_step hstep
    have hrest := ih hpolled'
    rw [run_on hstep]
    rw [hreceive] at hrest
    split at hrest
    · exact hrest
    · obtain ⟨summary, hrun, hcancelled, hcount, htotal⟩ := hrest
      exact ⟨summary, hrun, hcancelled, by omega, fun h => by rw [htotal h]; omega⟩

/-- The same for a whole scan, which begins with one frame. -/
theorem run_start_listener (l : Listener) (s : Scan) (data : Window) (root : TunePath) :
    match l.receive s [] (s.course l.skips (.start data root ∅ 0 s.catalog)).sightings with
    | (.error e, heard) => s.run l.observer (.start s.catalog data root []) = (.error e, heard)
    | (.ok cancelled, heard) =>
      ∃ summary : Summary,
        s.run l.observer (.start s.catalog data root []) = (.ok summary, heard)
        ∧ summary.cancelled = cancelled
        ∧ summary.modules = heard.length
        ∧ (cancelled = false →
          summary.frames = 1 + (s.course l.skips (.start data root ∅ 0 s.catalog)).frames) := by
  have hrun := run_listener l s (.start s.catalog data root [])
    fun hempty => absurd hempty (List.cons_ne_nil _ _)
  have hcourse : s.courseOf l.skips [.start data root ∅ 0 s.catalog]
      = s.course l.skips (.start data root ∅ 0 s.catalog) := by
    rw [courseOf_cons, courseOf_nil, Findings.append_empty]
  simpa only [Walk.start, hcourse, List.length_nil, Nat.add_zero, Nat.zero_add] using hrun

/-- **Collectors.** A collector ends a scan with the first records of its course, as many as its
    limit says, or with all of them. It stops the scan when the limit is reached. -/
theorem run_start_collector (s : Scan) (data : Window) (root : TunePath) (limit : Option Nat) :
    let course := s.course (fun _ => false) (.start data root ∅ 0 s.catalog)
    let taken := limit.elim course.records (course.records.take ·)
    ∃ summary : Summary,
      s.run Collector.observer (.start s.catalog data root { limit })
        = (.ok summary, ⟨taken.toArray, limit⟩)
      ∧ summary.cancelled = limit.any (· ≤ course.records.length)
      ∧ summary.modules = taken.length
      ∧ (summary.cancelled = false → summary.frames = 1 + course.frames) := by
  intro course taken
  -- The collector is a listener with the same limit.
  have hmap := s.run_map (Listener.maps_collector limit) (.start s.catalog data root [])
  have hrun := run_start_listener (Listener.upTo limit) s data root
  have hreceive : (Listener.upTo limit).receive s [] course.sightings
      = (.ok (limit.any (· ≤ course.records.length)), taken) := by
    cases limit with
    | none => exact Listener.receive_patient (fun _ => false) s [] course.sightings
    | some n =>
      have hroom : ([] : List Record).length ≤ n := Nat.zero_le n
      rw [Listener.receive_upTo n s hroom]
      simp [taken, Findings.records]
  have hskips : (Listener.upTo limit).skips = fun _ => false := rfl
  rw [hskips, hreceive] at hrun
  obtain ⟨summary, hsummary, hcancelled, hmodules, hframes⟩ := hrun
  rw [hsummary] at hmap
  exact ⟨summary, hmap, hcancelled, hmodules, fun h => hframes (hcancelled ▸ h)⟩

/-! ### Runs of a few steps -/

/-- The end of a run that takes fewer steps than `fuel`. -/
def runWithin {σ : Type} (s : Scan) (o : Observer σ) :
    (fuel : Nat) → Walk σ → Option (Except ScanError Summary × σ)
  | 0, _ => none
  | fuel + 1, w =>
    match s.step o w with
    | .over result st => some (result, st)
    | .on w' => s.runWithin o fuel w'

/-- Such an end is the end of the run. -/
theorem run_eq_of_runWithin {σ : Type} {s : Scan} {o : Observer σ} {fuel : Nat} {w : Walk σ}
    {result : Except ScanError Summary × σ} (h : s.runWithin o fuel w = some result) :
    s.run o w = result := by
  induction fuel generalizing w with
  | zero => cases h
  | succ fuel ih =>
    rw [runWithin] at h
    split at h
    · rename_i hstep
      cases h
      exact run_over hstep
    · rename_i hstep
      rw [run_on hstep]
      exact ih h

/-- So what is to be known of a closed run can be evaluated. -/
theorem map_run_of_runWithin {σ α : Type} (s : Scan) (o : Observer σ) {w : Walk σ}
    (g : Except ScanError Summary × σ → α) (fuel : Nat) {a : α}
    (h : (s.runWithin o fuel w).map g = some a) : g (s.run o w) = a := by
  obtain ⟨ending, hwithin, hending⟩ := Option.map_eq_some_iff.1 h
  rw [run_eq_of_runWithin hwithin, hending]

end Scan

/-! ### Detectors -/

namespace Detector

/-- The scan of the data that a location names. -/
def scan (d : Detector) (location : Location) : Scan := ⟨d.catalog, d.settings, location, none⟩

/-- The frame that such a scan begins with. -/
def start (d : Detector) (location : Location) (data : Window) : Frame :=
  .start data (.parse d.settings.pathSeparator location.subpath) ∅ 0 d.catalog

theorem detect_eq_run {σ : Type} (d : Detector) (location : String) (data : Window)
    (o : Observer σ) (st : σ) :
    d.detect location data o st
      = (d.scan (.parse location)).run o ⟨[d.start (.parse location) data], 0, 1, st⟩ := rfl

/-- What a collector without a limit is told of some data. -/
theorem detect_collector (d : Detector) (location : String) (data : Window) :
    ∃ summary : Summary, d.detect location data Collector.observer {}
      = (.ok summary, ⟨((d.scan (.parse location)).course (fun _ => false)
          (d.start (.parse location) data)).records.toArray, none⟩) := by
  obtain ⟨summary, hrun, -⟩ := Scan.run_start_collector (d.scan (.parse location)) data
    (.parse d.settings.pathSeparator (Location.parse location).subpath) none
  exact ⟨summary, hrun⟩

/-- The records that are reported to a collector without a limit. -/
def reported (d : Detector) (location : String) (data : Window) : List Record :=
  (d.detect location data Collector.observer {}).2.records.toList

theorem reported_eq_course (d : Detector) (location : String) (data : Window) :
    d.reported location data = ((d.scan (.parse location)).course (fun _ => false)
      (d.start (.parse location) data)).records := by
  obtain ⟨summary, hdetect⟩ := d.detect_collector location data
  rw [reported, hdetect]

/-- What is to be known of a scan of closed data can be evaluated. -/
theorem map_detect_of_runWithin {σ α : Type} (d : Detector) {text : String} {location : Location}
    (hparse : Location.parse text = location) {data : Window} (o : Observer σ) {st : σ}
    (g : Except ScanError Summary × σ → α) (fuel : Nat) {a : α}
    (h : ((d.scan location).runWithin o fuel ⟨[d.start location data], 0, 1, st⟩).map g = some a) :
    g (d.detect text data o st) = a := by
  rw [detect_eq_run, hparse]
  exact (d.scan location).map_run_of_runWithin o g fuel h

/-- Three bytes with a recording of a single frame behind them. -/
def shiftedRecording : Window :=
  .ofByteArray ⟨#[0, 0, 0, 0x59, 0x4d, 0x32, 0x21, 0, 0, 0, 0, 0, 0, 0, 0, 0, 0, 0, 0, 0, 0]⟩

end Detector

end Chiptune
