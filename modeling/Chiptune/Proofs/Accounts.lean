import Chiptune.Proofs.FrameSizes

namespace Chiptune

/-!
# The accounts of a scan

A scan counts a tune when it is taken, and a frame when it is put on the stack, long before the
frame is finished. Its observer hears of every archive that is opened and of every frame that is
finished. Books of what happens to containers tie the two together.

* `Observer.minuted` — any observer, with minutes of what it answered, heard and took;
* `Event` — what an observer hears of;
* `Scan.enters_of_step` — what one step enters in the books;
* `Scan.Books`, `Scan.books_of_steps` — the books balance at the start of every step;
* `Scan.books_balance` — so they do at the end, and nothing is left open then.
-/

variable {σ α : Type}

/-! ### Minutes -/

/-- What there is to say of an observer in a scan: how often it wanted to stop, the messages that it
    heard, the records that it took, and those that it refused. -/
structure Minutes where
  stops : Nat := 0
  messages : List String := []
  taken : List Record := []
  refused : List Record := []

/-- Whether no message was heard and no record taken between two minutes. -/
structure Minutes.Quiet (before after : Minutes) : Prop where
  messages : after.messages = before.messages
  taken : after.taken = before.taken

theorem Minutes.Quiet.trans {m m' m'' : Minutes} (h : m.Quiet m') (h' : m'.Quiet m'') :
    m.Quiet m'' :=
  ⟨h'.messages.trans h.messages, h'.taken.trans h.taken⟩

namespace Observer

/-- The observer with minutes beside its own state. -/
def minuted (o : Observer σ) : Observer (σ × Minutes) where
  skips st := o.skips st.1
  poll st :=
    let (stop, state) := o.poll st.1
    (stop, state, if stop then { st.2 with stops := st.2.stops + 1 } else st.2)
  log message st := (o.log message st.1, { st.2 with messages := st.2.messages ++ [message] })
  offer record st :=
    match o.offer record st.1 with
    | (none, state) => (none, state, { st.2 with taken := st.2.taken ++ [record] })
    | (some reason, state) =>
      (some reason, state, { st.2 with refused := st.2.refused ++ [record] })

/-- The minutes change nothing. -/
theorem maps_minuted (o : Observer σ) : Observer.Maps Prod.fst o.minuted o where
  skips _ := rfl
  poll _ := rfl
  log _ _ := rfl
  offer record st := by
    simp only [minuted]
    split <;> simp_all

/-- An observer that is asked whether to stop hears and takes nothing. -/
theorem quiet_poll (o : Observer σ) (st : σ × Minutes) :
    st.2.Quiet (o.minuted.poll st).2.2 := by
  simp only [minuted]
  split <;> exact ⟨rfl, rfl⟩

/-- The same goes for one that is asked while plugins are tried. -/
theorem quiet_firstOf (o : Observer σ) (attempt : Plugin → Option α) (plugins : List Plugin)
    (st : σ × Minutes) : st.2.Quiet (o.minuted.firstOf attempt plugins st).2.2 := by
  induction plugins generalizing st with
  | nil => exact ⟨rfl, rfl⟩
  | cons p rest ih =>
    have hpoll := o.quiet_poll st
    unfold firstOf
    simp only
    split
    · exact hpoll
    · split
      · exact hpoll
      · exact hpoll.trans (ih _)

theorem minutes_of_offer_none {o : Observer σ} {record : Record} {st st' : σ × Minutes}
    (h : o.minuted.offer record st = (none, st')) :
    st'.2 = { st.2 with taken := st.2.taken ++ [record] } := by
  simp only [minuted] at h
  split at h
  · cases h
    rfl
  · cases h

theorem minutes_of_offer_some {o : Observer σ} {record : Record} {reason : String}
    {st st' : σ × Minutes} (h : o.minuted.offer record st = (some reason, st')) :
    st'.2 = { st.2 with refused := st.2.refused ++ [record] } := by
  simp only [minuted] at h
  split at h
  · cases h
  · cases h
    rfl

end Observer

/-- Records that are offered are taken as they are counted, unless one is refused. -/
theorem Scan.minutes_offerEach {s : Scan} {o : Observer σ} {taken taken' : Nat}
    {records : List Record} {st st' : σ × Minutes} {refusal : Option String}
    (h : s.offerEach o.minuted taken records st = (taken', refusal, st')) :
    st'.2.messages = st.2.messages ∧ (refusal ≠ none → st'.2.refused ≠ [])
      ∧ ∃ offered, st'.2.taken = st.2.taken ++ offered ∧ taken' = taken + offered.length := by
  induction records generalizing taken st with
  | nil =>
    cases h
    exact ⟨rfl, fun hrefusal => absurd rfl hrefusal, [], (List.append_nil _).symm, rfl⟩
  | cons r rest ih =>
    have hpoll := o.quiet_poll st
    unfold offerEach at h
    simp only at h
    split at h
    · cases h
      refine ⟨hpoll.messages, fun hrefusal => absurd rfl hrefusal, [], ?_, rfl⟩
      exact hpoll.taken.trans (List.append_nil _).symm
    · split at h
      · split at h
        · -- The record is taken, and the rest is offered behind it.
          rename_i st₁ hoffer
          obtain ⟨hmessages, hrefused, offered, htaken, hcount⟩ := ih h
          rw [Observer.minutes_of_offer_none hoffer] at hmessages htaken
          refine ⟨hmessages.trans hpoll.messages, hrefused, r :: offered, ?_, ?_⟩
          · simp [htaken, hpoll.taken]
          · simp [hcount, Nat.add_assoc, Nat.add_comm 1]
        · rename_i reason st₁ hoffer
          cases h
          rw [Observer.minutes_of_offer_some hoffer]
          exact ⟨hpoll.messages, fun _ => by simp, [], by simp [hpoll.taken], rfl⟩
      · obtain ⟨hmessages, hrefused, offered, htaken, hcount⟩ := ih h
        rw [hpoll.messages] at hmessages
        rw [hpoll.taken] at htaken
        exact ⟨hmessages, hrefused, offered, htaken, hcount⟩

/-! ### Events -/

/-- The container of a frame as it was before its scan. -/
def Frame.anew (catalog : Catalog) (f : Frame) : Frame :=
  .start f.data f.path f.properties f.depth catalog

/-- What an observer hears of: at the offset of a frame an archive was opened, or a frame is
    finished. -/
inductive Event where
  | opened (f : Frame) (archive : Opened)
  | finished (f : Frame)

/-- Whether a message says that a frame is finished. -/
def isDoneMessage (message : String) : Bool :=
  "done '".toList.isPrefixOf message.toList && " bytes)".toList.isSuffixOf message.toList

theorem isDoneMessage_doneMessage (f : Frame) : isDoneMessage f.doneMessage = true := by
  let size := toString f.data.size
  have hmessage : f.doneMessage.toList = "done '".toList
      ++ (f.path.render.toList ++ "' (".toList ++ size.toList) ++ " bytes)".toList := by
    have hparts : f.doneMessage = "done '" ++ f.path.render ++ "' (" ++ size ++ " bytes)" := rfl
    simp only [hparts, String.toList_append, List.append_assoc]
  rw [isDoneMessage, Bool.and_eq_true, List.isPrefixOf_iff_prefix, List.isSuffixOf_iff_suffix,
    hmessage]
  exact ⟨(List.prefix_append ..).trans (List.prefix_append ..), List.suffix_append ..⟩

/-- Whatever the id of a plugin is, the end of the message tells. -/
theorem isDoneMessage_openedMessage (f : Frame) (opened : Opened) (kept : Nat) :
    isDoneMessage (Scan.openedMessage f opened kept) = false := by
  obtain ⟨before, hmessage⟩ : ∃ before : String,
      Scan.openedMessage f opened kept = before ++ " entries" := ⟨_, rfl⟩
  have hnot : ¬" bytes)".toList <:+ (Scan.openedMessage f opened kept).toList := by
    rintro ⟨others, hothers⟩
    have hlast := congrArg List.getLast? hothers
    simp [hmessage] at hlast
  rw [← List.isSuffixOf_iff_suffix, Bool.not_eq_true] at hnot
  rw [isDoneMessage, hnot, Bool.and_false]

namespace Event

/-- The frame that is on top of the stack. -/
def frame : Event → Frame
  | opened f _ => f
  | finished f => f

/-- Whether the archive is one that a plugin opens, or the frame is done. -/
def Holds (s : Scan) : Event → Prop
  | opened f archive => s.opensAt f.depth = true
      ∧ ∃ p ∈ s.catalog.archives, f.open? s.settings p = some archive
  | finished f => f.isDone = true

/-- What the observer hears. -/
def message (s : Scan) : Event → String
  | opened f archive => Scan.openedMessage f archive (s.children f archive).length
  | finished f => f.doneMessage

/-- The frames that begin: those of the entries that are kept of the archive. -/
def begun (s : Scan) : Event → List Frame
  | opened f archive => s.children f archive
  | finished _ => []

/-- The frames that end. -/
def ended : Event → List Frame
  | opened _ _ => []
  | finished f => [f]

/-- Every frame that ends is heard of as one that is done, and nothing else is. -/
theorem countP_isDoneMessage (s : Scan) (events : List Event) :
    (events.map (message s)).countP isDoneMessage = (events.flatMap ended).length := by
  induction events with
  | nil => rfl
  | cons e rest ih =>
    rw [List.map_cons, List.countP_cons, ih, List.flatMap_cons, List.length_append]
    cases e with
    | opened f archive =>
      rw [message, isDoneMessage_openedMessage]
      exact (Nat.zero_add _).symm
    | finished f =>
      rw [message, isDoneMessage_doneMessage]
      exact Nat.add_comm _ 1

end Event

/-! ### Steps -/

namespace Scan

/-- What a step enters in the books: the events at the frame on top. The observer hears of them and
    of nothing else; the frames that were there and those that begin are the ones that end and those
    that are there then; and counted are the frames that begin and the records that are taken. -/
structure Enters (s : Scan) (w w' : Walk (σ × Minutes)) (events : List Event) : Prop where
  holds : ∀ e ∈ events, e.Holds s ∧ ∃ below, w.stack = e.frame :: below
  messages : w'.observer.2.messages = w.observer.2.messages ++ events.map (Event.message s)
  containers : ((events.flatMap Event.ended ++ w'.stack).map (Frame.anew s.catalog)).Perm
    ((w.stack ++ events.flatMap (Event.begun s)).map (Frame.anew s.catalog))
  frames : w'.frames = w.frames + (events.flatMap (Event.begun s)).length
  taken : ∃ taken, w'.observer.2.taken = w.observer.2.taken ++ taken
    ∧ w'.modules = w.modules + taken.length

variable {s : Scan} {o : Observer σ} {w w' : Walk (σ × Minutes)} {f g : Frame}
  {below : List Frame}

theorem anew_advance (s : Scan) (skips : Plugin → Bool) (f : Frame) (claim : Nat) :
    (s.advance skips f claim).anew s.catalog = f.anew s.catalog := by
  simp only [advance, lookAhead]
  split <;> rfl

/-- The frames of entries are at their starts. -/
theorem map_anew_children (s : Scan) (f : Frame) (opened : Opened) :
    (s.children f opened).map (Frame.anew s.catalog) = s.children f opened := by
  rw [children, List.map_map]
  rfl

/-- A step without an event leaves the same containers on the stack. -/
theorem Enters.of_turn (hstack : w.stack = f :: below) (hstack' : w'.stack = g :: below)
    (hanew : g.anew s.catalog = f.anew s.catalog)
    (hmessages : w'.observer.2.messages = w.observer.2.messages) (hframes : w'.frames = w.frames)
    (htaken : ∃ taken, w'.observer.2.taken = w.observer.2.taken ++ taken
      ∧ w'.modules = w.modules + taken.length) : s.Enters w w' [] where
  holds := List.forall_mem_nil _
  messages := by simp [hmessages]
  containers := by simp [hstack, hstack', hanew]
  frames := hframes
  taken := htaken

theorem enters_archivesStep (hstack : w.stack = f :: below) {st : σ × Minutes}
    (hquiet : w.observer.2.Quiet st.2) :
    ∃ events, s.Enters w (s.archivesStep o.minuted { w with observer := st } f below) events := by
  obtain ⟨opened?, st', hattempt, hquiet', hopened⟩ : ∃ opened? st',
      (if s.opensAt f.depth then
        o.minuted.firstOf (f.open? s.settings) s.catalog.archives st
      else (none, st)) = (opened?, st') ∧ w.observer.2.Quiet st'.2
        ∧ ∀ opened, opened? = some opened → (Event.opened f opened).Holds s := by
    by_cases hopens : s.opensAt f.depth = true
    · rw [if_pos hopens]
      refine ⟨_, _, rfl, hquiet.trans (o.quiet_firstOf ..), fun opened hopened => ?_⟩
      exact ⟨hopens, Observer.exists_of_firstOf (Prod.ext hopened rfl)⟩
    · rw [if_neg hopens]
      exact ⟨_, _, rfl, hquiet, nofun⟩
  simp only [archivesStep, hattempt]
  cases opened? with
  | none =>
    refine ⟨[], .of_turn hstack rfl rfl hquiet'.messages rfl ⟨[], ?_, rfl⟩⟩
    exact hquiet'.taken.trans (List.append_nil _).symm
  | some opened =>
    refine ⟨[.opened f opened], ?_, ?_, ?_, ?_, [], ?_, rfl⟩
    · exact List.forall_mem_singleton.2 ⟨hopened opened rfl, below, hstack⟩
    · exact congrArg (· ++ [_]) hquiet'.messages
    · -- The frame stays, and those of the entries are on top of it.
      have hbehind : (f.behind opened).anew s.catalog = f.anew s.catalog := rfl
      simp only [hstack, Event.ended, Event.begun, List.flatMap_singleton, List.nil_append,
        List.map_append, List.map_cons, hbehind]
      exact List.perm_append_comm
    · simp [Event.begun]
    · exact hquiet'.taken.trans (List.append_nil _).symm

theorem enters_playersStep (hstack : w.stack = f :: below) {st : σ × Minutes}
    (hquiet : w.observer.2.Quiet st.2) {claim : Nat}
    (h : s.playersStep o.minuted { w with observer := st } f below claim = .on w') :
    s.Enters w w' [] := by
  have hquiet' := hquiet.trans (o.quiet_firstOf f.find? s.catalog.players st)
  unfold playersStep at h
  split at h
  · rename_i st' hfirst
    cases h
    rw [hfirst] at hquiet'
    refine .of_turn hstack rfl (s.anew_advance ..) hquiet'.messages rfl ⟨[], ?_, rfl⟩
    exact hquiet'.taken.trans (List.append_nil _).symm
  · rename_i found st' hfirst
    rw [hfirst] at hquiet'
    split at h
    · cases h
    · rename_i taken st'' hoffer
      cases h
      obtain ⟨hmessages, -, offered, htaken, hcount⟩ := minutes_offerEach hoffer
      refine .of_turn hstack rfl (s.anew_advance ..) (hmessages.trans hquiet'.messages) rfl
        ⟨offered, ?_, ?_⟩
      · rw [htaken, hquiet'.taken]
      · simp [hcount]

/-- **One step** makes an entry in the books, whoever listens. -/
theorem enters_of_step (h : s.step o.minuted w = .on w') : ∃ events, s.Enters w w' events := by
  have hquiet := o.quiet_poll w.observer
  unfold step at h
  split at h
  · cases h
  · rename_i f below hstack
    simp only at h
    split at h
    · cases h
    · split at h
      · rename_i hdone
        cases h
        refine ⟨[.finished f], ?_, ?_, ?_, rfl, [], ?_, rfl⟩
        · exact List.forall_mem_singleton.2 ⟨hdone, below, hstack⟩
        · exact congrArg (· ++ [_]) hquiet.messages
        · simp [hstack, Event.ended, Event.begun]
        · exact hquiet.taken.trans (List.append_nil _).symm
      · split at h
        · cases h
          exact enters_archivesStep hstack hquiet
        · exact ⟨[], enters_playersStep hstack hquiet h⟩

/-! ### The books -/

/-- The books of a scan at some point of it: all events so far, each of them at the frame on top of
    a stack that the scan can come to. They balance: the containers that are finished and those on
    the stack are the data itself and the entries that were kept, each of them once, and the numbers
    of frames and tunes are right. -/
structure Books (s : Scan) (data : Window) (root : TunePath) (w : Walk (σ × Minutes))
    (events : List Event) : Prop where
  holds : ∀ e ∈ events, e.Holds s ∧ ∃ below, s.Reaches data root (e.frame :: below)
  messages : w.observer.2.messages = events.map (Event.message s)
  containers : ((events.flatMap Event.ended ++ w.stack).map (Frame.anew s.catalog)).Perm
    (.start data root ∅ 0 s.catalog :: events.flatMap (Event.begun s))
  frames : w.frames = 1 + (events.map fun e => (e.begun s).length).sum
  modules : w.modules = w.observer.2.taken.length

variable {data : Window} {root : TunePath} {events entered : List Event}

theorem Books.start (s : Scan) (data : Window) (root : TunePath) (st : σ) :
    s.Books data root (.start s.catalog data root (st, {})) [] where
  holds := List.forall_mem_nil _
  messages := rfl
  containers := List.Perm.refl _
  frames := rfl
  modules := rfl

theorem map_anew_begun (s : Scan) (events : List Event) :
    (events.flatMap (Event.begun s)).map (Frame.anew s.catalog)
      = events.flatMap (Event.begun s) := by
  rw [List.map_flatMap]
  congr 1
  funext e
  cases e with
  | opened f archive => exact s.map_anew_children f archive
  | finished f => rfl

/-- What a step enters keeps the books in balance. -/
theorem Books.next (h : s.Books data root w events) (hreaches : s.Reaches data root w.stack)
    (henters : s.Enters w w' entered) : s.Books data root w' (events ++ entered) where
  holds e he := by
    rcases List.mem_append.1 he with he | he
    · exact h.holds e he
    · obtain ⟨hholds, below, hstack⟩ := henters.holds e he
      exact ⟨hholds, below, hstack ▸ hreaches⟩
  messages := by rw [henters.messages, h.messages, List.map_append]
  containers := by
    -- The containers of the step stand behind those that were finished before.
    have hstep := henters.containers.append_left
      ((events.flatMap Event.ended).map (Frame.anew s.catalog))
    have hbefore := h.containers.append_right (entered.flatMap (Event.begun s))
    simp only [List.map_append, List.flatMap_append, List.append_assoc, map_anew_begun]
      at hstep hbefore ⊢
    exact hstep.trans hbefore
  frames := by
    rw [henters.frames, h.frames, List.length_flatMap, List.map_append, List.sum_append,
      Nat.add_assoc]
  modules := by
    obtain ⟨taken, htaken, hmodules⟩ := henters.taken
    rw [hmodules, h.modules, htaken, List.length_append]

/-- The books balance at the start of every step, whoever listens. -/
theorem books_of_steps {st : σ} (h : Relation.ReflTransGen (fun w w' => s.step o.minuted w = .on w')
    (.start s.catalog data root (st, {})) w) : ∃ events, s.Books data root w events := by
  induction h with
  | refl => exact ⟨[], .start ..⟩
  | tail hsteps hstep ih =>
    obtain ⟨events, hbooks⟩ := ih
    obtain ⟨entered, henters⟩ := enters_of_step hstep
    exact ⟨_, hbooks.next (reaches_of_steps hsteps) henters⟩

/-- As many frames are counted as were heard to be finished or are still on the stack. -/
theorem Books.finished_add_height (h : s.Books data root w events) :
    w.observer.2.messages.countP isDoneMessage + w.stack.length = w.frames := by
  have hlength := h.containers.length_eq
  rw [List.length_map, List.length_append, List.length_cons] at hlength
  rw [h.messages, Event.countP_isDoneMessage, h.frames, ← List.length_flatMap]
  omega

/-! ### Ends -/

/-- The last step of a scan enters nothing. It is one with an empty stack, one at which the observer
    wants to stop, or one at which it refuses a record. -/
theorem minutes_of_over {result : Except ScanError Summary} {st : σ × Minutes}
    (h : s.step o.minuted w = .over result st) :
    (∃ cancelled, result = .ok ⟨w.modules, w.frames, cancelled⟩ ∧ w.observer.2.Quiet st.2
      ∧ (cancelled = true → st.2.stops ≠ 0) ∧ (cancelled = false → w.stack = []))
    ∨ (∃ error, result = .error error) ∧ st.2.refused ≠ [] := by
  have hquiet := o.quiet_poll w.observer
  unfold step at h
  split at h
  · rename_i hstack
    cases h
    exact .inl ⟨false, rfl, ⟨rfl, rfl⟩, nofun, fun _ => hstack⟩
  · simp only at h
    split at h
    · rename_i hstop
      cases h
      refine .inl ⟨true, rfl, hquiet, fun _ => ?_, nofun⟩
      have hpoll : (o.poll w.observer.1).1 = true := hstop
      simp [Observer.minuted, hpoll]
    · split at h
      · cases h
      · split at h
        · cases h
        · unfold playersStep at h
          split at h
          · cases h
          · split at h
            · rename_i taken reason st' hoffer
              cases h
              exact .inr ⟨⟨_, rfl⟩, (minutes_offerEach hoffer).2.1 nofun⟩
            · cases h

theorem exists_over_of_run (s : Scan) (o : Observer σ) (w : Walk σ) :
    ∃ w', Relation.ReflTransGen (fun w w' => s.step o w = .on w') w w'
      ∧ s.step o w' = .over (s.run o w).1 (s.run o w).2 := by
  induction w using Scan.run.induct s o with
  | case1 w result st hstep => exact ⟨w, .refl, by rw [run_over hstep, hstep]⟩
  | case2 w w' hstep ih =>
    obtain ⟨last, hsteps, hover⟩ := ih
    exact ⟨last, .head hstep hsteps, by rw [run_on hstep, hover]⟩

/-- **The books balance.** Whoever listens to a scan, at the start of every step the frames that
    were heard to be finished and those on the stack make up the number of frames, and the number of
    tunes is that of the records that were taken. A scan whose observer neither wants to stop nor
    refuses a record ends without a failure and is not cancelled. When it ends so, the data itself
    and all entries that were kept of the archives were finished, each of them once, and the summary
    has their number; the observer heard of nothing else. -/
theorem books_balance (s : Scan) (o : Observer σ) (data : Window) (root : TunePath) (st : σ) :
    let start : Walk (σ × Minutes) := .start s.catalog data root (st, {})
    let ending := s.run o.minuted start
    let minutes := ending.2.2
    s.run o (.start s.catalog data root st) = (ending.1, ending.2.1)
    ∧ (∀ w, Relation.ReflTransGen (fun w w' => s.step o.minuted w = .on w') start w →
        (∃ events, s.Books data root w events)
        ∧ w.observer.2.messages.countP isDoneMessage + w.stack.length = w.frames
        ∧ w.modules = w.observer.2.taken.length)
    ∧ (minutes.stops = 0 → minutes.refused = [] →
        ∃ summary : Summary, ending.1 = .ok summary ∧ summary.cancelled = false)
    ∧ ∀ summary, ending.1 = .ok summary → summary.modules = minutes.taken.length
        ∧ (summary.cancelled = false → ∃ events : List Event,
          (∀ e ∈ events, e.Holds s ∧ ∃ below, s.Reaches data root (e.frame :: below))
          ∧ minutes.messages = events.map (Event.message s)
          ∧ ((events.flatMap Event.ended).map (Frame.anew s.catalog)).Perm
            (.start data root ∅ 0 s.catalog :: events.flatMap (Event.begun s))
          ∧ minutes.messages.countP isDoneMessage = summary.frames
          ∧ summary.frames = 1 + (events.map fun e => (e.begun s).length).sum) := by
  intro start ending minutes
  obtain ⟨w, hsteps, hover⟩ := s.exists_over_of_run o.minuted start
  obtain ⟨events, hbooks⟩ := books_of_steps hsteps
  have hlast := minutes_of_over hover
  refine ⟨s.run_map o.maps_minuted start, fun w hsteps => ?_, fun hstops hrefused => ?_,
    fun summary hsummary => ?_⟩
  · obtain ⟨events, hbooks⟩ := books_of_steps hsteps
    exact ⟨⟨events, hbooks⟩, hbooks.finished_add_height, hbooks.modules⟩
  · rcases hlast with ⟨cancelled, hresult, -, hcancelled, -⟩ | ⟨-, hrefused'⟩
    · refine ⟨_, hresult, ?_⟩
      rw [← Bool.not_eq_true]
      exact fun htrue => hcancelled htrue hstops
    · exact absurd hrefused hrefused'
  · rcases hlast with ⟨cancelled, hresult, hquiet, -, hstack⟩ | ⟨⟨error, herror⟩, -⟩
    · obtain rfl : summary = ⟨w.modules, w.frames, cancelled⟩ :=
        Except.ok.inj (hsummary.symm.trans hresult)
      have hmessages : minutes.messages = w.observer.2.messages := hquiet.messages
      have htaken : minutes.taken = w.observer.2.taken := hquiet.taken
      refine ⟨htaken ▸ hbooks.modules, fun hcancelled => ?_⟩
      have hnil := hstack hcancelled
      have hcontainers := hbooks.containers
      have hfinished := hbooks.finished_add_height
      rw [hnil, List.append_nil] at hcontainers
      rw [hnil, List.length_nil, Nat.add_zero] at hfinished
      exact ⟨events, hbooks.holds, hmessages.trans hbooks.messages, hcontainers,
        hmessages ▸ hfinished, hbooks.frames⟩
    · rw [show ending.1 = _ from herror] at hsummary
      cases hsummary

/-- The packed recording of 24 bytes is one of two frames, and the 42 bytes that it unpacks to are
    the other. They are both on the stack after the first step, and both are finished at the end. -/
theorem books_balance_in_packedRecording :
    let s : Scan := (⟨.builtin, {}⟩ : Detector).scan ⟨"a", ""⟩
    let start : Walk (Collector × Minutes) :=
      .start s.catalog Detector.packedRecording (.empty '/') ({}, {})
    let ending := s.run Collector.observer.minuted start
    ending.2.2.stops = 0 ∧ ending.2.2.refused = []
      ∧ ending.1 = .ok ⟨1, 2, false⟩
      ∧ ending.2.2.messages
        = ["ICE at '': 1 of 1 entries", "done '' (42 bytes)", "done '' (24 bytes)"]
      ∧ ending.2.2.messages.countP isDoneMessage = 2 ∧ ending.2.2.taken.length = 1
      ∧ ∃ w, s.step Collector.observer.minuted start = .on w ∧ w.stack.length = 2
        ∧ w.observer.2.messages.countP isDoneMessage + w.stack.length = w.frames := by
  intro s start ending
  obtain ⟨-, hpoints, hcalm, hends⟩ :=
    s.books_balance Collector.observer Detector.packedRecording (.empty '/') {}
  -- The scan is run for its minutes, and its first step for the point behind it.
  have hrun : (s.runWithin Collector.observer.minuted 60 start).map
      (fun r => (r.1, r.2.2.stops, r.2.2.refused.length, r.2.2.messages))
        = some (.ok ⟨1, 2, false⟩, 0, 0,
          ["ICE at '': 1 of 1 entries", "done '' (42 bytes)", "done '' (24 bytes)"]) := by
    decide +kernel
  obtain ⟨⟨result, collector, minutes⟩, hwithin, hvalues⟩ := Option.map_eq_some_iff.1 hrun
  have hending : ending = (result, collector, minutes) := run_eq_of_runWithin hwithin
  simp only [Prod.mk.injEq] at hvalues
  obtain ⟨hresult, hstops, hrefused, hmessages⟩ := hvalues
  have hrefused := List.eq_nil_of_length_eq_zero hrefused
  rw [show s.run Collector.observer.minuted start = _ from hending] at hcalm hends
  obtain ⟨summary, hsummary, hcancelled⟩ := hcalm hstops hrefused
  obtain ⟨hmodules, hfinished⟩ := hends summary hsummary
  obtain ⟨events, -, -, -, hcount, -⟩ := hfinished hcancelled
  obtain rfl : summary = ⟨1, 2, false⟩ := Except.ok.inj (hsummary.symm.trans hresult)
  have hfirst : (match s.step Collector.observer.minuted start with
      | .on w => w.stack.length
      | .over .. => 0) = 2 := by
    decide +kernel
  rw [hending]
  refine ⟨hstops, hrefused, hresult, hmessages, hcount, hmodules.symm, ?_⟩
  rcases hstep : s.step Collector.observer.minuted start with w | ⟨result, st⟩
  · rw [hstep] at hfirst
    exact ⟨w, rfl, hfirst, (hpoints w (.single hstep)).2.1⟩
  · rw [hstep] at hfirst
    cases hfirst

end Scan

end Chiptune
