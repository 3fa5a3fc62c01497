import Chiptune.Proofs.BackwardWriting

namespace Chiptune.Ice

/-!
# Packed data reads no output but its own

Unpacking fills an output from its end to its start, and copies bytes from above the place where it
writes. So it never sees what the output held before. What it does not read of the packed stream,
between the header and the bytes that it takes, does not matter either.

* `Ice.Logged` — computations with a log of their accesses to the output, which a failure keeps;
* `Ice.Logged.depackInto` — unpacking, logged;
* `Ice.Descent` — accesses that write downwards and read above, which every step keeps;
* `Ice.Logged.follows_depackInto` — the accesses of unpacking are such, and log or not it gives the
  same;
* `Ice.depack_reads_own_output` — what follows for the unpacked bytes.
-/

/-! ### Accesses -/

/-- An access to a place of the output. -/
inductive Access where
  | read (place : Nat)
  | write (place : Nat)
deriving DecidableEq, Repr

/-- The place that is written to. -/
def Access.written? : Access → Option Nat
  | .read _ => none
  | .write place => some place

/-- Whether no place is read before it is written. -/
def ReadsWritten (log : List Access) : Prop :=
  ∀ before place after, log = before ++ .read place :: after → .write place ∈ before

/-- Accesses to an output of `size` bytes, where nothing below `place` has been written yet: they
    write one byte below the other until `next`, and read bytes that have been written. -/
inductive Descent (size : Nat) : (place next : Nat) → List Access → Prop where
  | done (place : Nat) : Descent size place place []
  | write {place next : Nat} {log : List Access} (rest : Descent size place next log) :
      Descent size (place + 1) next (.write place :: log)
  | read {place next source : Nat} {log : List Access} (above : place ≤ source)
      (inside : source < size) (rest : Descent size place next log) :
      Descent size place next (.read source :: log)

namespace Descent

variable {size place next stop : Nat} {log rest : List Access}

theorem append (h : Descent size place next log) (hrest : Descent size next stop rest) :
    Descent size place stop (log ++ rest) := by
  induction h with
  | done => exact hrest
  | write _ ih => exact .write (ih hrest)
  | read above inside _ ih => exact .read above inside (ih hrest)

theorem le (h : Descent size place next log) : next ≤ place := by
  induction h with
  | done => exact Nat.le_refl _
  | write _ ih => exact Nat.le_succ_of_le ih
  | read _ _ _ ih => exact ih

/-- Each byte between the two places is written once, the highest one first. -/
theorem written (h : Descent size place next log) :
    log.filterMap Access.written? = (List.range' next (place - next)).reverse := by
  induction h with
  | done => simp
  | @write place next log hrest ih =>
    have hle := hrest.le
    have hcount : place + 1 - next = place - next + 1 := by omega
    have hlast : next + 1 * (place - next) = place := by omega
    have hhead : Access.written? (.write place) = some place := rfl
    rw [List.filterMap_cons_some hhead, ih, hcount, List.range'_concat, hlast, List.reverse_concat]
  | @read _ _ source _ _ _ _ ih =>
    have hhead : Access.written? (.read source) = none := rfl
    rw [List.filterMap_cons_none hhead, ih]

/-- A byte that is read was written by one of the accesses before, or before all of them. -/
theorem write_mem {before after : List Access} {source : Nat}
    (h : Descent size place next (before ++ .read source :: after)) :
    source < size ∧ (place ≤ source ∨ .write source ∈ before) := by
  induction before generalizing place with
  | nil =>
    cases h with
    | read above inside _ => exact ⟨inside, .inl above⟩
  | cons access before ih =>
    cases h with
    | @write place _ _ hrest =>
      -- The first access writes the place that those behind it find written.
      obtain ⟨hlt, hwritten⟩ := ih hrest
      refine ⟨hlt, ?_⟩
      rcases hwritten with habove | hmem
      · rcases Nat.eq_or_lt_of_le habove with rfl | habove
        · exact .inr List.mem_cons_self
        · exact .inl habove
      · exact .inr (List.mem_cons_of_mem _ hmem)
    | read _ _ hrest =>
      obtain ⟨hlt, hwritten⟩ := ih hrest
      exact ⟨hlt, hwritten.imp_right (List.mem_cons_of_mem _)⟩

/-- Where nothing was written before, all that is read was written. -/
theorem readsWritten (h : Descent size size next log) : ReadsWritten log := by
  rintro before place after rfl
  obtain ⟨hlt, habove | hmem⟩ := h.write_mem
  · omega
  · exact hmem

end Descent

/-! ### Logged computations -/

/-- A computation and the accesses to the output that it makes, up to its end or its failure. -/
structure Logged (α : Type) where
  result : Except UnpackError α
  accesses : List Access

namespace Logged

instance : Monad Logged where
  pure a := ⟨.ok a, []⟩
  bind x f :=
    match x.result with
    | .ok a => ⟨(f a).result, x.accesses ++ (f a).accesses⟩
    | .error reason => ⟨.error reason, x.accesses⟩

/-- A computation without an access. -/
def aside {α : Type} (x : Except UnpackError α) : Logged α := ⟨x, []⟩

/-- Read a byte of the output. -/
def read (output : ByteArray) (place : Nat) (h : place < output.size) : Logged UInt8 :=
  ⟨.ok output[place], [.read place]⟩

/-- Write a byte of the output. -/
def write (output : ByteArray) (place : Nat) (b : UInt8) : Logged ByteArray :=
  ⟨.ok (output.set! place b), [.write place]⟩

/-- `Ice.copyLiteral`, logged. -/
def copyLiteral : (count place : Nat) → ByteArray → BitReader → Logged (ByteArray × BitReader)
  | 0, _, output, r => return (output, r)
  | count + 1, place, output, r => do
    let (b, r) ← aside r.byte
    let output ← write output (place - 1) b
    copyLiteral count (place - 1) output r

/-- `Ice.copyMatch`, logged. -/
def copyMatch (distance : Nat) : (count place source : Nat) → ByteArray → Logged ByteArray
  | 0, _, _, output => return output
  | count + 1, place, source, output =>
    if h : source < output.size then do
      let b ← read output source h
      let output ← write output (place - 1) b
      copyMatch distance count (place - 1) (source - 1) output
    else aside (.error (.strayReference distance))

/-- `Ice.fill`, logged. -/
def fill (place : Nat) (output : ByteArray) (r : BitReader) : Logged ByteArray := do
  if place = 0 then return output
  let (literal, r) ← aside r.bit
  if literal then
    let (length, r) ← aside (literalLength literalSteps r)
    let count := min length place
    let (output, r) ← copyLiteral count place output r
    if place - count = 0 then return output
    let (extra, distance, r) ← aside (matchCode r)
    let size := min (extra + 2) (place - count)
    let output ← copyMatch distance size (place - count) (place - count + distance) output
    fill (place - count - size) output r
  else
    let (extra, distance, r) ← aside (matchCode r)
    let size := min (extra + 2) place
    let output ← copyMatch distance size place (place + distance) output
    fill (place - size) output r
termination_by place
decreasing_by all_goals omega

/-- `Ice.depackInto`, logged. -/
def depackInto (output : ByteArray) (data : Window) : Logged ByteArray := do
  let r ← aside (BitReader.start data)
  fill output.size output r

/-! ### Accesses of each step -/

/-- Whether a logged computation gives the same as `y`, and its accesses descend from `place`, when
    it succeeds to `stop`. -/
structure Follows {α : Type} (size place stop : Nat) (x : Logged α) (y : Except UnpackError α) :
    Prop where
  result : x.result = y
  accesses : ∃ next, Descent size place next x.accesses ∧ (x.result.isOk → next = stop)

section Follows

variable {α β : Type} {size place next stop : Nat} {x : Logged α} {y : Except UnpackError α}

theorem Follows.bind {f : α → Logged β} {g : α → Except UnpackError β}
    (h : Follows size place next x y)
    (hnext : ∀ a, y = .ok a → Follows size next stop (f a) (g a)) :
    Follows size place stop (x >>= f) (y >>= g) := by
  obtain ⟨result, accesses⟩ := x
  obtain ⟨rfl, reached, hdescent, hreached⟩ := h
  cases result with
  | error reason => exact ⟨rfl, reached, hdescent, fun hok => by cases hok⟩
  | ok a =>
    obtain rfl : reached = next := hreached rfl
    obtain ⟨hresult, last, hrest, hlast⟩ := hnext a rfl
    exact ⟨hresult, last, hdescent.append hrest, hlast⟩

/-- The rule for a step that is none of the other computation. -/
theorem Follows.step {a : α} {f : α → Logged β} {z : Except UnpackError β}
    (h : Follows size place next x (.ok a)) (hnext : Follows size next stop (f a) z) :
    Follows size place stop (x >>= f) z :=
  h.bind (g := fun _ => z) fun _ heq => Except.ok.inj heq ▸ hnext

theorem follows_aside (y : Except UnpackError α) : Follows size place place (aside y) y :=
  ⟨rfl, place, .done place, fun _ => rfl⟩

theorem follows_pure (a : α) : Follows size place place (pure a : Logged α) (.ok a) :=
  follows_aside (.ok a)

theorem follows_write (output : ByteArray) (b : UInt8) (hpos : 0 < place) :
    Follows size place (place - 1) (write output (place - 1) b)
      (.ok (output.set! (place - 1) b)) := by
  obtain ⟨below, rfl⟩ := Nat.exists_eq_add_one_of_ne_zero (Nat.ne_of_gt hpos)
  exact ⟨rfl, below, .write (.done below), fun _ => rfl⟩

theorem follows_read {output : ByteArray} {source : Nat} (h : source < output.size)
    (habove : place ≤ source) :
    Follows output.size place place (read output source h) (.ok output[source]) :=
  ⟨rfl, place, .read habove h (.done place), fun _ => rfl⟩

end Follows

variable {place : Nat} {output : ByteArray} {r : BitReader}

theorem follows_copyLiteral {size count : Nat} (hcount : count ≤ place) :
    Follows size place (place - count) (copyLiteral count place output r)
      (Ice.copyLiteral count place output r) := by
  induction count generalizing place output r with
  | zero => exact follows_pure _
  | succ count ih =>
    apply (follows_aside r.byte).bind
    rintro ⟨b, r⟩ -
    have hrest : Follows size (place - 1) (place - 1 - count)
        (copyLiteral count (place - 1) (output.set! (place - 1) b) r) _ := ih (by omega)
    rw [Nat.sub_sub, Nat.add_comm 1] at hrest
    exact (follows_write output b (by omega)).step hrest

/-- What is read lies above what is written, by the distance of the copy. -/
theorem follows_copyMatch {distance count source : Nat} (hcount : count ≤ place)
    (habove : place ≤ source) :
    Follows output.size place (place - count) (copyMatch distance count place source output)
      (Ice.copyMatch distance count place source output) := by
  induction count generalizing place source output with
  | zero => exact follows_pure _
  | succ count ih =>
    rw [copyMatch, Ice.copyMatch]
    by_cases hlt : source < output.size
    · rw [dif_pos hlt, dif_pos hlt]
      have hrest : Follows _ (place - 1) (place - 1 - count)
          (copyMatch distance count (place - 1) (source - 1)
            (output.set! (place - 1) output[source])) _ := ih (by omega) (by omega)
      rw [Nat.sub_sub, Nat.add_comm 1, ByteArray.size_set!] at hrest
      exact (follows_read hlt habove).step ((follows_write output _ (by omega)).step hrest)
    · -- Nothing is read outside the output.
      rw [dif_neg hlt, dif_neg hlt]
      exact ⟨rfl, place, .done place, fun hok => by cases hok⟩

/-- The match of a round, and the rounds behind it. -/
theorem follows_match (hpos : 0 < place)
    (hfill : ∀ {next : Nat} {copied : ByteArray} {r : BitReader}, next < place →
      copied.size = output.size →
      Follows output.size next 0 (fill next copied r) (Ice.fill next copied r)) :
    Follows output.size place 0
      (do
        let (extra, distance, r) ← aside (matchCode r)
        let size := min (extra + 2) place
        let output ← copyMatch distance size place (place + distance) output
        fill (place - size) output r)
      (do
        let (extra, distance, r) ← matchCode r
        let size := min (extra + 2) place
        let output ← Ice.copyMatch distance size place (place + distance) output
        Ice.fill (place - size) output r) := by
  apply (follows_aside (matchCode r)).bind
  rintro ⟨extra, distance, r⟩ -
  apply (follows_copyMatch (Nat.min_le_right ..) (Nat.le_add_right place distance)).bind
  intro copied hcopied
  exact hfill (by omega) (size_copyMatch hcopied)

theorem follows_fill : Follows output.size place 0 (fill place output r)
    (Ice.fill place output r) := by
  -- What is left to write shrinks with every round.
  induction place using Nat.strongRecOn generalizing output r with
  | ind place ih =>
    have hfill : ∀ {next : Nat} {copied : ByteArray} {r : BitReader}, next < place →
        copied.size = output.size →
        Follows output.size next 0 (fill next copied r) (Ice.fill next copied r) :=
      fun hnext hsize => hsize ▸ ih _ hnext
    rw [fill, Ice.fill]
    by_cases hplace : place = 0
    · subst hplace
      exact follows_pure output
    · rw [if_neg hplace, if_neg hplace]
      apply (follows_aside r.bit).bind
      rintro ⟨literal, r⟩ -
      cases literal with
      | false => exact follows_match (Nat.pos_of_ne_zero hplace) hfill
      | true =>
        apply (follows_aside (literalLength literalSteps r)).bind
        rintro ⟨length, r⟩ -
        apply (follows_copyLiteral (Nat.min_le_right length place)).bind
        rintro ⟨copied, r⟩ hcopied
        have hsize := size_copyLiteral hcopied
        dsimp only
        by_cases hdone : place - min length place = 0
        · rw [if_pos hdone, if_pos hdone, hdone]
          exact follows_pure copied
        · rw [if_neg hdone, if_neg hdone, ← hsize]
          exact follows_match (Nat.pos_of_ne_zero hdone) fun hnext hnextSize =>
            hsize ▸ hfill (by omega) (hnextSize.trans hsize)

/-- **Accesses of unpacking.** Logged or not, unpacking gives the same, and its accesses descend
    from the end of the output. -/
theorem follows_depackInto (output : ByteArray) (data : Window) :
    Follows output.size output.size 0 (depackInto output data) (Ice.depackInto output data) := by
  apply (follows_aside (BitReader.start data)).bind
  intro r _
  exact follows_fill

/-- No run reads what the output held before, not even one that fails. -/
theorem readsWritten_depackInto (output : ByteArray) (data : Window) :
    ReadsWritten (depackInto output data).accesses := by
  obtain ⟨-, next, hdescent, -⟩ := follows_depackInto output data
  exact hdescent.readsWritten

/-- The copy of two literal bytes reads each of them before it writes below. -/
example :
    (depackInto ⟨#[0, 0, 0, 0]⟩ (.ofByteArray
      ⟨#[0, 0, 0, 0, 0, 0, 0, 0, 0, 0, 0, 0, 0x01, 0x41, 0x42, 0xC8]⟩)).accesses
      = [.write 3, .write 2, .read 3, .write 1, .read 2, .write 0] := by
  decide +kernel

end Logged

/-! ### What the unpacked bytes depend on -/

/-- **Unpacking reads no output but its own.** When packed data unpacks, it does so to as many bytes
    as are asked for, and to the same ones with any bytes between the header and the stream. What
    the output held before does not matter: each byte of it is written once, from the last to the
    first, and none is read before. -/
theorem depack_reads_own_output {size : Nat} {w w' : Window} {header junk stream : List UInt8}
    {unpacked : ByteArray} (hheader : header.length = headerSize)
    (hw : w.toList = header ++ stream) (hw' : w'.toList = header ++ (junk ++ stream))
    (h : depack w size = .ok unpacked) :
    unpacked.size = size ∧ depack w' size = .ok unpacked
    ∧ ∀ output : ByteArray, output.size = size →
        depackInto output w = .ok unpacked
        ∧ ∃ log, Logged.depackInto output w = ⟨.ok unpacked, log⟩
          ∧ log.filterMap Access.written? = (List.range size).reverse
          ∧ ReadsWritten log := by
  have hinto : ∀ output : ByteArray, output.size = size → depackInto output w = .ok unpacked := by
    intro output houtput
    rw [depackInto_eq output hw hheader, houtput, ← depack_eq_map size hw hheader, h]
  refine ⟨size_depack h, ?_, fun output houtput => ⟨hinto output houtput, ?_⟩⟩
  · -- Turned round, the bytes between come last, and the decoder did not get there.
    have hne : Forward.decode size stream.reverse ≠ .error .exhausted := by
      intro hexhausted
      rw [depack_eq_map size hw hheader, hexhausted] at h
      cases h
    rw [depack_eq_map size hw' hheader, List.reverse_append, Forward.decode_append hne,
      ← depack_eq_map size hw hheader, h]
  · obtain ⟨hresult, next, hdescent, hnext⟩ := Logged.follows_depackInto output w
    rw [hinto output houtput] at hresult
    rw [houtput, hnext (by rw [hresult]; rfl)] at hdescent
    refine ⟨(Logged.depackInto output w).accesses, ?_, ?_, Logged.readsWritten_depackInto output w⟩
    · rw [← hresult]
    · rw [hdescent.written, Nat.sub_zero, List.range_eq_range']

/-- A run of two literal bytes and a copy of them, with two bytes before the stream, and into an
    output that held other bytes. -/
theorem depack_reads_own_output_literalAndCopy :
    depack (.ofByteArray
          ⟨#[0, 0, 0, 0, 0, 0, 0, 0, 0, 0, 0, 0, 0xFF, 0x80, 0x01, 0x41, 0x42, 0xC8]⟩) 4
        = .ok ⟨#[0x41, 0x42, 0x41, 0x42]⟩
      ∧ depackInto ⟨#[0x90, 0x91, 0x92, 0x93]⟩ (.ofByteArray
          ⟨#[0, 0, 0, 0, 0, 0, 0, 0, 0, 0, 0, 0, 0x01, 0x41, 0x42, 0xC8]⟩)
        = .ok ⟨#[0x41, 0x42, 0x41, 0x42]⟩ := by
  have hw : (Window.ofByteArray
      ⟨#[0, 0, 0, 0, 0, 0, 0, 0, 0, 0, 0, 0, 0x01, 0x41, 0x42, 0xC8]⟩).toList
        = List.replicate 12 0 ++ [0x01, 0x41, 0x42, 0xC8] := by
    decide +kernel
  have hw' : (Window.ofByteArray
      ⟨#[0, 0, 0, 0, 0, 0, 0, 0, 0, 0, 0, 0, 0xFF, 0x80, 0x01, 0x41, 0x42, 0xC8]⟩).toList
        = List.replicate 12 0 ++ ([0xFF, 0x80] ++ [0x01, 0x41, 0x42, 0xC8]) := by
    decide +kernel
  obtain ⟨-, hjunk, hinto⟩ := depack_reads_own_output rfl hw hw'
    (show depack _ 4 = .ok ⟨#[0x41, 0x42, 0x41, 0x42]⟩ by decide +kernel)
  exact ⟨hjunk, (hinto _ rfl).1⟩

end Chiptune.Ice
