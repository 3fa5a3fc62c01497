import Chiptune.Proofs.Agreement
import Mathlib.Algebra.GroupWithZero.Nat
import Mathlib.Data.List.Basic

namespace Chiptune

/-!
# How far AY files reach

The extent of an AY file is found on the way through its structures. A file that is cut off at its
extent is read in the same way, as every structure lies before the extent. There is one exception: a
block without bytes needs a place inside the file, but its place does not count for the extent.

* `valueBE_lt`, `valueLE_lt` — the value of `n` bytes is below `256 ^ n`;
* `Ay.Reader.Reads` — a reading of a file, and how it goes once the file is cut off;
* `Ay.HasEmptyBlock` — the places of blocks without bytes;
* `Ay.parse_extent_iff` — a file can be cut off at its extent exactly when no block without
  bytes begins there.
-/

/-! ### Numbers in bytes -/

theorem valueLE_cons (b : UInt8) (bytes : List UInt8) :
    valueLE (b :: bytes) = b.toNat + 256 * valueLE bytes := rfl

theorem valueLE_lt (bytes : List UInt8) : valueLE bytes < 256 ^ bytes.length := by
  induction bytes with
  | nil => exact Nat.one_pos
  | cons b rest ih =>
    rw [valueLE_cons, List.length_cons, Nat.pow_succ]
    have := b.toNat_lt
    omega

/-- The two orders differ by reversing the bytes. -/
theorem valueBE_eq_valueLE_reverse (bytes : List UInt8) : valueBE bytes = valueLE bytes.reverse := by
  rw [valueBE, valueLE, List.foldr_reverse]
  simp only [Nat.add_comm]

theorem valueBE_lt (bytes : List UInt8) : valueBE bytes < 256 ^ bytes.length := by
  rw [valueBE_eq_valueLE_reverse, ← List.length_reverse]
  exact valueLE_lt _

/-! ### Windows that are cut off -/

namespace Window

theorem getElem?_take_of_lt (w : Window) {m i : Nat} (h : i < m) : (w.take m)[i]? = w[i]? :=
  ((AgreeTo.of_take w (Nat.le_refl m)).getElem? h).symm

theorem drop_zero (w : Window) : w.drop 0 = w := by
  simp only [drop, Nat.zero_min, Nat.add_zero, Nat.sub_zero]

theorem bytes?_take (w : Window) {m offset count : Nat} (h : offset + count ≤ m) :
    (w.take m).bytes? offset count = w.bytes? offset count :=
  ((AgreeTo.of_take w (Nat.le_refl m)).bytes? h).symm

theorem add_le_size_of_bytes? {w : Window} {offset count : Nat} {bytes : List UInt8}
    (hcount : 0 < count) (h : w.bytes? offset count = some bytes) : offset + count ≤ w.size := by
  induction count generalizing offset bytes with
  | zero => omega
  | succ count ih =>
    obtain ⟨b, hb, hrest⟩ := Option.bind_eq_some_iff.1 h
    obtain ⟨rest, hrest, -⟩ := Option.bind_eq_some_iff.1 hrest
    have hlt := lt_size_of_getElem? hb
    cases count with
    | zero => omega
    | succ count =>
      have := ih (Nat.succ_pos count) hrest
      omega

theorem holdsAt_take (w : Window) {m offset : Nat} {bytes : List UInt8}
    (h : offset + bytes.length ≤ m) : (w.take m).holdsAt offset bytes = w.holdsAt offset bytes :=
  ((AgreeTo.of_take w (Nat.le_refl m)).holdsAt h).symm

theorem text_take_drop_take (w : Window) {m start length : Nat} (h : start + length ≤ m) :
    (((w.take m).drop start).take length).text = ((w.drop start).take length).text :=
  ((AgreeTo.of_take w (Nat.le_refl m)).text h).symm

/-- A text with its zero is the same where the window ends behind the zero. -/
theorem terminated?_take {w : Window} {m start stop : Nat} {s : String}
    (h : w.terminated? start = some (s, stop)) (hstop : stop ≤ m) :
    (w.take m).terminated? start = some (s, stop) :=
  (AgreeTo.of_take w (Nat.le_refl m)).terminated? h hstop

theorem lt_stop_of_terminated? {w : Window} {start stop : Nat} {s : String}
    (h : w.terminated? start = some (s, stop)) : start < stop ∧ stop ≤ w.size := by
  unfold terminated? at h
  split at h
  · rename_i hzero
    have hend : start + (w.zeroFrom start - start) + 1 = stop :=
      congrArg Prod.snd (Option.some.inj h)
    have hle : start ≤ w.zeroFrom start := by
      by_cases hstart : start ≤ w.size
      · exact w.le_firstIndex 0 w.size start hstart
      · have hsize : w.zeroFrom start = w.size := by
          rw [zeroFrom, firstIndex, if_neg (by omega)]
        omega
    omega
  · cases h

end Window

namespace Ay

namespace Reader

variable {α β : Type} {w : Window} {m n k : Nat}

/-! ### Readings one after the other -/

theorem bind_of_ok {r : Reader α} {a : α} (h : r w = .ok (a, n)) (next : α → Reader β) :
    (r >>= next) w = (next a w).map fun (b, k) => (b, max n k) := by
  show (r w >>= fun x => next x.1 w >>= fun y => pure (y.1, max x.2 y.2)) = _
  rw [h]
  show (next a w >>= fun y => pure (y.1, max n y.2)) = _
  cases next a w <;> rfl

theorem bind_of_error {r : Reader α} {fault : DecodeError} (h : r w = .error fault)
    (next : α → Reader β) : (r >>= next) w = .error fault := by
  show (r w >>= fun x => next x.1 w >>= fun y => pure (y.1, max x.2 y.2)) = _
  rw [h]
  rfl

/-- A reading in two parts succeeds with both parts, and its extent is the greater of theirs. -/
theorem exists_of_bind {r : Reader α} {next : α → Reader β} {b : β}
    (h : (r >>= next) w = .ok (b, n)) :
    ∃ a i j, r w = .ok (a, i) ∧ next a w = .ok (b, j) ∧ n = max i j := by
  cases hr : r w with
  | error fault =>
    rw [bind_of_error hr] at h
    cases h
  | ok first =>
    obtain ⟨a, i⟩ := first
    rw [bind_of_ok hr] at h
    cases hnext : next a w with
    | error fault =>
      rw [hnext] at h
      cases h
    | ok second =>
      obtain ⟨b', j⟩ := second
      rw [hnext] at h
      cases h
      exact ⟨a, i, j, rfl, hnext, rfl⟩

/-! ### Readings of a file that is cut off -/

/-- A reading of a file: it stays inside the file, and where the file is cut off behind the extent
    of the reading, it is the same or fails. It fails when it needs a place that is `lost` then. -/
structure Reads (w : Window) (r : Reader α) (a : α) (n : Nat) (lost : Nat → Prop) : Prop where
  read : r w = .ok (a, n)
  inside : n ≤ w.size
  same : ∀ m, n ≤ m → m ≤ w.size → ¬lost m → r (w.take m) = .ok (a, n)
  fails : ∀ m, n ≤ m → m ≤ w.size → lost m → ∃ fault, r (w.take m) = .error fault

/-- The readings for which no place is lost. -/
abbrev Keeps (w : Window) (r : Reader α) (a : α) (n : Nat) : Prop := Reads w r a n fun _ => False

theorem Keeps.intro {r : Reader α} {a : α} (hread : r w = .ok (a, n)) (hinside : n ≤ w.size)
    (hsame : ∀ m, n ≤ m → m ≤ w.size → r (w.take m) = .ok (a, n)) : Keeps w r a n :=
  ⟨hread, hinside, fun m hn hm _ => hsame m hn hm, fun _ _ _ => False.elim⟩

theorem Reads.congr {r : Reader α} {a : α} {lost lost' : Nat → Prop} (h : Reads w r a n lost)
    (hiff : ∀ m, n ≤ m → (lost m ↔ lost' m)) : Reads w r a n lost' :=
  ⟨h.read, h.inside, fun m hn hm hs => h.same m hn hm fun hl => hs ((hiff m hn).1 hl),
    fun m hn hm hl => h.fails m hn hm ((hiff m hn).2 hl)⟩

theorem Reads.of_eq {r r' : Reader α} {a : α} {lost : Nat → Prop} (h : Reads w r' a n lost)
    (heq : r = r') : Reads w r a n lost := heq ▸ h

theorem Reads.bind {r : Reader α} {next : α → Reader β} {a : α} {b : β} {lost lost' : Nat → Prop}
    (h : Reads w r a n lost) (hnext : Reads w (next a) b k lost') :
    Reads w (r >>= next) b (max n k) fun m => lost m ∨ lost' m := by
  constructor
  · rw [bind_of_ok h.read, hnext.read]
    rfl
  · exact Nat.max_le.2 ⟨h.inside, hnext.inside⟩
  · intro m hle hm hs
    rw [not_or] at hs
    rw [Nat.max_le] at hle
    rw [bind_of_ok (h.same m hle.1 hm hs.1), hnext.same m hle.2 hm hs.2]
    rfl
  · intro m hle hm hs
    rw [Nat.max_le] at hle
    by_cases hfirst : lost m
    · obtain ⟨fault, hfault⟩ := h.fails m hle.1 hm hfirst
      exact ⟨fault, bind_of_error hfault next⟩
    · obtain ⟨fault, hfault⟩ := hnext.fails m hle.2 hm (hs.resolve_left hfirst)
      rw [bind_of_ok (h.same m hle.1 hm hfirst), hfault]
      exact ⟨fault, rfl⟩

theorem Keeps.bind {r : Reader α} {next : α → Reader β} {a : α} {b : β} (h : Keeps w r a n)
    (hnext : Keeps w (next a) b k) : Keeps w (r >>= next) b (max n k) :=
  (Reads.bind h hnext).congr fun _ _ => or_self_iff

/-- A place that the second part uses is not lost where the file is cut off behind it. -/
theorem Reads.bind_of_lt {r : Reader α} {next : α → Reader β} {a : α} {b : β} {place : Nat}
    {lost : Nat → Prop} (h : Reads w r a n fun m => m ≤ place) (hnext : Reads w (next a) b k lost)
    (hlt : place < k) : Reads w (r >>= next) b (max n k) lost := by
  refine (Reads.bind h hnext).congr fun m hle => ?_
  have hbehind : ¬m ≤ place := by
    rw [Nat.max_le] at hle
    omega
  rw [eq_false hbehind, false_or]

/-- After a part for which no place is lost, the places that the rest needs are lost. -/
theorem Reads.of_bind {r : Reader α} {next : α → Reader β} {b : β} {lost : Nat → Prop}
    (h : (r >>= next) w = .ok (b, n)) (hfirst : ∀ a i, r w = .ok (a, i) → Keeps w r a i)
    (hnext : ∀ a i j, r w = .ok (a, i) → next a w = .ok (b, j) → Reads w (next a) b j lost) :
    Reads w (r >>= next) b n lost := by
  obtain ⟨a, i, j, hread, hrest, rfl⟩ := exists_of_bind h
  refine (Reads.bind (hfirst a i hread) (hnext a i j hread hrest)).congr fun m _ => ?_
  rw [false_or]

/-! ### Parts of structures -/

theorem keeps_pure (w : Window) (a : α) : Keeps w (pure a) a 0 :=
  .intro rfl (Nat.zero_le _) fun _ _ _ => rfl

theorem Reads.map {r : Reader α} {a : α} {lost : Nat → Prop} (h : Reads w r a n lost) (f : α → β) :
    Reads w (r >>= fun a => pure (f a)) (f a) (max n 0) lost := by
  have hboth : Reads w (r >>= fun a => pure (f a)) (f a) (max n 0) fun m => lost m ∨ False :=
    Reads.bind h (keeps_pure w (f a))
  exact hboth.congr fun m _ => by rw [or_false]

theorem keeps_need {offset size : Nat} {u : Unit} (h : need offset size w = .ok (u, n)) :
    Keeps w (need offset size) u n ∧ n = offset + size := by
  unfold need at h
  split at h
  · rename_i hle
    cases h
    refine ⟨.intro (if_pos hle) hle fun m hn hm => ?_, rfl⟩
    have hsize : (w.take m).size = m := Nat.min_eq_left hm
    rw [need, hsize, if_pos hn]
  · cases h

theorem keeps_span {start size : Nat} {u : Unit} (h : span start size w = .ok (u, n))
    (hstart : start < w.size) :
    Keeps w (span start size) u n ∧ n = start + min size (w.size - start) := by
  cases h
  refine ⟨.intro rfl (by omega) fun m hn hm => ?_, rfl⟩
  have hsize : (w.take m).size = m := Nat.min_eq_left hm
  have hlength : min size (m - start) = min size (w.size - start) := by omega
  rw [span, hsize, hlength]

theorem keeps_byte {offset : Nat} {b : UInt8} (h : byte offset w = .ok (b, n)) :
    Keeps w (byte offset) b n := by
  unfold byte at h
  split at h
  · rename_i hb
    cases h
    refine .intro ?_ (Window.lt_size_of_getElem? hb) fun m hn hm => ?_
    · rw [byte, hb]
    · rw [byte, w.getElem?_take_of_lt hn, hb]
  · cases h

theorem keeps_word {offset value : Nat} (h : word offset w = .ok (value, n)) :
    Keeps w (word offset) value n ∧ n = offset + 2 := by
  unfold word at h
  split at h
  · rename_i hvalue
    cases h
    obtain ⟨bytes, hbytes, -⟩ := Option.map_eq_some_iff.1 hvalue
    refine ⟨.intro ?_ (Window.add_le_size_of_bytes? Nat.two_pos hbytes) fun m hn hm => ?_, rfl⟩
    · rw [word, hvalue]
    · rw [word, Window.be16?, w.bytes?_take hn]
      rw [Window.be16?] at hvalue
      rw [hvalue]
  · cases h

/-- The word that a file begins with is there as long as the header is. -/
theorem Reads.bind_header {bytes : List UInt8} {size : Nat} (next : Bool → Reader β) {b : β}
    {lost : Nat → Prop} (hlength : bytes.length ≤ size) (hsize : size ≤ w.size)
    (hholds : w.holdsAt 0 bytes = true) (hnext : Reads w (next true) b k lost) :
    Reads w (need 0 size >>= fun _ => beginsWith bytes >>= next) b (max size k) lost := by
  have hneed : ∀ v : Window, size ≤ v.size → need 0 size v = .ok ((), size) := by
    intro v hv
    rw [need, Nat.zero_add, if_pos hv]
  have hword : ∀ v : Window, v.holdsAt 0 bytes = true → beginsWith bytes v = .ok (true, 0) := by
    intro v hv
    rw [beginsWith, hv]
  have hcut : ∀ m, size ≤ m → m ≤ w.size →
      size ≤ (w.take m).size ∧ (w.take m).holdsAt 0 bytes = true := by
    intro m hm hle
    rw [w.holdsAt_take (by omega), Window.size_take]
    exact ⟨by omega, hholds⟩
  constructor
  · rw [bind_of_ok (hneed w hsize), bind_of_ok (hword w hholds), hnext.read]
    show Except.ok (b, max size (max 0 k)) = _
    rw [Nat.zero_max]
  · exact Nat.max_le.2 ⟨hsize, hnext.inside⟩
  · intro m hle hm hs
    rw [Nat.max_le] at hle
    obtain ⟨hsize', hholds'⟩ := hcut m hle.1 hm
    rw [bind_of_ok (hneed _ hsize'), bind_of_ok (hword _ hholds'), hnext.same m hle.2 hm hs]
    show Except.ok (b, max size (max 0 k)) = _
    rw [Nat.zero_max]
  · intro m hle hm hs
    rw [Nat.max_le] at hle
    obtain ⟨hsize', hholds'⟩ := hcut m hle.1 hm
    obtain ⟨fault, hfault⟩ := hnext.fails m hle.2 hm hs
    rw [bind_of_ok (hneed _ hsize'), bind_of_ok (hword _ hholds'), hfault]
    exact ⟨fault, rfl⟩

theorem keeps_text {start : Nat} {s : String} (h : text start w = .ok (s, n)) :
    Keeps w (text start) s n ∧ start < n := by
  unfold text at h
  split at h
  · rename_i hfound
    cases h
    obtain ⟨hlt, hle⟩ := Window.lt_stop_of_terminated? hfound
    refine ⟨.intro ?_ hle fun m hn hm => ?_, hlt⟩
    · rw [text, hfound]
    · rw [text, Window.terminated?_take hfound hn]
  · cases h

/-- A part of a structure that is found, wherever the reading of it ends. -/
def Gives (w : Window) (r : Reader α) (a : α) : Prop := ∃ n, r w = .ok (a, n)

theorem Gives.unique {r : Reader α} {a b : α} (h : Gives w r a) (h' : Gives w r b) : a = b := by
  obtain ⟨n, hn⟩ := h
  obtain ⟨k, hk⟩ := h'
  rw [hn] at hk
  exact congrArg Prod.fst (Except.ok.inj hk)

theorem Gives.eq {r : Reader α} {a b : α} (h : Gives w r a) (hread : r w = .ok (b, n)) : a = b := by
  exact h.unique ⟨n, hread⟩

/-! ### Pointers -/

/-- How far the pointer at `origin` leads, for the distance that it holds. -/
def landing (origin distance : Nat) : Int := origin + (distance : Int).bmod UInt16.size

/-- The place that the pointer at `origin` leads to, for a distance other than zero. -/
def land (origin distance : Nat) : Reader (Option Nat) := fun w =>
  if 0 ≤ landing origin distance ∧ landing origin distance < w.size then
    .ok (some (landing origin distance).toNat, 0)
  else .error (.strayPointer origin)

theorem pointer?_eq (origin : Nat) : pointer? origin =
    word origin >>= fun distance => if distance = 0 then pure none else land origin distance := rfl

theorem pointer?_of_zero {origin : Nat} (h : word origin w = .ok (0, n)) :
    pointer? origin w = .ok (none, n) := by
  rw [pointer?_eq, bind_of_ok h]
  show Except.ok (none, max n 0) = _
  rw [Nat.max_zero]

theorem pointer?_of_ne_zero {origin distance : Nat} (h : word origin w = .ok (distance, n))
    (hne : distance ≠ 0) : pointer? origin w =
      if 0 ≤ landing origin distance ∧ landing origin distance < w.size then
        .ok (some (landing origin distance).toNat, n)
      else .error (.strayPointer origin) := by
  have hland : (if distance = 0 then pure none else land origin distance : Reader _) w =
      land origin distance w := congrFun (if_neg hne) w
  rw [pointer?_eq, bind_of_ok h, hland, land]
  split
  · show Except.ok (_, max n 0) = _
    rw [Nat.max_zero]
  · rfl

theorem keeps_pointer?_none {origin : Nat} (h : pointer? origin w = .ok (none, n)) :
    Keeps w (pointer? origin) none n := by
  obtain ⟨distance, i, j, hword, -, -⟩ := exists_of_bind h
  obtain ⟨hkeeps, -⟩ := keeps_word hword
  by_cases hzero : distance = 0
  · subst hzero
    have hn : n = i := by
      rw [pointer?_of_zero hword] at h
      exact (congrArg Prod.snd (Except.ok.inj h)).symm
    subst hn
    exact .intro h hkeeps.inside fun m hle hm => pointer?_of_zero (hkeeps.same m hle hm not_false)
  · rw [pointer?_of_ne_zero hword hzero] at h
    split at h <;> cases h

/-- The place of a pointer is lost where the file is cut off before it. -/
theorem reads_pointer?_some {origin place : Nat} (h : pointer? origin w = .ok (some place, n)) :
    Reads w (pointer? origin) (some place) n (fun m => m ≤ place) ∧ place < w.size := by
  obtain ⟨distance, i, j, hword, -, -⟩ := exists_of_bind h
  obtain ⟨hkeeps, -⟩ := keeps_word hword
  by_cases hzero : distance = 0
  · subst hzero
    rw [pointer?_of_zero hword] at h
    cases h
  · have hread := h
    rw [pointer?_of_ne_zero hword hzero] at h
    split at h
    · rename_i hinside
      obtain ⟨hfound, rfl⟩ := Prod.mk.inj (Except.ok.inj h)
      have hplace : (landing origin distance).toNat = place := Option.some.inj hfound
      have hcut : ∀ m, i ≤ m → m ≤ w.size → pointer? origin (w.take m) =
          if 0 ≤ landing origin distance ∧ landing origin distance < m then
            .ok (some place, i)
          else .error (.strayPointer origin) := by
        intro m hle hm
        have hsize : (w.take m).size = m := Nat.min_eq_left hm
        rw [pointer?_of_ne_zero (hkeeps.same m hle hm not_false) hzero, hsize, hplace]
      refine ⟨⟨hread, hkeeps.inside, fun m hle hm hs => ?_, fun m hle hm hs => ?_⟩, by omega⟩
      · rw [hcut m hle hm, if_pos (by omega)]
      · exact ⟨_, (hcut m hle hm).trans (if_neg (by omega))⟩
    · cases h

theorem reads_pointer {origin place : Nat} (h : pointer origin w = .ok (place, n)) :
    Reads w (pointer origin) place n (fun m => m ≤ place) ∧ place < w.size := by
  obtain ⟨found, i, j, hfound, hrest, rfl⟩ := exists_of_bind h
  cases found with
  | none => cases hrest
  | some target =>
    cases hrest
    obtain ⟨hreads, hlt⟩ := reads_pointer?_some hfound
    exact ⟨(Reads.bind hreads (keeps_pure w place)).congr fun _ _ => by rw [or_false], hlt⟩

/-- After a pointer to a part that is needed, the places that the rest needs are lost. -/
theorem Reads.of_bind_pointer {origin : Nat} {next : Nat → Reader β} {b : β} {lost : Nat → Prop}
    (h : (pointer origin >>= next) w = .ok (b, n))
    (hnext : ∀ place j, Gives w (pointer origin) place → next place w = .ok (b, j) →
      place < j ∧ Reads w (next place) b j lost) : Reads w (pointer origin >>= next) b n lost := by
  obtain ⟨place, i, j, hpointer, hrest, rfl⟩ := exists_of_bind h
  obtain ⟨hlt, hreads⟩ := hnext place j ⟨i, hpointer⟩ hrest
  exact (reads_pointer hpointer).1.bind_of_lt hreads hlt

theorem keeps_textAt {origin : Nat} {s : String} (h : textAt origin w = .ok (s, n)) :
    Keeps w (textAt origin) s n := by
  obtain ⟨found, i, j, hfound, hrest, rfl⟩ := exists_of_bind h
  cases found with
  | none =>
    cases hrest
    exact (keeps_pointer?_none hfound).bind (keeps_pure w "")
  | some start =>
    obtain ⟨hkeeps, hlt⟩ := keeps_text hrest
    exact (reads_pointer?_some hfound).1.bind_of_lt hkeeps hlt

/-- A part that a pointer leads to, or nothing. -/
theorem reads_optional {origin : Nat} {part : Nat → Reader Unit} {lost : Nat → Nat → Prop}
    (hpart : ∀ start k, part start w = .ok ((), k) →
      start < k ∧ Reads w (part start) () k fun m => lost start m)
    (h : optional origin part w = .ok ((), n)) :
    Reads w (optional origin part) () n fun m =>
      ∃ start, Gives w (pointer? origin) (some start) ∧ lost start m := by
  obtain ⟨found, i, j, hfound, hrest, rfl⟩ := exists_of_bind h
  cases found with
  | none =>
    cases hrest
    refine ((keeps_pointer?_none hfound).bind (keeps_pure w ())).congr fun m _ => ?_
    rw [false_iff]
    rintro ⟨start, hgives, -⟩
    cases hgives.eq hfound
  | some start =>
    obtain ⟨hlt, hreads⟩ := hpart start j hrest
    refine ((reads_pointer?_some hfound).1.bind_of_lt hreads hlt).congr fun m _ => ?_
    refine ⟨fun hlost => ⟨start, ⟨i, hfound⟩, hlost⟩, ?_⟩
    rintro ⟨place, hgives, hlost⟩
    cases hgives.eq hfound
    exact hlost

/-- Readings one after the other are the same in one file where their second parts are. -/
theorem bind_congr_at {r : Reader α} {next next' : α → Reader β}
    (h : ∀ a n, r w = .ok (a, n) → next a w = next' a w) : (r >>= next) w = (r >>= next') w := by
  cases hr : r w with
  | error fault => rw [bind_of_error hr, bind_of_error hr]
  | ok first =>
    obtain ⟨a, i⟩ := first
    rw [bind_of_ok hr, bind_of_ok hr, h a i hr]

end Reader

/-! ### Blocks -/

open Reader

variable {w : Window} {n : Nat}

theorem word_lt_memorySize {offset value : Nat} (h : word offset w = .ok (value, n)) :
    value < memorySize := by
  unfold word at h
  split at h
  · rename_i hvalue
    cases h
    obtain ⟨bytes, hbytes, rfl⟩ := Option.map_eq_some_iff.1 hvalue
    have hlt := valueBE_lt bytes
    rwa [Window.length_of_bytes? hbytes] at hlt
  · cases h

/-- The place of a block is lost where the file is cut off before it, which takes a block without
    bytes. -/
theorem reads_block {offset address : Nat} (haddress : address < memorySize)
    (h : block offset address w = .ok ((), n)) :
    offset + blockSize ≤ n ∧ Reads w (block offset address) () n fun m =>
      Gives w (word (offset + 2)) 0 ∧ ∃ start, m ≤ start ∧ Gives w (pointer (offset + 4)) start := by
  obtain ⟨u, i, j, hneed, hfields, rfl⟩ := exists_of_bind h
  obtain ⟨length, k, l, hlength, hclipped, rfl⟩ := exists_of_bind hfields
  obtain ⟨start, p, q, hstart, hspan, rfl⟩ := exists_of_bind hclipped
  obtain ⟨hkeeps, rfl⟩ := keeps_need hneed
  obtain ⟨hpointer, hlt⟩ := reads_pointer hstart
  obtain ⟨hclip, hq⟩ := keeps_span hspan hlt
  refine ⟨by omega, ?_⟩
  by_cases hzero : length = 0
  · refine (Reads.bind hkeeps (Reads.bind (keeps_word hlength).1
      (Reads.bind hpointer hclip))).congr fun m hm => ?_
    rw [false_or, false_or, or_false]
    subst hzero
    refine ⟨fun hle => ⟨⟨_, hlength⟩, start, hle, ⟨_, hstart⟩⟩, fun ⟨_, place, hle, hplace⟩ => ?_⟩
    rwa [hplace.eq hstart] at hle
  · have hreach : start < q := by omega
    have hbytes : Keeps w (pointer (offset + 4) >>= fun start =>
        span start (min length (memorySize - address))) () (max p q) :=
      hpointer.bind_of_lt hclip hreach
    refine (hkeeps.bind ((keeps_word hlength).1.bind hbytes)).congr fun m hm => ?_
    rw [false_iff]
    rintro ⟨hgives, -⟩
    exact hzero (hgives.eq hlength).symm

/-- The places of the blocks without bytes, among the blocks with records from an offset on. -/
inductive EmptyBlock (w : Window) : (offset start : Nat) → Prop
  | first {offset address start : Nat} : Gives w (word offset) address → address ≠ 0 →
      Gives w (word (offset + 2)) 0 → Gives w (pointer (offset + 4)) start →
      EmptyBlock w offset start
  | later {offset address start : Nat} : Gives w (word offset) address → address ≠ 0 →
      EmptyBlock w (offset + blockSize) start → EmptyBlock w offset start

/-- The blocks with records from `offset` on. -/
def blocksFrom (offset : Nat) : Reader Unit := fun w => blocks w offset

theorem blocksFrom_eq (offset : Nat) : blocksFrom offset =
    word offset >>= fun address =>
      if address ≠ 0 then block offset address >>= fun _ => blocksFrom (offset + blockSize)
      else pure () := by
  funext w
  show blocks w offset = _
  rw [blocks]
  refine bind_congr_at fun address i hword => ?_
  by_cases hzero : address = 0
  · rw [if_neg (not_not_intro hzero), if_neg (not_not_intro hzero)]
  · rw [if_pos hzero, if_pos hzero]
    refine bind_congr_at fun u j hblock => ?_
    obtain ⟨hle, hreads⟩ := reads_block (word_lt_memorySize hword) hblock
    have hinside := hreads.inside
    have hroom : offset + blockSize ≤ w.size := by omega
    exact congrFun (dif_pos hroom) w

/-- The places of blocks are lost where the file is cut off before them. -/
theorem reads_blocksFrom {offset : Nat} (h : blocksFrom offset w = .ok ((), n)) :
    Reads w (blocksFrom offset) () n fun m => ∃ start, m ≤ start ∧ EmptyBlock w offset start := by
  -- each block is followed by fewer bytes than the one before
  induction hleft : w.size - offset using Nat.strongRecOn generalizing offset n with
  | _ left ih =>
    rw [blocksFrom_eq] at h
    obtain ⟨address, i, j, hword, hrest, rfl⟩ := exists_of_bind h
    have hkeeps := (keeps_word hword).1
    rw [blocksFrom_eq]
    by_cases hzero : address = 0
    · subst hzero
      cases hrest
      refine (Reads.bind hkeeps (keeps_pure w ())).congr fun m _ => ?_
      rw [or_false, false_iff]
      rintro ⟨start, -, hempty⟩
      cases hempty with
      | first hgives hne => exact hne (hgives.eq hword)
      | later hgives hne => exact hne (hgives.eq hword)
    · have hblocks : (block offset address >>= fun _ => blocksFrom (offset + blockSize)) w =
          .ok ((), j) := by
        rw [← hrest]
        exact congrFun (if_pos hzero).symm w
      obtain ⟨u, k, l, hblock, hlater, rfl⟩ := exists_of_bind hblocks
      obtain ⟨hle, hreads⟩ := reads_block (word_lt_memorySize hword) hblock
      have hinside := hreads.inside
      have hfewer : w.size - (offset + blockSize) < left := by
        have : 0 < blockSize := by decide
        omega
      have hrest : Reads w (block offset address >>= fun _ => blocksFrom (offset + blockSize)) ()
          (max k l) _ := Reads.bind hreads (ih _ hfewer hlater rfl)
      refine (Reads.bind hkeeps (hrest.of_eq (if_pos hzero))).congr fun m _ => ?_
      rw [false_or]
      constructor
      · rintro (⟨hlength, start, hle, hpointer⟩ | ⟨start, hle, hempty⟩)
        · exact ⟨start, hle, .first ⟨i, hword⟩ hzero hlength hpointer⟩
        · exact ⟨start, hle, .later ⟨i, hword⟩ hzero hempty⟩
      · rintro ⟨start, hle, hempty⟩
        cases hempty with
        | first _ _ hlength hpointer => exact .inl ⟨hlength, start, hle, hpointer⟩
        | later _ _ hempty => exact .inr ⟨start, hle, hempty⟩

theorem lt_of_blocksFrom {offset : Nat} (h : blocksFrom offset w = .ok ((), n)) : offset < n := by
  rw [blocksFrom_eq] at h
  obtain ⟨address, i, j, hword, -, rfl⟩ := exists_of_bind h
  obtain ⟨-, rfl⟩ := keeps_word hword
  omega

/-! ### Songs -/

/-- The places of blocks without bytes, in the song with the entry at `entry`. -/
def Song.EmptyBlock (w : Window) (entry start : Nat) : Prop :=
  ∃ data first, Gives w (pointer (entry + 2)) data ∧ Gives w (pointer? (data + 12)) (some first) ∧
    Ay.EmptyBlock w first start

theorem keeps_points {origin : Nat} {u : Unit}
    (h : optional origin (fun points => need points pointsSize) w = .ok (u, n)) :
    Keeps w (optional origin fun points => need points pointsSize) u n := by
  have hpart : ∀ points k, need points pointsSize w = .ok ((), k) →
      points < k ∧ Keeps w (need points pointsSize) () k := by
    intro points k hneed
    obtain ⟨hkeeps, rfl⟩ := keeps_need hneed
    have : 0 < pointsSize := by decide
    exact ⟨by omega, hkeeps⟩
  refine (reads_optional hpart h).congr fun m _ => ?_
  exact ⟨fun ⟨_, _, hfalse⟩ => hfalse, False.elim⟩

theorem reads_song {entry : Nat} {s : Song} (h : song entry w = .ok (s, n)) :
    Reads w (song entry) s n fun m => ∃ start, m ≤ start ∧ Song.EmptyBlock w entry start := by
  refine Reads.of_bind h (fun _ _ hneed => (keeps_need hneed).1) fun _ _ _ _ h => ?_
  refine Reads.of_bind h (fun _ _ => keeps_textAt) fun name _ _ _ h => ?_
  refine Reads.of_bind_pointer h fun data n hdata h => ⟨?_, ?_⟩
  · obtain ⟨_, i, j, hneed, -, rfl⟩ := exists_of_bind h
    obtain ⟨-, rfl⟩ := keeps_need hneed
    have : 0 < songSize := by decide
    omega
  refine Reads.of_bind h (fun _ _ hneed => (keeps_need hneed).1) fun _ _ _ _ h => ?_
  refine Reads.of_bind h (fun _ _ hword => (keeps_word hword).1) fun frames _ _ _ h => ?_
  refine Reads.of_bind h (fun _ _ hword => (keeps_word hword).1) fun fade _ _ _ h => ?_
  refine Reads.of_bind h (fun _ _ => keeps_points) fun _ _ _ _ h => ?_
  obtain ⟨_, i, j, hblocks, hlast, rfl⟩ := exists_of_bind h
  cases hlast
  have hreads := reads_optional
    (fun first k hfirst => ⟨lt_of_blocksFrom hfirst, reads_blocksFrom hfirst⟩) hblocks
  refine (hreads.map fun _ => (⟨name, frames, fade⟩ : Song)).congr fun m _ => ?_
  constructor
  · rintro ⟨first, hfirst, start, hle, hempty⟩
    exact ⟨start, hle, data, first, hdata, hfirst, hempty⟩
  · rintro ⟨start, hle, place, first, hplace, hfirst, hempty⟩
    rw [hplace.unique hdata] at hfirst
    exact ⟨first, hfirst, start, hle, hempty⟩

/-- The songs of a table lose the places that one of them loses. -/
theorem reads_songs {table count : Nat} {l : List Song} (h : songs table count w = .ok (l, n)) :
    Reads w (songs table count) l n fun m =>
      ∃ start, m ≤ start ∧ ∃ i < count, Song.EmptyBlock w (table + i * entrySize) start := by
  induction count generalizing table l n with
  | zero =>
    cases h
    refine (keeps_pure w []).congr fun m _ => ?_
    rw [false_iff]
    rintro ⟨start, -, i, hi, -⟩
    exact Nat.not_lt_zero i hi
  | succ count ih =>
    obtain ⟨first, i, j, hfirst, hrest, rfl⟩ := exists_of_bind h
    obtain ⟨rest, k, _, hsongs, hlast, rfl⟩ := exists_of_bind hrest
    cases hlast
    refine (Reads.bind (reads_song hfirst) ((ih hsongs).map (first :: ·))).congr fun m _ => ?_
    constructor
    · rintro (⟨start, hle, hempty⟩ | ⟨start, hle, i, hi, hempty⟩)
      · refine ⟨start, hle, 0, Nat.succ_pos count, ?_⟩
        rwa [Nat.zero_mul]
      · refine ⟨start, hle, i + 1, Nat.succ_lt_succ hi, ?_⟩
        rwa [Nat.succ_mul, Nat.add_comm (i * entrySize), ← Nat.add_assoc]
    · rintro ⟨start, hle, i, hi, hempty⟩
      cases i with
      | zero =>
        rw [Nat.zero_mul] at hempty
        exact .inl ⟨start, hle, hempty⟩
      | succ i =>
        rw [Nat.succ_mul, Nat.add_comm (i * entrySize), ← Nat.add_assoc] at hempty
        exact .inr ⟨start, hle, i, Nat.lt_of_succ_lt_succ hi, hempty⟩

/-! ### Files -/

/-- The places of blocks without bytes, in any song of the file. -/
def HasEmptyBlock (w : Window) (start : Nat) : Prop :=
  ∃ last table, Gives w (byte 16) last ∧ Gives w (pointer 18) table ∧
    ∃ i < last.toNat + 1, Song.EmptyBlock w (table + i * entrySize) start

/-- The songs and texts behind the magic word. -/
def body : Reader File := do
  let author ← textAt 12
  let comment ← textAt 14
  let count := (← byte 16).toNat + 1
  let firstSong := (← byte 17).toNat
  if count ≤ firstSong then fail (.firstSong (firstSong + 1) count)
  let table ← pointer 18
  let songs ← songs table count
  return { author, comment, songs, firstSong }

/-- What follows once it is known whether the file begins with the magic word. -/
def bodyIf (isMagic : Bool) : Reader File :=
  if !isMagic then fail .wrongSignature >>= fun (_ : PUnit) => body else body

theorem file_eq :
    file = need 0 headerSize >>= fun _ => beginsWith (Window.ascii magic) >>= bodyIf := rfl

/-- A table of songs begins before the end of its songs. -/
theorem lt_of_songs {table count : Nat} {l : List Song}
    (h : songs table (count + 1) w = .ok (l, n)) : table < n := by
  obtain ⟨first, i, j, hfirst, -, rfl⟩ := exists_of_bind h
  obtain ⟨_, k, m, hentry, -, rfl⟩ := exists_of_bind hfirst
  obtain ⟨-, rfl⟩ := keeps_need hentry
  have : 0 < entrySize := by decide
  omega

theorem reads_body {f : File} (h : body w = .ok (f, n)) :
    Reads w body f n fun m => ∃ start, m ≤ start ∧ HasEmptyBlock w start := by
  refine Reads.of_bind h (fun _ _ => keeps_textAt) fun author _ _ _ h => ?_
  refine Reads.of_bind h (fun _ _ => keeps_textAt) fun comment _ _ _ h => ?_
  refine Reads.of_bind h (fun _ _ => keeps_byte) fun last i _ hlast h => ?_
  refine Reads.of_bind h (fun _ _ => keeps_byte) fun firstSong _ n _ h => ?_
  by_cases hcount : last.toNat + 1 ≤ firstSong.toNat
  · rw [if_pos hcount, bind_of_error rfl] at h
    cases h
  · rw [if_neg hcount] at h
    refine Reads.of_eq ?_ (if_neg hcount)
    refine Reads.of_bind_pointer h fun table n htable h => ?_
    obtain ⟨list, j, k, hsongs, hreturn, rfl⟩ := exists_of_bind h
    cases hreturn
    have hlt := lt_of_songs hsongs
    refine ⟨by omega, ((reads_songs hsongs).map fun songs =>
      (⟨author, comment, songs, firstSong.toNat⟩ : File)).congr fun m _ => ?_⟩
    constructor
    · rintro ⟨start, hle, hempty⟩
      exact ⟨start, hle, last, table, ⟨i, hlast⟩, htable, hempty⟩
    · rintro ⟨start, hle, last', table', hlast', htable', hempty⟩
      rw [hlast'.eq hlast, htable'.unique htable] at hempty
      exact ⟨start, hle, hempty⟩

/-- A file has a whole header, with the magic word and then the songs and texts. -/
theorem body_of_parse {f : File} (h : parse w = .ok (f, n)) :
    headerSize ≤ w.size ∧ w.holdsAt 0 (Window.ascii magic) = true
      ∧ ∃ l, body w = .ok (f, l) ∧ n = max headerSize l := by
  have hread : file w = .ok (f, n) := h
  rw [file_eq] at hread
  obtain ⟨_, i, j, hheader, hrest, rfl⟩ := exists_of_bind hread
  obtain ⟨ok, k, l, hmagic, hbody, rfl⟩ := exists_of_bind hrest
  obtain ⟨hkeeps, rfl⟩ := keeps_need hheader
  have hinside : headerSize ≤ w.size := by simpa only [Nat.zero_add] using hkeeps.inside
  have hok : w.holdsAt 0 (Window.ascii magic) = ok := congrArg Prod.fst (Except.ok.inj hmagic)
  cases ok with
  | false =>
    have hfault : bodyIf false w = .error .wrongSignature := bind_of_error rfl _
    rw [hfault] at hbody
    cases hbody
  | true =>
    have hk : k = 0 := (congrArg Prod.snd (Except.ok.inj hmagic)).symm
    refine ⟨hinside, hok, l, hbody, ?_⟩
    rw [hk, Nat.zero_add, Nat.zero_max]

/-- The places of blocks are lost where a file is cut off before them, and no others. -/
theorem reads_file {f : File} (h : parse w = .ok (f, n)) :
    headerSize ≤ n ∧ Reads w file f n fun m => ∃ start, m ≤ start ∧ HasEmptyBlock w start := by
  obtain ⟨hinside, hmagic, l, hbody, rfl⟩ := body_of_parse h
  have hlength : (Window.ascii magic).length ≤ headerSize := by decide
  exact ⟨Nat.le_max_left .., Reads.bind_header bodyIf hlength hinside hmagic (reads_body hbody)⟩

/-- **A file can be cut off at its extent unless a block without bytes begins there.** The bytes up
    to the extent hold the same songs, and reach as far. Only the place of a block without bytes is
    not among them. -/
theorem parse_extent_iff {f : File} (h : parse w = .ok (f, n)) :
    headerSize ≤ n ∧ n ≤ w.size ∧ ∃ data, w.sub? 0 n = some data ∧ data.size = n ∧
      (parse data = .ok (f, n) ↔ ¬∃ start, n ≤ start ∧ HasEmptyBlock w start) := by
  obtain ⟨hheader, hreads⟩ := reads_file h
  have hle := hreads.inside
  have hpos : 0 < headerSize := by decide
  refine ⟨hheader, hle, w.take n, ?_, Nat.min_eq_left hle, ?_⟩
  · rw [Window.sub?, if_pos ⟨by omega, by omega⟩, Window.drop_zero]
  · constructor
    · intro hsame hlost
      obtain ⟨fault, hfault⟩ := hreads.fails n (Nat.le_refl n) hle hlost
      rw [parse, hfault] at hsame
      cases hsame
    · exact hreads.same n (Nat.le_refl n) hle

/-- A file with one song, which has one block of `length` bytes at the end of the file. -/
def withBlock (length : UInt8) : Window :=
  .ofByteArray ⟨#[
    0x5a, 0x58, 0x41, 0x59, 0x45, 0x4d, 0x55, 0x4c, 0, 0, 0, 0, 0, 0, 0, 0, 0, 0, 0, 2,
    0, 0, 0, 2,
    0, 0, 0, 0, 0, 0, 0, 0, 0, 0, 0, 0, 0, 2,
    0x80, 0, 0, length, 0, 4,
    0, 0,
    0xc9]⟩

theorem parse_extent_withBlock : parse (withBlock 1) = .ok (⟨"", "", [⟨"", 0, 0⟩], 0⟩, 47) ∧
    headerSize ≤ 47 ∧ 47 ≤ (withBlock 1).size ∧ ∃ data, (withBlock 1).sub? 0 47 = some data ∧
      data.size = 47 ∧ (parse data = .ok (⟨"", "", [⟨"", 0, 0⟩], 0⟩, 47) ↔
        ¬∃ start, 47 ≤ start ∧ HasEmptyBlock (withBlock 1) start) := by
  have hparse : parse (withBlock 1) = .ok (⟨"", "", [⟨"", 0, 0⟩], 0⟩, 47) := by decide +kernel
  exact ⟨hparse, parse_extent_iff hparse⟩

/-- The file is not found in its own extent, as its block has no bytes and begins there. -/
theorem parse_extent_withEmptyBlock :
    parse (withBlock 0) = .ok (⟨"", "", [⟨"", 0, 0⟩], 0⟩, 46) ∧
      parse ((withBlock 0).take 46) = .error (.strayPointer 42) := by
  constructor
  · decide +kernel
  · decide +kernel

end Ay

end Chiptune
