import Chiptune.Archive.Ice
import Chiptune.Archive.Lha
import Chiptune.Proofs.Agreement

namespace Chiptune

/-!
# Unpacking bytes wherever they stand

Packed data is read from a window bit by bit. What it unpacks to depends on the bytes of the window
alone, not on the buffer that they stand in nor on the bytes around them there.

* `Alike` — two computations give results that are related, or fail for the same reason;
* `Ice.depack_congr` — packed data of the same bytes unpacks in the same way;
* `Lha.openMember_congr` — and so do members of archives.
-/

/-! ### Computations alike -/

section Alike

variable {ε α α' β β' ρ ρ' : Type}

/-- Whether two computations give results that are related by `R`, or fail for the same reason. -/
inductive Alike (R : α → α' → Prop) : Except ε α → Except ε α' → Prop where
  | ok {a : α} {b : α'} : R a b → Alike R (.ok a) (.ok b)
  | error (e : ε) : Alike R (.error e) (.error e)

/-- Whether two results are the same but for the states `R` relates: a value and a state behind
    it. -/
def Beside (R : ρ → ρ' → Prop) (x : α × ρ) (y : α × ρ') : Prop := x.1 = y.1 ∧ R x.2 y.2

namespace Alike

variable {R : ρ → ρ' → Prop} {S : β → β' → Prop}

theorem eq {x y : Except ε α} (h : Alike Eq x y) : x = y := by
  cases h with
  | ok heq => rw [heq]
  | error => rfl

theorem bind {Q : α → α' → Prop} {x : Except ε α} {y : Except ε α'} {f : α → Except ε β}
    {g : α' → Except ε β'} (h : Alike Q x y) (hnext : ∀ a b, Q a b → Alike S (f a) (g b)) :
    Alike S (x >>= f) (y >>= g) := by
  cases h with
  | ok hab => exact hnext _ _ hab
  | error e => exact .error e

/-- The rule for a value that is the same on both sides. -/
theorem bind_beside {x : Except ε (α × ρ)} {y : Except ε (α × ρ')} {f : α × ρ → Except ε β}
    {g : α × ρ' → Except ε β'} (h : Alike (Beside R) x y)
    (hnext : ∀ a r r', R r r' → Alike S (f (a, r)) (g (a, r'))) : Alike S (x >>= f) (y >>= g) := by
  apply h.bind
  rintro ⟨a, r⟩ ⟨_, r'⟩ ⟨rfl, hr⟩
  exact hnext a r r' hr

/-- The rule for the same computation on both sides. -/
theorem bind_same (x : Except ε α) {f : α → Except ε β} {g : α → Except ε β'}
    (hnext : ∀ a, Alike S (f a) (g a)) : Alike S (x >>= f) (x >>= g) := by
  cases x with
  | ok a => exact hnext a
  | error e => exact .error e

end Alike

end Alike

/-! ### Windows of the same bytes -/

namespace Window

variable {w w' : Window}

theorem size_congr (h : w.toList = w'.toList) : w.size = w'.size := by
  rw [← length_toList, h, length_toList]

theorem getElem?_congr (h : w.toList = w'.toList) (i : Nat) : w[i]? = w'[i]? :=
  (AgreeTo.of_toList_eq h (i + 1)).getElem? (Nat.lt_succ_self i)

theorem bytes?_congr (h : w.toList = w'.toList) (offset count : Nat) :
    w.bytes? offset count = w'.bytes? offset count :=
  (AgreeTo.of_toList_eq h (offset + count)).bytes? (Nat.le_refl _)

end Window

/-! ### ICE! packed data -/

namespace Ice

namespace BitReader

/-- Whether two readers are at the same bit of the same bytes. -/
structure Same (r r' : BitReader) : Prop where
  data : r.data.toList = r'.data.toList
  unread : r.unread = r'.unread
  current : r.current = r'.current
  mask : r.mask = r'.mask

namespace Same

variable {r r' : BitReader}

theorem byte (h : Same r r') : Alike (Beside Same) r.byte r'.byte := by
  unfold BitReader.byte
  rw [← h.unread, ← Window.getElem?_congr h.data]
  split
  · split
    · exact .ok ⟨rfl, h.data, rfl, h.current, h.mask⟩
    · exact .error _
  · exact .error _

theorem bit (h : Same r r') : Alike (Beside Same) r.bit r'.bit := by
  simp only [BitReader.bit, ← h.mask, ← h.current]
  split
  · apply h.byte.bind_beside
    intro b r r' hr
    exact .ok ⟨rfl, hr.data, hr.unread, rfl, rfl⟩
  · exact .ok ⟨rfl, h.data, h.unread, rfl, rfl⟩

theorem bitsFrom (h : Same r r') (value count : Nat) :
    Alike (Beside Same) (r.bitsFrom value count) (r'.bitsFrom value count) := by
  induction count generalizing value r r' with
  | zero => exact .ok ⟨rfl, h⟩
  | succ count ih =>
    apply h.bit.bind_beside
    intro bit r r' hr
    exact ih hr _

theorem bits (h : Same r r') (count : Nat) : Alike (Beside Same) (r.bits count) (r'.bits count) :=
  h.bitsFrom 0 count

theorem ones (h : Same r r') (limit : Nat) :
    Alike (Beside Same) (r.ones limit) (r'.ones limit) := by
  induction limit generalizing r r' with
  | zero => exact .ok ⟨rfl, h⟩
  | succ limit ih =>
    apply h.bit.bind_beside
    intro bit r r' hr
    cases bit with
    | false => exact .ok ⟨rfl, hr⟩
    | true =>
      apply (ih hr).bind_beside
      intro n r r' hr
      exact .ok ⟨rfl, hr⟩

end Same

theorem start_alike {w w' : Window} (h : w.toList = w'.toList) :
    Alike Same (start w) (start w') := by
  have hwhole : Same ⟨w, w.size, 0, 0⟩ ⟨w', w'.size, 0, 0⟩ := ⟨h, Window.size_congr h, rfl, rfl⟩
  apply hwhole.byte.bind_beside
  intro b r r' hr
  by_cases hzero : b = 0
  · simp only [hzero, if_pos]
    exact .error _
  · simp only [hzero, if_neg, not_false_eq_true]
    exact .ok ⟨hr.data, hr.unread, rfl, rfl⟩

end BitReader

open BitReader (Same)

variable {r r' : BitReader}

theorem literalLength_alike (h : Same r r') (steps : List CodeStep) :
    Alike (Beside Same) (literalLength steps r) (literalLength steps r') := by
  induction steps generalizing r r' with
  | nil => exact .ok ⟨rfl, h⟩
  | cons step rest ih =>
    apply (h.bits step.width).bind_beside
    intro value r r' hr
    -- The next step is taken on both sides or on none: the value decides.
    simp only
    split
    · exact ih hr
    · exact .ok ⟨rfl, hr⟩

theorem chosenStep_alike (h : Same r r') (steps : List CodeStep) :
    Alike (Beside Same) (chosenStep steps r) (chosenStep steps r') := by
  apply (h.ones _).bind_beside
  intro n r r' hr
  apply (hr.bits _).bind_beside
  intro value r r' hr
  exact .ok ⟨rfl, hr⟩

theorem shortDistance_alike (h : Same r r') :
    Alike (Beside Same) (shortDistance r) (shortDistance r') := by
  apply h.bit.bind_beside
  intro far r r' hr
  cases far with
  | false => exact hr.bits 6
  | true =>
    apply (hr.bits 9).bind_beside
    intro value r r' hr
    exact .ok ⟨rfl, hr⟩

theorem matchCode_alike (h : Same r r') :
    Alike (Beside (Beside Same)) (matchCode r) (matchCode r') := by
  apply (chosenStep_alike h lengthSteps).bind_beside
  intro extra r r' hr
  by_cases hextra : extra = 0
  · simp only [hextra, if_pos]
    apply (shortDistance_alike hr).bind_beside
    intro distance r r' hr
    exact .ok ⟨rfl, rfl, hr⟩
  · simp only [hextra, if_neg, not_false_eq_true]
    apply (chosenStep_alike hr distanceSteps).bind_beside
    intro distance r r' hr
    exact .ok ⟨rfl, rfl, hr⟩

theorem copyLiteral_alike (h : Same r r') (count place : Nat) (output : ByteArray) :
    Alike (Beside Same) (copyLiteral count place output r) (copyLiteral count place output r') := by
  induction count generalizing place output r r' with
  | zero => exact .ok ⟨rfl, h⟩
  | succ count ih =>
    apply h.byte.bind_beside
    intro b r r' hr
    exact ih hr _ _

/-- What is left to write shrinks with every round, which carries the induction. -/
theorem fill_alike (h : Same r r') (place : Nat) (output : ByteArray) :
    Alike Eq (fill place output r) (fill place output r') := by
  induction place using Nat.strongRecOn generalizing output r r' with
  | ind place ih =>
    rw [fill, fill]
    by_cases hplace : place = 0
    · simp only [hplace, if_pos]
      exact .ok rfl
    simp only [hplace, if_neg, not_false_eq_true]
    apply h.bit.bind_beside
    intro literal r r' hr
    cases literal with
    | true =>
      apply (literalLength_alike hr literalSteps).bind_beside
      intro length r r' hr
      apply (copyLiteral_alike hr (min length place) place output).bind_beside
      intro output r r' hr
      by_cases hdone : place - min length place = 0
      · simp only [hdone, if_pos]
        exact .ok rfl
      simp only [hdone, if_neg, not_false_eq_true]
      apply (matchCode_alike hr).bind_beside
      rintro extra ⟨distance, r⟩ ⟨_, r'⟩ ⟨rfl, hr⟩
      apply Alike.bind_same
      intro output
      exact ih _ (by omega) hr output
    | false =>
      apply (matchCode_alike hr).bind_beside
      rintro extra ⟨distance, r⟩ ⟨_, r'⟩ ⟨rfl, hr⟩
      apply Alike.bind_same
      intro output
      exact ih _ (by omega) hr output

/-- Packed data of the same bytes unpacks to the same bytes, or not for the same reason. -/
theorem depack_congr {w w' : Window} (h : w.toList = w'.toList) (size : Nat) :
    depack w size = depack w' size := by
  have hsame := (BitReader.start_alike h).bind fun r r' hr =>
    fill_alike hr size (ByteArray.mk (Array.replicate size 0))
  exact hsame.eq

end Ice

/-! ### Members of archives -/

namespace Lha

namespace BitReader

/-- Whether two readers are at the same bit of the same bytes. -/
structure Same (r r' : BitReader) : Prop where
  data : r.data.toList = r'.data.toList
  position : r.position = r'.position

namespace Same

variable {r r' : BitReader}

theorem bit (h : Same r r') : Alike (Beside Same) r.bit r'.bit := by
  unfold BitReader.bit
  rw [← h.position, ← Window.getElem?_congr h.data]
  split
  · exact .ok ⟨rfl, h.data, rfl⟩
  · exact .error _

theorem bitsFrom (h : Same r r') (value count : Nat) :
    Alike (Beside Same) (r.bitsFrom value count) (r'.bitsFrom value count) := by
  induction count generalizing value r r' with
  | zero => exact .ok ⟨rfl, h⟩
  | succ count ih =>
    apply h.bit.bind_beside
    intro bit r r' hr
    exact ih hr _

theorem bits (h : Same r r') (count : Nat) : Alike (Beside Same) (r.bits count) (r'.bits count) :=
  h.bitsFrom 0 count

theorem onesFrom (h : Same r r') (found limit : Nat) :
    Alike (Beside Same) (r.onesFrom found limit) (r'.onesFrom found limit) := by
  induction limit generalizing found r r' with
  | zero => exact .error _
  | succ limit ih =>
    apply h.bit.bind_beside
    intro bit r r' hr
    cases bit with
    | false => exact .ok ⟨rfl, hr⟩
    | true => exact ih hr _

theorem ones (h : Same r r') : Alike (Beside Same) r.ones r'.ones := by
  unfold BitReader.ones BitReader.left
  rw [← h.position, ← Window.size_congr h.data]
  exact h.onesFrom 0 _

theorem read (h : Same r r') (tree : CodeTree) :
    Alike (Beside Same) (tree.read r) (tree.read r') := by
  induction tree generalizing r r' with
  | leaf symbol => exact .ok ⟨rfl, h⟩
  | node zero one ihZero ihOne =>
    apply h.bit.bind_beside
    intro bit r r' hr
    cases bit with
    | false => exact ihZero hr
    | true => exact ihOne hr

end Same

theorem same_ofWindow {w w' : Window} (h : w.toList = w'.toList) :
    Same (ofWindow w) (ofWindow w') := ⟨h, rfl⟩

end BitReader

open BitReader (Same)

variable {r r' : BitReader}

namespace BlockMethod

/-! #### Tables -/

theorem readLength_alike (h : Same r r') : Alike (Beside Same) (readLength r) (readLength r') := by
  apply (h.bits 3).bind_beside
  intro length r r' hr
  by_cases hlong : length = 7
  · simp only [hlong, if_pos]
    apply hr.ones.bind_beside
    intro more r r' hr
    exact .ok ⟨rfl, hr⟩
  · simp only [hlong, if_neg, not_false_eq_true]
    exact .ok ⟨rfl, hr⟩

theorem readLengths_alike (h : Same r r') (count : Nat) :
    Alike (Beside Same) (readLengths count r) (readLengths count r') := by
  induction count generalizing r r' with
  | zero => exact .ok ⟨rfl, h⟩
  | succ count ih =>
    apply (readLength_alike h).bind_beside
    intro length r r' hr
    apply (ih hr).bind_beside
    intro rest r r' hr
    exact .ok ⟨rfl, hr⟩

/-- A table is the same when its lengths are, in whichever way they are read. -/
theorem readTable_alike (h : Same r r') (width maxCount : Nat)
    {lengths : Nat → BitReader → Except UnpackError (List Nat × BitReader)}
    (hlengths : ∀ count r r', Same r r' →
      Alike (Beside Same) (lengths count r) (lengths count r')) :
    Alike (Beside Same) (readTable width maxCount lengths r)
      (readTable width maxCount lengths r') := by
  apply (h.bits width).bind_beside
  intro count r r' hr
  simp only
  split
  · apply (hr.bits width).bind_beside
    intro symbol r r' hr
    exact .ok ⟨rfl, hr⟩
  split
  · exact .error _
  · apply (hlengths count r r' hr).bind_beside
    intro list r r' hr
    apply Alike.bind_same
    intro tree
    exact .ok ⟨rfl, hr⟩

theorem lengthLengths_alike (h : Same r r') (count : Nat) :
    Alike (Beside Same) (lengthLengths count r) (lengthLengths count r') := by
  apply (readLengths_alike h _).bind_beside
  intro first r r' hr
  apply (hr.bits 2).bind_beside
  intro gap r r' hr
  simp only
  split
  · exact .error _
  · apply (readLengths_alike hr _).bind_beside
    intro rest r r' hr
    exact .ok ⟨rfl, hr⟩

theorem lengthRun_alike (h : Same r r') (tree : CodeTree) :
    Alike (Beside Same) (lengthRun tree r) (lengthRun tree r') := by
  apply (h.read tree).bind_beside
  intro symbol r r' hr
  -- The first three symbols are runs, and two of these have a number behind them.
  match symbol with
  | 0 => exact .ok ⟨rfl, hr⟩
  | 1 =>
    apply (hr.bits 4).bind_beside
    intro more r r' hr
    exact .ok ⟨rfl, hr⟩
  | 2 =>
    apply (hr.bits 9).bind_beside
    intro more r r' hr
    exact .ok ⟨rfl, hr⟩
  | length + 3 => exact .ok ⟨rfl, hr⟩

theorem commandLengths_alike (h : Same r r') (tree : CodeTree) (room : Nat) :
    Alike (Beside Same) (commandLengths tree room r) (commandLengths tree room r') := by
  induction room using Nat.strongRecOn generalizing r r' with
  | ind room ih =>
    rw [commandLengths, commandLengths]
    by_cases hroom : room = 0
    · simp only [hroom, if_pos]
      exact .ok ⟨rfl, h⟩
    simp only [hroom, if_neg, not_false_eq_true]
    apply (lengthRun_alike h tree).bind_beside
    rintro ⟨length, again⟩ r r' hr
    simp only
    split
    · exact .error _
    · apply (ih _ (by omega) hr).bind_beside
      intro rest r r' hr
      exact .ok ⟨rfl, hr⟩

theorem readTables_alike (h : Same r r') (m : BlockMethod) :
    Alike (Beside Same) (m.readTables r) (m.readTables r') := by
  apply (readTable_alike h 5 _ fun count _ _ h => lengthLengths_alike h count).bind_beside
  intro lengths r r' hr
  apply (readTable_alike hr 9 _ fun count _ _ h => commandLengths_alike h lengths count).bind_beside
  intro commands r r' hr
  apply (readTable_alike hr m.offsetWidth _ fun n _ _ h => readLengths_alike h n).bind_beside
  intro offsets r r' hr
  exact .ok ⟨rfl, hr⟩

/-! #### Commands -/

theorem readOffset_alike (h : Same r r') (offsets : CodeTree) :
    Alike (Beside Same) (readOffset offsets r) (readOffset offsets r') := by
  apply (h.read offsets).bind_beside
  intro width r r' hr
  cases width with
  | zero => exact .ok ⟨rfl, hr⟩
  | succ width => exact hr.bitsFrom 1 width

theorem runCommands_alike (h : Same r r') (tables : Tables) (count : Nat) (o : Output) :
    Alike (Beside Same) (runCommands tables count o r) (runCommands tables count o r') := by
  induction count generalizing o r r' with
  | zero => exact .ok ⟨rfl, h⟩
  | succ count ih =>
    simp only [runCommands]
    split
    · exact .ok ⟨rfl, h⟩
    · apply (h.read tables.commands).bind_beside
      intro command r r' hr
      simp only
      split
      · exact ih hr _
      · apply (readOffset_alike hr tables.offsets).bind_beside
        intro offset r r' hr
        exact ih hr _

theorem runBlocks_alike (h : Same r r') (m : BlockMethod) (blocks : Nat) (o : Output) :
    Alike Eq (m.runBlocks blocks o r) (m.runBlocks blocks o r') := by
  induction blocks generalizing o r r' with
  | zero =>
    simp only [runBlocks]
    split
    · exact .ok rfl
    · exact .error _
  | succ blocks ih =>
    simp only [runBlocks]
    split
    · exact .ok rfl
    · apply (h.bits 16).bind_beside
      intro count r r' hr
      apply (readTables_alike hr m).bind_beside
      intro tables r r' hr
      apply (runCommands_alike hr tables count o).bind_beside
      intro o r r' hr
      exact ih hr o

theorem decode_congr {w w' : Window} (h : w.toList = w'.toList) (m : BlockMethod) (size : Nat) :
    m.decode w size = m.decode w' size := by
  have hblocks := runBlocks_alike (BitReader.same_ofWindow h) m w.size (.start m.history size)
  rw [decode, decode, hblocks.eq, Window.size_congr h]

end BlockMethod

/-! #### The adaptive code -/

theorem AdaptiveCode.readFrom_alike (h : Same r r') (t : AdaptiveCode) (height node : Nat) :
    Alike (Beside Same) (t.readFrom height node r) (t.readFrom height node r') := by
  induction height generalizing node r r' with
  | zero => exact .error _
  | succ height ih =>
    simp only [readFrom]
    split
    · exact .ok ⟨rfl, h⟩
    · apply h.bit.bind_beside
      intro bit r r' hr
      exact ih hr _

theorem AdaptiveCode.read_alike (h : Same r r') (t : AdaptiveCode) :
    Alike (Beside (Beside Same)) (t.read r) (t.read r') := by
  apply (readFrom_alike h t _ _).bind_beside
  intro symbol r r' hr
  exact .ok ⟨rfl, rfl, hr⟩

namespace AdaptiveMethod

theorem runCommands_alike (h : Same r r') (offsets : CodeTree) (count : Nat) (code : AdaptiveCode)
    (o : Output) :
    Alike Eq (runCommands offsets count code o r) (runCommands offsets count code o r') := by
  induction count generalizing code o r r' with
  | zero => exact .ok rfl
  | succ count ih =>
    simp only [runCommands]
    split
    · exact .ok rfl
    · apply (AdaptiveCode.read_alike h code).bind_beside
      rintro command ⟨code, r⟩ ⟨_, r'⟩ ⟨rfl, hr⟩
      simp only
      split
      · exact ih hr code _
      · apply (hr.read offsets).bind_beside
        intro upper r r' hr
        apply (hr.bits 6).bind_beside
        intro lower r r' hr
        exact ih hr code _

theorem decode_congr {w w' : Window} (h : w.toList = w'.toList) (size : Nat) :
    decode w size = decode w' size := by
  have hcommands : ∀ offsets, _ := fun offsets =>
    runCommands_alike (BitReader.same_ofWindow h) offsets size .start (.start history size)
  simp only [decode, fun offsets => (hcommands offsets).eq]

end AdaptiveMethod

/-! #### Headers -/

variable {w w' : Window}

theorem stored_congr (h : w.toList = w'.toList) (size : Nat) : stored w size = stored w' size := by
  have hbytes : (w.take size).toByteArray = (w'.take size).toByteArray := by
    apply ByteArray.ext
    apply Array.toList_inj.1
    show (w.take size).toList = (w'.take size).toList
    rw [Window.toList_take, Window.toList_take, h]
  rw [stored, stored, Window.size_congr h, hbytes]

theorem decode_congr (h : w.toList = w'.toList) (method : Char) (size : Nat) :
    decode method w size = decode method w' size := by
  simp only [decode, stored_congr h, AdaptiveMethod.decode_congr h, BlockMethod.decode_congr h]

theorem extensions_congr (h : w.toList = w'.toList) (offset size : Nat) :
    extensions w offset size = extensions w' offset size := by
  fun_induction extensions w offset size with
  | case1 => rw [extensions, if_pos rfl]
  | case2 offset size hsize hroom =>
    rw [Window.size_congr h] at hroom
    rw [extensions, if_neg hsize, dif_pos hroom]
  | case3 offset size hsize hroom first ih =>
    have hfirst : first = ⟨((w'.drop offset).take size).toList⟩ := by
      simp only [first, Window.toList_take, Window.toList_drop, h]
    rw [Window.size_congr h] at hroom
    rw [ih, extensions.eq_def w' offset size, if_neg hsize, dif_neg hroom, ← hfirst]

theorem Member.read_congr (h : w.toList = w'.toList) : Member.read w = Member.read w' := by
  simp only [Member.read, checkedLength, verify, Window.le16?, Window.le32?, Window.byteSum,
    Window.foldl_eq, Window.toList_take, Window.toList_drop, Window.getElem?_congr h,
    Window.bytes?_congr h, extensions_congr h, h]

/-- A member of the same bytes is opened in the same way. -/
theorem openMember_congr (h : w.toList = w'.toList) : openMember w = openMember w' := by
  have hbody : ∀ member : Member, (member.body w).toList = (member.body w').toList := by
    intro member
    simp only [Member.body, Window.toList_take, Window.toList_drop, h]
  simp only [openMember, Member.read_congr h, fun member => decode_congr (hbody member)]

end Lha

end Chiptune
