import Chiptune.Proofs.Search

namespace Chiptune

/-!
# Windows that begin with the same bytes

What is read near the start of a window is read in the same way from every other window that begins
with the same bytes, whatever follows them there. This covers windows that are cut off, windows that
go on, and windows on the same bytes in different buffers.

* `Window.AgreeTo` — two windows begin with the same bytes;
* `Window.AgreeTo.getElem?`, `Window.AgreeTo.slice` — the same byte, and the same stretch of bytes;
* `Window.AgreeTo.bytes?`, `Window.AgreeTo.holdsAt`, `Window.AgreeTo.terminated?` — numbers, words
  and texts.
-/

namespace Window

/-- All bytes are combined as those of the list are. -/
theorem foldl_eq {β : Type} (f : β → UInt8 → β) (init : β) (w : Window) :
    w.foldl f init = w.toList.foldl f init := by
  have hgo : ∀ i acc, foldl.go f w i acc = (w.toList.drop i).foldl f acc := by
    intro i acc
    fun_induction foldl.go f w i acc with
    | case1 i acc hlt ih =>
      have hbyte : w.toList[i]? = some (w.get i hlt) := by
        rw [← getElem?_eq_getElem?_toList]
        exact dif_pos hlt
      obtain ⟨hlength, hget⟩ := List.getElem?_eq_some_iff.1 hbyte
      rw [ih, List.drop_eq_getElem_cons hlength, hget, List.foldl_cons]
    | case2 i acc hge =>
      have hlength : w.toList.length ≤ i := by rw [length_toList]; omega
      rw [List.drop_eq_nil_of_le hlength, List.foldl_nil]
  rw [foldl, hgo, List.drop_zero]

theorem lt_size_of_getElem? {w : Window} {i : Nat} {b : UInt8} (h : w[i]? = some b) :
    i < w.size := by
  by_cases hlt : i < w.size
  · exact hlt
  · rw [getElem?_eq_none_of_size_le (Nat.le_of_not_lt hlt)] at h
    cases h

/-- Whether two windows begin with the same bytes: the first `n` ones are, as far as there are so
    many. -/
def AgreeTo (n : Nat) (w w' : Window) : Prop := w.toList.take n = w'.toList.take n

namespace AgreeTo

variable {w w' : Window} {n : Nat}

/-! ### When windows agree -/

theorem of_toList_eq (h : w.toList = w'.toList) (n : Nat) : AgreeTo n w w' :=
  congrArg (List.take n) h

theorem of_take (w : Window) {m : Nat} (h : n ≤ m) : AgreeTo n w (w.take m) := by
  rw [AgreeTo, toList_take, List.take_take, Nat.min_eq_left h]

/-- The first bytes of a window with any others behind them. -/
theorem of_append {t : List UInt8} (hn : n ≤ w.size) (h : w'.toList = w.toList.take n ++ t) :
    AgreeTo n w w' := by
  have hlength : (w.toList.take n).length = n := by
    rw [List.length_take, length_toList, Nat.min_eq_left hn]
  rw [AgreeTo, h, List.take_left' hlength]

/-! ### Bytes -/

theorem getElem? (h : AgreeTo n w w') {i : Nat} (hi : i < n) : w[i]? = w'[i]? := by
  rw [getElem?_eq_getElem?_toList, getElem?_eq_getElem?_toList, ← List.getElem?_take_of_lt hi, h,
    List.getElem?_take_of_lt hi]

/-- The same bytes are there in the one window and in the other. -/
theorem lt_size (h : AgreeTo n w w') {i : Nat} (hi : i < n) (hsize : i < w.size) : i < w'.size := by
  have hbyte : w[i]? = some (w.get i hsize) := dif_pos hsize
  rw [h.getElem? hi] at hbyte
  exact lt_size_of_getElem? hbyte

theorem take (h : AgreeTo n w w') {m : Nat} (hm : m ≤ n) :
    (w.take m).toList = (w'.take m).toList := by
  rw [toList_take, toList_take, ← Nat.min_eq_left hm, ← List.take_take, h, List.take_take]

theorem slice (h : AgreeTo n w w') {offset size : Nat} (hend : offset + size ≤ n) :
    ((w.drop offset).take size).toList = ((w'.drop offset).take size).toList := by
  have hwhole := h.take hend
  rw [toList_take, toList_take] at hwhole
  simp only [toList_take, toList_drop, List.take_drop]
  rw [hwhole]

theorem bytes? (h : AgreeTo n w w') {offset count : Nat} (hend : offset + count ≤ n) :
    w.bytes? offset count = w'.bytes? offset count := by
  induction count generalizing offset with
  | zero => rfl
  | succ count ih =>
    rw [Window.bytes?, Window.bytes?, h.getElem? (by omega), ih (by omega)]

theorem holdsAt (h : AgreeTo n w w') {offset : Nat} {bytes : List UInt8}
    (hend : offset + bytes.length ≤ n) : w.holdsAt offset bytes = w'.holdsAt offset bytes := by
  induction bytes generalizing offset with
  | nil => rfl
  | cons b rest ih =>
    rw [List.length_cons] at hend
    rw [Window.holdsAt, Window.holdsAt, h.getElem? (by omega), ih (by omega)]

theorem meets (h : AgreeTo n w w') {offset : Nat} {classes : List ByteClass}
    (hend : offset + classes.length ≤ n) :
    Pattern.meets w offset classes = Pattern.meets w' offset classes := by
  induction classes generalizing offset with
  | nil => rfl
  | cons c rest ih =>
    rw [List.length_cons] at hend
    rw [Pattern.meets, Pattern.meets, h.getElem? (by omega), ih (by omega)]

/-- A signature matches both windows when both have the least size. -/
theorem matchesStart (h : AgreeTo n w w') {s : Signature} (hn : s.minSize ≤ n)
    (hsize : s.minSize ≤ w'.size) (hmatch : s.matchesStart w = true) :
    s.matchesStart w' = true := by
  obtain ⟨-, hpattern⟩ := Bool.and_eq_true_iff.1 hmatch
  have hend : 0 + s.pattern.classes.length ≤ n := by
    rw [Nat.zero_add]
    exact Nat.le_trans s.length_le_minSize hn
  have hmeets : Pattern.meets w' 0 s.pattern.classes = true := by
    rw [← h.meets hend]
    exact hpattern
  exact Bool.and_eq_true_iff.2 ⟨decide_eq_true hsize, hmeets⟩

/-! ### Texts -/

/-- The first place of a byte is the same, where it is one of the common bytes. -/
theorem firstIndex (h : AgreeTo n w w') {byte : UInt8} {start : Nat}
    (hsize : w.firstIndex byte w.size start < w.size) (hn : w.firstIndex byte w.size start < n) :
    w'.firstIndex byte w'.size start = w.firstIndex byte w.size start := by
  fun_induction Window.firstIndex w byte w.size start with
  | case1 start hlt hbyte =>
    rw [Window.firstIndex, if_pos (h.lt_size hn hlt), ← h.getElem? hn, if_pos hbyte]
  | case2 start hlt hbyte ih =>
    have hstart : start < n := by
      have := w.le_firstIndex byte w.size (start + 1) hlt
      omega
    rw [Window.firstIndex, if_pos (h.lt_size hstart hlt), ← h.getElem? hstart, if_neg hbyte,
      ih hsize hn]
  | case3 start hlt => exact absurd hsize (Nat.lt_irrefl _)

theorem text (h : AgreeTo n w w') {start length : Nat} (hend : start + length ≤ n) :
    ((w.drop start).take length).text = ((w'.drop start).take length).text := by
  simp only [Window.text, h.slice hend]

/-- A text with its zero among the common bytes is the same. -/
theorem terminated? (h : AgreeTo n w w') {start stop : Nat} {s : String}
    (hfound : w.terminated? start = some (s, stop)) (hstop : stop ≤ n) :
    w'.terminated? start = some (s, stop) := by
  unfold Window.terminated? at hfound
  split at hfound
  · rename_i hzero
    have hpair := Option.some.inj hfound
    have hs : ((w.drop start).take (w.zeroFrom start - start)).text = s := congrArg Prod.fst hpair
    have hend : start + (w.zeroFrom start - start) + 1 = stop := congrArg Prod.snd hpair
    have hlt : w.zeroFrom start < n := by omega
    have hsame : w'.zeroFrom start = w.zeroFrom start := h.firstIndex hzero hlt
    have htext : _ = s := (h.text (by omega)).symm.trans hs
    rw [Window.terminated?, hsame, if_pos (h.lt_size hlt hzero), textFrom, hsame, htext, hend]
  · cases hfound

end AgreeTo

end Window

end Chiptune
