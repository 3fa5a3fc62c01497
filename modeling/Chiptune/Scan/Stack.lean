import Chiptune.Scan.Frame

namespace Chiptune

/-!
# Stacks of frames

A scan keeps the containers that it is in on a stack. One step takes the frame on top and puts any
number of frames in its place, each with a lower rank: the same frame at a later point, or frames of
a greater depth. Entries can be larger than their archive and there can be any number of them, so no
count of bytes bounds a scan; that it ends follows from `wellFounded_descends`.
-/

namespace Frame

/-- What is left to do at an offset: archives and players, or players alone. -/
def phaseRank : Phase → Nat
  | .archives => 1
  | .players _ => 0

/-- What is left of a frame: the depth that may be added below it, and then its steps. -/
def rank (maxDepth : Nat) (f : Frame) : Nat × Nat :=
  (maxDepth - f.depth, 2 * (f.data.size - f.offset) + phaseRank f.phase)

/-- The lexicographic order of ranks. -/
def Below (maxDepth : Nat) (g f : Frame) : Prop :=
  Prod.Lex (· < ·) (· < ·) (g.rank maxDepth) (f.rank maxDepth)

theorem wellFounded_below (maxDepth : Nat) : WellFounded (Below maxDepth) :=
  InvImage.wf (rank maxDepth) (Prod.lex ⟨_, Nat.lt_wfRel.wf⟩ ⟨_, Nat.lt_wfRel.wf⟩).wf

end Frame

/-- A stack of frames in a scan that goes down to `maxDepth`, top first. -/
def Stack (_maxDepth : Nat) : Type := List Frame

namespace Stack

/-- The stack of `frames`. -/
def ofFrames (maxDepth : Nat) (frames : List Frame) : Stack maxDepth := frames

/-- Whether `t` is `s` with lower frames in place of the one on top. -/
def Descends {maxDepth : Nat} (t s : Stack maxDepth) : Prop :=
  ∃ (f : Frame) (lower below : List Frame), s = f :: below ∧ t = lower ++ below ∧
    ∀ g ∈ lower, g.Below maxDepth f

theorem descends_append {maxDepth : Nat} {f : Frame} {lower below : List Frame}
    (h : ∀ g ∈ lower, g.Below maxDepth f) :
    @Descends maxDepth (lower ++ below) (f :: below) :=
  ⟨f, lower, below, rfl, rfl, h⟩

theorem descends_cons {maxDepth : Nat} {f g : Frame} {below : List Frame}
    (h : g.Below maxDepth f) : @Descends maxDepth (g :: below) (f :: below) :=
  descends_append (List.forall_mem_singleton.2 h)

theorem acc_nil {maxDepth : Nat} : Acc (@Descends maxDepth) [] :=
  ⟨_, fun _ ⟨_, _, _, h, _⟩ => nomatch h⟩

theorem acc_cons {maxDepth : Nat} (f : Frame) {below : List Frame}
    (hbelow : Acc (@Descends maxDepth) below) :
    Acc (@Descends maxDepth) (f :: below) := by
  induction (Frame.wellFounded_below maxDepth).apply f generalizing below with
  | intro f _ ih =>
    refine ⟨_, ?_⟩
    rintro _ ⟨_, lower, _, hs, rfl, hlower⟩
    obtain ⟨rfl, rfl⟩ := List.cons.inj hs
    induction lower with
    | nil => exact hbelow
    | cons g lower ihl =>
      exact ih g (hlower g (List.mem_cons_self ..))
        (ihl fun g hg => hlower g (List.mem_cons_of_mem _ hg))

theorem wellFounded_descends {maxDepth : Nat} :
    WellFounded (@Descends maxDepth) := by
  refine ⟨fun s => ?_⟩
  induction s with
  | nil => exact acc_nil
  | cons f below ih => exact acc_cons f ih

instance {maxDepth : Nat} : WellFoundedRelation (Stack maxDepth) := ⟨Descends, wellFounded_descends⟩

end Stack

end Chiptune
