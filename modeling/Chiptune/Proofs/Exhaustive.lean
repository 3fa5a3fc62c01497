import Chiptune.Proofs.Course

namespace Chiptune

/-!
# Visiting every offset

The plain way to scan a container: all offsets are visited one after the other, what is inside an
archive is scanned where it is opened, and nothing is remembered from one offset to the next.

* `Place` — an offset of a container, with all that counts there;
* `Scan.exhaust` — what is found from a place on, by recursion on containers;
* `Scan.exhaust_eq_of_idle` — stretches where nothing begins can be left out.
-/

/-- An offset of a container, and what is known of the container. -/
structure Place where
  data : Window
  path : TunePath
  properties : Properties
  depth : Nat
  offset : Nat

/-- The place that a frame has come to. -/
def Frame.place (f : Frame) : Place := ⟨f.data, f.path, f.properties, f.depth, f.offset⟩

namespace Place

/-- The frame of a scan that begins at the place, with no claims from before. -/
def frame (p : Place) : Frame where
  data := p.data
  path := p.path
  properties := p.properties
  depth := p.depth
  offset := p.offset
  phase := .archives
  archiveClaims := .empty .disjoint p.data.size
  tuneClaims := .empty .disjoint p.data.size
  candidates := []

/-- The same container at another offset. -/
def withOffset (p : Place) (offset : Nat) : Place := { p with offset }

/-- The place that is visited next when so many bytes are claimed: behind them, or one byte on when
    there are none. A scan that is not raw visits the start of a container alone. -/
def behind (p : Place) (s : Scan) (claim : Nat) : Place :=
  p.withOffset (if s.settings.scanRaw then p.offset + max 1 claim else p.data.size)

theorem lt_offset_behind {p : Place} (h : p.offset < p.data.size) (s : Scan) (claim : Nat) :
    p.offset < (p.behind s claim).offset := by
  unfold behind
  split
  · show p.offset < p.offset + max 1 claim
    omega
  · exact h

end Place

namespace Scan

/-- The containers inside the archive at a place, if there is one. -/
def inside (s : Scan) (skips : Plugin → Bool) (p : Place) : List Frame :=
  (s.archiveAt skips p.frame).elim [] (s.children p.frame)

/-- The tunes at a place. -/
def here (s : Scan) (skips : Plugin → Bool) (p : Place) : Findings :=
  (s.tunesAt skips p.frame).elim ∅ (s.sightings p.frame)

/-- The number of bytes that the archive at a place claims. -/
def archiveClaim (s : Scan) (skips : Plugin → Bool) (p : Place) : Nat :=
  (s.archiveAt skips p.frame).elim 0 Opened.claim

/-- The number of bytes that the tunes at a place claim. -/
def tuneClaim (s : Scan) (skips : Plugin → Bool) (p : Place) : Nat :=
  (s.tunesAt skips p.frame).elim 0 Found.claim

/-- The place that is visited behind another: one byte on where nothing is claimed, or behind the
    larger claim. -/
def nextPlace (s : Scan) (skips : Plugin → Bool) (p : Place) : Place :=
  p.behind s (max (s.archiveClaim skips p) (s.tuneClaim skips p))

theorem depth_of_mem_inside {s : Scan} {skips : Plugin → Bool} {p : Place} {g : Frame}
    (h : g ∈ s.inside skips p) :
    g.place.depth = p.depth + 1 ∧ s.opensAt p.depth = true := by
  unfold inside at h
  cases harchive : s.archiveAt skips p.frame with
  | none =>
    rw [harchive] at h
    cases h
  | some opened =>
    rw [harchive] at h
    obtain ⟨entry, -, rfl⟩ := List.mem_map.1 h
    exact ⟨rfl, opensAt_of_archiveAt harchive⟩

/-- **The reference scan.** All that is found from a place on: at each offset everything inside the
    archive there, then the tunes there, then everything from the next offset on. -/
def exhaust (s : Scan) (skips : Plugin → Bool) (p : Place) : Findings :=
  if _hdone : p.data.size ≤ p.offset then ∅
  else
    ⟨[], (s.inside skips p).length⟩
      ++ .join ((s.inside skips p).attach.map fun g => s.exhaust skips g.1.place)
      ++ s.here skips p
      ++ s.exhaust skips (s.nextPlace skips p)
termination_by (s.settings.maxDepth.toNat - p.depth, p.data.size - p.offset)
decreasing_by
  -- Entries are deeper, and the next place is further on in the same data.
  · obtain ⟨hdepth, hopens⟩ := depth_of_mem_inside g.2
    simp only [opensAt, decide_eq_true_eq] at hopens
    apply Prod.Lex.left _ _
    rw [hdepth]
    omega
  · have hlt := Place.lt_offset_behind (p := p) (by omega) s
      (max (s.archiveClaim skips p) (s.tuneClaim skips p))
    show Prod.Lex _ _ (s.settings.maxDepth.toNat - p.depth,
      p.data.size - (s.nextPlace skips p).offset) _
    apply Prod.Lex.right _
    unfold nextPlace
    omega

/-- What is found in several containers, one after the other. -/
def exhaustAll (s : Scan) (skips : Plugin → Bool) (frames : List Frame) : Findings :=
  .join (frames.map fun g => s.exhaust skips g.place)

section

variable {s : Scan} {skips : Plugin → Bool} {p : Place}

theorem exhaust_of_size_le (h : p.data.size ≤ p.offset) : s.exhaust skips p = ∅ := by
  rw [exhaust, dif_pos h]

theorem exhaust_of_lt_size (h : p.offset < p.data.size) :
    s.exhaust skips p = ⟨[], (s.inside skips p).length⟩ ++ s.exhaustAll skips (s.inside skips p)
      ++ s.here skips p ++ s.exhaust skips (s.nextPlace skips p) := by
  have hinside : ((s.inside skips p).attach.map fun g => s.exhaust skips g.1.place)
      = (s.inside skips p).map fun g => s.exhaust skips g.place :=
    List.attach_map_val (f := fun g : Frame => s.exhaust skips g.place)
  rw [exhaust, dif_neg (by omega), hinside]
  rfl

theorem exhaust_of_archiveAt_none (h : p.offset < p.data.size)
    (hnone : s.archiveAt skips p.frame = none) :
    s.exhaust skips p = s.here skips p
      ++ s.exhaust skips (p.behind s (max 0 (s.tuneClaim skips p))) := by
  have hinside : s.inside skips p = [] := by rw [inside, hnone]; rfl
  have hclaim : s.archiveClaim skips p = 0 := by rw [archiveClaim, hnone]; rfl
  rw [exhaust_of_lt_size h, hinside, nextPlace, hclaim]
  exact congrArg (· ++ _) (Findings.empty_append _)

theorem exhaust_of_archiveAt_some (h : p.offset < p.data.size) {opened : Opened}
    (hopened : s.archiveAt skips p.frame = some opened) :
    s.exhaust skips p
      = ⟨[], (s.children p.frame opened).length⟩
        ++ s.exhaustAll skips (s.children p.frame opened)
        ++ (s.here skips p
          ++ s.exhaust skips (p.behind s (max opened.claim (s.tuneClaim skips p)))) := by
  have hinside : s.inside skips p = s.children p.frame opened := by rw [inside, hopened]; rfl
  have hclaim : s.archiveClaim skips p = opened.claim := by rw [archiveClaim, hopened]; rfl
  rw [exhaust_of_lt_size h, hinside, nextPlace, hclaim, Findings.append_assoc]

/-- Whether nothing begins at a place. -/
structure Idle (s : Scan) (skips : Plugin → Bool) (p : Place) : Prop where
  archive : s.archiveAt skips p.frame = none
  tunes : s.tunesAt skips p.frame = none

theorem exhaust_of_idle (hraw : s.settings.scanRaw = true) (hidle : s.Idle skips p)
    (h : p.offset < p.data.size) :
    s.exhaust skips p = s.exhaust skips (p.withOffset (p.offset + 1)) := by
  have hinside : s.inside skips p = [] := by rw [inside, hidle.archive]; rfl
  have hhere : s.here skips p = ∅ := by rw [here, hidle.tunes]; rfl
  have hnext : s.nextPlace skips p = p.withOffset (p.offset + 1) := by
    rw [nextPlace, archiveClaim, tuneClaim, hidle.archive, hidle.tunes, Place.behind, if_pos hraw]
    rfl
  rw [exhaust_of_lt_size h, hinside, hhere, hnext]
  exact Findings.empty_append _

/-- **Leaving out.** Where nothing begins, offsets need not be visited. -/
theorem exhaust_eq_of_idle (hraw : s.settings.scanRaw = true) {stop : Nat}
    (hle : p.offset ≤ stop) (hstop : stop ≤ p.data.size)
    (hidle : ∀ k, p.offset ≤ k → k < stop → s.Idle skips (p.withOffset k)) :
    s.exhaust skips p = s.exhaust skips (p.withOffset stop) := by
  -- Induction on the number of offsets that are left out.
  induction hsteps : stop - p.offset generalizing p with
  | zero =>
    have hsame : stop = p.offset := by omega
    rw [hsame]
    rfl
  | succ steps ih =>
    have hfirst : s.Idle skips p := hidle p.offset (Nat.le_refl _) (by omega)
    rw [exhaust_of_idle hraw hfirst (by omega)]
    refine ih (p := p.withOffset (p.offset + 1)) ?_ hstop (fun k hk hlt => ?_) ?_
    · show p.offset + 1 ≤ stop
      omega
    · have hk : p.offset + 1 ≤ k := hk
      exact hidle k (by omega) hlt
    · show stop - (p.offset + 1) = steps
      omega

end

end Scan

end Chiptune
