import Mathlib.Algebra.GroupWithZero.Nat
import PulseTrain.Hold

/-!
# Holds joined, laid out and unrolled

What holds come to, cycle by cycle and without a bound: `Hold.coalesce` joins neighbours with the same
state, and `Hold.frames` puts holds on the sample grid.

Coalescing takes holds in one by one from the back: `Hold.join` is one such step. What is joined does
not depend on how a hold is cut into pieces (`Hold.join_join`), which is what lets playback put back
together what assembly has scattered over samples and waits.

`Hold.getElem?_flatMap_samples` finds the sample at any position of a list of holds. What a waveform
that plays holds consists of is said at the end.
-/

namespace PulseTrain.Hold

/-! ## Joining -/

/-- Takes in one more hold at the front, which is one with the next if they have the same state. -/
def join (h : Hold) : List Hold → List Hold
  | [] => [h]
  | next :: rest =>
    if h.state = next.state then ⟨h.state, h.cycles + next.cycles⟩ :: rest else h :: next :: rest

/-- Neighbours with the same state joined into one hold. -/
def coalesce (hs : List Hold) : List Hold :=
  hs.foldr join []

theorem coalesce_cons (h : Hold) (rest : List Hold) :
    coalesce (h :: rest) = join h (coalesce rest) :=
  rfl

theorem coalesce_append (hs rest : List Hold) :
    coalesce (hs ++ rest) = hs.foldr join (coalesce rest) :=
  List.foldr_append

/-- Joining changes no sample. -/
theorem flatMap_samples_join (h : Hold) (hs : List Hold) :
    (join h hs).flatMap samples = h.samples ++ hs.flatMap samples := by
  cases hs with
  | nil => rfl
  | cons next rest =>
    rw [join, List.flatMap_cons]
    split
    · rename_i hstate
      -- Two runs of one state, one after the other, are one run.
      rw [List.flatMap_cons, samples, samples, samples, hstate, ← List.append_assoc,
        List.replicate_append_replicate]
    · rw [List.flatMap_cons, List.flatMap_cons]

/-- Neither does coalescing. -/
theorem flatMap_samples_coalesce (hs : List Hold) :
    (coalesce hs).flatMap samples = hs.flatMap samples := by
  induction hs with
  | nil => rfl
  | cons h rest ih => rw [coalesce_cons, flatMap_samples_join, ih, List.flatMap_cons]

/-- Two pieces of one hold join like the whole. -/
theorem join_join (s : Levels) (m n : Nat) (hs : List Hold) :
    join ⟨s, m⟩ (join ⟨s, n⟩ hs) = join ⟨s, m + n⟩ hs := by
  cases hs with
  | nil => simp [join]
  | cons next rest =>
    by_cases hs : s = next.state
    · simp [join, hs, Nat.add_assoc]
    · simp [join, hs]

/-- A hold stays by itself before one with another state. -/
theorem join_join_of_ne {s : Levels} {h : Hold} (hs : s ≠ h.state) (n : Nat) (rest : List Hold) :
    join ⟨s, n⟩ (join h rest) = ⟨s, n⟩ :: join h rest := by
  cases rest with
  | nil => simp [join, hs]
  | cons next rest =>
    by_cases hnext : h.state = next.state
    · simp [join, hs, ← hnext]
    · simp [join, hs, hnext]

/-- A hold joins like its samples, each as a hold of one cycle. -/
theorem foldr_join_samples (h : Hold) (hpos : 0 < h.cycles) (hs : List Hold) :
    (h.samples.map (⟨·, 1⟩)).foldr join hs = join h hs := by
  obtain ⟨s, n⟩ := h
  simp only [samples, List.map_replicate]
  induction n with
  | zero => cases hpos
  | succ n ih =>
    rw [List.replicate_succ, List.foldr_cons]
    -- The last cycle of all has no other of its hold to join.
    rcases Nat.eq_zero_or_pos n with rfl | hn
    · rfl
    · rw [ih hn, join_join, Nat.add_comm]

/-- A hold joins like the waits that it is split into. -/
theorem join_foldr_join (s : Levels) (m : Nat) (waits : List Nat) (hs : List Hold) :
    join ⟨s, m⟩ ((waits.map (Hold.mk s)).foldr join hs) = join ⟨s, m + waits.sum⟩ hs := by
  induction waits generalizing m with
  | nil => rfl
  | cons w waits ih =>
    rw [List.map_cons, List.foldr_cons, ih, join_join, List.sum_cons]

/-- Holds join like the samples of each, if each has a sample. -/
theorem foldr_join_flatMap_samples (lead : List Hold) (hpos : ∀ h ∈ lead, 0 < h.cycles)
    (hs : List Hold) :
    ((lead.flatMap samples).map (⟨·, 1⟩)).foldr join hs = lead.foldr join hs := by
  induction lead with
  | nil => rfl
  | cons h lead ih =>
    rw [List.flatMap_cons, List.map_append, List.foldr_append,
      ih fun g hg => hpos g (List.mem_cons_of_mem h hg),
      foldr_join_samples h (hpos h List.mem_cons_self), List.foldr_cons]

/-! ## Laid out -/

/-- Holds one after the other, the first from sample `start` on. -/
def frames (start : Nat) : List Hold → List Frame
  | [] => []
  | h :: rest => ⟨start, h.state, h.cycles⟩ :: frames (start + h.cycles) rest

/-- Laid out, holds show their samples one after the other. -/
theorem flatMap_replicate_frames (start : Nat) (hs : List Hold) {α : Type} (f : Levels → α) :
    ((frames start hs).flatMap fun g => List.replicate g.duration (f g.state))
      = (hs.flatMap samples).map f := by
  induction hs generalizing start with
  | nil => rfl
  | cons h hs ih =>
    rw [frames, List.flatMap_cons, ih, List.flatMap_cons, List.map_append, samples,
      List.map_replicate]

theorem length_flatMap_samples (hs : List Hold) :
    (hs.flatMap samples).length = (hs.map (·.cycles)).sum := by
  simp [List.length_flatMap, samples]

/-- The last of the frames ends where all cycles have passed. -/
theorem getLast?_frames (start : Nat) (hs : List Hold) :
    ((frames start hs).getLast?.elim start fun g => g.index + g.duration)
      = start + (hs.map (·.cycles)).sum := by
  induction hs generalizing start with
  | nil => rfl
  | cons h hs ih =>
    rw [frames, List.map_cons, List.sum_cons, ← Nat.add_assoc, ← ih]
    cases hs with
    | nil => rfl
    | cons next rest => rw [frames, List.getLast?_cons_cons]; rfl

/-- Joining takes no time away. -/
theorem sum_coalesce (hs : List Hold) :
    ((coalesce hs).map (·.cycles)).sum = (hs.map (·.cycles)).sum := by
  rw [← length_flatMap_samples, flatMap_samples_coalesce, length_flatMap_samples]

/-- No hold is longer than the one that it is joined to. -/
theorem exists_cycles_le_join (h : Hold) (hs : List Hold) {k : Hold} (hk : k ∈ h :: hs) :
    ∃ g ∈ join h hs, k.cycles ≤ g.cycles := by
  cases hs with
  | nil => exact ⟨k, hk, Nat.le_refl _⟩
  | cons next rest =>
    rw [join]
    split
    · rcases List.mem_cons.mp hk with rfl | hk
      · exact ⟨_, List.mem_cons_self, Nat.le_add_right _ _⟩
      · rcases List.mem_cons.mp hk with rfl | hk
        · exact ⟨_, List.mem_cons_self, Nat.le_add_left _ _⟩
        · exact ⟨k, List.mem_cons_of_mem _ hk, Nat.le_refl _⟩
    · exact ⟨k, hk, Nat.le_refl _⟩

/-- No hold is longer than the one that it becomes part of. -/
theorem exists_cycles_le_coalesce {h : Hold} {hs : List Hold} (hh : h ∈ hs) :
    ∃ g ∈ coalesce hs, h.cycles ≤ g.cycles := by
  induction hs with
  | nil => cases hh
  | cons k hs ih =>
    rw [coalesce_cons]
    rcases List.mem_cons.mp hh with rfl | hh
    · exact exists_cycles_le_join _ _ List.mem_cons_self
    · obtain ⟨g, hg, hle⟩ := ih hh
      obtain ⟨g', hg', hle'⟩ := exists_cycles_le_join k _ (List.mem_cons_of_mem k hg)
      exact ⟨g', hg', Nat.le_trans hle hle'⟩

/-- Every hold is laid out somewhere. -/
theorem exists_mem_frames (start : Nat) {h : Hold} {hs : List Hold} (hh : h ∈ hs) :
    ∃ index, ⟨index, h.state, h.cycles⟩ ∈ frames start hs := by
  induction hs generalizing start with
  | nil => cases hh
  | cons g hs ih =>
    rcases List.mem_cons.mp hh with rfl | hh
    · exact ⟨start, List.mem_cons_self⟩
    · obtain ⟨index, hmem⟩ := ih (start + g.cycles) hh
      exact ⟨index, List.mem_cons_of_mem _ hmem⟩

/-- No frame ends after all cycles have passed. -/
theorem stop_le_of_mem_frames {start : Nat} {hs : List Hold} {f : Frame} (hf : f ∈ frames start hs) :
    f.index + f.duration ≤ start + (hs.map (·.cycles)).sum := by
  induction hs generalizing start with
  | nil => cases hf
  | cons h hs ih =>
    -- The first hold stops before the rest, and the rest by induction.
    rw [List.map_cons, List.sum_cons]
    rcases List.mem_cons.mp hf with rfl | hf
    · simp only
      omega
    · have := ih hf
      omega

/-- A hold plays from the cycle on at which those before it have passed. -/
theorem getElem?_flatMap_samples_append (before rest : List Hold) (h : Hold) {i : Nat}
    (hi : i < h.cycles) :
    ((before ++ h :: rest).flatMap samples)[(before.map (·.cycles)).sum + i]? = some h.state := by
  rw [List.flatMap_append, List.flatMap_cons, ← length_flatMap_samples,
    List.getElem?_append_right (by omega), Nat.add_sub_cancel_left,
    List.getElem?_append_left (by simpa [samples] using hi)]
  simp [samples, hi]

/-- Hold number `j` plays from the cycle on at which those before it have passed. -/
theorem getElem?_flatMap_samples (hs : List Hold) {j : Nat} (hj : j < hs.length) {i : Nat}
    (hi : i < hs[j].cycles) :
    (hs.flatMap samples)[((hs.take j).map (·.cycles)).sum + i]? = some hs[j].state := by
  have h := getElem?_flatMap_samples_append (hs.take j) (hs.drop (j + 1)) hs[j] hi
  rwa [List.getElem_cons_drop, List.take_append_drop] at h

/-! ## Unrolled -/

theorem length_samples (h : Hold) : h.samples.length = h.cycles :=
  List.length_replicate

/-- The samples of a waveform show the states of its holds. -/
theorem exists_of_mem_unroll {quantum : Nat} {hs : List Hold} {state : Levels}
    (hstate : state ∈ unroll quantum hs) : ∃ h ∈ hs, h.state = state := by
  fun_induction unroll quantum hs with
  | case1 => cases hstate
  | case2 last => exact ⟨last, List.mem_singleton_self last, (List.eq_of_mem_replicate hstate).symm⟩
  | case3 h next rest ih =>
    rcases List.mem_append.mp hstate with hfirst | hrest
    · exact ⟨h, List.mem_cons_self, (List.eq_of_mem_replicate hfirst).symm⟩
    · obtain ⟨g, hg, heq⟩ := ih hrest
      exact ⟨g, List.mem_cons_of_mem h hg, heq⟩

/-- All holds but the last take their cycles, and the last takes a quantum. -/
theorem length_unroll {quantum : Nat} {hs : List Hold} (hne : hs ≠ []) :
    (unroll quantum hs).length = (hs.dropLast.map (·.cycles)).sum + quantum := by
  fun_induction unroll quantum hs with
  | case1 => exact absurd rfl hne
  | case2 last => simp
  | case3 h next rest ih =>
    rw [List.length_append, length_samples, ih (List.cons_ne_nil next rest),
      List.dropLast_cons_cons, List.map_cons, List.sum_cons, Nat.add_assoc]

/-- A waveform that plays anything has a sample. -/
theorem length_unroll_pos {quantum : Nat} (hquantum : 0 < quantum) {hs : List Hold} (hne : hs ≠ []) :
    0 < (unroll quantum hs).length := by
  rw [length_unroll hne]
  exact Nat.add_pos_right _ hquantum

end PulseTrain.Hold
