import Mathlib.Data.List.Chain
import PulseTrain.Proofs.FirstFault
import PulseTrain.Proofs.LastWrite

/-!
# The frames of a recording

`Frame.ofTransitions` either refuses a recording or cuts it into frames that lie end to end from
sample `0` on, one for each sample at which something is asked for, with the levels asked for up to
there.

* `Change.Places` says which change a transition is on the sample grid.
* `Frame.Contiguous` says that every frame ends where the next begins.
* `Frame.eq_ofChanges_of_ofTransitions` opens the compiler's first stage; what the frames are is then
  said about `Frame.ofChanges`.
-/

namespace PulseTrain

/-! ## Transitions on the sample grid -/

namespace Change

/-- The change `c` is the transition `t` at its sample on `card`. -/
structure Places (card : Card) (t : Transition Float) (c : Change) : Prop where
  index_eq : sampleIndex? card.clockRate card.units t.time = some c.index
  channel_eq : c.channel = t.channel
  level_eq : c.level = t.level
  channel_lt : t.channel < card.channels

/-- A transition has one place. -/
theorem Places.unique {card : Card} {t : Transition Float} {c c' : Change} (h : Places card t c)
    (h' : Places card t c') : c = c' := by
  obtain ⟨index, channel, level⟩ := c
  obtain ⟨index', channel', level'⟩ := c'
  obtain rfl : index = index' := Option.some.inj (h.index_eq.symm.trans h'.index_eq)
  obtain rfl : channel = channel' := h.channel_eq.trans h'.channel_eq.symm
  obtain rfl : level = level' := h.level_eq.trans h'.level_eq.symm
  rfl

theorem eq_of_places {card : Card} {ts : List (Transition Float)} {cs cs' : List Change}
    (h : List.Forall₂ (Places card) ts cs) (h' : List.Forall₂ (Places card) ts cs') : cs = cs' :=
  have hunique : Relator.RightUnique (Places card) := fun _ _ _ => Places.unique
  hunique.forall₂ h h'

/-- What a transition is turned into is its place. -/
theorem places_of_ofTransition {card : Card} {t : Transition Float} {c : Change}
    (h : ofTransition card t = .ok c) : Places card t c := by
  unfold ofTransition at h
  split at h
  · rename_i hchannel
    cases hindex : sampleIndex? card.clockRate card.units t.time with
    | none => simp [hindex] at h
    | some index =>
      simp only [hindex, Except.ok.injEq] at h
      subst h
      exact ⟨hindex, rfl, rfl, hchannel⟩
  · cases h

/-- Where transitions fall depends on a card's clock and channels alone. -/
theorem ofTransition_congr {card other : Card} (hclock : other.clockRate = card.clockRate)
    (hunits : other.units = card.units) (hchannels : other.channels = card.channels)
    (t : Transition Float) : ofTransition other t = ofTransition card t := by
  unfold ofTransition
  rw [hclock, hunits, hchannels]

end Change

namespace Frame

/-- The compiler's first stage, when it does not refuse. -/
theorem eq_ofChanges_of_ofTransitions {card : Card} {ts : List (Transition Float)}
    {fs : List Frame} (h : ofTransitions card ts = .ok fs) :
    ∃ cs, List.Forall₂ (Change.Places card) ts cs ∧ fs = ofChanges card.channels cs := by
  unfold ofTransitions at h
  cases hcs : ts.mapM (Change.ofTransition card) with
  | error e =>
    rw [hcs] at h
    cases h
  | ok cs =>
    rw [hcs] at h
    cases h
    exact ⟨cs, (mapM_eq_ok_iff.mp hcs).imp fun _ _ => Change.places_of_ofTransition, rfl⟩

/-- Frames depend on three settings of the card alone. -/
theorem ofTransitions_congr {card other : Card} (hclock : other.clockRate = card.clockRate)
    (hunits : other.units = card.units) (hchannels : other.channels = card.channels)
    (ts : List (Transition Float)) : ofTransitions other ts = ofTransitions card ts := by
  have hplace : Change.ofTransition other = Change.ofTransition card :=
    funext (Change.ofTransition_congr hclock hunits hchannels)
  unfold ofTransitions
  rw [hplace, hchannels]

/-! ## Durations -/

/-- Every frame ends where the next begins. -/
def Contiguous (fs : List Frame) : Prop :=
  fs.IsChain fun f next => f.index + f.duration = next.index

/-- Frames keep the states, in order and at their samples. -/
theorem map_ofStates (l : List (Nat × Levels)) :
    (ofStates l).map (fun f => (f.index, f.state)) = l := by
  fun_induction ofStates l with
  | case1 => rfl
  | case2 => rfl
  | case3 index state next state' rest ih => rw [List.map_cons, ih]

theorem map_index_ofStates (l : List (Nat × Levels)) :
    (ofStates l).map (·.index) = l.map Prod.fst := by
  conv_rhs => rw [← map_ofStates l]
  rw [List.map_map]
  rfl

theorem mem_of_mem_ofStates {l : List (Nat × Levels)} {f : Frame} (h : f ∈ ofStates l) :
    (f.index, f.state) ∈ l := by
  rw [← map_ofStates l]
  exact List.mem_map_of_mem h

/-- States at increasing samples make frames that follow one another. -/
theorem contiguous_ofStates {l : List (Nat × Levels)}
    (h : (l.map Prod.fst).Pairwise (· < ·)) : Contiguous (ofStates l) := by
  unfold Contiguous
  fun_induction ofStates l with
  | case1 => exact .nil
  | case2 => exact .singleton _
  | case3 index state next state' rest ih =>
    have hlt : index < next := (List.pairwise_cons.mp h).1 next (by simp)
    have hrest := ih h.of_cons
    -- Whatever the rest is cut into, the first of it begins at `next`.
    cases hcut : ofStates ((next, state') :: rest) with
    | nil => exact .singleton _
    | cons f fs =>
      have hf : f.index = next := by
        have := congrArg List.head? (map_index_ofStates ((next, state') :: rest))
        simpa [hcut] using this
      rw [hcut] at hrest
      refine .cons_cons ?_ hrest
      simp only [hf]
      omega

/-- No frame is empty. -/
theorem duration_pos_of_mem_ofStates {l : List (Nat × Levels)}
    (h : (l.map Prod.fst).Pairwise (· < ·)) {f : Frame} (hf : f ∈ ofStates l) : 0 < f.duration := by
  fun_induction ofStates l with
  | case1 => cases hf
  | case2 =>
    rw [List.mem_singleton] at hf
    subst hf
    exact Nat.one_pos
  | case3 index state next state' rest ih =>
    have hlt : index < next := (List.pairwise_cons.mp h).1 next (by simp)
    rcases List.mem_cons.mp hf with rfl | hf
    · exact Nat.sub_pos_of_lt hlt
    · exact ih h.of_cons hf

/-- The last frame of all takes one sample. -/
theorem duration_of_mem_getLast?_ofStates {l : List (Nat × Levels)} {f : Frame}
    (h : f ∈ (ofStates l).getLast?) : f.duration = 1 := by
  fun_induction ofStates l with
  | case1 => cases h
  | case2 =>
    cases h
    rfl
  | case3 index state next state' rest ih =>
    apply ih
    -- There is a frame after this one, and so the last frame is one of the rest.
    cases hrest : ofStates ((next, state') :: rest) with
    | nil =>
      have := congrArg List.length (map_ofStates ((next, state') :: rest))
      simp [hrest] at this
    | cons g gs => rwa [hrest, List.getLast?_cons_cons] at h

/-! ## The frames of changes

The states that the merge writes down, in the order of their samples. Without a change there is no
frame at all. -/

section Changes

variable {channels : Nat} {cs : List Change}

theorem ofChanges_nil (channels : Nat) : ofChanges channels [] = [] := by
  simp [ofChanges, Change.states, ofStates]

/-- The frames of changes are those of the states that the sorted changes lead to. -/
theorem ofChanges_eq (hcs : cs ≠ []) :
    ofChanges channels cs
      = ofStates (Change.merge 0 (Levels.low channels) (cs.mergeSort Change.le)) := by
  have hsort : cs.mergeSort Change.le ≠ [] := by
    rw [← List.length_pos_iff, List.length_mergeSort, List.length_pos_iff]
    exact hcs
  unfold ofChanges Change.states
  split
  · rename_i h
    exact absurd h hsort
  · rfl

/-- States are written down at increasing samples. -/
theorem merge_increasing (channels : Nat) (cs : List Change) :
    ((Change.merge 0 (Levels.low channels) (cs.mergeSort Change.le)).map Prod.fst).Pairwise
      (· < ·) :=
  Change.merge_index_lt (Change.pairwise_mergeSort_le cs) fun c _ => Nat.zero_le c.index

/-- So frames start at increasing samples. -/
theorem index_ofChanges_increasing (channels : Nat) (cs : List Change) :
    ((ofChanges channels cs).map (·.index)).Pairwise (· < ·) := by
  by_cases hcs : cs = []
  · simp [hcs, ofChanges_nil]
  · rw [ofChanges_eq hcs, map_index_ofStates]
    exact merge_increasing channels cs

/-- Frames start where a change is, and at sample `0`. -/
theorem mem_index_ofChanges (hcs : cs ≠ []) {k : Nat} :
    k ∈ (ofChanges channels cs).map (·.index) ↔ k = 0 ∨ ∃ c ∈ cs, c.index = k := by
  rw [ofChanges_eq hcs, map_index_ofStates, Change.mem_merge_index]
  simp only [List.mem_mergeSort]

/-- The first frame starts at sample `0`. -/
theorem head?_index_ofChanges (channels : Nat) (hcs : cs ≠ []) :
    ((ofChanges channels cs).map (·.index)).head? = some 0 := by
  obtain ⟨first, rest, h⟩ :=
    Change.head_merge 0 (Levels.low channels) (cs.mergeSort Change.le)
  rw [ofChanges_eq hcs, map_index_ofStates, h]
  rfl

theorem index_of_mem_head?_ofChanges {f : Frame} (hf : f ∈ (ofChanges channels cs).head?) :
    f.index = 0 := by
  by_cases hcs : cs = []
  · rw [hcs, ofChanges_nil] at hf
    cases hf
  · have hhead := head?_index_ofChanges channels hcs
    rw [List.head?_map, Option.mem_def.mp hf] at hhead
    exact Option.some.inj hhead

/-- Each frame ends where the next one begins. -/
theorem contiguous_ofChanges (channels : Nat) (cs : List Change) :
    Contiguous (ofChanges channels cs) := by
  by_cases hcs : cs = []
  · rw [hcs, ofChanges_nil]
    exact .nil
  · rw [ofChanges_eq hcs]
    exact contiguous_ofStates (merge_increasing channels cs)

/-- No frame of changes is empty. -/
theorem duration_pos_of_mem_ofChanges {f : Frame} (hf : f ∈ ofChanges channels cs) :
    0 < f.duration := by
  by_cases hcs : cs = []
  · rw [hcs, ofChanges_nil] at hf
    cases hf
  · rw [ofChanges_eq hcs] at hf
    exact duration_pos_of_mem_ofStates (merge_increasing channels cs) hf

/-- The last of them takes one sample. -/
theorem duration_of_mem_getLast?_ofChanges {f : Frame}
    (hf : f ∈ (ofChanges channels cs).getLast?) : f.duration = 1 := by
  by_cases hcs : cs = []
  · rw [hcs, ofChanges_nil] at hf
    cases hf
  · rw [ofChanges_eq hcs] at hf
    exact duration_of_mem_getLast?_ofStates hf

/-- A state that is written down has as many channels as the one before all changes. -/
theorem width_of_mem_merge {k : Nat} {s : Levels}
    (h : (k, s) ∈ Change.merge 0 (Levels.low channels) (cs.mergeSort Change.le)) :
    s.width = channels := by
  rw [Change.state_of_mem_merge (Change.pairwise_mergeSort_le cs) (fun c _ => Nat.zero_le c.index) h,
    Levels.width_after, Levels.width_low]

/-- In a frame every channel has the level that is last asked for up to its start. -/
theorem state_ofChanges {f : Frame} (hf : f ∈ ofChanges channels cs) :
    f.state.width = channels
      ∧ ∀ channel < channels, ∃ level, f.state.get? channel = some level
          ∧ Change.LevelAt cs channel f.index level := by
  by_cases hcs : cs = []
  · rw [hcs, ofChanges_nil] at hf
    cases hf
  · rw [ofChanges_eq hcs] at hf
    have hmem := mem_of_mem_ofStates hf
    exact ⟨width_of_mem_merge hmem, fun channel hchannel => Change.levelAt_merge hchannel hmem⟩

end Changes

section Transitions

variable {card : Card} {ts : List (Transition Float)} {fs : List Frame}

theorem width_of_mem_ofTransitions (h : ofTransitions card ts = .ok fs) {f : Frame} (hf : f ∈ fs) :
    f.state.width = card.channels := by
  obtain ⟨cs, -, rfl⟩ := eq_ofChanges_of_ofTransitions h
  exact (state_ofChanges hf).1

theorem duration_pos_of_mem_ofTransitions (h : ofTransitions card ts = .ok fs) {f : Frame}
    (hf : f ∈ fs) : 0 < f.duration := by
  obtain ⟨cs, -, rfl⟩ := eq_ofChanges_of_ofTransitions h
  exact duration_pos_of_mem_ofChanges hf

end Transitions

end Frame

end PulseTrain
