import PulseTrain.Proofs.FirstFault
import PulseTrain.Proofs.Frames

/-!
# Recordings as frames

The compiler's first stage on any recording: it stops at the first transition that is on no channel or
at no sample of the card, and otherwise the last write wins.

* `Change.Refuses` is what is wrong with one transition, and `Frame.ofTransitions_eq_error_iff` which of
  several is reported.
* `Frame.LastWriteWins` says what the frames of changes are, without sorting or merging.
* `Frame.cut_ofTransitions` is the result.
-/

namespace PulseTrain

/-! ## Transitions that are refused -/

namespace Change

variable {card : Card} {t : Transition Float} {e : Fault}

/-- The transition `t` has no place on `card`, and `e` says why. -/
inductive Refuses (card : Card) (t : Transition Float) : Fault → Prop where
  | channel (h : card.channels ≤ t.channel) :
      Refuses card t (.channelOutOfRange t.channel card.channels)
  | time (hchannel : t.channel < card.channels)
      (h : sampleIndex? card.clockRate card.units t.time = none) :
      Refuses card t (.unplaceableTime t.time)

/-- A transition is refused for its channel, or else for its time. -/
theorem ofTransition_eq_error_iff : ofTransition card t = .error e ↔ Refuses card t e := by
  unfold ofTransition
  -- The channel is looked at before the time.
  by_cases hchannel : t.channel < card.channels
  · rw [if_pos hchannel]
    cases hindex : sampleIndex? card.clockRate card.units t.time with
    | none =>
      refine ⟨fun h => ?_, fun h => ?_⟩
      · cases h
        exact .time hchannel hindex
      · cases h with
        | channel h => omega
        | time _ _ => rfl
    | some index =>
      refine ⟨fun h => (by cases h), fun h => ?_⟩
      cases h with
      | channel h => omega
      | time _ h =>
        rw [hindex] at h
        cases h
  · rw [if_neg hchannel]
    refine ⟨fun h => ?_, fun h => ?_⟩
    · cases h
      exact .channel (by omega)
    · cases h with
      | channel _ => rfl
      | time h _ => exact absurd h hchannel

/-- What makes a transition refused. -/
theorem exists_refuses_iff :
    (∃ e, Refuses card t e)
      ↔ card.channels ≤ t.channel ∨ sampleIndex? card.clockRate card.units t.time = none := by
  constructor
  · rintro ⟨e, h⟩
    cases h with
    | channel h => exact .inl h
    | time _ h => exact .inr h
  · intro h
    -- Only a transition on the card's own channels is refused for its time.
    by_cases hchannel : card.channels ≤ t.channel
    · exact ⟨_, .channel hchannel⟩
    · exact ⟨_, .time (by omega) (h.resolve_left hchannel)⟩

end Change

namespace Frame

variable {card : Card} {ts : List (Transition Float)}

/-- Of a recording, the first transition that is refused is reported. -/
theorem ofTransitions_eq_error_iff {e : Fault} :
    ofTransitions card ts = .error e ↔ FirstFault (Change.Refuses card) ts e := by
  have hplaced : ofTransitions card ts = .error e
      ↔ ts.mapM (Change.ofTransition card) = .error e := by
    unfold ofTransitions
    cases ts.mapM (Change.ofTransition card) <;> simp [Except.map]
  rw [hplaced, mapM_eq_error_iff]
  simp only [Change.ofTransition_eq_error_iff]

/-! ## Frames of what is placed -/

/-- The frames `fs` show what the changes `cs`, in the order of their arrival, ask of so many
channels. -/
structure LastWriteWins (channels : Nat) (cs : List Change) (fs : List Frame) : Prop where
  silent : cs = [] → fs = []
  increasing : (fs.map (·.index)).Pairwise (· < ·)
  mem_index : cs ≠ [] → ∀ k, k ∈ fs.map (·.index) ↔ k = 0 ∨ ∃ c ∈ cs, c.index = k
  width : ∀ f ∈ fs, f.state.width = channels
  /-- A channel has the level of the last change on it, by sample and then by arrival. -/
  levelAt : ∀ f ∈ fs, ∀ channel < channels, ∃ level, f.state.get? channel = some level
    ∧ Change.LevelAt cs channel f.index level
  contiguous : Contiguous fs
  duration_pos : ∀ f ∈ fs, 0 < f.duration
  last : ∀ f ∈ fs.getLast?, f.duration = 1

/-- The frames of changes show the last write of every channel. -/
theorem lastWriteWins_ofChanges (channels : Nat) (cs : List Change) :
    LastWriteWins channels cs (ofChanges channels cs) where
  silent hcs := hcs ▸ ofChanges_nil channels
  increasing := index_ofChanges_increasing channels cs
  mem_index hcs _ := mem_index_ofChanges hcs
  width _ hf := (state_ofChanges hf).1
  levelAt _ hf := (state_ofChanges hf).2
  contiguous := contiguous_ofChanges channels cs
  duration_pos _ hf := duration_pos_of_mem_ofChanges hf
  last _ hf := duration_of_mem_getLast?_ofChanges hf

/-! ## The result -/

/-- What becomes of the recording `ts` on `card`. -/
structure Cut (card : Card) (ts : List (Transition Float)) : Prop where
  refused_iff : (∃ e, ofTransitions card ts = .error e)
    ↔ ∃ t ∈ ts, card.channels ≤ t.channel
        ∨ sampleIndex? card.clockRate card.units t.time = none
  reported_iff : ∀ e, ofTransitions card ts = .error e ↔ FirstFault (Change.Refuses card) ts e
  shown : ∀ fs, ofTransitions card ts = .ok fs →
    ∃ cs, List.Forall₂ (Change.Places card) ts cs ∧ LastWriteWins card.channels cs fs

/-- **A recording as frames.** Whatever is recorded, the first transition that has no place on the card
is reported; if there is none, the last write wins. -/
theorem cut_ofTransitions (card : Card) (ts : List (Transition Float)) : Cut card ts where
  refused_iff := by
    simp only [ofTransitions_eq_error_iff, exists_firstFault_iff, Change.exists_refuses_iff]
  reported_iff _ := ofTransitions_eq_error_iff
  shown fs hfs := by
    obtain ⟨cs, hplaced, rfl⟩ := eq_ofChanges_of_ofTransitions hfs
    exact ⟨cs, hplaced, lastWriteWins_ofChanges card.channels cs⟩

end Frame

end PulseTrain
