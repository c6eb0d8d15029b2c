import PulseTrain.Playback
import PulseTrain.Proofs.FirstFault
import PulseTrain.Proofs.Holds

/-!
# Scores

What a script asks for, on a sample grid without end. A score keeps no cursor and counts without a bound:
it is the holds that a script plays, one after the other.

* `Playback.holds` collects the holds from the first waveform on, and `Playback.leadIn` is how long the
  waits before it are. `Artifact.score` puts the holds on the sample grid, neighbours with the same state
  joined.
* `Playback.elapsed` is how many samples pass before the script ends or something cannot be played.
* `Instruction.Unplayable` is what stops a script, and `Playback.holds_eq_error_iff` says which
  instruction is reported.
-/

namespace PulseTrain

/-- The card only waits. -/
def Instruction.isWait : Instruction → Bool
  | generate _ => false
  | wait _ => true

namespace Playback

/-- The waits before the first waveform. -/
def leadIn : List Instruction → Nat
  | .wait cycles :: rest => cycles + leadIn rest
  | _ => 0

/-- What the instructions play, from the first waveform on, when `held` is played so far. -/
def holds (ws : Waveforms) (quantum : Nat) (held : Option Levels) :
    List Instruction → Except PlaybackFault (List Hold)
  | [] => .ok []
  | .wait cycles :: rest =>
    (holds ws quantum held rest).map fun hs =>
      match held with
      | some state => ⟨state, cycles⟩ :: hs
      | none => hs
  | .generate name :: rest =>
    match ws.run quantum name with
    | .error fault => .error fault
    | .ok (states, last) =>
      (holds ws quantum (some last) rest).map fun hs =>
        states.map (⟨·, 1⟩) ++ ⟨last, 0⟩ :: hs

/-- The samples that pass before the end, or before the first instruction that cannot be played. -/
def elapsed (ws : Waveforms) (quantum : Nat) : List Instruction → Nat
  | [] => 0
  | .wait cycles :: rest => cycles + elapsed ws quantum rest
  | .generate name :: rest =>
    match ws.run quantum name with
    | .error _ => 0
    | .ok (states, _) => states.length + elapsed ws quantum rest

end Playback

/-- The frames that an artifact asks for. -/
def Artifact.score (a : Artifact) (quantum : Nat) : Except PlaybackFault (List Frame) :=
  (Playback.holds a.waveforms quantum none a.script.instructions).map fun hs =>
    Hold.frames (Playback.leadIn a.script.instructions) (Hold.coalesce hs)

/-- The samples that an artifact takes. -/
def Artifact.elapsed (a : Artifact) (quantum : Nat) : Nat :=
  Playback.elapsed a.waveforms quantum a.script.instructions

/-- The frames of a score are joined holds, laid out after the lead-in. -/
theorem Artifact.exists_holds_of_score {a : Artifact} {quantum : Nat} {fs : List Frame}
    (h : a.score quantum = .ok fs) :
    ∃ hs, Playback.holds a.waveforms quantum none a.script.instructions = .ok hs
      ∧ fs = Hold.frames (Playback.leadIn a.script.instructions) (Hold.coalesce hs) := by
  unfold score at h
  cases hholds : Playback.holds a.waveforms quantum none a.script.instructions with
  | error e =>
    rw [hholds] at h
    cases h
  | ok hs =>
    rw [hholds] at h
    cases h
    exact ⟨hs, rfl, rfl⟩

/-! ## What can be played -/

/-- The instruction cannot be played with these waveforms, and the fault says why. -/
inductive Instruction.Unplayable (ws : Waveforms) (quantum : Nat) :
    Instruction → PlaybackFault → Prop where
  | undefined {name : String} (h : ws.find? name = none) :
      Unplayable ws quantum (.generate name) (.undefinedWaveform name)
  | short {name : String} {samples : List Levels} (h : ws.find? name = some samples)
      (hshort : samples.length < quantum) :
      Unplayable ws quantum (.generate name) (.shortWaveform name samples.length quantum)

/-- There is something to report if a waveform is played that is not there or is too short. -/
theorem Instruction.exists_unplayable_iff {ws : Waveforms} {quantum : Nat} {is : List Instruction} :
    (∃ i ∈ is, ∃ e, i.Unplayable ws quantum e)
      ↔ ∃ name, .generate name ∈ is
          ∧ (ws.find? name = none
            ∨ ∃ samples, ws.find? name = some samples ∧ samples.length < quantum) := by
  constructor
  · rintro ⟨i, hi, e, h⟩
    cases h with
    | undefined h => exact ⟨_, hi, .inl h⟩
    | short h hshort => exact ⟨_, hi, .inr ⟨_, h, hshort⟩⟩
  · rintro ⟨name, hname, h | ⟨samples, h, hshort⟩⟩
    · exact ⟨_, hname, _, .undefined h⟩
    · exact ⟨_, hname, _, .short h hshort⟩

namespace Waveforms

variable {ws : Waveforms} {quantum : Nat} {name : String}

/-- A waveform of at least a quantum is cut into its samples up to the last quantum and the level held over
that quantum. -/
theorem run_of_le (hquantum : 0 < quantum) {samples : List Levels}
    (h : ws.find? name = some samples) (hlong : quantum ≤ samples.length) :
    ∃ last, samples[samples.length - quantum]? = some last
      ∧ ws.run quantum name = .ok (samples.take (samples.length - quantum), last) := by
  have hlt : samples.length - quantum < samples.length := by omega
  refine ⟨samples[samples.length - quantum], List.getElem?_eq_getElem hlt, ?_⟩
  unfold run
  simp only [h, List.drop_eq_getElem_cons hlt, if_neg (Nat.not_lt.mpr hlong)]

/-- Playing a waveform fails exactly when the instruction that names it is unplayable, and with the same
fault. -/
theorem run_eq_error_iff (hquantum : 0 < quantum) {e : PlaybackFault} :
    ws.run quantum name = .error e ↔ (Instruction.generate name).Unplayable ws quantum e := by
  constructor
  · intro hrun
    -- The waveform is unknown, too short, or long enough to be played.
    cases h : ws.find? name with
    | none =>
      unfold run at hrun
      rw [h] at hrun
      cases hrun
      exact .undefined h
    | some samples =>
      by_cases hshort : samples.length < quantum
      · unfold run at hrun
        simp only [h, if_pos hshort] at hrun
        split at hrun
        all_goals
          cases hrun
          exact .short h hshort
      · obtain ⟨last, -, hok⟩ := run_of_le hquantum h (Nat.not_lt.mp hshort)
        rw [hok] at hrun
        cases hrun
  · intro hwrong
    unfold run
    cases hwrong with
    | undefined h => rw [h]
    | short h hshort =>
      simp only [h, if_pos hshort]
      split <;> rfl

/-- What a waveform plays, if it can be played. -/
theorem find?_of_run_eq_ok (hquantum : 0 < quantum) {states : List Levels} {last : Levels}
    (hrun : ws.run quantum name = .ok (states, last)) :
    ∃ samples, ws.find? name = some samples ∧ states = samples.take (samples.length - quantum)
      ∧ samples[samples.length - quantum]? = some last := by
  -- What plays is playable, so the waveform is there and long enough.
  have hplayable : ∀ e, ¬ (Instruction.generate name).Unplayable ws quantum e := fun e he => by
    rw [(run_eq_error_iff hquantum).mpr he] at hrun
    cases hrun
  cases h : ws.find? name with
  | none => exact absurd (.undefined h) (hplayable _)
  | some samples =>
    have hlong : quantum ≤ samples.length :=
      Nat.not_lt.mp fun hshort => hplayable _ (.short h hshort)
    obtain ⟨last', hlast, hok⟩ := run_of_le hquantum h hlong
    rw [hok] at hrun
    cases hrun
    exact ⟨samples, rfl, rfl, hlast⟩

end Waveforms

namespace Playback

variable {ws : Waveforms} {quantum : Nat}

/-! ## One instruction of a script -/

/-- A generated waveform that plays gives one sample for each state, then its last level, to be held from
there on. -/
theorem holds_generate_eq_ok {held : Option Levels} {name : String} {rest : List Instruction}
    {hs : List Hold} (h : holds ws quantum held (.generate name :: rest) = .ok hs) :
    ∃ states last hs', ws.run quantum name = .ok (states, last)
      ∧ holds ws quantum (some last) rest = .ok hs'
      ∧ hs = states.map (⟨·, 1⟩) ++ ⟨last, 0⟩ :: hs' := by
  rw [holds] at h
  cases hrun : ws.run quantum name with
  | error e =>
    rw [hrun] at h
    cases h
  | ok played =>
    obtain ⟨states, last⟩ := played
    rw [hrun] at h
    cases hrest : holds ws quantum (some last) rest with
    | error e =>
      simp [hrest, Except.map] at h
    | ok hs' =>
      simp only [hrest, Except.map, Except.ok.injEq] at h
      exact ⟨states, last, hs', rfl, hrest, h.symm⟩

/-- A wait lengthens the level that is held, and is silent when none is. -/
theorem holds_wait_eq_ok {held : Option Levels} {cycles : Nat} {rest : List Instruction}
    {hs : List Hold} (h : holds ws quantum held (.wait cycles :: rest) = .ok hs) :
    ∃ hs', holds ws quantum held rest = .ok hs'
      ∧ hs = (held.map (⟨·, cycles⟩)).toList ++ hs' := by
  rw [holds] at h
  cases hrest : holds ws quantum held rest with
  | error e =>
    rw [hrest] at h
    cases h
  | ok hs' =>
    rw [hrest] at h
    cases h
    refine ⟨hs', rfl, ?_⟩
    cases held <;> rfl

/-- A script fails to play exactly at its first unplayable instruction. -/
theorem holds_eq_error_iff (hquantum : 0 < quantum) {is : List Instruction} {e : PlaybackFault}
    (held : Option Levels) :
    holds ws quantum held is = .error e
      ↔ FirstFault (fun i => i.Unplayable ws quantum) is e := by
  -- By induction on the script, whatever is held: a wait never fails, and a waveform may.
  induction is generalizing held with
  | nil => exact iff_of_false (fun h => by cases h) not_firstFault_nil
  | cons i rest ih =>
    rw [firstFault_cons]
    cases i with
    | wait cycles =>
      have hwait : ∀ e', ¬ (Instruction.wait cycles).Unplayable ws quantum e' := fun e' h => by
        cases h
      simp only [hwait, not_false_iff, implies_true, true_and, false_or]
      rw [← ih held, holds]
      cases holds ws quantum held rest <;> simp [Except.map]
    | generate name =>
      rw [holds]
      simp only [← Waveforms.run_eq_error_iff hquantum]
      cases hrun : ws.run quantum name with
      | error e' => simp
      | ok played =>
        simp only [reduceCtorEq, not_false_iff, implies_true, true_and, false_or]
        rw [← ih (some played.2)]
        cases holds ws quantum (some played.2) rest <;> simp [Except.map]

/-! ## Lead-ins -/

/-- Waits before the first waveform lead in: nothing is held while they pass. -/
theorem leadIn_waits (waits : List Nat) (name : String) (rest : List Instruction) :
    leadIn (waits.map .wait ++ .generate name :: rest) = waits.sum := by
  induction waits with
  | nil => rfl
  | cons w waits ih => rw [List.map_cons, List.cons_append, leadIn, ih, List.sum_cons]

/-- A script of waits alone plays nothing, and any other plays something. -/
theorem eq_nil_iff_of_holds {is : List Instruction} {hs : List Hold}
    (h : holds ws quantum none is = .ok hs) : hs = [] ↔ is.all Instruction.isWait := by
  induction is generalizing hs with
  | nil =>
    cases h
    simp
  | cons i rest ih =>
    -- Only waits leave nothing to play, and only while nothing is held.
    cases i with
    | wait cycles =>
      obtain ⟨hs', hrest, rfl⟩ := holds_wait_eq_ok h
      simpa [Instruction.isWait] using ih hrest
    | generate name =>
      obtain ⟨states, last, hs', -, -, rfl⟩ := holds_generate_eq_ok h
      simp [Instruction.isWait]

/-! ## How long a script takes -/

/-- With a level held from the start, a script takes as many cycles as its holds add up to. -/
theorem elapsed_of_holds_some {held : Levels} {is : List Instruction} {hs : List Hold}
    (h : holds ws quantum (some held) is = .ok hs) :
    elapsed ws quantum is = (hs.map (·.cycles)).sum := by
  induction is generalizing held hs with
  | nil =>
    cases h
    rfl
  | cons i rest ih =>
    -- Every instruction takes the cycles of the holds it adds.
    cases i with
    | wait cycles =>
      obtain ⟨hs', hrest, rfl⟩ := holds_wait_eq_ok h
      rw [elapsed, ih hrest]
      rfl
    | generate name =>
      obtain ⟨states, last, hs', hrun, hrest, rfl⟩ := holds_generate_eq_ok h
      rw [elapsed, hrun]
      simp only
      rw [ih hrest]
      simp [Function.comp_def]

/-- The waits before the first waveform, and then the holds. -/
theorem elapsed_of_holds {is : List Instruction} {hs : List Hold}
    (h : holds ws quantum none is = .ok hs) :
    elapsed ws quantum is = leadIn is + (hs.map (·.cycles)).sum := by
  induction is generalizing hs with
  | nil =>
    cases h
    rfl
  | cons i rest ih =>
    cases i with
    | wait cycles =>
      obtain ⟨hs', hrest, rfl⟩ := holds_wait_eq_ok h
      rw [elapsed, leadIn, Nat.add_assoc]
      exact congrArg (cycles + ·) (ih hrest)
    | generate name =>
      -- What is held before a waveform does not matter to it.
      have hheld : holds ws quantum (some ⟨[]⟩) (.generate name :: rest) = .ok hs := h
      have hnone : leadIn (.generate name :: rest) = 0 := rfl
      rw [elapsed_of_holds_some hheld, hnone, Nat.zero_add]

end Playback

end PulseTrain
