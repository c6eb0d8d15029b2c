import PulseTrain.Proofs.Scores

/-!
# Playback with a cursor

A program plays a script on a tape: it has the frames so far and a cursor, and counts both in counters.
Three things are to be seen.

Without a bound, the tape is right. The latest frame always ends at the cursor, whatever the script
(`Tape.Ended`), so only states decide where a frame goes on, and a run is pushed as a hold is joined:
`Tape.pushed` and `Tape.prolonged` are the steps, `Tape.stepped` and `Tape.reached` take instructions, and
`Tape.frames_reached` says that the frames are those of the score.

With a bound, a program has what its arithmetic makes of that tape (`Tape.counted`): a checked program
has it as it is, or has halted if the cursor does not fit; a wrapping one has what counters keep of every
number on it. `Tape.run_counted` is the induction along a script, and each step of it says that counting
before the step and counting after it come to the same.

* `Artifact.frames_checked` and `Artifact.frames_wrapping` are the result.
-/

namespace PulseTrain

namespace Tape

/-! ## Without a bound -/

/-- A frame begins at the cursor, which moves to its end. -/
def begun (t : Tape) (h : Hold) : Tape where
  frames := ⟨t.cursor, h.state, h.cycles⟩ :: t.frames
  cursor := t.cursor + h.cycles

/-- The latest frame goes on, whatever its state, and the cursor moves on. -/
def prolonged (t : Tape) (cycles : Nat) : Tape where
  frames :=
    match t.frames with
    | [] => []
    | last :: before => { last with duration := last.duration + cycles } :: before
  cursor := t.cursor + cycles

/-- The latest frame goes on if it has the state of `h`, and another begins if it does not. -/
def pushed (t : Tape) (h : Hold) : Tape :=
  if t.frames.head?.map (·.state) = some h.state then t.prolonged h.cycles else t.begun h

/-- One instruction. -/
def stepped (ws : Waveforms) (quantum : Nat) (t : Tape) : Instruction → Except PlaybackFault Tape
  | .generate name => (ws.run quantum name).map fun (states, last) =>
    ((states.map (⟨·, 1⟩)).foldl pushed t).pushed ⟨last, 0⟩
  | .wait cycles => .ok (t.prolonged cycles)

/-- The tape on which a script ends, or on which it comes to an instruction that cannot be played, and
then why not. -/
def reached (ws : Waveforms) (quantum : Nat) (t : Tape) :
    List Instruction → Tape × Option PlaybackFault
  | [] => (t, none)
  | i :: rest =>
    match stepped ws quantum t i with
    | .error fault => (t, some fault)
    | .ok t' => reached ws quantum t' rest

/-- The latest frame ends at the cursor. -/
def Ended (t : Tape) : Prop :=
  ∀ last ∈ t.frames.head?, last.index + last.duration = t.cursor

/-- The latest frame is in the state `held`. -/
def Holding (held : Levels) (t : Tape) : Prop :=
  ∃ last ∈ t.frames.head?, last.state = held

theorem ended_begun (t : Tape) (h : Hold) : (t.begun h).Ended := by
  rintro last hlast
  cases hlast
  rfl

theorem Ended.prolonged {t : Tape} (ht : t.Ended) (cycles : Nat) : (t.prolonged cycles).Ended := by
  obtain ⟨frames, cursor⟩ := t
  rintro last hlast
  cases frames with
  | nil => cases hlast
  | cons latest before =>
    -- The last frame ends where the cursor is, and both move on by `cycles`.
    have hend : latest.index + latest.duration = cursor := ht latest rfl
    cases hlast
    show latest.index + (latest.duration + cycles) = cursor + cycles
    omega

/-- Pushing a hold keeps the tape ended where its frames end. -/
theorem Ended.pushed {t : Tape} (ht : t.Ended) (h : Hold) : (t.pushed h).Ended := by
  unfold Tape.pushed
  split
  · exact ht.prolonged h.cycles
  · exact ended_begun t h

theorem Ended.foldl_pushed {t : Tape} (ht : t.Ended) (hs : List Hold) :
    (hs.foldl Tape.pushed t).Ended := by
  induction hs generalizing t with
  | nil => exact ht
  | cons h rest ih => exact ih (ht.pushed h)

/-- Whatever was played before, what is pushed is held. -/
theorem holding_pushed (t : Tape) (h : Hold) : (t.pushed h).Holding h.state := by
  obtain ⟨frames, cursor⟩ := t
  unfold pushed
  -- The hold lengthens a frame of its own state, or it begins a new one.
  split
  · rename_i hstate
    cases frames with
    | nil => cases hstate
    | cons last before =>
      exact ⟨_, rfl, Option.some.inj hstate⟩
  · exact ⟨_, rfl, rfl⟩

/-- A wait goes on with the state that is held. -/
theorem Holding.prolonged_eq_pushed {held : Levels} {t : Tape} (ht : t.Holding held)
    (cycles : Nat) : t.prolonged cycles = t.pushed ⟨held, cycles⟩ := by
  obtain ⟨last, hlast, hstate⟩ := ht
  rw [pushed, if_pos (by rw [hlast, Option.map_some, hstate])]

/-- The holds pushed on a tape go on its latest frame as they are joined to a hold. -/
theorem frames_foldl_pushed (hs : List Hold) (f : Frame) (before : List Frame) :
    (hs.foldl pushed ⟨f :: before, f.index + f.duration⟩).frames.reverse
      = before.reverse
        ++ Hold.frames f.index (Hold.join ⟨f.state, f.duration⟩ (Hold.coalesce hs)) := by
  -- By induction on the holds: each lengthens the latest frame or begins the next.
  induction hs generalizing f before with
  | nil => exact List.reverse_cons
  | cons h rest ih =>
    obtain ⟨start, state, duration⟩ := f
    rw [List.foldl_cons, Hold.coalesce_cons]
    by_cases hstate : state = h.state
    · subst hstate
      have hpush : pushed ⟨⟨start, h.state, duration⟩ :: before, start + duration⟩ h
          = ⟨⟨start, h.state, duration + h.cycles⟩ :: before, start + (duration + h.cycles)⟩ := by
        simp [pushed, prolonged, Nat.add_assoc]
      rw [hpush, Hold.join_join]
      exact ih ⟨start, h.state, duration + h.cycles⟩ before
    · have hpush : pushed ⟨⟨start, state, duration⟩ :: before, start + duration⟩ h
          = ⟨⟨start + duration, h.state, h.cycles⟩ :: ⟨start, state, duration⟩ :: before,
              start + duration + h.cycles⟩ := by
        simp [pushed, begun, hstate]
      rw [hpush, ih ⟨start + duration, h.state, h.cycles⟩, List.reverse_cons, List.append_assoc,
        Hold.join_join_of_ne hstate]
      rfl

/-! ## A whole script without a bound -/

variable {ws : Waveforms} {quantum : Nat}

/-- Either a waveform cannot be played, or what is held after it is its own, whatever was held before. -/
theorem reached_generate {rest : List Instruction}
    (hrest : ∀ last t, Holding last t → ∀ {hs},
      Playback.holds ws quantum (some last) rest = .ok hs →
        reached ws quantum t rest = (hs.foldl pushed t, none))
    (t : Tape) {held : Option Levels} {name : String} {hs : List Hold}
    (h : Playback.holds ws quantum held (.generate name :: rest) = .ok hs) :
    reached ws quantum t (.generate name :: rest) = (hs.foldl pushed t, none) := by
  -- What a waveform plays is pushed, and then its last level is held for no time yet.
  obtain ⟨states, last, hs', hrun, hrest', rfl⟩ := Playback.holds_generate_eq_ok h
  have hstep : stepped ws quantum t (.generate name)
      = .ok (((states.map (⟨·, 1⟩)).foldl pushed t).pushed ⟨last, 0⟩) := by
    rw [stepped, hrun]
    rfl
  rw [reached, hstep]
  simp only
  rw [hrest last _ (holding_pushed _ ⟨last, 0⟩) hrest', List.foldl_append, List.foldl_cons]

/-- Once something is held, a script pushes the holds that it plays. -/
theorem reached_of_holding {is : List Instruction} {held : Levels} {t : Tape} (ht : t.Holding held)
    {hs : List Hold} (h : Playback.holds ws quantum (some held) is = .ok hs) :
    reached ws quantum t is = (hs.foldl pushed t, none) := by
  induction is generalizing held t hs with
  | nil =>
    cases h
    rfl
  | cons i rest ih =>
    cases i with
    | generate name => exact reached_generate (fun _ _ hheld _ => ih hheld) t h
    -- While something is held, a wait is pushed as a hold.
    | wait cycles =>
      obtain ⟨hs', hrest, rfl⟩ := Playback.holds_wait_eq_ok h
      rw [reached, stepped, ht.prolonged_eq_pushed]
      exact ih (holding_pushed t ⟨held, cycles⟩) hrest

/-- Before the first waveform only the cursor moves. -/
theorem reached_of_nothing {is : List Instruction} (cursor : Nat) {hs : List Hold}
    (h : Playback.holds ws quantum none is = .ok hs) :
    reached ws quantum ⟨[], cursor⟩ is
      = (hs.foldl pushed ⟨[], cursor + Playback.leadIn is⟩, none) := by
  induction is generalizing cursor hs with
  | nil =>
    cases h
    rfl
  | cons i rest ih =>
    cases i with
    | generate name =>
      exact reached_generate (fun _ _ hheld _ => reached_of_holding hheld) ⟨[], cursor⟩ h
    -- Before the first waveform, a wait only moves the cursor.
    | wait cycles =>
      obtain ⟨hs', hrest, rfl⟩ := Playback.holds_wait_eq_ok h
      rw [reached, stepped, Playback.leadIn, ← Nat.add_assoc]
      exact ih (cursor + cycles) hrest

/-- A script comes to the fault that its score reports. -/
theorem reached_of_error {is : List Instruction} {held : Option Levels} {e : PlaybackFault}
    (h : Playback.holds ws quantum held is = .error e) (t : Tape) :
    (reached ws quantum t is).2 = some e := by
  induction is generalizing held t with
  | nil => cases h
  | cons i rest ih =>
    cases i with
    -- The fault is that of the rest.
    | wait cycles =>
      rw [reached, stepped]
      refine @ih held ?_ _
      rw [Playback.holds] at h
      cases hrest : Playback.holds ws quantum held rest with
      | ok hs =>
        rw [hrest] at h
        cases h
      | error e' =>
        rw [hrest] at h
        exact h
    | generate name =>
      rw [Playback.holds] at h
      rw [reached, stepped]
      -- The fault is that of the waveform, or that of the rest.
      cases hrun : ws.run quantum name with
      | error e' =>
        rw [hrun] at h
        cases h
        rfl
      | ok played =>
        rw [hrun] at h
        refine @ih (some played.2) ?_ _
        cases hrest : Playback.holds ws quantum (some played.2) rest with
        | ok hs =>
          simp only [hrest, Except.map] at h
          cases h
        | error e' =>
          simp only [hrest, Except.map] at h
          exact h

/-- Where a score fails, the tape was reached up to the instruction that fails, with its fault. -/
theorem reached_of_score_error {a : Artifact} {e : PlaybackFault}
    (h : a.score quantum = .error e) :
    (reached a.waveforms quantum ⟨[], 0⟩ a.script.instructions).2 = some e := by
  unfold Artifact.score at h
  cases hholds : Playback.holds a.waveforms quantum none a.script.instructions with
  | ok hs =>
    rw [hholds] at h
    cases h
  | error e' =>
    rw [hholds] at h
    cases h
    exact reached_of_error hholds _

/-- The frames on the tape are those of the score. -/
theorem frames_reached {a : Artifact} {fs : List Frame} (h : a.score quantum = .ok fs) :
    ∃ t, reached a.waveforms quantum ⟨[], 0⟩ a.script.instructions = (t, none)
      ∧ t.frames.reverse = fs := by
  obtain ⟨hs, hholds, rfl⟩ := Artifact.exists_holds_of_score h
  refine ⟨_, reached_of_nothing 0 hholds, ?_⟩
  rw [Nat.zero_add]
  cases hs with
  | nil => rfl
  | cons first rest =>
    exact frames_foldl_pushed rest ⟨Playback.leadIn a.script.instructions, first.state, first.cycles⟩ []

end Tape

/-! ## With a bound -/

/-- What counters keep of a frame. -/
def Frame.kept (f : Frame) : Frame where
  index := f.index % Counter.bound
  state := f.state
  duration := f.duration % Counter.bound

theorem Frame.kept_lt (f : Frame) :
    f.kept.index < Counter.bound ∧ f.kept.duration < Counter.bound :=
  ⟨Nat.mod_lt _ (by decide), Nat.mod_lt _ (by decide)⟩

/-- Counters keep all of a frame exactly if its numbers fit. -/
theorem Frame.kept_eq_self_iff {f : Frame} :
    f.kept = f ↔ f.index < Counter.bound ∧ f.duration < Counter.bound := by
  constructor
  · intro h
    rw [← h]
    exact f.kept_lt
  · rintro ⟨hindex, hduration⟩
    rw [kept, Nat.mod_eq_of_lt hindex, Nat.mod_eq_of_lt hduration]

/-- Keeping a frame in 64 bits changes nothing exactly when its index and its duration fit. -/
theorem Frame.map_kept_eq_self_iff {fs : List Frame} :
    fs.map kept = fs ↔ ∀ f ∈ fs, f.index < Counter.bound ∧ f.duration < Counter.bound := by
  induction fs with
  | nil => simp
  | cons f fs ih =>
    rw [List.map_cons, List.cons_eq_cons, kept_eq_self_iff, ih, List.forall_mem_cons]

namespace Tape

open Counter

/-- What a program has of a tape. -/
def counted : Arithmetic → Tape → Except Halt Tape
  | .checked, t => if t.cursor < bound then .ok t else .error .overflow
  | .wrapping, t => .ok ⟨t.frames.map Frame.kept, t.cursor % bound⟩

variable {arithmetic : Arithmetic} {t t' : Tape}

/-- A checked program has the tape as it is, and a wrapping one what counters keep of it. -/
theorem counted_eq_ok_iff : counted arithmetic t = .ok t'
    ↔ (arithmetic = .checked ∧ t.cursor < bound ∧ t' = t)
      ∨ (arithmetic = .wrapping ∧ t' = ⟨t.frames.map Frame.kept, t.cursor % bound⟩) := by
  cases arithmetic with
  | checked => by_cases h : t.cursor < bound <;> simp [counted, h, eq_comm]
  | wrapping => simp [counted, eq_comm]

theorem cursor_lt_of_counted (h : counted arithmetic t = .ok t') : t'.cursor < bound := by
  obtain ⟨-, hcursor, rfl⟩ | ⟨-, rfl⟩ := counted_eq_ok_iff.mp h
  · exact hcursor
  · exact Nat.mod_lt _ (by decide)

theorem counted_checked_of_le (h : bound ≤ t.cursor) :
    counted .checked t = .error .overflow := by
  rw [counted, if_neg (Nat.not_lt.mpr h)]

/-- To begin a frame and then to count is to count and then to begin it. -/
theorem counted_begun (t : Tape) (state : Levels) {cycles : Nat} (hcycles : cycles < bound) :
    (counted arithmetic t >>= fun t => (t.start state cycles).advance arithmetic cycles)
      = counted arithmetic (t.begun ⟨state, cycles⟩) := by
  cases arithmetic with
  | checked =>
    -- A cursor past the bound halts now or has halted before.
    by_cases hcursor : t.cursor < bound
    · by_cases hnext : t.cursor + cycles < bound <;>
        simp [counted, begun, start, advance, Arithmetic.count, fit?, hcursor, hnext, bind,
          Except.bind, pure, Except.pure]
    · rw [counted_checked_of_le (Nat.le_of_not_lt hcursor), counted_checked_of_le]
      · rfl
      · exact Nat.le_trans (Nat.le_of_not_lt hcursor) (Nat.le_add_right _ _)
  | wrapping =>
    simp [counted, begun, start, advance, Frame.kept, Nat.mod_eq_of_lt hcycles, Arithmetic.count,
      bind, Except.bind, pure, Except.pure]

/-- To wait and then to count is to count and then to wait. -/
theorem counted_prolonged (ht : t.Ended) (cycles : Nat) :
    (counted arithmetic t >>= fun t => t.wait arithmetic cycles)
      = counted arithmetic (t.prolonged cycles) := by
  obtain ⟨frames, cursor⟩ := t
  cases arithmetic with
  | checked =>
    by_cases hcursor : cursor < bound
    · cases frames with
      | nil =>
        by_cases hnext : cursor + cycles < bound <;>
          simp [counted, wait, extend, advance, prolonged, Arithmetic.count, fit?, hcursor, hnext,
            bind, Except.bind, pure, Except.pure]
      | cons last before =>
        have hend : last.index + last.duration = cursor := ht last rfl
        -- The latest frame lies before the cursor, so it is the cursor that comes to the bound first.
        by_cases hnext : cursor + cycles < bound
        · have hlast : last.duration + cycles < bound := by omega
          simp [counted, wait, extend, advance, prolonged, Arithmetic.count, fit?, hcursor, hnext,
            hlast, bind, Except.bind, pure, Except.pure]
        · by_cases hlast : last.duration + cycles < bound <;>
            simp [counted, wait, extend, advance, prolonged, Arithmetic.count, fit?, hcursor, hnext,
              hlast, bind, Except.bind, pure, Except.pure]
    · rw [counted_checked_of_le (Nat.le_of_not_lt hcursor), counted_checked_of_le]
      · rfl
      · exact Nat.le_trans (Nat.le_of_not_lt hcursor) (Nat.le_add_right _ _)
  | wrapping =>
    cases frames <;>
      simp [counted, wait, extend, advance, prolonged, Frame.kept, Arithmetic.count,
        bind, Except.bind, pure, Except.pure]

/-- On a tape that is counted, the latest frame still ends at the cursor. So a run goes on with it
whenever it has the same state. -/
theorem push_of_counted (ht : t.Ended) (h : counted arithmetic t = .ok t') (state : Levels)
    (cycles : Nat) :
    t'.push arithmetic state cycles
      = if t.frames.head?.map (·.state) = some state then t'.extend arithmetic cycles
        else .ok (t'.start state cycles) := by
  obtain ⟨frames, cursor⟩ := t
  cases frames with
  | nil =>
    have hframes : t'.frames = [] := by
      obtain ⟨-, -, rfl⟩ | ⟨-, rfl⟩ := counted_eq_ok_iff.mp h <;> rfl
    simp [push, hframes, pure, Except.pure]
  | cons last before =>
    have hend : last.index + last.duration = cursor := ht last rfl
    -- Kept whole or wrapped around, the latest frame ends where the cursor is.
    have hlatest : ∃ latest before', t'.frames = latest :: before' ∧ latest.state = last.state
        ∧ arithmetic.count (latest.index + latest.duration) = .ok t'.cursor := by
      obtain ⟨-, hcursor, rfl⟩ | ⟨rfl, rfl⟩ := counted_eq_ok_iff.mp h
      · exact ⟨last, before, rfl, rfl, hend ▸ Arithmetic.count_of_lt _ (hend ▸ hcursor)⟩
      · refine ⟨last.kept, before.map Frame.kept, rfl, rfl, congrArg Except.ok ?_⟩
        show (last.index % bound + last.duration % bound) % bound = cursor % bound
        rw [← Nat.add_mod, hend]
    obtain ⟨latest, before', hframes, hstate, hstop⟩ := hlatest
    simp only [push, hframes, hstate, List.head?_cons, Option.map_some, Option.some.injEq]
    split
    · rw [hstop]
      simp [bind, Except.bind]
    · rfl

theorem cursor_of_extend {cycles : Nat} (h : t.extend arithmetic cycles = .ok t') :
    t'.cursor = t.cursor := by
  unfold extend at h
  split at h
  · cases h
    rfl
  · obtain ⟨duration, -, h⟩ := bind_eq_ok_iff.mp h
    cases h
    rfl

theorem advance_zero (h : t.cursor < bound) : t.advance arithmetic 0 = .ok t := by
  rw [advance, Nat.add_zero, Arithmetic.count_of_lt arithmetic h]
  rfl

/-- To push a run, to move the cursor and then to count is to count and then to do both. -/
theorem counted_pushed (ht : t.Ended) (state : Levels) {cycles : Nat} (hcycles : cycles < bound) :
    (do let t ← counted arithmetic t
        (← t.push arithmetic state cycles).advance arithmetic cycles)
      = counted arithmetic (t.pushed ⟨state, cycles⟩) := by
  unfold pushed
  split
  · rename_i hstate
    rw [← counted_prolonged ht]
    refine bind_congr_of_ok fun t' ht' => ?_
    rw [push_of_counted ht ht', if_pos hstate]
    rfl
  · rename_i hstate
    rw [← counted_begun t state hcycles]
    refine bind_congr_of_ok fun t' ht' => ?_
    rw [push_of_counted ht ht', if_neg hstate]
    rfl

/-- The cursor stays where a run is pushed, so one that takes no time needs no move. -/
theorem counted_pushed_zero (ht : t.Ended) (state : Levels) :
    (counted arithmetic t >>= fun t => t.push arithmetic state 0)
      = counted arithmetic (t.pushed ⟨state, 0⟩) := by
  rw [← counted_pushed ht state (by decide)]
  refine bind_congr_of_ok fun t' ht' => ?_
  have hcursor := cursor_lt_of_counted ht'
  rw [push_of_counted ht ht']
  split
  · cases hextend : t'.extend arithmetic 0 with
    | error reason => rfl
    | ok t'' => exact (advance_zero (cursor_of_extend hextend ▸ hcursor)).symm
  · exact (advance_zero (t := t'.start state 0) hcursor).symm

/-- To play samples and then to count is to count and then to play them. -/
theorem counted_foldl_pushed (ht : t.Ended) (states : List Levels) :
    (counted arithmetic t >>= fun t => states.foldlM (sample arithmetic) t)
      = counted arithmetic ((states.map (⟨·, 1⟩)).foldl pushed t) := by
  induction states generalizing t with
  | nil => exact bind_pure _
  | cons state states ih =>
    rw [List.map_cons, List.foldl_cons, ← ih (ht.pushed _), ← counted_pushed ht state (by decide)]
    simp only [List.foldlM_cons, sample, bind_assoc]

/-- To play a waveform and then to count is to count and then to play it. -/
theorem counted_played (ht : t.Ended) (states : List Levels) (last : Levels) :
    (counted arithmetic t >>= fun t => t.play arithmetic states last)
      = counted arithmetic (((states.map (⟨·, 1⟩)).foldl pushed t).pushed ⟨last, 0⟩) := by
  rw [← counted_pushed_zero (ht.foldl_pushed _) last, ← counted_foldl_pushed ht states, bind_assoc]
  rfl

/-! ## A whole script with a bound -/

/-- **What a program plays.** It comes to the tape that a script comes to without a bound, as far as its
arithmetic lets it. Induction on the script: every step commutes with counting. -/
theorem run_counted (arithmetic : Counter.Arithmetic) (ws : Waveforms) (quantum : Nat)
    (ht : t.Ended) (is : List Instruction) :
    ((counted arithmetic t).mapError .halted >>= fun t => run arithmetic ws quantum t is)
      = (counted arithmetic (reached ws quantum t is).1).mapError .halted >>= fun t' =>
          (reached ws quantum t is).2.elim (.ok t') .error := by
  induction is generalizing t with
  | nil => rfl
  | cons i rest ih =>
    simp only [run, List.foldlM_cons, reached]
    cases i with
    | wait cycles =>
      -- The step is counted first, and the rest of the script runs from a counted tape.
      have hrest := ih (ht.prolonged cycles)
      rw [← counted_prolonged ht, mapError_bind, bind_assoc] at hrest
      exact hrest
    | generate name =>
      cases hrun : ws.run quantum name with
      | error e =>
        simp only [step, stepped, hrun]
        rfl
      | ok played =>
        obtain ⟨states, last⟩ := played
        have hrest := ih ((ht.foldl_pushed (states.map (⟨·, 1⟩))).pushed ⟨last, 0⟩)
        rw [← counted_played ht, mapError_bind, bind_assoc] at hrest
        simp only [step, stepped, hrun]
        exact hrest

theorem ended_empty (cursor : Nat) : Ended ⟨[], cursor⟩ := by
  rintro last hlast
  cases hlast

/-- Pushing a list of holds moves the cursor by the cycles they take. -/
theorem cursor_foldl_pushed (hs : List Hold) (t : Tape) :
    (hs.foldl pushed t).cursor = t.cursor + (hs.map (·.cycles)).sum := by
  induction hs generalizing t with
  | nil => rfl
  | cons h rest ih =>
    have hcursor : (t.pushed h).cursor = t.cursor + h.cycles := by
      unfold pushed
      split <;> rfl
    rw [List.foldl_cons, ih, hcursor, List.map_cons, List.sum_cons, Nat.add_assoc]

/-- The cursor moves by the samples that pass. -/
theorem cursor_reached (ws : Waveforms) (quantum : Nat) (t : Tape) (is : List Instruction) :
    (reached ws quantum t is).1.cursor = t.cursor + Playback.elapsed ws quantum is := by
  induction is generalizing t with
  | nil => rfl
  | cons i rest ih =>
    cases i with
    | wait cycles =>
      rw [reached, stepped, Playback.elapsed, ← Nat.add_assoc]
      exact ih _
    | generate name =>
      rw [reached, stepped, Playback.elapsed]
      cases hrun : ws.run quantum name with
      | error e => rfl
      | ok played =>
        obtain ⟨states, last⟩ := played
        have hcursor := cursor_foldl_pushed (states.map (⟨·, 1⟩) ++ [⟨last, 0⟩]) t
        rw [List.foldl_append] at hcursor
        show (reached ws quantum (((states.map (⟨·, 1⟩)).foldl pushed t).pushed ⟨last, 0⟩)
          rest).1.cursor = _
        rw [ih, ← Nat.add_assoc]
        refine congrArg (· + Playback.elapsed ws quantum rest) (hcursor.trans ?_)
        simp [Function.comp_def]

end Tape

/-! ## The result -/

namespace Artifact

variable (a : Artifact) (quantum : Nat)

/-- The frames of a program are those on the tape that it comes to. -/
theorem frames_eq (arithmetic : Counter.Arithmetic) :
    ∃ t, t.cursor = a.elapsed quantum
      ∧ (a.frames arithmetic quantum
        = (Tape.counted arithmetic t).mapError .halted >>= fun t' =>
            (a.score quantum).map fun _ => t'.frames.reverse)
      ∧ ∀ fs, a.score quantum = .ok fs → t.frames.reverse = fs := by
  have hrun := Tape.run_counted arithmetic a.waveforms quantum (Tape.ended_empty 0)
    a.script.instructions
  have hempty : Tape.counted arithmetic ⟨[], 0⟩ = .ok ⟨[], 0⟩ := by
    cases arithmetic <;> rfl
  have hcursor := Tape.cursor_reached a.waveforms quantum ⟨[], 0⟩ a.script.instructions
  rw [Nat.zero_add] at hcursor
  refine ⟨_, hcursor, ?_, fun fs hfs => ?_⟩
  -- Running the counted tape is counting the tape that is reached.
  · have hframes : a.frames arithmetic quantum
        = Tape.run arithmetic a.waveforms quantum ⟨[], 0⟩ a.script.instructions >>= fun t =>
            pure t.frames.reverse := rfl
    rw [hempty] at hrun
    change Tape.run arithmetic a.waveforms quantum ⟨[], 0⟩ a.script.instructions = _ at hrun
    rw [hframes, hrun, bind_assoc]
    refine bind_congr_of_ok fun t' _ => ?_
    cases hscore : a.score quantum with
    | ok fs =>
      obtain ⟨t, ht, -⟩ := Tape.frames_reached hscore
      rw [ht]
      rfl
    | error e =>
      rw [Tape.reached_of_score_error hscore]
      rfl
  · obtain ⟨t, ht, rfl⟩ := Tape.frames_reached hfs
    rw [ht]

/-- **A checked program plays the score**, or it halts if the score is too long. -/
theorem frames_checked :
    a.frames .checked quantum
      = if a.elapsed quantum < Counter.bound then a.score quantum
        else .error (.halted .overflow) := by
  obtain ⟨t, hcursor, hframes, hscore⟩ := frames_eq a quantum .checked
  rw [hframes, Tape.counted, hcursor]
  split
  · cases h : a.score quantum with
    | ok fs => exact congrArg Except.ok (hscore fs h)
    | error e => rfl
  · rfl

/-- **A wrapping program plays what counters keep of the score.** -/
theorem frames_wrapping :
    a.frames .wrapping quantum = (a.score quantum).map (List.map Frame.kept) := by
  obtain ⟨t, hcursor, hframes, hscore⟩ := frames_eq a quantum .wrapping
  rw [hframes, Tape.counted]
  cases h : a.score quantum with
  | ok fs =>
    refine congrArg Except.ok ?_
    rw [← hscore fs h, List.map_reverse]
  | error e => rfl

variable {a quantum}

/-- The numbers in a score go no further than the samples that it takes. -/
theorem stop_le_of_mem_score {fs : List Frame} (h : a.score quantum = .ok fs) {f : Frame}
    (hf : f ∈ fs) : f.index + f.duration ≤ a.elapsed quantum := by
  obtain ⟨hs, hholds, rfl⟩ := exists_holds_of_score h
  rw [elapsed, Playback.elapsed_of_holds hholds, ← Hold.sum_coalesce]
  exact Hold.stop_le_of_mem_frames hf

/-- Every program plays a score that is not too long. -/
theorem frames_of_elapsed_lt (arithmetic : Counter.Arithmetic)
    (h : a.elapsed quantum < Counter.bound) : a.frames arithmetic quantum = a.score quantum := by
  cases arithmetic with
  | checked => rw [frames_checked, if_pos h]
  | wrapping =>
    rw [frames_wrapping]
    cases hscore : a.score quantum with
    | error e => rfl
    | ok fs =>
      refine congrArg Except.ok (Frame.map_kept_eq_self_iff.mpr fun f hf => ?_)
      have hstop := stop_le_of_mem_score hscore hf
      omega

/-- Where there is a score, a program comes to what counters keep of it, or halts. -/
theorem frames_eq_ok_iff {arithmetic : Counter.Arithmetic} {fs played : List Frame}
    (h : a.score quantum = .ok fs) : a.frames arithmetic quantum = .ok played
      ↔ (arithmetic = .checked → a.elapsed quantum < Counter.bound)
        ∧ played = fs.map Frame.kept := by
  cases arithmetic with
  | wrapping => simp [frames_wrapping, h, Except.map, eq_comm]
  | checked =>
    rw [frames_checked, h]
    split
    · rename_i hlt
      have hkept : fs.map Frame.kept = fs := Frame.map_kept_eq_self_iff.mpr fun f hf => by
        have hstop := stop_le_of_mem_score h hf
        omega
      simp [hkept, hlt, eq_comm]
    · rename_i hle
      simp [hle]

/-- Where there is a score, a program does not refuse to play. -/
theorem halted_of_frames_error {arithmetic : Counter.Arithmetic} {fs : List Frame}
    {e : PlaybackFault} (h : a.score quantum = .ok fs)
    (he : a.frames arithmetic quantum = .error e) : e = .halted .overflow := by
  cases arithmetic with
  | wrapping =>
    rw [frames_wrapping, h] at he
    cases he
  | checked =>
    rw [frames_checked, h] at he
    split at he
    · cases he
    · cases he
      rfl

end Artifact

end PulseTrain
