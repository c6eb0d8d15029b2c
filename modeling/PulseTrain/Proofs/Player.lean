import PulseTrain.Proofs.Drawing
import PulseTrain.Proofs.Tape
import PulseTrain.Proofs.Waits

/-!
# The naive player

Any script with any waveforms, compiled or not, plays back as a player would play it that knows nothing
of runs and frames: it writes down the state of the channels cycle by cycle.

* `Player.step` plays one instruction and `Player.run` a script; `Player.play` starts with all
  channels low.
* `Playback.columns_run` is the induction along a script: the columns of the player are the samples of
  the holds that its score collects.
* `Hold.contiguous_frames` and `Hold.isChain_coalesce` say how frames meet.
* `Artifact.Countable` is what the program must be able to count to play an artifact.
* `Artifact.playing_iff` is the result: it plays an artifact as the player does exactly if it can count
  that.
-/

namespace PulseTrain

/-! ## The player -/

/-- What a player holds, and the state at every cycle that it has played. -/
structure Player where
  held : Levels
  columns : List Levels

namespace Player

/-- Plays one instruction. A waveform is played up to its last quantum, and the first sample of that is
held; a wait plays what is held. -/
def step (ws : Waveforms) (quantum : Nat) (p : Player) : Instruction → Player
  | .generate name =>
    let samples := (ws.find? name).getD []
    let played := samples.length - quantum
    ⟨samples[played]?.getD p.held, p.columns ++ samples.take played⟩
  | .wait cycles => ⟨p.held, p.columns ++ List.replicate cycles p.held⟩

/-- Plays instructions one after the other. -/
def run (ws : Waveforms) (quantum : Nat) (p : Player) (is : List Instruction) : Player :=
  is.foldl (step ws quantum) p

/-- What is played from all channels low on. Without a waveform there is nothing to play. -/
def play (ws : Waveforms) (quantum channels : Nat) (is : List Instruction) : List Levels :=
  if is.all Instruction.isWait then [] else (run ws quantum ⟨Levels.low channels, []⟩ is).columns

end Player

/-- The signal that shows one state for each sample. A channel that a state does not know is low, and
one that the card does not have is not shown. -/
def Signal.ofColumns (channels : Nat) (columns : List Levels) : Signal where
  samples := columns.length
  rows := (List.range channels).map fun channel =>
    columns.map fun s => (s.get? channel).getD false

namespace Playback

variable {ws : Waveforms} {quantum : Nat}

/-! ## A whole script -/

/-- States that play for a cycle each are their own samples. -/
theorem flatMap_samples_map_one (states : List Levels) :
    (states.map (⟨·, 1⟩)).flatMap Hold.samples = states := by
  rw [List.flatMap_map]
  show states.flatMap (fun s => [s]) = states
  exact List.flatMap_singleton' states

/-- Where something is held, the player plays the samples of the holds. -/
theorem columns_run (hquantum : 0 < quantum) {is : List Instruction} {hs : List Hold} {p : Player}
    (h : holds ws quantum (some p.held) is = .ok hs) :
    (Player.run ws quantum p is).columns = p.columns ++ hs.flatMap Hold.samples := by
  -- Something is held all along, so by induction each instruction adds to the columns what it adds to the
  -- holds.
  induction is generalizing hs p with
  | nil =>
    cases h
    exact (List.append_nil _).symm
  | cons i rest ih =>
    cases i with
    | wait cycles =>
      obtain ⟨hs', hrest, rfl⟩ := holds_wait_eq_ok h
      have hplayed := ih (p := Player.step ws quantum p (.wait cycles)) hrest
      rw [Player.run, List.foldl_cons, ← Player.run, hplayed, Player.step]
      simp [Hold.samples]
    | generate name =>
      obtain ⟨states, last, hs', hrun, hrest, rfl⟩ := holds_generate_eq_ok h
      obtain ⟨samples, hfind, rfl, hlast⟩ := Waveforms.find?_of_run_eq_ok hquantum hrun
      -- What a waveform plays stops a quantum before its end, and its last level is held from there.
      have hstep : Player.step ws quantum p (.generate name)
          = ⟨last, p.columns ++ samples.take (samples.length - quantum)⟩ := by
        simp only [Player.step, hfind, Option.getD_some, hlast]
      rw [Player.run, List.foldl_cons, ← Player.run, hstep, ih hrest, List.flatMap_append,
        flatMap_samples_map_one, List.flatMap_cons, List.append_assoc]
      rfl

/-- Before the first waveform the player plays what it started with, and playback only counts. -/
theorem columns_run_leadIn (hquantum : 0 < quantum) {is : List Instruction} {hs : List Hold}
    {p : Player} (h : holds ws quantum none is = .ok hs) :
    (Player.run ws quantum p is).columns
      = p.columns ++ List.replicate (leadIn is) p.held ++ hs.flatMap Hold.samples := by
  -- By induction over the waits that lead in.
  induction is generalizing hs p with
  | nil =>
    cases h
    simp [Player.run, leadIn]
  | cons i rest ih =>
    cases i with
    | wait cycles =>
      obtain ⟨hs', hrest, rfl⟩ := holds_wait_eq_ok h
      have hplayed := ih (p := Player.step ws quantum p (.wait cycles)) hrest
      rw [Player.run, List.foldl_cons, ← Player.run, hplayed, Player.step, leadIn,
        ← List.replicate_append_replicate]
      simp
    | generate name =>
      -- From the waveform on, something is held.
      have hheld : holds ws quantum (some p.held) (.generate name :: rest) = .ok hs := h
      have hnone : leadIn (.generate name :: rest) = 0 := rfl
      rw [columns_run hquantum hheld, hnone, List.replicate_zero, List.append_nil]

end Playback

/-! ## How frames meet -/

namespace Hold

/-- Holds are laid out without gaps. -/
theorem contiguous_frames (start : Nat) (hs : List Hold) :
    Frame.Contiguous (frames start hs) := by
  induction hs generalizing start with
  | nil => exact .nil
  | cons h hs ih =>
    have hrest := ih (start + h.cycles)
    cases hs with
    | nil => exact .singleton _
    | cons next rest => exact .cons_cons rfl hrest

/-- What neighbouring holds have to do with each other, so have their frames. -/
theorem isChain_frames {R : Levels → Levels → Prop} {hs : List Hold}
    (h : hs.IsChain fun g h => R g.state h.state) (start : Nat) :
    (frames start hs).IsChain fun f g => R f.state g.state := by
  induction hs generalizing start with
  | nil => exact .nil
  | cons g hs ih =>
    have hrest := ih h.tail (start + g.cycles)
    cases hs with
    | nil => exact .singleton _
    | cons next rest => exact .cons_cons (List.isChain_cons_cons.mp h).1 hrest

/-- Joined holds differ from their neighbours. -/
theorem isChain_coalesce (hs : List Hold) :
    (coalesce hs).IsChain fun g h => g.state ≠ h.state := by
  induction hs with
  | nil => exact .nil
  | cons h rest ih =>
    rw [coalesce_cons]
    cases hrest : coalesce rest with
    | nil => exact .singleton h
    | cons next others =>
      rw [hrest] at ih
      unfold join
      simp only
      split
      · rename_i hstate
        -- The joined hold meets the hold after `next`, as `next` did.
        cases others with
        | nil => exact .singleton _
        | cons other others =>
          obtain ⟨hne, htail⟩ := List.isChain_cons_cons.mp ih
          exact .cons_cons (hstate ▸ hne) htail
      · rename_i hstate
        exact .cons_cons hstate ih

/-- Coalescing leaves something if there is something. -/
theorem coalesce_eq_nil_iff {hs : List Hold} : coalesce hs = [] ↔ hs = [] := by
  cases hs with
  | nil => simp [coalesce]
  | cons h rest =>
    rw [coalesce_cons]
    unfold join
    split
    · simp
    · split <;> simp

end Hold

/-! ## Drawn frames -/

namespace Signal

/-- Frames one after the other show what their holds are made of, sample by sample. -/
theorem concat_eq_ofColumns (channels : Nat) {start : Nat} {hs : List Hold}
    (hstart : hs = [] → start = 0) :
    concat channels (Hold.frames start (Hold.coalesce hs))
      = ofColumns channels (List.replicate start (Levels.low channels)
          ++ hs.flatMap Hold.samples) := by
  -- Without holds there is nothing to lead in to.
  have hnone : Hold.coalesce hs = [] → start = 0 := fun h =>
    hstart (Hold.coalesce_eq_nil_iff.mp h)
  -- The first frame starts where the player does, and the last one stops where the samples end.
  have hhead : (Hold.frames start (Hold.coalesce hs)).head?.elim 0 (·.index) = start := by
    cases h : Hold.coalesce hs with
    | nil => exact (hnone h).symm
    | cons g rest => rfl
  have hlast : ((Hold.frames start (Hold.coalesce hs)).getLast?.elim 0 fun f =>
      f.index + f.duration) = start + (hs.flatMap Hold.samples).length := by
    rw [← Hold.flatMap_samples_coalesce, Hold.length_flatMap_samples, ← Hold.getLast?_frames]
    cases h : Hold.coalesce hs with
    | nil => exact (hnone h).symm
    | cons g rest =>
      rw [Hold.frames, List.getLast?_cons]
      rfl
  unfold concat ofColumns
  rw [hlast, List.length_append, List.length_replicate]
  congr 1
  refine List.map_congr_left fun channel _ => ?_
  -- A low level has no channel up.
  have hlow : ((Levels.low channels).get? channel).getD false = false := by
    unfold Levels.low Levels.get?
    rw [List.getElem?_replicate]
    split <;> rfl
  -- Each channel goes through the samples of the holds, joined or not.
  have hrun : run (Hold.frames start (Hold.coalesce hs)) channel
      = ((Hold.coalesce hs).flatMap Hold.samples).map fun s => (s.get? channel).getD false :=
    Hold.flatMap_replicate_frames start _ fun s => (s.get? channel).getD false
  rw [hhead, hrun, Hold.flatMap_samples_coalesce, List.map_append, List.map_replicate, hlow]

end Signal

/-! ## The result -/

namespace Artifact

/-- What comes of playing the artifact `a` on `card`. -/
structure Playing (card : Card) (a : Artifact) : Prop where
  refused_iff : (∃ e, a.frames card.arithmetic card.quantum = .error e)
    ↔ ∃ name, .generate name ∈ a.script.instructions
        ∧ (a.waveforms.find? name = none
          ∨ ∃ samples, a.waveforms.find? name = some samples ∧ samples.length < card.quantum)
  reported_iff : ∀ e, a.frames card.arithmetic card.quantum = .error e
    ↔ FirstFault (fun i => i.Unplayable a.waveforms card.quantum) a.script.instructions e
  contiguous : ∀ fs, a.frames card.arithmetic card.quantum = .ok fs → Frame.Contiguous fs
  /-- The first frame starts after the waits before the first waveform. -/
  start : ∀ fs, a.frames card.arithmetic card.quantum = .ok fs →
    ∀ (waits : List Nat) name rest, a.script.instructions = waits.map .wait ++ .generate name :: rest →
      fs.head?.map (·.index) = some waits.sum
  differ : ∀ fs, a.frames card.arithmetic card.quantum = .ok fs →
    fs.IsChain fun f g => f.state ≠ g.state
  signal : ∀ fs, a.frames card.arithmetic card.quantum = .ok fs →
    a.signal card = .ok (.ofColumns card.channels
      (Player.play a.waveforms card.quantum card.channels a.script.instructions))
  signal_refused : ∀ e, a.signal card = .error e
    ↔ a.frames card.arithmetic card.quantum = .error e

/-- The program can count what the artifact `a` plays on `card`: a checked one all samples that it comes
to, and either one the entries of the signal. -/
structure Countable (card : Card) (a : Artifact) : Prop where
  elapsed : card.arithmetic = .checked → a.elapsed card.quantum < Counter.bound
  fits : (∀ e, ¬ FirstFault (fun i => i.Unplayable a.waveforms card.quantum)
      a.script.instructions e) →
    Signal.Fits card.channels
      (Player.play a.waveforms card.quantum card.channels a.script.instructions).length

variable {card : Card} {a : Artifact}

/-- The score reports the first instruction that cannot be played. -/
theorem score_eq_error_iff {e : PlaybackFault} :
    a.score card.quantum = .error e
      ↔ FirstFault (fun i => i.Unplayable a.waveforms card.quantum) a.script.instructions e := by
  rw [← Playback.holds_eq_error_iff card.quantum_pos none]
  unfold score
  cases Playback.holds a.waveforms card.quantum none a.script.instructions <;> simp [Except.map]

/-- The frames of a score follow one another without gaps. -/
theorem contiguous_of_score {fs : List Frame} (h : a.score card.quantum = .ok fs) :
    Frame.Contiguous fs := by
  obtain ⟨hs, -, rfl⟩ := exists_holds_of_score h
  exact Hold.contiguous_frames _ _

/-- Drawn one after the other, the frames of a score are what the player plays. -/
theorem concat_of_score {fs : List Frame} (h : a.score card.quantum = .ok fs) :
    Signal.concat card.channels fs = .ofColumns card.channels
      (Player.play a.waveforms card.quantum card.channels a.script.instructions) := by
  obtain ⟨hs, hholds, rfl⟩ := exists_holds_of_score h
  have hcolumns := Playback.columns_run_leadIn card.quantum_pos
    (p := ⟨Levels.low card.channels, []⟩) hholds
  have hnil := Playback.eq_nil_iff_of_holds hholds
  unfold Player.play
  -- A script of waits alone plays nothing, and any other one leads in to its first waveform.
  by_cases hwaits : a.script.instructions.all Instruction.isWait
  · rw [if_pos hwaits, hnil.mpr hwaits]
    rfl
  · rw [if_neg hwaits, hcolumns, List.nil_append,
      Signal.concat_eq_ofColumns card.channels fun h => absurd (hnil.mp h) hwaits]

/-- The player takes the samples of the score, if it plays anything at all. -/
theorem length_play {fs : List Frame} (h : a.score card.quantum = .ok fs) (hne : fs ≠ []) :
    (Player.play a.waveforms card.quantum card.channels a.script.instructions).length
      = a.elapsed card.quantum := by
  obtain ⟨hs, hholds, rfl⟩ := exists_holds_of_score h
  have hcolumns := Playback.columns_run_leadIn card.quantum_pos
    (p := ⟨Levels.low card.channels, []⟩) hholds
  -- Only a script of waits alone has no frames.
  have hwaits : ¬ a.script.instructions.all Instruction.isWait := fun hall => by
    rw [(Playback.eq_nil_iff_of_holds hholds).mpr hall] at hne
    exact hne rfl
  rw [Player.play, if_neg hwaits, hcolumns, List.nil_append, List.length_append,
    List.length_replicate, Hold.length_flatMap_samples, elapsed, Playback.elapsed_of_holds hholds]

/-- There is an array for a score that can be counted, since no instruction of it is at fault. -/
theorem Countable.fits_of_score (h : Countable card a) {fs : List Frame}
    (hscore : a.score card.quantum = .ok fs) :
    Signal.Fits card.channels
      (Player.play a.waveforms card.quantum card.channels a.script.instructions).length := by
  refine h.fits fun e he => ?_
  rw [score_eq_error_iff.mpr he] at hscore
  cases hscore

/-- What can be counted is played as the score says. -/
theorem Countable.frames_eq_score (h : Countable card a) :
    a.frames card.arithmetic card.quantum = a.score card.quantum := by
  cases harithmetic : card.arithmetic with
  | checked => rw [frames_checked, if_pos (h.elapsed harithmetic)]
  | wrapping =>
    cases hscore : a.score card.quantum with
    | error e =>
      rw [frames_wrapping, hscore]
      rfl
    | ok fs =>
      by_cases hne : fs = []
      -- Without a waveform nothing is counted but the cursor, and that is never looked at.
      · rw [frames_wrapping, hscore, hne]
        rfl
      · rw [← hscore]
        refine frames_of_elapsed_lt .wrapping ?_
        -- The samples fit in memory, and these are what the cursor counts.
        have hfits := h.fits_of_score hscore
        rw [length_play hscore hne] at hfits
        exact Nat.lt_trans hfits.lt_limit Signal.limit_lt_bound

theorem signal_eq_ok_iff {sig : Signal} : a.signal card = .ok sig
    ↔ ∃ fs, a.frames card.arithmetic card.quantum = .ok fs
        ∧ Signal.ofFrames card.arithmetic card.channels fs = .ok sig := by
  simp only [signal, bind_eq_ok_iff, mapError_eq_ok_iff]

/-- Nothing is refused or halted but what the score refuses. -/
theorem Playing.countable (h : Playing card a) : Countable card a where
  elapsed harithmetic := Nat.lt_of_not_le fun hle => by
    -- A checked program that comes to the bound halts, and a halt is the fault of no instruction.
    have hhalted : a.frames card.arithmetic card.quantum = .error (.halted .overflow) := by
      rw [harithmetic, frames_checked, if_neg (Nat.not_lt.mpr hle)]
    obtain ⟨before, i, after, -, hwrong, -⟩ := (h.reported_iff _).mp hhalted
    cases hwrong
  fits hfault := by
    cases hframes : a.frames card.arithmetic card.quantum with
    | error e => exact absurd ((h.reported_iff e).mp hframes) (hfault e)
    | ok fs =>
      obtain ⟨_, -, hdrawn⟩ := signal_eq_ok_iff.mp (h.signal fs hframes)
      exact (Signal.fits_of_ofFrames hdrawn).2

/-- What can be counted is drawn as the naive player plays it. -/
theorem Countable.signal_of_score (h : Countable card a) {fs : List Frame}
    (hscore : a.score card.quantum = .ok fs) :
    a.signal card = .ok (.ofColumns card.channels
      (Player.play a.waveforms card.quantum card.channels a.script.instructions)) := by
  have hconcat := concat_of_score hscore
  refine signal_eq_ok_iff.mpr ⟨fs, h.frames_eq_score.trans hscore, ?_⟩
  rw [← hconcat]
  refine Signal.ofFrames_of_contiguous (contiguous_of_score hscore) ?_
  rw [hconcat]
  exact h.fits_of_score hscore

/-- What can be counted is played as the naive player would. -/
theorem Countable.playing (h : Countable card a) : Playing card a where
  refused_iff := by
    simp only [h.frames_eq_score, score_eq_error_iff, exists_firstFault_iff,
      Instruction.exists_unplayable_iff]
  reported_iff e := by rw [h.frames_eq_score, score_eq_error_iff]
  contiguous fs hfs := contiguous_of_score (h.frames_eq_score ▸ hfs)
  start fs hfs waits name rest hscript := by
    obtain ⟨hs, hholds, rfl⟩ := exists_holds_of_score (h.frames_eq_score ▸ hfs)
    -- After a waveform there is something to play.
    have hne : Hold.coalesce hs ≠ [] := by
      rw [Ne, Hold.coalesce_eq_nil_iff, Playback.eq_nil_iff_of_holds hholds, hscript]
      simp [Instruction.isWait]
    rw [hscript, Playback.leadIn_waits]
    cases hcoalesce : Hold.coalesce hs with
    | nil => exact absurd hcoalesce hne
    | cons g rest => rfl
  differ fs hfs := by
    obtain ⟨hs, -, rfl⟩ := exists_holds_of_score (h.frames_eq_score ▸ hfs)
    exact Hold.isChain_frames (Hold.isChain_coalesce hs) _
  signal fs hfs := h.signal_of_score (h.frames_eq_score ▸ hfs)
  signal_refused e := by
    rw [h.frames_eq_score]
    cases hscore : a.score card.quantum with
    | error e' =>
      have hframes := h.frames_eq_score.trans hscore
      simp [signal, hframes, bind, Except.bind]
    | ok fs => simp [h.signal_of_score hscore]

/-- **When playback refines the naive player.** Whatever the script and the waveforms are, as long as the
program can count: the first instruction that cannot be played is reported; and if there is none, what is
shown is what the naive player plays, cut into frames of which each differs from the next and ends where
that begins. If the program cannot count, then not all of this is so. -/
theorem playing_iff (card : Card) (a : Artifact) : Playing card a ↔ Countable card a :=
  ⟨Playing.countable, Countable.playing⟩

/-! ## A script that takes too long -/

/-- A waveform that would start at the first sample without a number. -/
def overdue : Artifact where
  script := ⟨[.wait 18446744073709551615, .wait 1, .generate "w0", .wait 1]⟩
  waveforms := { entries := [("w0", [⟨[false]⟩])] }

/-- `Card.paged`, sample by sample. -/
def unpaged (arithmetic : Counter.Arithmetic) : Card :=
  { Card.paged arithmetic with
    quantum := 1
    quantum_pos := Nat.one_pos
    quantum_le_maxWait := (Card.paged arithmetic).maxWait_pos
    quantum_dvd_maxWait := Nat.mod_one _ }

/-- The frame would start behind the last place of any array. -/
theorem not_countable_overdue (arithmetic : Counter.Arithmetic) :
    ¬ Countable (unpaged arithmetic) overdue := by
  intro hcountable
  have hscore : overdue.score 1 = .ok [⟨18446744073709551616, ⟨[false]⟩, 1⟩] := by decide +kernel
  have hfits := hcountable.fits_of_score hscore
  rw [length_play hscore (List.cons_ne_nil _ _)] at hfits
  have hlong : ¬ overdue.elapsed 1 < Signal.limit := by decide +kernel
  exact hlong hfits.lt_limit

/-- It is played otherwise, or not at all, whatever becomes of counts that do not fit. -/
theorem not_playing_overdue :
    ¬ Playing (unpaged .checked) overdue ∧ ¬ Playing (unpaged .wrapping) overdue :=
  ⟨mt Playing.countable (not_countable_overdue .checked),
    mt Playing.countable (not_countable_overdue .wrapping)⟩

end Artifact

end PulseTrain
