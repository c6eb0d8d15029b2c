import Mathlib.Data.List.SplitBy
import PulseTrain.Compile
import PulseTrain.Proofs.Frames
import PulseTrain.Proofs.Replay
import PulseTrain.Proofs.Tape

/-!
# The round trip of a recording

A compiled recording plays back as its own frames, put on the card's grid and with equal neighbours
joined. Both steps are said here without the compiler's own definitions.

* `Frame.retime` lets each frame start where the aligned waits before it end.
* `Frame.runs` are the longest stretches of frames with one state, and `Frame.joined` the frame that
  stands for such a stretch.
* `Frame.Counted` is what of this must fit in 64 bits.
* `Artifact.frames_ofLedger` is the round trip, which comes out exactly if that fits.
-/

namespace PulseTrain

namespace Frame

/-! ## The grid -/

/-- A frame for as long as it takes on the grid, whether that fits in a counter or not. -/
def covered (quantum : Nat) (f : Frame) : Hold where
  state := f.state
  cycles := Wait.cover quantum f.duration

/-- The frames on the grid of the card: each starts at the sum of the aligned waits before it and
lasts its own. -/
def retime (quantum : Nat) (fs : List Frame) : List Frame :=
  fs.mapIdx fun i f =>
    { index := ((fs.take i).map fun g => Wait.cover quantum g.duration).sum
      state := f.state
      duration := Wait.cover quantum f.duration }

/-- Frames played for their covered durations start where the durations before them end. -/
theorem frames_map_covered (quantum start : Nat) (fs : List Frame) :
    Hold.frames start (fs.map (covered quantum))
      = fs.mapIdx fun i f =>
          { index := start + ((fs.take i).map fun g => Wait.cover quantum g.duration).sum
            state := f.state
            duration := Wait.cover quantum f.duration } := by
  induction fs generalizing start with
  | nil => rfl
  | cons f fs ih =>
    rw [List.map_cons, Hold.frames, ih, List.mapIdx_cons]
    simp [covered, Nat.add_assoc]

/-- Retimed frames are the frames of the holds that cover them, from sample zero on. -/
theorem retime_eq (quantum : Nat) (fs : List Frame) :
    retime quantum fs = Hold.frames 0 (fs.map (covered quantum)) := by
  rw [frames_map_covered]
  simp only [Nat.zero_add]
  rfl

/-- Rounding up only ever delays. Induction on the frames: one that starts late ends late. -/
theorem forall₂_le_frames {quantum : Nat} (hquantum : 0 < quantum) {fs : List Frame}
    (h : Contiguous fs) (start : Nat) (hstart : ∀ f ∈ fs.head?, f.index ≤ start) :
    List.Forall₂ (fun f g => f.state = g.state ∧ f.index ≤ g.index) fs
      (Hold.frames start (fs.map (covered quantum))) := by
  -- By induction on the frames: a cover is no shorter than what it covers, so the delay only grows.
  induction fs generalizing start with
  | nil => exact .nil
  | cons f fs ih =>
    have hle : f.index ≤ start := hstart f rfl
    refine .cons ⟨rfl, hle⟩ (ih h.tail _ fun g hg => ?_)
    have hnext : f.index + f.duration = g.index := by
      cases fs with
      | nil => cases hg
      | cons next rest =>
        cases hg
        exact (List.isChain_cons_cons.mp h).1
    have hcover : f.duration ≤ Wait.cover quantum f.duration := Wait.le_cover quantum _ hquantum
    change g.index ≤ start + Wait.cover quantum f.duration
    omega

/-- A frame starts on time if the durations before it are multiples of the quantum. -/
theorem forall₂_eq_frames {quantum : Nat} (hquantum : 0 < quantum) {fs : List Frame}
    (h : Contiguous fs) {start : Nat} (hstart : ∀ f ∈ fs.head?, f.index = start)
    (hdvd : ∀ f ∈ fs.dropLast, quantum ∣ f.duration) :
    List.Forall₂ (fun f g => f.state = g.state ∧ f.index = g.index) fs
      (Hold.frames start (fs.map (covered quantum))) := by
  -- The same, without delay: durations on the quantum are their own covers.
  induction fs generalizing start with
  | nil => exact .nil
  | cons f fs ih =>
    have heq : f.index = start := hstart f rfl
    refine .cons ⟨rfl, heq⟩ ?_
    cases fs with
    | nil => exact .nil
    | cons next rest =>
      have hnext : f.index + f.duration = next.index := (List.isChain_cons_cons.mp h).1
      have hon : Wait.cover quantum f.duration = f.duration :=
        Wait.cover_of_dvd hquantum (hdvd f (by simp))
      have hrest : ∀ g ∈ (next :: rest).dropLast, quantum ∣ g.duration := fun g hg =>
        hdvd g (by
          rw [List.dropLast_cons_cons]
          exact List.mem_cons_of_mem f hg)
      refine ih h.tail (fun g hg => ?_) hrest
      cases hg
      change next.index = start + Wait.cover quantum f.duration
      omega

/-! ## Runs of one state -/

/-- The longest stretches of adjacent frames with one state. -/
def runs (fs : List Frame) : List (List Frame) :=
  fs.splitBy fun f g => f.state = g.state

/-- The frame that stands for a run: from its first start on, for all of its durations. -/
def joined : List Frame → Option Frame
  | [] => none
  | f :: fs => some { f with duration := ((f :: fs).map (·.duration)).sum }

/-- A frame begins a run of its own before one with another state. -/
theorem runs_cons_of_ne {f g : Frame} {rest : List Frame} (h : f.state ≠ g.state) :
    runs (f :: g :: rest) = [f] :: runs (g :: rest) := by
  have := List.splitBy_append_cons (r := fun f g : Frame => decide (f.state = g.state))
    (l := [f]) (a := g) rest (by simpa using h)
  exact this

/-- A frame joins the run of one with the same state. -/
theorem runs_cons_of_eq {f g : Frame} {rest run : List Frame} {others : List (List Frame)}
    (h : f.state = g.state) (hruns : runs (g :: rest) = run :: others) :
    runs (f :: g :: rest) = (f :: run) :: others := by
  -- A cut into runs is fixed by four conditions; the longer run satisfies each of them.
  obtain ⟨hflat, hnil, hchain, hbreak⟩ := List.splitBy_eq_iff.mp hruns
  have hrun : run ≠ [] := fun hnone => hnil (hnone ▸ List.mem_cons_self)
  obtain ⟨head, tail, rfl⟩ := List.exists_cons_of_ne_nil hrun
  have hhead : head = g := by
    have := congrArg List.head? hflat
    simpa using this.symm
  subst hhead
  refine List.splitBy_eq_iff.mpr ⟨?_, ?_, ?_, ?_⟩
  · rw [hflat]
    rfl
  · simpa using fun hmem => hnil (List.mem_cons_of_mem _ hmem)
  · intro m hm
    rcases List.mem_cons.mp hm with rfl | hm
    · exact .cons_cons (by simpa using h) (hchain _ List.mem_cons_self)
    · exact hchain m (List.mem_cons_of_mem _ hm)
  · -- The run has one frame more in front, and ends with the same one.
    cases others with
    | nil => exact .singleton _
    | cons next rest' =>
      obtain ⟨⟨hlast, hfirst, hdiffer⟩, hrest⟩ := List.isChain_cons_cons.mp hbreak
      exact .cons_cons ⟨by simp, hfirst, by simpa using hdiffer⟩ hrest

/-- Lists with the same states have runs of the same lengths. -/
theorem forall₂_runs {R : Frame → Frame → Prop} (hR : ∀ f g, R f g → f.state = g.state)
    {fs gs : List Frame} (h : List.Forall₂ R fs gs) :
    List.Forall₂ (List.Forall₂ R) (runs fs) (runs gs) := by
  induction h with
  | nil => exact .nil
  | @cons f g fs gs hfg hrest ih =>
    cases hrest with
    | nil => exact .cons (.cons hfg .nil) .nil
    | @cons f' g' fs gs hfg' hrest =>
      -- Whether a run goes on is read off the states, and those agree.
      by_cases hstate : f.state = f'.state
      · have hstate' : g.state = g'.state := by rw [← hR f g hfg, ← hR f' g' hfg', hstate]
        cases hf : runs (f' :: fs) with
        | nil => simp [runs] at hf
        | cons run others =>
          cases hg : runs (g' :: gs) with
          | nil => simp [runs] at hg
          | cons run' others' =>
            rw [hf, hg] at ih
            cases ih with
            | cons hrun hothers =>
              rw [runs_cons_of_eq hstate hf, runs_cons_of_eq hstate' hg]
              exact .cons (.cons hfg hrun) hothers
      · have hstate' : g.state ≠ g'.state := by rwa [← hR f g hfg, ← hR f' g' hfg']
        rw [runs_cons_of_ne hstate, runs_cons_of_ne hstate']
        exact .cons (.cons hfg .nil) ih

/-- A joined run starts with its first frame. -/
theorem forall₂_head_joined {R : Frame → Frame → Prop} {rs rs' : List (List Frame)}
    {played : List Frame} (hruns : List.Forall₂ (List.Forall₂ R) rs rs')
    (hjoined : List.Forall₂ (fun run f => joined run = some f) rs' played) :
    List.Forall₂ (fun run f => ∃ first ∈ run.head?, ∃ g, R first g ∧ g.index = f.index) rs
      played := by
  -- By induction on the runs, each next to the frame it is joined to.
  induction hruns generalizing played with
  | nil =>
    cases hjoined
    exact .nil
  | cons hrun _ ih =>
    cases hjoined with
    | cons hjoin hrest =>
      refine .cons ?_ (ih hrest)
      cases hrun with
      | nil => cases hjoin
      | cons hfirst _ =>
        cases hjoin
        exact ⟨_, rfl, _, hfirst, rfl⟩

end Frame

/-! ## Joining is joining runs -/

namespace Hold

/-- Joining never drops the first hold: its state stands at the head of the result, for at least its cycles.
-/
theorem coalesce_cons_eq (h : Hold) (rest : List Hold) :
    ∃ cycles others, coalesce (h :: rest) = ⟨h.state, cycles⟩ :: others := by
  rw [coalesce_cons]
  unfold join
  split
  · exact ⟨h.cycles, [], rfl⟩
  · split
    · exact ⟨_, _, rfl⟩
    · exact ⟨h.cycles, _, rfl⟩

/-- Coalesced holds on the grid are the runs of the holds on the grid, each joined to one frame. -/
theorem forall₂_joined_runs (start : Nat) (hs : List Hold) :
    List.Forall₂ (fun run f => Frame.joined run = some f) (Frame.runs (frames start hs))
      (frames start (coalesce hs)) := by
  -- By induction on the holds: either `h` is joined to the first of what comes after it, or it stands
  -- alone.
  induction hs generalizing start with
  | nil => exact .nil
  | cons h rest ih =>
    cases rest with
    | nil => exact .cons rfl .nil
    | cons next rest =>
      have hrest := ih (start + h.cycles)
      obtain ⟨cycles, others, hjoin⟩ := coalesce_cons_eq next rest
      rw [hjoin] at hrest
      rw [coalesce_cons, hjoin]
      cases hruns : Frame.runs (frames (start + h.cycles) (next :: rest)) with
      | nil => simp [Frame.runs, frames] at hruns
      | cons run runs =>
        rw [hruns, frames] at hrest
        rw [frames] at hruns ⊢
        rw [frames]
        cases hrest with
        | cons hrun hothers =>
          by_cases hstate : h.state = next.state
          · rw [join, if_pos hstate, frames, Frame.runs_cons_of_eq hstate hruns]
            refine .cons ?_ (by rwa [← Nat.add_assoc])
            -- The run of `next` comes to `cycles`, and `h` adds its own.
            cases run with
            | nil => cases hrun
            | cons g gs =>
              simp only [Frame.joined, Option.some.injEq, Frame.mk.injEq, true_and] at hrun ⊢
              rw [List.map_cons, List.sum_cons, hrun.2.2]
          · rw [join, if_neg hstate, frames, frames, Frame.runs_cons_of_ne hstate, hruns]
            exact .cons rfl (.cons hrun hothers)

end Hold

/-! ## What has to be counted -/

namespace Frame

/-- Every wait fits in a counter. -/
def WaitsFit (quantum : Nat) (fs : List Frame) : Prop :=
  ∀ f ∈ fs, Wait.cover quantum f.duration < Counter.bound

/-- The samples that frames take on the grid. -/
def columns (quantum : Nat) (fs : List Frame) : Nat :=
  (fs.map fun f => Wait.cover quantum f.duration).sum

/-- A program can count the frames on the grid: a checked one all samples, and either one where each of
the joined frames starts and how long it lasts. -/
structure Counted (arithmetic : Counter.Arithmetic) (quantum : Nat) (fs : List Frame) : Prop where
  columns_lt : arithmetic = .checked → columns quantum fs < Counter.bound
  joined_lt : ∀ run ∈ runs (retime quantum fs), ∀ f ∈ joined run,
    f.index < Counter.bound ∧ f.duration < Counter.bound

variable {arithmetic : Counter.Arithmetic} {quantum : Nat} {fs : List Frame}

/-- While every wait fits, holding a frame is covering it: no multiple is lost to the 64 bits. -/
theorem WaitsFit.map_hold (h : WaitsFit quantum fs) :
    fs.map (hold quantum) = fs.map (covered quantum) :=
  List.map_congr_left fun f hf =>
    congrArg (Hold.mk f.state) (Wait.align_eq_cover_iff.mpr (h f hf))

theorem columns_eq (quantum : Nat) (fs : List Frame) :
    columns quantum fs = ((fs.map (covered quantum)).map (·.cycles)).sum := by
  rw [List.map_map]
  rfl

theorem width_of_mem_map_covered {channels : Nat} {cs : List Change} (quantum : Nat) :
    ∀ h ∈ (ofChanges channels cs).map (covered quantum), h.state.width = channels := by
  intro h hh
  obtain ⟨f, hf, rfl⟩ := List.mem_map.mp hh
  exact (state_ofChanges hf).1

/-- No wait is longer than all of them. -/
theorem waitsFit_of_columns_lt (h : columns quantum fs < Counter.bound) : WaitsFit quantum fs :=
  fun f hf => by
    have hmem : Wait.cover quantum f.duration ∈ fs.map fun f => Wait.cover quantum f.duration :=
      List.mem_map_of_mem hf
    exact Nat.lt_of_le_of_lt (List.le_sum_of_mem hmem) h

/-- A frame is held as it is said to be exactly when, on a checked machine, its cover fits in 64 bits. -/
theorem held_eq_ok_iff {f : Frame} {h : Hold} : held arithmetic quantum f = .ok h
    ↔ h = f.hold quantum ∧ (arithmetic = .checked → Wait.cover quantum f.duration < Counter.bound)
    := by
  unfold held
  simp only [bind_eq_ok_iff, Wait.count_eq_ok_iff]
  constructor
  · rintro ⟨wait, ⟨rfl, hfits⟩, h⟩
    cases h
    exact ⟨rfl, hfits⟩
  · rintro ⟨rfl, hfits⟩
    exact ⟨_, ⟨rfl, hfits⟩, rfl⟩

/-- A program comes to the holds of frames unless it stops at one of the waits. -/
theorem mapM_held_eq_ok_iff {hs : List Hold} : fs.mapM (held arithmetic quantum) = .ok hs
    ↔ hs = fs.map (hold quantum) ∧ (arithmetic = .checked → WaitsFit quantum fs) := by
  rw [mapM_eq_ok_iff]
  constructor
  · intro h
    induction h with
    | nil => exact ⟨rfl, fun _ f hf => by cases hf⟩
    | cons hf _ ih =>
      obtain ⟨rfl, hfits⟩ := held_eq_ok_iff.mp hf
      obtain ⟨rfl, hrest⟩ := ih
      exact ⟨rfl, fun harithmetic => List.forall_mem_cons.mpr
        ⟨hfits harithmetic, hrest harithmetic⟩⟩
  · rintro ⟨rfl, hfits⟩
    rw [List.forall₂_map_right_iff, List.forall₂_same]
    exact fun f hf => held_eq_ok_iff.mpr ⟨rfl, fun harithmetic => hfits harithmetic f hf⟩

/-- Every frame that some run joins to has a property exactly when every played frame has it. -/
theorem forall_mem_iff_of_joined {P : Frame → Prop} {rs : List (List Frame)} {played : List Frame}
    (h : List.Forall₂ (fun run f => joined run = some f) rs played) :
    (∀ run ∈ rs, ∀ f ∈ joined run, P f) ↔ ∀ f ∈ played, P f := by
  induction h with
  | nil => simp
  | cons hrun _ ih =>
    rw [List.forall_mem_cons, List.forall_mem_cons, hrun, ih]
    simp

/-- The joined frames are the frames of the joined holds. -/
theorem forall_joined_iff {P : Frame → Prop} :
    (∀ run ∈ runs (retime quantum fs), ∀ f ∈ joined run, P f)
      ↔ ∀ f ∈ Hold.frames 0 (Hold.coalesce (fs.map (covered quantum))), P f := by
  rw [retime_eq]
  exact forall_mem_iff_of_joined (Hold.forall₂_joined_runs 0 (fs.map (covered quantum)))

/-- If the joined frames fit, then so does every wait. -/
theorem Counted.waitsFit (h : Counted arithmetic quantum fs) : WaitsFit quantum fs := by
  intro f hf
  obtain ⟨g, hg, hle⟩ := Hold.exists_cycles_le_coalesce (List.mem_map_of_mem (f := covered quantum) hf)
  obtain ⟨start, hmem⟩ := Hold.exists_mem_frames 0 hg
  exact Nat.lt_of_le_of_lt hle (forall_joined_iff.mp h.joined_lt _ hmem).2

end Frame

/-! ## The round trip -/

namespace Artifact

/-- A compiled artifact is the one assembled from the recording's frames. A checked program compiles
only what it can wait for. -/
theorem ofLedger_eq_ok_iff {card : Card} {ledger : Ledger} {a : Artifact} :
    ofLedger card ledger = .ok a
      ↔ Region.check ledger.regions = .ok ()
          ∧ ∃ fs, Frame.ofTransitions card ledger.transitions = .ok fs
            ∧ (card.arithmetic = .checked → Frame.WaitsFit card.quantum fs)
            ∧ a = ofFrames card fs := by
  unfold ofLedger
  simp only [bind_eq_ok_iff, mapError_eq_ok_iff, Frame.mapM_held_eq_ok_iff]
  constructor
  · rintro ⟨_, hcheck, fs, hfs, hs, ⟨rfl, hfits⟩, h⟩
    cases h
    exact ⟨hcheck, fs, hfs, hfits, rfl⟩
  · rintro ⟨hcheck, fs, hfs, hfits, rfl⟩
    exact ⟨(), hcheck, fs, hfs, _, ⟨rfl, hfits⟩, rfl⟩

section

variable {card : Card} {cs : List Change}

/-- The frames of changes play back as they are on the grid, equal neighbours joined. -/
theorem score_ofFrames
    (hfits : Frame.WaitsFit card.quantum (Frame.ofChanges card.channels cs)) :
    (ofFrames card (Frame.ofChanges card.channels cs)).score card.quantum
      = .ok (Hold.frames 0 (Hold.coalesce
          ((Frame.ofChanges card.channels cs).map (Frame.covered card.quantum)))) := by
  rw [ofFrames, hfits.map_hold]
  refine score_ofHolds (fun h hh => ?_) (Frame.width_of_mem_map_covered card.quantum)
  obtain ⟨f, hf, rfl⟩ := List.mem_map.mp hh
  exact Wait.cover_pos card.quantum_pos (Frame.duration_pos_of_mem_ofChanges hf)

/-- The script of a list of frames plays for as many samples as the frames' covers add up to. -/
theorem elapsed_ofFrames
    (hfits : Frame.WaitsFit card.quantum (Frame.ofChanges card.channels cs)) :
    (ofFrames card (Frame.ofChanges card.channels cs)).elapsed card.quantum
      = Frame.columns card.quantum (Frame.ofChanges card.channels cs) := by
  rw [ofFrames, hfits.map_hold, Frame.columns_eq]
  exact elapsed_ofHolds (Frame.width_of_mem_map_covered card.quantum)

/-- A program that can count the frames plays them. -/
theorem frames_ofFrames
    (h : Frame.Counted card.arithmetic card.quantum (Frame.ofChanges card.channels cs)) :
    (ofFrames card (Frame.ofChanges card.channels cs)).frames card.arithmetic card.quantum
      = .ok (Hold.frames 0 (Hold.coalesce
          ((Frame.ofChanges card.channels cs).map (Frame.covered card.quantum)))) := by
  have hscore := score_ofFrames h.waitsFit
  -- A checked machine counts the whole, and a wrapping one keeps each frame for itself.
  cases harithmetic : card.arithmetic with
  | checked =>
    have hcolumns := h.columns_lt harithmetic
    rw [← elapsed_ofFrames h.waitsFit] at hcolumns
    rw [frames_checked, if_pos hcolumns, hscore]
  | wrapping =>
    rw [frames_wrapping, hscore]
    exact congrArg Except.ok (Frame.map_kept_eq_self_iff.mpr (Frame.forall_joined_iff.mp h.joined_lt))

end

variable {card : Card} {ledger : Ledger} {a : Artifact} {fs played : List Frame}

/-- What compiles is assembled from the frames of its ledger. -/
theorem eq_ofFrames_of_ofLedger (h : ofLedger card ledger = .ok a)
    (hfs : Frame.ofTransitions card ledger.transitions = .ok fs) :
    (card.arithmetic = .checked → Frame.WaitsFit card.quantum fs) ∧ a = ofFrames card fs := by
  obtain ⟨-, fs', hfs', hfits, heq⟩ := ofLedger_eq_ok_iff.mp h
  obtain rfl : fs' = fs := Except.ok.inj (hfs'.symm.trans hfs)
  exact ⟨hfits, heq⟩

/-- What compiles and can be waited for plays back as its frames on the grid. -/
theorem score_of_ofLedger (h : ofLedger card ledger = .ok a)
    (hfs : Frame.ofTransitions card ledger.transitions = .ok fs)
    (hfits : Frame.WaitsFit card.quantum fs) :
    a.score card.quantum
        = .ok (Hold.frames 0 (Hold.coalesce (fs.map (Frame.covered card.quantum))))
      ∧ a.elapsed card.quantum = Frame.columns card.quantum fs := by
  obtain ⟨-, rfl⟩ := eq_ofFrames_of_ofLedger h hfs
  obtain ⟨cs, -, rfl⟩ := Frame.eq_ofChanges_of_ofTransitions hfs
  exact ⟨score_ofFrames hfits, elapsed_ofFrames hfits⟩

/-- The frames `fs` of a ledger and the frames `played` by its artifact. -/
structure RoundTrip (card : Card) (ledger : Ledger) (a : Artifact) (fs played : List Frame) :
    Prop where
  recorded : Frame.ofTransitions card ledger.transitions = .ok fs
  plays : a.frames card.arithmetic card.quantum = .ok played
  /-- Every longest run of one state is one frame, and nothing else is changed on the grid. -/
  joined : List.Forall₂ (fun run f => Frame.joined run = some f)
    (Frame.runs (Frame.retime card.quantum fs)) played
  /-- No frame is played before the first of those that it stands for. -/
  no_earlier : List.Forall₂ (fun run f => ∃ first ∈ run.head?, first.index ≤ f.index)
    (Frame.runs fs) played
  /-- If the card can wait for every duration but the last as it is, every frame is on time. -/
  on_time : (∀ f ∈ fs.dropLast, card.quantum ∣ f.duration) →
    (Frame.retime card.quantum fs).map (·.index) = fs.map (·.index)
      ∧ List.Forall₂ (fun run f => ∃ first ∈ run.head?, first.index = f.index)
          (Frame.runs fs) played

/-- The frames of a program that comes to the round trip are counted. -/
theorem RoundTrip.counted (h : ofLedger card ledger = .ok a)
    (htrip : RoundTrip card ledger a fs played) :
    Frame.Counted card.arithmetic card.quantum fs := by
  have hplays := htrip.plays
  cases harithmetic : card.arithmetic with
  | checked =>
    have hfits := (eq_ofFrames_of_ofLedger h htrip.recorded).1 harithmetic
    obtain ⟨-, helapsed⟩ := score_of_ofLedger h htrip.recorded hfits
    -- Had the cursor come to the bound, the playback would have halted.
    have hcolumns : Frame.columns card.quantum fs < Counter.bound := by
      rw [harithmetic, frames_checked, helapsed] at hplays
      by_contra hle
      rw [if_neg hle] at hplays
      cases hplays
    refine ⟨fun _ => hcolumns, Frame.forall_joined_iff.mpr fun f hf => ?_⟩
    have hstop := Hold.stop_le_of_mem_frames hf
    rw [Hold.sum_coalesce, ← Frame.columns_eq] at hstop
    omega
  | wrapping =>
    -- What is played has been kept in counters, and these are the joined frames.
    rw [harithmetic, frames_wrapping] at hplays
    have hkept : ∀ f ∈ played, f.index < Counter.bound ∧ f.duration < Counter.bound := by
      cases hscore : a.score card.quantum with
      | error e =>
        rw [hscore] at hplays
        cases hplays
      | ok fs =>
        rw [hscore] at hplays
        cases hplays
        exact List.forall_mem_map.mpr fun f _ => Frame.kept_lt f
    exact ⟨nofun, (Frame.forall_mem_iff_of_joined htrip.joined).mpr hkept⟩

/-- A recording whose frames are counted comes back. -/
theorem roundTrip_of_counted (h : ofLedger card ledger = .ok a)
    (hfs : Frame.ofTransitions card ledger.transitions = .ok fs)
    (hcounted : Frame.Counted card.arithmetic card.quantum fs) :
    ∃ played, RoundTrip card ledger a fs played := by
  obtain ⟨-, rfl⟩ := eq_ofFrames_of_ofLedger h hfs
  obtain ⟨cs, -, rfl⟩ := Frame.eq_ofChanges_of_ofTransitions hfs
  set fs := Frame.ofChanges card.channels cs
  have hcontiguous : Frame.Contiguous fs := Frame.contiguous_ofChanges card.channels cs
  have hzero : ∀ f ∈ fs.head?, f.index = 0 := fun f hf => Frame.index_of_mem_head?_ofChanges hf
  have hjoined := Hold.forall₂_joined_runs 0 (fs.map (Frame.covered card.quantum))
  -- The states and the order are those of the runs, and the starts are late or on time by the lemmas
  -- above.
  refine ⟨_, hfs, frames_ofFrames hcounted, ?_, ?_, fun hdvd => ⟨?_, ?_⟩⟩
  · rwa [Frame.retime_eq]
  · have hlate := Frame.forall₂_le_frames card.quantum_pos hcontiguous 0
      fun f hf => Nat.le_of_eq (hzero f hf)
    refine (Frame.forall₂_head_joined (Frame.forall₂_runs (fun f g hfg => hfg.1) hlate)
      hjoined).imp ?_
    rintro run f ⟨first, hfirst, g, hg, hindex⟩
    exact ⟨first, hfirst, hindex ▸ hg.2⟩
  -- With every duration on the quantum, the frames start where they were recorded.
  · have hon := Frame.forall₂_eq_frames card.quantum_pos hcontiguous hzero hdvd
    have hindex : List.Forall₂ (· = ·) (fs.map (·.index))
        ((Hold.frames 0 (fs.map (Frame.covered card.quantum))).map (·.index)) := by
      rw [List.forall₂_map_left_iff, List.forall₂_map_right_iff]
      exact hon.imp fun f g hfg => hfg.2
    rw [Frame.retime_eq]
    exact (List.forall₂_eq_eq_eq ▸ hindex).symm
  · have hon := Frame.forall₂_eq_frames card.quantum_pos hcontiguous hzero hdvd
    refine (Frame.forall₂_head_joined (Frame.forall₂_runs (fun f g hfg => hfg.1) hon)
      hjoined).imp ?_
    rintro run f ⟨first, hfirst, g, hg, hindex⟩
    exact ⟨first, hfirst, hg.2.trans hindex⟩

/-- **The round trip of a recording.** Whatever compiles plays back as its own frames on the grid, exactly
if the program can count those. -/
theorem frames_ofLedger (h : ofLedger card ledger = .ok a) :
    (∃ fs played, RoundTrip card ledger a fs played)
      ↔ ∀ fs, Frame.ofTransitions card ledger.transitions = .ok fs →
          Frame.Counted card.arithmetic card.quantum fs := by
  constructor
  · rintro ⟨fs, played, htrip⟩ fs' hfs'
    obtain rfl : fs' = fs := Except.ok.inj (hfs'.symm.trans htrip.recorded)
    exact htrip.counted h
  · intro hcounted
    obtain ⟨-, fs, hfs, -⟩ := ofLedger_eq_ok_iff.mp h
    exact ⟨fs, roundTrip_of_counted h hfs (hcounted fs hfs)⟩

end Artifact

/-! ## A recording at work

Five frames on a card that waits in pairs of samples: the first two states are equal, and so are the
last two; the first three frames are fused, and so are the last two. -/

/-- Five requests out of order. -/
def Ledger.unordered : Ledger where
  transitions := [⟨7, 1, true⟩, ⟨3, 0, true⟩, ⟨1, 0, false⟩, ⟨9, 1, true⟩]

/-- The artifact of `Ledger.unordered` on `Card.paired`. -/
def Artifact.unordered : Artifact where
  script := ⟨[.generate "c0", .wait 4, .generate "c1", .wait 2]⟩
  waveforms := {
    entries := [
      ("c0", List.replicate 4 ⟨[false, false]⟩ ++ List.replicate 2 ⟨[true, false]⟩),
      ("c1", List.replicate 4 ⟨[true, true]⟩)] }

/-- Changes at different samples have one sorted order. -/
theorem Change.mergeSort_eq_of_perm {cs sorted : List Change} (hperm : cs.Perm sorted)
    (hsorted : sorted.Pairwise fun a b => a.index < b.index) : cs.mergeSort le = sorted := by
  have hdiffer : sorted.Pairwise fun a b => (a.index : Int) ≠ b.index :=
    hsorted.imp fun h => by omega
  rw [Sorting.mergeSort_eq_of_perm le_iff hperm hdiffer]
  exact List.mergeSort_of_pairwise (hsorted.imp fun h => (le_iff _ _).mpr (by omega))

theorem Region.check_nil : check [] = .ok () := by
  simp [check, firstOverlap?]

/-- The frames of `Ledger.unordered`. -/
def Frame.unordered : List Frame :=
  [⟨0, ⟨[false, false]⟩, 1⟩, ⟨1, ⟨[false, false]⟩, 2⟩, ⟨3, ⟨[true, false]⟩, 4⟩,
    ⟨7, ⟨[true, true]⟩, 2⟩, ⟨9, ⟨[true, true]⟩, 1⟩]

theorem Frame.ofTransitions_unordered :
    ofTransitions Card.paired Ledger.unordered.transitions = .ok unordered := by
  have hplaced : Ledger.unordered.transitions.mapM (Change.ofTransition Card.paired)
      = .ok [⟨7, 1, true⟩, ⟨3, 0, true⟩, ⟨1, 0, false⟩, ⟨9, 1, true⟩] := by decide +kernel
  -- The sort does not evaluate, so its result is given.
  have hsorted : [Change.mk 7 1 true, ⟨3, 0, true⟩, ⟨1, 0, false⟩, ⟨9, 1, true⟩].mergeSort Change.le
      = [⟨1, 0, false⟩, ⟨3, 0, true⟩, ⟨7, 1, true⟩, ⟨9, 1, true⟩] :=
    Change.mergeSort_eq_of_perm (by decide) (by decide)
  refine (congrArg (Except.map _) hplaced).trans (congrArg Except.ok ?_)
  rw [ofChanges_eq (List.cons_ne_nil _ _), hsorted]
  decide +kernel

theorem Artifact.ofLedger_unordered : ofLedger Card.paired Ledger.unordered = .ok unordered :=
  ofLedger_eq_ok_iff.mpr ⟨Region.check_nil, _, Frame.ofTransitions_unordered, nofun,
    by decide +kernel⟩

/-- The frames of the unordered ledger are few enough to count in 64 bits. -/
theorem Frame.counted_unordered {fs : List Frame}
    (h : ofTransitions Card.paired Ledger.unordered.transitions = .ok fs) :
    Counted Card.paired.arithmetic Card.paired.quantum fs := by
  obtain rfl := Except.ok.inj (ofTransitions_unordered.symm.trans h)
  exact ⟨nofun, forall_joined_iff.mpr (by decide +kernel)⟩

theorem Artifact.frames_unordered :
    ofLedger Card.paired Ledger.unordered = .ok unordered
      ∧ ∃ fs played, RoundTrip Card.paired Ledger.unordered unordered fs played :=
  ⟨ofLedger_unordered, (frames_ofLedger ofLedger_unordered).mpr fun _ => Frame.counted_unordered⟩

/-! ## A recording that takes too long

Every wait fits in a counter, but their sum does not: the last frame would start at the sample that is the
first without a number. -/

/-- Requests far apart. -/
def Ledger.distant : Ledger where
  transitions := [⟨1, 0, true⟩, ⟨4611686018427387904, 0, false⟩, ⟨18446744073709547520, 0, true⟩]

/-- The frames of `Ledger.distant`. -/
def Frame.distant : List Frame :=
  [⟨0, ⟨[false]⟩, 1⟩, ⟨1, ⟨[true]⟩, 4611686018427387903⟩,
    ⟨4611686018427387904, ⟨[false]⟩, 13835058055282159616⟩,
    ⟨18446744073709547520, ⟨[true]⟩, 1⟩]

section

variable (arithmetic : Counter.Arithmetic)

theorem Frame.ofTransitions_distant :
    ofTransitions (Card.paged arithmetic) Ledger.distant.transitions = .ok distant := by
  have hplaced : Ledger.distant.transitions.mapM (Change.ofTransition (Card.paged arithmetic))
      = .ok [⟨1, 0, true⟩, ⟨4611686018427387904, 0, false⟩, ⟨18446744073709547520, 0, true⟩] := by
    cases arithmetic <;> decide +kernel
  refine (congrArg (Except.map _) hplaced).trans (congrArg Except.ok ?_)
  rw [ofChanges_eq (List.cons_ne_nil _ _), Change.mergeSort_eq_of_perm (List.Perm.refl _) (by decide)]
  cases arithmetic <;> decide +kernel

theorem Frame.waitsFit_distant : WaitsFit (Card.paged arithmetic).quantum distant := by
  have hfits : ∀ f ∈ distant, Wait.cover 4096 f.duration < Counter.bound := by decide
  exact hfits

/-- The distant ledger compiles on either kind of machine: every one of its waits fits. -/
theorem Artifact.ofLedger_distant : ofLedger (Card.paged arithmetic) Ledger.distant
    = .ok (ofFrames (Card.paged arithmetic) Frame.distant) :=
  ofLedger_eq_ok_iff.mpr ⟨Region.check_nil, _, Frame.ofTransitions_distant arithmetic,
    fun _ => Frame.waitsFit_distant arithmetic, rfl⟩

/-- Its columns do not fit, though: they add up to more than 64 bits hold. -/
theorem Frame.not_counted_distant :
    ¬ Counted arithmetic (Card.paged arithmetic).quantum distant := by
  intro hcounted
  have hjoined : ∃ f ∈ Hold.frames 0 (Hold.coalesce (distant.map (covered 4096))),
      ¬ f.index < Counter.bound := by decide +kernel
  obtain ⟨f, hf, hindex⟩ := hjoined
  exact hindex (forall_joined_iff.mp hcounted.joined_lt f hf).1

theorem Artifact.not_roundTrip_distant : ∃ a,
    ofLedger (Card.paged arithmetic) Ledger.distant = .ok a
      ∧ ¬ ∃ fs played, RoundTrip (Card.paged arithmetic) Ledger.distant a fs played := by
  refine ⟨_, ofLedger_distant arithmetic, fun ⟨fs, played, htrip⟩ => ?_⟩
  obtain rfl := Except.ok.inj ((Frame.ofTransitions_distant arithmetic).symm.trans htrip.recorded)
  exact Frame.not_counted_distant arithmetic (htrip.counted (ofLedger_distant arithmetic))

end

/-- It compiles, and does not come back, whatever becomes of counts that do not fit. -/
theorem Artifact.not_frames_distant :
    (∃ a, ofLedger (Card.paged .checked) Ledger.distant = .ok a
      ∧ ¬ ∃ fs played, RoundTrip (Card.paged .checked) Ledger.distant a fs played)
    ∧ ∃ a, ofLedger (Card.paged .wrapping) Ledger.distant = .ok a
      ∧ ¬ ∃ fs played, RoundTrip (Card.paged .wrapping) Ledger.distant a fs played :=
  ⟨not_roundTrip_distant .checked, not_roundTrip_distant .wrapping⟩

end PulseTrain
