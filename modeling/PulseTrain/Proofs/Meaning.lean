import Mathlib.Data.List.Sort
import PulseTrain.Proofs.Player
import PulseTrain.Proofs.RoundTrip

/-!
# What a compiled recording means

The signal of a compiled recording is what its transitions ask for, on a timeline on which every gap
is rounded up to what the card can wait for. The timeline and the levels on it are said in terms of
the changes alone; bursts, names and split waits do not occur in them.

* `Timeline` is the instants of a recording and where each of them is played.
* `Timeline.Shows` says that a signal has the levels asked for at every sample of it.
* `Artifact.signal_ofLedger` is the result, for every card and every ledger that compiles: the signal
  is there and means this exactly if there is an array for it. The card's limits on waits do not matter.
-/

namespace PulseTrain

/-! ## The timeline -/

/-- The instants at which something is asked for, sample `0` first, and the samples at which they are
played. From one to the next it takes the least number of quanta that covers the gap. -/
structure Timeline (quantum : Nat) (cs : List Change) where
  instants : List Nat
  start : Nat → Nat
  increasing : instants.Pairwise (· < ·)
  mem_instants : ∀ k, k ∈ instants ↔ k = 0 ∨ ∃ c ∈ cs, c.index = k
  start_zero : start 0 = 0
  start_succ : ∀ j (h : j + 1 < instants.length),
    ∃ gap, IsLeast {w | quantum ∣ w ∧ instants[j + 1] - instants[j] ≤ w} gap
      ∧ start (j + 1) = start j + gap

/-- The level of a channel at a sample, if the signal has both. -/
def Signal.level? (sig : Signal) (channel sample : Nat) : Option Bool :=
  sig.rows[channel]?.bind (·[sample]?)

namespace Timeline

variable {quantum : Nat} {cs : List Change}

/-- The sample at which instant number `j` is over: the start of the next, or a quantum after the
last. -/
def stop (t : Timeline quantum cs) (j : Nat) : Nat :=
  if j + 1 < t.instants.length then t.start (j + 1) else t.start j + quantum

/-- The signal has a row for each channel and a column for each sample of the timeline, and at each of
them the level that is asked for. -/
structure Shows (t : Timeline quantum cs) (channels : Nat) (sig : Signal) : Prop where
  rows_length : sig.rows.length = channels
  row_length : ∀ row ∈ sig.rows, row.length = sig.samples
  samples_eq : sig.samples = t.stop (t.instants.length - 1)
  levelAt : ∀ channel < channels, ∀ j (h : j < t.instants.length) sample,
    t.start j ≤ sample → sample < t.stop j →
      ∃ level, sig.level? channel sample = some level
        ∧ Change.LevelAt cs channel t.instants[j] level

end Timeline

/-! ## The signal of holds -/

namespace Signal

/-- The signal that plays the samples of `hs` one after the other. -/
def ofHolds (channels : Nat) (hs : List Hold) : Signal where
  samples := (hs.map (·.cycles)).sum
  rows := (List.range channels).map fun channel =>
    (hs.flatMap Hold.samples).map fun s => (s.get? channel).getD false

/-- What joined holds show one after the other is the signal of the holds. -/
theorem concat_coalesce (channels : Nat) (hs : List Hold) :
    concat channels (Hold.frames 0 (Hold.coalesce hs)) = ofHolds channels hs := by
  rw [concat_eq_ofColumns channels fun _ => rfl, List.replicate_zero, List.nil_append]
  unfold ofColumns ofHolds
  rw [Hold.length_flatMap_samples]

/-- The level at a sample is the one in the hold that plays it. -/
theorem level?_ofHolds {channels channel : Nat} (hchannel : channel < channels) (hs : List Hold)
    {j : Nat} (hj : j < hs.length) {i : Nat} (hi : i < hs[j].cycles) :
    (ofHolds channels hs).level? channel (((hs.take j).map (·.cycles)).sum + i)
      = some ((hs[j].state.get? channel).getD false) := by
  unfold level? ofHolds
  simp only [List.getElem?_map, List.getElem?_range hchannel, Option.map_some, Option.bind_some]
  rw [Hold.getElem?_flatMap_samples hs hj hi]
  rfl

end Signal

/-! ## The signal of changes -/

namespace Timeline

variable {channels : Nat} {cs : List Change}

/-- The timeline of changes, read off their frames. -/
def ofChanges (channels quantum : Nat) (hquantum : 0 < quantum) (hcs : cs ≠ []) :
    Timeline quantum cs where
  instants := (Frame.ofChanges channels cs).map (·.index)
  start j := (((Frame.ofChanges channels cs).take j).map fun f =>
    Wait.cover quantum f.duration).sum
  increasing := Frame.index_ofChanges_increasing channels cs
  mem_instants _ := Frame.mem_index_ofChanges hcs
  start_zero := rfl
  start_succ j h := by
    rw [List.length_map] at h
    refine ⟨Wait.cover quantum (Frame.ofChanges channels cs)[j].duration, ?_, ?_⟩
    · have hnext := List.isChain_iff_getElem.mp (Frame.contiguous_ofChanges channels cs) j h
      have hgap : (Frame.ofChanges channels cs)[j + 1].index - (Frame.ofChanges channels cs)[j].index
          = (Frame.ofChanges channels cs)[j].duration := by omega
      rw [List.getElem_map, List.getElem_map, hgap]
      exact Wait.isLeast_cover hquantum _
    · rw [List.take_add_one, List.getElem?_eq_getElem (by omega), List.map_append, List.sum_append]
      simp

/-- An instant is over when its frame has passed on the grid. -/
theorem stop_ofChanges {quantum : Nat} (hquantum : 0 < quantum) (hcs : cs ≠ []) {j : Nat}
    (hj : j < (Frame.ofChanges channels cs).length) :
    (ofChanges channels quantum hquantum hcs).stop j
      = (ofChanges channels quantum hquantum hcs).start j
        + Wait.cover quantum (Frame.ofChanges channels cs)[j].duration := by
  unfold stop
  split
  · simp only [ofChanges]
    rw [List.take_add_one, List.getElem?_eq_getElem hj, List.map_append, List.sum_append]
    simp
  · rename_i hlast
    simp only [ofChanges, List.length_map] at hlast
    -- The last frame lasts for one sample, and that takes a whole quantum.
    have hdur : (Frame.ofChanges channels cs)[j].duration = 1 := by
      apply Frame.duration_of_mem_getLast?_ofChanges
      rw [List.getLast?_eq_getElem?, show (Frame.ofChanges channels cs).length - 1 = j by omega,
        List.getElem?_eq_getElem hj]
      rfl
    rw [hdur, Wait.cover_one hquantum]

/-- The frames of changes, each held for its aligned wait, show the timeline. -/
theorem shows_ofChanges {quantum : Nat} (hquantum : 0 < quantum) (hcs : cs ≠ []) :
    (ofChanges channels quantum hquantum hcs).Shows channels
      (Signal.ofHolds channels ((Frame.ofChanges channels cs).map (Frame.covered quantum))) := by
  set fs := Frame.ofChanges channels cs with hfs
  set t := ofChanges channels quantum hquantum hcs
  have hne : fs ≠ [] := by
    intro hnone
    have := Frame.head?_index_ofChanges channels hcs
    rw [← hfs, hnone] at this
    cases this
  -- The timeline starts a frame where the covers before it add up to.
  have hstart : ∀ j, t.start j = (((fs.map (Frame.covered quantum)).take j).map (·.cycles)).sum := by
    intro j
    rw [← List.map_take, List.map_map]
    rfl
  refine ⟨by simp [Signal.ofHolds], ?_, ?_, ?_⟩
  · intro row hrow
    obtain ⟨channel, -, rfl⟩ := List.mem_map.mp hrow
    rw [List.length_map, Hold.length_flatMap_samples]
    rfl
  · have hlast : fs.length - 1 < fs.length := by
      have := List.length_pos_iff.mpr hne
      omega
    have hcount : t.instants.length = fs.length := List.length_map _
    rw [hcount, stop_ofChanges hquantum hcs hlast, hstart]
    -- All frames but the last, and then the last.
    have hall : (fs.map (Frame.covered quantum)).take (fs.length - 1)
        ++ [Frame.covered quantum fs[fs.length - 1]] = fs.map (Frame.covered quantum) := by
      rw [← List.map_take, ← List.map_singleton, ← List.map_append, List.take_append_getElem hlast,
        Nat.sub_add_cancel (by omega), List.take_length]
    calc (Signal.ofHolds channels (fs.map (Frame.covered quantum))).samples
        = ((fs.map (Frame.covered quantum)).map (·.cycles)).sum := rfl
      _ = _ := by
        conv_lhs => rw [← hall]
        rw [List.map_append, List.sum_append]
        rfl
  · intro channel hchannel j hj sample hfrom hto
    have hj' : j < fs.length := by simpa [t, ofChanges] using hj
    rw [stop_ofChanges hquantum hcs hj'] at hto
    -- The sample is the `i`-th of hold number `j`.
    obtain ⟨i, rfl⟩ := Nat.exists_eq_add_of_le hfrom
    obtain ⟨level, hlevel, hasked⟩ :=
      (Frame.state_ofChanges (List.getElem_mem hj')).2 channel hchannel
    refine ⟨level, ?_, ?_⟩
    · rw [hstart, Signal.level?_ofHolds hchannel _ (by simpa using hj')
        (by simpa [Frame.covered] using Nat.lt_of_add_lt_add_left hto)]
      simp [Frame.covered, hlevel]
    · have hindex : t.instants[j] = fs[j].index := List.getElem_map _
      rw [hindex]
      exact hasked

/-- A recording has one timeline, up to the starts of instants that it does not have. -/
theorem start_eq (t t' : Timeline quantum cs) (hinstants : t.instants = t'.instants) {j : Nat}
    (hj : j < t.instants.length) : t.start j = t'.start j := by
  induction j with
  | zero => rw [t.start_zero, t'.start_zero]
  | succ j ih =>
    obtain ⟨gap, hgap, hnext⟩ := t.start_succ j hj
    obtain ⟨gap', hgap', hnext'⟩ := t'.start_succ j (hinstants ▸ hj)
    simp only [← hinstants] at hgap'
    rw [hnext, hnext', ih (by omega), hgap.unique hgap']

/-- The instants of a recording are what its changes make them. -/
theorem instants_eq (t t' : Timeline quantum cs) : t.instants = t'.instants :=
  t.increasing.eq_of_mem_iff t'.increasing fun k => by rw [t.mem_instants, t'.mem_instants]

/-- The timeline is over when all frames have passed. -/
theorem stop_last {quantum : Nat} (hquantum : 0 < quantum) (hcs : cs ≠ []) (t : Timeline quantum cs) :
    t.stop (t.instants.length - 1)
      = Frame.columns quantum (Frame.ofChanges channels cs) := by
  have hinstants := t.instants_eq (ofChanges channels quantum hquantum hcs)
  have hshows : (ofChanges channels quantum hquantum hcs).Shows channels _ :=
    shows_ofChanges hquantum hcs
  have hpos : 0 < t.instants.length :=
    List.length_pos_of_mem ((t.mem_instants 0).mpr (.inl rfl))
  have hlast : t.instants.length - 1 < t.instants.length := by omega
  have hstop : t.stop (t.instants.length - 1)
      = (ofChanges channels quantum hquantum hcs).stop (t.instants.length - 1) := by
    -- Both timelines start their last instant together, and hold it for a quantum.
    unfold stop
    rw [← hinstants, start_eq t _ hinstants hlast, if_neg (by omega), if_neg (by omega)]
  rw [hstop, hinstants, ← hshows.samples_eq, Frame.columns_eq]
  rfl

end Timeline

/-! ## The result -/

namespace Artifact

/-- The signal of frames that changes lead to, if there is an array for it. -/
theorem signal_ofFrames {card : Card} {cs : List Change}
    (hfits : Signal.Fits card.channels
      (Frame.columns card.quantum (Frame.ofChanges card.channels cs))) :
    (ofFrames card (Frame.ofChanges card.channels cs)).signal card
      = .ok (Signal.ofHolds card.channels
          ((Frame.ofChanges card.channels cs).map (Frame.covered card.quantum))) := by
  -- All columns fit in memory, so every wait on the way fits in 64 bits.
  have hwaits := Frame.waitsFit_of_columns_lt
    (Nat.lt_trans hfits.lt_limit Signal.limit_lt_bound)
  have helapsed := hfits.lt_limit
  rw [← elapsed_ofFrames hwaits] at helapsed
  have hconcat := Signal.concat_coalesce card.channels
    ((Frame.ofChanges card.channels cs).map (Frame.covered card.quantum))
  refine signal_eq_ok_iff.mpr ⟨_, (frames_of_elapsed_lt card.arithmetic
    (Nat.lt_trans helapsed Signal.limit_lt_bound)).trans (score_ofFrames hwaits), ?_⟩
  rw [← hconcat]
  refine Signal.ofFrames_of_contiguous (Hold.contiguous_frames 0 _) ?_
  rw [hconcat]
  rw [Frame.columns_eq] at hfits
  exact hfits

/-- The artifact `a` plays `sig`, which is what `ledger` asks `card` for. -/
structure Meaning (card : Card) (ledger : Ledger) (a : Artifact) (cs : List Change)
    (sig : Signal) : Prop where
  placed : List.Forall₂ (Change.Places card) ledger.transitions cs
  plays : a.signal card = .ok sig
  silent : cs = [] → sig = ⟨0, List.replicate card.channels []⟩
  shows : cs ≠ [] → ∃ t : Timeline card.quantum cs, t.Shows card.channels sig
  /-- A card that has other limits on waits plays the same. -/
  unlimited : ∀ other : Card, other.clockRate = card.clockRate → other.units = card.units →
    other.channels = card.channels → other.quantum = card.quantum →
    ∃ b, ofLedger other ledger = .ok b ∧ b.signal other = .ok sig

variable {card : Card} {ledger : Ledger} {a : Artifact} {cs : List Change} {sig : Signal}

/-- What has been drawn has an array, and as many columns as the frames take. -/
theorem Meaning.fits (h : Meaning card ledger a cs sig) {fs : List Frame}
    (hfs : Frame.ofTransitions card ledger.transitions = .ok fs) :
    Signal.Fits card.channels (Frame.columns card.quantum fs) := by
  obtain ⟨_, -, hdrawn⟩ := signal_eq_ok_iff.mp h.plays
  have hfits := (Signal.fits_of_ofFrames hdrawn).2
  obtain ⟨cs', hplaced, rfl⟩ := Frame.eq_ofChanges_of_ofTransitions hfs
  obtain rfl : cs' = cs := Change.eq_of_places hplaced h.placed
  -- Without changes nothing is drawn, and otherwise the timeline gives the columns.
  by_cases hcs : cs' = []
  · rw [hcs, Frame.ofChanges_nil]
    rw [h.silent hcs] at hfits
    exact hfits
  · obtain ⟨t, ht⟩ := h.shows hcs
    rwa [← t.stop_last card.quantum_pos hcs, ← ht.samples_eq]

/-- What has an array is drawn as it is asked for. -/
theorem meaning_of_fits (h : ofLedger card ledger = .ok a)
    (hfits : ∀ fs, Frame.ofTransitions card ledger.transitions = .ok fs →
      Signal.Fits card.channels (Frame.columns card.quantum fs)) :
    ∃ cs sig, Meaning card ledger a cs sig := by
  obtain ⟨hregions, fs, hfs, -, rfl⟩ := ofLedger_eq_ok_iff.mp h
  obtain ⟨cs, hplaced, rfl⟩ := Frame.eq_ofChanges_of_ofTransitions hfs
  have hfits := hfits _ hfs
  have hwaits := Frame.waitsFit_of_columns_lt
    (Nat.lt_trans hfits.lt_limit Signal.limit_lt_bound)
  refine ⟨cs, _, hplaced, signal_ofFrames hfits, ?_, ?_, ?_⟩
  · rintro rfl
    rw [Frame.ofChanges_nil]
    simp [Signal.ofHolds]
  · intro hcs
    exact ⟨_, Timeline.shows_ofChanges card.quantum_pos hcs⟩
  -- The signal only depends on the frames, and these on the clock, the units and the channels.
  · intro other hclock hunits hchannels hquantum
    have hother : Frame.ofTransitions other ledger.transitions
        = .ok (Frame.ofChanges card.channels cs) := by
      rw [Frame.ofTransitions_congr hclock hunits hchannels, hfs]
    refine ⟨_, ofLedger_eq_ok_iff.mpr
      ⟨hregions, _, hother, fun _ => hquantum ▸ hwaits, rfl⟩, ?_⟩
    rw [← hchannels] at hfits ⊢
    rw [← hquantum] at hfits ⊢
    exact signal_ofFrames hfits

/-- **Compiling keeps the meaning of a recording.** Whatever compiles is played on the aligned timeline
as its transitions ask for, exactly if there is an array for the signal: and so if the samples of the
timeline, times the channels, can be counted with a sign. -/
theorem signal_ofLedger (h : ofLedger card ledger = .ok a) :
    (∃ cs sig, Meaning card ledger a cs sig)
      ↔ ∀ fs, Frame.ofTransitions card ledger.transitions = .ok fs →
          Signal.Fits card.channels (Frame.columns card.quantum fs) := by
  constructor
  · rintro ⟨cs, sig, hmeaning⟩ fs hfs
    exact hmeaning.fits hfs
  · exact meaning_of_fits h

/-- The signal of five frames has an array. -/
theorem fits_unordered {fs : List Frame}
    (h : Frame.ofTransitions Card.paired Ledger.unordered.transitions = .ok fs) :
    Signal.Fits Card.paired.channels (Frame.columns Card.paired.quantum fs) := by
  obtain rfl := Except.ok.inj (Frame.ofTransitions_unordered.symm.trans h)
  decide +kernel

/-- Five frames are played as they are asked for. -/
theorem signal_unordered :
    ofLedger Card.paired Ledger.unordered = .ok unordered
      ∧ ∃ cs sig, Meaning Card.paired Ledger.unordered unordered cs sig :=
  ⟨ofLedger_unordered, (signal_ofLedger ofLedger_unordered).mpr fun _ => fits_unordered⟩

/-- An array with so many columns does not exist. -/
theorem not_meaning_distant (arithmetic : Counter.Arithmetic) : ∃ a,
    ofLedger (Card.paged arithmetic) Ledger.distant = .ok a
      ∧ ¬ ∃ cs sig, Meaning (Card.paged arithmetic) Ledger.distant a cs sig := by
  refine ⟨_, ofLedger_distant arithmetic, fun ⟨cs, sig, hmeaning⟩ => ?_⟩
  have hfits := hmeaning.fits (Frame.ofTransitions_distant arithmetic)
  have hnone : ¬ Signal.Fits 1 (Frame.columns 4096 Frame.distant) := by decide +kernel
  exact hnone hfits

/-- Requests too far apart compile, and are not played as they are asked for, whatever becomes of counts
that do not fit. -/
theorem not_signal_distant :
    (∃ a, ofLedger (Card.paged .checked) Ledger.distant = .ok a
      ∧ ¬ ∃ cs sig, Meaning (Card.paged .checked) Ledger.distant a cs sig)
    ∧ ∃ a, ofLedger (Card.paged .wrapping) Ledger.distant = .ok a
      ∧ ¬ ∃ cs sig, Meaning (Card.paged .wrapping) Ledger.distant a cs sig :=
  ⟨not_meaning_distant .checked, not_meaning_distant .wrapping⟩

end Artifact

end PulseTrain
