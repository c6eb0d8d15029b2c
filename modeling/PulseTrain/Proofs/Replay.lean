import PulseTrain.Proofs.Naming
import PulseTrain.Proofs.Scores
import PulseTrain.Proofs.Waits

/-!
# An assembled script played back

Assembly scatters holds over the samples of waveforms and over split waits. Played back, a burst gives
its leading holds sample by sample, its last state for no time at all, and then the waits. All of
this joins to the holds that the burst was made of.

* `Burst.played` is what one burst plays, and `Playback.holds_flatten_emit` what a script of them does.
* `Burst.coalesce_flatMap_played` joins it.
* `Artifact.score_ofHolds` is the round trip on holds, and `Artifact.elapsed_ofHolds` says how long it
  takes.
-/

namespace PulseTrain

/-! ## One burst -/

/-- The holds that a burst plays, as they come out of its waveform and its waits. -/
def Burst.played (maxWait : Nat) (b : Burst) : List Hold :=
  (b.lead.flatMap Hold.samples).map (⟨·, 1⟩)
    ++ ⟨b.final.state, 0⟩ :: (Wait.split maxWait b.final.cycles).map (Hold.mk b.final.state)

/-- The waveform of a burst plays the samples of its lead, and then holds its final state. -/
theorem Waveforms.run_of_find? {ws : Waveforms} {quantum : Nat} {name : String} {b : Burst}
    (hquantum : 0 < quantum) (h : ws.find? name = some (b.samples quantum)) :
    ws.run quantum name = .ok (b.lead.flatMap Hold.samples, b.final.state) := by
  -- A waveform is played up to its last quantum, whose first sample is what is then held.
  have hplayed : (b.samples quantum).length - quantum = (b.lead.flatMap Hold.samples).length := by
    simp [Burst.samples]
  have hdrop : (b.samples quantum).drop (b.lead.flatMap Hold.samples).length
      = b.final.state :: List.replicate (quantum - 1) b.final.state := by
    unfold Burst.samples
    rw [List.drop_left, ← List.replicate_succ, Nat.sub_add_cancel hquantum]
  have htake : (b.samples quantum).take (b.lead.flatMap Hold.samples).length
      = b.lead.flatMap Hold.samples := List.take_left
  have hlong : ¬ (b.samples quantum).length < quantum := by
    simp [Burst.samples]
  unfold Waveforms.run
  simp only [h, hplayed, hdrop, htake, if_neg hlong]

namespace Playback

variable {ws : Waveforms} {quantum maxWait : Nat}

/-- Waits hold what is held. -/
theorem holds_waits (state : Levels) (waits : List Nat) (rest : List Instruction) :
    holds ws quantum (some state) (waits.map .wait ++ rest)
      = (holds ws quantum (some state) rest).map fun hs => waits.map (Hold.mk state) ++ hs := by
  induction waits with
  | nil => cases h : holds ws quantum (some state) rest <;> simp [h, Except.map]
  | cons w waits ih =>
    rw [List.map_cons, List.cons_append, holds, ih]
    cases holds ws quantum (some state) rest <;> simp [Except.map]

/-- What is written for a burst plays the burst. -/
theorem holds_emit {name : String} {b : Burst} (hquantum : 0 < quantum)
    (h : ws.find? name = some (b.samples quantum)) (held : Option Levels)
    (rest : List Instruction) :
    holds ws quantum held (Assembly.emit maxWait name b ++ rest)
      = (holds ws quantum (some b.final.state) rest).map fun hs => b.played maxWait ++ hs := by
  unfold Assembly.emit
  rw [List.cons_append, holds, Waveforms.run_of_find? hquantum h]
  simp only [holds_waits]
  cases holds ws quantum (some b.final.state) rest <;> simp [Except.map, Burst.played]

/-- A script of bursts plays what each of them plays. Induction on the bursts; what is held before
one does not matter, since every burst starts with its waveform. -/
theorem holds_flatten_emit (hquantum : 0 < quantum) {names : List String} {bs : List Burst}
    (h : List.Forall₂ (fun name (b : Burst) => ws.find? name = some (b.samples quantum)) names bs)
    (held : Option Levels) :
    holds ws quantum held (List.zipWith (Assembly.emit maxWait) names bs).flatten
      = .ok (bs.flatMap (Burst.played maxWait)) := by
  induction h generalizing held with
  | nil => rfl
  | cons hfound _ ih =>
    rw [List.zipWith_cons_cons, List.flatten_cons, holds_emit hquantum hfound, ih]
    rfl

/-- Nothing is waited for before the first burst. -/
theorem leadIn_flatten_emit (names : List String) (bs : List Burst) :
    leadIn (List.zipWith (Assembly.emit maxWait) names bs).flatten = 0 := by
  cases names with
  | nil => rfl
  | cons name names =>
    cases bs with
    | nil => rfl
    | cons b bs => rfl

end Playback

/-! ## Joined again -/

namespace Burst

/-- A burst joins like its holds. Its last state comes out of the waveform for no time and then for
each wait, which together are as long as the last hold. -/
theorem foldr_join_played (maxWait : Nat) (b : Burst) (hlead : ∀ h ∈ b.lead, 0 < h.cycles)
    (hs : List Hold) :
    (b.played maxWait).foldr Hold.join hs = b.holds.foldr Hold.join hs := by
  unfold played holds
  rw [List.foldr_append, List.foldr_cons, Hold.join_foldr_join, Wait.sum_split, Nat.zero_add,
    Hold.foldr_join_flatMap_samples b.lead hlead, List.foldr_append]
  rfl

/-- Joined, what bursts play are their holds, if no hold of a lead is empty. -/
theorem coalesce_flatMap_played (maxWait : Nat) (bs : List Burst)
    (hlead : ∀ b ∈ bs, ∀ h ∈ b.lead, 0 < h.cycles) :
    Hold.coalesce (bs.flatMap (played maxWait)) = Hold.coalesce (bs.flatMap holds) := by
  induction bs with
  | nil => rfl
  | cons b bs ih =>
    rw [List.flatMap_cons, List.flatMap_cons, Hold.coalesce_append, Hold.coalesce_append,
      ih fun d hd => hlead d (List.mem_cons_of_mem b hd),
      foldr_join_played maxWait b (hlead b List.mem_cons_self)]

/-- The holds of the bursts are the holds that were fused. -/
theorem flatMap_holds_fuse_nil (stableWait : Nat) (hs : List Hold) :
    (fuse stableWait [] hs).flatMap holds = hs := by
  cases hs with
  | nil => rfl
  | cons h hs => exact flatMap_holds_fuse stableWait [] (h :: hs) (List.cons_ne_nil h hs)

/-- Bursts have no holds but those that were fused. -/
theorem mem_of_mem_fuse {stableWait : Nat} {hs : List Hold} {b : Burst}
    (hb : b ∈ fuse stableWait [] hs) {h : Hold} (hh : h ∈ b.holds) : h ∈ hs := by
  rw [← flatMap_holds_fuse_nil stableWait hs]
  exact List.mem_flatMap_of_mem hb hh

theorem mem_holds_of_mem_lead {b : Burst} {h : Hold} (hh : h ∈ b.lead) : h ∈ b.holds :=
  List.mem_append_left _ hh

theorem final_mem_holds (b : Burst) : b.final ∈ b.holds :=
  List.mem_append_right _ (List.mem_singleton.mpr rfl)

end Burst

/-! ## The round trip -/

/-- A burst takes as long as its holds. -/
theorem Burst.sum_played (maxWait : Nat) (b : Burst) :
    ((b.played maxWait).map (·.cycles)).sum = (b.holds.map (·.cycles)).sum := by
  -- Played sample by sample, the lead takes as long as its holds.
  have hlead : ((b.lead.flatMap Hold.samples).map fun _ => 1).sum = (b.lead.map (·.cycles)).sum := by
    rw [← Hold.length_flatMap_samples]
    simp
  -- The waits of a burst add up to its last hold.
  have hwaits : (((Wait.split maxWait b.final.cycles).map (Hold.mk b.final.state)).map
      (·.cycles)).sum = b.final.cycles := by
    rw [List.map_map]
    exact (congrArg List.sum (List.map_id _)).trans (Wait.sum_split maxWait b.final.cycles)
  unfold played holds
  rw [List.map_append, List.sum_append, List.map_cons, List.sum_cons, hwaits, List.map_map,
    List.map_append, List.sum_append, ← hlead]
  simp [Function.comp_def]

namespace Artifact

variable {card : Card} {hs : List Hold} {width : Nat}

/-- What is assembled plays its bursts from sample `0` on, if all states have one width. -/
theorem holds_ofHolds (card : Card) (hwidth : ∀ h ∈ hs, h.state.width = width) :
    Playback.holds (ofHolds card hs).waveforms card.quantum none
        (ofHolds card hs).script.instructions
      = .ok ((Burst.fuse card.stableWait [] hs).flatMap (Burst.played card.maxWait))
    ∧ Playback.leadIn (ofHolds card hs).script.instructions = 0 := by
  have hfinal : ∀ b ∈ Burst.fuse card.stableWait [] hs, b.final.state.width = width := fun b hb =>
    hwidth b.final (Burst.mem_of_mem_fuse hb b.final_mem_holds)
  have hfound := (Catalog.sound_empty card.quantum width).find?_addAll hfinal
  unfold ofHolds
  rw [Assembly.run_eq]
  exact ⟨Playback.holds_flatten_emit card.quantum_pos hfound none,
    Playback.leadIn_flatten_emit _ _⟩

/-- What is assembled plays back as the same holds with equal neighbours joined, if no hold is empty
and all states have one width. -/
theorem score_ofHolds (hpos : ∀ h ∈ hs, 0 < h.cycles) (hwidth : ∀ h ∈ hs, h.state.width = width) :
    (ofHolds card hs).score card.quantum = .ok (Hold.frames 0 (Hold.coalesce hs)) := by
  have hlead : ∀ b ∈ Burst.fuse card.stableWait [] hs, ∀ h ∈ b.lead, 0 < h.cycles :=
    fun b hb h hh => hpos h (Burst.mem_of_mem_fuse hb (Burst.mem_holds_of_mem_lead hh))
  obtain ⟨hholds, hleadIn⟩ := holds_ofHolds card hwidth
  rw [score, hholds, hleadIn]
  refine congrArg (fun joined => Except.ok (Hold.frames 0 joined)) ?_
  rw [Burst.coalesce_flatMap_played card.maxWait _ hlead, Burst.flatMap_holds_fuse_nil]

/-- What is assembled takes as long as its holds. -/
theorem elapsed_ofHolds (hwidth : ∀ h ∈ hs, h.state.width = width) :
    (ofHolds card hs).elapsed card.quantum = (hs.map (·.cycles)).sum := by
  -- Burst by burst, what is played takes as long as what was fused.
  have hsum : ∀ bs : List Burst, ((bs.flatMap (Burst.played card.maxWait)).map (·.cycles)).sum
      = ((bs.flatMap Burst.holds).map (·.cycles)).sum := by
    intro bs
    induction bs with
    | nil => rfl
    | cons b bs ih =>
      rw [List.flatMap_cons, List.flatMap_cons, List.map_append, List.map_append, List.sum_append,
        List.sum_append, Burst.sum_played, ih]
  obtain ⟨hholds, hleadIn⟩ := holds_ofHolds card hwidth
  rw [elapsed, Playback.elapsed_of_holds hholds, hleadIn, Nat.zero_add, hsum,
    Burst.flatMap_holds_fuse_nil]

end Artifact

end PulseTrain
