import PulseTrain.Proofs.Iterations
import PulseTrain.Proofs.Meaning
import PulseTrain.Proofs.Recordings

/-!
# Faults that come late

Channels and widths are looked at when a group is registered and when a transition is recorded, and
never again. That is enough: whatever happens in a run, what has passed still fits the card. What is
left to be refused later is a profile that a group does not have, a time that is on no sample, and
regions that overlap. A script is never refused to be played.

That a count does not fit is looked at nowhere. What then goes wrong is no refusal but a halt.

* `ChannelGroup.Fits` and `Sequencer.Fitted` are what has been looked at, and
  `Sequencer.fitted_afterAll` says that it stays.
* `ChannelGroup.Fits.eq_of_answer_error` and `Artifact.ofLedger_eq_error_iff` say what can still be
  refused.
* `Artifact.Drawable` is what it takes to draw the signal of an artifact, and
  `Artifact.exists_signal_iff` says that it takes no less.
* `Sequencer.guarded_of_run` is the result, and `Sequencer.guarded_record` what it comes to when the run
  is over.
-/

namespace PulseTrain

/-! ## Groups that fit -/

/-- There is a bit for every channel, now and in every profile. -/
structure GreyCode.Matched (g : GreyCode Float) : Prop where
  bits : g.bits.length = g.channels.length
  profiles : ∀ e ∈ g.profiles.entries, e.2.length = g.channels.length

/-- The group fits a card with so many channels. -/
structure ChannelGroup.Fits (channels : Nat) (g : ChannelGroup) : Prop where
  channel_lt : ∀ c ∈ g.channels, c < channels
  matched : ∀ grey, g = .greyCode grey → grey.Matched

namespace GreyCode

variable {g : GreyCode Float} {v : Visit}

/-- A grey-code group changes no channel but its own. -/
theorem mem_channels_of_mem_changes {t : Transition Float} (ht : t ∈ g.changes v) :
    t.channel ∈ g.channels := by
  cases hwanted : g.wanted v with
  | error e =>
    unfold changes at ht
    rw [hwanted] at ht
    cases ht
  | ok bits =>
    exact (List.of_mem_zip (mem_zip_of_mem_targets ((mem_targets_iff hwanted).mpr ⟨t, ht, rfl⟩))).1

/-- A group with a bit for every channel refuses nothing but a profile that it does not have. -/
theorem Matched.eq_of_wanted_error (h : g.Matched) {e : Fault} (he : g.wanted v = .error e) :
    e = .unknownProfile g.name v.profile := by
  -- Without the profile the fault is this one, and a matched group has no profile of another width.
  unfold wanted at he
  cases hfind : g.profiles.find? v.profile with
  | none =>
    rw [hfind] at he
    cases he
    rfl
  | some bits =>
    have hlength : bits.length = g.channels.length := h.profiles _ (Directory.mem_of_find? hfind)
    rw [hfind] at he
    simp [hlength] at he

/-- It has a bit for every channel after a visit, too. -/
theorem Matched.visited (h : g.Matched) (v : Visit) : (g.visited v).Matched := by
  rw [visited_static]
  refine ⟨?_, h.profiles⟩
  cases hwanted : g.wanted v with
  | error e => exact h.bits
  | ok bits => exact (wanted_eq_ok_iff.mp hwanted).2

end GreyCode

namespace ChannelGroup

variable {channels : Nat} {g : ChannelGroup} {v : Visit}

theorem channels_visited (g : ChannelGroup) (v : Visit) : (g.visited v).channels = g.channels := by
  rw [← channels_reset, reset_visited, channels_reset]

theorem name_visited (g : ChannelGroup) (v : Visit) : (g.visited v).name = g.name := by
  rw [← name_reset, reset_visited, name_reset]

/-- Whatever group answers, it is its own channels that are recorded. -/
theorem mem_channels_of_mem_answer {t : Transition Float} (ht : t ∈ (g.answer v).state.2) :
    t.channel ∈ g.channels := by
  cases g with
  | greyCode g =>
    rw [answer_greyCode] at ht
    exact GreyCode.mem_channels_of_mem_changes ht
  | switch s =>
    -- A switch has one channel, and answers with one transition or none.
    cases hfind : s.profiles.find? v.profile with
    | none =>
      rw [answer_switch, Switch.profile_of_none hfind] at ht
      cases ht
    | some level =>
      rw [answer_switch, Switch.profile_of_some hfind] at ht
      obtain rfl := List.mem_singleton.mp ht
      exact List.mem_singleton.mpr rfl

/-- A visit changes neither the channels of a group nor whether it fits. -/
theorem Fits.visited (h : g.Fits channels) (v : Visit) : (g.visited v).Fits channels where
  channel_lt := by
    rw [channels_visited]
    exact h.channel_lt
  matched grey hgrey := by
    cases g with
    | greyCode g =>
      rw [visited_greyCode, ChannelGroup.greyCode.injEq] at hgrey
      rw [← hgrey]
      exact (h.matched g rfl).visited v
    | switch s => cases hgrey

/-- Nor does a reset. -/
theorem Fits.reset (h : g.Fits channels) : g.reset.Fits channels where
  channel_lt := by
    rw [channels_reset]
    exact h.channel_lt
  matched grey hgrey := by
    cases g with
    | greyCode g =>
      cases hgrey
      exact ⟨List.length_replicate, (h.matched g rfl).profiles⟩
    | switch s => cases hgrey

/-- All that a group that fits still refuses is a profile that it does not have. -/
theorem Fits.eq_of_answer_error (h : g.Fits channels) {e : Fault}
    (he : (g.answer v).result = .error e) : e = .unknownProfile g.name v.profile := by
  cases g with
  | greyCode g =>
    -- The only refusal of a fitted group is for want of the profile.
    cases hwanted : g.wanted v with
    | error e' =>
      have hanswer : ((greyCode g).answer v).result = .error e' := by
        unfold answer visit dispatch
        simp only [GreyCode.visit_of_error hwanted]
      obtain rfl : e' = e := Except.error.inj (hanswer.symm.trans he)
      exact (h.matched g rfl).eq_of_wanted_error hwanted
    | ok bits =>
      unfold answer visit dispatch at he
      simp only [GreyCode.visit_of_ok hwanted] at he
      cases he
  | switch s =>
    cases hfind : s.profiles.find? v.profile with
    | none =>
      rw [answer_switch, Switch.profile_of_none hfind] at he
      cases he
      rfl
    | some level =>
      rw [answer_switch, Switch.profile_of_some hfind] at he
      cases he

end ChannelGroup

/-! ## Sequencers that fit -/

namespace Sequencer

/-- Whatever is recorded and registered fits the card. -/
structure Fitted (s : Sequencer) : Prop where
  channel_lt : ∀ t ∈ s.ledger.transitions, t.channel < s.card.channels
  name_eq : ∀ name g, s.groups.find? name = some g → g.name = name
  fits : ∀ name g, s.groups.find? name = some g → g.Fits s.card.channels

variable {s : Sequencer}

/-- A group is registered only if the card has all its channels. -/
theorem Registration.Admitted.fits {r : Registration} {g : ChannelGroup} (h : r.Admitted s g) :
    g.Fits s.card.channels where
  channel_lt := h.channel_lt
  matched grey hgrey := by
    obtain ⟨created, rfl, hcreated, hprofiles⟩ | ⟨sw, rfl⟩ := cases_of_group h.group_eq
    · cases hgrey
      refine ⟨?_, hprofiles⟩
      rw [← hcreated]
      exact List.length_replicate
    · cases hgrey

/-- What a group that fits has recorded, and the group itself, may be written back. -/
theorem Fitted.insert (h : Fitted s) {l : Ledger}
    (hl : ∀ t ∈ l.transitions, t.channel < s.card.channels) {g : ChannelGroup}
    (hg : g.Fits s.card.channels) :
    Fitted { s with ledger := l, groups := s.groups.insert g.name g } where
  channel_lt := hl
  -- A name finds either the group that was put there or the one it found before.
  name_eq name g' hfind := by
    rw [Directory.find?_insert] at hfind
    split at hfind
    · rename_i hname
      cases hfind
      exact hname.symm
    · exact h.name_eq name g' hfind
  fits name g' hfind := by
    rw [Directory.find?_insert] at hfind
    split at hfind
    · cases hfind
      exact hg
    · exact h.fits name g' hfind

/-- A fresh iteration has no transition, and the groups that it had. -/
theorem Fitted.fresh (h : Fitted s) : Fitted s.fresh where
  channel_lt _ ht := absurd ht List.not_mem_nil
  name_eq name g hfind := by
    rw [find?_fresh] at hfind
    obtain ⟨g', hg', rfl⟩ := Option.map_eq_some_iff.mp hfind
    rw [ChannelGroup.name_reset]
    exact h.name_eq name g' hg'
  fits name g hfind := by
    rw [find?_fresh] at hfind
    obtain ⟨g', hg', rfl⟩ := Option.map_eq_some_iff.mp hfind
    exact (h.fits name g' hg').reset

/-- No event lets in what does not fit. -/
theorem fitted_after (e : Event Operation) (h : Fitted s) :
    Fitted (e.after Operation.perform s) := by
  have heffect := effect_after e s
  generalize e.after Operation.perform s = s' at heffect ⊢
  -- By the effect of the event: groups are put in with their channels checked, and transitions are
  -- recorded on channels that were.
  cases heffect with
  | none => exact h
  | registered hadmitted => exact h.insert h.channel_lt hadmitted.fits
  | @visited name g hfind v =>
    -- The visited group goes back under its own name.
    have hname : (g.visited v).name = name := by
      rw [ChannelGroup.name_visited, h.name_eq name g hfind]
    have hinsert := h.insert (l := s.ledger.append (g.answer v).state.2) (fun t ht => ?_)
      ((h.fits name g hfind).visited v)
    · rwa [hname] at hinsert
    · rcases List.mem_append.mp ht with ht | ht
      · exact h.channel_lt t ht
      · exact (h.fits name g hfind).channel_lt _ (ChannelGroup.mem_channels_of_mem_answer ht)
  | recorded t level hchannel =>
    refine ⟨fun t' ht => ?_, h.name_eq, h.fits⟩
    rcases List.mem_append.mp ht with ht | ht
    · exact h.channel_lt t' ht
    · obtain rfl := List.mem_singleton.mp ht
      exact hchannel
  | fresh => exact h.fresh
  | noted => exact ⟨h.channel_lt, h.name_eq, h.fits⟩
  | undone length =>
    exact ⟨fun t ht => h.channel_lt t (List.mem_of_mem_take ht), h.name_eq, h.fits⟩

theorem fitted_new (card : Card) : Fitted { card } where
  channel_lt _ ht := absurd ht List.not_mem_nil
  name_eq _ _ hfind := by cases hfind
  fits _ _ hfind := by cases hfind

/-- So whatever happens, what is recorded and registered fits. -/
theorem fitted_afterAll (card : Card) (es : List (Event Operation)) :
    Fitted (Event.afterAll Operation.perform { card } es) :=
  Event.afterAll_of_after (fun e _ h => fitted_after e h) (fitted_new card) es

/-- No event changes the card. -/
theorem card_after (e : Event Operation) (s : Sequencer) :
    (e.after Operation.perform s).card = s.card := by
  have heffect := effect_after e s
  generalize e.after Operation.perform s = s' at heffect ⊢
  cases heffect <;> rfl

theorem card_afterAll (es : List (Event Operation)) (s : Sequencer) :
    (Event.afterAll Operation.perform s es).card = s.card :=
  Event.afterAll_of_after (P := fun s' => s'.card = s.card)
    (fun e s' h => (card_after e s').trans h) rfl es

end Sequencer

/-! ## What can still be refused -/

/-- The faults that only a compile finds. -/
inductive Fault.Late : Fault → Prop where
  | unplaceableTime (t : Float) : Late (.unplaceableTime t)
  | overlappingRegions (start stop next : Float) : Late (.overlappingRegions start stop next)

/-- What the check of regions reports is an overlap. -/
theorem Region.late_of_check {rs : List Region} {e : Fault} (h : check rs = .error e) : e.Late := by
  unfold check at h
  split at h
  · cases h
    exact .overlappingRegions _ _ _
  · cases h

/-- If every channel is one of the card's, then what is reported of the transitions is a time. -/
theorem Frame.late_of_ofTransitions {card : Card} {ts : List (Transition Float)} {e : Fault}
    (hts : ∀ t ∈ ts, t.channel < card.channels) (h : ofTransitions card ts = .error e) :
    e.Late := by
  obtain ⟨before, t, after, rfl, ht, -⟩ := ofTransitions_eq_error_iff.mp h
  cases ht with
  | channel hle =>
    have hlt := hts t (by simp)
    omega
  | time _ _ => exact .unplaceableTime t.time

namespace Frame

variable {arithmetic : Counter.Arithmetic} {quantum : Nat} {fs : List Frame}

/-- A program stops at a wait if it is checked and the wait does not fit. -/
theorem held_eq_error_iff {f : Frame} {reason : Halt} : held arithmetic quantum f = .error reason
    ↔ reason = .overflow ∧ arithmetic = .checked
      ∧ Counter.bound ≤ Wait.cover quantum f.duration := by
  unfold held Wait.count
  simp only [bind_eq_error_iff, Counter.Arithmetic.count_eq_error_iff]
  exact or_iff_left nofun

/-- A program stops at the waits of frames if it is checked and one of them does not fit. -/
theorem mapM_held_eq_error_iff {reason : Halt} : fs.mapM (held arithmetic quantum) = .error reason
    ↔ reason = .overflow ∧ arithmetic = .checked ∧ ¬ WaitsFit quantum fs := by
  constructor
  · intro h
    obtain ⟨before, f, after, rfl, hf, -⟩ := mapM_eq_error_iff.mp h
    obtain ⟨rfl, harithmetic, hle⟩ := held_eq_error_iff.mp hf
    exact ⟨rfl, harithmetic, fun hfits => Nat.not_lt.mpr hle (hfits f (by simp))⟩
  · rintro ⟨rfl, harithmetic, hfits⟩
    -- The waits do not all come out, so one of them halts, and there is one way to do so.
    cases h : fs.mapM (held arithmetic quantum) with
    | ok hs => exact absurd ((mapM_held_eq_ok_iff.mp h).2 harithmetic) hfits
    | error reason =>
      obtain ⟨before, f, after, -, hf, -⟩ := mapM_eq_error_iff.mp h
      rw [(held_eq_error_iff.mp hf).1]

end Frame

namespace Artifact

variable {card : Card} {l : Ledger}

/-- A compile stops at the regions, else at the times, else at the waits. -/
theorem ofLedger_eq_error_iff {e : Fault} : ofLedger card l = .error e
    ↔ Region.check l.regions = .error e
      ∨ Region.check l.regions = .ok () ∧ (Frame.ofTransitions card l.transitions = .error e
        ∨ ∃ fs, Frame.ofTransitions card l.transitions = .ok fs
          ∧ e = .halted .overflow ∧ card.arithmetic = .checked
          ∧ ¬ Frame.WaitsFit card.quantum fs) := by
  -- Once regions and frames have passed, only the waits can halt.
  have hwaits : ∀ fs, (((fs.mapM (Frame.held card.arithmetic card.quantum)).mapError .halted >>=
        fun hs => pure (ofHolds card hs) : Except Fault Artifact) = .error e)
      ↔ e = .halted .overflow ∧ card.arithmetic = .checked ∧ ¬ Frame.WaitsFit card.quantum fs := by
    intro fs
    simp only [bind_eq_error_iff, mapError_eq_error_iff, Frame.mapM_held_eq_error_iff]
    constructor
    · rintro (⟨reason, ⟨rfl, hoverflow⟩, rfl⟩ | ⟨hs, -, h⟩)
      · exact ⟨rfl, hoverflow⟩
      · cases h
    · rintro ⟨rfl, hoverflow⟩
      exact .inl ⟨.overflow, ⟨rfl, hoverflow⟩, rfl⟩
  simp only [ofLedger, bind_eq_error_iff (x := Region.check l.regions),
    bind_eq_error_iff (x := Frame.ofTransitions card l.transitions), hwaits]
  exact or_congr_right ⟨fun ⟨_, h⟩ => h, fun h => ⟨(), h⟩⟩

/-- What is left to go wrong with a compile is a time, an overlap or a wait that does not fit. -/
theorem late_or_halted_of_ofLedger (hl : ∀ t ∈ l.transitions, t.channel < card.channels) {e : Fault}
    (h : ofLedger card l = .error e) : e.Late ∨ e = .halted .overflow := by
  rcases ofLedger_eq_error_iff.mp h with hcheck | ⟨-, hframes | ⟨fs, -, hhalted, -⟩⟩
  · exact .inl (Region.late_of_check hcheck)
  · exact .inl (Frame.late_of_ofTransitions hl hframes)
  · exact .inr hhalted

/-- A compile halts exactly if the program is checked and comes to a wait that does not fit. -/
theorem ofLedger_eq_halted_iff (hl : ∀ t ∈ l.transitions, t.channel < card.channels) :
    ofLedger card l = .error (.halted .overflow)
      ↔ card.arithmetic = .checked ∧ Region.check l.regions = .ok ()
        ∧ ∃ fs, Frame.ofTransitions card l.transitions = .ok fs
          ∧ ¬ Frame.WaitsFit card.quantum fs := by
  rw [ofLedger_eq_error_iff]
  constructor
  -- Regions and frames have other faults to report, and late ones.
  · rintro (hcheck | ⟨hcheck, hframes | ⟨fs, hfs, -, harithmetic, hfits⟩⟩)
    · cases Region.late_of_check hcheck
    · cases Frame.late_of_ofTransitions hl hframes
    · exact ⟨harithmetic, hcheck, fs, hfs, hfits⟩
  · rintro ⟨harithmetic, hcheck, fs, hfs, hfits⟩
    exact .inr ⟨hcheck, .inr ⟨fs, hfs, rfl, harithmetic, hfits⟩⟩

/-! ## Drawing the signal -/

/-- The program can count what the artifact plays, and can draw the frames that it comes to. -/
structure Drawable (card : Card) (a : Artifact) : Prop where
  elapsed : card.arithmetic = .checked → a.elapsed card.quantum < Counter.bound
  frames : ∀ fs, a.score card.quantum = .ok fs →
    Signal.Drawable card.arithmetic card.channels (fs.map Frame.kept)

variable {a : Artifact}

/-- Whatever compiles has a score, even if some of its waits have not fitted. -/
theorem exists_score_of_ofLedger (h : ofLedger card l = .ok a) :
    ∃ fs, a.score card.quantum = .ok fs := by
  obtain ⟨-, fs, hfs, -, rfl⟩ := ofLedger_eq_ok_iff.mp h
  have hwidth : ∀ d ∈ fs.map (Frame.hold card.quantum), d.state.width = card.channels := by
    intro d hd
    obtain ⟨f, hf, rfl⟩ := List.mem_map.mp hd
    exact Frame.width_of_mem_ofTransitions hfs hf
  obtain ⟨hholds, -⟩ := holds_ofHolds card hwidth
  exact ⟨_, congrArg (Except.map _) hholds⟩

/-- Drawing what compiled is never refused. The program may halt. -/
theorem halted_of_signal_error (h : ofLedger card l = .ok a) {e : PlaybackFault}
    (he : a.signal card = .error e) : ∃ reason, e = .halted reason := by
  obtain ⟨fs, hscore⟩ := exists_score_of_ofLedger h
  unfold signal at he
  rcases bind_eq_error_iff.mp he with hframes | ⟨played, -, hdrawn⟩
  · exact ⟨_, halted_of_frames_error hscore hframes⟩
  · obtain ⟨reason, -, rfl⟩ := mapError_eq_error_iff.mp hdrawn
    exact ⟨reason, rfl⟩

/-- **What it takes to draw a signal.** -/
theorem exists_signal_iff (h : ofLedger card l = .ok a) :
    (∃ sig, a.signal card = .ok sig) ↔ a.Drawable card := by
  obtain ⟨fs, hscore⟩ := exists_score_of_ofLedger h
  simp only [signal_eq_ok_iff, frames_eq_ok_iff hscore]
  -- The frames of the score are drawn, and these are the ones `Drawable` speaks of.
  constructor
  · rintro ⟨sig, played, ⟨helapsed, rfl⟩, hdrawn⟩
    refine ⟨helapsed, fun fs' hfs' => ?_⟩
    obtain rfl : fs' = fs := Except.ok.inj (hfs'.symm.trans hscore)
    exact Signal.exists_ofFrames_iff.mp ⟨sig, hdrawn⟩
  · intro hdrawable
    obtain ⟨sig, hdrawn⟩ := Signal.exists_ofFrames_iff.mpr (hdrawable.frames fs hscore)
    exact ⟨sig, _, ⟨hdrawable.elapsed, rfl⟩, hdrawn⟩

/-- There is a signal if there is an array for the timeline. -/
theorem exists_signal_of_fits (h : ofLedger card l = .ok a) {fs : List Frame}
    (hfs : Frame.ofTransitions card l.transitions = .ok fs)
    (hfits : Signal.Fits card.channels (Frame.columns card.quantum fs)) :
    ∃ sig, a.signal card = .ok sig := by
  obtain ⟨cs, sig, hmeaning⟩ := meaning_of_fits h fun fs' hfs' => by
    obtain rfl : fs' = fs := Except.ok.inj (hfs'.symm.trans hfs)
    exact hfits
  exact ⟨sig, hmeaning.plays⟩

/-- A checked program draws nothing else. -/
theorem fits_of_signal_checked (harithmetic : card.arithmetic = .checked)
    (h : ofLedger card l = .ok a) {sig : Signal} (hsig : a.signal card = .ok sig)
    {fs : List Frame} (hfs : Frame.ofTransitions card l.transitions = .ok fs) :
    Signal.Fits card.channels (Frame.columns card.quantum fs) := by
  have helapsed := ((exists_signal_iff h).mp ⟨sig, hsig⟩).elapsed harithmetic
  have hwaits := (eq_ofFrames_of_ofLedger h hfs).1 harithmetic
  obtain ⟨hscore, hcolumns⟩ := score_of_ofLedger h hfs hwaits
  obtain ⟨played, hframes, hdrawn⟩ := signal_eq_ok_iff.mp hsig
  -- Nothing of the score is lost, and it ends where the timeline does.
  rw [frames_of_elapsed_lt card.arithmetic helapsed] at hframes
  obtain rfl := Except.ok.inj (hframes.symm.trans hscore)
  have hfits := (Signal.exists_ofFrames_iff.mp ⟨sig, hdrawn⟩).fits
  rw [hcolumns] at helapsed
  rwa [Signal.concat_coalesce, Signal.ofHolds, ← Frame.columns_eq, Nat.mod_eq_of_lt helapsed] at hfits

end Artifact

/-! ## The result -/

namespace Sequencer

/-- A sequencer for `card` of which all has been looked at but what is refused late, and what is counted.
-/
structure Guarded (card : Card) (s : Sequencer) : Prop where
  card_eq : s.card = card
  channel_lt : ∀ t ∈ s.ledger.transitions, t.channel < card.channels
  greyCode : ∀ name g, s.groups.find? name = some (.greyCode g) →
    g.bits.length = g.channels.length
      ∧ (∀ e ∈ g.profiles.entries, e.2.length = g.channels.length)
      ∧ ∀ c ∈ g.channels, c < card.channels
  profile : ∀ name g, s.groups.find? name = some g → ∀ t p e,
    (profile name t p s).result = .error e → e = .unknownProfile name p
  force : ∀ name g, s.groups.find? name = some g → ∀ t p e,
    (force name t p s).result = .error e → e = .unknownProfile name p
  artifact : ∀ e, s.artifact = .error e → e.Late ∨ e = .halted .overflow
  /-- A checked program halts at the waits if one of them does not fit. -/
  artifact_halts_iff : s.artifact = .error (.halted .overflow)
    ↔ card.arithmetic = .checked ∧ Region.check s.ledger.regions = .ok ()
      ∧ ∃ fs, Frame.ofTransitions card s.ledger.transitions = .ok fs
        ∧ ¬ Frame.WaitsFit card.quantum fs
  compile_iff : ∀ e, (compile s).result = .error e ↔ s.artifact = .error e
  /-- Once there is an artifact, no signal is refused: the program draws it or halts. -/
  signal : ∀ e, s.signal = .error e →
    s.artifact = .error e ∨ ∃ reason, e = .playback (.halted reason)
  signal_iff : ∀ a, s.artifact = .ok a → ((∃ sig, s.signal = .ok sig) ↔ a.Drawable card)
  /-- An array for the timeline is enough. -/
  signal_of_fits : ∀ a fs, s.artifact = .ok a →
    Frame.ofTransitions card s.ledger.transitions = .ok fs →
    Signal.Fits card.channels (Frame.columns card.quantum fs) → ∃ sig, s.signal = .ok sig
  /-- A checked program draws nothing else. -/
  fits_of_signal : card.arithmetic = .checked → ∀ sig fs, s.signal = .ok sig →
    Frame.ofTransitions card s.ledger.transitions = .ok fs →
    Signal.Fits card.channels (Frame.columns card.quantum fs)

variable {s : Sequencer}

/-- What a registered group refuses is a profile, by the name under which it is registered. -/
theorem Fitted.eq_of_visit_error (h : Fitted s) {name : String} {g : ChannelGroup}
    (hfind : s.groups.find? name = some g) {v : Visit} {e : Fault}
    (he : ((Request.visit name v).perform s).result = .error e) :
    e = .unknownProfile name v.profile := by
  rw [perform_visit_of_some hfind] at he
  rw [(h.fits name g hfind).eq_of_answer_error he, h.name_eq name g hfind]

/-- A compile hands out the artifact of the iteration, or says why there is none. -/
theorem result_compile (s : Sequencer) : (compile s).result = s.artifact := by
  cases hartifact : s.artifact with
  | error e => rw [compile_of_error hartifact]
  | ok a => rw [compile_of_ok hartifact]

theorem signal_eq_ok_iff {sig : Signal} :
    s.signal = .ok sig ↔ ∃ a, s.artifact = .ok a ∧ a.signal s.card = .ok sig := by
  simp only [signal, bind_eq_ok_iff, mapError_eq_ok_iff]

/-- If there is no signal, then there is no artifact, or the program has halted. -/
theorem artifact_or_halted_of_signal_error {e : Fault} (he : s.signal = .error e) :
    s.artifact = .error e ∨ ∃ reason, e = .playback (.halted reason) := by
  rcases bind_eq_error_iff.mp he with hartifact | ⟨a, hartifact, hsignal⟩
  · exact .inl hartifact
  · obtain ⟨e', he', rfl⟩ := mapError_eq_error_iff.mp hsignal
    obtain ⟨reason, rfl⟩ := Artifact.halted_of_signal_error hartifact he'
    exact .inr ⟨reason, rfl⟩

/-- There is a signal exactly if the artifact can be drawn. -/
theorem exists_signal_iff {a : Artifact} (h : s.artifact = .ok a) :
    (∃ sig, s.signal = .ok sig) ↔ a.Drawable s.card := by
  rw [← Artifact.exists_signal_iff h]
  simp only [signal_eq_ok_iff]
  constructor
  · rintro ⟨sig, a', ha', hsig⟩
    obtain rfl := Except.ok.inj (ha'.symm.trans h)
    exact ⟨sig, hsig⟩
  · rintro ⟨sig, hsig⟩
    exact ⟨sig, a, h, hsig⟩

/-- What has been looked at is enough. -/
theorem Fitted.guarded (h : Fitted s) : Guarded s.card s where
  card_eq := rfl
  channel_lt := h.channel_lt
  greyCode name g hfind :=
    have hfits := h.fits name _ hfind
    have hmatched := hfits.matched g rfl
    ⟨hmatched.bits, hmatched.profiles, hfits.channel_lt⟩
  profile _ _ hfind t p _ he := h.eq_of_visit_error (v := ⟨t, p, false⟩) hfind he
  force _ _ hfind t p _ he := h.eq_of_visit_error (v := ⟨t, p, true⟩) hfind he
  artifact _ he := Artifact.late_or_halted_of_ofLedger h.channel_lt he
  artifact_halts_iff := Artifact.ofLedger_eq_halted_iff h.channel_lt
  compile_iff e := by rw [result_compile]
  signal _ he := artifact_or_halted_of_signal_error he
  signal_iff _ ha := exists_signal_iff ha
  signal_of_fits a fs ha hfs hfits := by
    obtain ⟨sig, hsig⟩ := Artifact.exists_signal_of_fits ha hfs hfits
    exact ⟨sig, signal_eq_ok_iff.mpr ⟨a, ha, hsig⟩⟩
  fits_of_signal harithmetic sig fs hsig hfs := by
    obtain ⟨a, ha, hdrawn⟩ := signal_eq_ok_iff.mp hsig
    exact Artifact.fits_of_signal_checked harithmetic ha hdrawn hfs

/-- Whatever has happened, the sequencer has looked at it. -/
theorem guarded_afterAll (card : Card) (es : List (Event Operation)) :
    Guarded card (Event.afterAll Operation.perform { card } es) := by
  have hguarded := (fitted_afterAll card es).guarded
  rwa [card_afterAll] at hguarded

/-- So it is when the run is over. -/
theorem guarded_record (card : Card) (b : Routine Operation Sequencer Fault) :
    Guarded card (b.record Operation.perform { card }).state :=
  during_length card b ▸ guarded_afterAll card _

/-! ## A run that takes too long -/

/-- Records `Ledger.distant`. -/
def distant : Routine Operation Sequencer Fault :=
  .request (.request (.raw 1 0 true)) fun _ =>
  .request (.request (.raw 4611686018427387904 0 false)) fun _ =>
  .request (.request (.raw 18446744073709547520 0 true)) .finish

end Sequencer

end PulseTrain
