import Mathlib.Data.List.Nodup
import Mathlib.Tactic.IntervalCases
import PulseTrain.Proofs.LateFaults

/-!
# Groups and the levels they have recorded

A grey-code group only records the bits that it takes to differ. That is right as long as its bits
are the levels that were last recorded for its channels, and they are, in every run in which no
repetition is refused and nothing else drives the channels of the group.

* `Ledger.levelOf` is the level that was last recorded for a channel.
* `GreyCode.bits_visited_of_bits` says that a visit keeps the two together.
* `Sequencer.Tracked` is the invariant, from before the group is registered, and
  `Sequencer.tracked_after` its step.
* `Sequencer.bits_during` is the result, and `Sequencer.bits_record` what it comes to when the run is
  over.
-/

namespace PulseTrain

/-! ## The level last recorded -/

/-- The level that the last of `ts` for a channel asks for. -/
def lastLevel? (ts : List (Transition Float)) (channel : Nat) : Option Bool :=
  (ts.filter (·.channel = channel)).getLast?.map (·.level)

theorem lastLevel?_eq_none {ts : List (Transition Float)} {channel : Nat}
    (h : ∀ t ∈ ts, t.channel ≠ channel) : lastLevel? ts channel = none := by
  have hnone : ts.filter (·.channel = channel) = [] :=
    List.filter_eq_nil_iff.mpr fun t ht => by simpa using h t ht
  unfold lastLevel?
  rw [hnone]
  rfl

theorem lastLevel?_eq_some {ts : List (Transition Float)} {channel : Nat} {level : Bool}
    {t : Transition Float} (ht : t ∈ ts) (hchannel : t.channel = channel)
    (hlevel : ∀ t ∈ ts, t.channel = channel → t.level = level) :
    lastLevel? ts channel = some level := by
  unfold lastLevel?
  cases hlast : (ts.filter (·.channel = channel)).getLast? with
  | none =>
    have hmem : t ∈ ts.filter (·.channel = channel) :=
      List.mem_filter.mpr ⟨ht, by simpa using hchannel⟩
    rw [List.getLast?_eq_none_iff.mp hlast] at hmem
    cases hmem
  | some last =>
    obtain ⟨hmem, hlast⟩ := List.mem_filter.mp (List.mem_of_getLast? hlast)
    exact congrArg some (hlevel last hmem (by simpa using hlast))

namespace Ledger

/-- The level at which a recording leaves a channel: that of the last transition recorded for it,
and low if there is none. -/
def levelOf (l : Ledger) (channel : Nat) : Bool :=
  (lastLevel? l.transitions channel).getD false

/-- The level of a channel is the last one recorded for it, or what it was. -/
theorem levelOf_append (l : Ledger) (ts : List (Transition Float)) (channel : Nat) :
    (l.append ts).levelOf channel = (lastLevel? ts channel).getD (l.levelOf channel) := by
  unfold levelOf append lastLevel?
  rw [List.filter_append, List.getLast?_append]
  cases (ts.filter (·.channel = channel)).getLast? <;> rfl

theorem levelOf_append_of_ne (l : Ledger) {ts : List (Transition Float)} {channel : Nat}
    (h : ∀ t ∈ ts, t.channel ≠ channel) : (l.append ts).levelOf channel = l.levelOf channel := by
  rw [levelOf_append, lastLevel?_eq_none h]
  rfl

end Ledger

/-! ## The changes of a visit

A visit asks for nothing but the bits wanted, and at least for those that are not there yet. -/

namespace GreyCode

variable {g : GreyCode Float} {v : Visit} {bits : List Bool}

/-- A reset group agrees with a recording in which its channels are low. -/
theorem bits_reset (g : GreyCode Float) {level : Nat → Bool}
    (h : ∀ c ∈ g.channels, level c = false) : g.reset.bits = g.channels.map level := by
  rw [List.map_congr_left h, List.map_const']
  rfl

/-- What a visit changes goes to the bit wanted: the channel stands once in the group. -/
theorem level_of_mem_changes (hwanted : g.wanted v = .ok bits) (hnodup : g.channels.Nodup)
    {t : Transition Float} (ht : t ∈ g.changes v) {i : Nat} (hi : i < g.channels.length)
    (hbit : i < bits.length) (hchannel : t.channel = g.channels[i]) : t.level = bits[i] := by
  have htarget := mem_zip_of_mem_targets ((mem_targets_iff hwanted).mpr ⟨t, ht, rfl⟩)
  obtain ⟨j, hj, heq⟩ := List.mem_iff_getElem.mp htarget
  simp only [List.getElem_zip, Prod.mk.injEq] at heq
  obtain rfl : j = i := (List.Nodup.getElem_inj_iff hnodup).mp (heq.1.trans hchannel)
  exact heq.2.symm

/-- What a visit does not change is at the bit wanted already. -/
theorem getElem_bits_of_forall_ne (hwanted : g.wanted v = .ok bits) {i : Nat}
    (hi : i < g.channels.length) (hnow : i < g.bits.length) (hbit : i < bits.length)
    (h : ∀ t ∈ g.changes v, t.channel ≠ g.channels[i]) : g.bits[i] = bits[i] := by
  by_contra hne
  obtain ⟨t, ht, heq⟩ := (mem_targets_iff hwanted).mp
    (mem_targets_of_ne (wanted_eq_ok_iff.mp hwanted).2 hi hnow hne)
  exact h t ht (congrArg Prod.fst heq)

/-- If the bits of a group are the levels recorded last, then so they are after a visit. -/
theorem bits_visited_of_bits {l : Ledger} (hnodup : g.channels.Nodup)
    (h : g.bits = g.channels.map l.levelOf) :
    (g.visited v).bits = g.channels.map (l.append (g.changes v)).levelOf := by
  cases hwanted : g.wanted v with
  | error e =>
    unfold changes
    rw [visited_of_error hwanted, hwanted, h]
    exact List.map_congr_left fun c _ => (l.levelOf_append_of_ne (by simp)).symm
  | ok bits =>
    have hbits := (wanted_eq_ok_iff.mp hwanted).2
    rw [visited_of_ok hwanted]
    refine List.ext_getElem (by simpa using hbits) fun i hbit _ => ?_
    have hi : i < g.channels.length := hbits ▸ hbit
    rw [List.getElem_map, Ledger.levelOf_append]
    show bits[i] = _
    -- Either the channel is changed to the bit wanted, or it was left there before.
    by_cases hchange : ∃ t ∈ g.changes v, t.channel = g.channels[i]
    · obtain ⟨t, ht, hchannel⟩ := hchange
      rw [lastLevel?_eq_some ht hchannel fun t ht =>
        level_of_mem_changes hwanted hnodup ht hi hbit]
      rfl
    · have hsame : ∀ t ∈ g.changes v, t.channel ≠ g.channels[i] :=
        fun t ht hchannel => hchange ⟨t, ht, hchannel⟩
      rw [lastLevel?_eq_none hsame,
        ← getElem_bits_of_forall_ne hwanted hi (by simpa [h] using hi) hbit hsame]
      simp [h]

end GreyCode

/-! ## Who drives a channel -/

namespace Sequencer

/-- A request drives a channel if it records a transition for it. -/
def Request.Drives (r : Request) (s : Sequencer) (channel : Nat) : Prop :=
  ∃ t ∈ (r.perform s).state.ledger.transitions.drop s.ledger.length, t.channel = channel

instance (r : Request) (s : Sequencer) (channel : Nat) : Decidable (r.Drives s channel) :=
  List.decidableBEx _ _

theorem drives_of_mem {r : Request} {s : Sequencer} {ts : List (Transition Float)}
    (hrecorded : (r.perform s).state.ledger = s.ledger.append ts) {t : Transition Float}
    (ht : t ∈ ts) : r.Drives s t.channel := by
  refine ⟨t, ?_, rfl⟩
  rw [hrecorded]
  show t ∈ (s.ledger.transitions ++ ts).drop s.ledger.transitions.length
  rwa [List.drop_left]

/-! ## The invariant -/

/-- The group that is registered under `name`, if it is a grey-code group on `channels`, is at the
levels recorded last; until there is one, all of them are low. -/
structure Tracked (name : String) (channels : List Nat) (s : Sequencer) : Prop where
  before : s.groups.find? name = none → ∀ c ∈ channels, s.ledger.levelOf c = false
  since : ∀ g, s.groups.find? name = some (.greyCode g) → g.channels = channels →
    g.bits = channels.map s.ledger.levelOf

variable {name : String} {channels : List Nat} {s : Sequencer}

theorem Tracked.fresh (h : Tracked name channels s) : Tracked name channels s.fresh where
  before _ _ _ := rfl
  since g hfind hchannels := by
    rw [find?_fresh] at hfind
    obtain ⟨g', hg', heq⟩ := Option.map_eq_some_iff.mp hfind
    cases g' with
    | greyCode g' =>
      cases heq
      obtain rfl : g'.channels = channels := hchannels
      exact g'.bits_reset fun _ _ => rfl
    | switch s => cases heq

/-- A call that touches neither the channels nor the group leaves them in step. -/
theorem Tracked.other (h : Tracked name channels s) {ts : List (Transition Float)}
    (hts : ∀ t ∈ ts, t.channel ∉ channels) {groups : Directory String ChannelGroup}
    (hgroups : groups.find? name = s.groups.find? name) :
    Tracked name channels { s with ledger := s.ledger.append ts, groups } := by
  have hlevel : ∀ c ∈ channels, (s.ledger.append ts).levelOf c = s.ledger.levelOf c :=
    fun c hc => s.ledger.levelOf_append_of_ne fun t ht heq => hts t ht (heq ▸ hc)
  refine ⟨fun hnone c hc => ?_, fun g hg hchannels => ?_⟩
  · rw [← h.before (hgroups ▸ hnone) c hc]
    exact hlevel c hc
  · rw [h.since g (hgroups ▸ hg) hchannels]
    exact List.map_congr_left fun c hc => (hlevel c hc).symm

/-- Registering another group leaves a tracked one in step: a taken name is refused. -/
theorem Tracked.registered (h : Tracked name channels s) {r : Registration} {g : ChannelGroup}
    (hadmitted : r.Admitted s g) :
    Tracked name channels { s with groups := s.groups.insert g.name g } := by
  by_cases hname : name = g.name
  -- The group is the one registered, or it is one the registration leaves alone.
  · refine ⟨fun hnone => ?_, fun grey hfind hchannels => ?_⟩
    · rw [Directory.find?_insert, if_pos hname] at hnone
      cases hnone
    · rw [Directory.find?_insert, if_pos hname] at hfind
      obtain rfl := Option.some.inj hfind
      -- The group starts with all channels low, and nothing is recorded for them yet.
      have hlow := h.before (hname ▸ hadmitted.free)
      obtain ⟨created, hcreated, hreset, -⟩ | ⟨sw, hsw⟩ :=
        Registration.cases_of_group hadmitted.group_eq
      · cases hcreated
        rw [← hchannels, ← congrArg GreyCode.bits hreset]
        exact grey.bits_reset (hchannels ▸ hlow)
      · cases hsw
  · have hfind : (s.groups.insert g.name g).find? name = s.groups.find? name := by
      rw [Directory.find?_insert, if_neg hname]
    exact ⟨fun hnone => h.before (hfind ▸ hnone), fun grey hg => h.since grey (hfind ▸ hg)⟩

/-- A visit to the group keeps it in step with its channels, refused or not. -/
theorem Tracked.visited (h : Tracked name channels s) (hnodup : channels.Nodup) {g : ChannelGroup}
    (hfind : s.groups.find? name = some g) (v : Visit) :
    Tracked name channels
      { s with
        ledger := s.ledger.append (g.answer v).state.2
        groups := s.groups.insert name (g.visited v) } := by
  refine ⟨fun hnone => ?_, fun grey hgrey hchannels => ?_⟩
  · rw [Directory.find?_insert, if_pos rfl] at hnone
    cases hnone
  · rw [Directory.find?_insert, if_pos rfl] at hgrey
    cases g with
    | greyCode g =>
      rw [ChannelGroup.visited_greyCode] at hgrey
      cases hgrey
      obtain rfl : g.channels = channels := by
        rw [← hchannels, GreyCode.visited_static]
      rw [ChannelGroup.answer_greyCode]
      exact GreyCode.bits_visited_of_bits hnodup (h.since g hfind rfl)
    | switch sw => cases hgrey

/-- Every event keeps the invariant, unless a repetition is refused, or something else drives one of
the channels. -/
theorem tracked_after {e : Event Operation} (hnodup : channels.Nodup)
    (hkept : ∀ length, e ≠ .undone length)
    (halone : ∀ r, e = .made (.request r) → ∀ c ∈ channels, r.Drives s c → ∃ v, r = .visit name v)
    (h : Tracked name channels s) : Tracked name channels (e.after Operation.perform s) := by
  have heffect := effect_after e s
  generalize e.after Operation.perform s = s' at heffect ⊢
  -- By the effect of the event. A call on the group itself keeps it in step; any other leaves its
  -- channels alone.
  cases heffect with
  | none => exact h
  | registered hadmitted => exact h.registered hadmitted
  | @visited group g hfind v =>
    by_cases hname : group = name
    · subst hname
      exact h.visited hnodup hfind v
    · refine h.other (fun t ht hc => ?_) ?_
      -- The visit would drive a channel of the group under another name.
      · have hdrives : (Request.visit group v).Drives s t.channel :=
          drives_of_mem (by rw [perform_visit_of_some hfind]) ht
        obtain ⟨v', hv'⟩ := halone _ rfl t.channel hc hdrives
        cases hv'
        exact hname rfl
      · rw [Directory.find?_insert, if_neg (Ne.symm hname)]
  | @recorded t channel level hchannel =>
    refine h.other (fun t' ht hc => ?_) rfl
    have hdrives : (Request.raw t channel level).Drives s t'.channel :=
      drives_of_mem (by rw [perform_raw, if_pos hchannel]) ht
    obtain ⟨v, hv⟩ := halone _ rfl t'.channel hc hdrives
    cases hv
  | fresh => exact h.fresh
  | noted => exact ⟨h.before, h.since⟩
  | undone length =>
    -- The ledger would lose what the group has recorded, and the group would keep its bits.
    exact absurd rfl (hkept length)

theorem tracked_new (card : Card) (name : String) (channels : List Nat) :
    Tracked name channels { card } where
  before _ _ _ := rfl
  since _ hfind := by cases hfind

/-- A group stays in step with its channels while no step is undone and no other call drives the channels.
-/
theorem tracked_during {card : Card} {b : Routine Operation Sequencer Fault} {n : Nat}
    (hnodup : channels.Nodup) (hkept : ∀ k < n, ∀ length, event? card b k ≠ some (.undone length))
    (halone : ∀ k < n, ∀ r, event? card b k = some (.made (.request r)) →
      ∀ c ∈ channels, r.Drives (during card b k) c → ∃ v, r = .visit name v) :
    Tracked name channels (during card b n) := by
  induction n with
  | zero => exact tracked_new card name channels
  | succ n ih =>
    -- The first `n` steps satisfy the same conditions.
    have hbefore := ih (fun k hk => hkept k (by omega)) fun k hk => halone k (by omega)
    cases he : event? card b n with
    | none =>
      rw [during_of_event?_eq_none he]
      exact hbefore
    | some e =>
      rw [during_of_event? he]
      refine tracked_after hnodup (fun length h => ?_) (fun r h => ?_) hbefore
      · exact hkept n (by omega) length (h ▸ he)
      · exact halone n (by omega) r (h ▸ he)

/-! ## The result -/

/-- **Bits are levels.** After any number of events of a run, as long as no repetition has been
refused, the bits of a grey-code group on distinct channels, which nothing else has driven, are the
levels last recorded for these channels, low where there is none. -/
theorem bits_during (card : Card) (b : Routine Operation Sequencer Fault) (n : Nat)
    (hkept : ∀ k < n, ∀ length, event? card b k ≠ some (.undone length))
    (name : String) (g : GreyCode Float)
    (hfind : (during card b n).groups.find? name = some (.greyCode g)) (hnodup : g.channels.Nodup)
    (halone : ∀ k < n, ∀ r, event? card b k = some (.made (.request r)) →
      ∀ c ∈ g.channels, r.Drives (during card b k) c → ∃ v, r = .visit name v) :
    g.bits = g.channels.map (during card b n).ledger.levelOf :=
  (tracked_during hnodup hkept halone).since g hfind rfl

/-- A run without refused repetitions undoes nothing. -/
theorem event?_ne_undone {card : Card} {b : Routine Operation Sequencer Fault}
    (hkept : b.refusals Operation.perform { card } = []) (k length : Nat) :
    event? card b k ≠ some (.undone length) := fun h =>
  (Routine.exists_undone_iff b { card }).mp ⟨_, List.mem_of_getElem? h, length, rfl⟩ hkept

/-- So it is when the run is over, if no repetition was refused. -/
theorem bits_record (card : Card) (b : Routine Operation Sequencer Fault)
    (hkept : b.refusals Operation.perform { card } = []) (name : String) (g : GreyCode Float)
    (hfind : (b.record Operation.perform { card }).state.groups.find? name = some (.greyCode g))
    (hnodup : g.channels.Nodup)
    (halone : ∀ k r, event? card b k = some (.made (.request r)) →
      ∀ c ∈ g.channels, r.Drives (during card b k) c → ∃ v, r = .visit name v) :
    g.bits = g.channels.map (b.record Operation.perform { card }).state.ledger.levelOf := by
  rw [← during_length] at hfind ⊢
  exact (tracked_during hnodup (fun k _ => event?_ne_undone hkept k) fun k _ =>
    halone k).since g hfind rfl

/-! ## A group between others -/

/-- A card with a channel to spare. -/
def tripled : Card := { Card.paired with channels := 3, channels_pos := by decide }

def threeProfiles : Directory String (List Bool) :=
  Directory.ofList [("a", [false, false]), ("b", [true, false]), ("c", [true, true])]

/-- A run of a group beside a switch: an iteration, and a second one with a period that is repeated,
in which the group is asked for a profile that it does not have. -/
def interleaved : Routine Operation Sequencer Fault :=
  .request (.register (.greyCode "g" [1, 0] threeProfiles 0 0.5)) fun _ =>
  .request (.register (.switch "s" 2 Switch.onOff 0)) fun _ =>
  .request (.request (.visit "g" ⟨2, "c", false⟩)) fun _ =>
  .request .compile fun _ =>
  .request (.request (.raw 1 2 true)) fun _ =>
  .repeated card 4 1 (fun _ t =>
    .request (.request (.visit "g" ⟨t, "c", false⟩)) fun _ =>
    .request (.request (.visit "s" ⟨t, "on", false⟩)) fun _ =>
    .request (.request (.visit "g" ⟨t, "x", false⟩)) fun _ => .finish (.ok (t + 4))) fun _ =>
  .request (.request (.visit "g" ⟨12, "b", false⟩)) .finish

/-- The interleaved run when it is about to compile. -/
def uncompiled : Sequencer :=
  Event.afterAll Operation.perform { card := tripled }
    [.made (.register (.greyCode "g" [1, 0] threeProfiles 0 0.5)),
      .made (.register (.switch "s" 2 Switch.onOff 0)),
      .made (.request (.visit "g" ⟨2, "c", false⟩))]

/-- The sort in the compile does not evaluate, but there is no need to: whatever the artifact is, the
next iteration is a fresh one. -/
theorem state_compile_uncompiled :
    (Operation.compile.perform uncompiled).state = uncompiled.fresh := by
  have hplaced : uncompiled.ledger.transitions.mapM (Change.ofTransition uncompiled.card)
      = .ok [⟨2, 1, true⟩, ⟨2, 0, true⟩] := by decide +kernel
  -- On a wrapping card there is no wait that halts, so two transitions that can be placed compile.
  have hartifact : ∃ a, uncompiled.artifact = .ok a := by
    have hregions : uncompiled.ledger.regions = [] := by decide +kernel
    have hwrapping : uncompiled.card.arithmetic = .wrapping := by decide +kernel
    exact ⟨_, Artifact.ofLedger_eq_ok_iff.mpr ⟨hregions ▸ Region.check_nil, _,
      congrArg (Except.map _) hplaced, hwrapping ▸ nofun, rfl⟩⟩
  obtain ⟨a, hartifact⟩ := hartifact
  show (Recorder.untimed _ uncompiled).state = _
  rw [Recorder.state_untimed, compile_of_ok hartifact]

/-- What happens in the interleaved run after its compile. -/
def later : List (Event Operation) :=
  [.made (.request (.raw 1 2 true)),
    .made (.request (.visit "g" ⟨4, "c", false⟩)),
    .made (.request (.visit "s" ⟨4, "on", false⟩)),
    .made (.request (.visit "g" ⟨4, "x", false⟩)),
    .noted tripled ⟨4, 4, 8, 1, 1, 4⟩,
    .made (.request (.visit "g" ⟨12, "b", false⟩))]

theorem events_interleaved :
    interleaved.events Operation.perform { card := tripled } =
      .made (.register (.greyCode "g" [1, 0] threeProfiles 0 0.5))
        :: .made (.register (.switch "s" 2 Switch.onOff 0))
        :: .made (.request (.visit "g" ⟨2, "c", false⟩))
        :: .made .compile :: later := by
  show _ :: _ :: _ :: _ ::
    Routine.events Operation.perform _ (Operation.compile.perform uncompiled).state = _
  rw [state_compile_uncompiled]
  decide +kernel

theorem during_interleaved (n : Nat) : during tripled interleaved (n + 4)
    = Event.afterAll Operation.perform uncompiled.fresh (later.take n) := by
  rw [during, events_interleaved, ← state_compile_uncompiled]
  rfl

/-- After the whole of the interleaved run, the group's bits are the levels of its channels. -/
theorem bits_interleaved :
    let s := during tripled interleaved 10
    ∃ g, s.groups.find? "g" = some (.greyCode g) ∧ g.bits = [true, false]
      ∧ g.bits = g.channels.map s.ledger.levelOf := by
  have hfind : (during tripled interleaved 10).groups.find? "g" = some (.greyCode {
      name := "g", channels := [1, 0], profiles := threeProfiles
      bits := [true, false], lastChange := 12, initialTime := 0, spacing := 0.5 }) := by
    rw [during_interleaved 6]
    decide +kernel
  have hraw : ∀ c ∈ [1, 0],
      ¬ (Request.raw 1 2 true).Drives (during tripled interleaved 4) c := by
    rw [during_interleaved 0]
    decide +kernel
  have hswitch : ∀ c ∈ [1, 0],
      ¬ (Request.visit "s" ⟨4, "on", false⟩).Drives (during tripled interleaved 6) c := by
    rw [during_interleaved 2]
    decide +kernel
  refine ⟨_, hfind, rfl,
    bits_during tripled interleaved 10 (fun k hk length h => ?_) "g" _ hfind (by decide)
      (fun k hk r h c hc hdrives => ?_)⟩
  · unfold event? at h
    rw [events_interleaved] at h
    interval_cases k <;> cases h
  · unfold event? at h
    rw [events_interleaved] at h
    interval_cases k <;> cases h
    · exact ⟨_, rfl⟩
    · exact absurd hdrives (hraw c hc)
    · exact ⟨_, rfl⟩
    · exact absurd hdrives (hswitch c hc)
    · exact ⟨_, rfl⟩
    · exact ⟨_, rfl⟩

end Sequencer

end PulseTrain
