import PulseTrain.Proofs.Directories
import PulseTrain.Proofs.Events
import PulseTrain.Proofs.Requests

/-!
# Operations

All that can be asked of a sequencer: to register a group, to record, to compile, to draw the
signal, to start afresh. A run of operations is a `Routine` of them, so it may go on after a refusal,
and ask for anything within a repetition.

* `Sequencer.Operation.perform` are the operations.
* `Sequencer.add_eq`, `Sequencer.Registration.perform_of_admitted` and
  `Sequencer.Registration.perform_of_not_admitted` are all that registering a group can do.
* `Sequencer.compile_of_error` and `Sequencer.compile_of_ok` are all that compiling can do.
* `Sequencer.during` is the sequencer at some point of a run, and `Sequencer.event?` what comes
  next. `Sequencer.during_length` is the end of the run.
* `Sequencer.Effect` is everything that an event of a run can do to a sequencer, and
  `Sequencer.effect_after` says so; later proofs split on it.
-/

namespace PulseTrain

open HasLedger

/-- A request that has no time to hand out is answered by the time zero. -/
def Recorder.untimed {σ ε α : Type} (r : Recorder σ ε α) : Recorder σ ε Float := do
  let _ ← r
  pure 0

/-- Whether a time is handed out makes no difference to the state. -/
theorem Recorder.state_untimed {σ ε α : Type} (r : Recorder σ ε α) (s : σ) :
    (r.untimed s).state = (r s).state := by
  unfold untimed
  cases h : (r s).result with
  | error e => rw [bind_of_error h]
  | ok a =>
    rw [bind_of_ok h]
    rfl

namespace Sequencer

/-! ## Registering a group -/

/-- The first channel that the card does not have is reported, and looking changes nothing. -/
theorem forM_checkChannel (channels : List Nat) (s : Sequencer) :
    channels.forM checkChannel s =
      match channels.find? fun c => ¬ c < s.card.channels with
      | some c => ⟨.error (.channelOutOfRange c s.card.channels), s, []⟩
      | none => ⟨.ok (), s, []⟩ := by
  induction channels with
  | nil => rfl
  -- By induction on the channels: the check stops at the first one that the card does not have.
  | cons c channels ih =>
    have hcheck := checkChannel_eq c s
    show (checkChannel c >>= fun _ => channels.forM checkChannel) s = _
    by_cases hc : c < s.card.channels
    · rw [if_pos hc] at hcheck
      rw [Recorder.bind_of_ok (congrArg Outcome.result hcheck), hcheck,
        List.find?_cons_of_neg (by simpa using hc), ih]
      rfl
    · rw [if_neg hc] at hcheck
      rw [Recorder.bind_of_error (congrArg Outcome.result hcheck), hcheck,
        List.find?_cons_of_pos (by simpa using hc)]

/-- A group is registered if its name is free and the card has its channels. The name is looked at first. -/
theorem add_eq (g : ChannelGroup) (s : Sequencer) :
    add g s =
      if (s.groups.find? g.name).isSome then ⟨.error (.duplicateGroup g.name), s, []⟩
      else
        match g.channels.find? fun c => ¬ c < s.card.channels with
        | some c => ⟨.error (.channelOutOfRange c s.card.channels), s, []⟩
        | none => ⟨.ok (), { s with groups := s.groups.insert g.name g }, []⟩ := by
  unfold add
  rw [Recorder.current_bind]
  -- The name is looked at before the channels.
  by_cases hknown : (s.groups.find? g.name).isSome
  · rw [if_pos hknown, if_pos hknown]
    rfl
  · rw [if_neg hknown, if_neg hknown]
    have hcheck := forM_checkChannel g.channels s
    cases hfind : g.channels.find? fun c => ¬ c < s.card.channels with
    | some c =>
      rw [hfind] at hcheck
      rw [Recorder.bind_of_error (congrArg Outcome.result hcheck), hcheck]
    | none =>
      rw [hfind] at hcheck
      rw [Recorder.bind_of_ok (congrArg Outcome.result hcheck), hcheck]
      rfl

/-- A group that a sequencer is asked to register. -/
inductive Registration where
  | greyCode (name : String) (channels : List Nat) (profiles : Directory String (List Bool))
      (t spacing : Float)
  | switch (name : String) (channel : Nat) (profiles : Directory String Bool) (offset : Float)
deriving DecidableEq

namespace Registration

/-- The request itself. -/
def perform : Registration → Recorder Sequencer Fault Unit
  | greyCode name channels profiles t spacing => addGreyCode name channels profiles t spacing
  | switch name channel profiles offset => addSwitch name channel profiles offset

/-- The group, if one can be created. -/
def group : Registration → Except Fault ChannelGroup
  | greyCode name channels profiles t spacing =>
    (GreyCode.create name channels profiles t spacing).map .greyCode
  | switch name channel profiles offset => .ok (.switch { name, channel, profiles, offset })

/-- What is known of a group that has just been created. -/
theorem cases_of_group {r : Registration} {g : ChannelGroup} (h : r.group = .ok g) :
    (∃ created : GreyCode Float, g = .greyCode created ∧ created.reset = created
        ∧ ∀ e ∈ created.profiles.entries, e.2.length = created.channels.length)
      ∨ ∃ s, g = .switch s := by
  cases r with
  | greyCode name channels profiles t spacing =>
    have hgroup : (GreyCode.create name channels profiles t spacing).map .greyCode = .ok g := h
    -- What is created has the bits of a reset group and profiles of its own width.
    unfold GreyCode.create at hgroup
    split at hgroup
    · cases hgroup
    · rename_i hwidths
      cases hgroup
      exact .inl ⟨_, rfl, rfl, by simpa using hwidths⟩
  | switch name channel profiles offset =>
    cases h
    exact .inr ⟨_, rfl⟩

/-- A registration creates the group before it asks for a name and channels. -/
theorem perform_eq (r : Registration) :
    r.perform = Recorder.ofExcept r.group >>= add := by
  cases r with
  | greyCode name channels profiles t spacing =>
    show (Recorder.ofExcept (GreyCode.create name channels profiles t spacing) >>= fun g =>
        add (.greyCode g))
      = Recorder.ofExcept ((GreyCode.create name channels profiles t spacing).map .greyCode) >>= add
    cases GreyCode.create name channels profiles t spacing <;> rfl
  | switch name channel profiles offset => rfl

/-- The group of a registration can be registered: its name is free, and the card has its
channels. -/
structure Admitted (r : Registration) (s : Sequencer) (g : ChannelGroup) : Prop where
  group_eq : r.group = .ok g
  free : s.groups.find? g.name = none
  channel_lt : ∀ c ∈ g.channels, c < s.card.channels

variable {r : Registration} {s : Sequencer} {g : ChannelGroup}

/-- A group that is admitted is registered. -/
theorem perform_of_admitted (h : r.Admitted s g) :
    r.perform s = ⟨.ok (), { s with groups := s.groups.insert g.name g }, []⟩ := by
  have hnone : (g.channels.find? fun c => ¬ c < s.card.channels) = none := by
    simpa using h.channel_lt
  rw [perform_eq, h.group_eq, Recorder.ofExcept_bind_ok, add_eq, h.free, hnone]
  rfl

/-- A group that is not admitted is refused, and nothing changes. -/
theorem perform_of_not_admitted (h : ∀ g, ¬ r.Admitted s g) :
    ∃ e, r.perform s = ⟨.error e, s, []⟩ := by
  rw [perform_eq]
  cases hgroup : r.group with
  | error e => exact ⟨e, rfl⟩
  | ok g =>
    rw [Recorder.ofExcept_bind_ok, add_eq]
    split
    · exact ⟨_, rfl⟩
    · rename_i hfree
      split
      · exact ⟨_, rfl⟩
      · rename_i hnone
        exact absurd ⟨hgroup, by simpa using hfree, by simpa using hnone⟩ (h g)

/-- There is no third way for a registration to end. -/
theorem perform_cases (r : Registration) (s : Sequencer) :
    (∃ g, r.Admitted s g
        ∧ r.perform s = ⟨.ok (), { s with groups := s.groups.insert g.name g }, []⟩)
      ∨ (∀ g, ¬ r.Admitted s g) ∧ ∃ e, r.perform s = ⟨.error e, s, []⟩ := by
  by_cases h : ∃ g, r.Admitted s g
  · obtain ⟨g, hg⟩ := h
    exact .inl ⟨g, hg, perform_of_admitted hg⟩
  · exact .inr ⟨not_exists.mp h, perform_of_not_admitted (not_exists.mp h)⟩

end Registration

/-! ## Compiling -/

/-- An iteration that does not compile goes on as it was. -/
theorem compile_of_error {s : Sequencer} {e : Fault} (h : s.artifact = .error e) :
    compile s = ⟨.error e, s, []⟩ := by
  unfold compile
  rw [Recorder.current_bind, h, Recorder.ofExcept_bind_error]
  rfl

/-- One that compiles is over. -/
theorem compile_of_ok {s : Sequencer} {a : Artifact} (h : s.artifact = .ok a) :
    compile s = ⟨.ok a, s.fresh, []⟩ := by
  unfold compile
  rw [Recorder.current_bind, h, Recorder.ofExcept_bind_ok]
  rfl

/-! ## All operations -/

/-- What can be asked of a sequencer, repetitions apart. -/
inductive Operation where
  | register (r : Registration)
  | request (r : Request)
  | artifact
  | signal
  | compile
  | clear
deriving DecidableEq

/-- The operation itself. -/
def Operation.perform : Operation → Recorder Sequencer Fault Float
  | register r => r.perform.untimed
  | request r => r.perform
  | artifact => (Recorder.current >>= fun s => Recorder.ofExcept s.artifact).untimed
  | signal => (Recorder.current >>= fun s => Recorder.ofExcept s.signal).untimed
  | compile => Sequencer.compile.untimed
  | clear => Sequencer.clear.untimed

/-! ## Runs -/

/-- The event number `k` of a run of operations on a new sequencer. -/
def event? (card : Card) (b : Routine Operation Sequencer Fault) (k : Nat) :
    Option (Event Operation) :=
  (b.events Operation.perform { card })[k]?

/-- The sequencer after the first `n` events of a run. -/
def during (card : Card) (b : Routine Operation Sequencer Fault) (n : Nat) : Sequencer :=
  Event.afterAll Operation.perform { card } ((b.events Operation.perform { card }).take n)

section Runs

variable {card : Card} {b : Routine Operation Sequencer Fault} {n : Nat}

/-- An event takes a run from one state to the next. -/
theorem during_of_event? {e : Event Operation} (h : event? card b n = some e) :
    during card b (n + 1) = e.after Operation.perform (during card b n) := by
  unfold event? at h
  unfold during Event.afterAll
  rw [List.take_add_one, h, List.foldl_append]
  rfl

/-- After its last event a run has left what it leaves. -/
theorem during_length (card : Card) (b : Routine Operation Sequencer Fault) :
    during card b (b.events Operation.perform { card }).length
      = (b.record Operation.perform { card }).state := by
  rw [during, List.take_length, Routine.state_record]

/-- After the last event nothing changes any more. -/
theorem during_of_event?_eq_none (h : event? card b n = none) :
    during card b (n + 1) = during card b n := by
  unfold event? at h
  unfold during
  rw [List.take_add_one, h, Option.toList_none, List.append_nil]

end Runs

/-- What an event of a run does to a sequencer. -/
inductive Effect (s : Sequencer) : Event Operation → Sequencer → Prop where
  /-- A request is refused, or only reads. -/
  | none (e : Event Operation) : Effect s e s
  | registered {r : Registration} {g : ChannelGroup} (hadmitted : r.Admitted s g) :
    Effect s (.made (.register r)) { s with groups := s.groups.insert g.name g }
  | visited {name : String} {g : ChannelGroup} (hfind : s.groups.find? name = some g) (v : Visit) :
    Effect s (.made (.request (.visit name v)))
      { s with
        ledger := s.ledger.append (g.answer v).state.2
        groups := s.groups.insert name (g.visited v) }
  | recorded (t : Float) {channel : Nat} (level : Bool) (hchannel : channel < s.card.channels) :
    Effect s (.made (.request (.raw t channel level)))
      { s with ledger := s.ledger.append [⟨t, channel, level⟩] }
  /-- A fresh iteration starts, after compiling or without. -/
  | fresh (e : Event Operation) : Effect s e s.fresh
  | noted (card : Card) (span : Span) (regions : List Region) :
    Effect s (.noted card span) { s with ledger := { s.ledger with regions } }
  | undone (length : Nat) :
    Effect s (.undone length) { s with ledger := s.ledger.truncate length }

/-- Whatever a request does, it is one of the effects. -/
theorem effect_perform (o : Operation) (s : Sequencer) :
    Effect s (.made o) (o.perform s).state := by
  cases o with
  | register r =>
    show Effect s _ (r.perform.untimed s).state
    rw [Recorder.state_untimed]
    -- A registration either puts in the group it admits or changes nothing.
    obtain ⟨g, hg, heq⟩ | ⟨-, e, heq⟩ := r.perform_cases s
    · rw [heq]
      exact .registered hg
    · rw [heq]
      exact .none _
  | request r =>
    show Effect s _ (r.perform s).state
    cases r with
    -- A visit goes to the group of that name, if there is one.
    | visit name v =>
      cases hfind : s.groups.find? name with
      | none =>
        rw [perform_visit_of_none hfind]
        exact .none _
      | some g =>
        rw [perform_visit_of_some hfind]
        exact .visited hfind v
    | raw t channel level =>
      rw [perform_raw]
      split
      · rename_i hchannel
        exact .recorded t level hchannel
      · exact .none _
  -- Looking at what has been recorded changes nothing.
  | artifact =>
    show Effect s _ (Recorder.untimed _ s).state
    rw [Recorder.state_untimed]
    exact .none _
  | signal =>
    show Effect s _ (Recorder.untimed _ s).state
    rw [Recorder.state_untimed]
    exact .none _
  | compile =>
    show Effect s _ (Recorder.untimed _ s).state
    rw [Recorder.state_untimed]
    -- A compile leaves a fresh sequencer, but only if it succeeds.
    cases h : s.artifact with
    | error e =>
      rw [compile_of_error h]
      exact .none _
    | ok a =>
      rw [compile_of_ok h]
      exact .fresh _
  | clear =>
    show Effect s _ (Recorder.untimed _ s).state
    rw [Recorder.state_untimed]
    exact .fresh _

/-- So is whatever any event does. -/
theorem effect_after (e : Event Operation) (s : Sequencer) :
    Effect s e (e.after Operation.perform s) := by
  cases e with
  | made o => exact effect_perform o s
  | noted card span =>
    show Effect s _ { s with ledger := ((Ledger.register (ε := Fault) card span) s.ledger).state }
    -- A region whose start is on record is not noted again.
    by_cases h : s.ledger.regions.any (·.start == span.start)
    · rw [Ledger.register_of_known h]
      exact .none _
    · rw [Ledger.register_of_new h]
      exact .noted card span _
  | undone length => exact .undone length

end Sequencer

end PulseTrain
