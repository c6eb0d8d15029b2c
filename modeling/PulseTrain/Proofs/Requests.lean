import PulseTrain.Proofs.Routines
import PulseTrain.Proofs.Visits
import PulseTrain.Sequencer

/-!
# Requests

The requests that a period can make: a transition, on a ledger; a visit or a transition, on a
sequencer. None of them takes anything off the ledger, and none looks at what is on it.

* `Ledger.perform` and `Sequencer.Request.perform` are the requests.
* `Sequencer.perform_visit_of_some`, `Sequencer.perform_visit_of_none` and `Sequencer.perform_raw` are
  all that they can do.
* `Sequencer.ledger_perform` says that they only ever append.
-/

namespace PulseTrain

open HasLedger

/-! ## Requests on a ledger -/

namespace Ledger

/-- The request to record a transition. -/
def perform {ε : Type} (t : Transition Float) : Recorder Ledger ε Float :=
  raw t.time t.channel t.level

end Ledger

/-! ## Requests on a sequencer -/

namespace Sequencer

instance : LawfulHasLedger Sequencer where
  ledger_setLedger _ _ := rfl

/-- What a period can ask of a sequencer, repetitions apart. -/
inductive Request where
  | visit (group : String) (v : Visit)
  | raw (t : Float) (channel : Nat) (level : Bool)
deriving DecidableEq, Repr

/-- The request itself. -/
def Request.perform : Request → Recorder Sequencer Fault Float
  | visit group v => onGroup group (ChannelGroup.visit v)
  | raw t channel level => Sequencer.raw t channel level

theorem profile_eq_perform (group : String) (t : Float) (name : String) :
    profile group t name = (Request.visit group ⟨t, name, false⟩).perform := rfl

theorem force_eq_perform (group : String) (t : Float) (name : String) :
    force group t name = (Request.visit group ⟨t, name, true⟩).perform := rfl

variable {s : Sequencer} {group : String}

/-- A call that names no group of the sequencer fails and leaves the whole state as it was. -/
theorem perform_visit_of_none (h : s.groups.find? group = none) (v : Visit) :
    (Request.visit group v).perform s = ⟨.error (.unknownGroup group), s, []⟩ := by
  show onGroup group (ChannelGroup.visit v) s = _
  unfold onGroup
  rw [Recorder.bind_of_ok (a := s) rfl]
  simp only [h]
  rfl

/-- A call on a group records the group's own answer: its result, its transitions and its new state. -/
theorem perform_visit_of_some {g : ChannelGroup} (h : s.groups.find? group = some g) (v : Visit) :
    (Request.visit group v).perform s =
      ⟨(g.answer v).result,
        { s with
          ledger := s.ledger.append (g.answer v).state.2
          groups := s.groups.insert group (g.visited v) },
        (g.answer v).warnings⟩ := by
  show onGroup group (ChannelGroup.visit v) s = _
  unfold onGroup
  rw [Recorder.bind_of_ok (a := s) rfl]
  simp only [h]
  unfold Recorder.within
  simp only [ChannelGroup.visit_eq]
  rfl

theorem checkChannel_eq (channel : Nat) (s : Sequencer) :
    checkChannel channel s =
      if channel < s.card.channels then ⟨.ok (), s, []⟩
      else ⟨.error (.channelOutOfRange channel s.card.channels), s, []⟩ := by
  unfold checkChannel
  rw [Recorder.bind_of_ok (a := s) rfl]
  split <;> rfl

/-- A raw call records its level as it stands, on any channel the card has. -/
theorem perform_raw (s : Sequencer) (t : Float) (channel : Nat) (level : Bool) :
    (Request.raw t channel level).perform s =
      if channel < s.card.channels then
        ⟨.ok t, { s with ledger := s.ledger.append [⟨t, channel, level⟩] }, []⟩
      else ⟨.error (.channelOutOfRange channel s.card.channels), s, []⟩ := by
  have hcheck := checkChannel_eq channel s
  show (checkChannel channel >>= fun _ => Recorder.onLedger (Ledger.raw t channel level)) s = _
  by_cases h : channel < s.card.channels
  · rw [if_pos h] at hcheck ⊢
    rw [Recorder.bind_of_ok (congrArg Outcome.result hcheck), hcheck]
    rfl
  · rw [if_neg h] at hcheck ⊢
    rw [Recorder.bind_of_error (congrArg Outcome.result hcheck), hcheck]

/-- A request only ever records more. -/
theorem ledger_perform (r : Request) (s : Sequencer) :
    ∃ ts, (r.perform s).state.ledger = s.ledger.append ts := by
  -- Recording nothing is recording an empty list.
  have hnone : s.ledger = s.ledger.append [] := by
    unfold Ledger.append
    rw [List.append_nil]
  cases r with
  | visit group v =>
    cases h : s.groups.find? group with
    | none => exact ⟨[], by rw [perform_visit_of_none h, ← hnone]⟩
    | some g => exact ⟨(g.answer v).state.2, by rw [perform_visit_of_some h]⟩
  | raw t channel level =>
    rw [perform_raw]
    split
    · exact ⟨[⟨t, channel, level⟩], rfl⟩
    · exact ⟨[], hnone⟩

end Sequencer

end PulseTrain
