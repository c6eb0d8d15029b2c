import PulseTrain.Proofs.Operations
import PulseTrain.Proofs.RoundTrip
import PulseTrain.Proofs.StaleGroups

/-!
# Iterations

Nothing of an iteration outlives it. A sequencer that starts afresh is the one that its registered
groups lead to, whatever was recorded, refused, taken back or compiled before, and wherever in
between the groups were registered.

* `Sequencer.registered` are the registrations among events that went through, and
  `Sequencer.founded` the sequencer that only makes registrations.
* `Sequencer.fresh_after` says that starting afresh undoes every event but a registration.
* `Sequencer.fresh_of_run` is the result.
-/

namespace PulseTrain

/-! ## Groups as they were created -/

/-- A visit is gone after a reset. -/
theorem GreyCode.reset_visited (g : GreyCode Float) (v : Visit) :
    (g.visited v).reset = g.reset := by
  rw [visited_static]
  rfl

namespace ChannelGroup

/-- So it is for a group of either kind. -/
theorem reset_visited (g : ChannelGroup) (v : Visit) : (g.visited v).reset = g.reset := by
  cases g with
  | greyCode g =>
    rw [visited_greyCode]
    exact congrArg greyCode (g.reset_visited v)
  | switch s => rfl

theorem reset_reset (g : ChannelGroup) : g.reset.reset = g.reset := by
  cases g <;> rfl

theorem name_reset (g : ChannelGroup) : g.reset.name = g.name := by
  cases g <;> rfl

theorem channels_reset (g : ChannelGroup) : g.reset.channels = g.channels := by
  cases g <;> rfl

end ChannelGroup

namespace Sequencer

/-- A group that has just been created is as after a reset. -/
theorem Registration.reset_group {r : Registration} {g : ChannelGroup} (h : r.group = .ok g) :
    g.reset = g := by
  obtain ⟨created, rfl, hcreated, -⟩ | ⟨s, rfl⟩ := cases_of_group h
  · exact congrArg ChannelGroup.greyCode hcreated
  · rfl

/-! ## A fresh sequencer -/

theorem find?_fresh (s : Sequencer) (name : String) :
    s.fresh.groups.find? name = (s.groups.find? name).map ChannelGroup.reset :=
  Directory.find?_map _ _ _

/-- A fresh iteration has nothing that a fresh one would not have. -/
theorem fresh_fresh (s : Sequencer) : s.fresh.fresh = s.fresh := by
  have hgroups : (s.groups.map ChannelGroup.reset).map ChannelGroup.reset
      = s.groups.map ChannelGroup.reset := by
    -- Both directories have the same names, and under each of them a group that was reset.
    refine Directory.eq_of_find? (by simp) fun name => ?_
    rw [Directory.find?_map, Directory.find?_map, Option.map_map]
    congr 1
    exact funext ChannelGroup.reset_reset
  unfold fresh
  rw [hgroups]

/-- A fresh sequencer registers what the sequencer does: names and channels are as they were. -/
theorem Registration.admitted_fresh_iff {r : Registration} {s : Sequencer} {g : ChannelGroup} :
    r.Admitted s.fresh g ↔ r.Admitted s g := by
  have hfree : s.fresh.groups.find? g.name = none ↔ s.groups.find? g.name = none := by
    rw [find?_fresh, Option.map_eq_none_iff]
  exact ⟨fun h => ⟨h.group_eq, hfree.mp h.free, h.channel_lt⟩,
    fun h => ⟨h.group_eq, hfree.mpr h.free, h.channel_lt⟩⟩

/-- It does not matter whether a group is registered before the iteration starts or in it. -/
theorem fresh_registered {r : Registration} {s : Sequencer} {g : ChannelGroup}
    (h : r.Admitted s g) :
    { s with groups := s.groups.insert g.name g }.fresh = (r.perform s.fresh).state := by
  rw [Registration.perform_of_admitted (Registration.admitted_fresh_iff.mpr h)]
  unfold fresh
  rw [Directory.map_insert, Registration.reset_group h.group_eq]

/-! ## What goes on through fresh starts -/

/-- The registration that an event is, if it goes through. -/
def registration? (s : Sequencer) : Event Operation → Option Registration
  | .made (.register r) => (r.perform s).result.toOption.map fun _ => r
  | _ => none

/-- The registrations among events that go through, from `s` on. -/
def registered (s : Sequencer) : List (Event Operation) → List Registration
  | [] => []
  | e :: es =>
    (registration? s e).toList ++ registered (e.after Operation.perform s) es

/-- A new sequencer that registers groups, and does nothing else. -/
def founded (card : Card) (rs : List Registration) : Sequencer :=
  rs.foldl (fun s r => (r.perform s).state) { card }

/-- Started afresh, a sequencer is as it was before an event, but for a group registered in it. -/
theorem fresh_after (e : Event Operation) (s : Sequencer) :
    (e.after Operation.perform s).fresh
      = (registration? s e).elim s.fresh fun r => (r.perform s.fresh).state := by
  -- A registration is the only event that shows in a fresh sequencer.
  by_cases hregister : ∃ r, e = .made (.register r)
  · obtain ⟨r, rfl⟩ := hregister
    show (r.perform.untimed s).state.fresh
      = ((r.perform s).result.toOption.map fun _ => r).elim s.fresh _
    rw [Recorder.state_untimed]
    obtain ⟨g, hg, heq⟩ | ⟨-, e, heq⟩ := r.perform_cases s
    · rw [heq]
      exact fresh_registered hg
    · rw [heq]
      rfl
  · have hnone : registration? s e = none := by
      unfold registration?
      split
      · exact absurd ⟨_, rfl⟩ hregister
      · rfl
    rw [hnone]
    have heffect := effect_after e s
    generalize e.after Operation.perform s = s' at heffect ⊢
    cases heffect with
    | none => rfl
    | registered => exact absurd ⟨_, rfl⟩ hregister
    | @visited name g hfind v =>
      -- A visit changes one group, and nothing of it that a reset does not set back.
      have hreset : (s.groups.map ChannelGroup.reset).find? name = some (g.visited v).reset := by
        rw [Directory.find?_map, hfind, ChannelGroup.reset_visited]
        rfl
      show fresh _ = s.fresh
      unfold fresh
      rw [Directory.map_insert, Directory.insert_of_find? hreset]
    | recorded => rfl
    | fresh => exact s.fresh_fresh
    | noted => rfl
    | undone => rfl

/-- Of all that has happened, only the registrations show in a fresh iteration. -/
theorem fresh_afterAll (es : List (Event Operation)) (s : Sequencer) :
    (Event.afterAll Operation.perform s es).fresh
      = (registered s es).foldl (fun s r => (r.perform s).state) s.fresh := by
  induction es generalizing s with
  | nil => rfl
  | cons e es ih =>
    rw [Event.afterAll_cons, ih, fresh_after, registered, List.foldl_append]
    cases registration? s e <;> rfl

/-! ## The result -/

/-- **Every iteration starts afresh.** After any run of operations, a compile that goes through and
a clear leave the sequencer that has registered the groups of the run and done nothing else. So whatever
is asked of it later comes out as if nothing had been recorded. -/
theorem fresh_of_run (card : Card) (b : Routine Operation Sequencer Fault) :
    let s := (b.record Operation.perform { card }).state
    let anew := founded card (registered { card } (b.events Operation.perform { card }))
    (∀ a, (compile s).result = .ok a → (compile s).state = anew)
      ∧ (clear s : Outcome Sequencer Fault Unit).state = anew := by
  intro s anew
  -- The fresh state is the last one reset, and only registrations are left of a run when it is reset.
  have hfresh : s.fresh = anew := by
    show (b.record Operation.perform { card }).state.fresh = _
    rw [Routine.state_record, fresh_afterAll]
    rfl
  refine ⟨fun a ha => ?_, hfresh⟩
  cases h : s.artifact with
  | error e =>
    rw [compile_of_error h] at ha
    cases ha
  | ok a' =>
    rw [compile_of_ok h]
    exact hfresh

/-! ## A second iteration -/

/-- A run that changes a group, fails to repeat a period and registers it again, starts afresh, and
then records `Ledger.unordered`. -/
def resumed : Routine Operation Sequencer Fault :=
  .request (.register (.greyCode "g" [0, 1]
    (Directory.ofList [("a", [false, false]), ("b", [true, false])]) 0 0.5)) fun _ =>
  .request (.request (.visit "g" ⟨10, "b", false⟩)) fun _ =>
  .repeated card 5 1 (fun _ t =>
    .request (.register (.switch "s" 1 Switch.onOff 0)) fun _ =>
    .request (.request (.visit "s" ⟨t, "on", false⟩)) fun _ =>
    .request (.request (.visit "g" ⟨t, "x", false⟩)) .finish) fun _ =>
  .request (.register (.switch "g" 1 Switch.onOff 0)) fun _ =>
  .request .clear fun _ =>
  .request (.request (.raw 7 1 true)) fun _ =>
  .request (.request (.raw 3 0 true)) fun _ =>
  .request (.request (.raw 1 0 false)) fun _ =>
  .request (.request (.raw 9 1 true)) .finish

/-- The groups that the run registers, one of them in the repetition that is refused. -/
def resumedGroups : List Registration :=
  [.greyCode "g" [0, 1] (Directory.ofList [("a", [false, false]), ("b", [true, false])]) 0 0.5,
    .switch "s" 1 Switch.onOff 0]

/-- What compiles is what has been recorded since the iteration began, and both groups stay. -/
theorem fresh_resumed :
    let s := (resumed.record Operation.perform { card := Card.paired }).state
    (compile s).result = .ok Artifact.unordered
      ∧ (compile s).state = founded Card.paired resumedGroups := by
  intro s
  have hledger : s.ledger = Ledger.unordered := by decide +kernel
  have hcard : s.card = Card.paired := by decide +kernel
  have hartifact : s.artifact = .ok Artifact.unordered := by
    unfold artifact
    rw [hledger, hcard, Artifact.ofLedger_unordered]
  have hresult : (compile s).result = .ok Artifact.unordered := by rw [compile_of_ok hartifact]
  exact ⟨hresult, (fresh_of_run Card.paired resumed).1 _ hresult⟩

end Sequencer

end PulseTrain
