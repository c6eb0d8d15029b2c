import PulseTrain.Proofs.Directories
import PulseTrain.Proofs.Rollback

/-!
# What a refused repetition leaves of the groups

A refused repetition takes back what was recorded, but not what the groups remember of it. Every
grey-code group stays as the visits of the period have left it.

* `Sequencer.visits` are the visits to one group among the requests that were made.
* `Sequencer.Stale` says what is left of every group, and when that is what was there.
* `Sequencer.stale_of_refused` is the result.
-/

namespace PulseTrain

open HasLedger

/-! ## The groups follow the visits -/

namespace Sequencer

/-- The groups after a request. -/
def stepGroups (d : Directory String ChannelGroup) : Request → Directory String ChannelGroup
  | .visit group v =>
    match d.find? group with
    | none => d
    | some g => d.insert group (g.visited v)
  | .raw .. => d

/-- What a call does to the groups depends on the groups alone. -/
theorem groups_perform (r : Request) (s : Sequencer) :
    (r.perform s).state.groups = stepGroups s.groups r := by
  cases r with
  | visit group v =>
    cases h : s.groups.find? group with
    | none =>
      rw [perform_visit_of_none h]
      simp only [stepGroups, h]
    | some g =>
      rw [perform_visit_of_some h]
      simp only [stepGroups, h]
  | raw t channel level =>
    rw [perform_raw]
    split <;> rfl

theorem card_perform (r : Request) (s : Sequencer) : (r.perform s).state.card = s.card := by
  cases r with
  | visit group v =>
    cases h : s.groups.find? group with
    | none => rw [perform_visit_of_none h]
    | some g => rw [perform_visit_of_some h]
  | raw t channel level =>
    rw [perform_raw]
    split <;> rfl

/-- The visit that a request makes to the group `name`, if it does. -/
def Request.visitTo? (name : String) : Request → Option Visit
  | visit group v => if group = name then some v else none
  | raw .. => none

/-- The visits to the group `name`, among requests. -/
def visits (name : String) (rs : List Request) : List Visit :=
  rs.filterMap (·.visitTo? name)

theorem keys_stepGroups (d : Directory String ChannelGroup) (r : Request) :
    (stepGroups d r).keys = d.keys := by
  unfold stepGroups
  split
  · split
    · rfl
    · rename_i h
      exact Directory.keys_insert_of_find? h _
  · rfl

/-- A group is touched by the visits made to it by name and by no other call. -/
theorem find?_stepGroups (d : Directory String ChannelGroup) (r : Request) (name : String) :
    (stepGroups d r).find? name
      = (d.find? name).map fun g => (r.visitTo? name).elim g g.visited := by
  cases r with
  | raw t channel level =>
    show d.find? name = (d.find? name).map fun g => g
    rw [Option.map_id']
  | visit group v =>
    simp only [stepGroups, Request.visitTo?]
    by_cases hname : group = name
    · subst hname
      cases h : d.find? group with
      | none => exact h
      | some g => simp [Directory.find?_insert]
    -- A visit to another group is no visit to this one, whether that group exists or not.
    · have hother : (d.find? name).map (fun g => (none : Option Visit).elim g g.visited)
          = d.find? name := Option.map_id'
      rw [if_neg hname, hother]
      cases h : d.find? group with
      | none => rfl
      | some g =>
        rw [Directory.find?_insert, if_neg fun h => hname h.symm]

theorem keys_foldl_stepGroups (rs : List Request) (d : Directory String ChannelGroup) :
    (rs.foldl stepGroups d).keys = d.keys := by
  induction rs generalizing d with
  | nil => rfl
  | cons r rs ih => rw [List.foldl_cons, ih, keys_stepGroups]

/-- A group is found as the visits to it have left it. -/
theorem find?_foldl_stepGroups (rs : List Request) (d : Directory String ChannelGroup)
    (name : String) :
    (rs.foldl stepGroups d).find? name
      = (d.find? name).map fun g => (visits name rs).foldl ChannelGroup.visited g := by
  induction rs generalizing d with
  | nil =>
    show d.find? name = (d.find? name).map fun g => g
    rw [Option.map_id']
  -- By induction on the calls: each is a visit to the group or none.
  | cons r rs ih =>
    rw [List.foldl_cons, ih, find?_stepGroups, Option.map_map]
    unfold visits
    rw [List.filterMap_cons]
    cases r.visitTo? name <;> rfl

end Sequencer

namespace ChannelGroup

theorem foldl_visited_switch (s : Switch) (vs : List Visit) :
    vs.foldl visited (switch s) = switch s := by
  induction vs with
  | nil => rfl
  | cons v vs ih => rw [List.foldl_cons, visited_switch, ih]

/-- A run of visits leaves of a Gray code group what the visits, one after another, make of it. -/
theorem foldl_visited_greyCode (g : GreyCode Float) (vs : List Visit) :
    vs.foldl visited (greyCode g) = greyCode (g.after vs) := by
  induction vs generalizing g with
  | nil => rfl
  | cons v vs ih =>
    rw [List.foldl_cons, visited_greyCode, ih]
    rfl

end ChannelGroup

/-! ## Requests that cannot tell two sequencers apart -/

namespace Sequencer

/-- Two sequencers that differ at most in which stretches are known to repeat. -/
structure Alike (s s' : Sequencer) : Prop where
  card_eq : s'.card = s.card
  transitions_eq : s'.ledger.transitions = s.ledger.transitions
  groups_eq : s'.groups = s.groups

variable {s s' : Sequencer}

/-- Sequencers alike in their groups and card answer a call alike. -/
theorem Alike.perform (h : Alike s s') (r : Request) :
    (r.perform s').result = (r.perform s).result
      ∧ Alike (r.perform s).state (r.perform s').state := by
  obtain ⟨hcard, htransitions, hgroups⟩ := h
  -- A transition is appended to either ledger alike, wherever the regions are.
  have happend : ∀ ts, (s'.ledger.append ts).transitions = (s.ledger.append ts).transitions := by
    intro ts
    unfold Ledger.append
    rw [htransitions]
  cases r with
  | visit group v =>
    cases hfind : s.groups.find? group with
    | none =>
      rw [perform_visit_of_none hfind, perform_visit_of_none (hgroups ▸ hfind)]
      exact ⟨rfl, hcard, htransitions, hgroups⟩
    | some g =>
      rw [perform_visit_of_some hfind, perform_visit_of_some (hgroups ▸ hfind)]
      exact ⟨rfl, hcard, happend _, by rw [hgroups]⟩
  | raw t channel level =>
    rw [perform_raw, perform_raw, hcard]
    split
    · exact ⟨rfl, rfl, happend _, hgroups⟩
    · exact ⟨rfl, hcard, htransitions, hgroups⟩

/-- A sequencer after requests, refused or not. -/
def follow (s : Sequencer) (rs : List Request) : Sequencer :=
  rs.foldl (fun s r => (r.perform s).state) s

theorem Alike.follow (h : Alike s s') (rs : List Request) : Alike (s.follow rs) (s'.follow rs) := by
  induction rs generalizing s s' with
  | nil => exact h
  | cons r rs ih => exact ih (h.perform r).2

/-! ## The groups after a refusal -/

/-- The sequencer `after` a refused repetition that found `before` and made the requests `made`. -/
structure Stale (made : List Request) (before after : Sequencer) : Prop where
  keys_eq : after.groups.keys = before.groups.keys
  switch : ∀ name sw, before.groups.find? name = some (.switch sw) →
    after.groups.find? name = some (.switch sw)
  greyCode : ∀ name g, before.groups.find? name = some (.greyCode g) →
    after.groups.find? name = some (.greyCode (g.after (visits name made)))
  /-- The groups are as before exactly if each of them was last taken to the profile that it was in,
  and has recorded nothing, or its last change at the very time of the last one before. -/
  eq_iff : after.groups = before.groups ↔
    ∀ name g, before.groups.find? name = some (.greyCode g) →
      ((visits name made).filterMap fun v => (g.wanted v).toOption).getLast?.getD g.bits = g.bits
        ∧ ((g.changesAfter (visits name made)).getLast?.map (·.time)).getD g.lastChange
          = g.lastChange
  /-- In that case whatever is asked for later is answered and recorded as if nothing had been. -/
  later : after.groups = before.groups → ∀ (rs : List Request) (r : Request),
    (after.follow rs).ledger.transitions = (before.follow rs).ledger.transitions
      ∧ (r.perform (after.follow rs)).result = (r.perform (before.follow rs)).result
  /-- A group that is left with other bits has a profile that it does not change to any more. -/
  silenced : ∀ name g, before.groups.find? name = some (.greyCode g) →
    g.bits.length = g.channels.length → (g.after (visits name made)).bits ≠ g.bits →
    ∃ profile, ∀ t,
      ((Request.visit name ⟨t, profile, false⟩).perform after).state.ledger.transitions
          = before.ledger.transitions
        ∧ ((Request.visit name ⟨t, profile, false⟩).perform before).state.ledger.transitions
          ≠ before.ledger.transitions

variable {made : List Request} {before after : Sequencer}

theorem find?_of_stepGroups (h : after.groups = made.foldl stepGroups before.groups) {name : String}
    {g : GreyCode Float} (hg : before.groups.find? name = some (.greyCode g)) :
    after.groups.find? name = some (.greyCode (g.after (visits name made))) := by
  rw [h, find?_foldl_stepGroups, hg, Option.map_some, ChannelGroup.foldl_visited_greyCode]

/-- The groups are as they were exactly when every Gray code group has the bits and the last change it had.
-/
theorem groups_eq_iff (h : after.groups = made.foldl stepGroups before.groups) :
    after.groups = before.groups ↔
      ∀ name g, before.groups.find? name = some (.greyCode g) →
        (g.after (visits name made)).bits = g.bits
          ∧ (g.after (visits name made)).lastChange = g.lastChange := by
  constructor
  · intro hsame name g hg
    have hfind := find?_of_stepGroups h hg
    rw [hsame, hg, Option.some.injEq, ChannelGroup.greyCode.injEq] at hfind
    rw [← hfind]
    exact ⟨rfl, rfl⟩
  · intro hall
    -- Both directories have the same names, so it is enough to look up each of them.
    refine Directory.eq_of_find? (by rw [h, keys_foldl_stepGroups]) fun name => ?_
    cases hfind : before.groups.find? name with
    | none => rw [h, find?_foldl_stepGroups, hfind, Option.map_none]
    | some g =>
      cases g with
      | switch sw =>
        rw [h, find?_foldl_stepGroups, hfind, Option.map_some, ChannelGroup.foldl_visited_switch]
      | greyCode g =>
        -- Visits change nothing of a group but its bits and its last change.
        obtain ⟨hbits, hlast⟩ := hall name g hfind
        rw [find?_of_stepGroups h hfind, GreyCode.after_static, hbits, hlast]

/-- A run that left card and transitions alone and took the groups through its calls has left stale groups
exactly where a call changed one. -/
theorem stale_of_stepGroups (h : after.groups = made.foldl stepGroups before.groups)
    (hcard : after.card = before.card)
    (htransitions : after.ledger.transitions = before.ledger.transitions) :
    Stale made before after := by
  refine ⟨by rw [h, keys_foldl_stepGroups], ?_, fun name g hg => find?_of_stepGroups h hg,
    ?_, ?_, ?_⟩
  · intro name sw hsw
    rw [h, find?_foldl_stepGroups, hsw, Option.map_some, ChannelGroup.foldl_visited_switch]
  · rw [groups_eq_iff h]
    simp only [GreyCode.bits_after, GreyCode.lastChange_after]
  -- Sequencers with the same groups answer alike, since regions have no say in an answer.
  · intro hsame rs r
    have halike : Alike before after := ⟨hcard, htransitions, hsame⟩
    have hfollow := halike.follow rs
    exact ⟨hfollow.transitions_eq, (hfollow.perform r).1⟩
  · intro name g hg hlength hne
    obtain ⟨profile, hprofile⟩ := GreyCode.silenced hlength hne
    -- Either visit records the changes of its group, and one of them has none.
    refine ⟨profile, fun t => ?_⟩
    obtain ⟨hnothing, hsomething⟩ := hprofile t
    rw [perform_visit_of_some (find?_of_stepGroups h hg), perform_visit_of_some hg]
    simp only [Ledger.append, ChannelGroup.answer_greyCode, hnothing, List.append_nil, ne_eq,
      List.append_right_eq_self]
    exact ⟨htransitions, hsomething⟩

/-- **What a refused repetition leaves of the groups.** The groups keep what the period has made of
them, up to the request that was refused. -/
theorem stale_of_refused (s : Sequencer) (start : Float) (repeats : Nat)
    (period : Nat → Float → Routine Request Sequencer Fault) {e : Fault}
    (h : (markRepeat start repeats (calls period) s).result = .error e) :
    Stale (Routine.repeatRequests Request.perform period repeats start s) s
      (markRepeat start repeats (calls period) s).state := by
  refine stale_of_stepGroups ?_ ?_ ?_
  -- Neither the groups nor the card are on the ledger, so nothing of them is taken back.
  · show (Recorder.markRepeat s.card start repeats (calls period) s).state.groups = _
    rw [Recorder.view_markRepeat Sequencer.groups fun _ _ => rfl]
    exact Recorder.view_chain Sequencer.groups stepGroups
      (fun n t s => Routine.view_record (fun _ _ => rfl) groups_perform (period n t) s)
      repeats 0 start s
  · show (Recorder.markRepeat s.card start repeats (calls period) s).state.card = _
    rw [Recorder.view_markRepeat Sequencer.card fun _ _ => rfl]
    refine (Recorder.view_chain Sequencer.card (fun card _ => card)
      (fun n t s => Routine.view_record (fun _ _ => rfl) card_perform (period n t) s)
      repeats 0 start s).trans ?_
    exact List.foldl_fixed _
  · refine Routine.transitions_of_refused (fun r s => ?_) s.card start repeats period h
    exact (extends_perform r s).transitions

/-! ## A group that is left behind -/

/-- A sequencer with one group, which selects between two profiles. -/
def selecting : Sequencer :=
  (addGreyCode "g" [0, 1] (Directory.ofList [("a", [false, false]), ("b", [true, false])]) 0 0.5
    { card := Card.paired }).state

/-- A period that takes the group to one profile, and asks for one that it does not have. -/
def astray (_ : Nat) (t : Float) : Routine Request Sequencer Fault :=
  .request (.visit "g" ⟨t, "b", false⟩) fun _ => .request (.visit "g" ⟨t, "x", false⟩) .finish

theorem stale_astray :
    (markRepeat 5 1 (calls astray) selecting).result = .error (.unknownProfile "g" "x")
      ∧ Stale (Routine.repeatRequests Request.perform astray 1 5 selecting) selecting
          (markRepeat 5 1 (calls astray) selecting).state := by
  have href : (markRepeat 5 1 (calls astray) selecting).result
      = .error (.unknownProfile "g" "x") := by decide +kernel
  exact ⟨href, stale_of_refused selecting 5 1 astray href⟩

/-- So a refused repetition does not leave all groups as they were. -/
theorem not_restored_of_refused :
    ¬ ∀ (start : Float) (repeats : Nat) (period : Nat → Float → Routine Request Sequencer Fault)
      (e : Fault), 0 < repeats →
      (markRepeat start repeats (calls period) selecting).result = .error e →
        (markRepeat start repeats (calls period) selecting).state.groups = selecting.groups := by
  intro h
  have hsame := h 5 1 astray (.unknownProfile "g" "x") Nat.one_pos (by decide +kernel)
  revert hsame
  decide +kernel

end Sequencer

end PulseTrain
