import Mathlib.Algebra.Order.Group.Basic
import Mathlib.Data.List.Chain
import PulseTrain.Channel.GreyCode
import PulseTrain.Proofs.Repetition

/-!
# Trains of changes

A grey-code group changes its channels one after the other, in a train of changes. What a train is and
what it leaves of the group is said here for times of any kind, and how its changes are spaced for
times that can be added and compared exactly.

* `GreyCode.lookup_of_none`, `GreyCode.lookup_of_some` and `GreyCode.write_eq` are all that the parts of
  a request can do.
* `GreyCode.train_static`, `GreyCode.channels_train` and `GreyCode.lastChange_train` say what a train
  changes.
* `GreyCode.head?_train` and `GreyCode.isChain_train` say when its changes come, and
  `GreyCode.add_le_earliest_iff` how far they stay from the change before.
-/

namespace PulseTrain.GreyCode

variable {τ σ : Type}

/-! ## The parts of a request -/

theorem lookup_of_none {g : GreyCode τ} {name : String} (h : g.profiles.find? name = none)
    (sink : σ) : lookup name (g, sink) = ⟨.error (.unknownProfile g.name name), (g, sink), []⟩ := by
  unfold lookup
  rw [Recorder.bind_of_ok (a := (g, sink)) rfl]
  simp only [h]
  rfl

theorem lookup_of_some {g : GreyCode τ} {name : String} {bits : List Bool}
    (h : g.profiles.find? name = some bits) (sink : σ) :
    lookup name (g, sink) = ⟨.ok bits, (g, sink), []⟩ := by
  unfold lookup
  rw [Recorder.bind_of_ok (a := (g, sink)) rfl]
  simp only [h]
  rfl

section AnyTime

variable [Add τ] [LE τ] [DecidableLE τ]

/-- Writing bits to a group either changes the bits that are aimed at, in a train, or refuses a profile of
the wrong width. -/
theorem write_eq [Sink τ σ] (targets : GreyCode τ → List (Nat × Bool)) (t : τ) (bits : List Bool)
    (g : GreyCode τ) (sink : σ) :
    write targets t bits (g, sink) =
      if bits.length = g.channels.length then
        ⟨.ok (g.train t (targets g)).2.1,
          ({ (g.train t (targets g)).2.2 with bits },
            Sink.append sink (g.train t (targets g)).1), []⟩
      else
        ⟨.error (.profileWidth g.name (bitsText bits) bits.length g.channels.length), (g, sink),
          []⟩ := by
  unfold write
  rw [Recorder.bind_of_ok (a := (g, sink)) rfl]
  by_cases h : bits.length = g.channels.length
  · simp only [h, ne_eq, not_true_eq_false, if_false, if_true]
    rfl
  · simp only [h, ne_eq, not_false_eq_true, if_false, if_true]
    rfl

/-! ## What a train changes -/

/-- Nothing of a group but the time of its last change depends on a train. -/
theorem train_static (g : GreyCode τ) (t : τ) (ts : List (Nat × Bool)) :
    (g.train t ts).2.2 = { g with lastChange := (g.train t ts).2.2.lastChange } := by
  induction ts generalizing g t with
  | nil => rfl
  | cons target ts ih =>
    unfold train
    rw [ih]
    rfl

/-- The train writes its targets in the order they are given. -/
theorem channels_train (g : GreyCode τ) (t : τ) (ts : List (Nat × Bool)) :
    ((g.train t ts).1.map fun c => (c.channel, c.level)) = ts := by
  induction ts generalizing g t with
  | nil => rfl
  | cons target ts ih =>
    unfold train
    rw [List.map_cons, ih]

/-- The last change of a group is the last one recorded. -/
theorem lastChange_train (g : GreyCode τ) (t : τ) (ts : List (Nat × Bool)) :
    (g.train t ts).2.2.lastChange
      = ((g.train t ts).1.getLast?.map (·.time)).getD g.lastChange := by
  induction ts generalizing g t with
  | nil => rfl
  | cons target ts ih =>
    unfold train
    rw [ih, List.getLast?_cons]
    cases ((g.delay t).2.train (g.delay t).1 ts).1.getLast? <;> rfl

/-- A train ends with the time of its last change. -/
theorem last_train (g : GreyCode τ) (t : τ) (ts : List (Nat × Bool)) :
    (g.train t ts).2.1 = ((g.train t ts).1.getLast?.map (·.time)).getD t := by
  induction ts generalizing g t with
  | nil => rfl
  | cons target ts ih =>
    unfold train
    rw [ih, List.getLast?_cons]
    cases ((g.delay t).2.train (g.delay t).1 ts).1.getLast? <;> rfl

/-- A train that is not empty begins at the earliest time the group may change. -/
theorem head?_train (g : GreyCode τ) (t : τ) {ts : List (Nat × Bool)} {c : Transition τ}
    (h : c ∈ (g.train t ts).1.head?) : c.time = g.earliest t := by
  cases ts with
  | nil => cases h
  | cons target ts =>
    cases h
    rfl

end AnyTime

/-! ## How a train is spaced -/

section ExactTime

variable [AddCommGroup τ] [LinearOrder τ] [IsOrderedAddMonoid τ] {g : GreyCode τ}

/-- Right after a change the next one comes a spacing later. -/
theorem earliest_delay (hspacing : 0 ≤ g.spacing) (t : τ) :
    (g.delay t).2.earliest (g.delay t).1 = g.earliest t + g.spacing := by
  have hrecent : g.earliest t ≤ g.earliest t + g.spacing := le_add_of_nonneg_right hspacing
  exact if_pos hrecent

/-- Within a train every change comes exactly one spacing after the one before it. -/
theorem isChain_train (hspacing : 0 ≤ g.spacing) (t : τ) (ts : List (Nat × Bool)) :
    (g.train t ts).1.IsChain fun a b => b.time = a.time + g.spacing := by
  induction ts generalizing g t with
  | nil => exact .nil
  | cons target ts ih =>
    have hrest := ih (g := (g.delay t).2) hspacing (g.delay t).1
    unfold train
    -- The rest starts from the delayed group, one spacing later.
    refine List.isChain_cons.mpr ⟨fun c hc => ?_, hrest⟩
    rw [head?_train _ _ hc, earliest_delay hspacing]
    rfl

/-- A change comes at least `gap` after the last one exactly if it is requested at most
`spacing - gap` before it. -/
theorem add_le_earliest_iff {gap t : τ} (hgap : 0 ≤ gap) (hle : gap ≤ g.spacing) :
    g.lastChange + gap ≤ g.earliest t ↔ g.lastChange ≤ t + (g.spacing - gap) := by
  -- A request that is pushed back lands a spacing later, and then the gap is what is left of it.
  have hpushed : g.lastChange + gap ≤ t + g.spacing ↔ g.lastChange ≤ t + (g.spacing - gap) := by
    rw [← add_sub_assoc, le_sub_iff_add_le]
  unfold earliest
  split
  · exact hpushed
  · rename_i hlate
    -- Where nothing is pushed back, the request is late enough for any gap.
    have hlate : g.lastChange + g.spacing ≤ t := le_of_lt (not_le.mp hlate)
    have hfar : g.lastChange + gap ≤ t := le_trans (by gcongr) hlate
    refine iff_of_true hfar (hpushed.mp (le_trans hfar ?_))
    exact le_add_of_nonneg_right (le_trans hgap hle)

end ExactTime

end PulseTrain.GreyCode
