import Mathlib.Algebra.Order.Group.Int
import PulseTrain.Proofs.Trains

/-!
# How far apart the changes of a group are

The changes of one call are one spacing apart. From one call to the next it depends: a change that
comes too soon is pushed back from the time it was requested for, and not from the last change. After a
long train, that is not far enough if the request lies within the train.

Times are exact here, and calls may be refused, or have nothing to change.

* `GreyCode.Call` is a request, and `GreyCode.session` what a list of them leads to.
* `GreyCode.Call.state_perform` says what one call adds: one train, perhaps an empty one.
* `GreyCode.isChain_emitted_iff` is the induction over the calls, for any gap up to the spacing.
* `GreyCode.spacing_session` is the result, and `GreyCode.not_spaced_returning` shows that requests in
  the order of their times are not enough.
-/

namespace PulseTrain.GreyCode

/-- A request to a grey-code group. -/
inductive Call (τ : Type) where
  | set (t : τ) (bits : List Bool)
  | force (t : τ) (bits : List Bool)
  | profile (t : τ) (name : String)
  | forceProfile (t : τ) (name : String)
deriving DecidableEq, Repr

def Call.time {τ : Type} : Call τ → τ
  | set t _ | force t _ | profile t _ | forceProfile t _ => t

section Sessions

variable {τ : Type} [Add τ] [LE τ] [DecidableLE τ]

/-- The request of a call, on a group and the changes recorded so far. -/
def Call.perform : Call τ → Recorder (GreyCode τ × List (Transition τ)) Fault τ
  | set t bits => GreyCode.set t bits
  | force t bits => GreyCode.force t bits
  | profile t name => GreyCode.profile t name
  | forceProfile t name => GreyCode.forceProfile t name

/-- The group after calls, and the changes that they recorded. -/
def session (g : GreyCode τ) (calls : List (Call τ)) : GreyCode τ × List (Transition τ) :=
  calls.foldl (fun s call => (call.perform s).state) (g, [])

/-- The changes that calls record. -/
def emitted (g : GreyCode τ) (calls : List (Call τ)) : List (Transition τ) :=
  (g.session calls).2

/-! ## What a call does -/

/-- Either way of writing adds one train; a refusal adds an empty one. -/
theorem state_write (targets : GreyCode τ → List (Nat × Bool)) (t : τ) (bits : List Bool)
    (g : GreyCode τ) (ts : List (Transition τ)) :
    ∃ made bits', (write targets t bits (g, ts)).state
      = ({ (g.train t made).2.2 with bits := bits' }, ts ++ (g.train t made).1) := by
  rw [write_eq]
  split
  · exact ⟨targets g, bits, rfl⟩
  · exact ⟨[], g.bits, by simp [train]⟩

theorem state_lookup_bind (next : List Bool → Recorder (GreyCode τ × List (Transition τ)) Fault τ)
    (t : τ) (g : GreyCode τ) (ts : List (Transition τ))
    (hnext : ∀ bits, ∃ made bits', (next bits (g, ts)).state
      = ({ (g.train t made).2.2 with bits := bits' }, ts ++ (g.train t made).1)) (name : String) :
    ∃ made bits', ((lookup name >>= next) (g, ts)).state
      = ({ (g.train t made).2.2 with bits := bits' }, ts ++ (g.train t made).1) := by
  -- Without the profile the call changes nothing, which is a train without targets.
  cases hfind : g.profiles.find? name with
  | none =>
    have hlookup := lookup_of_none hfind ts
    rw [Recorder.bind_of_error (congrArg Outcome.result hlookup), hlookup]
    exact ⟨[], g.bits, by simp [train]⟩
  | some bits =>
    have hlookup := lookup_of_some hfind ts
    rw [Recorder.bind_of_ok (congrArg Outcome.result hlookup), hlookup]
    exact hnext bits

/-- Every call to a group leaves a train of changes behind, from the time of the call. -/
theorem Call.state_perform (call : Call τ) (g : GreyCode τ) (ts : List (Transition τ)) :
    ∃ made bits, (call.perform (g, ts)).state
      = ({ (g.train call.time made).2.2 with bits }, ts ++ (g.train call.time made).1) := by
  cases call with
  | set t bits => exact state_write _ t bits g ts
  | force t bits => exact state_write _ t bits g ts
  | profile t name =>
    exact state_lookup_bind _ t g ts (fun bits => state_write _ t bits g ts) name
  | forceProfile t name =>
    exact state_lookup_bind _ t g ts (fun bits => state_write _ t bits g ts) name

/-! ## What calls do -/

/-- One call more adds one train of the group as it is by then. -/
theorem session_concat (g : GreyCode τ) (calls : List (Call τ)) (call : Call τ) :
    ∃ made bits, g.session (calls ++ [call])
      = ({ ((g.session calls).1.train call.time made).2.2 with bits },
          g.emitted calls ++ ((g.session calls).1.train call.time made).1) := by
  unfold emitted session
  rw [List.foldl_append]
  exact call.state_perform _ _

/-- Calls leave the spacing alone, and keep account of the last change. -/
theorem session_static (g : GreyCode τ) (calls : List (Call τ)) :
    (g.session calls).1.spacing = g.spacing
      ∧ (g.session calls).1.lastChange
          = ((g.emitted calls).getLast?.map (·.time)).getD g.lastChange := by
  -- From the last call backwards: a call that emits nothing leaves the last change where it was.
  induction calls using List.reverseRecOn with
  | nil => exact ⟨rfl, rfl⟩
  | append_singleton calls call ih =>
    obtain ⟨made, bits, hsession⟩ := g.session_concat calls call
    have hspacing := congrArg GreyCode.spacing (train_static (g.session calls).1 call.time made)
    have hlast := lastChange_train (g.session calls).1 call.time made
    have hemitted : g.emitted (calls ++ [call]) = _ := congrArg Prod.snd hsession
    rw [hemitted, hsession]
    refine ⟨hspacing.trans ih.1, hlast.trans ?_⟩
    rw [ih.2, List.getLast?_append]
    cases ((g.session calls).1.train call.time made).1.getLast? <;> rfl

end Sessions

/-! ## How far apart -/

section Gaps

variable {τ : Type} [AddCommGroup τ] [LinearOrder τ] {g : GreyCode τ} {calls : List (Call τ)}

/-- Of every call that records a change, the time is related to that of the change recorded last
before it. -/
def Follows (related : τ → τ → Prop) (g : GreyCode τ) (calls : List (Call τ)) : Prop :=
  ∀ before call after, calls = before ++ call :: after →
    g.emitted (before ++ [call]) ≠ g.emitted before →
      ∀ last ∈ (g.emitted before).getLast?, related last.time call.time

theorem follows_nil (related : τ → τ → Prop) : Follows related g [] := by
  intro before call after hcalls
  simp at hcalls

/-- A session follows when each call that emitted something was made late enough after the last change. -/
theorem follows_concat {related : τ → τ → Prop} {call : Call τ} :
    Follows related g (calls ++ [call])
      ↔ Follows related g calls
          ∧ (g.emitted (calls ++ [call]) ≠ g.emitted calls →
              ∀ last ∈ (g.emitted calls).getLast?, related last.time call.time) := by
  constructor
  · intro h
    refine ⟨fun before call' after hcalls => ?_, h calls call [] rfl⟩
    exact h before call' (after ++ [call]) (by simp [hcalls])
  · rintro ⟨hcalls, hcall⟩ before call' after heq
    -- The call in question is the one added, or it is one of those before.
    rcases List.eq_nil_or_concat after with rfl | ⟨after', last, rfl⟩
    · obtain ⟨rfl, rfl⟩ := List.append_singleton_inj.mp heq
      exact hcall
    · have heq' : calls ++ [call] = (before ++ call' :: after') ++ [last] := by simp [heq]
      obtain ⟨rfl, -⟩ := List.append_singleton_inj.mp heq'
      exact hcalls before call' after' rfl

variable [IsOrderedAddMonoid τ]

/-- Changes are `gap` apart exactly if no call that records one comes more than `spacing - gap` before
the last one. Induction on the calls, the last one taken off: within its train the gaps are right, so
what counts is the gap before the train. -/
theorem isChain_emitted_iff {gap : τ} (hgap : 0 ≤ gap) (hle : gap ≤ g.spacing)
    (calls : List (Call τ)) :
    (g.emitted calls).IsChain (fun a b => a.time + gap ≤ b.time)
      ↔ Follows (fun last t => last ≤ t + (g.spacing - gap)) g calls := by
  -- From the last call backwards, since its train comes at the end of all that was emitted.
  induction calls using List.reverseRecOn with
  | nil => exact iff_of_true .nil (follows_nil _)
  | append_singleton calls call ih =>
    obtain ⟨made, bits, hsession⟩ := g.session_concat calls call
    obtain ⟨hspacing, hlast⟩ := g.session_static calls
    have hemitted : g.emitted (calls ++ [call])
        = g.emitted calls ++ ((g.session calls).1.train call.time made).1 :=
      congrArg Prod.snd hsession
    -- Within a train, changes are a whole spacing apart.
    have htrain : ((g.session calls).1.train call.time made).1.IsChain
        fun a b => a.time + gap ≤ b.time := by
      refine (isChain_train (hspacing ▸ hgap.trans hle) call.time made).imp fun a b hab => ?_
      rw [hab, hspacing]
      gcongr
    rw [follows_concat, ← ih, hemitted, List.isChain_append, and_congr_right_iff]
    intro _
    cases hcut : ((g.session calls).1.train call.time made).1 with
    | nil => simp
    | cons first rest =>
      have hfirst : first.time = (g.session calls).1.earliest call.time :=
        head?_train _ _ (congrArg List.head? hcut)
      rw [hcut] at htrain
      simp only [htrain, true_and, ne_eq, List.append_right_eq_self, reduceCtorEq,
        not_false_eq_true, forall_const, List.head?_cons, Option.mem_some_iff, forall_eq']
      refine forall₂_congr fun last hmem => ?_
      -- The group remembers the last change, and from it decides when the train starts.
      have hchange : (g.session calls).1.lastChange = last.time := by
        rw [hlast, Option.mem_def.mp hmem]
        rfl
      rw [hfirst, ← hchange, ← hspacing]
      exact add_le_earliest_iff hgap (hspacing ▸ hle)

/-! ## The result -/

/-- How far apart the changes are that `calls` to `g` record. -/
structure Spacing (g : GreyCode τ) (calls : List (Call τ)) : Prop where
  /-- The changes of one call are exactly one spacing apart. -/
  within : ∀ before call after, calls = before ++ call :: after →
    ∃ changes, g.emitted (before ++ [call]) = g.emitted before ++ changes
      ∧ changes.IsChain fun a b => b.time = a.time + g.spacing
  /-- All changes are a spacing apart exactly if no call that records one is requested for a time
  before the last one. -/
  spaced_iff : (g.emitted calls).IsChain (fun a b => a.time + g.spacing ≤ b.time)
    ↔ Follows (fun last t => last ≤ t) g calls
  /-- They come in order exactly if no such call is requested more than a spacing before it. -/
  ordered_iff : (g.emitted calls).IsChain (fun a b => a.time ≤ b.time)
    ↔ Follows (fun last t => last ≤ t + g.spacing) g calls

/-- What one more call emits is a chain of its own, each change one spacing after the one before. -/
theorem isChain_of_emitted_concat (hspacing : 0 ≤ g.spacing) (calls : List (Call τ))
    (call : Call τ) :
    ∃ changes, g.emitted (calls ++ [call]) = g.emitted calls ++ changes
      ∧ changes.IsChain fun a b => b.time = a.time + g.spacing := by
  obtain ⟨made, bits, hsession⟩ := g.session_concat calls call
  refine ⟨_, congrArg Prod.snd hsession, ?_⟩
  have hsame := (g.session_static calls).1
  rw [← hsame] at hspacing ⊢
  exact isChain_train hspacing call.time made

/-- **Spacing of a group's changes.** Calls in any order, of any times, carried out or refused. -/
theorem spacing_session (g : GreyCode τ) (hspacing : 0 ≤ g.spacing) (calls : List (Call τ)) :
    Spacing g calls where
  within before call _ _ := isChain_of_emitted_concat hspacing before call
  spaced_iff := by simpa using isChain_emitted_iff hspacing (le_refl g.spacing) calls
  ordered_iff := by simpa using isChain_emitted_iff (le_refl 0) hspacing calls

end Gaps

/-! ## A request within a train -/

/-- A group of three channels, whose changes are one unit of time apart. -/
def tripled : GreyCode ℤ where
  name := "g"
  channels := [0, 1, 2]
  profiles := Directory.ofList [("a", [false, false, false]), ("b", [true, true, true])]
  bits := [false, false, false]
  lastChange := 0
  initialTime := 0
  spacing := 1

/-- There and back again, both requested for the same time. -/
def returning : List (Call ℤ) :=
  [.profile 10 "b", .profile 10 "a"]

example : (tripled.emitted returning).map (·.time) = [10, 11, 12, 11, 12, 13] := by decide +kernel

theorem spacing_returning : 0 ≤ tripled.spacing ∧ Spacing tripled returning :=
  ⟨by decide, spacing_session tripled (by decide) returning⟩

/-- So requests in the order of their times do not keep the changes apart, nor even in order. -/
theorem not_spaced_returning :
    create tripled.name tripled.channels tripled.profiles tripled.initialTime tripled.spacing
        = .ok tripled
      ∧ 0 ≤ tripled.spacing ∧ returning.IsChain (fun a b => a.time ≤ b.time)
      ∧ ¬ (tripled.emitted returning).IsChain (fun a b => a.time + tripled.spacing ≤ b.time)
      ∧ ¬ (tripled.emitted returning).IsChain (fun a b => a.time ≤ b.time) := by
  exact ⟨by decide +kernel, by decide, by decide, by decide +kernel, by decide +kernel⟩

end PulseTrain.GreyCode
