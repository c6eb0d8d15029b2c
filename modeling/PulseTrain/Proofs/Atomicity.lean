import PulseTrain.Proofs.Directories
import PulseTrain.Proofs.Requests

/-!
# Refused calls leave no trace

A refusal undoes nothing by itself. But every call to a sequencer or to a group looks first at all that
it can be refused for, and changes something only when it cannot be refused any more. So a call that is
refused leaves the state that it found.

* `Recorder.Atomic` says this of a request. `Recorder.Reads` are requests that only look, and
  `Recorder.Reads.bind_atomic` puts them before others.
* `Recorder.Traceless` is what follows for whatever is asked for next.
* `Sequencer.traceless_calls` is the result.
-/

namespace PulseTrain

namespace Recorder

variable {ρ σ ε α β : Type}

/-! ## Requests that change all or nothing -/

/-- A request that leaves the state as it is and no warning when it is refused. -/
def Atomic (r : Recorder σ ε α) : Prop :=
  ∀ s e, (r s).result = .error e → r s = ⟨.error e, s, []⟩

/-- A request that only looks. -/
def Reads (r : Recorder σ ε α) : Prop :=
  ∀ s, r s = ⟨(r s).result, s, []⟩

/-- An answer at hand needs no more than a look. -/
theorem reads_pure (a : α) : (pure a : Recorder σ ε α).Reads := fun _ => rfl

/-- A refusal changes nothing. -/
theorem reads_refuse (e : ε) : (refuse e : Recorder σ ε α).Reads := fun _ => rfl

theorem reads_ofExcept (x : Except ε α) : (ofExcept x : Recorder σ ε α).Reads := fun _ => rfl

theorem reads_current : (current : Recorder σ ε σ).Reads := fun _ => rfl

/-- What only looks leaves the state as it was, refused or not. -/
theorem Reads.atomic {r : Recorder σ ε α} (h : r.Reads) : r.Atomic := by
  intro s e he
  rw [h s, he]

/-- A request that is never refused has nothing to take back. -/
theorem atomic_of_ok {r : Recorder σ ε α} (h : ∀ s, ∃ a, (r s).result = .ok a) : r.Atomic := by
  intro s e he
  obtain ⟨a, ha⟩ := h s
  rw [ha] at he
  cases he

/-- A look after a look is a look. -/
theorem Reads.bind {r : Recorder σ ε α} (h : r.Reads) {next : α → Recorder σ ε β}
    (hnext : ∀ a, (next a).Reads) : (r >>= next).Reads := by
  intro s
  cases hr : (r s).result with
  | error e => rw [bind_of_error hr, h s]
  | ok a => rw [bind_of_ok hr, h s, hnext a s]; rfl

/-- Looking before does no harm. -/
theorem Reads.bind_atomic {r : Recorder σ ε α} (h : r.Reads) {next : α → Recorder σ ε β}
    (hnext : ∀ a, (next a).Atomic) : (r >>= next).Atomic := by
  intro s e he
  cases hr : (r s).result with
  -- Either the read fails, having changed nothing, or the next call starts from the state that was read.
  | error e' =>
    rw [bind_of_error hr, h s] at he ⊢
    cases he
    rfl
  | ok a =>
    rw [bind_of_ok hr, h s] at he ⊢
    rw [hnext a s e he]
    rfl

/-- To look again and again is to look. -/
theorem Reads.forM {γ : Type} {r : γ → Recorder σ ε Unit} (h : ∀ c, (r c).Reads) (cs : List γ) :
    (cs.forM r).Reads := by
  induction cs with
  | nil => exact reads_pure ()
  | cons c cs ih => exact (h c).bind fun _ => ih

/-- A request of which nothing is left when it is refused with `e`. -/
structure Traceless (r : Recorder σ ε α) : Prop where
  state_eq : ∀ s e, (r s).result = .error e → (r s).state = s
  warnings_eq : ∀ s e, (r s).result = .error e → (r s).warnings = []
  /-- Whatever is asked for next, with the refusal known, it does the same as without the request. -/
  retry : ∀ s e, (r s).result = .error e →
    ∀ {β : Type} (next : Except ε α → Recorder σ ε β), (r.attempt >>= next) s = next (.error e) s

/-- An atomic request leaves no trace of a refusal. -/
theorem Atomic.traceless {r : Recorder σ ε α} (h : r.Atomic) : r.Traceless where
  state_eq s e he := by rw [h s e he]
  warnings_eq s e he := by rw [h s e he]
  retry s e he β next := by
    -- An attempt at a call that fails gives the fault as a value, and nothing else happens.
    have hattempt : r.attempt s = ⟨.ok (.error e), s, []⟩ := by
      unfold attempt
      rw [h s e he]
    rw [bind_of_ok (congrArg Outcome.result hattempt), hattempt]
    rfl

end Recorder

/-! ## Grey-code groups -/

namespace GreyCode

open Recorder

variable {τ σ : Type}

/-- A profile is looked up without changing the group. -/
theorem reads_lookup (profile : String) :
    (lookup profile : Recorder (GreyCode τ × σ) Fault (List Bool)).Reads := by
  refine reads_current.bind fun ⟨g, _⟩ => ?_
  dsimp only
  cases g.profiles.find? profile with
  | none => exact reads_refuse _
  | some bits => exact reads_pure bits

variable [Add τ] [LE τ] [DecidableLE τ] [Sink τ σ]

/-- The width is checked before anything is recorded. -/
theorem atomic_write (targets : GreyCode τ → List (Nat × Bool)) (t : τ) (bits : List Bool) :
    (write targets t bits : Recorder (GreyCode τ × σ) Fault τ).Atomic := by
  refine reads_current.bind_atomic fun ⟨g, _⟩ => ?_
  dsimp only
  split
  · exact (reads_refuse _).atomic
  · exact atomic_of_ok fun _ => ⟨_, rfl⟩

/-- Bits of another width are refused before anything is changed. -/
theorem atomic_set (t : τ) (bits : List Bool) :
    (set t bits : Recorder (GreyCode τ × σ) Fault τ).Atomic :=
  atomic_write _ t bits

theorem atomic_force (t : τ) (bits : List Bool) :
    (force t bits : Recorder (GreyCode τ × σ) Fault τ).Atomic :=
  atomic_write _ t bits

theorem atomic_profile (t : τ) (name : String) :
    (profile t name : Recorder (GreyCode τ × σ) Fault τ).Atomic :=
  (reads_lookup name).bind_atomic (atomic_set t)

theorem atomic_forceProfile (t : τ) (name : String) :
    (forceProfile t name : Recorder (GreyCode τ × σ) Fault τ).Atomic :=
  (reads_lookup name).bind_atomic (atomic_force t)

end GreyCode

/-! ## Groups of either kind -/

/-- A switch is asked for one level, and refuses before it records. -/
theorem Switch.atomic_profile {σ : Type} [Sink Float σ] (s : Switch) (t : Float) (name : String) :
    (s.profile t name : Recorder σ Fault Float).Atomic := by
  unfold Switch.profile
  split
  · exact (Recorder.reads_refuse _).atomic
  -- A switch may leave a warning, but then it is not refused.
  · refine Recorder.atomic_of_ok fun _ => ?_
    dsimp only
    split <;> exact ⟨_, rfl⟩

namespace ChannelGroup

variable {σ : Type}

/-- A request to a group is atomic if it is for either kind. -/
theorem atomic_dispatch {onGreyCode : Recorder (GreyCode Float × σ) Fault Float}
    {onSwitch : Switch → Recorder σ Fault Float} (hgreyCode : onGreyCode.Atomic)
    (hswitch : ∀ s, (onSwitch s).Atomic) : (dispatch onGreyCode onSwitch).Atomic := by
  rintro ⟨group, sink⟩ e he
  cases group with
  | greyCode g =>
    unfold dispatch
    dsimp only
    rw [hgreyCode (g, sink) e he]
  | switch s =>
    unfold dispatch
    dsimp only
    rw [hswitch s sink e he]

variable [Sink Float σ]

/-- No group is changed by a profile that it does not have. -/
theorem atomic_profile (t : Float) (name : String) :
    (profile t name : Recorder (ChannelGroup × σ) Fault Float).Atomic :=
  atomic_dispatch (GreyCode.atomic_profile t name) fun s => s.atomic_profile t name

theorem atomic_force (t : Float) (name : String) :
    (force t name : Recorder (ChannelGroup × σ) Fault Float).Atomic :=
  atomic_dispatch (GreyCode.atomic_forceProfile t name) fun s => s.atomic_profile t name

end ChannelGroup

/-! ## The sequencer -/

namespace Sequencer

open Recorder

/-- A channel is looked at without changing anything. -/
theorem reads_checkChannel (channel : Nat) : (checkChannel channel).Reads := by
  refine reads_current.bind fun s => ?_
  split
  · exact reads_pure ()
  · exact reads_refuse _

/-- The name and all channels are checked before the group is entered. -/
theorem atomic_add (group : ChannelGroup) : (add group).Atomic := by
  refine reads_current.bind_atomic fun s => ?_
  split
  · exact (reads_refuse _).atomic
  · exact (Reads.forM reads_checkChannel _).bind_atomic fun _ => atomic_of_ok fun _ => ⟨_, rfl⟩

/-- A group that cannot be created or registered leaves everything alone. -/
theorem atomic_addGreyCode (name : String) (channels : List Nat)
    (profiles : Directory String (List Bool)) (t spacing : Float) :
    (addGreyCode name channels profiles t spacing).Atomic :=
  (reads_ofExcept _).bind_atomic fun _ => atomic_add _

theorem atomic_addSwitch (name : String) (channel : Nat) (profiles : Directory String Bool)
    (offset : Float) : (addSwitch name channel profiles offset).Atomic :=
  atomic_add _

/-- A group that a refused request leaves as it was is put back where it stood. -/
theorem atomic_onGroup {r : Recorder (ChannelGroup × Ledger) Fault Float} (h : r.Atomic)
    (name : String) : (onGroup name r).Atomic := by
  intro s e he
  unfold onGroup at he ⊢
  rw [current_bind] at he ⊢
  cases hfind : s.groups.find? name with
  | none =>
    simp only [hfind] at he ⊢
    exact (reads_refuse _).atomic s e he
  | some group =>
    simp only [hfind] at he ⊢
    -- The refused call hands the group back as it was, and so putting it back changes nothing.
    have hsame : r (group, s.ledger) = ⟨.error e, (group, s.ledger), []⟩ := h _ e he
    unfold within
    rw [hsame]
    simp only [Directory.insert_of_find? hfind]

/-- A group that is not registered, or does not have the profile, leaves everything alone. -/
theorem atomic_profile (group : String) (t : Float) (name : String) :
    (profile group t name).Atomic :=
  atomic_onGroup (ChannelGroup.atomic_profile t name) group

theorem atomic_force (group : String) (t : Float) (name : String) :
    (force group t name).Atomic :=
  atomic_onGroup (ChannelGroup.atomic_force t name) group

/-- A channel that the card does not have is refused before anything is recorded. -/
theorem atomic_raw (t : Float) (channel : Nat) (level : Bool) : (raw t channel level).Atomic :=
  (reads_checkChannel channel).bind_atomic fun _ => atomic_of_ok fun _ => ⟨_, rfl⟩

/-- An iteration that does not compile goes on. -/
theorem atomic_compile : compile.Atomic :=
  reads_current.bind_atomic fun _ =>
    (reads_ofExcept _).bind_atomic fun _ => atomic_of_ok fun _ => ⟨_, rfl⟩

theorem reads_artifact :
    (current >>= fun s => ofExcept s.artifact : Recorder Sequencer Fault Artifact).Reads :=
  reads_current.bind fun _ => reads_ofExcept _

theorem reads_signal :
    (current >>= fun s => ofExcept s.signal : Recorder Sequencer Fault Signal).Reads :=
  reads_current.bind fun _ => reads_ofExcept _

end Sequencer

/-! ## The result -/

/-- The calls to a grey-code group of its own, with any times and any sink. -/
structure GreyCode.Traceless (τ σ : Type) [Add τ] [LE τ] [DecidableLE τ] [Sink τ σ] : Prop where
  set : ∀ t bits, (GreyCode.set t bits : Recorder (GreyCode τ × σ) Fault τ).Traceless
  force : ∀ t bits, (GreyCode.force t bits : Recorder (GreyCode τ × σ) Fault τ).Traceless
  profile : ∀ t name, (GreyCode.profile t name : Recorder (GreyCode τ × σ) Fault τ).Traceless
  forceProfile : ∀ t name,
    (GreyCode.forceProfile t name : Recorder (GreyCode τ × σ) Fault τ).Traceless

namespace Sequencer

/-- The calls to a sequencer, repetitions apart. -/
structure Traceless : Prop where
  addGreyCode : ∀ name channels profiles t spacing,
    (addGreyCode name channels profiles t spacing).Traceless
  addSwitch : ∀ name channel profiles offset, (addSwitch name channel profiles offset).Traceless
  profile : ∀ group t name, (profile group t name).Traceless
  force : ∀ group t name, (force group t name).Traceless
  raw : ∀ t channel level, (raw t channel level).Traceless
  artifact : (Recorder.current >>= fun s => Recorder.ofExcept s.artifact :
    Recorder Sequencer Fault Artifact).Traceless
  compile : compile.Traceless
  signal : (Recorder.current >>= fun s => Recorder.ofExcept s.signal :
    Recorder Sequencer Fault Signal).Traceless

/-- **Refused calls leave no trace**, neither on a sequencer nor on a group with a sink of its own. -/
theorem traceless_calls :
    Traceless ∧ ∀ (τ σ : Type) [Add τ] [LE τ] [DecidableLE τ] [Sink τ σ],
      GreyCode.Traceless τ σ := by
  refine ⟨?_, fun τ σ _ _ _ _ => ?_⟩
  · exact {
      addGreyCode := fun name channels profiles t spacing =>
        (atomic_addGreyCode name channels profiles t spacing).traceless
      addSwitch := fun name channel profiles offset =>
        (atomic_addSwitch name channel profiles offset).traceless
      profile := fun group t name => (atomic_profile group t name).traceless
      force := fun group t name => (atomic_force group t name).traceless
      raw := fun t channel level => (atomic_raw t channel level).traceless
      artifact := reads_artifact.atomic.traceless
      compile := atomic_compile.traceless
      signal := reads_signal.atomic.traceless }
  · exact {
      set := fun t bits => (GreyCode.atomic_set t bits).traceless
      force := fun t bits => (GreyCode.atomic_force t bits).traceless
      profile := fun t name => (GreyCode.atomic_profile t name).traceless
      forceProfile := fun t name => (GreyCode.atomic_forceProfile t name).traceless }

end Sequencer

end PulseTrain
