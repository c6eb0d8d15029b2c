import PulseTrain.Proofs.Repetition

/-!
# Routines

A period is a function of its caller's, and may do anything with the requests it makes: look at the
state, go on after a refusal, repeat other periods. A `Routine` is such a function written down as a
tree, so that what holds of every period is proved by induction on it.

* `Routine.record` is the request that a routine makes.
* `Routine.requests` lists the requests that it makes on the way.
* `Routine.rel_record` takes what every request preserves to every routine.
* `Routine.view_record` says that all but the ledger follows the requests that were made.
-/

namespace PulseTrain

open HasLedger

/-- The same request, with a refusal handed on as an answer. -/
def Recorder.attempt {σ ε α : Type} (r : Recorder σ ε α) : Recorder σ ε (Except ε α) := fun s =>
  ⟨.ok (r s).result, (r s).state, (r s).warnings⟩

/-! ## Routines -/

/-- What a period does, from request to request. `ρ` are the requests there are, each of them
answered by a time or refused; `repeated` repeats another period on the card that the state has. -/
inductive Routine (ρ σ ε : Type) where
  | finish (answer : Except ε Float)
  | look (next : σ → Routine ρ σ ε)
  | request (r : ρ) (next : Except ε Float → Routine ρ σ ε)
  | repeated (card : σ → Card) (start : Float) (repeats : Nat)
      (period : Nat → Float → Routine ρ σ ε) (next : Except ε Float → Routine ρ σ ε)

namespace Routine

variable {ρ σ ε : Type} [HasLedger σ] {perform : ρ → Recorder σ ε Float}

/-- Repetitions on the card of the state. -/
def repeating (card : σ → Card) (start : Float) (repeats : Nat)
    (period : Nat → Float → Recorder σ ε Float) : Recorder σ ε Float := fun s =>
  Recorder.markRepeat (card s) start repeats period s

/-- The request that a routine makes, with `perform` for each of its own. -/
def record (perform : ρ → Recorder σ ε Float) : Routine ρ σ ε → Recorder σ ε Float
  | finish answer => Recorder.ofExcept answer
  | look next => fun s => (next s).record perform s
  | request r next => (perform r).attempt >>= fun answer => (next answer).record perform
  | repeated card start repeats period next =>
    (repeating card start repeats fun n t => (period n t).record perform).attempt >>= fun answer =>
      (next answer).record perform

/-- A reflexive and transitive relation that every call and every repetition respects holds between a state
and the one a whole routine leaves. -/
theorem rel_record {R : σ → σ → Prop} (hrefl : ∀ s, R s s)
    (htrans : ∀ s₁ s₂ s₃, R s₁ s₂ → R s₂ s₃ → R s₁ s₃)
    (hperform : ∀ r s, R s (perform r s).state)
    (hrepeat : ∀ card start repeats (period : Nat → Float → Recorder σ ε Float) s,
      (∀ n t s, R s (period n t s).state) →
        R s (Recorder.markRepeat card start repeats period s).state)
    (b : Routine ρ σ ε) (s : σ) : R s (b.record perform s).state := by
  induction b generalizing s with
  | finish answer => exact hrefl s
  | look next ih => exact ih s s
  | request r next ih => exact htrans _ _ _ (hperform r s) (ih _ _)
  | repeated card start repeats period next ihperiod ih =>
    -- Every call is a routine of its own, which `ihperiod` speaks of.
    exact htrans _ _ _ (hrepeat (card s) start repeats _ s ihperiod) (ih _ _)

/-! ## The requests that a routine makes -/

/-- The requests that a routine makes, in order. Those that are refused or taken back are among
them. -/
def requests (perform : ρ → Recorder σ ε Float) : Routine ρ σ ε → σ → List ρ
  | finish _, _ => []
  | look next, s => (next s).requests perform s
  | request r next, s => r :: (next (perform r s).result).requests perform (perform r s).state
  | repeated card start repeats period next, s =>
    let o := repeating card start repeats (fun n t => (period n t).record perform) s
    Recorder.chainRequests (fun n t => (period n t).record perform)
        (fun n t => (period n t).requests perform) repeats 0 start s
      ++ (next o.result).requests perform o.state

/-- The requests of `repeats` repetitions, up to a refusal. -/
def repeatRequests (perform : ρ → Recorder σ ε Float) (period : Nat → Float → Routine ρ σ ε)
    (repeats : Nat) (start : Float) (s : σ) : List ρ :=
  Recorder.chainRequests (fun n t => (period n t).record perform)
    (fun n t => (period n t).requests perform) repeats 0 start s

variable {γ : Type} {get : σ → γ} {step : γ → ρ → γ}

/-- What is not on the ledger follows the requests that are made, and nothing takes it back. -/
theorem view_record (hledger : ∀ s l, get (setLedger s l) = get s)
    (hperform : ∀ r s, get (perform r s).state = step (get s) r) (b : Routine ρ σ ε) (s : σ) :
    get (b.record perform s).state = (b.requests perform s).foldl step (get s) := by
  induction b generalizing s with
  | finish answer => rfl
  | look next ih => exact ih s s
  | request r next ih =>
    unfold requests
    rw [List.foldl_cons, ← hperform]
    exact ih _ _
  | repeated card start repeats period next ihperiod ih =>
    unfold requests
    -- `ihperiod` says of every call what `Recorder.view_chain` asks for.
    rw [List.foldl_append, ← Recorder.view_chain get step ihperiod,
      ← Recorder.view_markRepeat get hledger (card s)]
    exact ih _ _

end Routine

end PulseTrain
