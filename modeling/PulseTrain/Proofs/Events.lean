import PulseTrain.Proofs.Routines

/-!
# The events of a routine

Whatever a routine does to the state, written down as a list: the requests that it makes, refused or
not, and how each of its repetitions ends. Every state on the way is the one after some of these
events, the states inside of repetitions too.

* `Event.after` is what an event does to a state, and `Event.afterAll` what events do.
* `Routine.events` lists the events of a routine.
* `Routine.state_record` says that nothing else happens: a routine leaves the state after its
  events.
* `Routine.undone_mem_conclusion_iff` reads off the end of a repetition whether it was refused, and
  `Routine.exists_undone_iff` off the events of a routine whether any was.
* `Event.afterAll_of_after` takes what every event preserves to all of them.
-/

namespace PulseTrain

open HasLedger

/-- What happens to the state while a routine runs: a request is made; a run of repetitions is put
on record; a repetition is refused, and the ledger cut off. -/
inductive Event (ρ : Type) where
  | made (r : ρ)
  | noted (card : Card) (span : Span)
  | undone (length : Nat)
deriving DecidableEq

namespace Event

variable {ρ σ ε : Type} [HasLedger σ] {perform : ρ → Recorder σ ε Float}

/-- The state after an event. -/
def after (perform : ρ → Recorder σ ε Float) (s : σ) : Event ρ → σ
  | made r => (perform r s).state
  | noted card span => (Recorder.onLedger (ε := ε) (Ledger.register card span) s).state
  | undone length => setLedger s ((ledger s).truncate length)

/-- The state after events, one by one. -/
def afterAll (perform : ρ → Recorder σ ε Float) (s : σ) (es : List (Event ρ)) : σ :=
  es.foldl (after perform) s

@[simp] theorem afterAll_cons (s : σ) (e : Event ρ) (es : List (Event ρ)) :
    afterAll perform s (e :: es) = afterAll perform (after perform s e) es := rfl

/-- What every event preserves holds after any number of them. -/
theorem afterAll_of_after {P : σ → Prop} (hafter : ∀ e s, P s → P (after perform s e)) {s : σ}
    (hs : P s) (es : List (Event ρ)) : P (afterAll perform s es) := by
  induction es generalizing s with
  | nil => exact hs
  | cons e es ih => exact ih (hafter e s hs)

end Event

namespace Routine

variable {ρ σ ε : Type} [HasLedger σ] {perform : ρ → Recorder σ ε Float}

/-! ## The end of a repetition -/

/-- How repetitions that began in the state `s` end: with the run on record, or with the ledger as
long as it was. Without repetitions there is nothing to end. -/
def conclusion (card : Card) (start : Float) (repeats : Nat)
    (period : Nat → Float → Recorder σ ε Float) (s : σ) : List (Event ρ) :=
  match repeats with
  | 0 => []
  | more + 1 =>
    let calls := Recorder.endpoints period start more s
    match calls.result with
    | .error _ => [.undone (ledger s).length]
    | .ok (first, stop) =>
      [.noted card (Recorder.spanOf start first stop (more + 1) (ledger s).length
        (ledger calls.state).length)]

section Conclusion

variable {start : Float} {repeats : Nat} {period : Nat → Float → Recorder σ ε Float} {s : σ}

/-- A run of calls that is refused ends with the ledger as long as it was. -/
theorem conclusion_of_error (card : Card) {e : ε}
    (h : (Recorder.chain period repeats 0 start s).result = .error e) :
    conclusion (ρ := ρ) card start repeats period s = [.undone (ledger s).length] := by
  cases repeats with
  | zero => cases h
  | succ more => simp only [conclusion, Recorder.endpoints_of_error h]

/-- A run of calls that is carried out ends with its mark, which knows where the first call ended. -/
theorem conclusion_of_ok (card : Card) {stop : Float} (hpos : 0 < repeats)
    (h : (Recorder.chain period repeats 0 start s).result = .ok stop) :
    ∃ first, (period 0 start s).result = .ok first
      ∧ conclusion (ρ := ρ) card start repeats period s
        = [.noted card (Recorder.spanOf start first stop repeats (ledger s).length
            (ledger (Recorder.chain period repeats 0 start s).state).length)] := by
  cases repeats with
  | zero => cases hpos
  | succ more =>
    obtain ⟨first, hfirst, hends⟩ := Recorder.endpoints_of_ok h
    exact ⟨first, hfirst, by simp only [conclusion, hends]⟩

/-- A repetition leaves what its calls leave, after its conclusion. -/
theorem state_markRepeat (perform : ρ → Recorder σ ε Float) (card : Card) (start : Float)
    (repeats : Nat) (period : Nat → Float → Recorder σ ε Float) (s : σ) :
    (Recorder.markRepeat card start repeats period s).state
      = Event.afterAll perform (Recorder.chain period repeats 0 start s).state
          (conclusion card start repeats period s) := by
  -- A refusal undoes the repetition, no repetitions at all do nothing, and otherwise the region is
  -- registered.
  cases h : (Recorder.chain period repeats 0 start s).result with
  | error e =>
    rw [Recorder.markRepeat_of_error h, conclusion_of_error card h]
    rfl
  | ok stop =>
    rcases Nat.eq_zero_or_pos repeats with rfl | hpos
    · rfl
    · obtain ⟨first, hfirst, heq⟩ := Recorder.markRepeat_of_ok card hpos h
      obtain ⟨first', hfirst', hends⟩ := conclusion_of_ok (ρ := ρ) card hpos h
      obtain rfl : first' = first := Except.ok.inj (hfirst'.symm.trans hfirst)
      rw [heq, hends]
      rfl

/-- The ledger is cut off in the end exactly if the repetition was refused. -/
theorem undone_mem_conclusion_iff {card : Card} :
    (∃ length, .undone length ∈ conclusion (ρ := ρ) card start repeats period s)
      ↔ ∃ e, (Recorder.markRepeat card start repeats period s).result = .error e := by
  rw [Recorder.result_markRepeat]
  cases h : (Recorder.chain period repeats 0 start s).result with
  | error e => simp [conclusion_of_error card h]
  | ok stop =>
    rcases Nat.eq_zero_or_pos repeats with rfl | hpos
    · simp [conclusion]
    · obtain ⟨first, -, hends⟩ := conclusion_of_ok (ρ := ρ) card hpos h
      simp [hends]

end Conclusion

/-! ## All events -/

/-- The events of a routine, in order. Those in a repetition come before its conclusion. -/
def events (perform : ρ → Recorder σ ε Float) : Routine ρ σ ε → σ → List (Event ρ)
  | finish _, _ => []
  | look next, s => (next s).events perform s
  | request r next, s =>
    .made r :: (next (perform r s).result).events perform (perform r s).state
  | repeated card start repeats period next, s =>
    let calls := fun n t => (period n t).record perform
    let o := repeating card start repeats calls s
    Recorder.chainRequests calls (fun n t => (period n t).events perform) repeats 0 start s
      ++ conclusion (card s) start repeats calls s
      ++ (next o.result).events perform o.state

/-- Nothing else happens: a routine leaves the state after its events. -/
theorem state_record (b : Routine ρ σ ε) (s : σ) :
    (b.record perform s).state = Event.afterAll perform s (b.events perform s) := by
  induction b generalizing s with
  | finish answer => rfl
  | look next ih => exact ih s s
  | request r next ih => exact ih _ _
  | repeated card start repeats period next ihperiod ih =>
    unfold events Event.afterAll
    -- First the calls, of which `ihperiod` speaks, and then the conclusion.
    have hcalls := Recorder.view_chain (fun s => s) (Event.after perform) ihperiod repeats 0 start s
    rw [List.foldl_append, List.foldl_append, ← hcalls]
    have hconclusion := state_markRepeat perform (card s) start repeats
      (fun n t => (period n t).record perform) s
    unfold Event.afterAll at hconclusion
    rw [← hconclusion]
    exact ih _ _

/-! ## Refused repetitions -/

/-- The faults of the repetitions that are refused, in the order in which they end. -/
def refusals (perform : ρ → Recorder σ ε Float) : Routine ρ σ ε → σ → List ε
  | finish _, _ => []
  | look next, s => (next s).refusals perform s
  | request r next, s => (next (perform r s).result).refusals perform (perform r s).state
  | repeated card start repeats period next, s =>
    let calls := fun n t => (period n t).record perform
    let o := repeating card start repeats calls s
    Recorder.chainRequests calls (fun n t => (period n t).refusals perform) repeats 0 start s
      ++ (match o.result with
        | .error e => [e]
        | .ok _ => [])
      ++ (next o.result).refusals perform o.state

/-- Something is undone exactly if a repetition is refused. -/
theorem exists_undone_iff (b : Routine ρ σ ε) (s : σ) :
    (∃ e ∈ b.events perform s, ∃ length, e = .undone length) ↔ b.refusals perform s ≠ [] := by
  induction b generalizing s with
  | finish answer => simp [events, refusals]
  | look next ih => exact ih s s
  | request r next ih => simpa [events, refusals] using ih _ _
  | repeated card start repeats period next ihperiod ih =>
    have hcalls := Recorder.exists_mem_chainRequests_iff (fun n t => (period n t).record perform)
      ihperiod repeats 0 start s
    have hrest := ih (repeating card start repeats (fun n t => (period n t).record perform) s).result
      (repeating card start repeats (fun n t => (period n t).record perform) s).state
    -- The conclusion undoes the repetition exactly when it is refused.
    have hend : (∃ e ∈ conclusion (ρ := ρ) (card s) start repeats
          (fun n t => (period n t).record perform) s, ∃ length, e = .undone length)
        ↔ ∃ e, (repeating card start repeats
            (fun n t => (period n t).record perform) s).result = .error e := by
      rw [repeating, ← undone_mem_conclusion_iff (ρ := ρ)]
      exact ⟨fun ⟨_, he, length, h⟩ => ⟨length, h ▸ he⟩, fun ⟨length, he⟩ => ⟨_, he, length, rfl⟩⟩
    unfold events refusals
    simp only [List.mem_append, or_and_right, exists_or, ne_eq, List.append_eq_nil_iff,
      Classical.not_and_iff_not_or_not]
    refine or_congr (or_congr hcalls (hend.trans ?_)) hrest
    cases (repeating card start repeats (fun n t => (period n t).record perform) s).result <;> simp

end Routine

end PulseTrain
