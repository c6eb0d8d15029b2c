import PulseTrain.Ledger.Repeat

/-!
# What a repetition does

`Recorder.markRepeat` in terms of the plain chain of its calls. Later proofs cite these lemmas and
never open the definition.

* `Recorder.bind_of_ok` and `Recorder.bind_of_error` take one request after another.
* `Ledger.register_of_known` and `Ledger.register_of_new` are all that putting a run on record can
  do.
* `Recorder.markRepeat_zero`, `Recorder.markRepeat_of_error` and `Recorder.markRepeat_of_ok` are all
  that a repetition can do.
* `Recorder.rel_markRepeat` takes what every call preserves to the repetition, and
  `Recorder.view_markRepeat` what has nothing to do with the ledger.
-/

namespace PulseTrain

open HasLedger

/-- The ledger that is put into a state is the one found there. -/
class LawfulHasLedger (σ : Type) [HasLedger σ] : Prop where
  ledger_setLedger : ∀ (s : σ) (l : Ledger), ledger (setLedger s l) = l

instance : LawfulHasLedger Ledger where
  ledger_setLedger _ _ := rfl

namespace Recorder

variable {σ ε α β : Type}

/-! ## One request after another -/

/-- After a request that was answered comes the next. -/
theorem bind_of_ok {r : Recorder σ ε α} {s : σ} {a : α} (h : (r s).result = .ok a)
    (next : α → Recorder σ ε β) :
    (r >>= next) s = ⟨(next a (r s).state).result, (next a (r s).state).state,
      (r s).warnings ++ (next a (r s).state).warnings⟩ := by
  show Recorder.bind r next s = _
  unfold Recorder.bind
  simp only [h]

/-- After a refusal comes nothing. -/
theorem bind_of_error {r : Recorder σ ε α} {s : σ} {e : ε} (h : (r s).result = .error e)
    (next : α → Recorder σ ε β) :
    (r >>= next) s = ⟨.error e, (r s).state, (r s).warnings⟩ := by
  show Recorder.bind r next s = _
  unfold Recorder.bind
  simp only [h]

theorem current_bind (next : σ → Recorder σ ε β) (s : σ) : (current >>= next) s = next s s := rfl

theorem ofExcept_bind_ok (a : α) (next : α → Recorder σ ε β) :
    (ofExcept (.ok a) >>= next) = next a := rfl

theorem ofExcept_bind_error (e : ε) (next : α → Recorder σ ε β) :
    (ofExcept (.error e) >>= next) = refuse e := rfl

theorem onRefusal_of_ok {r : Recorder σ ε α} {s : σ} {a : α} (h : (r s).result = .ok a)
    (undo : σ → σ) : onRefusal undo r s = r s := by
  unfold onRefusal
  simp only [h]

theorem onRefusal_of_error {r : Recorder σ ε α} {s : σ} {e : ε} (h : (r s).result = .error e)
    (undo : σ → σ) : onRefusal undo r s = ⟨.error e, undo (r s).state, (r s).warnings⟩ := by
  unfold onRefusal
  simp only [h]

end Recorder

/-! ## Putting a run on record -/

namespace Ledger

variable {ε : Type} {card : Card} {span : Span} {l : Ledger}

/-- The region that a run becomes. -/
def regionOf (card : Card) (span : Span) : Region :=
  { span with cycles := cycleCount (card.samples span.period) }

/-- What is remarked on the period of a run. -/
def remarks (card : Card) (span : Span) : List Warning :=
  (if Binary64.isNearWhole (card.samples span.period) then []
    else [.fractionalPeriod span.start span.period (card.samples span.period)])
  ++ if cycleCount (card.samples span.period) < card.stableWait then
      [.shortPeriod span.start (cycleCount (card.samples span.period)) card.stableWait]
    else []

/-- A start that is known already is not registered again. -/
theorem register_of_known (h : l.regions.any (·.start == span.start)) :
    (register card span : Recorder Ledger ε _) l = ⟨.ok none, l, []⟩ := by
  unfold register
  rw [Recorder.bind_of_ok (a := l) rfl, if_pos h]
  rfl

/-- A new start is registered after all others. -/
theorem register_of_new (h : ¬ l.regions.any (·.start == span.start)) :
    (register card span : Recorder Ledger ε _) l =
      ⟨.ok (some (regionOf card span)), { l with regions := l.regions ++ [regionOf card span] },
        remarks card span⟩ := by
  unfold register remarks
  rw [Recorder.bind_of_ok (a := l) rfl, if_neg h]
  -- Either remark may be made or not; what is put on record does not depend on it.
  by_cases hshort : cycleCount (card.samples span.period) < card.stableWait
  · cases Binary64.isNearWhole (card.samples span.period) <;> simp only [hshort] <;> rfl
  · cases Binary64.isNearWhole (card.samples span.period) <;> simp only [hshort] <;> rfl

/-- Registering is never refused. -/
theorem register_result (card : Card) (span : Span) (l : Ledger) :
    ∃ region, ((register card span : Recorder Ledger ε _) l).result = .ok region := by
  by_cases h : l.regions.any (·.start == span.start)
  · exact ⟨none, by rw [register_of_known h]⟩
  · exact ⟨some _, by rw [register_of_new h]⟩

end Ledger

/-! ## The chain of calls -/

namespace Recorder

variable {ρ σ ε : Type} {period : Nat → Float → Recorder σ ε Float}

/-- After a call that was answered comes the next, at the time that it returned. -/
theorem chain_succ_of_ok {count number : Nat} {t stop : Float} {s : σ}
    (h : (period number t s).result = .ok stop) :
    chain period (count + 1) number t s =
      let rest := chain period count (number + 1) stop (period number t s).state
      ⟨rest.result, rest.state, (period number t s).warnings ++ rest.warnings⟩ :=
  bind_of_ok h _

/-- After a call that was refused comes none. -/
theorem chain_succ_of_error {count number : Nat} {t : Float} {s : σ} {e : ε}
    (h : (period number t s).result = .error e) :
    chain period (count + 1) number t s
      = ⟨.error e, (period number t s).state, (period number t s).warnings⟩ :=
  bind_of_error h _

/-- What every call preserves, all calls preserve. -/
theorem rel_chain {R : σ → σ → Prop} (hrefl : ∀ s, R s s)
    (htrans : ∀ s₁ s₂ s₃, R s₁ s₂ → R s₂ s₃ → R s₁ s₃)
    (hperiod : ∀ n t s, R s (period n t s).state) (count number : Nat) (t : Float) (s : σ) :
    R s (chain period count number t s).state := by
  -- By induction on the calls still to be made; a refusal ends the chain.
  induction count generalizing number t s with
  | zero => exact hrefl s
  | succ count ih =>
    cases h : (period number t s).result with
    | error e =>
      rw [chain_succ_of_error h]
      exact hperiod number t s
    | ok stop =>
      rw [chain_succ_of_ok h]
      exact htrans _ _ _ (hperiod number t s) (ih (number + 1) stop _)

/-- The requests of a chain of calls, when `made` are those of one call. -/
def chainRequests (period : Nat → Float → Recorder σ ε Float)
    (made : Nat → Float → σ → List ρ) : (count number : Nat) → Float → σ → List ρ
  | 0, _, _, _ => []
  | count + 1, number, t, s =>
    made number t s ++
      match (period number t s).result with
      | .error _ => []
      | .ok stop => chainRequests period made count (number + 1) stop (period number t s).state

/-- Calls have something to show if one of them does, and then it does not matter what they show. -/
theorem exists_mem_chainRequests_iff {ρ' : Type} (period : Nat → Float → Recorder σ ε Float)
    {made : Nat → Float → σ → List ρ} {made' : Nat → Float → σ → List ρ'} {p : ρ → Prop}
    (h : ∀ n t s, (∃ r ∈ made n t s, p r) ↔ made' n t s ≠ []) (count number : Nat) (t : Float)
    (s : σ) :
    (∃ r ∈ chainRequests period made count number t s, p r)
      ↔ chainRequests period made' count number t s ≠ [] := by
  induction count generalizing number t s with
  | zero => simp [chainRequests]
  | succ count ih =>
    unfold chainRequests
    cases (period number t s).result with
    | error e => simpa using h number t s
    | ok stop =>
      have hrest := ih (number + 1) stop (period number t s).state
      have hcall := h number t s
      simp only [List.mem_append, or_and_right, exists_or, ne_eq, List.append_eq_nil_iff,
        Classical.not_and_iff_not_or_not]
      exact or_congr hcall hrest

/-- If a call does to a view of the state what its requests do, then so do all calls. -/
theorem view_chain {γ : Type} (get : σ → γ) (step : γ → ρ → γ)
    {period : Nat → Float → Recorder σ ε Float} {made : Nat → Float → σ → List ρ}
    (hperiod : ∀ n t s, get (period n t s).state = (made n t s).foldl step (get s))
    (count number : Nat) (t : Float) (s : σ) :
    get (chain period count number t s).state
      = (chainRequests period made count number t s).foldl step (get s) := by
  induction count generalizing number t s with
  | zero => rfl
  -- The calls of a chain are folded over in the order they are made.
  | succ count ih =>
    unfold chainRequests
    rw [List.foldl_append, ← hperiod]
    cases h : (period number t s).result with
    | error e =>
      rw [chain_succ_of_error h]
      rfl
    | ok stop =>
      rw [chain_succ_of_ok h]
      exact ih (number + 1) stop _

/-- The calls of `more + 1` repetitions, with the end of the first and of the last as the result. -/
def endpoints (period : Nat → Float → Recorder σ ε Float) (start : Float) (more : Nat) :
    Recorder σ ε (Float × Float) := do
  let first ← period 0 start
  let stop ← chain period more 1 first
  pure (first, stop)

/-- The detour over the pair changes nothing. -/
theorem endpoints_of_error {start : Float} {more : Nat} {s : σ} {e : ε}
    (h : (chain period (more + 1) 0 start s).result = .error e) :
    endpoints period start more s
      = ⟨.error e, (chain period (more + 1) 0 start s).state,
          (chain period (more + 1) 0 start s).warnings⟩ := by
  unfold endpoints
  -- The refusal comes from the first call or from one of the others, and is handed on either way.
  cases hfirst : (period 0 start s).result with
  | error e' =>
    rw [chain_succ_of_error hfirst] at h ⊢
    rw [bind_of_error hfirst]
    cases h
    rfl
  | ok first =>
    rw [chain_succ_of_ok hfirst] at h ⊢
    rw [bind_of_ok hfirst, bind_of_error h]

/-- The first and the last of the end times are those of the calls. -/
theorem endpoints_of_ok {start : Float} {more : Nat} {s : σ} {stop : Float}
    (h : (chain period (more + 1) 0 start s).result = .ok stop) :
    ∃ first, (period 0 start s).result = .ok first
      ∧ endpoints period start more s
          = ⟨.ok (first, stop), (chain period (more + 1) 0 start s).state,
              (chain period (more + 1) 0 start s).warnings⟩ := by
  unfold endpoints
  cases hfirst : (period 0 start s).result with
  | error e =>
    rw [chain_succ_of_error hfirst] at h
    cases h
  | ok first =>
    refine ⟨first, rfl, ?_⟩
    rw [chain_succ_of_ok hfirst] at h ⊢
    rw [bind_of_ok hfirst, bind_of_ok h]
    simp [Pure.pure, Recorder.pure]

/-! ## Repetitions in terms of the chain -/

variable [HasLedger σ] {start : Float} {repeats : Nat} {s : σ}

theorem ledgerLength_bind {α : Type} (next : Nat → Recorder σ ε α) (s : σ) :
    (ledgerLength >>= next) s = next (ledger s).length s := rfl

theorem markRepeat_zero (card : Card) (start : Float) (s : σ) :
    markRepeat card start 0 period s = ⟨.ok start, s, [.emptyRepeat start]⟩ := rfl

/-- A run as it is measured, over the ledger's entries from `before` up to `after`. -/
def spanOf (start first stop : Float) (repeats before after : Nat) : Span where
  start := start
  period := first - start
  stop := stop
  repeats := repeats
  firstEntry := before
  endEntry := after

/-- What is noted of the repetitions, once all of them went through. -/
def noteRepeat (card : Card) (start first stop : Float) (repeats before : Nat) :
    Recorder σ ε Float := do
  let after ← ledgerLength
  let _ ← onLedger (Ledger.register card (spanOf start first stop repeats before after))
  pure stop

/-- Noting a repetition registers its region and returns its end. It warns of what is odd about it. -/
theorem noteRepeat_eq (card : Card) (start first stop : Float) (repeats before : Nat) (s : σ) :
    (noteRepeat card start first stop repeats before : Recorder σ ε Float) s =
      let noted := onLedger (ε := ε) (Ledger.register card
        (spanOf start first stop repeats before (ledger s).length)) s
      ⟨.ok stop, noted.state, noted.warnings⟩ := by
  unfold noteRepeat
  rw [ledgerLength_bind]
  -- Nothing is refused here: a run that is known already is just not noted again.
  obtain ⟨region, hregion⟩ := Ledger.register_result (ε := ε) card
    (spanOf start first stop repeats before (ledger s).length) (ledger s)
  have hnoted : (onLedger (ε := ε) (Ledger.register card
    (spanOf start first stop repeats before (ledger s).length)) s).result = .ok region := hregion
  rw [bind_of_ok hnoted]
  simp [Pure.pure, Recorder.pure]

/-- A repetition makes its calls, undoes them if one is refused, and notes them if not. -/
theorem markRepeat_succ (card : Card) (start : Float) (more : Nat) (s : σ) :
    markRepeat card start (more + 1) period s =
      (onRefusal (fun s' => setLedger s' ((ledger s').truncate (ledger s).length))
          (endpoints period start more) >>= fun (first, stop) =>
        noteRepeat card start first stop (more + 1) (ledger s).length) s :=
  ledgerLength_bind _ s

/-- A refusal leaves what the calls left, except that the ledger is cut off at its old length. -/
theorem markRepeat_of_error {card : Card} {e : ε}
    (h : (chain period repeats 0 start s).result = .error e) :
    markRepeat card start repeats period s =
      let run := chain period repeats 0 start s
      ⟨.error e, setLedger run.state ((ledger run.state).truncate (ledger s).length),
        run.warnings⟩ := by
  cases repeats with
  | zero => cases h
  | succ more =>
    -- The calls are refused, so what is to be undone is undone, and nothing is noted.
    have hends := endpoints_of_error h
    have hundone := onRefusal_of_error (congrArg Outcome.result hends)
      fun s' : σ => setLedger s' ((ledger s').truncate (ledger s).length)
    rw [markRepeat_succ, bind_of_error (congrArg Outcome.result hundone), hundone, hends]

/-- Otherwise it leaves what the calls left, and the whole run on record. -/
theorem markRepeat_of_ok (card : Card) {stop : Float} (hpos : 0 < repeats)
    (h : (chain period repeats 0 start s).result = .ok stop) :
    ∃ first, (period 0 start s).result = .ok first
      ∧ markRepeat card start repeats period s =
        let run := chain period repeats 0 start s
        let noted := onLedger (ε := ε) (Ledger.register card
          (spanOf start first stop repeats (ledger s).length (ledger run.state).length)) run.state
        ⟨.ok stop, noted.state, run.warnings ++ noted.warnings⟩ := by
  cases repeats with
  | zero => cases hpos
  | succ more =>
    -- The calls go through, so nothing is undone, and the run is noted where they have led.
    obtain ⟨first, hfirst, hends⟩ := endpoints_of_ok h
    have hkept := onRefusal_of_ok (congrArg Outcome.result hends)
      fun s' : σ => setLedger s' ((ledger s').truncate (ledger s).length)
    refine ⟨first, hfirst, ?_⟩
    rw [markRepeat_succ, bind_of_ok (congrArg Outcome.result (hkept.trans hends)), hkept, hends]
    simp only [noteRepeat_eq]

/-- What every call preserves, and noting and cutting off the ledger too, a repetition preserves. -/
theorem rel_markRepeat {R : σ → σ → Prop} (hrefl : ∀ s, R s s)
    (htrans : ∀ s₁ s₂ s₃, R s₁ s₂ → R s₂ s₃ → R s₁ s₃)
    (hregister : ∀ (card : Card) (span : Span) (s₁ s₂ : σ), R s₁ s₂ →
      span.firstEntry = (ledger s₁).length → span.endEntry = (ledger s₂).length →
      R s₂ (onLedger (ε := ε) (Ledger.register card span) s₂).state)
    (htruncate : ∀ s₁ s₂, R s₁ s₂ →
      R s₁ (setLedger s₂ ((ledger s₂).truncate (ledger s₁).length)))
    (hperiod : ∀ n t s, R s (period n t s).state) (card : Card) (start : Float) (repeats : Nat)
    (s : σ) : R s (markRepeat card start repeats period s).state := by
  -- Whatever the calls do stands in the relation, and so does what is done after them.
  have hrun := rel_chain hrefl htrans hperiod repeats 0 start s
  cases h : (chain period repeats 0 start s).result with
  | error e =>
    rw [markRepeat_of_error h]
    exact htruncate _ _ hrun
  | ok stop =>
    rcases Nat.eq_zero_or_pos repeats with rfl | hpos
    · rw [markRepeat_zero]
      exact hrefl s
    · obtain ⟨first, -, heq⟩ := markRepeat_of_ok card hpos h
      rw [heq]
      exact htrans _ _ _ hrun (hregister card _ _ _ hrun rfl rfl)

/-- Apart from the ledger, a repetition leaves what the plain calls leave. -/
theorem view_markRepeat {γ : Type} (get : σ → γ) (hledger : ∀ s l, get (setLedger s l) = get s)
    (card : Card) (start : Float) (repeats : Nat) (s : σ) :
    get (markRepeat card start repeats period s).state
      = get (chain period repeats 0 start s).state := by
  -- Neither a region on the ledger nor a truncation of it shows in `get`.
  cases h : (chain period repeats 0 start s).result with
  | error e =>
    rw [markRepeat_of_error h]
    exact hledger _ _
  | ok stop =>
    rcases Nat.eq_zero_or_pos repeats with rfl | hpos
    · rfl
    · obtain ⟨first, -, heq⟩ := markRepeat_of_ok card hpos h
      rw [heq]
      exact hledger _ _

/-- A repetition is refused exactly if its calls are, and for the same reason. -/
theorem result_markRepeat (card : Card) (start : Float) (repeats : Nat) (s : σ) :
    (markRepeat card start repeats period s).result
      = (chain period repeats 0 start s).result := by
  cases h : (chain period repeats 0 start s).result with
  | error e => rw [markRepeat_of_error h]
  | ok stop =>
    rcases Nat.eq_zero_or_pos repeats with rfl | hpos
    · exact h
    · obtain ⟨first, -, heq⟩ := markRepeat_of_ok card hpos h
      rw [heq]

end Recorder

end PulseTrain
