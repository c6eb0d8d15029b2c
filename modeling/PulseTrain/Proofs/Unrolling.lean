import PulseTrain.Console.Calls
import PulseTrain.Proofs.Overlap
import PulseTrain.Proofs.Requests
import PulseTrain.Proofs.Waits

/-!
# Repetitions and plain calls

A run of repetitions records what its calls record one after the other, and marks the run on the ledger
unless something is marked there already. The mark is all that it adds, and it changes nothing about
what is compiled.

* `Recorder.Calls` is a chain of calls that all go through, with the times at which they end.
* `Ledger.marked` is a ledger after the mark, as a function of what the plain calls leave.
* `Recorder.Unrolled` says that a run has come to its plain calls and the mark, and
  `Recorder.unrolled_of_calls` proves it of any state with a ledger in it.
* `Recorder.unrolled_markRepeat` is the result, for a ledger, a sequencer, and calls from outside.
-/

namespace PulseTrain

open HasLedger

/-! ## The mark -/

/-- The ledger with a run of calls marked that end at `ends`, from `start` and the entry `firstEntry`
on. No mark is made for no call, and none beside another that starts at the same time. -/
def Ledger.marked (card : Card) (start : Float) (ends : List Float) (firstEntry : Nat)
    (l : Ledger) : Ledger :=
  match ends with
  | [] => l
  | first :: _ =>
    if l.regions.any (·.start == start) then l
    else
      let mark : Region := {
        start
        period := first - start
        stop := ends.getLastD start
        repeats := ends.length
        firstEntry
        endEntry := l.length
        cycles := cycleCount (card.samples (first - start)) }
      { l with regions := l.regions ++ [mark] }

namespace Ledger

variable (card : Card) (start : Float) (ends : List Float) (firstEntry : Nat) (l : Ledger)

theorem transitions_marked : (l.marked card start ends firstEntry).transitions = l.transitions := by
  unfold marked
  cases ends with
  | nil => rfl
  | cons first later =>
    dsimp only
    split <;> rfl

theorem regions_marked :
    ∃ more, (l.marked card start ends firstEntry).regions = l.regions ++ more := by
  unfold marked
  cases ends with
  | nil => exact ⟨[], (List.append_nil _).symm⟩
  | cons first later =>
    dsimp only
    split
    · exact ⟨[], (List.append_nil _).symm⟩
    · exact ⟨_, rfl⟩

/-- Registering a region adds it to the ledger, or refuses it and changes nothing. -/
theorem state_register {ε : Type} (span : Span) :
    (register (ε := ε) card span l).state
      = if l.regions.any (·.start == span.start) then l
        else { l with regions := l.regions ++ [regionOf card span] } := by
  split
  · rename_i h
    rw [register_of_known h]
  · rename_i h
    rw [register_of_new h]

/-- Putting a run on record marks it. -/
theorem state_register_spanOf {ε : Type} (first : Float) (later : List Float) :
    (register (ε := ε) card (Recorder.spanOf start first ((first :: later).getLastD start)
        (first :: later).length firstEntry l.length) l).state
      = l.marked card start (first :: later) firstEntry :=
  state_register card l _

/-- A mark that the check passes changes nothing about what is compiled. -/
theorem ofLedger_marked {c : Card}
    (h : Region.check (l.marked card start ends firstEntry).regions = .ok ()) :
    Artifact.ofLedger c (l.marked card start ends firstEntry) = Artifact.ofLedger c l := by
  have hplain : Region.check l.regions = .ok () := by
    obtain ⟨more, hmore⟩ := regions_marked card start ends firstEntry l
    rw [hmore] at h
    exact Region.check_of_append h
  unfold Artifact.ofLedger
  rw [h, hplain, transitions_marked]

end Ledger

namespace Recorder

variable {σ ε : Type}

/-! ## Plain calls -/

/-- Calls of `period`, each from the end of the one before, that all go through: from time `t`, state
`s` and repetition number `number` on, they end at `ends` and leave the last state. -/
inductive Calls (period : Nat → Float → Recorder σ ε Float) :
    (number : Nat) → (t : Float) → (ends : List Float) → σ → σ → Prop where
  | nil (number : Nat) (t : Float) (s : σ) : Calls period number t [] s s
  | cons {number : Nat} {t stop : Float} {ends : List Float} {s s' : σ}
      (hcall : (period number t s).result = .ok stop)
      (hrest : Calls period (number + 1) stop ends (period number t s).state s') :
      Calls period number t (stop :: ends) s s'

/-- A run of calls is what the chain of a repetition makes, one after another. -/
theorem Calls.chain {period : Nat → Float → Recorder σ ε Float} {number : Nat} {t : Float}
    {ends : List Float} {s s' : σ} (h : Calls period number t ends s s') :
    (Recorder.chain period ends.length number t s).result = .ok (ends.getLastD t)
      ∧ (Recorder.chain period ends.length number t s).state = s' := by
  induction h with
  | nil number t s => exact ⟨rfl, rfl⟩
  | @cons number t stop ends s s' hcall hrest ih =>
    rw [List.length_cons, chain_succ_of_ok hcall]
    refine ⟨?_, ih.2⟩
    rw [ih.1]
    cases ends <;> rfl

/-! ## A run of repetitions -/

/-- The outcome `o` of a run on the state `s` is what its plain calls leave, which is `plain`, with the
run marked. -/
structure Unrolled [HasLedger σ] (card : Card) (start : Float) (ends : List Float) (s plain : σ)
    (o : Outcome σ ε Float) : Prop where
  /-- The run ends with its last call. -/
  result : o.result = .ok (ends.getLastD start)
  /-- Nothing but the ledger is other than after the plain calls. -/
  elsewhere : o.state = setLedger plain (ledger o.state)
  ledger_eq : ledger o.state = (ledger plain).marked card start ends (ledger s).length
  /-- Without repetitions nothing is changed. -/
  unchanged : ends = [] → o.state = s
  /-- If its marks are accepted, the ledger compiles to what the plain calls would compile to. This takes
  start times that are not numbers to come last, as `Binary64.totalKey` puts them. One that is sorted first
  for its sign bit could keep a region of the plain ledger apart from its neighbour. If all start times are
  numbers, or the regions of the plain ledger are accepted too, then nothing depends on it. -/
  compiled : ∀ c, Region.check (ledger o.state).regions = .ok () →
    Artifact.ofLedger c (ledger o.state) = Artifact.ofLedger c (ledger plain)

/-- The ledger after a run is a function of the card, the times and the ledgers. -/
theorem Unrolled.agree {σ' ε' : Type} [HasLedger σ] [HasLedger σ'] {card : Card} {start : Float}
    {ends : List Float} {s plain : σ} {t plain' : σ'} {o : Outcome σ ε Float}
    {o' : Outcome σ' ε' Float} (h : Unrolled card start ends s plain o)
    (h' : Unrolled card start ends t plain' o') (hbefore : ledger t = ledger s)
    (hafter : ledger plain' = ledger plain) : ledger o'.state = ledger o.state := by
  rw [h.ledger_eq, h'.ledger_eq, hbefore, hafter]

/-- A repetition of calls leaves the state of the calls, with the region they make up marked on it. -/
theorem state_markRepeat_of_calls [HasLedger σ] (card : Card) {start first : Float}
    {later : List Float} {period : Nat → Float → Recorder σ ε Float} {s plain : σ}
    (h : Calls period 0 start (first :: later) s plain) :
    (markRepeat card start (first :: later).length period s).state
      = setLedger plain ((ledger plain).marked card start (first :: later) (ledger s).length) := by
  -- The chain makes the calls that were made by hand, and so leaves their state.
  obtain ⟨hresult, hstate⟩ := h.chain
  have hpos : 0 < (first :: later).length := Nat.succ_pos later.length
  obtain ⟨first', hfirst', heq⟩ := markRepeat_of_ok card hpos hresult
  have hfirst : first' = first := by
    cases h with
    | cons hcall _ => exact Except.ok.inj (hfirst'.symm.trans hcall)
  subst hfirst
  -- What happens after the calls happens to the ledger alone.
  have hregister := Ledger.state_register_spanOf (ε := ε) card start (ledger s).length
    (ledger plain) first' later
  rw [heq, ← hregister]
  simp only [hstate]
  rfl

/-- A repetition of calls that succeed is the calls made by hand, up to the mark it leaves. -/
theorem unrolled_of_calls [HasLedger σ] [LawfulHasLedger σ]
    (hsame : ∀ s : σ, setLedger s (ledger s) = s) (card : Card) {start : Float} {ends : List Float}
    {period : Nat → Float → Recorder σ ε Float} {s plain : σ}
    (h : Calls period 0 start ends s plain) :
    Unrolled card start ends s plain (markRepeat card start ends.length period s) := by
  cases ends with
  | nil =>
    -- No repetitions make no calls.
    cases h
    exact ⟨rfl, (hsame s).symm, rfl, fun _ => rfl, fun c _ => rfl⟩
  | cons first later =>
    have hstate := state_markRepeat_of_calls card h
    have hledger := congrArg ledger hstate
    rw [LawfulHasLedger.ledger_setLedger] at hledger
    refine ⟨(result_markRepeat card start _ s).trans h.chain.1, ?_, hledger, nofun, fun c hc => ?_⟩
    · rw [hledger, hstate]
    · rw [hledger] at hc ⊢
      exact Ledger.ofLedger_marked card start _ _ _ hc

end Recorder

/-! ## Ledgers, sequencers and calls from outside -/

theorem Sequencer.unrolled_of_calls {ε : Type} {start : Float} {ends : List Float}
    {period : Nat → Float → Recorder Sequencer ε Float} {s plain : Sequencer}
    (h : Recorder.Calls period 0 start ends s plain) :
    Recorder.Unrolled s.card start ends s plain (markRepeat start ends.length period s) :=
  Recorder.unrolled_of_calls (fun _ => rfl) s.card h

/-- Marking a region touches no group. -/
theorem Sequencer.groups_of_unrolled {ε : Type} {card : Card} {start : Float} {ends : List Float}
    {s plain : Sequencer} {o : Outcome Sequencer ε Float}
    (h : Recorder.Unrolled card start ends s plain o) : o.state.groups = plain.groups := by
  rw [h.elsewhere]
  rfl

theorem Console.reading_of_ok {α β : Type} {argument : Except Refusal α} {a : α}
    (h : argument = .ok a) (call : α → Call β) : reading argument call = call a := by
  subst h
  exact pure_bind a call

theorem Console.unrolled_of_calls {start : Float} {ends : List Float} {repeats : Scalar}
    {period : Nat → Float → Call Float} {s plain : Sequencer}
    (hrepeats : repeats.count = .ok ends.length)
    (h : Recorder.Calls period 0 start ends s plain) :
    Recorder.Unrolled s.card start ends s plain (markRepeat start repeats period s) := by
  unfold markRepeat
  rw [reading_of_ok hrepeats]
  exact Sequencer.unrolled_of_calls h

namespace Recorder

/-- **A repetition is its plain calls and a mark.** This holds of any period whose calls go through, on
a ledger, on a sequencer and from outside. So where calls end at the same times and leave the same
ledger, the three of them do. -/
theorem unrolled_markRepeat :
    (∀ {ε : Type} (card : Card) (start : Float) (ends : List Float)
        (period : Nat → Float → Recorder Ledger ε Float) (l plain : Ledger),
      Calls period 0 start ends l plain →
        Unrolled card start ends l plain (markRepeat card start ends.length period l))
    ∧ (∀ {ε : Type} (start : Float) (ends : List Float)
        (period : Nat → Float → Recorder Sequencer ε Float) (s plain : Sequencer),
      Calls period 0 start ends s plain →
        Unrolled s.card start ends s plain (Sequencer.markRepeat start ends.length period s)
          ∧ (Sequencer.markRepeat start ends.length period s).state.groups = plain.groups)
    ∧ (∀ (start : Float) (ends : List Float) (repeats : Console.Scalar)
        (period : Nat → Float → Console.Call Float) (s plain : Sequencer),
      repeats.count = .ok ends.length → Calls period 0 start ends s plain →
        Unrolled s.card start ends s plain (Console.markRepeat start repeats period s)
          ∧ (Console.markRepeat start repeats period s).state.groups = plain.groups)
    ∧ ∀ {ε ε' : Type} (start : Float) (ends : List Float) (repeats : Console.Scalar)
        (onLedger : Nat → Float → Recorder Ledger ε Float)
        (onSequencer : Nat → Float → Recorder Sequencer ε' Float)
        (fromOutside : Nat → Float → Console.Call Float) (s t plain plain' : Sequencer),
      repeats.count = .ok ends.length → t.card = s.card → t.ledger = s.ledger →
      plain'.ledger = plain.ledger → Calls onLedger 0 start ends s.ledger plain.ledger →
      Calls onSequencer 0 start ends s plain → Calls fromOutside 0 start ends t plain' →
        (markRepeat s.card start ends.length onLedger s.ledger).state
            = (Sequencer.markRepeat start ends.length onSequencer s).state.ledger
          ∧ (Console.markRepeat start repeats fromOutside t).state.ledger
            = (Sequencer.markRepeat start ends.length onSequencer s).state.ledger := by
  -- Ledger, sequencer and console run the same repetition; the last part compares what they leave.
  refine ⟨?_, ?_, ?_, ?_⟩
  · intro ε card start ends period l plain h
    exact unrolled_of_calls (fun _ => rfl) card h
  · intro ε start ends period s plain h
    have hrun := Sequencer.unrolled_of_calls h
    exact ⟨hrun, Sequencer.groups_of_unrolled hrun⟩
  · intro start ends repeats period s plain hrepeats h
    have hrun := Console.unrolled_of_calls hrepeats h
    exact ⟨hrun, Sequencer.groups_of_unrolled hrun⟩
  · intro ε ε' start ends repeats onLedger onSequencer fromOutside s t plain plain' hrepeats hcard
      hbefore hafter hl hs ht
    have hledger := unrolled_of_calls (fun _ => rfl) s.card hl
    have hsequencer := Sequencer.unrolled_of_calls hs
    have houtside := Console.unrolled_of_calls hrepeats ht
    rw [hcard] at houtside
    exact ⟨hsequencer.agree hledger rfl rfl, hsequencer.agree houtside hbefore hafter⟩

/-! ## Two pulses

One period, recorded twice on an empty ledger in each of the three ways. -/

/-- A pulse on channel `0`, and the time one unit later. -/
def pulse (_ : Nat) (t : Float) : Recorder Sequencer Fault Float := do
  let _ ← Sequencer.raw t 0 true
  pure (t + 1)

def barePulse (_ : Nat) (t : Float) : Recorder Ledger Fault Float := do
  let _ ← Ledger.raw t 0 true
  pure (t + 1)

/-- The ledger after two pulses that nothing marks. -/
def twoPulses : Ledger where
  transitions := [⟨0, 0, true⟩, ⟨1, 0, true⟩]

/-- A sequencer with nothing recorded. -/
def idle : Sequencer where
  card := Card.paired

/-- The same sequencer after two pulses that nothing marks. -/
def pulsed : Sequencer where
  card := Card.paired
  ledger := twoPulses

theorem calls_barePulse : Calls barePulse 0 0 [1, 2] {} twoPulses :=
  .cons (by decide +kernel) (.cons (by decide +kernel) (.nil _ _ _))

theorem calls_pulse : Calls pulse 0 0 [1, 2] idle pulsed :=
  .cons (by decide +kernel) (.cons (by decide +kernel) (.nil _ _ _))

theorem calls_submit_pulse : Calls (fun n t => Console.submit (pulse n t)) 0 0 [1, 2] idle pulsed :=
  .cons (by decide +kernel) (.cons (by decide +kernel) (.nil _ _ _))

theorem unrolled_pulses :
    (Calls barePulse 0 0 [1, 2] {} twoPulses
      ∧ Unrolled Card.paired 0 [1, 2] {} twoPulses (markRepeat Card.paired 0 2 barePulse {}))
    ∧ (Calls pulse 0 0 [1, 2] idle pulsed
      ∧ Unrolled Card.paired 0 [1, 2] idle pulsed (Sequencer.markRepeat 0 2 pulse idle))
    ∧ ((Console.Scalar.int 2).count = .ok 2
      ∧ Unrolled Card.paired 0 [1, 2] idle pulsed
          (Console.markRepeat 0 (.int 2) (fun n t => Console.submit (pulse n t)) idle))
    ∧ (markRepeat Card.paired 0 2 barePulse {}).state
        = (Sequencer.markRepeat 0 2 pulse idle).state.ledger := by
  have hcount : (Console.Scalar.int 2).count = .ok 2 := by decide +kernel
  obtain ⟨onLedger, onSequencer, fromOutside, agreement⟩ := unrolled_markRepeat
  refine ⟨⟨calls_barePulse, ?_⟩, ⟨calls_pulse, ?_⟩, ⟨hcount, ?_⟩, ?_⟩
  · exact onLedger Card.paired 0 [1, 2] barePulse {} twoPulses calls_barePulse
  · exact (onSequencer 0 [1, 2] pulse idle pulsed calls_pulse).1
  · exact (fromOutside 0 [1, 2] (.int 2) _ idle pulsed hcount calls_submit_pulse).1
  · exact (agreement 0 [1, 2] (.int 2) barePulse pulse _ idle idle pulsed pulsed hcount rfl rfl rfl
      calls_barePulse calls_pulse calls_submit_pulse).1

end Recorder

end PulseTrain
