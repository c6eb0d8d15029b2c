import PulseTrain.Proofs.Requests
import PulseTrain.Proofs.Waits

/-!
# What a refused repetition leaves on the ledger

A refused repetition cuts the ledger off at the length that it found. That takes back every
transition. It does not take back every region: one that was put on record when nothing was recorded
yet ends where the ledger was found to end, and looks like one from before.

* `Ledger.Bounded` is what recording keeps up, and `Ledger.Extends` what it does to a ledger.
* `Ledger.RolledBack` says what is left, and when that is what was there.
* `Recorder.rolledBack_markRepeat` is the result for any state with a ledger in it.
-/

namespace PulseTrain

open HasLedger

namespace Ledger

variable {a b c l : Ledger}

/-- No region ends beyond the last transition. -/
def Bounded (l : Ledger) : Prop :=
  ∀ r ∈ l.regions, r.endEntry ≤ l.length

/-- `b` has what `a` has, then more transitions, and more regions that end among those. -/
structure Extends (a b : Ledger) : Prop where
  transitions : a.transitions <+: b.transitions
  regions : ∃ rs, b.regions = a.regions ++ rs
    ∧ ∀ r ∈ rs, a.length ≤ r.endEntry ∧ r.endEntry ≤ b.length

namespace Extends

theorem length_le (h : Extends a b) : a.length ≤ b.length :=
  h.transitions.length_le

theorem refl (l : Ledger) : Extends l l where
  transitions := List.prefix_refl _
  regions := ⟨[], (List.append_nil _).symm, by simp⟩

theorem trans (hab : Extends a b) (hbc : Extends b c) : Extends a c := by
  obtain ⟨rs, hrs, hends⟩ := hab.regions
  obtain ⟨rs', hrs', hends'⟩ := hbc.regions
  -- The regions of `b` came after those of `a`, and those of `c` after both.
  refine ⟨hab.transitions.trans hbc.transitions, rs ++ rs', ?_, ?_⟩
  · rw [hrs', hrs, List.append_assoc]
  · intro r hr
    have hfirst := hab.length_le
    have hsecond := hbc.length_le
    rcases List.mem_append.mp hr with hr | hr
    · obtain ⟨hlower, hupper⟩ := hends r hr
      omega
    · obtain ⟨hlower, hupper⟩ := hends' r hr
      omega

/-- Extending a ledger keeps it bounded: the regions that are new end inside the new transitions. -/
theorem bounded (h : Extends a b) (ha : a.Bounded) : b.Bounded := by
  obtain ⟨rs, hrs, hends⟩ := h.regions
  intro r hr
  rw [hrs] at hr
  rcases List.mem_append.mp hr with hr | hr
  · exact Nat.le_trans (ha r hr) h.length_le
  · exact (hends r hr).2

theorem append (l : Ledger) (ts : List (Transition Float)) : Extends l (l.append ts) where
  transitions := List.prefix_append _ _
  regions := ⟨[], (List.append_nil _).symm, by simp⟩

/-- Registering a region that ends at the last entry extends the ledger, whether or not the span is valid.
-/
theorem register {ε : Type} (card : Card) {span : Span} (hend : span.endEntry = l.length) :
    Extends l ((Ledger.register card span : Recorder Ledger ε _) l).state := by
  by_cases h : l.regions.any (·.start == span.start)
  · rw [register_of_known h]
    exact refl l
  · rw [register_of_new h]
    refine ⟨List.prefix_refl _, [regionOf card span], rfl, ?_⟩
    intro r hr
    rw [List.mem_singleton] at hr
    subst hr
    exact ⟨Nat.le_of_eq hend.symm, Nat.le_of_eq hend⟩

/-- Cut off at its old length, a ledger has its old transitions, its old regions, and those new ones
that end right there. -/
theorem truncate_eq (h : Extends a b) (ha : a.Bounded) :
    b.truncate a.length
      = { transitions := a.transitions
          regions := a.regions
            ++ (b.regions.drop a.regions.length).filter fun r => r.endEntry = a.length } := by
  obtain ⟨rs, hrs, hends⟩ := h.regions
  have htransitions : b.transitions.take a.length = a.transitions :=
    (List.prefix_iff_eq_take.mp h.transitions).symm
  -- No old region ends beyond the old length, and no new one before it.
  have hold : a.regions.filter (fun r => r.endEntry ≤ a.length) = a.regions :=
    List.filter_eq_self.mpr fun r hr => by simpa using ha r hr
  have hnew : rs.filter (fun r => r.endEntry ≤ a.length)
      = rs.filter fun r => r.endEntry = a.length := by
    refine List.filter_congr fun r hr => ?_
    have hlower := (hends r hr).1
    rw [decide_eq_decide]
    omega
  unfold truncate
  rw [htransitions, hrs, List.filter_append, hold, hnew, List.drop_left]

/-- Cutting an extension back to the length it started from extends the same ledger still: what is left over
is regions alone. -/
theorem truncate (h : Extends a b) (ha : a.Bounded) : Extends a (b.truncate a.length) := by
  rw [h.truncate_eq ha]
  refine ⟨List.prefix_refl _, _, rfl, ?_⟩
  intro r hr
  have hend : r.endEntry = a.length := by simpa using (List.mem_filter.mp hr).2
  exact ⟨Nat.le_of_eq hend.symm, Nat.le_of_eq hend⟩

end Extends

/-- The ledger `after` a refused repetition that found `before`, and whose calls left `run`. -/
structure RolledBack (before run after : Ledger) : Prop where
  /-- Nothing from before was dropped while the calls were made. -/
  extends_run : Extends before run
  transitions_eq : after.transitions = before.transitions
  regions_eq : after.regions = before.regions
    ++ (run.regions.drop before.regions.length).filter fun r => r.endEntry = before.length
  /-- The ledger is as before exactly if no region was put on record before the first transition. -/
  eq_iff : after = before ↔
    ∀ r ∈ run.regions.drop before.regions.length, before.length < r.endEntry

/-- What a truncation leaves of an extension is what a refused repetition leaves of the ledger it started
from. -/
theorem Extends.rolledBack (h : Extends a b) (ha : a.Bounded) :
    RolledBack a b (b.truncate a.length) := by
  have heq := h.truncate_eq ha
  refine ⟨h, by rw [heq], by rw [heq], ?_⟩
  obtain ⟨rs, hrs, hends⟩ := h.regions
  rw [heq, hrs, List.drop_left]
  constructor
  · intro hsame r hr
    -- Regions are only ever added at the end, so if none shows there is none.
    have hnone : rs.filter (fun r => r.endEntry = a.length) = [] := by
      have := congrArg Ledger.regions hsame
      simpa using this
    have hnot := List.filter_eq_nil_iff.mp hnone r hr
    have hlower := (hends r hr).1
    rw [decide_eq_true_eq] at hnot
    omega
  · intro hbeyond
    -- If every new region ends beyond the cut, none of them is left.
    have hnone : rs.filter (fun r => r.endEntry = a.length) = [] := by
      refine List.filter_eq_nil_iff.mpr fun r hr => ?_
      have := hbeyond r hr
      rw [decide_eq_true_eq]
      omega
    rw [hnone, List.append_nil]

end Ledger

/-! ## Every period extends the ledger -/

namespace Routine

variable {ρ σ ε : Type} [HasLedger σ] [LawfulHasLedger σ] {perform : ρ → Recorder σ ε Float}

/-- What a period does to a ledger whose regions end in it. -/
def Extending (s s' : σ) : Prop :=
  (ledger s).Bounded → (ledger s).Extends (ledger s')

omit [LawfulHasLedger σ] in
theorem Extending.refl (s : σ) : Extending s s :=
  fun _ => Ledger.Extends.refl _

omit [LawfulHasLedger σ] in
theorem Extending.trans (s₁ s₂ s₃ : σ) (h₁ : Extending s₁ s₂) (h₂ : Extending s₂ s₃) :
    Extending s₁ s₃ :=
  fun hb => (h₁ hb).trans (h₂ ((h₁ hb).bounded hb))

/-- A repetition inside a period may be refused and cut the ledger off, but at a length that was
reached after the period began. -/
theorem extending_record
    (hperform : ∀ r s, (ledger s).Extends (ledger (perform r s).state)) (b : Routine ρ σ ε) (s : σ) :
    Extending s (b.record perform s).state := by
  refine rel_record Extending.refl Extending.trans (fun r s _ => hperform r s) ?_ b s
  -- Calls extend by assumption; a repetition registers or truncates, and does nothing else to the ledger.
  intro card start repeats period s hperiod
  refine Recorder.rel_markRepeat Extending.refl Extending.trans ?_ ?_ hperiod card start repeats s
  · intro card span s₁ s₂ _ _ hend _
    show (ledger s₂).Extends (ledger (setLedger s₂ _))
    rw [LawfulHasLedger.ledger_setLedger]
    exact Ledger.Extends.register card hend
  · intro s₁ s₂ h hb
    rw [LawfulHasLedger.ledger_setLedger]
    exact (h hb).truncate hb

/-- A period only ever records more transitions, whatever regions there are. -/
theorem prefix_record
    (hperform : ∀ r s, (ledger s).transitions <+: (ledger (perform r s).state).transitions)
    (b : Routine ρ σ ε) (s : σ) :
    (ledger s).transitions <+: (ledger (b.record perform s).state).transitions := by
  refine rel_record (R := fun s s' => (ledger s).transitions <+: (ledger s').transitions)
    (fun s => List.prefix_refl _) (fun _ _ _ => List.IsPrefix.trans) hperform ?_ b s
  intro card start repeats period s hperiod
  refine Recorder.rel_markRepeat
    (R := fun s s' => (ledger s).transitions <+: (ledger s').transitions)
    (fun s => List.prefix_refl _) (fun _ _ _ => List.IsPrefix.trans) ?_ ?_ hperiod card start
    repeats s
  · intro card span s₁ s₂ _ _ hend
    show _ <+: (ledger (setLedger s₂ _)).transitions
    rw [LawfulHasLedger.ledger_setLedger]
    exact (Ledger.Extends.register card hend).transitions
  · intro s₁ s₂ h
    rw [LawfulHasLedger.ledger_setLedger]
    -- The calls have only added to `s₁`, so the cut falls behind all that was there.
    exact List.prefix_take_iff.mpr ⟨h, Nat.le_refl _⟩

/-- What a refused repetition leaves on the ledger of any state. -/
theorem rolledBack_markRepeat
    (hperform : ∀ r s, (ledger s).Extends (ledger (perform r s).state)) (card : Card)
    (start : Float) (repeats : Nat) (period : Nat → Float → Routine ρ σ ε) {s : σ}
    (hb : (ledger s).Bounded) {e : ε}
    (h : (Recorder.markRepeat card start repeats (fun n t => (period n t).record perform)
      s).result = .error e) :
    Ledger.RolledBack (ledger s)
      (ledger (Recorder.chain (fun n t => (period n t).record perform) repeats 0 start s).state)
      (ledger (Recorder.markRepeat card start repeats (fun n t => (period n t).record perform)
        s).state) := by
  have hrun := Recorder.rel_chain Extending.refl Extending.trans
    (fun n t s => extending_record hperform (period n t) s) repeats 0 start s
  rw [Recorder.result_markRepeat] at h
  rw [Recorder.markRepeat_of_error h, LawfulHasLedger.ledger_setLedger]
  exact (hrun hb).rolledBack hb

/-- A refused repetition takes back every transition. -/
theorem transitions_of_refused
    (hperform : ∀ r s, (ledger s).transitions <+: (ledger (perform r s).state).transitions)
    (card : Card) (start : Float) (repeats : Nat) (period : Nat → Float → Routine ρ σ ε) {s : σ}
    {e : ε}
    (h : (Recorder.markRepeat card start repeats (fun n t => (period n t).record perform)
      s).result = .error e) :
    (ledger (Recorder.markRepeat card start repeats (fun n t => (period n t).record perform)
      s).state).transitions = (ledger s).transitions := by
  have hrun := Recorder.rel_chain
    (R := fun s s' => (ledger s).transitions <+: (ledger s').transitions)
    (fun s => List.prefix_refl _) (fun _ _ _ => List.IsPrefix.trans)
    (fun n t s => prefix_record hperform (period n t) s) repeats 0 start s
  rw [Recorder.result_markRepeat] at h
  rw [Recorder.markRepeat_of_error h, LawfulHasLedger.ledger_setLedger]
  exact (List.prefix_iff_eq_take.mp hrun).symm

end Routine

/-! ## The ledger and the sequencer -/

theorem Ledger.extends_perform {ε : Type} (t : Transition Float) (l : Ledger) :
    l.Extends (perform t l : Outcome Ledger ε Float).state :=
  Extends.append l [t]

/-- Every call made to a sequencer extends its ledger, the refused ones included. -/
theorem Sequencer.extends_perform (r : Request) (s : Sequencer) :
    s.ledger.Extends (r.perform s).state.ledger := by
  obtain ⟨ts, hts⟩ := ledger_perform r s
  rw [hts]
  exact Ledger.Extends.append s.ledger ts

/-- The calls of a repetition on a ledger. -/
def Ledger.calls {ε : Type} (period : Nat → Float → Routine (Transition Float) Ledger ε) :
    Nat → Float → Recorder Ledger ε Float :=
  fun n t => (period n t).record perform

/-- The calls of a repetition on a sequencer. -/
def Sequencer.calls (period : Nat → Float → Routine Request Sequencer Fault) :
    Nat → Float → Recorder Sequencer Fault Float :=
  fun n t => (period n t).record Request.perform

/-- **What a refused repetition leaves on the ledger**, on a ledger itself and on that of a sequencer.
Every transition is as before. Of the regions all from before are left, and those that the period put
on record before it recorded anything. -/
theorem Recorder.rolledBack_of_refused {ε : Type} {l : Ledger} (hl : l.Bounded) {s : Sequencer}
    (hs : s.ledger.Bounded) (card : Card) (start : Float) (repeats : Nat)
    (period : Nat → Float → Routine (Transition Float) Ledger ε)
    (period' : Nat → Float → Routine Sequencer.Request Sequencer Fault) :
    (∀ e, (markRepeat card start repeats (Ledger.calls period) l).result = .error e →
      Ledger.RolledBack l (chain (Ledger.calls period) repeats 0 start l).state
        (markRepeat card start repeats (Ledger.calls period) l).state)
    ∧ ∀ e, (Sequencer.markRepeat start repeats (Sequencer.calls period') s).result = .error e →
      Ledger.RolledBack s.ledger (chain (Sequencer.calls period') repeats 0 start s).state.ledger
        (Sequencer.markRepeat start repeats (Sequencer.calls period') s).state.ledger := by
  constructor
  · intro e h
    exact Routine.rolledBack_markRepeat Ledger.extends_perform card start repeats period hl h
  · intro e h
    exact Routine.rolledBack_markRepeat Sequencer.extends_perform s.card start repeats period' hs h

/-! ## A region that survives -/

/-- A period that repeats an empty one, makes a request, and is refused. -/
def Routine.hollow {ρ σ : Type} (card : σ → Card) (r : Float → ρ) (_ : Nat) (t : Float) :
    Routine ρ σ Fault :=
  .repeated card t 1 (fun _ t => .finish (.ok (t + 5))) fun _ =>
    .request (r t) fun _ => .finish (.error (.unplaceableTime t))

/-- The period on a ledger. -/
def Ledger.hollow : Nat → Float → Recorder Ledger Fault Float :=
  calls (Routine.hollow (fun _ => Card.paired) fun t => ⟨t, 0, true⟩)

/-- The period on a sequencer. -/
def Sequencer.hollow : Nat → Float → Recorder Sequencer Fault Float :=
  calls (Routine.hollow Sequencer.card fun t => .raw t 0 true)

theorem Recorder.rolledBack_hollow :
    ((markRepeat Card.paired 0 1 Ledger.hollow {}).result = .error (.unplaceableTime 0)
      ∧ Ledger.RolledBack {} (chain Ledger.hollow 1 0 0 {}).state
          (markRepeat Card.paired 0 1 Ledger.hollow {}).state)
    ∧ (Sequencer.markRepeat 0 1 Sequencer.hollow { card := Card.paired }).result
        = .error (.unplaceableTime 0)
      ∧ Ledger.RolledBack {} (chain Sequencer.hollow 1 0 0 { card := Card.paired }).state.ledger
          (Sequencer.markRepeat 0 1 Sequencer.hollow { card := Card.paired }).state.ledger := by
  have hempty : Ledger.Bounded {} := fun r hr => absurd hr List.not_mem_nil
  have href : (markRepeat Card.paired 0 1 Ledger.hollow {}).result
      = .error (.unplaceableTime 0) := by decide +kernel
  have href' : (Sequencer.markRepeat 0 1 Sequencer.hollow { card := Card.paired }).result
      = .error (.unplaceableTime 0) := by decide +kernel
  obtain ⟨hledger, hsequencer⟩ := rolledBack_of_refused (s := { card := Card.paired }) hempty hempty
    Card.paired 0 1 (Routine.hollow (fun _ => Card.paired) fun t => ⟨t, 0, true⟩)
    (Routine.hollow Sequencer.card fun t => .raw t 0 true)
  exact ⟨⟨href, hledger _ href⟩, href', hsequencer _ href'⟩

/-- So a refused repetition does not leave every ledger as it was. -/
theorem Recorder.not_unchanged_of_refused :
    ¬ ∀ l : Ledger, l.Bounded → ∀ (card : Card) (start : Float) (repeats : Nat)
      (period : Nat → Float → Routine (Transition Float) Ledger Fault) (e : Fault), 0 < repeats →
      (markRepeat card start repeats (Ledger.calls period) l).result = .error e →
        (markRepeat card start repeats (Ledger.calls period) l).state = l := by
  intro h
  have hsame := h {} (fun r hr => absurd hr List.not_mem_nil) Card.paired 0 1
    (Routine.hollow (fun _ => Card.paired) fun t => ⟨t, 0, true⟩) (.unplaceableTime 0) Nat.one_pos
    (by decide +kernel)
  have hregions := congrArg (fun l : Ledger => l.regions.length) hsame
  revert hregions
  decide +kernel

end PulseTrain
