import PulseTrain.Proofs.Neighbours
import PulseTrain.Proofs.Rollback

/-!
# What regions cover

A region names the entries of the ledger that its repetitions recorded, by their numbers. Entries are
added and cut off at the end only, and a region that is cut into is dropped with them; so the numbers
keep standing for the same transitions, whatever happens to the ledger.

* `Mark` is a region together with what its repetitions recorded. `Routine.kept` and `Routine.marks`
  are the transitions and the marks that a period leaves behind.
* `Mark.Stands` says that the entries of a region are what was recorded. Nothing that happens to a
  ledger later changes that, as long as the region is on it.
* `Ledger.Grows` says how transitions and marks are added to a ledger. It goes along the calls of a
  repetition (`Ledger.grows_chain`), then through the repetition (`Ledger.grows_markRepeat`) and so
  through any period (`Ledger.grows_record`).
* `Ledger.Step` is anything that can be done to a ledger, and `Ledger.booked_after` the result.
-/

namespace PulseTrain

/-! ## Marks -/

/-- A region, with the transitions that its repetitions recorded. -/
structure Mark where
  region : Region
  recorded : List (Transition Float)
deriving DecidableEq, Repr

namespace Region

/-- The entries of two regions are apart, or those of one are among those of the other. -/
def Nests (a b : Region) : Prop :=
  a.endEntry ≤ b.firstEntry ∨ b.endEntry ≤ a.firstEntry
    ∨ a.firstEntry ≤ b.firstEntry ∧ b.endEntry ≤ a.endEntry
    ∨ b.firstEntry ≤ a.firstEntry ∧ a.endEntry ≤ b.endEntry

theorem Nests.refl (a : Region) : Nests a a :=
  .inr (.inr (.inl ⟨Nat.le_refl _, Nat.le_refl _⟩))

theorem Nests.symm {a b : Region} (h : Nests a b) : Nests b a := by
  unfold Nests at *
  omega

end Region

namespace Recorder

variable {ε : Type} (card : Card) (start : Float) (repeats : Nat)
  (period : Nat → Float → Recorder Ledger ε Float)
  (kept : Nat → Float → Ledger → List (Transition Float))
  (marks : Nat → Float → Ledger → List Mark)

/-- The transitions that repetitions leave behind, when `kept` are those of one call. -/
def repeatKept (l : Ledger) : List (Transition Float) :=
  match (chain period repeats 0 start l).result with
  | .error _ => []
  | .ok _ => chainRequests period kept repeats 0 start l

/-- The marks that repetitions leave behind, when `kept` and `marks` are what one call leaves. At the end
the run itself may have been put on record. -/
def repeatMarks (l : Ledger) : List Mark :=
  let run := chain period repeats 0 start l
  let inner := chainRequests period marks repeats 0 start l
  match run.result with
  | .error _ => inner.filter (·.region.endEntry ≤ l.length)
  | .ok _ =>
    let noted := (markRepeat card start repeats period l).state.regions.drop run.state.regions.length
    inner ++ noted.map fun r => ⟨r, chainRequests period kept repeats 0 start l⟩

variable {card start repeats period kept marks} {l : Ledger}

/-- Of a repetition that is refused nothing is kept. -/
theorem repeatKept_of_error {e : ε} (h : (chain period repeats 0 start l).result = .error e) :
    repeatKept start repeats period kept l = [] := by
  unfold repeatKept
  simp only [h]

/-- Of the others all is kept that the calls keep. -/
theorem repeatKept_of_ok {stop : Float} (h : (chain period repeats 0 start l).result = .ok stop) :
    repeatKept start repeats period kept l = chainRequests period kept repeats 0 start l := by
  unfold repeatKept
  simp only [h]

/-- The marks of a refused repetition are those that end where the ledger is cut off. -/
theorem repeatMarks_of_error {e : ε} (h : (chain period repeats 0 start l).result = .error e) :
    repeatMarks card start repeats period kept marks l
      = (chainRequests period marks repeats 0 start l).filter (·.region.endEntry ≤ l.length) := by
  unfold repeatMarks
  simp only [h]

/-- A repetition that is carried out is marked after those inside. -/
theorem repeatMarks_of_ok {stop : Float} (h : (chain period repeats 0 start l).result = .ok stop) :
    repeatMarks card start repeats period kept marks l
      = chainRequests period marks repeats 0 start l
        ++ ((markRepeat card start repeats period l).state.regions.drop
            (chain period repeats 0 start l).state.regions.length).map fun r =>
          ⟨r, chainRequests period kept repeats 0 start l⟩ := by
  unfold repeatMarks
  simp only [h]

end Recorder

namespace Routine

variable {ε : Type}

/-- The transitions that a period records and that are not taken back. -/
def kept : Routine (Transition Float) Ledger ε → Ledger → List (Transition Float)
  | finish _, _ => []
  | look next, l => (next l).kept l
  | request t next, l =>
    t :: (next (Ledger.perform t l).result).kept (Ledger.perform (ε := ε) t l).state
  | repeated card start repeats period next, l =>
    let o := repeating card start repeats (fun n t => (period n t).record Ledger.perform) l
    Recorder.repeatKept start repeats (fun n t => (period n t).record Ledger.perform)
        (fun n t => (period n t).kept) l
      ++ (next o.result).kept o.state

/-- The marks that a period leaves behind. -/
def marks : Routine (Transition Float) Ledger ε → Ledger → List Mark
  | finish _, _ => []
  | look next, l => (next l).marks l
  | request t next, l => (next (Ledger.perform t l).result).marks (Ledger.perform (ε := ε) t l).state
  | repeated card start repeats period next, l =>
    let o := repeating card start repeats (fun n t => (period n t).record Ledger.perform) l
    Recorder.repeatMarks (card l) start repeats (fun n t => (period n t).record Ledger.perform)
        (fun n t => (period n t).kept) (fun n t => (period n t).marks) l
      ++ (next o.result).marks o.state

end Routine

/-! ## Marks that stand -/

/-- The entries of a region. -/
def Ledger.entries (l : Ledger) (r : Region) : List (Transition Float) :=
  (l.transitions.drop r.firstEntry).take (r.endEntry - r.firstEntry)

/-- The region of `m` begins no earlier than entry number `first`, and its entries on `l` are those that
its repetitions recorded. -/
structure Mark.Stands (m : Mark) (first : Nat) (l : Ledger) : Prop where
  le_firstEntry : first ≤ m.region.firstEntry
  firstEntry_le : m.region.firstEntry ≤ m.region.endEntry
  endEntry_le : m.region.endEntry ≤ l.length
  recorded : l.entries m.region = m.recorded

namespace Mark.Stands

variable {m m' : Mark} {first n : Nat} {a b : Ledger}

/-- What stands from an entry on stands from any earlier one on. -/
theorem mono (h : m.Stands first a) (hle : n ≤ first) : m.Stands n a :=
  { h with le_firstEntry := Nat.le_trans hle h.le_firstEntry }

/-- Later transitions come behind. -/
theorem grow (h : m.Stands first a) {ts : List (Transition Float)}
    (hgrow : b.transitions = a.transitions ++ ts) : m.Stands first b := by
  have hle := h.firstEntry_le
  have hend := h.endEntry_le
  have hlength : b.length = a.length + ts.length := by
    unfold Ledger.length
    rw [hgrow, List.length_append]
  refine { h with endEntry_le := by omega, recorded := ?_ }
  unfold Ledger.length at hend
  rw [← h.recorded]
  -- What is appended comes after the entries of the mark.
  unfold Ledger.entries
  rw [hgrow, List.drop_append_of_le_length (by omega), List.take_append_of_le_length]
  rw [List.length_drop]
  omega

/-- Cutting the ledger off behind a mark leaves it standing. -/
theorem truncate (h : m.Stands first a) (hn : m.region.endEntry ≤ n) :
    m.Stands first (a.truncate n) := by
  have hlength : (a.truncate n).length = min n a.length := List.length_take
  have hend := h.endEntry_le
  refine { h with endEntry_le := by omega, recorded := ?_ }
  rw [← h.recorded]
  unfold Ledger.entries Ledger.truncate
  rw [List.drop_take, List.take_take, Nat.min_eq_left (by omega)]

/-- What is marked later is apart from what was marked before. -/
theorem nests (h : m.Stands first a) (h' : m'.Stands a.length b) :
    m.region.Nests m'.region :=
  .inl (Nat.le_trans h.endEntry_le h'.le_firstEntry)

end Mark.Stands

/-! ## How a ledger grows -/

namespace Ledger

/-- `b` is `a` with the transitions `kept` and the regions of `marks` added. -/
structure Grows (a : Ledger) (kept : List (Transition Float)) (marks : List Mark) (b : Ledger) :
    Prop where
  transitions : b.transitions = a.transitions ++ kept
  regions : b.regions = a.regions ++ marks.map (·.region)
  stands : ∀ m ∈ marks, m.Stands a.length b
  nests : ∀ m ∈ marks, ∀ m' ∈ marks, m.region.Nests m'.region

namespace Grows

variable {a b c : Ledger} {kept kept' : List (Transition Float)} {marks marks' : List Mark}

theorem length_eq (h : Grows a kept marks b) : b.length = a.length + kept.length := by
  unfold length
  rw [h.transitions, List.length_append]

/-- A ledger that is left alone has grown by nothing. -/
theorem refl (a : Ledger) : Grows a [] [] a where
  transitions := (List.append_nil _).symm
  regions := (List.append_nil _).symm
  stands := by simp
  nests := by simp

/-- Transitions are kept as they are, and mark nothing. -/
theorem append (a : Ledger) (ts : List (Transition Float)) : Grows a ts [] (a.append ts) where
  transitions := rfl
  regions := (List.append_nil _).symm
  stands := by simp
  nests := by simp

/-- What has grown twice has kept both. -/
theorem trans (h : Grows a kept marks b) (h' : Grows b kept' marks' c) :
    Grows a (kept ++ kept') (marks ++ marks') c := by
  have hlength := h.length_eq
  -- Old marks end where `b` does, and new ones begin there, so no two of them cross.
  have hapart : ∀ m ∈ marks, ∀ m' ∈ marks', m.region.Nests m'.region := fun m hm m' hm' =>
    (h.stands m hm).nests (h'.stands m' hm')
  refine ⟨?_, ?_, List.forall_mem_append.mpr ⟨fun m hm => ?_, fun m hm => ?_⟩, ?_⟩
  · rw [h'.transitions, h.transitions, List.append_assoc]
  · rw [h'.regions, h.regions, List.map_append, List.append_assoc]
  · exact (h.stands m hm).grow h'.transitions
  · exact (h'.stands m hm).mono (by omega)
  · refine List.forall_mem_append.mpr ⟨fun m hm => ?_, fun m hm => ?_⟩
    · exact List.forall_mem_append.mpr ⟨h.nests m hm, hapart m hm⟩
    · exact List.forall_mem_append.mpr ⟨fun m' hm' => (hapart m' hm' m hm).symm, h'.nests m hm⟩

theorem appended (h : Grows a kept marks b) (ts : List (Transition Float)) :
    Grows a (kept ++ ts) marks (b.append ts) := by
  simpa using h.trans (.append b ts)

/-- The earlier entries and regions are still there. -/
theorem extension (h : Grows a kept marks b) : Extends a b where
  transitions := ⟨kept, h.transitions.symm⟩
  regions := by
    refine ⟨_, h.regions, fun r hr => ?_⟩
    obtain ⟨m, hm, rfl⟩ := List.mem_map.mp hr
    have hm := h.stands m hm
    exact ⟨Nat.le_trans hm.le_firstEntry hm.firstEntry_le, hm.endEntry_le⟩

/-- Cutting a ledger off drops the marks that reach beyond. -/
theorem truncate (h : Grows a kept marks b) (ha : a.Bounded) {n : Nat} (hn : a.length ≤ n) :
    Grows a (kept.take (n - a.length)) (marks.filter (·.region.endEntry ≤ n)) (b.truncate n) := by
  refine ⟨?_, ?_, fun m hm => ?_, fun m hm m' hm' => ?_⟩
  · show b.transitions.take n = _
    rw [h.transitions, List.take_append, List.take_of_length_le hn]
    rfl
  -- The regions of `a` end within `a`, so the cut spares them.
  · show b.regions.filter _ = _
    have hold : a.regions.filter (fun r => r.endEntry ≤ n) = a.regions :=
      List.filter_eq_self.mpr fun r hr => by simpa using Nat.le_trans (ha r hr) hn
    rw [h.regions, List.filter_append, hold, List.filter_map]
    rfl
  · obtain ⟨hm, hend⟩ := List.mem_filter.mp hm
    exact (h.stands m hm).truncate (of_decide_eq_true hend)
  · exact h.nests m (List.mem_filter.mp hm).1 m' (List.mem_filter.mp hm').1

/-- The run that leads from `a` to `b` is put on record. It covers all that was added. -/
theorem note (h : Grows a kept marks b) {r : Region} (hfirst : r.firstEntry = a.length)
    (hend : r.endEntry = b.length) :
    Grows a kept (marks ++ [⟨r, kept⟩]) { b with regions := b.regions ++ [r] } := by
  have hlength := h.length_eq
  -- The new region takes in everything after `a`, and with it every new mark.
  have hcovers : ∀ m ∈ marks, r.Nests m.region := fun m hm => by
    have hm := h.stands m hm
    exact .inr (.inr (.inl ⟨hfirst ▸ hm.le_firstEntry, hend ▸ hm.endEntry_le⟩))
  have hstands : Mark.Stands ⟨r, kept⟩ a.length b := by
    refine ⟨Nat.le_of_eq hfirst.symm, ?_, Nat.le_of_eq hend, ?_⟩
    · show r.firstEntry ≤ r.endEntry
      omega
    · show (b.transitions.drop r.firstEntry).take (r.endEntry - r.firstEntry) = kept
      rw [hfirst, hend, hlength, Nat.add_sub_cancel_left, h.transitions]
      unfold length
      rw [List.drop_left, List.take_length]
  refine ⟨h.transitions, ?_, List.forall_mem_append.mpr ⟨fun m hm => ?_, ?_⟩, ?_⟩
  · rw [h.regions, List.map_append, ← List.append_assoc]
    rfl
  -- The regions on a ledger have no say in what the entries are.
  · exact (h.stands m hm).grow (List.append_nil _).symm
  · exact List.forall_mem_singleton.mpr (hstands.grow (List.append_nil _).symm)
  · refine List.forall_mem_append.mpr ⟨fun m hm => List.forall_mem_append.mpr ⟨h.nests m hm, ?_⟩, ?_⟩
    · exact List.forall_mem_singleton.mpr (hcovers m hm).symm
    · refine List.forall_mem_singleton.mpr (List.forall_mem_append.mpr ⟨hcovers, ?_⟩)
      exact List.forall_mem_singleton.mpr (.refl r)

/-- A region that is registered over all that was kept is one more mark, of just that. -/
theorem register (h : Grows a kept marks b) {ε : Type} (card : Card) (span : Span)
    (hfirst : span.firstEntry = a.length) (hend : span.endEntry = b.length) :
    Grows a kept
      (marks ++ ((b.register (ε := ε) card span).state.regions.drop b.regions.length).map
        fun r => ⟨r, kept⟩)
      (b.register (ε := ε) card span).state := by
  by_cases hknown : b.regions.any (·.start == span.start)
  · rw [register_of_known hknown]
    simpa using h
  · rw [register_of_new hknown]
    simpa using h.note (r := regionOf card span) hfirst hend

end Grows

/-! ## Through calls, repetitions and periods -/

section Periods

variable {ε : Type} {period : Nat → Float → Recorder Ledger ε Float}
  {kept : Nat → Float → Ledger → List (Transition Float)}
  {marks : Nat → Float → Ledger → List Mark}

/-- Calls one after the other keep and mark what each of them does. -/
theorem grows_chain
    (hperiod : ∀ n t l, l.Bounded → Grows l (kept n t l) (marks n t l) (period n t l).state)
    (count number : Nat) (t : Float) (l : Ledger) (hl : l.Bounded) :
    Grows l (Recorder.chainRequests period kept count number t l)
      (Recorder.chainRequests period marks count number t l)
      (Recorder.chain period count number t l).state := by
  -- By induction on the calls still to be made, each from the state the last one left.
  induction count generalizing number t l with
  | zero => exact .refl l
  | succ count ih =>
    have hcall := hperiod number t l hl
    unfold Recorder.chainRequests
    cases h : (period number t l).result with
    | error e =>
      rw [Recorder.chain_succ_of_error h]
      simpa using hcall
    | ok stop =>
      rw [Recorder.chain_succ_of_ok h]
      exact hcall.trans (ih (number + 1) stop _ (hcall.extension.bounded hl))

/-- A repetition keeps what its calls keep, and marks its run if it is carried out. -/
theorem grows_markRepeat
    (hperiod : ∀ n t l, l.Bounded → Grows l (kept n t l) (marks n t l) (period n t l).state)
    (card : Card) (start : Float) (repeats : Nat) {l : Ledger} (hl : l.Bounded) :
    Grows l (Recorder.repeatKept start repeats period kept l)
      (Recorder.repeatMarks card start repeats period kept marks l)
      (Recorder.markRepeat card start repeats period l).state := by
  have hrun := grows_chain hperiod repeats 0 start l hl
  cases h : (Recorder.chain period repeats 0 start l).result with
  | error e =>
    -- Cut off at its old length, the ledger keeps none of the new transitions.
    have hcut := hrun.truncate hl (Nat.le_refl _)
    rw [Nat.sub_self, List.take_zero] at hcut
    rw [Recorder.repeatKept_of_error h, Recorder.repeatMarks_of_error h,
      Recorder.markRepeat_of_error h]
    exact hcut
  | ok stop =>
    rw [Recorder.repeatKept_of_ok h, Recorder.repeatMarks_of_ok h]
    -- Repeating nothing makes no calls and marks no region.
    rcases Nat.eq_zero_or_pos repeats with rfl | hpos
    · rw [Recorder.markRepeat_zero]
      have hnone : l.regions.drop l.regions.length = [] := List.drop_length
      show Grows l [] ([] ++ (l.regions.drop l.regions.length).map _) l
      rw [hnone]
      exact .refl l
    · obtain ⟨first, -, heq⟩ := Recorder.markRepeat_of_ok card hpos h
      rw [heq]
      exact hrun.register card (Recorder.spanOf start first stop repeats _ _) rfl rfl

/-- What becomes of a ledger during a period. -/
theorem grows_record (b : Routine (Transition Float) Ledger ε) (l : Ledger) (hl : l.Bounded) :
    Grows l (b.kept l) (b.marks l) (b.record perform l).state := by
  -- Along the routine: only a call or a repetition lets the ledger grow.
  induction b generalizing l with
  | finish answer => exact .refl l
  | look next ih => exact ih l l hl
  | request t next ih =>
    have hrequest : Grows l [t] [] (perform (ε := ε) t l).state := .append l [t]
    exact hrequest.trans (ih _ _ (hrequest.extension.bounded hl))
  | repeated card start repeats period next ihperiod ih =>
    have hrepeat := grows_markRepeat ihperiod (card l) start repeats hl
    exact hrepeat.trans (ih _ _ (hrepeat.extension.bounded hl))

end Periods

end Ledger

/-! ## Starts stay different -/

/-- Cutting off makes no two starts equal. -/
theorem Region.Distinct.truncate {l : Ledger} (h : Distinct l.regions) (n : Nat) :
    Distinct (l.truncate n).regions :=
  h.filter _

namespace Ledger

section Starts

variable {ε : Type}

/-- A repetition registers no start again. -/
theorem distinct_markRepeat {period : Nat → Float → Recorder Ledger ε Float}
    (hperiod : ∀ n t l, Region.Distinct l.regions → Region.Distinct (period n t l).state.regions)
    (card : Card) (start : Float) (repeats : Nat) (l : Ledger) (hl : Region.Distinct l.regions) :
    Region.Distinct (Recorder.markRepeat card start repeats period l).state.regions := by
  refine Recorder.rel_markRepeat
    (R := fun l l' : Ledger => Region.Distinct l.regions → Region.Distinct l'.regions)
    (fun _ h => h) (fun _ _ _ h h' hl => h' (h hl)) ?_ ?_ hperiod card start repeats l hl
  · intro card span _ l _ _ _ hl
    exact hl.register card span
  · intro l l' h hl
    exact (h hl).truncate l.length

/-- Neither does a routine. -/
theorem distinct_record (b : Routine (Transition Float) Ledger ε) (l : Ledger)
    (hl : Region.Distinct l.regions) : Region.Distinct (b.record perform l).state.regions := by
  refine Routine.rel_record
    (R := fun l l' : Ledger => Region.Distinct l.regions → Region.Distinct l'.regions)
    (fun _ h => h) (fun _ _ _ h h' hl => h' (h hl)) (fun _ _ h => h) ?_ b l hl
  intro card start repeats period l hperiod
  exact distinct_markRepeat hperiod card start repeats l

end Starts

/-! ## A ledger from step to step -/

/-- Anything that can be done to a ledger. A repetition may be refused. -/
inductive Step (ε : Type) where
  | append (ts : List (Transition Float))
  | raw (t : Float) (channel : Nat) (level : Bool)
  | repeated (card : Card) (start : Float) (repeats : Nat)
      (period : Nat → Float → Routine (Transition Float) Ledger ε)
  | truncate (length : Nat)
  | clear

namespace Step

variable {ε : Type}

/-- The ledger after a step. -/
def perform : Step ε → Ledger → Ledger
  | append ts, l => l.append ts
  | raw t channel level, l => (Ledger.raw (ε := ε) t channel level l).state
  | repeated card start repeats period, l =>
    (Recorder.markRepeat card start repeats (calls period) l).state
  | truncate length, l => l.truncate length
  | clear, _ => {}

/-- The marks on a ledger after a step, when it was `l` and had the marks `ms` before. -/
def marks : Step ε → (l : Ledger) → (ms : List Mark) → List Mark
  | append _, _, ms => ms
  | raw _ _ _, _, ms => ms
  | repeated card start repeats period, l, ms =>
    ms ++ Recorder.repeatMarks card start repeats (calls period) (fun n t => (period n t).kept)
      (fun n t => (period n t).marks) l
  | truncate length, _, ms => ms.filter (·.region.endEntry ≤ length)
  | clear, _, _ => []

/-- The marks after steps. -/
def marksAfter : List (Step ε) → (l : Ledger) → (ms : List Mark) → List Mark
  | [], _, ms => ms
  | step :: steps, l, ms => marksAfter steps (step.perform l) (step.marks l ms)

end Step

/-- A ledger with the marks `ms`, each of which still stands for what was recorded. -/
structure Booked (l : Ledger) (ms : List Mark) : Prop where
  regions : l.regions = ms.map (·.region)
  bounded : ∀ r ∈ l.regions, r.firstEntry ≤ r.endEntry ∧ r.endEntry ≤ l.length
  nested : ∀ r ∈ l.regions, ∀ r' ∈ l.regions, r.Nests r'
  distinct : Region.Distinct l.regions
  /-- The entries of a region are what its repetitions recorded. -/
  recorded : ∀ m ∈ ms, l.entries m.region = m.recorded

section Steps

variable {ε : Type} {l : Ledger} {ms : List Mark}

theorem bounded_empty : Bounded {} :=
  fun _ hr => absurd hr List.not_mem_nil

/-- A step on a ledger that has grown from the empty one leaves one that has. -/
theorem Step.grows (step : Step ε) (h : ∃ kept, Grows {} kept ms l) :
    ∃ kept, Grows {} kept (step.marks l ms) (step.perform l) := by
  obtain ⟨kept, h⟩ := h
  cases step with
  | append ts => exact ⟨_, h.appended ts⟩
  | raw t channel level => exact ⟨_, h.appended [⟨t, channel, level⟩]⟩
  -- A repetition's periods are routines too, and grow the ledger as such.
  | repeated card start repeats period =>
    have hrepeat := grows_markRepeat (fun n t => grows_record (period n t)) card start repeats
      (h.extension.bounded bounded_empty)
    exact ⟨_, h.trans hrepeat⟩
  | truncate length => exact ⟨_, h.truncate bounded_empty (Nat.zero_le length)⟩
  | clear => exact ⟨[], .refl {}⟩

/-- No step registers a start again. -/
theorem Step.distinct (step : Step ε) (h : Region.Distinct l.regions) :
    Region.Distinct (step.perform l).regions := by
  cases step with
  | append ts => exact h
  | raw t channel level => exact h
  | repeated card start repeats period =>
    exact distinct_markRepeat (fun n t => distinct_record (period n t)) card start repeats l h
  | truncate length => exact h.truncate length
  | clear => exact .nil

/-- A ledger that has grown from the empty one is booked: every region stands, and they nest. -/
theorem Grows.booked {kept : List (Transition Float)} (h : Grows {} kept ms l)
    (hdistinct : Region.Distinct l.regions) : Booked l ms where
  regions := h.regions
  bounded := by
    intro r hr
    rw [h.regions] at hr
    obtain ⟨m, hm, rfl⟩ := List.mem_map.mp hr
    exact ⟨(h.stands m hm).firstEntry_le, (h.stands m hm).endEntry_le⟩
  nested := by
    intro r hr r' hr'
    rw [h.regions] at hr hr'
    obtain ⟨m, hm, rfl⟩ := List.mem_map.mp hr
    obtain ⟨m', hm', rfl⟩ := List.mem_map.mp hr'
    exact h.nests m hm m' hm'
  distinct := hdistinct
  recorded m hm := (h.stands m hm).recorded

/-- Any number of steps leaves a booked ledger. -/
theorem booked_of_steps (steps : List (Step ε)) (h : ∃ kept, Grows {} kept ms l)
    (hdistinct : Region.Distinct l.regions) :
    Booked (steps.foldl (fun l step => step.perform l) l) (Step.marksAfter steps l ms) := by
  induction steps generalizing l ms with
  | nil =>
    obtain ⟨kept, h⟩ := h
    exact h.booked hdistinct
  | cons step steps ih => exact ih (step.grows h) (step.distinct hdistinct)

/-- **Regions keep their entries.** After any steps, each region covers the transitions that its own
repetitions recorded; regions are apart or one within the other, and none start together. -/
theorem booked_after (steps : List (Step ε)) :
    Booked (steps.foldl (fun l step => step.perform l) {}) (Step.marksAfter steps {} []) :=
  booked_of_steps steps ⟨[], .refl {}⟩ .nil

-- The inner runs are put on record before the outer one, which covers them.
example : ((Step.repeated (ε := Fault) Card.paired 0 2 fun _ t =>
      .request ⟨t, 0, true⟩ fun _ =>
        .repeated (fun _ => Card.paired) (t + 1) 2
          (fun _ t => .request ⟨t, 1, true⟩ fun _ => .finish (.ok (t + 1)))
          fun _ => .finish (.ok (t + 10))).perform {}).regions.map
        (fun r => (r.firstEntry, r.endEntry))
    = [(1, 3), (4, 6), (0, 6)] := by decide +kernel

end Steps

end Ledger

end PulseTrain
