import PulseTrain.Channel.Group
import PulseTrain.Proofs.Trains

/-!
# Visits to a group

A group is switched by `profile` and `force`. Either is a `Visit` here: the time, the name of the
profile, and whether every channel is written.

* `GreyCode.visited` is a grey-code group after a visit, and `GreyCode.after` after several.
* `GreyCode.after_static`, `GreyCode.bits_after` and `GreyCode.lastChange_after` say what visits
  change of a group.
* `GreyCode.visit_of_error` and `GreyCode.visit_of_ok` are all that a visit can do.
* `ChannelGroup.visit_eq` says that a group does the same whatever is recorded already.
-/

namespace PulseTrain

/-- A request to a group: to switch to a profile, or (`whole`) to write every channel of it. -/
structure Visit where
  t : Float
  profile : String
  whole : Bool
deriving DecidableEq, Repr

/-! ## Grey-code groups -/

namespace GreyCode

variable {σ : Type}

/-- The changes that a visit makes on the way to `bits`. -/
def targets (v : Visit) (bits : List Bool) (g : GreyCode Float) : List (Nat × Bool) :=
  if v.whole then g.channels.zip bits else g.differing bits

/-- The bits that a visit takes a group to, or why it is refused. -/
def wanted (g : GreyCode Float) (v : Visit) : Except Fault (List Bool) :=
  match g.profiles.find? v.profile with
  | none => .error (.unknownProfile g.name v.profile)
  | some bits =>
    if bits.length = g.channels.length then .ok bits
    else .error (.profileWidth g.name (bitsText bits) bits.length g.channels.length)

/-- A profile is wanted when the group has one of that name and of its own width. -/
theorem wanted_eq_ok_iff {g : GreyCode Float} {v : Visit} {bits : List Bool} :
    g.wanted v = .ok bits
      ↔ g.profiles.find? v.profile = some bits ∧ bits.length = g.channels.length := by
  unfold wanted
  cases g.profiles.find? v.profile with
  | none => simp
  | some found =>
    by_cases hlength : found.length = g.channels.length
    · simp only [hlength, if_true, Except.ok.injEq, Option.some.injEq]
      exact ⟨fun h => ⟨h, h ▸ hlength⟩, fun h => h.1⟩
    · simp only [hlength, if_false, reduceCtorEq, Option.some.injEq, false_iff, not_and]
      rintro rfl
      exact hlength

/-- The group after a visit. -/
def visited (g : GreyCode Float) (v : Visit) : GreyCode Float :=
  match g.wanted v with
  | .error _ => g
  | .ok bits => { (g.train v.t (targets v bits g)).2.2 with bits }

theorem visited_of_ok {g : GreyCode Float} {v : Visit} {bits : List Bool}
    (h : g.wanted v = .ok bits) :
    g.visited v = { (g.train v.t (targets v bits g)).2.2 with bits } := by
  unfold visited
  rw [h]

theorem visited_of_error {g : GreyCode Float} {v : Visit} {e : Fault} (h : g.wanted v = .error e) :
    g.visited v = g := by
  unfold visited
  rw [h]

/-! ## What differs -/

theorem filter_ne_eq_nil_iff {cs : List Nat} {now next : List Bool}
    (hnow : now.length = cs.length) (hnext : next.length = cs.length) :
    ((cs.zip (now.zip next)).filter fun (_, a, b) => a ≠ b) = [] ↔ now = next := by
  induction cs generalizing now next with
  | nil =>
    rw [List.length_eq_zero_iff.mp hnow, List.length_eq_zero_iff.mp hnext]
    exact ⟨fun _ => rfl, fun _ => rfl⟩
  | cons c cs ih =>
    cases now with
    | nil => cases hnow
    | cons a now =>
      cases next with
      | nil => cases hnext
      | cons b next =>
        -- Differing places are looked at one by one, each in its own position.
        have hrest := @ih now next (by simpa using hnow) (by simpa using hnext)
        by_cases hab : a = b
        · simpa [hab] using hrest
        · simp [hab]

/-- A group has nothing to change exactly if it is at the bits already. -/
theorem differing_eq_nil_iff {τ : Type} {g : GreyCode τ} {bits : List Bool}
    (hg : g.bits.length = g.channels.length) (hbits : bits.length = g.channels.length) :
    g.differing bits = [] ↔ g.bits = bits := by
  unfold differing
  rw [List.map_eq_nil_iff]
  exact filter_ne_eq_nil_iff hg hbits

/-- A visit asks for nothing but the bits wanted. -/
theorem mem_zip_of_mem_targets {g : GreyCode Float} {v : Visit} {bits : List Bool}
    {target : Nat × Bool} (h : target ∈ targets v bits g) : target ∈ g.channels.zip bits := by
  unfold targets differing at h
  split at h
  · exact h
  · obtain ⟨⟨channel, now, next⟩, hmem, rfl⟩ := List.mem_map.mp h
    -- A place that differs is a channel next to the bit it is to have.
    obtain ⟨i, hi, heq⟩ := List.mem_iff_getElem.mp (List.mem_filter.mp hmem).1
    simp only [List.getElem_zip, Prod.mk.injEq] at heq
    simp only [List.length_zip] at hi
    exact List.mem_iff_getElem.mpr ⟨i, by simp only [List.length_zip]; omega, by simp [heq]⟩

/-- It asks at least for those that are not there yet. -/
theorem mem_targets_of_ne {g : GreyCode Float} {v : Visit} {bits : List Bool}
    (hbits : bits.length = g.channels.length) {i : Nat} (hi : i < g.channels.length)
    (hnow : i < g.bits.length) (hne : g.bits[i] ≠ bits[i]) :
    (g.channels[i], bits[i]) ∈ targets v bits g := by
  unfold targets differing
  split
  · exact List.mem_iff_getElem.mpr ⟨i, by simp only [List.length_zip]; omega, by simp⟩
  · refine List.mem_map.mpr ⟨(g.channels[i], g.bits[i], bits[i]), List.mem_filter.mpr ⟨?_, ?_⟩, rfl⟩
    · exact List.mem_iff_getElem.mpr ⟨i, by simp only [List.length_zip]; omega, by simp⟩
    · simpa using hne

/-! ## Several visits -/

/-- The changes that a visit records. -/
def changes (g : GreyCode Float) (v : Visit) : List (Transition Float) :=
  match g.wanted v with
  | .error _ => []
  | .ok bits => (g.train v.t (targets v bits g)).1

theorem changes_of_ok {g : GreyCode Float} {v : Visit} {bits : List Bool}
    (h : g.wanted v = .ok bits) : g.changes v = (g.train v.t (targets v bits g)).1 := by
  unfold changes
  rw [h]

/-- A group aims at exactly the levels that its changes write. -/
theorem mem_targets_iff {g : GreyCode Float} {v : Visit} {bits : List Bool}
    (h : g.wanted v = .ok bits) {target : Nat × Bool} :
    target ∈ targets v bits g ↔ ∃ t ∈ g.changes v, (t.channel, t.level) = target := by
  have htrain := channels_train g v.t (targets v bits g)
  rw [← changes_of_ok h] at htrain
  conv_lhs => rw [← htrain]
  exact List.mem_map

/-- The group after visits. -/
def after (g : GreyCode Float) (vs : List Visit) : GreyCode Float :=
  vs.foldl visited g

/-- The changes that visits record. -/
def changesAfter (g : GreyCode Float) : List Visit → List (Transition Float)
  | [] => []
  | v :: vs => g.changes v ++ (g.visited v).changesAfter vs

theorem visited_static (g : GreyCode Float) (v : Visit) :
    g.visited v
      = { g with
          bits := (g.wanted v).toOption.getD g.bits
          lastChange := ((g.changes v).getLast?.map (·.time)).getD g.lastChange } := by
  unfold changes
  cases h : g.wanted v with
  | error e =>
    rw [visited_of_error h]
    rfl
  | ok bits =>
    rw [visited_of_ok h, train_static, lastChange_train]
    rfl

theorem wanted_visited (g : GreyCode Float) (v w : Visit) :
    (g.visited v).wanted w = g.wanted w := by
  rw [visited_static]
  rfl

/-- Nothing but the bits and the time of the last change depends on visits. -/
theorem after_static (g : GreyCode Float) (vs : List Visit) :
    g.after vs = { g with bits := (g.after vs).bits, lastChange := (g.after vs).lastChange } := by
  induction vs generalizing g with
  | nil => rfl
  | cons v vs ih =>
    have hnext : g.after (v :: vs) = (g.visited v).after vs := rfl
    rw [hnext, ih, visited_static]

/-- After visits a group is taken to be in the profile of the last one that was not refused. -/
theorem bits_after (g : GreyCode Float) (vs : List Visit) :
    (g.after vs).bits
      = (vs.filterMap fun v => (g.wanted v).toOption).getLast?.getD g.bits := by
  -- By induction on the visits, none of which changes the profiles.
  induction vs generalizing g with
  | nil => rfl
  | cons v vs ih =>
    have hnext : g.after (v :: vs) = (g.visited v).after vs := rfl
    have hbits : (g.visited v).bits = (g.wanted v).toOption.getD g.bits := by
      rw [visited_static]
    rw [hnext, ih, hbits]
    rw [List.filterMap_cons]
    simp only [wanted_visited]
    cases (g.wanted v).toOption with
    | none => rfl
    | some bits =>
      simp only [List.getLast?_cons]
      rfl

/-- After visits the last change of a group is the last one that they recorded. -/
theorem lastChange_after (g : GreyCode Float) (vs : List Visit) :
    (g.after vs).lastChange
      = ((g.changesAfter vs).getLast?.map (·.time)).getD g.lastChange := by
  induction vs generalizing g with
  | nil => rfl
  | cons v vs ih =>
    have hnext : g.after (v :: vs) = (g.visited v).after vs := rfl
    have hlast : (g.visited v).lastChange
        = ((g.changes v).getLast?.map (·.time)).getD g.lastChange := by
      rw [visited_static]
    rw [hnext, ih, hlast, changesAfter, List.getLast?_append]
    cases ((g.visited v).changesAfter vs).getLast? <;> rfl

/-- A visit that only changes what differs records nothing exactly if nothing does. -/
theorem changes_eq_nil_iff {g : GreyCode Float} {v : Visit} {bits : List Bool}
    (hg : g.bits.length = g.channels.length) (h : g.wanted v = .ok bits) (hpart : v.whole = false) :
    g.changes v = [] ↔ g.bits = bits := by
  have htargets := channels_train g v.t (targets v bits g)
  have hdiffering : targets v bits g = g.differing bits := by
    unfold targets
    rw [hpart]
    rfl
  -- The changes write the targets, so there are as many of the one as of the other.
  rw [changes_of_ok h, ← differing_eq_nil_iff hg (wanted_eq_ok_iff.mp h).2, ← hdiffering]
  constructor
  · intro hnone
    rw [← htargets, hnone, List.map_nil]
  · intro hnone
    rw [hnone] at htargets ⊢
    exact List.map_eq_nil_iff.mp htargets

/-- If visits have left other bits, there is a profile that the group takes itself to be in, and
would have changed to. -/
theorem silenced {g : GreyCode Float} {vs : List Visit} (hg : g.bits.length = g.channels.length)
    (hne : (g.after vs).bits ≠ g.bits) :
    ∃ profile, ∀ t, (g.after vs).changes ⟨t, profile, false⟩ = []
      ∧ g.changes ⟨t, profile, false⟩ ≠ [] := by
  cases hlast : (vs.filterMap fun v => (g.wanted v).toOption).getLast? with
  | none =>
    rw [bits_after, hlast] at hne
    exact absurd rfl hne
  | some bits =>
    have hbits : (g.after vs).bits = bits := by
      rw [bits_after, hlast]
      rfl
    -- The last visit that was carried out: the group has the bits of its profile now.
    obtain ⟨v, -, hv⟩ := List.mem_filterMap.mp (List.mem_of_getLast? hlast)
    have hwanted : g.wanted v = .ok bits := by
      cases h : g.wanted v with
      | error e =>
        rw [h] at hv
        cases hv
      | ok bits' =>
        rw [h] at hv
        cases hv
        rfl
    refine ⟨v.profile, fun t => ⟨?_, ?_⟩⟩
    · have hafter : (g.after vs).wanted ⟨t, v.profile, false⟩ = .ok bits := by
        rw [after_static]
        exact hwanted
      refine (changes_eq_nil_iff ?_ hafter rfl).mpr hbits
      rw [hbits, (wanted_eq_ok_iff.mp hafter).2]
    -- If there had been nothing to change, the group would have had these bits before.
    · intro hnone
      have hplain : g.wanted ⟨t, v.profile, false⟩ = .ok bits := hwanted
      exact hne (hbits.trans ((changes_eq_nil_iff hg hplain rfl).mp hnone).symm)

variable [Sink Float σ]

/-! ## What a visit does -/

/-- The request of a visit: the profile is looked up, and its targets are written. -/
def visit (v : Visit) : Recorder (GreyCode Float × σ) Fault Float := do
  let bits ← lookup v.profile
  write (targets v bits) v.t bits

/-- A visit that is refused changes nothing. -/
theorem visit_of_error {g : GreyCode Float} {v : Visit} {e : Fault} (h : g.wanted v = .error e)
    (sink : σ) : visit v (g, sink) = ⟨.error e, (g, sink), []⟩ := by
  unfold wanted at h
  unfold visit
  -- Either there is no such profile or it has the wrong width, and nothing is written then.
  cases hfind : g.profiles.find? v.profile with
  | none =>
    rw [hfind] at h
    cases h
    have hlookup := lookup_of_none hfind sink
    rw [Recorder.bind_of_error (congrArg Outcome.result hlookup), hlookup]
  | some bits =>
    rw [hfind] at h
    have hlookup := lookup_of_some hfind sink
    rw [Recorder.bind_of_ok (congrArg Outcome.result hlookup), hlookup, write_eq]
    by_cases hlength : bits.length = g.channels.length
    · simp [hlength] at h
    · simp only [hlength, if_false, Except.error.injEq] at h ⊢
      rw [h]
      rfl

/-- A visit whose profile is found emits its train and moves the group along it. -/
theorem visit_of_ok {g : GreyCode Float} {v : Visit} {bits : List Bool} (h : g.wanted v = .ok bits)
    (sink : σ) :
    visit v (g, sink)
      = ⟨.ok (g.train v.t (targets v bits g)).2.1,
          (g.visited v, Sink.append sink (g.train v.t (targets v bits g)).1), []⟩ := by
  obtain ⟨hfind, hlength⟩ := wanted_eq_ok_iff.mp h
  have hlookup := lookup_of_some hfind sink
  unfold visit
  rw [Recorder.bind_of_ok (congrArg Outcome.result hlookup), hlookup, write_eq, if_pos hlength,
    visited_of_ok h]
  rfl

end GreyCode

/-! ## Switches -/

namespace Switch

variable {σ : Type} [Sink Float σ]

theorem profile_of_none {s : Switch} {name : String} (h : s.profiles.find? name = none) (t : Float)
    (sink : σ) : s.profile t name sink = ⟨.error (.unknownProfile s.name name), sink, []⟩ := by
  unfold profile
  simp only [h]
  rfl

/-- A switch moves to the level of the profile at its offset, or at zero with a warning when that comes too
early. -/
theorem profile_of_some {s : Switch} {name : String} {level : Bool}
    (h : s.profiles.find? name = some level) (t : Float) (sink : σ) :
    s.profile t name sink =
      ⟨.ok t,
        Sink.append sink [⟨if t + s.offset < 0 then 0 else t + s.offset, s.channel, level⟩],
        if t + s.offset < 0 then [.earlySwitch s.name s.channel t (t + s.offset)] else []⟩ := by
  unfold profile
  simp only [h]
  by_cases hneg : t + s.offset < 0
  · simp only [hneg, if_true]
    rfl
  · simp only [hneg, if_false]
    rfl

end Switch

/-! ## Groups of either kind -/

namespace ChannelGroup

variable {σ : Type} [Sink Float σ]

/-- The request of a visit, by the kind of the group. -/
def visit (v : Visit) : Recorder (ChannelGroup × σ) Fault Float :=
  dispatch (GreyCode.visit v) (·.profile v.t v.profile)

/-- What a visit does to a group that has nothing recorded before it. -/
def answer (g : ChannelGroup) (v : Visit) :
    Outcome (ChannelGroup × List (Transition Float)) Fault Float :=
  visit v (g, [])

/-- The group after a visit. -/
def visited (g : ChannelGroup) (v : Visit) : ChannelGroup :=
  (g.answer v).state.1

/-- A group does the same whatever is recorded already: its changes come after it. -/
theorem visit_eq (v : Visit) (g : ChannelGroup) (l : Ledger) :
    visit v (g, l) =
      ⟨(g.answer v).result, (g.visited v, l.append (g.answer v).state.2),
        (g.answer v).warnings⟩ := by
  -- A refused visit appends nothing.
  have hnone : l = l.append [] := by
    unfold Ledger.append
    rw [List.append_nil]
  cases g with
  | greyCode g =>
    unfold visited answer visit dispatch
    cases h : g.wanted v with
    | error e =>
      simp only [GreyCode.visit_of_error h]
      rw [← hnone]
    | ok bits =>
      simp only [GreyCode.visit_of_ok h]
      rfl
  | switch s =>
    unfold visited answer visit dispatch
    cases h : s.profiles.find? v.profile with
    | none =>
      simp only [Switch.profile_of_none h]
      rw [← hnone]
    | some level =>
      simp only [Switch.profile_of_some h]
      rfl

theorem visited_switch (s : Switch) (v : Visit) : (switch s).visited v = switch s := rfl

theorem visited_greyCode (g : GreyCode Float) (v : Visit) :
    (greyCode g).visited v = greyCode (g.visited v) := by
  unfold visited answer visit dispatch
  cases h : g.wanted v with
  | error e =>
    simp only [GreyCode.visit_of_error h, GreyCode.visited_of_error h]
  | ok bits => simp only [GreyCode.visit_of_ok h]

theorem answer_greyCode (g : GreyCode Float) (v : Visit) :
    ((greyCode g).answer v).state.2 = g.changes v := by
  unfold answer visit dispatch GreyCode.changes
  cases h : g.wanted v with
  | error e => simp only [GreyCode.visit_of_error h]
  | ok bits =>
    simp only [GreyCode.visit_of_ok h]
    rfl

/-- A switch answers a visit with its profile's one transition, and nothing of its own changes. -/
theorem answer_switch (s : Switch) (v : Visit) :
    (switch s).answer v =
      let o := s.profile v.t v.profile ([] : List (Transition Float))
      ⟨o.result, (switch s, o.state), o.warnings⟩ := rfl

end ChannelGroup

end PulseTrain
