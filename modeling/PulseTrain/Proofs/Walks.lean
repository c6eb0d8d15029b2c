import Mathlib.Data.List.Forall2
import Mathlib.Data.List.Nodup
import PulseTrain.Proofs.Spacing
import PulseTrain.Proofs.Visits

/-!
# One switch is a walk

A grey-code group goes from one bit vector to another through vectors that differ in one bit, by the
shortest way, and one spacing after the other. All groups that there are do so, whatever they have been
asked before.

* `GreyCode.Reachable` are these groups, and `GreyCode.Reachable.length_bits` is their invariant.
* `GreyCode.follow` carries out one change on a bit vector. `GreyCode.isChain_scanl_follow` says that
  changes at places of their own are steps of one bit, and `GreyCode.distance_foldl_follow_le` that no
  fewer would do.
* `GreyCode.exists_places_differing` says where a group writes.
* `GreyCode.walk_switch` is the result.
-/

namespace PulseTrain.GreyCode

variable {τ σ : Type}

/-! ## Groups that there are -/

section AnyTime

variable [Add τ] [LE τ] [DecidableLE τ]

/-- A group as it was created, or after anything that can be done with a group. -/
inductive Reachable : GreyCode τ → Prop where
  | created {name : String} {channels : List Nat} {profiles : Directory String (List Bool)}
      {t spacing : τ} {g : GreyCode τ} (h : create name channels profiles t spacing = .ok g) :
      Reachable g
  | reset {g : GreyCode τ} (h : Reachable g) : Reachable g.reset
  | delayed {g : GreyCode τ} (h : Reachable g) (t : τ) : Reachable (g.delay t).2
  | called {g : GreyCode τ} (h : Reachable g) (call : Call τ) (ts : List (Transition τ)) :
      Reachable (call.perform (g, ts)).state.1

/-- A call writes a bit vector, or it is refused and leaves what it found. -/
theorem Call.perform_cases (call : Call τ) (g : GreyCode τ) (ts : List (Transition τ)) :
    (∃ targets t bits, (call.perform (g, ts)).state = (write targets t bits (g, ts)).state)
      ∨ (call.perform (g, ts)).state = (g, ts) := by
  -- A call by name writes what it finds, or changes nothing.
  have hlookup : ∀ (next : List Bool → Recorder (GreyCode τ × List (Transition τ)) Fault τ) name,
      (∃ bits, ((lookup name >>= next) (g, ts)).state = (next bits (g, ts)).state)
        ∨ ((lookup name >>= next) (g, ts)).state = (g, ts) := by
    intro next name
    cases hfind : g.profiles.find? name with
    | none =>
      have hrefused := lookup_of_none hfind ts
      rw [Recorder.bind_of_error (congrArg Outcome.result hrefused), hrefused]
      exact .inr rfl
    | some bits =>
      have hfound := lookup_of_some hfind ts
      rw [Recorder.bind_of_ok (congrArg Outcome.result hfound), hfound]
      exact .inl ⟨bits, rfl⟩
  cases call with
  | set t bits => exact .inl ⟨_, t, bits, rfl⟩
  | force t bits => exact .inl ⟨_, t, bits, rfl⟩
  | profile t name => exact (hlookup (GreyCode.set t) name).imp_left fun ⟨bits, h⟩ => ⟨_, t, bits, h⟩
  | forceProfile t name =>
    exact (hlookup (GreyCode.force t) name).imp_left fun ⟨bits, h⟩ => ⟨_, t, bits, h⟩

/-- Writing never changes how many bits a group has for its channels. -/
theorem length_bits_write {g : GreyCode τ} (hg : g.bits.length = g.channels.length)
    (targets : GreyCode τ → List (Nat × Bool)) (t : τ) (bits : List Bool)
    (ts : List (Transition τ)) :
    (write targets t bits (g, ts)).state.1.bits.length
      = (write targets t bits (g, ts)).state.1.channels.length := by
  rw [write_eq]
  split
  · rename_i hbits
    rw [train_static]
    exact hbits
  · exact hg

/-- A group always has one bit for each channel. -/
theorem Reachable.length_bits {g : GreyCode τ} (h : Reachable g) :
    g.bits.length = g.channels.length := by
  induction h with
  -- A group starts with a bit for every channel, and no call changes how many there are.
  | created h =>
    unfold create at h
    split at h
    · cases h
    · cases h
      exact List.length_replicate
  | reset _ _ => exact List.length_replicate
  | delayed _ _ ih => exact ih
  | @called g _ call ts ih =>
    rcases call.perform_cases g ts with ⟨targets, t, bits, hstate⟩ | hstate
    · rw [hstate]
      exact length_bits_write ih targets t bits ts
    · rw [hstate]
      exact ih

end AnyTime

/-! ## Changes carried out one by one -/

/-- The number of places at which two bit vectors differ. -/
def distance (a b : List Bool) : Nat :=
  (a.zip b).countP fun (x, y) => x != y

/-- The levels of `channels`, which were `bits`, after a change. -/
def follow (channels : List Nat) (bits : List Bool) (c : Transition τ) : List Bool :=
  List.zipWith (fun channel bit => if channel = c.channel then c.level else bit) channels bits

/-- The changes are to `bits`, at these places. -/
def Writes (channels : List Nat) (bits : List Bool) (changes : List (Transition τ))
    (places : List Nat) : Prop :=
  List.Forall₂ (fun c i => channels[i]? = some c.channel ∧ bits[i]? = some c.level) changes places

section Distance

variable {a b c : List Bool}

theorem distance_self (a : List Bool) : distance a a = 0 := by
  induction a with
  | nil => rfl
  | cons x a ih => simpa [distance] using ih

theorem distance_cons (x y : Bool) (a b : List Bool) :
    distance (x :: a) (y :: b) = distance a b + if x = y then 0 else 1 := by
  unfold distance
  rw [List.zip_cons_cons, List.countP_cons]
  cases x <;> cases y <;> rfl

theorem distance_triangle (hab : a.length = b.length) (hbc : b.length = c.length) :
    distance a c ≤ distance a b + distance b c := by
  induction a generalizing b c with
  | nil => simp [distance]
  | cons x a ih =>
    cases b with
    | nil => cases hab
    | cons y b =>
      cases c with
      | nil => cases hbc
      -- Position by position, two differing bits cannot both agree with a third.
      | cons z c =>
        have hrest := ih (Nat.succ.inj hab) (Nat.succ.inj hbc)
        rw [distance_cons, distance_cons, distance_cons]
        cases x <;> cases y <;> cases z <;> simp <;> omega

/-- Setting one place moves a word by at most the one bit it changes. -/
theorem distance_set (a : List Bool) {i : Nat} {x y : Bool} (hi : a[i]? = some x) :
    distance a (a.set i y) = if x = y then 0 else 1 := by
  induction a generalizing i with
  | nil => cases hi
  | cons z a ih =>
    cases i with
    | zero =>
      cases hi
      rw [List.set_cons_zero, distance_cons, distance_self, Nat.zero_add]
    | succ i => rw [List.set_cons_succ, distance_cons, if_pos rfl, Nat.add_zero, ih hi]

end Distance

section Changes

variable {channels : List Nat} {now bits : List Bool} {changes : List (Transition τ)}
  {places : List Nat} {c : Transition τ}

theorem length_follow (hnow : now.length = channels.length) (c : Transition τ) :
    (follow channels now c).length = channels.length := by
  simp [follow, hnow]

theorem length_foldl_follow (hnow : now.length = channels.length) (changes : List (Transition τ)) :
    (changes.foldl (follow channels) now).length = channels.length := by
  induction changes generalizing now with
  | nil => exact hnow
  | cons c changes ih => exact ih (length_follow hnow c)

/-- A channel stands for one place only. -/
theorem follow_eq_set (hnodup : channels.Nodup) (hnow : now.length = channels.length) {i : Nat}
    (hi : channels[i]? = some c.channel) : follow channels now c = now.set i c.level := by
  obtain ⟨hlt, heq⟩ := List.getElem?_eq_some_iff.mp hi
  unfold follow
  refine List.ext_getElem (by simp [hnow]) fun j hj _ => ?_
  have hj : j < channels.length := by simpa [hnow] using hj
  -- Channels are distinct, so only one place belongs to the channel of the change.
  have hsame : channels[j] = c.channel ↔ i = j := by
    rw [← heq, List.Nodup.getElem_inj_iff hnodup, eq_comm]
  rw [List.getElem_zipWith, List.getElem_set]
  exact if_congr hsame rfl rfl

theorem follow_of_notMem (hnow : now.length = channels.length) (h : c.channel ∉ channels) :
    follow channels now c = now := by
  unfold follow
  refine List.ext_getElem (by simp [hnow]) fun j hj _ => ?_
  have hj : j < channels.length := by simpa [hnow] using hj
  rw [List.getElem_zipWith, if_neg]
  exact fun heq => h (heq ▸ List.getElem_mem hj)

/-- Following one change moves the levels by one bit at most. -/
theorem distance_follow_le (hnodup : channels.Nodup) (hnow : now.length = channels.length)
    (c : Transition τ) : distance now (follow channels now c) ≤ 1 := by
  by_cases hmem : c.channel ∈ channels
  · obtain ⟨i, hi, heq⟩ := List.mem_iff_getElem.mp hmem
    have hplace : channels[i]? = some c.channel := by rw [List.getElem?_eq_getElem hi, heq]
    have hi : i < now.length := hnow ▸ hi
    rw [follow_eq_set hnodup hnow hplace, distance_set now (List.getElem?_eq_getElem hi)]
    split <;> omega
  · rw [follow_of_notMem hnow hmem, distance_self]
    omega

/-- It takes a change for every bit that differs. -/
theorem distance_foldl_follow_le (hnodup : channels.Nodup) (hnow : now.length = channels.length)
    (changes : List (Transition τ)) :
    distance now (changes.foldl (follow channels) now) ≤ changes.length := by
  induction changes generalizing now with
  | nil => rw [List.foldl_nil, distance_self, List.length_nil]
  | cons c changes ih =>
    have hfirst := distance_follow_le hnodup hnow c
    have hlength := length_follow hnow c
    have hrest := ih hlength
    -- One change more, one bit more at most.
    rw [List.foldl_cons, List.length_cons]
    calc distance now (changes.foldl (follow channels) (follow channels now c))
        ≤ distance now (follow channels now c)
            + distance (follow channels now c)
                (changes.foldl (follow channels) (follow channels now c)) :=
          distance_triangle (hnow.trans hlength.symm)
            (hlength.trans (length_foldl_follow hlength _).symm)
      _ ≤ changes.length + 1 := by omega

/-- Following a list of changes, the levels go on by one bit at most at a time. -/
theorem isChain_scanl_follow_le (hnodup : channels.Nodup) (hnow : now.length = channels.length)
    (changes : List (Transition τ)) :
    (changes.scanl (follow channels) now).IsChain fun a b => distance a b ≤ 1 := by
  induction changes generalizing now with
  | nil => exact .singleton now
  | cons c changes ih =>
    rw [List.scanl_cons]
    refine List.isChain_cons.mpr ⟨fun next hnext => ?_, ih (length_follow hnow c)⟩
    rw [List.head?_scanl] at hnext
    cases hnext
    exact distance_follow_le hnodup hnow c

/-- After its writes, every written place has the bit that was asked for and every other place is as it was.
-/
theorem getElem?_foldl_follow (hnodup : channels.Nodup) (hnow : now.length = channels.length)
    (h : Writes channels bits changes places) (j : Nat) :
    (changes.foldl (follow channels) now)[j]? = if j ∈ places then bits[j]? else now[j]? := by
  induction h generalizing now with
  | nil => rfl
  | @cons c i changes places hc _ ih =>
    rw [List.foldl_cons, ih (length_follow hnow c), follow_eq_set hnodup hnow hc.1,
      List.getElem?_set]
    have hi : i < now.length := hnow ▸ (List.getElem?_eq_some_iff.mp hc.1).1
    -- A place is written now, later, or not at all.
    by_cases hj : j ∈ places
    · simp [hj]
    · by_cases hij : i = j
      · subst hij
        simp [hj, hi, hc.2]
      · simp [hj, hij, Ne.symm hij]

/-- Where every written place differed, each step changes one bit exactly. -/
theorem isChain_scanl_follow (hnodup : channels.Nodup) (hnow : now.length = channels.length)
    (h : Writes channels bits changes places) (hplaces : places.Pairwise (· < ·))
    (hne : ∀ i ∈ places, now[i]? ≠ bits[i]?) :
    (changes.scanl (follow channels) now).IsChain fun a b => distance a b = 1 := by
  induction h generalizing now with
  | nil => exact .singleton now
  | @cons c i changes places hc _ ih =>
    obtain ⟨hlater, hplaces⟩ := List.pairwise_cons.mp hplaces
    have hi : i < now.length := hnow ▸ (List.getElem?_eq_some_iff.mp hc.1).1
    have hset := follow_eq_set hnodup hnow hc.1
    rw [List.scanl_cons]
    refine List.isChain_cons.mpr ⟨fun next hnext => ?_, ih (length_follow hnow c) hplaces ?_⟩
    · rw [List.head?_scanl] at hnext
      cases hnext
      rw [hset, distance_set now (List.getElem?_eq_getElem hi), if_neg]
      intro heq
      apply hne i List.mem_cons_self
      rw [hc.2, List.getElem?_eq_getElem hi, heq]
    · -- The places still to come are not touched by this change.
      intro k hk
      rw [hset, List.getElem?_set_ne (Nat.ne_of_lt (hlater k hk))]
      exact hne k (List.mem_cons_of_mem i hk)

end Changes

/-! ## Where a group writes -/

section Targets

variable {channels : List Nat} {bits : List Bool}

/-- The channel at a place, and the bit that it goes to. -/
def target (channels : List Nat) (bits : List Bool) (i : Nat) : Nat × Bool :=
  (channels.getD i 0, bits.getD i false)

theorem target_of_lt (hbits : bits.length = channels.length) {i : Nat} (hi : i < channels.length) :
    channels[i]? = some (target channels bits i).1 ∧ bits[i]? = some (target channels bits i).2 := by
  have hi' : i < bits.length := hbits ▸ hi
  simp [target, hi, hi']

theorem zip_eq_map_target (hbits : bits.length = channels.length) :
    channels.zip bits = (List.range channels.length).map (target channels bits) := by
  refine List.ext_getElem (by simp [hbits]) fun i hi _ => ?_
  have hi : i < channels.length ∧ i < bits.length := by simpa using hi
  simp [target, hi]

/-- The differing channels are taken in the order of the group's own channels. -/
theorem differing_eq_map_target {g : GreyCode τ} (hg : g.bits.length = g.channels.length)
    (hbits : bits.length = g.channels.length) :
    g.differing bits
      = ((List.range g.channels.length).filter fun i => g.bits[i]? ≠ bits[i]?).map
          (target g.channels bits) := by
  -- The three lists have one entry for each channel.
  have hzip : g.channels.zip (g.bits.zip bits) = (List.range g.channels.length).map fun i =>
      (g.channels.getD i 0, g.bits.getD i false, bits.getD i false) := by
    refine List.ext_getElem (by simp [hg, hbits]) fun i hi _ => ?_
    have hi : i < g.channels.length ∧ i < g.bits.length ∧ i < bits.length := by simpa using hi
    simp [hi]
  unfold differing
  rw [hzip, List.filter_map, List.map_map]
  refine congrArg _ (List.filter_congr fun i hi => ?_)
  have hi : i < g.channels.length := List.mem_range.mp hi
  have hnow : i < g.bits.length := hg ▸ hi
  have hnext : i < bits.length := hbits ▸ hi
  simp [hnow, hnext]

/-- There is one change to make for every bit that differs. -/
theorem length_differing {g : GreyCode τ} (hg : g.bits.length = g.channels.length)
    (hbits : bits.length = g.channels.length) :
    (g.differing bits).length = distance g.bits bits := by
  have hsnd : (g.channels.zip (g.bits.zip bits)).map Prod.snd = g.bits.zip bits :=
    List.map_snd_zip (by simp [hg, hbits])
  unfold differing distance
  rw [List.length_map, ← List.countP_eq_length_filter, ← hsnd, List.countP_map, hsnd]
  refine List.countP_congr fun p _ => ?_
  simp

end Targets

section Times

variable [Add τ] [LE τ] [DecidableLE τ] {g : GreyCode τ} {bits : List Bool} {places : List Nat}

theorem writes_train (hbits : bits.length = g.channels.length)
    (hplaces : ∀ i ∈ places, i < g.channels.length) (t : τ) :
    Writes g.channels bits (g.train t (places.map (target g.channels bits))).1 places := by
  have htargets : List.Forall₂ (fun (channel, level) i => g.channels[i]? = some channel
      ∧ bits[i]? = some level) (places.map (target g.channels bits)) places :=
    List.forall₂_map_left_iff.mpr
      (List.forall₂_same.mpr fun i hi => target_of_lt hbits (hplaces i hi))
  rw [← channels_train g t (places.map (target g.channels bits))] at htargets
  exact List.forall₂_map_left_iff.mp htargets

/-- The group once `changes` have taken it to `bits`. -/
def arrived (g : GreyCode τ) (bits : List Bool) (changes : List (Transition τ)) : GreyCode τ :=
  { g with bits, lastChange := (changes.getLast?.map (·.time)).getD g.lastChange }

/-- On `g`, with any sink, a request records `changes`, results in `t` and leaves `g'`. -/
def Does (request : (σ : Type) → [Sink τ σ] → Recorder (GreyCode τ × σ) Fault τ) (g : GreyCode τ)
    (changes : List (Transition τ)) (t : τ) (g' : GreyCode τ) : Prop :=
  ∀ (σ : Type) [Sink τ σ] (sink : σ),
    request σ (g, sink) = ⟨.ok t, (g', Sink.append sink changes), []⟩

/-- What a request for `t` is that takes `g` to `bits` by `changes`, one for each place that is due. -/
structure Walk (request : (σ : Type) → [Sink τ σ] → Recorder (GreyCode τ × σ) Fault τ)
    (g : GreyCode τ) (t : τ) (bits : List Bool) (due : Nat → Prop)
    (changes : List (Transition τ)) : Prop where
  /-- The last change gives the result and is remembered; if there is none, both are as they were. -/
  does : Does request g changes ((changes.getLast?.map (·.time)).getD t) (g.arrived bits changes)
  /-- The changes are in the order of the channels. -/
  places : ∃ places, places.Pairwise (· < ·) ∧ (∀ i, i ∈ places ↔ i < g.channels.length ∧ due i)
    ∧ Writes g.channels bits changes places
  arrives : changes.foldl (follow g.channels) g.bits = bits
  head : ∀ c ∈ changes.head?,
    c.time = if t ≤ g.lastChange + g.spacing then t + g.spacing else t
  spaced : changes.IsChain fun a b => b.time = a.time + g.spacing
  /-- To go there again takes nothing. -/
  settled : ∀ t', Does (fun _ _ => set t' bits) (g.arrived bits changes) [] t'
    (g.arrived bits changes)

/-- Setting the bits that a group already has emits nothing more. -/
theorem set_settled (hbits : bits.length = g.channels.length) (changes : List (Transition τ)) (t : τ) :
    Does (fun _ _ => set t bits) (g.arrived bits changes) [] t (g.arrived bits changes) := by
  intro σ _ sink
  have hwidth : bits.length = (g.arrived bits changes).channels.length := hbits
  have hsame : (g.arrived bits changes).differing bits = [] :=
    (differing_eq_nil_iff hwidth hwidth).mpr rfl
  show write (·.differing bits) t bits (g.arrived bits changes, sink) = _
  rw [write_eq, if_pos hwidth, hsame]
  rfl

end Times

/-! ## The result -/

section ExactTime

variable [AddCommGroup τ] [LinearOrder τ] [IsOrderedAddMonoid τ] {g : GreyCode τ} {bits : List Bool}
  {places : List Nat}

/-- Whatever is written at places of their own, and at least what differs, makes a walk. -/
theorem walk_write (hg : g.bits.length = g.channels.length) (hspacing : 0 ≤ g.spacing)
    (hnodup : g.channels.Nodup) (hbits : bits.length = g.channels.length) (t : τ)
    (targets : GreyCode τ → List (Nat × Bool)) {due : Nat → Prop}
    (htargets : targets g = places.map (target g.channels bits)) (hsorted : places.Pairwise (· < ·))
    (hplaces : ∀ i, i ∈ places ↔ i < g.channels.length ∧ due i)
    (hdue : ∀ i, g.bits[i]? ≠ bits[i]? → due i) :
    Walk (fun _ _ => write targets t bits) g t bits due (g.train t (targets g)).1 := by
  have hwrites : Writes g.channels bits (g.train t (targets g)).1 places :=
    htargets ▸ writes_train hbits (fun i hi => ((hplaces i).mp hi).1) t
  refine ⟨fun σ _ sink => ?_, ⟨places, hsorted, hplaces, hwrites⟩, ?_, fun _ => head?_train g t,
    isChain_train hspacing t _, set_settled hbits _⟩
  · rw [write_eq, if_pos hbits, last_train, train_static, lastChange_train]
    rfl
  · refine List.ext_getElem? fun i => ?_
    rw [getElem?_foldl_follow hnodup hg hwrites]
    split
    · rfl
    · -- What is not written is at its bit already, or is no place at all.
      rename_i hi
      by_contra hne
      refine hi ((hplaces i).mpr ⟨?_, hdue i hne⟩)
      by_contra hge
      rw [List.getElem?_eq_none (by omega), List.getElem?_eq_none (by omega)] at hne
      exact hne rfl

/-- How `g` goes to `bits` when asked to at `t`. -/
structure OneByOne (g : GreyCode τ) (t : τ) (bits : List Bool) : Prop where
  /-- By the fewest changes, each of which changes one bit. -/
  set : ∃ changes,
    Walk (fun _ _ => GreyCode.set t bits) g t bits (fun i => g.bits[i]? ≠ bits[i]?) changes
    ∧ (changes.scanl (follow g.channels) g.bits).IsChain (fun a b => distance a b = 1)
    ∧ ∀ others : List (Transition τ),
        others.foldl (follow g.channels) g.bits = bits → changes.length ≤ others.length
  /-- By one change for each channel, which may have its level already. -/
  force : ∃ changes, Walk (fun _ _ => GreyCode.force t bits) g t bits (fun _ => True) changes
    ∧ (changes.scanl (follow g.channels) g.bits).IsChain fun a b => distance a b ≤ 1

/-- **One switch is a walk.** A group with distinct channels, whatever it was asked before, goes to any
bits by changes of one bit, one spacing after the other. -/
theorem walk_switch (hreach : Reachable g) (hspacing : 0 ≤ g.spacing) (hnodup : g.channels.Nodup)
    (t : τ) (hbits : bits.length = g.channels.length) : OneByOne g t bits := by
  have hg := hreach.length_bits
  have hsorted : (List.range g.channels.length).Pairwise (· < ·) := List.pairwise_lt_range
  constructor
  · have hplaces : ∀ i, i ∈ (List.range g.channels.length).filter (fun i => g.bits[i]? ≠ bits[i]?)
        ↔ i < g.channels.length ∧ g.bits[i]? ≠ bits[i]? := by simp
    have hwalk := walk_write hg hspacing hnodup hbits t (·.differing bits)
      (differing_eq_map_target hg hbits) (hsorted.filter _) hplaces fun _ => id
    refine ⟨_, hwalk, ?_, fun others hothers => ?_⟩
    · obtain ⟨places, hsorted, hplaces, hwrites⟩ := hwalk.places
      exact isChain_scanl_follow hnodup hg hwrites hsorted fun i hi => ((hplaces i).mp hi).2
    -- Whatever else leads to `bits` passes every differing bit, so no list of changes is shorter.
    · have hleast := distance_foldl_follow_le hnodup hg others
      rw [hothers, ← length_differing hg hbits] at hleast
      have hlength := congrArg List.length (channels_train g t (g.differing bits))
      rw [List.length_map] at hlength
      exact hlength ▸ hleast
  · exact ⟨_, walk_write hg hspacing hnodup hbits t (·.channels.zip bits) (zip_eq_map_target hbits)
      hsorted (by simp) fun _ _ => trivial, isChain_scanl_follow_le hnodup hg _⟩

end ExactTime

/-! ## A group on its way -/

/-- The group of three channels after a switch that took it until `11`. -/
def halfway : GreyCode ℤ :=
  ((Call.set 10 [true, false, true]).perform (tripled, [])).state.1

example : halfway.lastChange = 11 ∧ ((Call.set 11 [false, true, true]).perform (halfway, [])).state.2
    = [⟨12, 0, false⟩, ⟨13, 1, true⟩] := by decide +kernel

theorem walk_halfway :
    Reachable halfway ∧ 0 ≤ halfway.spacing ∧ halfway.channels.Nodup
      ∧ [false, true, true].length = halfway.channels.length
      ∧ OneByOne halfway 11 [false, true, true] := by
  have hcreated : create tripled.name tripled.channels tripled.profiles tripled.initialTime
      tripled.spacing = .ok tripled := by decide +kernel
  have hreach : Reachable halfway := (Reachable.created hcreated).called _ _
  have hspacing : 0 ≤ halfway.spacing := by decide +kernel
  have hnodup : halfway.channels.Nodup := by decide +kernel
  exact ⟨hreach, hspacing, hnodup, rfl, walk_switch hreach hspacing hnodup 11 rfl⟩

end PulseTrain.GreyCode
