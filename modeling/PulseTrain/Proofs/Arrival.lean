import Mathlib.Data.Fin.VecNotation
import Mathlib.Order.Fin.Basic
import PulseTrain.Proofs.RoundTrip

/-!
# The order of arrival

Requests for different channels, or for different samples, may come in any order. All that an
artifact depends on is which request came last for each channel at each sample.

* `Transition.slot?` is the channel and the sample that a transition is for, and `lastWrite?` the
  level that the last of several asks for there.
* `Frame.ofTransitions_eq_of_lastWrite?` says that the frames of a recording depend on nothing else.
* `Rearranges` is a recording in another order; `Rearranges.lastWrite?_eq` says that every last
  request stays the last.
* `Artifact.eq_of_reordered` is the result.
-/

namespace PulseTrain

/-! ## The last of a list -/

section Last

variable {α : Type} {p : α → Bool} {xs : List α}

/-- The last of the entries that are kept has a place in the list, and none of them has a later one. -/
theorem exists_getElem?_of_getLast?_filter {x : α} (h : (xs.filter p).getLast? = some x) :
    ∃ i : Nat, xs[i]? = some x ∧ p x ∧ ∀ (j : Nat) y, xs[j]? = some y → p y → j ≤ i := by
  rw [List.getLast?_filter, List.find?_eq_some_iff_append] at h
  obtain ⟨hx, after, before, hxs, hafter⟩ := h
  obtain rfl : xs = before.reverse ++ x :: after.reverse := by
    rw [← List.reverse_reverse xs, hxs]
    simp
  refine ⟨before.length, by simp, hx, fun j y hj hy => ?_⟩
  -- A later `y` would stand among what comes after `x`, where nothing has `p`.
  by_contra hlt
  have hlength : before.reverse.length < j := by
    rw [List.length_reverse]
    omega
  rw [List.getElem?_append_right hlength.le, List.getElem?_cons, if_neg (by omega)] at hj
  have hmem : y ∈ after := List.mem_reverse.mp (List.mem_of_getElem? hj)
  simpa [hy] using hafter y hmem

/-- The last of `xs` that satisfies `p`, by its place. -/
theorem getLast?_filter_eq_some_iff {x : α} :
    (xs.filter p).getLast? = some x
      ↔ ∃ i : Nat, xs[i]? = some x ∧ p x ∧ ∀ (j : Nat) y, xs[j]? = some y → p y → j ≤ i := by
  refine ⟨exists_getElem?_of_getLast?_filter, fun ⟨i, hi, hx, hlast⟩ => ?_⟩
  cases h : (xs.filter p).getLast? with
  | none =>
    have hmem : x ∈ xs.filter p := List.mem_filter.mpr ⟨List.mem_of_getElem? hi, hx⟩
    rw [List.getLast?_eq_none_iff.mp h] at hmem
    cases hmem
  | some z =>
    obtain ⟨i', hi', hz, hlast'⟩ := exists_getElem?_of_getLast?_filter h
    obtain rfl : i = i' := Nat.le_antisymm (hlast' i x hi hx) (hlast i' z hi' hz)
    rw [← hi, ← hi']

end Last

/-! ## Changes

What changes ask for depends on the last of them for each channel at each sample. -/

namespace Change

/-- The channel and the sample that a change is for. -/
def slot (c : Change) : Nat × Nat :=
  (c.channel, c.index)

/-- The level that the last of `cs` for a channel at a sample asks for. -/
def lastAt? (cs : List Change) (slot : Nat × Nat) : Option Bool :=
  (cs.filter fun c => c.slot = slot).getLast?.map (·.level)

variable {cs cs' : List Change}

/-- The last change of a slot, by its place. -/
theorem lastAt?_eq_some_iff {slot : Nat × Nat} {level : Bool} :
    lastAt? cs slot = some level
      ↔ ∃ (i : Nat) (c : Change), cs[i]? = some c ∧ c.slot = slot ∧ c.level = level
          ∧ ∀ (j : Nat) d, cs[j]? = some d → d.slot = slot → j ≤ i := by
  unfold lastAt?
  rw [Option.map_eq_some_iff]
  simp only [getLast?_filter_eq_some_iff, decide_eq_true_eq]
  constructor
  · rintro ⟨c, ⟨i, hi, hslot, hlast⟩, hlevel⟩
    exact ⟨i, c, hi, hslot, hlevel, hlast⟩
  · rintro ⟨i, c, hi, hslot, hlevel, hlast⟩
    exact ⟨c, ⟨i, hi, hslot, hlast⟩, hlevel⟩

/-- A slot has a last change if it has one at all. -/
theorem exists_slot_iff {slot : Nat × Nat} :
    (∃ c ∈ cs, c.slot = slot) ↔ (lastAt? cs slot).isSome := by
  unfold lastAt?
  rw [Option.isSome_map, List.getLast?_isSome, ne_eq, List.filter_eq_nil_iff]
  simp

/-- A channel has one level at a time. -/
theorem LevelAt.unique {channel k : Nat} {level level' : Bool} (h : LevelAt cs channel k level)
    (h' : LevelAt cs channel k level') : level = level' := by
  cases h with
  | @decided i c h =>
    cases h' with
    | @decided i' c' h' =>
      -- Each is the last write up to `k`, so neither comes after the other.
      have hlast := h.last i' c' h'.arrival h'.channel_eq h'.index_le
      have hlast' := h'.last i c h.arrival h.channel_eq h.index_le
      obtain rfl : i = i' := by omega
      exact congrArg level (Option.some.inj (h.arrival.symm.trans h'.arrival))
    | untouched h' =>
      exact absurd h.index_le
        (Nat.not_le.mpr (h' c (List.mem_of_getElem? h.arrival) h.channel_eq))
  | untouched h =>
    cases h' with
    | @decided i' c' h' =>
      exact absurd h'.index_le
        (Nat.not_le.mpr (h c' (List.mem_of_getElem? h'.arrival) h'.channel_eq))
    | untouched => rfl

variable (h : ∀ slot, lastAt? cs slot = lastAt? cs' slot)
include h

/-- Lists with the same last changes change the same slots. -/
theorem exists_slot_of_lastAt? {c : Change} (hc : c ∈ cs) : ∃ c' ∈ cs', c'.slot = c.slot :=
  exists_slot_iff.mpr (h c.slot ▸ exists_slot_iff.mp ⟨c, hc, rfl⟩)

/-- What level a channel has follows from the last changes alone. -/
theorem LevelAt.of_lastAt? {channel k : Nat} {level : Bool} (hlevel : LevelAt cs channel k level) :
    LevelAt cs' channel k level := by
  have hback := fun c' => exists_slot_of_lastAt? (fun slot => (h slot).symm) (c := c')
  cases hlevel with
  | @decided i c hdecides =>
    have hlast : lastAt? cs c.slot = some c.level := by
      refine lastAt?_eq_some_iff.mpr ⟨i, c, hdecides.arrival, rfl, rfl, fun j d hj hslot => ?_⟩
      have hslot := Prod.mk.inj hslot
      have := hdecides.last j d hj (hslot.1.trans hdecides.channel_eq)
        (hslot.2.le.trans hdecides.index_le)
      omega
    rw [h, lastAt?_eq_some_iff] at hlast
    obtain ⟨i', c', hi', hslot, hlevel, hlast⟩ := hlast
    obtain ⟨hchannel, hindex⟩ := Prod.mk.inj hslot
    rw [← hlevel]
    refine .decided ⟨hi', hchannel.trans hdecides.channel_eq, hindex.le.trans hdecides.index_le, ?_⟩
    intro j d' hj hd hk
    -- Some change of `cs` is for the same slot as `d'`, and so no later than `c`.
    obtain ⟨d, hd', hdslot⟩ := hback d' (List.mem_of_getElem? hj)
    obtain ⟨n, hn⟩ := List.mem_iff_getElem?.mp hd'
    obtain ⟨hdchannel, hdindex⟩ := Prod.mk.inj hdslot
    rcases hdecides.last n d hn (hdchannel.trans hd) (hdindex.le.trans hk) with hlt | ⟨heq, -⟩
    · exact .inl (by omega)
    · have hsame : d'.index = c'.index := by omega
      exact .inr ⟨hsame, hlast j d' hj
        (Prod.ext (hd.trans hdecides.channel_eq.symm) (hsame.trans hindex))⟩
  | untouched hnone =>
    -- A channel that `cs` leaves alone is left alone by `cs'`, which writes to the same slots.
    refine .untouched fun c' hc' hchannel => ?_
    obtain ⟨c, hc, hslot⟩ := hback c' hc'
    obtain ⟨hchannel', hindex⟩ := Prod.mk.inj hslot
    exact hindex ▸ hnone c hc (hchannel'.trans hchannel)

end Change

/-! ## Frames -/

/-- States are equal if all channels have the same level. -/
theorem Levels.eq_of_get? {s s' : Levels} (hwidth : s.width = s'.width)
    (h : ∀ channel < s.width, s.get? channel = s'.get? channel) : s = s' := by
  cases s with
  | mk bits =>
    cases s' with
    | mk bits' =>
      have hlength : bits.length = bits'.length := hwidth
      refine congrArg Levels.mk (List.ext_getElem? fun i => ?_)
      by_cases hi : i < bits.length
      · exact h i hi
      · rw [List.getElem?_eq_none (by omega), List.getElem?_eq_none (by omega)]

theorem eq_of_map_fst {α β : Type} {l l' : List (α × β)} (hfst : l.map Prod.fst = l'.map Prod.fst)
    (h : ∀ k s s', (k, s) ∈ l → (k, s') ∈ l' → s = s') : l = l' := by
  induction l generalizing l' with
  | nil => exact (List.map_eq_nil_iff.mp hfst.symm).symm
  | cons p l ih =>
    cases l' with
    | nil => cases hfst
    | cons p' l' =>
      rw [List.map_cons, List.map_cons, List.cons.injEq] at hfst
      have hhead : p = p' := Prod.ext hfst.1
        (h p.1 p.2 p'.2 List.mem_cons_self (hfst.1 ▸ List.mem_cons_self))
      rw [hhead, ih hfst.2 fun k s s' hs hs' =>
        h k s s' (List.mem_cons_of_mem p hs) (List.mem_cons_of_mem p' hs')]

namespace Change

variable {cs cs' : List Change} (h : ∀ slot, lastAt? cs slot = lastAt? cs' slot)
include h

/-- The samples at which something is written down follow from the last changes. -/
theorem map_fst_merge_eq (channels : Nat) :
    (merge 0 (Levels.low channels) (cs.mergeSort le)).map Prod.fst
      = (merge 0 (Levels.low channels) (cs'.mergeSort le)).map Prod.fst := by
  have hnodup := fun cs => (Frame.merge_increasing channels cs).imp Nat.ne_of_lt
  have hle := fun cs => (Frame.merge_increasing channels cs).imp Nat.le_of_lt
  -- Both lists of indices increase, so it is enough that they hold the same indices.
  refine List.Perm.eq_of_pairwise (fun a b _ _ => Nat.le_antisymm) (hle cs) (hle cs') ?_
  refine (List.perm_ext_iff_of_nodup (hnodup cs) (hnodup cs')).mpr fun k => ?_
  simp only [mem_merge_index, List.mem_mergeSort]
  have hindex : ∀ {cs cs' : List Change}, (∀ slot, lastAt? cs slot = lastAt? cs' slot) →
      (∃ c ∈ cs, c.index = k) → ∃ c ∈ cs', c.index = k := by
    rintro cs cs' h ⟨c, hc, rfl⟩
    obtain ⟨c', hc', hslot⟩ := exists_slot_of_lastAt? h hc
    exact ⟨c', hc', (Prod.mk.inj hslot).2⟩
  exact or_congr_right ⟨hindex h, hindex fun slot => (h slot).symm⟩

/-- So do the states that are written down there. -/
theorem merge_eq (channels : Nat) :
    merge 0 (Levels.low channels) (cs.mergeSort le)
      = merge 0 (Levels.low channels) (cs'.mergeSort le) := by
  refine eq_of_map_fst (map_fst_merge_eq h channels) fun k s s' hs hs' => ?_
  have hwidth := Frame.width_of_mem_merge hs
  have hwidth' := Frame.width_of_mem_merge hs'
  refine Levels.eq_of_get? (hwidth.trans hwidth'.symm) fun channel hchannel => ?_
  obtain ⟨level, hget, hlevel⟩ := levelAt_merge (hwidth ▸ hchannel) hs
  obtain ⟨level', hget', hlevel'⟩ := levelAt_merge (hwidth ▸ hchannel) hs'
  rw [hget, hget', (hlevel.of_lastAt? h).unique hlevel']

end Change

/-- The frames of changes follow from the last change of each slot. -/
theorem Frame.ofChanges_eq_of_lastAt? {cs cs' : List Change}
    (h : ∀ slot, Change.lastAt? cs slot = Change.lastAt? cs' slot) (channels : Nat) :
    ofChanges channels cs = ofChanges channels cs' := by
  -- Without changes there is no last write, so the other list is empty too.
  have hnil : ∀ {cs cs' : List Change}, (∀ slot, Change.lastAt? cs slot = Change.lastAt? cs' slot) →
      cs = [] → cs' = [] := by
    rintro cs cs' h rfl
    refine List.eq_nil_iff_forall_not_mem.mpr fun c' hc' => ?_
    obtain ⟨c, hc, -⟩ := Change.exists_slot_of_lastAt? (fun slot => (h slot).symm) hc'
    cases hc
  by_cases hcs : cs = []
  · rw [hcs, hnil h hcs]
  · have hcs' : cs' ≠ [] := fun hcs' => hcs (hnil (fun slot => (h slot).symm) hcs')
    rw [ofChanges_eq hcs, ofChanges_eq hcs', Change.merge_eq h]

/-! ## Recordings -/

/-- The channel that a transition is for, and its sample on `card`, if it has one. -/
def Transition.slot? (card : Card) (t : Transition Float) : Option (Nat × Nat) :=
  (sampleIndex? card.clockRate card.units t.time).map fun index => (t.channel, index)

/-- The level that the last of `ts` for a channel at a sample asks for. -/
def lastWrite? (card : Card) (ts : List (Transition Float)) (slot : Nat × Nat) : Option Bool :=
  (ts.filter fun t => t.slot? card = some slot).getLast?.map (·.level)

section Recordings

variable {card : Card} {ts ts' : List (Transition Float)}

/-- A transition is placed in the slot of its change. -/
theorem Change.Places.slot?_eq {t : Transition Float} {c : Change} (h : Places card t c) :
    t.slot? card = some c.slot := by
  unfold Transition.slot? slot
  rw [h.index_eq, h.channel_eq]
  rfl

/-- The last write of a slot is its last change. -/
theorem lastWrite?_eq_lastAt? {cs : List Change} (h : List.Forall₂ (Change.Places card) ts cs)
    (slot : Nat × Nat) : lastWrite? card ts slot = Change.lastAt? cs slot := by
  -- Filtering by slot keeps transitions and changes in step.
  have hfilter : List.Forall₂ (Change.Places card) (ts.filter fun t => t.slot? card = some slot)
      (cs.filter fun c => c.slot = slot) :=
    List.rel_filter (fun t c hplaces => by simp [hplaces.slot?_eq]) h
  have hlevels : (ts.filter fun t => t.slot? card = some slot).map (·.level)
      = (cs.filter fun c => c.slot = slot).map (·.level) := by
    rw [← List.forall₂_eq_eq_eq, List.forall₂_map_left_iff, List.forall₂_map_right_iff]
    exact hfilter.imp fun t c hplaces => hplaces.level_eq.symm
  unfold lastWrite? Change.lastAt?
  rw [← List.getLast?_map, ← List.getLast?_map, hlevels]

/-- The frames of a recording depend on nothing but its last writes. -/
theorem Frame.ofTransitions_eq_of_lastWrite? {fs fs' : List Frame}
    (h : ofTransitions card ts = .ok fs) (h' : ofTransitions card ts' = .ok fs')
    (hsame : ∀ slot, lastWrite? card ts slot = lastWrite? card ts' slot) : fs = fs' := by
  obtain ⟨cs, hcs, rfl⟩ := eq_ofChanges_of_ofTransitions h
  obtain ⟨cs', hcs', rfl⟩ := eq_ofChanges_of_ofTransitions h'
  refine ofChanges_eq_of_lastAt? (fun slot => ?_) card.channels
  rw [← lastWrite?_eq_lastAt? hcs, ← lastWrite?_eq_lastAt? hcs', hsame]

end Recordings

/-! ## Recordings with the same last writes -/

/-- Wherever one of two recordings writes, both do, and the last writes go to the same level. -/
def SameLastWrites (card : Card) (ts ts' : List (Transition Float)) : Prop :=
  ∀ t ∈ ts ++ ts', ∀ slot ∈ t.slot? card, lastWrite? card ts slot = lastWrite? card ts' slot

/-- The recording `ts'` is `ts` in another order: `place` says where each transition goes, and those
for one channel at one sample stay in order. -/
structure Rearranges (card : Card) (ts ts' : List (Transition Float))
    (place : Fin ts.length ≃ Fin ts'.length) : Prop where
  get_eq : ∀ i, ts'.get (place i) = ts.get i
  inOrder : ∀ i j, i < j → ∀ slot ∈ (ts.get i).slot? card, (ts.get j).slot? card = some slot →
    place i < place j

section Rearranging

variable {card : Card} {ts ts' : List (Transition Float)}

/-- A slot is never written if no transition is placed in it. -/
theorem lastWrite?_eq_none_iff {slot : Nat × Nat} :
    lastWrite? card ts slot = none ↔ ∀ t ∈ ts, t.slot? card ≠ some slot := by
  unfold lastWrite?
  rw [Option.map_eq_none_iff, List.getLast?_eq_none_iff, List.filter_eq_nil_iff]
  simp

/-- The last write of a slot is the same on both recordings. -/
theorem SameLastWrites.lastWrite?_eq (h : SameLastWrites card ts ts') (slot : Nat × Nat) :
    lastWrite? card ts slot = lastWrite? card ts' slot := by
  by_cases hsome : ∃ t ∈ ts ++ ts', t.slot? card = some slot
  · obtain ⟨t, ht, hslot⟩ := hsome
    exact h t ht slot hslot
  · -- Where neither writes, there is no last write in either.
    have hnone : ∀ t ∈ ts ++ ts', t.slot? card ≠ some slot :=
      fun t ht hslot => hsome ⟨t, ht, hslot⟩
    rw [lastWrite?_eq_none_iff.mpr fun t ht => hnone t (List.mem_append_left ts' ht),
      lastWrite?_eq_none_iff.mpr fun t ht => hnone t (List.mem_append_right ts ht)]

/-- The last write of a slot, by its place in the recording. -/
theorem lastWrite?_eq_some_iff {slot : Nat × Nat} {level : Bool} :
    lastWrite? card ts slot = some level
      ↔ ∃ i : Fin ts.length, (ts.get i).slot? card = some slot ∧ (ts.get i).level = level
          ∧ ∀ j : Fin ts.length, (ts.get j).slot? card = some slot → j ≤ i := by
  unfold lastWrite?
  rw [Option.map_eq_some_iff]
  simp only [getLast?_filter_eq_some_iff, decide_eq_true_eq]
  constructor
  · rintro ⟨t, ⟨i, hi, hslot, hlast⟩, hlevel⟩
    obtain ⟨hlt, rfl⟩ := List.getElem?_eq_some_iff.mp hi
    exact ⟨⟨i, hlt⟩, hslot, hlevel, fun j hj => hlast j _ (List.getElem?_eq_getElem j.isLt) hj⟩
  · rintro ⟨i, hslot, hlevel, hlast⟩
    refine ⟨ts.get i, ⟨i, List.getElem?_eq_getElem i.isLt, hslot, fun j t hj ht => ?_⟩, hlevel⟩
    obtain ⟨hlt, rfl⟩ := List.getElem?_eq_some_iff.mp hj
    exact hlast ⟨j, hlt⟩ ht

section Places

variable {place : Fin ts.length ≃ Fin ts'.length}

theorem Rearranges.get_symm (h : Rearranges card ts ts' place) (j : Fin ts'.length) :
    ts.get (place.symm j) = ts'.get j := by
  rw [← h.get_eq, Equiv.apply_symm_apply]

/-- Rearranging can be taken back. -/
theorem Rearranges.symm (h : Rearranges card ts ts' place) :
    Rearranges card ts' ts place.symm := by
  refine ⟨h.get_symm, fun i j hij slot hi hj => ?_⟩
  rw [← h.get_symm] at hi hj
  -- Otherwise the two stood the other way round in `ts`, and would have kept that order.
  by_contra hnot
  have hne : place.symm j ≠ place.symm i := fun heq => hij.ne (place.symm.injective heq).symm
  have hback := h.inOrder _ _ (lt_of_le_of_ne (not_lt.mp hnot) hne) slot hj hi
  rw [Equiv.apply_symm_apply, Equiv.apply_symm_apply] at hback
  exact absurd hij hback.asymm

/-- A last write is still the last after rearranging, since the order within a slot is kept. -/
theorem Rearranges.lastWrite?_eq_some (h : Rearranges card ts ts' place) {slot : Nat × Nat}
    {level : Bool} (hlast : lastWrite? card ts slot = some level) :
    lastWrite? card ts' slot = some level := by
  obtain ⟨i, hslot, hlevel, hlast⟩ := lastWrite?_eq_some_iff.mp hlast
  rw [← h.get_eq] at hslot hlevel
  refine lastWrite?_eq_some_iff.mpr ⟨place i, hslot, hlevel, fun j hj => ?_⟩
  by_contra hlt
  -- A write that comes after the last one in `ts'` came after it in `ts`.
  have hback := h.symm.inOrder (place i) j (not_le.mp hlt) slot hslot hj
  rw [Equiv.symm_apply_apply] at hback
  have hle : place.symm j ≤ i := hlast (place.symm j) ((h.get_symm j).symm ▸ hj)
  exact absurd hle (not_le.mpr hback)

theorem Rearranges.lastWrite?_eq (h : Rearranges card ts ts' place) (slot : Nat × Nat) :
    lastWrite? card ts slot = lastWrite? card ts' slot :=
  Option.ext fun _ => ⟨h.lastWrite?_eq_some, h.symm.lastWrite?_eq_some⟩

end Places

end Rearranging

/-! ## The result -/

namespace Artifact

/-- A recording with the same last writes compiles to the same artifact. -/
theorem ofLedger_of_lastWrite? {card : Card} {l l' : Ledger} {a : Artifact} {fs' : List Frame}
    (h : ofLedger card l = .ok a) (hcheck : Region.check l'.regions = .ok ())
    (hfs' : Frame.ofTransitions card l'.transitions = .ok fs')
    (hsame : ∀ slot, lastWrite? card l.transitions slot = lastWrite? card l'.transitions slot) :
    ofLedger card l' = .ok a := by
  obtain ⟨-, fs, hfs, hfits, rfl⟩ := ofLedger_eq_ok_iff.mp h
  obtain rfl : fs = fs' := Frame.ofTransitions_eq_of_lastWrite? hfs hfs' hsame
  exact ofLedger_eq_ok_iff.mpr ⟨hcheck, fs, hfs', hfits, rfl⟩

/-- **The order of independent requests does not matter.** If two ledgers compile, and one is the
other rearranged, with all requests for one channel at one sample still in order, or at least the last
of these requests go to the same levels, then their artifacts are the same, down to the text. -/
theorem eq_of_reordered {card : Card} {l l' : Ledger} {a a' : Artifact}
    (h : ofLedger card l = .ok a) (h' : ofLedger card l' = .ok a')
    (hsame : (∃ place, Rearranges card l.transitions l'.transitions place)
      ∨ SameLastWrites card l.transitions l'.transitions) :
    a = a' ∧ a.xml = a'.xml := by
  -- Either way of rearranging keeps the last write to every slot.
  have hlast : ∀ slot, lastWrite? card l.transitions slot
      = lastWrite? card l'.transitions slot := by
    rcases hsame with ⟨place, hplace⟩ | hsame
    · exact hplace.lastWrite?_eq
    · exact hsame.lastWrite?_eq
  obtain ⟨hcheck, fs', hfs', -⟩ := ofLedger_eq_ok_iff.mp h'
  obtain rfl : a = a' :=
    Except.ok.inj ((ofLedger_of_lastWrite? h hcheck hfs' hlast).symm.trans h')
  exact ⟨rfl, rfl⟩

end Artifact

/-! ## A recording that is corrected

`Ledger.unordered` with one request more, which is overwritten; and the same in another order, in
which it is still the earlier of the two. -/

/-- Five requests, two of them for channel 0 at sample 3. -/
def Ledger.corrected : Ledger where
  transitions := [⟨7, 1, true⟩, ⟨3, 0, false⟩, ⟨1, 0, false⟩, ⟨3.25, 0, true⟩, ⟨9, 1, true⟩]

/-- The same requests in another order. -/
def Ledger.shuffled : Ledger where
  transitions := [⟨9, 1, true⟩, ⟨3, 0, false⟩, ⟨3.25, 0, true⟩, ⟨7, 1, true⟩, ⟨1, 0, false⟩]

/-- Where each of the requests goes. -/
def Ledger.shuffling : Fin 5 ≃ Fin 5 where
  toFun := ![3, 1, 4, 2, 0]
  invFun := ![4, 1, 3, 0, 2]
  left_inv := by
    unfold Function.LeftInverse
    decide
  right_inv := by
    unfold Function.RightInverse Function.LeftInverse
    decide

/-- Only writes that are overwritten anyway have been left out. -/
theorem Ledger.sameLastWrites_corrected :
    SameLastWrites Card.paired unordered.transitions corrected.transitions := by
  unfold SameLastWrites
  decide +kernel

/-- Transitions of different slots have changed places. -/
theorem Ledger.rearranges_shuffled :
    Rearranges Card.paired corrected.transitions shuffled.transitions shuffling where
  get_eq := by decide +kernel
  inOrder := by decide +kernel

namespace Artifact

theorem ofLedger_corrected : ofLedger Card.paired Ledger.corrected = .ok unordered := by
  have hplaced : Ledger.corrected.transitions.mapM (Change.ofTransition Card.paired)
      = .ok [⟨7, 1, true⟩, ⟨3, 0, false⟩, ⟨1, 0, false⟩, ⟨3, 0, true⟩, ⟨9, 1, true⟩] := by
    decide +kernel
  exact ofLedger_of_lastWrite? ofLedger_unordered Region.check_nil (congrArg (Except.map _) hplaced)
    Ledger.sameLastWrites_corrected.lastWrite?_eq

theorem ofLedger_shuffled : ofLedger Card.paired Ledger.shuffled = .ok unordered := by
  have hplaced : Ledger.shuffled.transitions.mapM (Change.ofTransition Card.paired)
      = .ok [⟨9, 1, true⟩, ⟨3, 0, false⟩, ⟨3, 0, true⟩, ⟨7, 1, true⟩, ⟨1, 0, false⟩] := by
    decide +kernel
  exact ofLedger_of_lastWrite? ofLedger_corrected Region.check_nil (congrArg (Except.map _) hplaced)
    Ledger.rearranges_shuffled.lastWrite?_eq

/-- The three recordings have one artifact, and one text. -/
theorem eq_shuffled :
    ∃ a a' a'', ofLedger Card.paired Ledger.unordered = .ok a
      ∧ ofLedger Card.paired Ledger.corrected = .ok a'
      ∧ ofLedger Card.paired Ledger.shuffled = .ok a''
      ∧ (a = a' ∧ a.xml = a'.xml) ∧ a' = a'' ∧ a'.xml = a''.xml := by
  refine ⟨_, _, _, ofLedger_unordered, ofLedger_corrected, ofLedger_shuffled, ?_, ?_⟩
  · exact eq_of_reordered ofLedger_unordered ofLedger_corrected
      (.inr Ledger.sameLastWrites_corrected)
  · exact eq_of_reordered ofLedger_corrected ofLedger_shuffled
      (.inl ⟨Ledger.shuffling, Ledger.rearranges_shuffled⟩)

end Artifact

end PulseTrain
