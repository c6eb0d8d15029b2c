import PulseTrain.Frame
import PulseTrain.Proofs.Sorting

/-!
# The last write wins

What a list of changes asks for, said without sorting: at sample `k` a channel has the level of the
change that is last, by sample and then by arrival, among the changes of that channel up to `k`, and
is low if there is none.

* `Change.Decides` and `Change.LevelAt` are that rule.
* `Levels.after` is a state after changes, one by one.
* `Change.merge_index_lt`, `Change.mem_merge_index` and `Change.state_of_mem_merge` say which samples
  the merge writes down and which state it writes.
* `Change.levelAt_merge` joins the two: sorted stably and merged, changes give the levels they ask for.
-/

namespace PulseTrain

/-! ## The rule -/

namespace Change

/-- The change `c`, which came as number `i`, decides the level of `channel` at sample `k`. -/
structure Decides (cs : List Change) (channel k i : Nat) (c : Change) : Prop where
  arrival : cs[i]? = some c
  channel_eq : c.channel = channel
  index_le : c.index ≤ k
  last : ∀ j d, cs[j]? = some d → d.channel = channel → d.index ≤ k →
    d.index < c.index ∨ d.index = c.index ∧ j ≤ i

/-- The level that `cs` ask for on `channel` at sample `k`. -/
inductive LevelAt (cs : List Change) (channel k : Nat) : Bool → Prop where
  | decided {i : Nat} {c : Change} (h : Decides cs channel k i c) : LevelAt cs channel k c.level
  | untouched (h : ∀ c ∈ cs, c.channel = channel → k < c.index) : LevelAt cs channel k false

/-! ## The stable order

The sort is stable: sorting the changes together with their arrival numbers, by sample and then by
number, sorts the changes themselves in the same way (`List.mergeSort_zipIdx`). So the last of the
sorted changes that satisfy a condition is the last one by sample and arrival. -/

theorem le_iff (a b : Change) : le a b ↔ (a.index : Int) ≤ b.index := by
  simp [le]

theorem trans_le (a b c : Change) (hab : le a b) (hbc : le b c) : le a c :=
  Sorting.trans_le le_iff a b c hab hbc

theorem total_le (a b : Change) : le a b || le b a :=
  Sorting.total_le le_iff a b

/-- Sorted changes come in the order of their samples. -/
theorem pairwise_mergeSort_le (cs : List Change) :
    (cs.mergeSort le).Pairwise fun a b => a.index ≤ b.index := by
  have h : (cs.mergeSort le).Pairwise fun a b => le a b :=
    List.pairwise_mergeSort trans_le total_le cs
  exact h.imp fun hab => by simpa [le] using hab

/-- The sort is stable: changes at one sample stay in the order of their places. -/
theorem zipIdxLE_iff (a b : Change × Nat) :
    List.zipIdxLE le a b ↔ a.1.index < b.1.index ∨ a.1.index = b.1.index ∧ a.2 ≤ b.2 := by
  rw [Sorting.zipIdxLE_iff le_iff]
  omega

/-- The last change of a channel up to `k`, in the sorted list, decides its level there. -/
theorem decides_of_getLast? {cs : List Change} {channel k : Nat} {c : Change}
    (h : ((cs.mergeSort le).filter fun d => d.channel = channel ∧ d.index ≤ k).getLast? = some c) :
    ∃ i, Decides cs channel k i c := by
  let wanted : Change → Bool := fun d => d.channel = channel ∧ d.index ≤ k
  let numbered := cs.zipIdx.mergeSort (List.zipIdxLE le)
  -- The sorted changes with their arrival numbers, cut down to those in question.
  have hsorted : (numbered.filter fun p => wanted p.1).Pairwise fun a b => List.zipIdxLE le a b :=
    (List.pairwise_mergeSort (List.zipIdxLE_trans trans_le) (List.zipIdxLE_total total_le)
      cs.zipIdx).sublist List.filter_sublist
  have hmap : (numbered.filter fun p => wanted p.1).map (·.1)
      = (cs.mergeSort le).filter wanted := by
    rw [← List.mergeSort_zipIdx, List.filter_map]
    rfl
  change ((cs.mergeSort le).filter wanted).getLast? = some c at h
  rw [← hmap, List.getLast?_map] at h
  obtain ⟨⟨d, i⟩, hlast, rfl⟩ := Option.map_eq_some_iff.mp h
  obtain ⟨front, hfront⟩ := List.getLast?_eq_some_iff.mp hlast
  have hmem : (d, i) ∈ numbered.filter fun p => wanted p.1 := by
    rw [hfront]
    simp
  obtain ⟨hnumbered, hwanted⟩ := List.mem_filter.mp hmem
  simp only [wanted, decide_eq_true_eq] at hwanted
  refine ⟨i, ?_, hwanted.1, hwanted.2, ?_⟩
  · exact List.mk_mem_zipIdx_iff_getElem?.mp (List.mem_mergeSort.mp hnumbered)
  · intro j e harrival hchannel hindex
    have he : (e, j) ∈ numbered.filter fun p => wanted p.1 := by
      refine List.mem_filter.mpr ⟨List.mem_mergeSort.mpr ?_, ?_⟩
      · exact List.mk_mem_zipIdx_iff_getElem?.mpr harrival
      · simp [wanted, hchannel, hindex]
    rw [hfront, List.mem_append, List.mem_singleton] at he
    rw [hfront, List.pairwise_append] at hsorted
    -- Any other one comes before `c` in the sorted list, and sorting is stable.
    rcases he with he | he
    · exact (zipIdxLE_iff _ _).mp (hsorted.2.2 _ he _ (List.mem_singleton.mpr rfl))
    · cases he
      exact .inr ⟨rfl, Nat.le_refl _⟩

end Change

/-! ## Changes applied to a state -/

namespace Levels

/-- The state after `cs`, one after the other. -/
def after (s : Levels) (cs : List Change) : Levels :=
  cs.foldl (fun s c => s.set c.channel c.level) s

@[simp] theorem after_nil (s : Levels) : s.after [] = s := rfl

@[simp] theorem after_cons (s : Levels) (c : Change) (cs : List Change) :
    s.after (c :: cs) = (s.set c.channel c.level).after cs := rfl

@[simp] theorem width_after (s : Levels) (cs : List Change) : (s.after cs).width = s.width := by
  induction cs generalizing s with
  | nil => rfl
  | cons c cs ih => rw [after_cons, ih, width_set]

theorem get?_low {channels channel : Nat} (h : channel < channels) :
    (low channels).get? channel = some false := by
  simp [low, get?, h]

/-- After changes a channel has the level of the last one on it. -/
theorem get?_after {s : Levels} {channel : Nat} (h : channel < s.width) (cs : List Change) :
    (s.after cs).get? channel
      = match (cs.filter fun c => c.channel = channel).getLast? with
        | some c => some c.level
        | none => s.get? channel := by
  induction cs generalizing s with
  | nil => rfl
  | cons c cs ih =>
    rw [after_cons, ih (by rwa [width_set])]
    -- A write to the channel decides unless a later one does; other writes do not touch the channel.
    by_cases hc : c.channel = channel
    · rw [List.filter_cons_of_pos (by simpa using hc), List.getLast?_cons]
      cases (cs.filter fun c => c.channel = channel).getLast? with
      | none => simp [get?_set, hc, h]
      | some d => rfl
    · rw [List.filter_cons_of_neg (by simpa using hc)]
      cases (cs.filter fun c => c.channel = channel).getLast? with
      | none => simp [get?_set, hc]
      | some d => rfl

end Levels

/-! ## The merge

For changes in the order of their samples, none of them before the sample that the merge starts at. -/

namespace Change

variable {cs : List Change} {index : Nat} {state : Levels}

/-- Whatever comes, something is written down for the sample at hand. -/
theorem head_merge (index : Nat) (state : Levels) (cs : List Change) :
    ∃ first rest, merge index state cs = (index, first) :: rest := by
  induction cs generalizing state with
  | nil => exact ⟨state, [], rfl⟩
  | cons c cs ih =>
    rw [merge]
    split
    · exact ih _
    · exact ⟨state, _, rfl⟩

/-- The merge writes down the sample it starts at and those of the changes. -/
theorem mem_merge_index {k : Nat} :
    k ∈ (merge index state cs).map Prod.fst ↔ k = index ∨ ∃ c ∈ cs, c.index = k := by
  induction cs generalizing index state with
  | nil => simp [merge]
  | cons c cs ih =>
    rw [merge]
    split
    · rename_i hc
      rw [ih]
      grind
    · rw [List.map_cons, List.mem_cons, ih]
      grind

/-- The merge writes down every sample once, in order. -/
theorem merge_index_lt (hsorted : cs.Pairwise fun a b => a.index ≤ b.index)
    (hfrom : ∀ c ∈ cs, index ≤ c.index) :
    ((merge index state cs).map Prod.fst).Pairwise (· < ·) := by
  induction cs generalizing index state with
  | nil => simp [merge]
  | cons c cs ih =>
    have hrest : ∀ d ∈ cs, c.index ≤ d.index := (List.pairwise_cons.mp hsorted).1
    rw [merge]
    split
    · rename_i hc
      -- `c` falls on the sample at hand, which is written down later.
      exact ih hsorted.of_cons (hc ▸ hrest)
    · rename_i hc
      have hlt : index < c.index := by
        have := hfrom c List.mem_cons_self
        omega
      rw [List.map_cons, List.pairwise_cons]
      refine ⟨fun k hk => ?_, ih hsorted.of_cons hrest⟩
      rcases mem_merge_index.mp hk with rfl | ⟨d, hd, rfl⟩
      · exact hlt
      · exact Nat.lt_of_lt_of_le hlt (hrest d hd)

/-- The state written down for sample `k` is the one after all changes up to `k`. -/
theorem state_of_mem_merge (hsorted : cs.Pairwise fun a b => a.index ≤ b.index)
    (hfrom : ∀ c ∈ cs, index ≤ c.index) {k : Nat} {s : Levels} (h : (k, s) ∈ merge index state cs) :
    s = state.after (cs.filter fun c => c.index ≤ k) := by
  induction cs generalizing index state with
  | nil =>
    rw [merge, List.mem_singleton] at h
    cases h
    rfl
  | cons c cs ih =>
    have hrest : ∀ d ∈ cs, c.index ≤ d.index := (List.pairwise_cons.mp hsorted).1
    -- Whatever the merge writes down from `c` on lies at or after `c`.
    have hle : ∀ {st : Levels}, (k, s) ∈ merge c.index st cs → c.index ≤ k := by
      intro st hmem
      have hk : k ∈ (merge c.index st cs).map Prod.fst := List.mem_map_of_mem hmem
      rcases mem_merge_index.mp hk with rfl | ⟨d, hd, rfl⟩
      · exact Nat.le_refl _
      · exact hrest d hd
    rw [merge] at h
    split at h
    · rename_i hc
      subst hc
      rw [ih hsorted.of_cons hrest h, List.filter_cons_of_pos (by simpa using hle h),
        Levels.after_cons]
    · rename_i hc
      -- Sample `k` is the one written down before `c`, or it comes from `c` on.
      rcases List.mem_cons.mp h with h | h
      · cases h
        have hnone : ((c :: cs).filter fun d => d.index ≤ k) = [] := by
          rw [List.filter_eq_nil_iff]
          intro d hd
          have := hfrom c List.mem_cons_self
          rcases List.mem_cons.mp hd with rfl | hd
          · simp only [decide_eq_true_eq]
            omega
          · have := hrest d hd
            simp only [decide_eq_true_eq]
            omega
        rw [hnone, Levels.after_nil]
      · rw [ih hsorted.of_cons hrest h, List.filter_cons_of_pos (by simpa using hle h),
          Levels.after_cons]

/-! ## The two together -/

/-- The state that sorted and merged changes have at sample `k` is the one that they ask for. -/
theorem levelAt_merge {channels channel k : Nat} {s : Levels} (hchannel : channel < channels)
    (h : (k, s) ∈ merge 0 (Levels.low channels) (cs.mergeSort le)) :
    ∃ level, s.get? channel = some level ∧ LevelAt cs channel k level := by
  have hs := state_of_mem_merge (pairwise_mergeSort_le cs) (fun c _ => Nat.zero_le c.index) h
  have hget := Levels.get?_after (s := Levels.low channels) (by rwa [Levels.width_low])
    ((cs.mergeSort le).filter fun c => c.index ≤ k)
  rw [← hs, List.filter_filter] at hget
  have hwanted : ((cs.mergeSort le).filter fun c =>
        decide (c.channel = channel) && decide (c.index ≤ k))
      = (cs.mergeSort le).filter fun d => d.channel = channel ∧ d.index ≤ k := by
    simp only [Bool.decide_and]
  rw [hwanted] at hget
  -- The last of them in the sorted order decides, and without one the channel was never set.
  cases hlast : ((cs.mergeSort le).filter fun d => d.channel = channel ∧ d.index ≤ k).getLast? with
  | some c =>
    rw [hlast] at hget
    obtain ⟨i, hi⟩ := decides_of_getLast? hlast
    exact ⟨c.level, hget, .decided hi⟩
  | none =>
    rw [hlast] at hget
    refine ⟨false, hget.trans (Levels.get?_low hchannel), .untouched fun c hc hon => ?_⟩
    rw [List.getLast?_eq_none_iff, List.filter_eq_nil_iff] at hlast
    have hnot := hlast c (List.mem_mergeSort.mpr hc)
    simp only [hon, true_and, decide_eq_true_eq] at hnot
    omega

end Change

end PulseTrain
