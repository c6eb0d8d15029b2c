import PulseTrain.Proofs.Overlap
import PulseTrain.Proofs.Repetition

/-!
# Which overlap is refused

The check compares neighbours in the order of their starts. Here that is an order of the numbers under
which regions are listed, which tells regions apart that are equal. So the outcome is said without
sorting; and for regions that start at different times it does not depend on how they are listed.

* `Region.Precedes` is the order, and `Region.FirstOverlap` the two regions that are refused.
* `Region.order` lists the numbers in that order, and `Region.mem_pairs_iff` says which ones are next
  to each other in it.
* `Region.check_eq_ok_iff_precedes`, `Region.check_eq_error_iff` and `Region.check_eq_of_perm` say when
  the check passes, what it refuses and when the listing does not matter.
* `Region.checked_of_isNaN_eq_false` is the result.
-/

namespace PulseTrain

namespace Region

open Binary64 (totalKey)

/-! ## The order of regions -/

/-- Number `i` comes before number `j`: its region starts first, or they start together and it is
listed first. -/
def Precedes (rs : List Region) (i j : Fin rs.length) : Prop :=
  totalKey rs[i].start < totalKey rs[j].start
    ∨ totalKey rs[i].start = totalKey rs[j].start ∧ i < j

/-- Number `j` is the next one after number `i`. -/
structure Neighbours (rs : List Region) (i j : Fin rs.length) : Prop where
  precedes : Precedes rs i j
  next : ∀ k, Precedes rs i k → ¬ Precedes rs k j

/-- The region with number `j` starts before the one with number `i` ends. -/
def Overlaps (rs : List Region) (i j : Fin rs.length) : Prop :=
  rs[j].start < rs[i].stop

instance (rs : List Region) (i j : Fin rs.length) : Decidable (Overlaps rs i j) :=
  inferInstanceAs (Decidable (rs[j].start < rs[i].stop))

/-- Numbers `i` and `j` are the first neighbours that overlap. -/
structure FirstOverlap (rs : List Region) (i j : Fin rs.length) : Prop where
  neighbours : Neighbours rs i j
  overlaps : Overlaps rs i j
  first : ∀ i' j', Neighbours rs i' j' → Overlaps rs i' j' → i' = i ∨ Precedes rs i i'

/-! ## Regions in that order -/

section Order

variable {rs : List Region} {i j : Fin rs.length}

theorem Precedes.asymm (h : Precedes rs i j) : ¬ Precedes rs j i := by
  unfold Precedes at *
  omega

theorem precedes_trichotomy (i j : Fin rs.length) : Precedes rs i j ∨ i = j ∨ Precedes rs j i := by
  unfold Precedes
  omega

/-- Number `i` comes no later than number `j`. -/
def orderLE (rs : List Region) (i j : Fin rs.length) : Bool :=
  List.zipIdxLE le (rs[i], i.val) (rs[j], j.val)

/-- The order of places is that of the regions there, and for equal starts that of the places. -/
theorem orderLE_iff : orderLE rs i j ↔ Precedes rs i j ∨ i = j := by
  refine (Sorting.zipIdxLE_iff le_iff _ _).trans ?_
  show totalKey rs[i].start < totalKey rs[j].start
    ∨ totalKey rs[i].start = totalKey rs[j].start ∧ i.val ≤ j.val ↔ _
  by_cases heq : i = j
  · subst heq
    simp
  -- Different positions have different numbers, so one of the orders is strict.
  · have hne : i.val ≠ j.val := Fin.val_ne_of_ne heq
    unfold Precedes
    omega

/-- The numbers of regions in the order of the starts. -/
def order (rs : List Region) : List (Fin rs.length) :=
  (List.finRange rs.length).mergeSort (orderLE rs)

theorem mem_order (i : Fin rs.length) : i ∈ order rs :=
  List.mem_mergeSort.mpr (List.mem_finRange i)

theorem nodup_order (rs : List Region) : (order rs).Nodup :=
  (List.mergeSort_perm _ _).nodup_iff.mpr (List.nodup_finRange _)

theorem trans_orderLE (i j k : Fin rs.length) (hij : orderLE rs i j) (hjk : orderLE rs j k) :
    orderLE rs i k := by
  unfold orderLE at *
  exact List.zipIdxLE_trans trans_le (rs[i], i.val) (rs[j], j.val) (rs[k], k.val) hij hjk

theorem total_orderLE (i j : Fin rs.length) : orderLE rs i j || orderLE rs j i :=
  List.zipIdxLE_total total_le (rs[i], i.val) (rs[j], j.val)

/-- In the order each region precedes those after it. -/
theorem pairwise_order (rs : List Region) : (order rs).Pairwise (Precedes rs) := by
  have hsorted : (order rs).Pairwise fun i j => orderLE rs i j :=
    List.pairwise_mergeSort trans_orderLE total_orderLE _
  refine (hsorted.and (nodup_order rs)).imp fun ⟨hle, hne⟩ => ?_
  exact (orderLE_iff.mp hle).resolve_right hne

/-- Regions with their numbers are the regions at the numbers. -/
theorem zipIdx_eq_map_finRange (rs : List Region) :
    rs.zipIdx = (List.finRange rs.length).map fun i => (rs[i], i.val) := by
  apply List.ext_getElem
  · simp
  · intro i hi hi'
    simp

/-- In this order stand the sorted regions. -/
theorem map_order (rs : List Region) : (order rs).map (fun i => rs[i]) = rs.mergeSort le := by
  have hnumbered : (order rs).map (fun i => (rs[i], i.val))
      = rs.zipIdx.mergeSort (List.zipIdxLE le) := by
    rw [zipIdx_eq_map_finRange]
    exact List.map_mergeSort fun _ _ _ _ => rfl
  rw [← List.mergeSort_zipIdx, ← hnumbered, List.map_map]
  rfl

/-- What comes earlier in the order precedes. -/
theorem precedes_of_lt {m n : Nat} (hm : (order rs)[m]? = some i) (hn : (order rs)[n]? = some j)
    (h : m < n) : Precedes rs i j := by
  obtain ⟨hbound, rfl⟩ := List.getElem?_eq_some_iff.mp hm
  obtain ⟨hbound', rfl⟩ := List.getElem?_eq_some_iff.mp hn
  exact List.pairwise_iff_getElem.mp (pairwise_order rs) m n hbound hbound' h

/-- What precedes comes earlier in the order. -/
theorem lt_of_precedes {m n : Nat} (hm : (order rs)[m]? = some i) (hn : (order rs)[n]? = some j)
    (h : Precedes rs i j) : m < n := by
  rcases Nat.lt_trichotomy m n with hlt | rfl | hlt
  · exact hlt
  · obtain rfl : i = j := Option.some.inj (hm.symm.trans hn)
    exact absurd h h.asymm
  · exact absurd h (precedes_of_lt hn hm hlt).asymm

/-- What is next to each other in that order. -/
def pairs (rs : List Region) : List (Fin rs.length × Fin rs.length) :=
  (order rs).zip (order rs).tail

/-- A pair is made of two places that follow one another. -/
theorem getElem?_pairs {n : Nat} :
    (pairs rs)[n]? = some (i, j) ↔ (order rs)[n]? = some i ∧ (order rs)[n + 1]? = some j := by
  unfold pairs
  rw [List.getElem?_zip_eq_some, List.getElem?_tail]

/-- Pairs are neighbours, and all neighbours are pairs. -/
theorem mem_pairs_iff : (i, j) ∈ pairs rs ↔ Neighbours rs i j := by
  constructor
  · intro h
    obtain ⟨n, hn⟩ := List.mem_iff_getElem?.mp h
    obtain ⟨hi, hj⟩ := getElem?_pairs.mp hn
    -- A region between the two would have its place between `n` and `n + 1`.
    refine ⟨precedes_of_lt hi hj (by omega), fun k hik hkj => ?_⟩
    obtain ⟨m, hm⟩ := List.mem_iff_getElem?.mp (mem_order k)
    have hafter : n < m := lt_of_precedes hi hm hik
    have hbefore : m < n + 1 := lt_of_precedes hm hj hkj
    omega
  · intro h
    obtain ⟨n, hi⟩ := List.mem_iff_getElem?.mp (mem_order i)
    obtain ⟨m, hj⟩ := List.mem_iff_getElem?.mp (mem_order j)
    have hlt : n < m := lt_of_precedes hi hj h.precedes
    obtain rfl | hgap : m = n + 1 ∨ n + 1 < m := by omega
    · exact List.mem_of_getElem? (getElem?_pairs.mpr ⟨hi, hj⟩)
    -- Otherwise something stands in between.
    · have hbound : m < (order rs).length := (List.getElem?_eq_some_iff.mp hj).1
      have hk := List.getElem?_eq_getElem (Nat.lt_trans hgap hbound)
      exact absurd (precedes_of_lt hk hj hgap) (h.next _ (precedes_of_lt hi hk (by omega)))

/-- Pairs come in the order of their first regions. -/
theorem pairwise_pairs (rs : List Region) :
    (pairs rs).Pairwise fun p q => Precedes rs p.1 q.1 := by
  refine List.pairwise_iff_getElem.mpr fun m n hm hn hlt => ?_
  exact precedes_of_lt (getElem?_pairs.mp (List.getElem?_eq_getElem hm)).1
    (getElem?_pairs.mp (List.getElem?_eq_getElem hn)).1 hlt

/-- A region has one neighbour after it. -/
theorem Neighbours.unique {j' : Fin rs.length} (h : Neighbours rs i j) (h' : Neighbours rs i j') :
    j = j' := by
  rcases precedes_trichotomy j j' with hlt | heq | hlt
  · exact absurd hlt (h'.next j h.precedes)
  · exact heq
  · exact absurd hlt (h.next j' h'.precedes)

/-- There is one first overlap. -/
theorem FirstOverlap.unique {i' j' : Fin rs.length} (h : FirstOverlap rs i j)
    (h' : FirstOverlap rs i' j') : i = i' ∧ j = j' := by
  have hi : i = i' := by
    rcases h.first i' j' h'.neighbours h'.overlaps with heq | hlt
    · exact heq.symm
    · exact (h'.first i j h.neighbours h.overlaps).resolve_right hlt.asymm
  subst hi
  exact ⟨rfl, h.neighbours.unique h'.neighbours⟩

end Order

/-! ## The overlap that is refused -/

/-- The scan looks at pairs of regions that follow one another. -/
theorem firstOverlap?_eq_find? (rs : List Region) :
    firstOverlap? rs = (rs.zip rs.tail).find? fun p => p.2.start < p.1.stop := by
  fun_induction firstOverlap? rs with
  | case1 a b rest hoverlap => simp [hoverlap]
  | case2 a b rest hapart ih => simp [hapart, ih]
  | case3 rs hshort =>
    rcases rs with _ | ⟨a, _ | ⟨b, rest⟩⟩
    · rfl
    · rfl
    · exact absurd rfl (hshort a b rest)

variable {rs : List Region}

/-- On sorted regions the scan looks at the neighbours, in order. -/
theorem firstOverlap?_mergeSort (rs : List Region) :
    firstOverlap? (rs.mergeSort le)
      = ((pairs rs).find? fun p => Overlaps rs p.1 p.2).map fun p => (rs[p.1], rs[p.2]) := by
  rw [firstOverlap?_eq_find?, ← map_order, ← List.map_tail, List.zip_map, List.find?_map]
  rfl

/-- What the scan finds is the first overlap. -/
theorem firstOverlap_of_find? {i j : Fin rs.length}
    (h : ((pairs rs).find? fun p => Overlaps rs p.1 p.2) = some (i, j)) : FirstOverlap rs i j := by
  obtain ⟨hoverlaps, before, after, hpairs, hbefore⟩ := List.find?_eq_some_iff_append.mp h
  have hmem : (i, j) ∈ pairs rs := List.mem_of_find?_eq_some h
  -- A pair of neighbours that overlap stands in the list of pairs, and no earlier than the one found.
  refine ⟨mem_pairs_iff.mp hmem, of_decide_eq_true hoverlaps, fun i' j' hnext hoverlaps' => ?_⟩
  have hmem' := mem_pairs_iff.mpr hnext
  have hsorted := pairwise_pairs rs
  rw [hpairs, List.mem_append, List.mem_cons] at hmem'
  rw [hpairs, List.pairwise_append, List.pairwise_cons] at hsorted
  rcases hmem' with hmem' | hmem' | hmem'
  -- Those that come before do not overlap.
  · simpa [hoverlaps'] using hbefore (i', j') hmem'
  · exact .inl (Prod.mk.inj hmem').1
  · exact .inr (hsorted.2.1.1 (i', j') hmem')

/-- And it finds the first overlap wherever there is one. -/
theorem find?_pairs_eq_some_iff {i j : Fin rs.length} :
    ((pairs rs).find? fun p => Overlaps rs p.1 p.2) = some (i, j) ↔ FirstOverlap rs i j := by
  refine ⟨firstOverlap_of_find?, fun h => ?_⟩
  cases hfind : (pairs rs).find? fun p => Overlaps rs p.1 p.2 with
  | none =>
    have := List.find?_eq_none.mp hfind (i, j) (mem_pairs_iff.mpr h.neighbours)
    exact absurd h.overlaps (by simpa using this)
  | some p =>
    obtain ⟨rfl, rfl⟩ := (firstOverlap_of_find? hfind).unique h
    rfl

/-- What is refused are the first two neighbours that overlap. -/
theorem check_eq_error_iff {fault : Fault} :
    check rs = .error fault
      ↔ ∃ i j, FirstOverlap rs i j
        ∧ fault = .overlappingRegions rs[i].start rs[i].stop rs[j].start := by
  unfold check
  -- The check takes the first pair of the sorted list that overlaps.
  rw [firstOverlap?_mergeSort]
  cases hfind : (pairs rs).find? fun p => Overlaps rs p.1 p.2 with
  | none =>
    refine iff_of_false nofun ?_
    rintro ⟨i, j, h, -⟩
    rw [find?_pairs_eq_some_iff.mpr h] at hfind
    cases hfind
  | some p =>
    have hp : FirstOverlap rs p.1 p.2 := find?_pairs_eq_some_iff.mp hfind
    simp only [Option.map_some, Except.error.injEq]
    constructor
    · rintro rfl
      exact ⟨p.1, p.2, hp, rfl⟩
    · rintro ⟨i, j, h, rfl⟩
      obtain ⟨rfl, rfl⟩ := hp.unique h
      rfl

/-- What passes are regions none of which starts before an earlier one ends. -/
theorem check_eq_ok_iff_precedes :
    check rs = .ok () ↔ ∀ i j, Precedes rs i j → ¬ Overlaps rs i j := by
  rw [check_eq_ok_iff_pairwise, ← map_order, List.pairwise_map]
  constructor
  · intro h i j hij
    obtain ⟨m, hm⟩ := List.mem_iff_getElem?.mp (mem_order i)
    obtain ⟨n, hn⟩ := List.mem_iff_getElem?.mp (mem_order j)
    have hlt : m < n := lt_of_precedes hm hn hij
    obtain ⟨hbound, rfl⟩ := List.getElem?_eq_some_iff.mp hm
    obtain ⟨hbound', rfl⟩ := List.getElem?_eq_some_iff.mp hn
    exact List.pairwise_iff_getElem.mp h m n hbound hbound' hlt
  · exact fun h => (pairwise_order rs).imp fun hij => h _ _ hij

/-! ## Regions in any listing -/

/-- No two regions start at equal times. -/
def Distinct (rs : List Region) : Prop :=
  rs.Pairwise fun a b => ¬ a.start == b.start

/-- Different starts have different places in the order, if they are numbers. -/
theorem Distinct.totalKey_ne (h : Distinct rs) (hnumber : ∀ r ∈ rs, Binary64.IsNumber r.start) :
    rs.Pairwise fun a b => totalKey a.start ≠ totalKey b.start := by
  refine List.Pairwise.imp_of_mem (fun {a b} ha _ hne hkey => hne ?_) h
  rw [← Binary64.totalKey_injective hkey]
  exact (hnumber a ha).beq_self

/-- Regions that start at different times may be listed in any order. -/
theorem check_eq_of_perm (h : Distinct rs) (hnumber : ∀ r ∈ rs, Binary64.IsNumber r.start)
    {rs' : List Region} (hperm : rs'.Perm rs) : check rs' = check rs := by
  unfold check
  rw [Sorting.mergeSort_eq_of_perm le_iff hperm (h.totalKey_ne hnumber)]

/-- Putting a run on record keeps starts distinct. -/
theorem Distinct.register {l : Ledger} (h : Distinct l.regions) {ε : Type} (card : Card)
    (span : Span) : Distinct (l.register (ε := ε) card span).state.regions := by
  by_cases hknown : l.regions.any (·.start == span.start)
  · rwa [Ledger.register_of_known hknown]
  · rw [Ledger.register_of_new hknown]
    refine List.pairwise_append.mpr ⟨h, List.pairwise_singleton _ _, fun a ha b hb => ?_⟩
    rw [List.mem_singleton.mp hb]
    exact fun hsame => hknown (List.any_eq_true.mpr ⟨a, ha, hsame⟩)

/-! ## The result -/

/-- What the check says about the regions `rs`. -/
structure Checked (rs : List Region) : Prop where
  /-- What passes are regions none of which starts before an earlier one ends, next to it or not. -/
  passes : check rs = .ok () ↔ ∀ i j, Precedes rs i j → ¬ Overlaps rs i j
  /-- What is refused are the first two neighbours that overlap. -/
  refuses : ∀ fault, check rs = .error fault ↔ ∃ i j, FirstOverlap rs i j
    ∧ fault = .overlappingRegions rs[i].start rs[i].stop rs[j].start
  /-- Regions that start at different times may be listed in any order. -/
  permuted : Distinct rs → ∀ rs', rs'.Perm rs → check rs' = check rs
  /-- Putting a run on record keeps the starts of a ledger different. -/
  registered : ∀ {ε : Type} (l : Ledger) (card : Card) (span : Span), l.regions = rs →
    Distinct rs → Distinct (l.register (ε := ε) card span).state.regions

/-- **Neighbours decide.** Wherever regions end, looking at neighbours finds out whether any two of them
overlap; and the answer depends on the regions, not on how they are listed. -/
theorem checked_of_isNaN_eq_false {rs : List Region} (hnumber : ∀ r ∈ rs, r.start.isNaN = false) :
    Checked rs where
  passes := check_eq_ok_iff_precedes
  refuses _ := check_eq_error_iff
  permuted h _ hperm :=
    check_eq_of_perm h (fun r hr => Binary64.isNaN_eq_false_iff.mp (hnumber r hr)) hperm
  registered := by
    rintro ε l card span rfl h
    exact h.register card span

/-- Three regions: one never ends, one ends before it starts, and the end of one is not a number. -/
def irregular : List Region :=
  [{ start := 3.0, period := 1.0, stop := 1.0 / 0.0, repeats := 1, cycles := 16 },
    { start := 2.0, period := -1.0, stop := 1.0, repeats := 1, cycles := 0 },
    { start := 0.0, period := 1.0, stop := 0.0 / 0.0, repeats := 1, cycles := 16 }]

/-- It says something of regions of which one never ends, one ends before it starts, and one ends at
what is not a number. -/
theorem checked_irregular :
    (∀ r ∈ irregular, r.start.isNaN = false) ∧ Checked irregular := by
  have hnumber : ∀ r ∈ irregular, r.start.isNaN = false := by decide +kernel
  exact ⟨hnumber, checked_of_isNaN_eq_false hnumber⟩

end Region

end PulseTrain
