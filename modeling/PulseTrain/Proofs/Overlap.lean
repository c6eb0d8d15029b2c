import Mathlib.Data.List.Chain
import Mathlib.Tactic.Tauto
import PulseTrain.Compile
import PulseTrain.Proofs.Comparison
import PulseTrain.Proofs.Sorting

/-!
# Regions that overlap

The check sorts regions by their start and looks at neighbours. Since it does not matter which of the
regions in between is left out, that says something about every two of them, and it can be said of the
list as it was recorded: of any two the one that starts first must end before the other starts.

* `Region.Apart` is that rule, and `Region.check_eq_ok_iff` the check.
* `Region.check_of_append` is a consequence: what passes still does with later regions left out.
-/

namespace PulseTrain.Region

/-- Of two regions, the first recorded before the second, the one that starts first ends before the
other starts. If they start together, that is the one recorded first. -/
def Apart (a b : Region) : Prop :=
  if le a b then ¬ b.start < a.stop else ¬ a.start < b.stop

/-- Of two regions, the one that starts first has to stop before the other starts. -/
theorem apart_of_le {a b : Region} (h : le a b) : Apart a b ↔ ¬ b.start < a.stop := by
  rw [Apart, if_pos h]

theorem apart_of_not_le {a b : Region} (h : ¬ le a b) : Apart a b ↔ ¬ a.start < b.stop := by
  rw [Apart, if_neg h]

theorem le_iff (a b : Region) :
    le a b ↔ Binary64.totalKey a.start ≤ Binary64.totalKey b.start :=
  decide_eq_true_iff

theorem trans_le (a b c : Region) (hab : le a b) (hbc : le b c) : le a c :=
  Sorting.trans_le le_iff a b c hab hbc

theorem total_le (a b : Region) : le a b || le b a :=
  Sorting.total_le le_iff a b

/-- There is no first overlap if every region stops before the next one starts. -/
theorem firstOverlap?_eq_none_iff {rs : List Region} :
    firstOverlap? rs = none ↔ rs.IsChain fun a b => ¬ b.start < a.stop := by
  fun_induction firstOverlap? rs with
  -- The first two regions overlap, or the question is put to the rest.
  | case1 a b rest hoverlap => simp [hoverlap]
  | case2 a b rest hapart ih => simp [hapart, ih]
  | case3 rs hshort =>
    -- A list without two neighbours.
    match rs with
    | [] => simp
    | [a] => simp
    | a :: b :: rest => exact absurd rfl (hshort a b rest)

/-- In the order of their starts, regions that are apart from their neighbours are apart from all. -/
theorem isChain_iff_pairwise {rs : List Region} (hsorted : rs.Pairwise fun a b => le a b) :
    (rs.IsChain fun a b => ¬ b.start < a.stop) ↔ rs.Pairwise fun a b => ¬ b.start < a.stop := by
  refine ⟨fun hchain => ?_, List.Pairwise.isChain⟩
  induction rs with
  | nil => exact .nil
  | cons a rest ih =>
    refine List.pairwise_cons.mpr ⟨?_, ih hsorted.of_cons hchain.tail⟩
    cases rest with
    | nil => simp
    | cons b rest =>
      obtain ⟨hab, -⟩ := List.isChain_cons_cons.mp hchain
      intro c hc hlt
      -- Whatever comes after `b` starts no earlier than `b` does.
      rcases List.mem_cons.mp hc with rfl | hc
      · exact hab hlt
      · have hbc : le b c := (List.pairwise_cons.mp hsorted.of_cons).1 c hc
        exact hab (Binary64.lt_of_totalLE_of_lt hbc hlt)

/-- Regions are apart in the order of their starts exactly if they are in the order of recording.
Induction on the regions: the sort puts the first one behind those that start before it. -/
theorem pairwise_mergeSort_iff {rs : List Region} :
    ((rs.mergeSort le).Pairwise fun a b => ¬ b.start < a.stop) ↔ rs.Pairwise Apart := by
  induction rs with
  | nil => simp
  | cons a rest ih =>
    -- Sorting puts `a` between what it was sorted after and what it goes before.
    obtain ⟨before, after, hcons, hrest, hbefore⟩ := List.mergeSort_cons trans_le total_le a rest
    have hsorted : ((a :: rest).mergeSort le).Pairwise fun a b => le a b :=
      List.pairwise_mergeSort trans_le total_le (a :: rest)
    rw [hcons] at hsorted
    have hafter : ∀ b ∈ after, le a b :=
      (List.pairwise_cons.mp (List.pairwise_append.mp hsorted).2.1).1
    have hmem : ∀ b, b ∈ rest ↔ b ∈ before ∨ b ∈ after := fun b => by
      rw [← List.mem_append, ← hrest, List.mem_mergeSort]
    -- Against the regions before it only their stops matter, and against those after it only its own.
    have hapart : (∀ b ∈ rest, Apart a b)
        ↔ (∀ b ∈ before, ¬ a.start < b.stop) ∧ ∀ b ∈ after, ¬ b.start < a.stop := by
      simp only [hmem, or_imp, forall_and]
      exact and_congr (forall₂_congr fun b hb => apart_of_not_le (by simpa using hbefore b hb))
        (forall₂_congr fun b hb => apart_of_le (hafter b hb))
    rw [List.pairwise_cons, hapart, ← ih, hcons, hrest, List.pairwise_append, List.pairwise_append,
      List.pairwise_cons]
    simp only [List.mem_cons, forall_eq_or_imp, forall_and]
    tauto

/-- In sorted regions neighbours decide for all: what starts even later is apart, too. -/
theorem check_eq_ok_iff_pairwise {rs : List Region} :
    check rs = .ok () ↔ (rs.mergeSort le).Pairwise fun a b => ¬ b.start < a.stop := by
  have hsorted : (rs.mergeSort le).Pairwise fun a b => le a b :=
    List.pairwise_mergeSort trans_le total_le rs
  rw [← isChain_iff_pairwise hsorted, ← firstOverlap?_eq_none_iff]
  unfold check
  cases firstOverlap? (rs.mergeSort le) <;> simp

/-- The check passes regions of which any two are apart. -/
theorem check_eq_ok_iff {rs : List Region} : check rs = .ok () ↔ rs.Pairwise Apart :=
  check_eq_ok_iff_pairwise.trans pairwise_mergeSort_iff

/-- With later regions left out, what passes still passes. -/
theorem check_of_append {rs more : List Region} (h : check (rs ++ more) = .ok ()) :
    check rs = .ok () :=
  check_eq_ok_iff.mpr (List.pairwise_append.mp (check_eq_ok_iff.mp h)).1

end PulseTrain.Region
