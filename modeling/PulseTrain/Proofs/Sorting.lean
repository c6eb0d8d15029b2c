import Mathlib.Data.List.Pairwise

/-!
# Sorting by a key

Changes are sorted by their samples and regions by their starts. The sort is stable; so what is listed
twice comes in the order of listing, and where no two keys are equal the listing does not matter.
-/

namespace PulseTrain.Sorting

variable {α : Type} {key : α → Int} {le : α → α → Bool}

/-- The order of listed items: by their keys, and by their numbers where the keys are equal. -/
theorem zipIdxLE_iff (hle : ∀ a b, le a b ↔ key a ≤ key b) (p q : α × Nat) :
    List.zipIdxLE le p q ↔ key p.1 < key q.1 ∨ key p.1 = key q.1 ∧ p.2 ≤ q.2 := by
  unfold List.zipIdxLE
  have hpq := hle p.1 q.1
  have hqp := hle q.1 p.1
  -- With distinct keys the order decides, and with equal ones the position.
  by_cases h : le p.1 q.1
  · by_cases h' : le q.1 p.1
    · rw [if_pos h, if_pos h', decide_eq_true_eq]
      have := hpq.mp h
      have := hqp.mp h'
      omega
    · rw [if_pos h, if_neg h']
      have := mt hqp.mpr h'
      simp only [true_iff]
      omega
  · rw [if_neg h]
    have := mt hpq.mpr h
    simp only [Bool.false_eq_true, false_iff]
    omega

theorem trans_le (hle : ∀ a b, le a b ↔ key a ≤ key b) (a b c : α) (hab : le a b) (hbc : le b c) :
    le a c :=
  (hle a c).mpr (Int.le_trans ((hle a b).mp hab) ((hle b c).mp hbc))

theorem total_le (hle : ∀ a b, le a b ↔ key a ≤ key b) (a b : α) : le a b || le b a := by
  rw [Bool.or_eq_true, hle, hle]
  omega

/-- Items with different keys are sorted into one order, however they are listed. -/
theorem mergeSort_eq_of_perm (hle : ∀ a b, le a b ↔ key a ≤ key b) {l l' : List α}
    (hperm : l.Perm l') (hkey : l'.Pairwise fun a b => key a ≠ key b) :
    l.mergeSort le = l'.mergeSort le := by
  have hsorted (l : List α) : (l.mergeSort le).Pairwise fun a b => le a b :=
    List.pairwise_mergeSort (trans_le hle) (total_le hle) l
  refine List.Perm.eq_of_pairwise (fun a b ha hb hab hba => ?_) (hsorted l) (hsorted l')
    (((List.mergeSort_perm l le).trans hperm).trans (List.mergeSort_perm l' le).symm)
  rw [List.mem_mergeSort] at ha hb
  have hsymm : Std.Symm fun a b : α => key a ≠ key b := ⟨fun _ _ => Ne.symm⟩
  -- Two elements of equal rank would be two elements with equal keys.
  by_contra hne
  exact hkey.forall (hperm.mem_iff.mp ha) hb hne
    (Int.le_antisymm ((hle a b).mp hab) ((hle b a).mp hba))

end PulseTrain.Sorting
