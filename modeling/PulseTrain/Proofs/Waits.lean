import Mathlib.Algebra.GroupWithZero.Nat
import Mathlib.Algebra.Order.BigOperators.Group.List
import Mathlib.Algebra.Order.Group.Nat
import Mathlib.Order.Bounds.Basic
import PulseTrain.Card
import PulseTrain.Wait

/-!
# Aligned waits, and what they are split into

`Wait.cover` is the least multiple of the quantum that covers a duration. A multiple of the quantum is
left as it is, and one cycle takes a whole quantum. `Wait.align` is the same wait if that fits in a
counter, and never the same if it does not: a counter keeps less than that.

`Wait.Block` is what the card wants of the instructions for one wait, and `Wait.block_split` says that
splitting an aligned wait gives that. No fewer instructions could do it.
-/

namespace PulseTrain.Wait

/-- Splitting a wait loses none of it. -/
theorem sum_split (limit cycles : Nat) : (split limit cycles).sum = cycles := by
  have h := Nat.div_add_mod cycles limit
  rw [Nat.mul_comm] at h
  unfold split
  -- The quotient counts the full instructions, and the remainder is the last one.
  split
  · rename_i h0
    simp only [List.append_nil, List.sum_replicate_nat]
    omega
  · simp only [List.sum_append, List.sum_replicate_nat, List.sum_cons, List.sum_nil]
    omega

variable {quantum duration : Nat}

/-- Rounding up never shortens. -/
theorem le_cover (quantum duration : Nat) (h : 0 < quantum) : duration ≤ cover quantum duration := by
  have := Nat.div_add_mod (duration + (quantum - 1)) quantum
  have hmod := Nat.mod_lt (duration + (quantum - 1)) h
  rw [Nat.mul_comm] at this
  unfold cover
  omega

theorem dvd_cover (quantum duration : Nat) : quantum ∣ cover quantum duration :=
  Nat.dvd_mul_left quantum _

/-- No smaller multiple of the quantum covers the duration. -/
theorem isLeast_cover (h : 0 < quantum) (duration : Nat) :
    IsLeast {w | quantum ∣ w ∧ duration ≤ w} (cover quantum duration) := by
  refine ⟨⟨dvd_cover quantum duration, le_cover quantum duration h⟩, ?_⟩
  rintro _ ⟨⟨n, rfl⟩, hle⟩
  -- `n` quanta cover the duration, so rounding the quotient up cannot pass `n`.
  have hquot : (duration + (quantum - 1)) / quantum < n + 1 := by
    rw [Nat.div_lt_iff_lt_mul h, Nat.add_mul, Nat.one_mul, Nat.mul_comm n quantum]
    omega
  unfold cover
  rw [Nat.mul_comm quantum n]
  exact Nat.mul_le_mul_right quantum (Nat.lt_succ_iff.mp hquot)

theorem cover_pos (h : 0 < quantum) (hd : 0 < duration) : 0 < cover quantum duration :=
  Nat.lt_of_lt_of_le hd (le_cover quantum duration h)

/-- A duration that is a multiple of the quantum is left as it is. -/
theorem cover_of_dvd (h : 0 < quantum) (hd : quantum ∣ duration) :
    cover quantum duration = duration := by
  refine Nat.le_antisymm ?_ (le_cover quantum duration h)
  exact (isLeast_cover h duration).2 ⟨hd, Nat.le_refl _⟩

theorem cover_one (h : 0 < quantum) : cover quantum 1 = quantum := by
  have hleast := isLeast_cover h 1
  refine Nat.le_antisymm (hleast.2 ⟨Nat.dvd_refl quantum, h⟩) ?_
  exact Nat.le_of_dvd (cover_pos h Nat.one_pos) hleast.1.1

/-- A counter keeps all of a wait exactly if the wait fits. -/
theorem align_eq_cover_iff : align quantum duration = cover quantum duration
    ↔ cover quantum duration < Counter.bound :=
  ⟨fun h => h ▸ Nat.mod_lt _ (by decide), Nat.mod_eq_of_lt⟩

/-- The wait that a program comes to, if it does not stop. -/
theorem count_eq_ok_iff {arithmetic : Counter.Arithmetic} {wait : Nat} :
    count arithmetic quantum duration = .ok wait
      ↔ wait = align quantum duration
        ∧ (arithmetic = .checked → cover quantum duration < Counter.bound) :=
  Counter.Arithmetic.count_eq_ok_iff

/-! ## Blocks of waits -/

/-- The instructions of one wait, for a card with this quantum and this limit. -/
structure Block (quantum limit : Nat) (waits : List Nat) : Prop where
  nonempty : waits ≠ []
  /-- The card takes each of them. -/
  each : ∀ n ∈ waits, 0 < n ∧ quantum ∣ n ∧ n ≤ limit
  /-- Only the last is shorter than it could be. -/
  full : ∀ n ∈ waits.dropLast, n = limit
  /-- The same wait takes no fewer of them. -/
  shortest : ∀ ns : List Nat, (∀ n ∈ ns, n ≤ limit) → ns.sum = waits.sum →
    waits.length ≤ ns.length

section Split

variable {limit cycles : Nat}

/-- A full instruction, or the one for the rest. -/
theorem eq_or_eq_of_mem_split {n : Nat} (hn : n ∈ split limit cycles) :
    n = limit ∧ cycles / limit ≠ 0 ∨ n = cycles % limit ∧ cycles % limit ≠ 0 := by
  unfold split at hn
  rcases List.mem_append.mp hn with hfull | hrest
  · obtain ⟨hcount, hn⟩ := List.mem_replicate.mp hfull
    exact .inl ⟨hn, hcount⟩
  · split at hrest
    · cases hrest
    · rename_i hmod
      exact .inr ⟨List.mem_singleton.mp hrest, hmod⟩

/-- Every part of a split wait but the last is the longest that one instruction can wait. -/
theorem eq_of_mem_dropLast_split {n : Nat} (hn : n ∈ (split limit cycles).dropLast) :
    n = limit := by
  unfold split at hn
  split at hn
  · rw [List.append_nil] at hn
    exact List.eq_of_mem_replicate (List.dropLast_subset _ hn)
  · rw [List.dropLast_concat] at hn
    exact List.eq_of_mem_replicate hn

theorem split_ne_nil (hcycles : 0 < cycles) : split limit cycles ≠ [] := by
  intro h
  have hsum := sum_split limit cycles
  rw [h, List.sum_nil] at hsum
  omega

/-- As many instructions as cover the wait are no fewer than it is split into. -/
theorem length_split_le {k : Nat} (hk : cycles ≤ k * limit) :
    (split limit cycles).length ≤ k := by
  have hdiv := Nat.div_add_mod cycles limit
  have hcount : cycles / limit ≤ k := Nat.div_le_of_le_mul (Nat.mul_comm k limit ▸ hk)
  unfold split
  rw [List.length_append, List.length_replicate]
  split
  · exact hcount
  -- A rest is left over: full instructions alone do not cover the wait.
  · have hne : cycles / limit ≠ k := by
      intro h
      rw [h, Nat.mul_comm] at hdiv
      omega
    rw [List.length_singleton]
    omega

/-- Splitting an aligned wait gives a block. -/
theorem block_split (hlimit : 0 < limit) (hdvd : quantum ∣ limit) (hpos : 0 < cycles)
    (haligned : quantum ∣ cycles) : Block quantum limit (split limit cycles) where
  nonempty := split_ne_nil hpos
  each n hn := by
    rcases eq_or_eq_of_mem_split hn with ⟨rfl, -⟩ | ⟨rfl, hmod⟩
    · exact ⟨hlimit, hdvd, Nat.le_refl n⟩
    · exact ⟨Nat.pos_of_ne_zero hmod, (Nat.dvd_mod_iff hdvd).mpr haligned,
        Nat.le_of_lt (Nat.mod_lt cycles hlimit)⟩
  full _ hn := eq_of_mem_dropLast_split hn
  -- Any other way of waiting as long needs as many instructions, each bounded by the limit.
  shortest ns hns hsum := by
    rw [sum_split] at hsum
    have hcover : ns.sum ≤ ns.length * limit := List.sum_le_card_nsmul ns limit hns
    exact length_split_le (hsum ▸ hcover)

end Split

end PulseTrain.Wait

/-! ## A card at work -/

namespace PulseTrain

/-- A card of two channels that waits in pairs of samples, a sample per unit of time. -/
def Card.paired : Card where
  clockRate := 1000
  units := 1e-3
  channels := 2
  quantum := 2
  stableWait := 4
  maxWait := 8
  clockRate_isRate := by decide +kernel
  units_isRate := by decide +kernel
  channels_pos := by decide
  quantum_pos := by decide
  quantum_le_maxWait := by decide
  quantum_dvd_maxWait := by decide
  stableWait_le_maxWait := by decide

/-- A card of one channel that waits in pages of samples, up to the last page that a counter reaches. -/
def Card.paged (arithmetic : Counter.Arithmetic) : Card where
  clockRate := 1
  units := 1
  channels := 1
  quantum := 4096
  stableWait := 0
  maxWait := 18446744073709547520
  arithmetic := arithmetic
  clockRate_isRate := by decide +kernel
  units_isRate := by decide +kernel
  channels_pos := by decide
  quantum_pos := by decide
  quantum_le_maxWait := by decide
  quantum_dvd_maxWait := by decide
  stableWait_le_maxWait := by decide

end PulseTrain
