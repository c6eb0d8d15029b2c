import Mathlib
import PulseTrain.Binary64.Order

/-!
# Comparing doubles

`<` on doubles is decided on what their bits stand for. Apart from the sign bit, the bits of a double
count up with its value, through the change of exponents and up to infinity; so a double has a rank,
which is a whole number, and comparing doubles compares ranks.

* `Binary64.Ranks` gives every unpacked double but one a rank, and `Binary64.compare_of_ranks` compares
  by it.
* `Binary64.unpack_cases` reads the rank off the bits.
* `Binary64.lt_iff` is `<`, and `Binary64.lt_of_totalLE_of_lt` how it goes with the total order.
* `Binary64.IsNumber.beq_self` and `Binary64.totalKey_injective` are what is needed of equality.
-/

namespace PulseTrain.Binary64

open Float.Model Float.Model.UnpackedFloat

/-! ## The fields of a double -/

theorem toNat_unpackMantissa (b : BitVec Format.binary64.numBits) :
    (unpackMantissa b).toNat = b.toNat % 2 ^ 52 := by
  simp [unpackMantissa_def, BitVec.extractLsb'_toNat]

theorem toNat_unpackExponent (b : BitVec Format.binary64.numBits) :
    (unpackExponent b).toNat = b.toNat / 2 ^ 52 % 2 ^ 11 := by
  simp [unpackExponent_def, BitVec.extractLsb'_toNat, Nat.shiftRight_eq_div_pow]

/-- The sign is the bit on top. -/
theorem toNat_unpackSign (b : BitVec Format.binary64.numBits) :
    (unpackSign b).toNat = b.toNat / 2 ^ 63 := by
  have hlt : b.toNat < 2 ^ 64 := b.isLt
  rw [unpackSign_def, BitVec.extractLsb'_toNat, Nat.shiftRight_eq_div_pow]
  exact Nat.mod_eq_of_lt (by simp; omega)

/-- The bits of a double as the fields are cut out of them. -/
def packed (x : Float) : BitVec Format.binary64.numBits :=
  x.toBits.toBitVec

/-- Without its sign bit, a double is its exponent field followed by its fraction. -/
theorem toNat_mod_eq (b : BitVec Format.binary64.numBits) :
    b.toNat % 2 ^ 63 = (unpackExponent b).toNat * 2 ^ 52 + (unpackMantissa b).toNat := by
  rw [toNat_unpackMantissa, toNat_unpackExponent]
  omega

/-! ## Ranks -/

/-- The rank of an unpacked double: the number of doubles of its sign that are nearer to zero. What is
not a number has none. -/
inductive Ranks : UnpackedFloat → Int → Prop where
  | infinity (s : Sign) : Ranks (.infinity s) (s.apply (2047 * 2 ^ 52 : Nat))
  | zero (s : Sign) : Ranks (.zero s) 0
  | finite (s : Sign) {mantissa k : Nat} (hpos : 0 < mantissa) (hlt : mantissa < 2 ^ 53)
      (hk : k < 2046) (hnormal : 0 < k → 2 ^ 52 ≤ mantissa) :
      Ranks (.finite s mantissa (k - 1074) hpos) (s.apply (k * 2 ^ 52 + mantissa : Nat))

/-- Exponent and mantissa decide like the rank that they make up. -/
theorem compare_exponent_mantissa {m m' k k' : Nat} (hlt : m < 2 ^ 53) (hlt' : m' < 2 ^ 53)
    (hnormal : 0 < k → 2 ^ 52 ≤ m) (hnormal' : 0 < k' → 2 ^ 52 ≤ m') :
    (compare ((k : Int) - 1074) (k' - 1074)).then (compare m m')
      = compare ((k * 2 ^ 52 + m : Nat) : Int) (k' * 2 ^ 52 + m' : Nat) := by
  rcases Nat.lt_trichotomy k k' with hk | rfl | hk
  -- The mantissa for the greater exponent has its leading bit.
  · have hlead := hnormal' (by omega)
    rw [Int.compare_eq_lt.mpr (by omega), Int.compare_eq_lt.mpr (by omega)]
    rfl
  -- Equal exponents leave the decision to the mantissas.
  · rw [Int.compare_eq_eq.mpr rfl, Ordering.eq_then]
    rcases Nat.lt_trichotomy m m' with hm | rfl | hm
    · rw [Nat.compare_eq_lt.mpr hm, Int.compare_eq_lt.mpr (by omega)]
    · rw [Nat.compare_eq_eq.mpr rfl, Int.compare_eq_eq.mpr rfl]
    · rw [Nat.compare_eq_gt.mpr hm, Int.compare_eq_gt.mpr (by omega)]
  · have hlead := hnormal (by omega)
    rw [Int.compare_eq_gt.mpr (by omega), Int.compare_eq_gt.mpr (by omega)]
    rfl

/-- Negating turns a comparison around. -/
theorem compare_neg_neg (a b : Int) : compare (-a) (-b) = (compare a b).swap := by
  rcases Int.lt_trichotomy a b with h | rfl | h
  · rw [Int.compare_eq_lt.mpr h, Int.compare_eq_gt.mpr (by omega)]
    rfl
  · rw [Int.compare_eq_eq.mpr rfl, Int.compare_eq_eq.mpr rfl]
    rfl
  · rw [Int.compare_eq_gt.mpr h, Int.compare_eq_lt.mpr (by omega)]
    rfl

theorem some_lt_eq {a b : Int} (h : a < b) : some Ordering.lt = some (compare a b) := by
  rw [Int.compare_eq_lt.mpr h]

theorem some_gt_eq {a b : Int} (h : b < a) : some Ordering.gt = some (compare a b) := by
  rw [Int.compare_eq_gt.mpr h]

/-- Comparing unpacked doubles compares their ranks. -/
theorem compare_of_ranks {u v : UnpackedFloat} {r r' : Int} (hu : Ranks u r) (hv : Ranks v r') :
    u.compare v = some (compare r r') := by
  -- Infinities, zeros and finite numbers against each other; where the kinds differ, the kind or the sign
  -- decides.
  cases hu with
  | infinity s =>
    cases hv with
    | infinity s' => cases s <;> cases s' <;> rfl
    | zero s' => cases s <;> rfl
    | finite s' hpos hlt hk hnormal =>
      cases s with
      | negative => exact some_lt_eq (by cases s' <;> simp only [Sign.apply] <;> omega)
      | positive => exact some_gt_eq (by cases s' <;> simp only [Sign.apply] <;> omega)
  | zero s =>
    cases hv with
    | infinity s' => cases s' <;> rfl
    | zero s' => rfl
    | finite s' hpos hlt hk hnormal =>
      cases s' with
      | negative => exact some_gt_eq (by simp only [Sign.apply]; omega)
      | positive => exact some_lt_eq (by simp only [Sign.apply]; omega)
  | finite s hpos hlt hk hnormal =>
    cases hv with
    | infinity s' =>
      cases s' with
      | negative => exact some_gt_eq (by cases s <;> simp only [Sign.apply] <;> omega)
      | positive => exact some_lt_eq (by cases s <;> simp only [Sign.apply] <;> omega)
    | zero s' =>
      cases s with
      | negative => exact some_lt_eq (by simp only [Sign.apply]; omega)
      | positive => exact some_gt_eq (by simp only [Sign.apply]; omega)
    | finite s' hpos' hlt' hk' hnormal' =>
      -- With equal signs the exponents decide, and then the mantissas.
      have hlex := compare_exponent_mantissa hlt hlt' hnormal hnormal'
      cases s with
      | negative =>
        cases s' with
        | negative =>
          exact congrArg some ((congrArg Ordering.swap hlex).trans (compare_neg_neg _ _).symm)
        | positive => exact some_lt_eq (by simp only [Sign.apply]; omega)
      | positive =>
        cases s' with
        | negative => exact some_gt_eq (by simp only [Sign.apply]; omega)
        | positive => exact congrArg some hlex

/-- Where there are ranks, the floats compare as they do. -/
theorem lt_iff_of_ranks {u v : UnpackedFloat} {r r' : Int} (hu : Ranks u r) (hv : Ranks v r') :
    u.lt v = true ↔ r < r' := by
  unfold UnpackedFloat.lt
  rw [compare_of_ranks hu hv, ← Int.compare_eq_lt, beq_iff_eq, Option.some.injEq]

/-! ## The rank of a double -/

/-- The rank of a double, read off its bits. -/
def rank (x : Float) : Int :=
  let bits := x.toBits.toNat
  if bits < Nat.pow 2 63 then bits else (Nat.pow 2 63 : Int) - bits

/-- A double that is a number, or infinite. -/
def IsNumber (x : Float) : Prop :=
  x.toBits.toNat % 2 ^ 63 ≤ 2047 * 2 ^ 52

/-- The rank is the bits below the sign, counted down if the sign is set. -/
theorem rank_eq (x : Float) :
    rank x = (Sign.ofBitVec (unpackSign (packed x))).apply (x.toBits.toNat % 2 ^ 63 : Nat) := by
  have hlt : x.toBits.toNat < 2 ^ 64 := x.toBits.toBitVec.isLt
  have hs : (unpackSign (packed x)).toNat = x.toBits.toNat / 2 ^ 63 := toNat_unpackSign _
  unfold rank Sign.ofBitVec
  -- The top bit is the sign: below it stands the magnitude that `rank` gives the sign to.
  by_cases h : x.toBits.toNat < 2 ^ 63
  · have hsign : unpackSign (packed x) = 0#1 := by
      rw [← BitVec.toNat_inj, hs, Nat.div_eq_of_lt h]
      rfl
    rw [if_pos hsign]
    simp only [Sign.apply, Nat.pow_eq, if_pos h]
    omega
  · have hsign : unpackSign (packed x) ≠ 0#1 := by
      rw [Ne, ← BitVec.toNat_inj, hs, BitVec.toNat_ofNat]
      omega
    rw [if_neg hsign]
    simp only [Sign.apply, Nat.pow_eq, if_neg h]
    omega

/-- A finite float is ranked by its exponent before its mantissa. In steps of the last place, `k` is the
exponent. -/
theorem Ranks.of_finite {s : Sign} {mantissa : Nat} {exponent rank : Int} (k : Nat)
    {hpos : 0 < mantissa} (hexponent : exponent = k - 1074)
    (hrank : rank = s.apply (k * 2 ^ 52 + mantissa : Nat)) (hlt : mantissa < 2 ^ 53)
    (hk : k < 2046) (hnormal : 0 < k → 2 ^ 52 ≤ mantissa) :
    Ranks (.finite s mantissa exponent hpos) rank := by
  subst hexponent hrank
  exact .finite s hpos hlt hk hnormal

/-- A double is unpacked to its rank, or it is not a number. -/
theorem unpack_cases (x : Float) :
    (IsNumber x ∧ Ranks x.toModel.unpack (rank x))
      ∨ (¬ IsNumber x ∧ x.toModel.unpack = .notANumber) := by
  have hbias : (Format.binary64.exponentBias + Format.binary64.mantissaBitsWithoutImplicit : Int)
      = 1075 := rfl
  unfold IsNumber
  rw [rank_eq]
  change (_ ∧ Ranks (UnpackedFloat.unpack Format.binary64 (packed x)) _)
    ∨ (_ ∧ UnpackedFloat.unpack Format.binary64 (packed x) = _)
  fun_cases UnpackedFloat.unpack Format.binary64 (packed x) with
  -- An exponent field of ones and no fraction is an infinity, the greatest rank of its sign.
  | case1 mantissa exponent signBit sign hexponent hmantissa =>
    have hfields : x.toBits.toNat % 2 ^ 63 = exponent.toNat * 2 ^ 52 + mantissa.toNat :=
      toNat_mod_eq _
    rw [hfields, hexponent, hmantissa]
    exact .inl ⟨Nat.le_refl _, .infinity sign⟩
  -- With a fraction it is no number.
  | case2 mantissa exponent hexponent hmantissa =>
    have hfields : x.toBits.toNat % 2 ^ 63 = exponent.toNat * 2 ^ 52 + mantissa.toNat :=
      toNat_mod_eq _
    have hfield : exponent.toNat = 2047 := by rw [hexponent]; rfl
    have hfraction : mantissa.toNat ≠ 0 := fun h => hmantissa (BitVec.eq_of_toNat_eq h)
    exact .inr ⟨by omega, rfl⟩
  | case3 mantissa exponent signBit sign hfinite hexponent hmantissa =>
    have hfields : x.toBits.toNat % 2 ^ 63 = exponent.toNat * 2 ^ 52 + mantissa.toNat :=
      toNat_mod_eq _
    rw [hfields, hexponent, hmantissa]
    refine .inl ⟨Nat.zero_le _, ?_⟩
    change Ranks (.zero sign) (sign.apply 0)
    cases sign <;> exact .zero _
  -- A subnormal number has its fraction for a mantissa, and rank too.
  | case4 mantissa exponent unbiased signBit sign hfinite hexponent hmantissa =>
    have hfields : x.toBits.toNat % 2 ^ 63 = exponent.toNat * 2 ^ 52 + mantissa.toNat :=
      toNat_mod_eq _
    have hfraction : mantissa.toNat < 2 ^ 52 := mantissa.isLt
    have hfield : exponent.toNat = 0 := by rw [hexponent]; rfl
    refine .inl ⟨by omega, .of_finite 0 ?_ ?_ (by omega) (by omega) (by omega)⟩
    · simp only [unbiased, hbias, hfield]
      rfl
    · rw [hfields, hfield]
  | case5 mantissa exponent unbiased signBit sign hfinite hexponent =>
    have hfields : x.toBits.toNat % 2 ^ 63 = exponent.toNat * 2 ^ 52 + mantissa.toNat :=
      toNat_mod_eq _
    have hfraction : mantissa.toNat < 2 ^ 52 := mantissa.isLt
    have hwidth : exponent.toNat < 2 ^ 11 := exponent.isLt
    have hfield : exponent.toNat ≠ 2047 := fun h => hfinite (BitVec.eq_of_toNat_eq h)
    have hfield' : exponent.toNat ≠ 0 := fun h => hexponent (BitVec.eq_of_toNat_eq h)
    -- The leading bit is not stored: it takes the place of one step of the exponent.
    have hlead : (1#1 ++ mantissa).toNat = 2 ^ 52 + mantissa.toNat := by
      rw [BitVec.toNat_append, ← Nat.shiftLeft_add_eq_or_of_lt mantissa.isLt]
      rfl
    have hrank : exponent.toNat * 2 ^ 52 + mantissa.toNat
        = (exponent.toNat - 1) * 2 ^ 52 + (2 ^ 52 + mantissa.toNat) := by omega
    refine .inl ⟨by omega, .of_finite (exponent.toNat - 1) ?_ ?_ (by omega) (by omega) (by omega)⟩
    · simp only [unbiased, hbias]
      omega
    · rw [hfields, hlead, hrank]

/-! ## The order -/

theorem not_lt_notANumber_left (u : UnpackedFloat) : UnpackedFloat.notANumber.lt u = false := rfl

theorem not_lt_notANumber_right (u : UnpackedFloat) : u.lt .notANumber = false := by
  cases u <;> rfl

/-- Comparing doubles compares their ranks, and what is not a number is never less or greater. -/
theorem lt_iff {x y : Float} : x < y ↔ IsNumber x ∧ IsNumber y ∧ rank x < rank y := by
  have hlt : x < y ↔ x.toModel.unpack.lt y.toModel.unpack = true := by
    show decide (x.toModel < y.toModel) = true ↔ _
    rw [decide_eq_true_iff]
    rfl
  rw [hlt]
  rcases unpack_cases x with ⟨hx, hrank⟩ | ⟨hx, hnan⟩
  · rcases unpack_cases y with ⟨hy, hrank'⟩ | ⟨hy, hnan'⟩
    · simp [hx, hy, lt_iff_of_ranks hrank hrank']
    · simp [hy, hnan', not_lt_notANumber_right]
  · simp [hx, hnan, not_lt_notANumber_left]

/-- There is only one double that is not a number. -/
theorem toNat_of_not_isNumber {x : Float} (h : ¬ IsNumber x) :
    x.toBits.toNat = 2047 * 2 ^ 52 + 2 ^ 51 := by
  have hfields : x.toBits.toNat % 2 ^ 63
      = (unpackExponent (packed x)).toNat * 2 ^ 52 + (unpackMantissa (packed x)).toNat :=
    toNat_mod_eq _
  have hfraction : (unpackMantissa (packed x)).toNat < 2 ^ 52 := (unpackMantissa _).isLt
  have hwidth : (unpackExponent (packed x)).toNat < 2 ^ 11 := (unpackExponent _).isLt
  unfold IsNumber at h
  -- A field above the greatest number's is all ones, and its fraction is not zero.
  have hexponent : unpackExponent (packed x) = -1#_ :=
    BitVec.eq_of_toNat_eq (show (unpackExponent (packed x)).toNat = 2047 by omega)
  have hmantissa : unpackMantissa (packed x) ≠ 0#_ := by
    intro hzero
    have : (unpackMantissa (packed x)).toNat = 0 := congrArg BitVec.toNat hzero
    omega
  have hnan : packed x = packedNaN Format.binary64 :=
    x.toModel.valid.eq_packedNaN hexponent hmantissa
  exact congrArg BitVec.toNat hnan

/-- What comes no later in the total order has no greater rank. The two zeros have one rank, and two places.
-/
theorem rank_le_of_totalLE {x y : Float} (h : totalLE x y) : rank x ≤ rank y := by
  simp only [totalLE, totalKey, decide_eq_true_eq, Nat.pow_eq] at h
  unfold rank
  simp only [Nat.pow_eq]
  split at h <;> split at h <;> simp only [*, if_true, if_false] <;> omega

/-- Before a number there are only numbers. -/
theorem isNumber_of_totalLE {x y : Float} (h : totalLE x y) (hy : IsNumber y) : IsNumber x := by
  by_contra hx
  have := toNat_of_not_isNumber hx
  simp only [totalLE, totalKey, decide_eq_true_eq, Nat.pow_eq] at h
  unfold IsNumber at hy
  rw [this] at h
  split at h <;> split at h <;> omega

/-- What comes before a double in the total order is less than all that it is less than. -/
theorem lt_of_totalLE_of_lt {x y z : Float} (hxy : totalLE x y) (hyz : y < z) : x < z := by
  obtain ⟨hy, hz, hlt⟩ := lt_iff.mp hyz
  exact lt_iff.mpr ⟨isNumber_of_totalLE hxy hy, hz, Int.lt_of_le_of_lt (rank_le_of_totalLE hxy) hlt⟩

/-! ## Equality -/

theorem Ranks.isNaN_eq_false {u : UnpackedFloat} {r : Int} (h : Ranks u r) : u.isNaN = false := by
  cases h <;> rfl

theorem isNaN_eq_false_iff {x : Float} : x.isNaN = false ↔ IsNumber x := by
  change x.toModel.unpack.isNaN = false ↔ IsNumber x
  rcases unpack_cases x with ⟨hx, hrank⟩ | ⟨hx, hnan⟩
  · exact iff_of_true hrank.isNaN_eq_false hx
  · rw [hnan]
    exact iff_of_false Bool.noConfusion hx

/-- A number is equal to itself. -/
theorem IsNumber.beq_self {x : Float} (h : IsNumber x) : x == x := by
  change x.toModel.unpack.compare x.toModel.unpack == some .eq
  rcases unpack_cases x with ⟨-, hrank⟩ | ⟨hx, -⟩
  · rw [compare_of_ranks hrank hrank, Int.compare_eq_eq.mpr rfl]
    rfl
  · exact absurd h hx

/-- No two doubles share a place in the total order. -/
theorem totalKey_injective {x y : Float} (h : totalKey x = totalKey y) : x = y := by
  have hx : x.toBits.toNat < 2 ^ 64 := x.toBits.toBitVec.isLt
  have hy : y.toBits.toNat < 2 ^ 64 := y.toBits.toBitVec.isLt
  have hbits : x.toBits.toNat = y.toBits.toNat := by
    -- The keys split at the sign bit and are one to one on either side of it.
    simp only [totalKey, Nat.pow_eq] at h
    split at h <;> split at h <;> omega
  obtain ⟨⟨bits, hvalid⟩⟩ := x
  obtain ⟨⟨bits', hvalid'⟩⟩ := y
  obtain rfl : bits = bits' := UInt64.toNat_inj.mp hbits
  rfl

end PulseTrain.Binary64
