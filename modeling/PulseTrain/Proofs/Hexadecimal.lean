import Mathlib.Algebra.BigOperators.Ring.Finset
import Mathlib.Algebra.Ring.Nat
import PulseTrain.Proofs.Names

/-!
# The hexadecimal form of a state is a canonical numeral

Of all texts that stand for a number in base sixteen, one is the numeral without leading zeros. The
hexadecimal form of a state is that one, for the number in which channel `i` counts `2 ^ i`.

* `Numeral.digits_value` is the reason why there is only one: digits without a leading zero are *the*
  digits of their number.
* `Numeral.IsHexadecimal` is the form, and `Numeral.IsHexadecimal.eq_of_readText` says that it has one
  text for each number.
* `Levels.value_eq_sum` reads the number off the channels.
* `Levels.canonical_hex` is the result.
-/

namespace PulseTrain

/-! ## Numerals without leading zeros -/

namespace Numeral

/-- Digits of which the first is not zero have a value. -/
theorem value_pos {base d : Nat} {ds : List Nat} (hbase : 0 < base) (hhead : ds.head? = some d)
    (hd : d ≠ 0) : 0 < value base ds := by
  -- From the last digit backwards, as `value` takes them in.
  induction ds using List.reverseRecOn with
  | nil => cases hhead
  | append_singleton ds last ih =>
    rw [value_append_singleton]
    cases ds with
    | nil =>
      obtain rfl : last = d := by simpa using hhead
      omega
    | cons first ds =>
      have hpos := Nat.mul_pos hbase (ih (by simpa using hhead))
      omega

/-- Digits without a leading zero are the digits of the number that they stand for. -/
theorem digits_value {base : Nat} {ds : List Nat} (hbase : 2 ≤ base) (hlt : ∀ d ∈ ds, d < base)
    (hne : ds ≠ []) (hhead : ds.head? = some 0 → ds = [0]) : digits base (value base ds) = ds := by
  induction ds using List.reverseRecOn with
  | nil => exact absurd rfl hne
  | append_singleton ds last ih =>
    have hlast : last < base := hlt last (by simp)
    rw [value_append_singleton]
    cases hds : ds with
    -- A single digit is written as it is.
    | nil =>
      have hvalue : base * value base [] + last = last := by simp [value]
      rw [hvalue, digits, if_pos (.inl hlast), List.nil_append]
    | cons first rest =>
      rw [← hds]
      -- There are digits before the last, and the leading one of them is not zero.
      have hfirst : first ≠ 0 := by
        rintro rfl
        simpa [hds] using hhead (by simp [hds])
      have hpos : 0 < value base ds := value_pos (by omega) (by rw [hds]; rfl) hfirst
      have hmul : base ≤ base * value base ds := Nat.le_mul_of_pos_right base hpos
      have hdiv : (base * value base ds + last) / base = value base ds := by
        rw [Nat.mul_add_div (by omega), Nat.div_eq_of_lt hlast, Nat.add_zero]
      have hmod : (base * value base ds + last) % base = last := by
        rw [Nat.mul_add_mod, Nat.mod_eq_of_lt hlast]
      rw [digits, if_neg (by omega), hdiv, hmod,
        ih (fun d hd => hlt d (List.mem_append_left _ hd)) (by simp [hds])
          fun h => absurd (by simpa [hds] using h) hfirst]

/-- A numeral in base sixteen: at least one of these digits, and no leading zero but in `0`. -/
structure IsHexadecimal (text : String) : Prop where
  mem_digits : ∀ c ∈ text.toList, c ∈ "0123456789abcdef".toList
  ne_empty : text ≠ ""
  no_leading_zero : text.toList.head? = some '0' → text = "0"

/-- The character of a digit is read back from its value. -/
theorem digitChar_digitValue {c : Char} (h : c ∈ "0123456789abcdef".toList) :
    digitValue c < 16 ∧ Nat.digitChar (digitValue c) = c := by
  have hdigits : "0123456789abcdef".toList = (List.range 16).map Nat.digitChar := by
    decide
  rw [hdigits] at h
  obtain ⟨d, hmem, rfl⟩ := List.mem_map.mp h
  have hd : d < 16 := List.mem_range.mp hmem
  rw [digitValue_digitChar hd]
  exact ⟨hd, rfl⟩

/-- The digits of the number are what such a numeral was written with. -/
theorem IsHexadecimal.toList_eq {text : String} (h : IsHexadecimal text) :
    (digits 16 (readText 16 text)).map Nat.digitChar = text.toList := by
  have hzero : digitValue '0' = 0 := by decide
  have hdigits : digits 16 (readText 16 text) = text.toList.map digitValue := by
    refine digits_value (by omega) (fun d hd => ?_) (by simpa using h.ne_empty) fun hhead => ?_
    · obtain ⟨c, hc, rfl⟩ := List.mem_map.mp hd
      exact (digitChar_digitValue (h.mem_digits c hc)).1
    -- Only zero itself starts with a zero.
    · rw [List.head?_map] at hhead
      obtain ⟨c, hc, hvalue⟩ := Option.map_eq_some_iff.mp hhead
      have hchar := (digitChar_digitValue (h.mem_digits c (List.mem_of_mem_head? hc))).2
      rw [hvalue] at hchar
      obtain rfl : c = '0' := hchar.symm
      rw [h.no_leading_zero hc]
      decide
  rw [hdigits, List.map_map, List.map_congr_left (g := id), List.map_id]
  exact fun c hc => (digitChar_digitValue (h.mem_digits c hc)).2

/-- A number has one such numeral. -/
theorem IsHexadecimal.eq_of_readText {a b : String} (ha : IsHexadecimal a) (hb : IsHexadecimal b)
    (h : readText 16 a = readText 16 b) : a = b := by
  rw [← String.toList_inj, ← ha.toList_eq, ← hb.toList_eq, h]

end Numeral

/-! ## The number of a state -/

namespace Levels

/-- A state weighs what its high channels weigh, channel `i` two to the power of `i`. -/
theorem weigh_eq_sum (bits : List Bool) :
    weigh bits = ∑ i ∈ Finset.range bits.length with bits[i]? = some true, 2 ^ i := by
  induction bits with
  | nil => rfl
  | cons bit bits ih =>
    rw [weigh, ih, List.length_cons, Finset.sum_filter, Finset.sum_filter, Finset.sum_range_succ',
      Finset.mul_sum]
    cases bit <;> simp [pow_succ, mul_comm, add_comm]

/-- Every channel that is high counts. -/
theorem value_eq_sum (s : Levels) :
    s.value = ∑ i ∈ Finset.range s.width with s.get? i = some true, 2 ^ i :=
  weigh_eq_sum s.bits

/-- A state is written as a numeral in hexadecimal digits. -/
theorem isHexadecimal_hex (s : Levels) : Numeral.IsHexadecimal s.hex where
  mem_digits c hc := by
    -- Only the sixteen digits have to be looked at.
    have hdigit : ∀ d < 16, Nat.digitChar d ∈ "0123456789abcdef".toList := by decide
    obtain ⟨d, hd, rfl⟩ := exists_of_mem_hex hc
    exact hdigit d hd
  ne_empty := by
    unfold hex
    split
    · decide
    · rename_i hdigits
      simpa using hdigits
  no_leading_zero := by
    unfold hex
    split
    · exact fun _ => rfl
    · -- What is left after the zeros begins with none, and only a zero is written as one.
      rename_i hdigits
      intro hzero
      have hchar : ∀ d < 16, Nat.digitChar d = '0' → d = 0 := by decide
      have hmem := List.dropWhile_subset _ (List.head_mem hdigits)
      have hlt := lt_of_mem_nibbles (List.mem_reverse.mp hmem)
      have hfirst := of_decide_eq_false (List.head_dropWhile_not _ hdigits)
      rw [String.toList_ofList, List.head?_map, List.head?_eq_some_head hdigits] at hzero
      exact absurd (hchar _ hlt (Option.some.inj hzero)) hfirst

/-! ## The result -/

/-- What the hexadecimal form of a state is, and what it is good for. -/
structure Canonical (s : Levels) : Prop where
  isHexadecimal : Numeral.IsHexadecimal s.hex
  readText : Numeral.readText 16 s.hex
    = ∑ i ∈ Finset.range s.width with s.get? i = some true, 2 ^ i
  unique : ∀ text, Numeral.IsHexadecimal text →
    Numeral.readText 16 text = ∑ i ∈ Finset.range s.width with s.get? i = some true, 2 ^ i →
    text = s.hex
  waveformName_eq_iff : ∀ t : Levels, s.width = t.width → (s.waveformName = t.waveformName ↔ s = t)

/-- **The hexadecimal form is the canonical numeral of a state**, whatever its number of channels. -/
theorem canonical_hex (s : Levels) : Canonical s where
  isHexadecimal := s.isHexadecimal_hex
  readText := s.readText_hex.trans s.value_eq_sum
  unique _ htext h :=
    htext.eq_of_readText s.isHexadecimal_hex (h.trans (s.readText_hex.trans s.value_eq_sum).symm)
  waveformName_eq_iff _ hwidth := ⟨waveformName_inj hwidth, congrArg waveformName⟩

end Levels

end PulseTrain
