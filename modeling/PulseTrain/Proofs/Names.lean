import Mathlib.Algebra.GroupWithZero.Nat
import Mathlib.Logic.Function.Basic
import PulseTrain.Waveform.Catalog

/-!
# Names tell waveforms apart

A waveform is found by its name, so no two waveforms of a compile may share one. The name of a plain
waveform is a hexadecimal numeral and that of a fused one a decimal numeral; both are read back here.

* `Numeral.readText_text` and `Levels.readText_hex` read the two numerals back.
* `Levels.waveformName_inj`, `Catalog.fusedName_injective` and `Catalog.waveformName_ne_fusedName` are
  what the catalog needs.
-/

namespace PulseTrain

/-! ## Numerals -/

namespace Numeral

/-- What a digit stands for, in any base up to sixteen. -/
def digitValue (c : Char) : Nat :=
  if c.isDigit then c.toNat - '0'.toNat else c.toNat - 'a'.toNat + 10

/-- The number that a text stands for in `base`. -/
def readText (base : Nat) (text : String) : Nat :=
  value base (text.toList.map digitValue)

theorem digitValue_digitChar {d : Nat} (h : d < 16) : digitValue (Nat.digitChar d) = d := by
  revert d
  decide

/-- A text of digits has their value. -/
theorem readText_digits (base : Nat) {ds : List Nat} (h : ∀ d ∈ ds, d < 16) :
    readText base (String.ofList (ds.map Nat.digitChar)) = value base ds := by
  unfold readText
  rw [String.toList_ofList, List.map_map, List.map_congr_left (g := id), List.map_id]
  intro d hd
  exact digitValue_digitChar (h d hd)

/-- A digit is less than the base. -/
theorem lt_of_mem_digits {base n d : Nat} (hbase : 2 ≤ base) (h : d ∈ digits base n) :
    d < base := by
  fun_induction digits base n with
  | case1 n hn =>
    rw [List.mem_singleton] at h
    omega
  | case2 n hn ih =>
    rcases List.mem_append.mp h with h | h
    · exact ih h
    · rw [List.mem_singleton] at h
      rw [h]
      exact Nat.mod_lt n (by omega)

/-- A number is read back from its text. -/
theorem readText_text (n : Nat) : readText 10 (text n) = n := by
  unfold text decimal
  rw [readText_digits, value_digits]
  intro d hd
  have := lt_of_mem_digits (by omega) hd
  omega

/-- Different numbers have different texts. -/
theorem text_injective : Function.Injective text := by
  intro m n h
  rw [← readText_text m, h, readText_text]

/-- A digit more at the end counts once, and the others a base more. -/
theorem value_reverse_cons (base d : Nat) (ds : List Nat) :
    value base (d :: ds).reverse = base * value base ds.reverse + d := by
  rw [List.reverse_cons, value_append_singleton]

/-- Leading zeros add nothing. -/
theorem value_dropWhile_zero (base : Nat) (ds : List Nat) :
    value base (ds.dropWhile (· = 0)) = value base ds := by
  induction ds with
  | nil => rfl
  | cons d ds ih =>
    by_cases hd : d = 0
    · rw [List.dropWhile_cons_of_pos (by simpa using hd), ih, hd]
      simp [value]
    · rw [List.dropWhile_cons_of_neg (by simpa using hd)]

end Numeral

/-! ## The hexadecimal form of a state -/

namespace Levels

/-- A weight fits in as many bits as there are. -/
theorem weigh_lt (bits : List Bool) : weigh bits < 2 ^ bits.length := by
  induction bits with
  | nil => simp [weigh]
  | cons b bits ih =>
    have hb : b.toNat ≤ 1 := Bool.toNat_le b
    rw [weigh, List.length_cons, Nat.pow_succ]
    omega

/-- Bits of the same number are the same, if there are equally many. -/
theorem weigh_inj {xs ys : List Bool} (hlength : xs.length = ys.length)
    (h : weigh xs = weigh ys) : xs = ys := by
  induction xs generalizing ys with
  | nil => exact (List.length_eq_zero_iff.mp hlength.symm).symm
  | cons x xs ih =>
    cases ys with
    | nil => cases hlength
    | cons y ys =>
      rw [weigh, weigh] at h
      have hx : x.toNat ≤ 1 := Bool.toNat_le x
      have hy : y.toNat ≤ 1 := Bool.toNat_le y
      -- The first bit is the parity of the number, and the other bits are its half.
      have hhead : x = y := by
        have : x.toNat = y.toNat := by omega
        cases x <;> cases y <;> simp_all
      rw [hhead, ih (Nat.succ.inj hlength) (by omega)]

/-- A nibble is a hexadecimal digit. -/
theorem lt_of_mem_nibbles {bits : List Bool} {d : Nat} (h : d ∈ nibbles bits) : d < 16 := by
  fun_induction nibbles bits with
  | case1 b₀ b₁ b₂ b₃ bits ih =>
    rcases List.mem_cons.mp h with rfl | h
    · exact weigh_lt [b₀, b₁, b₂, b₃]
    · exact ih h
  | case2 => cases h
  | case3 bits hfour hnil =>
    rw [List.mem_singleton] at h
    -- Four bits and more are the first case, so fewer are left here.
    have hlength : bits.length ≤ 4 := by
      match bits with
      | [] => simp
      | [_] => simp
      | [_, _] => simp
      | [_, _, _] => simp
      | b₀ :: b₁ :: b₂ :: b₃ :: rest => exact absurd rfl (hfour b₀ b₁ b₂ b₃ rest)
    calc d = weigh bits := h
      _ < 2 ^ bits.length := weigh_lt bits
      _ ≤ 2 ^ 4 := Nat.pow_le_pow_right (by omega) hlength

/-- The nibbles of a state come to its weight. -/
theorem value_reverse_nibbles (bits : List Bool) :
    Numeral.value 16 (nibbles bits).reverse = weigh bits := by
  fun_induction nibbles bits with
  | case1 b₀ b₁ b₂ b₃ bits ih =>
    rw [Numeral.value_reverse_cons, ih]
    simp only [weigh]
    omega
  | case2 => rfl
  | case3 bits => simp [Numeral.value]

/-- Read in base sixteen, the hexadecimal form of a state is the number that it stands for. -/
theorem readText_hex (s : Levels) : Numeral.readText 16 s.hex = s.value := by
  have hvalue := value_reverse_nibbles s.bits
  rw [← Numeral.value_dropWhile_zero] at hvalue
  -- All digits are dropped exactly if the number is zero, which is then written as one digit.
  unfold hex value
  split
  · rename_i hnone
    rw [hnone] at hvalue
    rw [← hvalue]
    decide
  · rw [← hvalue]
    apply Numeral.readText_digits
    intro d hd
    exact lt_of_mem_nibbles (List.mem_reverse.mp (List.dropWhile_subset _ hd))

/-- A state is written in hexadecimal digits. -/
theorem exists_of_mem_hex {s : Levels} {c : Char} (h : c ∈ s.hex.toList) :
    ∃ d < 16, c = Nat.digitChar d := by
  unfold hex at h
  split at h
  -- Zero is written as one digit, and any other number by the digits left of it.
  · have hzero : "0".toList = [Nat.digitChar 0] := by decide
    rw [hzero, List.mem_singleton] at h
    exact ⟨0, by omega, h⟩
  · rw [String.toList_ofList] at h
    obtain ⟨d, hd, rfl⟩ := List.mem_map.mp h
    exact ⟨d, lt_of_mem_nibbles (List.mem_reverse.mp (List.dropWhile_subset _ hd)), rfl⟩

end Levels

/-! ## The names of waveforms -/

/-- Among states of one width, the name of the plain waveform tells the state. -/
theorem Levels.waveformName_inj {s t : Levels} (hwidth : s.width = t.width)
    (h : s.waveformName = t.waveformName) : s = t := by
  have hhex : s.hex = t.hex := by
    unfold waveformName at h
    exact (String.append_right_inj "w").mp h
  -- The hexadecimal text is read back as the weight of the bits.
  have hvalue : weigh s.bits = weigh t.bits := by
    have := congrArg (Numeral.readText 16) hhex
    rwa [readText_hex, readText_hex] at this
  cases s
  cases t
  exact congrArg Levels.mk (weigh_inj hwidth hvalue)

/-- Different numbers name different waveforms. -/
theorem Catalog.fusedName_injective : Function.Injective fusedName := by
  intro m n h
  unfold fusedName at h
  exact Numeral.text_injective ((String.append_right_inj "c").mp h)

/-- No state has the name of a fused waveform. -/
theorem Catalog.waveformName_ne_fusedName (s : Levels) (n : Nat) :
    s.waveformName ≠ fusedName n := by
  intro h
  have := congrArg (fun name => name.toList.head?) h
  simp [Levels.waveformName, fusedName] at this

end PulseTrain
