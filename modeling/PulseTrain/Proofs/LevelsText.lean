import PulseTrain.Levels.Text
import PulseTrain.Proofs.Cuts

/-!
# States read back

The text of a state has one digit per channel between blanks. It is read back, and so is every other
text of such digits, however they are set apart.

* `Levels.parse?_text` reads a state back, so `Levels.chars_injective` tells states apart by their texts,
  whatever their numbers of channels.
* `Levels.parse?_eq_some_iff` says what is read, from any text: its words are the digits.
* `Levels.normalize?` writes again what it reads, and `Levels.legible_text` is the result.
-/

namespace PulseTrain.Levels

/-- The pieces of a state's text are its bits. -/
theorem pieces_chars (s : Levels) : Text.pieces s.chars = s.bits.map fun bit => [bitChar bit] := by
  have hword : ∀ bit, Text.IsWord [bitChar bit] := by decide
  unfold chars
  -- Bit by bit: each is a word of its own, and a blank follows it unless it is the last.
  induction s.bits with
  | nil => rw [List.map_nil, List.intersperse_nil, Text.pieces, List.map_nil]
  | cons bit bits ih =>
    cases bits with
    | nil => exact Text.pieces_of_isWord (hword bit)
    | cons bit' bits =>
      rw [List.map_cons, List.map_cons, List.intersperse_cons_cons, ← List.map_cons]
      have hpieces := Text.pieces_append_blank (hword bit) (b := ' ') (by decide)
        (((bit' :: bits).map bitChar).intersperse ' ')
      rw [ih] at hpieces
      exact hpieces

/-- Bits read back as they are written. -/
theorem mapM_readBit (bits : List Bool) :
    (bits.map fun bit => [bitChar bit]).mapM readBit = some bits := by
  induction bits with
  | nil => rfl
  | cons bit bits ih =>
    have hbit : readBit [bitChar bit] = some bit := by cases bit <;> rfl
    rw [List.map_cons, List.mapM_cons, hbit, ih]
    rfl

theorem parse?_text (s : Levels) : parse? s.text = some s := by
  rw [parse?, text, String.toList_ofList, pieces_chars, mapM_readBit]
  rfl

/-- Different states have different texts. -/
theorem chars_injective : Function.Injective chars := by
  intro s t h
  have hparse := parse?_text s
  rw [text, h, ← text, parse?_text] at hparse
  exact (Option.some.inj hparse).symm

/-- A state is written in two digits and spaces. -/
theorem mem_chars {s : Levels} {c : Char} (h : c ∈ s.chars) : c = ' ' ∨ c = '0' ∨ c = '1' := by
  obtain ⟨bits⟩ := s
  unfold chars at h
  induction bits with
  | nil => cases h
  | cons bit bits ih =>
    have hbit : ∀ bit, bitChar bit = '0' ∨ bitChar bit = '1' := by decide
    cases bits with
    | nil =>
      obtain rfl := List.mem_singleton.mp h
      exact .inr (hbit bit)
    | cons bit' bits =>
      rw [List.map_cons, List.map_cons, List.intersperse_cons_cons, ← List.map_cons,
        List.mem_cons, List.mem_cons] at h
      rcases h with rfl | rfl | h
      · exact .inr (hbit bit)
      · exact .inl rfl
      · exact ih h

/-! ## Any text -/

/-- A word reads as a bit exactly if the bit is written so. -/
theorem readBit_eq_some_iff {word : List Char} {bit : Bool} :
    readBit word = some bit ↔ word = [bitChar bit] := by
  constructor
  · intro h
    unfold readBit at h
    split at h
    · cases h
      rfl
    · cases h
      rfl
    · cases h
  · rintro rfl
    cases bit <;> rfl

/-- Words read as bits exactly if each is written so. -/
theorem mapM_readBit_eq_some_iff {words : List (List Char)} {bits : List Bool} :
    words.mapM readBit = some bits ↔ words = bits.map fun bit => [bitChar bit] := by
  refine ⟨fun h => ?_, fun h => h ▸ mapM_readBit bits⟩
  induction words generalizing bits with
  | nil =>
    cases h
    rfl
  | cons word words ih =>
    rw [List.mapM_cons] at h
    obtain ⟨bit, hbit, hrest⟩ := Option.bind_eq_some_iff.mp h
    obtain ⟨bits, hbits, hcons⟩ := Option.bind_eq_some_iff.mp hrest
    cases hcons
    rw [readBit_eq_some_iff.mp hbit, ih hbits, List.map_cons]

/-- A text is read as a state exactly if its words are the digits of the state. -/
theorem parse?_eq_some_iff {text : String} {s : Levels} :
    parse? text = some s ↔ Text.Cut text.toList (s.bits.map fun bit => [bitChar bit]) := by
  obtain ⟨bits⟩ := s
  rw [← Text.pieces_eq_iff, ← mapM_readBit_eq_some_iff, parse?]
  cases (Text.pieces text.toList).mapM readBit <;> simp

/-- Words are bits if each of them is one of two digits. -/
theorem exists_bits_iff {words : List (List Char)} :
    (∃ bits : List Bool, words = bits.map fun bit => [bitChar bit])
      ↔ ∀ word ∈ words, word = ['0'] ∨ word = ['1'] := by
  have hdigit : ∀ bit, [bitChar bit] = ['0'] ∨ [bitChar bit] = ['1'] := by decide
  constructor
  · rintro ⟨bits, rfl⟩ word hword
    obtain ⟨bit, -, rfl⟩ := List.mem_map.mp hword
    exact hdigit bit
  · intro h
    -- Word by word, each of them one of the two digits.
    induction words with
    | nil => exact ⟨[], rfl⟩
    | cons word words ih =>
      obtain ⟨bits, rfl⟩ := ih fun w hw => h w (List.mem_cons_of_mem word hw)
      rcases h word List.mem_cons_self with rfl | rfl
      · exact ⟨false :: bits, rfl⟩
      · exact ⟨true :: bits, rfl⟩

/-- A state is written bit by bit, with a space between two of them. -/
theorem chars_eq_intercalate (s : Levels) :
    s.chars = [' '].intercalate (s.bits.map fun bit => [bitChar bit]) := by
  unfold chars
  induction s.bits with
  | nil => rfl
  | cons bit bits ih =>
    cases bits with
    | nil => rfl
    | cons bit' bits =>
      rw [List.map_cons, List.map_cons] at ih ⊢
      rw [List.map_cons, List.map_cons, List.intersperse_cons_cons, ih, List.intercalate_cons_cons]
      rfl

/-- The text of a state is its digits with one space between two of them. -/
theorem text_eq_intercalate (s : Levels) :
    s.text = " ".intercalate ((s.bits.map fun bit => [bitChar bit]).map String.ofList) := by
  have hspace : " ".toList = [' '] := by decide +kernel
  have hback : String.toList ∘ String.ofList = id := funext fun _ => String.toList_ofList
  rw [← String.toList_inj, String.toList_intercalate, List.map_map, hback, List.map_id, hspace, text,
    String.toList_ofList, chars_eq_intercalate]

/-- The text of the state that a text stands for. -/
def normalize? (text : String) : Option String :=
  (parse? text).map Levels.text

/-- What is read from `text`, which is made of `words`. -/
structure Legible (text : String) (words : List (List Char)) : Prop where
  cut_iff : ∀ words', Text.Cut text.toList words' ↔ words' = words
  isSome_iff : (∃ s, parse? text = some s) ↔ ∀ word ∈ words, word = ['0'] ∨ word = ['1']
  text_eq : ∀ s, parse? text = some s → s.text = " ".intercalate (words.map String.ofList)

/-- **States as texts.** Every state is read back from its text. Any other text is read exactly if its
words are digits, which then make up the text of the state with one space between them; so writing again
what was read changes no text a second time. -/
theorem legible_text :
    (∀ s : Levels, parse? s.text = some s) ∧ (∀ text, ∃ words, Legible text words)
      ∧ ∀ text, (normalize? text).bind normalize? = normalize? text := by
  refine ⟨parse?_text, fun text => ⟨Text.pieces text.toList, ?_, ?_, ?_⟩, fun text => ?_⟩
  · intro words
    rw [← Text.pieces_eq_iff, eq_comm]
  · simp only [parse?_eq_some_iff, ← Text.pieces_eq_iff]
    rw [← exists_bits_iff]
    exact ⟨fun ⟨s, h⟩ => ⟨s.bits, h⟩, fun ⟨bits, h⟩ => ⟨⟨bits⟩, h⟩⟩
  · intro s hs
    rw [text_eq_intercalate, Text.pieces_eq_iff.mpr (parse?_eq_some_iff.mp hs)]
  · unfold normalize?
    cases parse? text with
    | none => rfl
    -- What was read is written in the one way it is written, and so read and written again.
    | some s =>
      show (parse? s.text).map Levels.text = some s.text
      rw [parse?_text]
      rfl

end PulseTrain.Levels
