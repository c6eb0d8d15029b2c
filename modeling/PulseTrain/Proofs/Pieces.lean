import Mathlib.Data.List.TakeWhile
import PulseTrain.Text.Blank
import PulseTrain.Text.Lines

/-!
# Lines and pieces of a text that is put together

What `Text.lines`, `Text.trim` and `Text.pieces` do where a text is put together from words, blanks and
line feeds: they take it apart again.

`Text.IsWord` is what a piece is, and `Text.isWord_of_mem_pieces` says that every piece is one.
`Text.IsLine` is what a line is.
-/

namespace PulseTrain.Text

/-- Some characters, and no blank among them. -/
def IsWord (cs : List Char) : Prop :=
  cs ≠ [] ∧ ∀ c ∈ cs, isBlank c = false

/-- No line ends in it. -/
def IsLine (cs : List Char) : Prop :=
  ∀ c ∈ cs, c ≠ '\n' ∧ c ≠ '\r'

-- The instances name the list: otherwise every character that there is may be tried.
instance (cs : List Char) : Decidable (IsWord cs) :=
  @instDecidableAnd _ _ inferInstance (List.decidableBAll _ cs)

instance (cs : List Char) : Decidable (IsLine cs) :=
  List.decidableBAll _ cs

/-- A word has no blank in it. -/
theorem IsWord.ne_of_mem {cs : List Char} (h : IsWord cs) {b c : Char} (hb : isBlank b)
    (hc : c ∈ cs) : c ≠ b := by
  rintro rfl
  rw [h.2 c hc] at hb
  cases hb

/-! ## Lines -/

/-- A line ends at its line feed. -/
theorem lines_append_lineFeed {line : List Char} (h : IsLine line) (rest : List Char) :
    lines (line ++ '\n' :: rest) = line :: lines rest := by
  induction line with
  | nil => rfl
  | cons c line ih =>
    have hc := h c List.mem_cons_self
    have hline := ih fun d hd => h d (List.mem_cons_of_mem c hd)
    rw [List.cons_append, lines, hline]
    -- The first two equations of `lines` ask for a line end.
    · exact hc.1
    · exact fun _ hcr => absurd hcr hc.2

/-! ## Pieces -/

/-- Pieces are words. -/
theorem isWord_of_mem_pieces {cs piece : List Char} (h : piece ∈ pieces cs) : IsWord piece := by
  fun_induction pieces cs with
  | case1 => cases h
  | case2 c cs hc ih => exact ih h
  | case3 c cs hc ih =>
    -- A word begins with a character that is no blank, and goes on as long as there is none.
    rcases List.mem_cons.mp h with rfl | h
    · refine ⟨List.cons_ne_nil c _, fun d hd => ?_⟩
      rcases List.mem_cons.mp hd with rfl | hd
      · exact Bool.eq_false_iff.mpr hc
      · simpa using List.mem_takeWhile_imp hd
    · exact ih h

/-- A word goes on up to the next blank. -/
theorem pieces_append {word rest : List Char} (h : IsWord word)
    (hrest : ∀ b ∈ rest.head?, isBlank b) : pieces (word ++ rest) = word :: pieces rest := by
  obtain ⟨c, cs, rfl⟩ := List.exists_cons_of_ne_nil h.1
  have hc : isBlank c = false := h.2 c List.mem_cons_self
  have hcs : ∀ d ∈ cs, (!isBlank d) = true := fun d hd => by
    rw [h.2 d (List.mem_cons_of_mem c hd)]
    rfl
  -- The rest begins with a blank, so none of it goes into the word.
  have hnone : rest.takeWhile (!isBlank ·) = [] ∧ rest.dropWhile (!isBlank ·) = rest := by
    cases rest with
    | nil => exact ⟨rfl, rfl⟩
    | cons b rest =>
      have hb : isBlank b := hrest b rfl
      simp [hb]
  rw [List.cons_append, pieces, if_neg (by simp [hc]), List.takeWhile_append_of_pos hcs,
    List.dropWhile_append_of_pos hcs, hnone.1, hnone.2, List.append_nil]

theorem pieces_of_isWord {word : List Char} (h : IsWord word) : pieces word = [word] := by
  have hword : pieces (word ++ []) = word :: pieces [] := pieces_append h (by simp)
  rwa [List.append_nil, pieces] at hword

/-- A piece ends at a blank. -/
theorem pieces_append_blank {word : List Char} (h : IsWord word) {b : Char} (hb : isBlank b)
    (rest : List Char) : pieces (word ++ b :: rest) = word :: pieces rest := by
  rw [pieces_append h (by simpa using hb), pieces, if_pos hb]

/-! ## Ends -/

/-- Blanks are dropped up to what is none. -/
theorem dropWhile_isBlank_append {before cs : List Char} (hbefore : ∀ c ∈ before, isBlank c)
    (hcs : ∀ c ∈ cs.head?, isBlank c = false) : (before ++ cs).dropWhile isBlank = cs := by
  rw [List.dropWhile_append_of_pos hbefore]
  cases cs with
  | nil => rfl
  | cons c cs => exact List.dropWhile_cons_of_neg (by simp [hcs c rfl])

/-- What stands between blanks stays, if it neither begins nor ends with one. -/
theorem trim_append {before cs after : List Char} (hbefore : ∀ c ∈ before, isBlank c)
    (hafter : ∀ c ∈ after, isBlank c) (hne : cs ≠ []) (hhead : ∀ c ∈ cs.head?, isBlank c = false)
    (hlast : ∀ c ∈ cs.getLast?, isBlank c = false) : trim (before ++ cs ++ after) = cs := by
  have hfirst : (before ++ (cs ++ after)).dropWhile isBlank = cs ++ after := by
    obtain ⟨d, ds, rfl⟩ := List.exists_cons_of_ne_nil hne
    exact dropWhile_isBlank_append hbefore hhead
  have hsecond : (after.reverse ++ cs.reverse).dropWhile isBlank = cs.reverse :=
    dropWhile_isBlank_append (by simpa using hafter) (by simpa using hlast)
  rw [trim, List.append_assoc, hfirst, List.reverse_append, hsecond, List.reverse_reverse]

end PulseTrain.Text
