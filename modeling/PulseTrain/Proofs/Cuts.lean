import PulseTrain.Proofs.Pieces

/-!
# What the pieces of a text are

`Text.pieces` and `Text.trim` say how the blanks of a text are dropped. Here it is said what is left,
without following the characters.

* `Text.Cut` is a text made of blanks and words; `Text.pieces_eq_iff` says that `pieces` finds the words,
  and that there is no other way to cut the text.
* `Text.exists_of_trim` splits a text into what `trim` keeps and the blanks around that, and
  `Text.trim_eq_of_trimmed` says that there is one way to do it.
* `Text.pieces_eq_pair_iff` is about trimmed lines of two words.
-/

namespace PulseTrain.Text

/-! ## Blanks -/

/-- Only blanks, perhaps none. -/
def IsBlanks (cs : List Char) : Prop :=
  ∀ c ∈ cs, isBlank c

/-- Blanks in front belong to no piece. -/
theorem pieces_blanks_append {blanks : List Char} (h : IsBlanks blanks) (cs : List Char) :
    pieces (blanks ++ cs) = pieces cs := by
  induction blanks with
  | nil => rfl
  | cons b blanks ih =>
    rw [List.cons_append, pieces, if_pos (h b List.mem_cons_self)]
    exact ih fun c hc => h c (List.mem_cons_of_mem b hc)

theorem pieces_of_isBlanks {cs : List Char} (h : IsBlanks cs) : pieces cs = [] := by
  have hpieces := pieces_blanks_append h []
  rwa [List.append_nil, pieces] at hpieces

/-! ## Cuts -/

/-- A text of these words, in this order, with blanks between them and perhaps around them. -/
inductive Cut : List Char → List (List Char) → Prop where
  | blanks {cs : List Char} (h : IsBlanks cs) : Cut cs []
  | word {before word rest : List Char} {words : List (List Char)} (hbefore : IsBlanks before)
      (hword : IsWord word) (hend : ∀ c ∈ rest.head?, isBlank c) (hrest : Cut rest words) :
      Cut (before ++ word ++ rest) (word :: words)

/-- A cut stays one with a blank more in front. -/
theorem Cut.cons_blank {b : Char} {cs : List Char} {words : List (List Char)} (hb : isBlank b)
    (h : Cut cs words) : Cut (b :: cs) words := by
  have hcons : ∀ {blanks}, IsBlanks blanks → IsBlanks (b :: blanks) := fun hblanks c hc =>
    (List.mem_cons.mp hc).elim (fun heq => heq ▸ hb) (hblanks c)
  cases h with
  | blanks hcs => exact .blanks (hcons hcs)
  | word hbefore hword hend hrest => exact .word (hcons hbefore) hword hend hrest

/-- The pieces of a text are a cut of it. -/
theorem cut_pieces (cs : List Char) : Cut cs (pieces cs) := by
  fun_induction pieces cs with
  | case1 => exact .blanks (by simp [IsBlanks])
  | case2 c cs hc ih => exact ih.cons_blank hc
  | case3 c cs hc ih =>
    -- The first word is what comes before the next blank, and what it is cut from goes on with that
    -- blank.
    have hword : c :: cs.takeWhile (!isBlank ·) ∈ pieces (c :: cs) := by
      rw [pieces, if_neg hc]
      exact List.mem_cons_self
    have hend : ∀ d ∈ (cs.dropWhile (!isBlank ·)).head?, isBlank d := fun d hd => by
      have hnot := List.head?_dropWhile_not (!isBlank ·) cs
      rw [Option.mem_def.mp hd] at hnot
      simpa using hnot
    have hcut : Cut ([] ++ _ ++ _) _ :=
      .word (by simp [IsBlanks]) (isWord_of_mem_pieces hword) hend ih
    rwa [List.nil_append, List.cons_append, List.takeWhile_append_dropWhile] at hcut

/-- The pieces of a text are the words that it is made of. -/
theorem pieces_eq_iff {cs : List Char} {words : List (List Char)} :
    pieces cs = words ↔ Cut cs words := by
  constructor
  -- The cut that is made is one; and every cut is made, by induction on how it was cut.
  · rintro rfl
    exact cut_pieces cs
  · intro h
    induction h with
    | blanks h => exact pieces_of_isBlanks h
    | word hbefore hword hend hrest ih =>
      rw [List.append_assoc, pieces_blanks_append hbefore, pieces_append hword hend, ih]

/-! ## Ends -/

/-- Neither the first nor the last character is a blank. -/
def Trimmed (cs : List Char) : Prop :=
  (∀ c ∈ cs.head?, isBlank c = false) ∧ ∀ c ∈ cs.getLast?, isBlank c = false

theorem trim_of_isBlanks {cs : List Char} (h : IsBlanks cs) : trim cs = [] := by
  rw [trim, List.dropWhile_eq_nil_iff.mpr h]
  rfl

/-- What stands between blanks is what is left. -/
theorem trim_eq_of_trimmed {before cs after : List Char} (hbefore : IsBlanks before)
    (hcs : Trimmed cs) (hafter : IsBlanks after) : trim (before ++ cs ++ after) = cs := by
  by_cases hne : cs = []
  · subst hne
    rw [List.append_nil]
    exact trim_of_isBlanks fun c hc => (List.mem_append.mp hc).elim (hbefore c) (hafter c)
  · exact trim_append hbefore hafter hne hcs.1 hcs.2

/-- What is left when blanks are dropped does not begin with one. -/
theorem head?_dropWhile_isBlank (cs : List Char) :
    ∀ c ∈ (cs.dropWhile isBlank).head?, isBlank c = false := by
  intro c hc
  have hnot := List.head?_dropWhile_not isBlank cs
  rwa [Option.mem_def.mp hc] at hnot

/-- Trimming takes blanks away at both ends, and no more. -/
theorem exists_of_trim (cs : List Char) :
    ∃ before after, IsBlanks before ∧ Trimmed (trim cs) ∧ IsBlanks after
      ∧ cs = before ++ trim cs ++ after := by
  have hblanks : ∀ ds : List Char, IsBlanks (ds.takeWhile isBlank) :=
    fun _ _ => List.mem_takeWhile_imp
  have hhead := head?_dropWhile_isBlank cs
  have hfirst : cs.takeWhile isBlank ++ cs.dropWhile isBlank = cs :=
    List.takeWhile_append_dropWhile
  unfold trim
  generalize cs.dropWhile isBlank = kept at hhead hfirst ⊢
  -- The same again from the other end.
  have hlast := head?_dropWhile_isBlank kept.reverse
  have hsecond : kept = (kept.reverse.dropWhile isBlank).reverse
      ++ (kept.reverse.takeWhile isBlank).reverse := by
    rw [← List.reverse_append, List.takeWhile_append_dropWhile, List.reverse_reverse]
  refine ⟨cs.takeWhile isBlank, (kept.reverse.takeWhile isBlank).reverse, hblanks cs,
    ⟨fun c hc => ?_, by simpa using hlast⟩, fun c hc => ?_, ?_⟩
  · rw [hsecond, List.head?_append, Option.mem_def.mp hc] at hhead
    exact hhead c rfl
  · exact hblanks _ c (List.mem_reverse.mp hc)
  · rw [List.append_assoc, ← hsecond, hfirst]

/-- There are no blanks in front of a text that does not begin with one. -/
theorem IsBlanks.eq_nil_of_head? {blanks cs : List Char} (h : IsBlanks blanks)
    (hhead : ∀ c ∈ (blanks ++ cs).head?, isBlank c = false) : blanks = [] := by
  cases blanks with
  | nil => rfl
  | cons b blanks =>
    have hb : isBlank b = true := h b List.mem_cons_self
    rw [hhead b rfl] at hb
    cases hb

/-- There are none behind a text that does not end in one. -/
theorem IsBlanks.eq_nil_of_getLast? {blanks cs : List Char} (h : IsBlanks blanks)
    (hlast : ∀ c ∈ (cs ++ blanks).getLast?, isBlank c = false) : blanks = [] := by
  have hhead : ∀ c ∈ (blanks.reverse ++ cs.reverse).head?, isBlank c = false := by
    rwa [← List.reverse_append, List.head?_reverse]
  have hreverse : IsBlanks blanks.reverse := fun c hc => h c (List.mem_reverse.mp hc)
  exact List.reverse_eq_nil_iff.mp (hreverse.eq_nil_of_head? hhead)

/-- These two, with blanks between them. -/
def Spaced (cs first second : List Char) : Prop :=
  ∃ gap, gap ≠ [] ∧ IsBlanks gap ∧ cs = first ++ gap ++ second

/-- A trimmed text of two words is one word, blanks, and the other word. -/
theorem pieces_eq_pair_iff {cs first second : List Char} (h : Trimmed cs) :
    pieces cs = [first, second] ↔ IsWord first ∧ IsWord second ∧ Spaced cs first second := by
  rw [pieces_eq_iff]
  constructor
  · intro hcut
    -- A cut into two words is blanks, word, blanks, word, blanks; trimming takes the outer blanks away.
    cases hcut with
    | @word before _ rest _ hbefore hfirst hend hrest =>
    cases hrest with
    | @word gap _ after _ hgap hsecond _ hrest =>
    cases hrest with
    | blanks hafter =>
      have hlast := h.2
      rw [← List.append_assoc] at hlast
      obtain rfl := hafter.eq_nil_of_getLast? hlast
      obtain rfl := hbefore.eq_nil_of_head? (by simpa only [List.append_assoc] using h.1)
      refine ⟨hfirst, hsecond, gap, ?_, hgap, by simp⟩
      -- The first word goes on up to a blank, and the second one begins with none.
      rintro rfl
      obtain ⟨d, ds, rfl⟩ := List.exists_cons_of_ne_nil hsecond.1
      have hd : isBlank d = true := hend d rfl
      rw [hsecond.2 d List.mem_cons_self] at hd
      cases hd
  -- Conversely, a gap between two words is the only place to cut.
  · rintro ⟨hfirst, hsecond, gap, hne, hgap, rfl⟩
    have hend : ∀ c ∈ (gap ++ second).head?, isBlank c := by
      obtain ⟨b, gap, rfl⟩ := List.exists_cons_of_ne_nil hne
      intro c hc
      cases hc
      exact hgap b List.mem_cons_self
    have hnone : IsBlanks [] := by simp [IsBlanks]
    have hrest : Cut (gap ++ second ++ []) [second] := .word hgap hsecond (by simp) (.blanks hnone)
    rw [List.append_nil] at hrest
    have hcut : Cut ([] ++ first ++ (gap ++ second)) [first, second] :=
      .word hnone hfirst hend hrest
    rwa [List.nil_append, ← List.append_assoc] at hcut

end PulseTrain.Text
