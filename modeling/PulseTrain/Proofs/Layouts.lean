import PulseTrain.Proofs.Cuts
import PulseTrain.Proofs.ScriptText

/-!
# Texts laid out in lines

A line may be indented, it may have blanks after what is on it, and it may end in one of two ways. All
of this is layout: a script is read from what is on the lines that are not blank, and their numbers.

* `Text.Line` is a line with its layout, and `Text.LaidOut` is a text of such lines;
  `Text.exists_laidOut` says that every text is one.
* `Text.exists_lines_append` is what `Text.lines` makes of a line that ends: the same, but perhaps
  without a carriage return.
* `ScriptLine.ofText_of_laidOut` says that the reader sees what is on the lines, and no layout.
-/

namespace PulseTrain

namespace Text

/-! ## Lines with their layout -/

/-- A line: what is on it, which may be nothing, and the blanks around that. -/
structure Line where
  indent : List Char
  content : List Char
  trailing : List Char
  indent_isBlanks : IsBlanks indent
  content_trimmed : Trimmed content
  trailing_isBlanks : IsBlanks trailing
  lineFeed_notMem : '\n' ∉ indent ++ content ++ trailing

namespace Line

/-- The characters of a line. -/
def chars (l : Line) : List Char :=
  l.indent ++ l.content ++ l.trailing

theorem trim_chars (l : Line) : trim l.chars = l.content :=
  trim_eq_of_trimmed l.indent_isBlanks l.content_trimmed l.trailing_isBlanks

theorem lineFeed_notMem_chars (l : Line) : '\n' ∉ l.chars :=
  l.lineFeed_notMem

/-- Anything without a line feed can stand on a line. -/
theorem exists_chars_eq {cs : List Char} (h : '\n' ∉ cs) : ∃ l : Line, l.chars = cs := by
  obtain ⟨before, after, hbefore, htrimmed, hafter, heq⟩ := exists_of_trim cs
  exact ⟨⟨before, trim cs, after, hbefore, htrimmed, hafter, heq ▸ h⟩, heq.symm⟩

end Line

/-- A text of these lines. Each of them ends with a line feed, perhaps after a carriage return, but
the last one need not end. -/
inductive LaidOut : List Line → List Char → Prop where
  | nil : LaidOut [] []
  | last (l : Line) : LaidOut [l] l.chars
  | cons (l : Line) {ending rest : List Char} {ls : List Line}
      (hending : ending = ['\n'] ∨ ending = ['\r', '\n']) (hrest : LaidOut ls rest) :
      LaidOut (l :: ls) (l.chars ++ ending ++ rest)

/-- What is on the lines that are not blank. -/
def contents (ls : List Line) : List (List Char) :=
  (ls.map (·.content)).filter (· ≠ [])

/-- Every text is laid out in lines. -/
theorem exists_laidOut (cs : List Char) : ∃ ls, LaidOut ls cs := by
  -- On the length of the text, since its first line ends at its first line feed.
  induction hlength : cs.length using Nat.strong_induction_on generalizing cs with
  | _ n ih =>
    by_cases hmem : '\n' ∈ cs
    · obtain ⟨before, rest, rfl, hbefore⟩ := List.eq_append_cons_of_mem hmem
      obtain ⟨l, rfl⟩ := Line.exists_chars_eq hbefore
      have hshorter : rest.length < n := by
        rw [← hlength, List.length_append, List.length_cons]
        omega
      obtain ⟨ls, hrest⟩ := ih _ hshorter rest rfl
      have hcons := LaidOut.cons l (.inl rfl) hrest
      rw [List.append_assoc] at hcons
      exact ⟨l :: ls, hcons⟩
    · obtain ⟨l, rfl⟩ := Line.exists_chars_eq hmem
      exact ⟨[l], .last l⟩

/-! ## Physical lines -/

/-- A character that ends no line is the first of the line. -/
theorem lines_cons {c : Char} {cs line : List Char} {rest : List (List Char)} (hlf : c ≠ '\n')
    (hcr : ∀ ds, c = '\r' → cs ≠ '\n' :: ds) (h : lines cs = line :: rest) :
    lines (c :: cs) = (c :: line) :: rest := by
  rw [lines, h]
  · exact hlf
  · exact hcr

/-- A carriage return at the end of a line may be taken as a part of its ending. -/
theorem exists_lines_append {cs : List Char} (h : '\n' ∉ cs) (rest : List Char) :
    ∃ line, lines (cs ++ '\n' :: rest) = line :: lines rest
      ∧ (cs = line ∨ cs = line ++ ['\r']) := by
  induction cs with
  | nil => exact ⟨[], rfl, .inl rfl⟩
  | cons c cs ih =>
    obtain ⟨hc, hcs⟩ := not_or.mp (mt List.mem_cons.mpr h)
    -- A carriage return goes with the line feed only where it comes last.
    by_cases hlast : c = '\r' ∧ cs = []
    · obtain ⟨rfl, rfl⟩ := hlast
      exact ⟨[], rfl, .inr rfl⟩
    · obtain ⟨line, hline, hor⟩ := ih hcs
      refine ⟨c :: line, lines_cons (Ne.symm hc) ?_ hline, hor.imp (congrArg _) (congrArg _)⟩
      rintro ds rfl heq
      cases cs with
      | nil => exact hlast ⟨rfl, rfl⟩
      | cons d cs =>
        cases heq
        exact hcs List.mem_cons_self

/-- A text without a line feed is one line. -/
theorem lines_of_notMem {cs : List Char} (hne : cs ≠ []) (h : '\n' ∉ cs) : lines cs = [cs] := by
  induction cs with
  | nil => exact absurd rfl hne
  | cons c cs ih =>
    obtain ⟨hc, hcs⟩ := not_or.mp (mt List.mem_cons.mpr h)
    cases cs with
    | nil =>
      rw [lines, lines]
      · exact Ne.symm hc
      · rintro ds - ⟨⟩
    | cons d cs =>
      refine lines_cons (Ne.symm hc) ?_ (ih (List.cons_ne_nil d cs) hcs)
      rintro ds - heq
      cases heq
      exact hcs List.mem_cons_self

/-- A blank at the end is trimmed. -/
theorem trim_append_blank (cs : List Char) {b : Char} (hb : isBlank b) :
    trim (cs ++ [b]) = trim cs := by
  obtain ⟨before, after, hbefore, htrimmed, hafter, heq⟩ := exists_of_trim cs
  -- The blank lengthens the blanks that stand at the end anyway.
  have hmore : IsBlanks (after ++ [b]) := by
    intro c hc
    rcases List.mem_append.mp hc with hc | hc
    · exact hafter c hc
    · exact List.mem_singleton.mp hc ▸ hb
  have htrim := trim_eq_of_trimmed hbefore htrimmed hmore
  rwa [← List.append_assoc, ← heq] at htrim

end Text

/-! ## The lines that a script is read from -/

namespace ScriptLine

/-- The lines with something on them, when the first of them all has this number. -/
def visible (first : Nat) (contents : List (List Char)) : List ScriptLine :=
  ((contents.zipIdx first).map fun (content, number) => ⟨number, content⟩).filter (!·.text.isEmpty)

/-- An empty line is not visible, but it is counted. -/
theorem visible_cons (first : Nat) (content : List Char) (contents : List (List Char)) :
    visible first (content :: contents)
      = (if content = [] then [] else [⟨first, content⟩]) ++ visible (first + 1) contents := by
  unfold visible
  rw [List.zipIdx_cons, List.map_cons]
  by_cases hnone : content = []
  · rw [if_pos hnone, List.filter_cons_of_neg (by simpa using hnone), List.nil_append]
  · rw [if_neg hnone, List.filter_cons_of_pos (by simpa using hnone), List.singleton_append]

/-- The texts of visible lines are those that are not empty. -/
theorem map_text_visible (first : Nat) (contents : List (List Char)) :
    (visible first contents).map (·.text) = contents.filter (· ≠ []) := by
  induction contents generalizing first with
  | nil => rfl
  | cons content contents ih =>
    rw [visible_cons, List.map_append, ih]
    by_cases hnone : content = []
    · rw [if_pos hnone, List.filter_cons_of_neg (by simpa using hnone)]
      rfl
    · rw [if_neg hnone, List.filter_cons_of_pos (by simpa using hnone)]
      rfl

/-- What is visible is trimmed. -/
theorem trimmed_of_mem_visible {first : Nat} {ls : List Text.Line} {l : ScriptLine}
    (h : l ∈ visible first (ls.map (·.content))) : Text.Trimmed l.text := by
  have htext := List.mem_map_of_mem (f := (·.text)) h
  rw [map_text_visible] at htext
  obtain ⟨line, -, hline⟩ := List.mem_map.mp (List.mem_filter.mp htext).1
  rw [← hline]
  exact line.content_trimmed

/-- The reader numbers the lines before it drops the empty ones. -/
theorem numbered_eq_visible (first : Nat) (ls : List (List Char)) :
    numbered first ls = visible first (ls.map Text.trim) := by
  unfold numbered visible
  rw [List.zipIdx_map, List.map_map]
  rfl

/-- Induction on the layout: whatever the ending of a line is, its trimmed text is what is on it. -/
theorem numbered_of_laidOut {ls : List Text.Line} {cs : List Char} (h : Text.LaidOut ls cs)
    (first : Nat) : numbered first (Text.lines cs) = visible first (ls.map (·.content)) := by
  rw [numbered_eq_visible]
  -- By induction on how the text is laid out in lines.
  induction h generalizing first with
  | nil => rfl
  | last l =>
    have htrim := l.trim_chars
    cases hchars : l.chars with
    | nil =>
      have hnone : l.content = [] := by
        rw [← htrim, hchars]
        rfl
      rw [List.map_cons, visible_cons, if_pos hnone]
      rfl
    | cons c cs =>
      have hlines := Text.lines_of_notMem (hchars ▸ List.cons_ne_nil c cs) l.lineFeed_notMem_chars
      rw [← hchars, hlines, List.map_singleton, htrim]
      rfl
  | @cons l ending rest ls hending hrest ih =>
    -- With or without a carriage return, the line is cut off at the line feed and trimmed to its content.
    obtain ⟨chunk, hchunk, hmem, htrim⟩ : ∃ chunk, l.chars ++ ending ++ rest = chunk ++ '\n' :: rest
        ∧ '\n' ∉ chunk ∧ Text.trim chunk = l.content := by
      rcases hending with rfl | rfl
      · exact ⟨l.chars, by simp, l.lineFeed_notMem_chars, l.trim_chars⟩
      · refine ⟨l.chars ++ ['\r'], by simp, ?_, ?_⟩
        · simpa using l.lineFeed_notMem_chars
        · rw [Text.trim_append_blank _ (by decide), l.trim_chars]
    obtain ⟨line, hlines, hor⟩ := Text.exists_lines_append hmem rest
    have hline : Text.trim line = l.content := by
      rcases hor with rfl | rfl
      · exact htrim
      · rwa [Text.trim_append_blank _ (by decide)] at htrim
    rw [hchunk, hlines, List.map_cons, List.map_cons, visible_cons, visible_cons, hline, ih]

/-- What the reader sees of a text: what is on its lines, and their numbers. -/
theorem ofText_of_laidOut {ls : List Text.Line} {text : String}
    (h : Text.LaidOut ls text.toList) : ofText text = visible 1 (ls.map (·.content)) :=
  numbered_of_laidOut h 1

end ScriptLine

end PulseTrain
