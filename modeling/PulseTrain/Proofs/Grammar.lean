import PulseTrain.Proofs.FirstFault
import PulseTrain.Proofs.Layouts

/-!
# The grammar of scripts

What is written on the lines of a script, and which line is at fault in a text that is no script.
Both are said without following the reader.

* `Script.IsFirstLine` and `Instruction.WrittenAs` are what a line says. `ScriptLine.isStart_iff` and
  `Instruction.read?_eq_some_iff` say that the reader agrees, on trimmed lines.
* `Script.BodyReading` and `Script.Reading` have one case for each way in which reading ends.
  `Script.readBody_eq_iff` and `Script.parse_eq_iff` are what the reader finds.
* `Script.reading_ok_iff` is what a script has to be; the numbers of its lines do not matter.
* `Script.grammar_parse` is the result.
-/

namespace PulseTrain

/-! ## Words -/

/-- No character of a word is a blank. -/
theorem Text.not_isBlank_of_isWordChar {c : Char} (h : isWordChar c) : isBlank c = false := by
  -- Most word ranges lie beyond all blanks, or in the one wide gap between them. Only the others are
  -- compared with each range of blanks.
  have hblank : ∀ b ∈ blankRanges, b.2 ≤ 0x3000 ∧ (b.2 ≤ 0xA0 ∨ 0x1680 ≤ b.1) := by decide
  have hword : ∀ w ∈ wordRanges, 0x3000 < w.1 ∨ 0xA0 < w.1 ∧ w.2 < 0x1680
      ∨ ∀ b ∈ blankRanges, w.2 < b.1 ∨ b.2 < w.1 := by decide +kernel
  obtain ⟨w, hw, hwc⟩ := List.any_eq_true.mp h
  refine Bool.eq_false_iff.mpr fun hisBlank => ?_
  obtain ⟨b, hb, hbc⟩ := List.any_eq_true.mp hisBlank
  obtain ⟨hle, hgap⟩ := hblank b hb
  simp only [Bool.and_eq_true, decide_eq_true_eq] at hwc hbc
  rcases hword w hw with hbeyond | hbetween | hapart
  · omega
  · omega
  · have := hapart b hb
    omega

/-- A number is written in word characters. -/
theorem Counter.WrittenAs.isWord {n : Nat} {cs : List Char} (h : WrittenAs n cs) :
    Text.IsWord cs := by
  obtain ⟨sign, digits, hsign, rfl, hne, hdigits, -⟩ := h
  -- Sign and digits are word characters, and digits there are.
  refine ⟨by simp [hne], fun c hc => ?_⟩
  rcases List.mem_append.mp hc with hc | hc
  · rcases hsign with rfl | rfl
    · cases hc
    · obtain rfl := List.mem_singleton.mp hc
      decide
  · apply Text.not_isBlank_of_isWordChar
    apply Text.isWordChar_of_isAlphanum
    simp [Char.isAlphanum, hdigits c hc]

/-- The line that names a script: `script`, and one word of word characters. -/
def Script.IsFirstLine (cs : List Char) : Prop :=
  ∃ name, name ≠ [] ∧ (∀ c ∈ name, Text.isWordChar c) ∧ Text.Spaced cs "script".toList name

/-- The first line is not the last. -/
theorem Script.IsFirstLine.ne_endLine {cs : List Char} (h : IsFirstLine cs) : cs ≠ endLine := by
  have hne : "script".toList ≠ [] := by decide
  have hhead : endLine.head? ≠ "script".toList.head? := by decide
  obtain ⟨name, -, -, gap, -, -, hcs⟩ := h
  rintro rfl
  rw [hcs, List.append_assoc, List.head?_append_of_ne_nil _ hne] at hhead
  exact hhead rfl

/-! ## Lines -/

/-- The reader knows the first line when it sees it. -/
theorem ScriptLine.isStart_iff {l : ScriptLine} (h : Text.Trimmed l.text) :
    l.isStart ↔ Script.IsFirstLine l.text := by
  have hscript : Text.IsWord "script".toList := by decide
  -- A first line has two words, the keyword and the name.
  constructor
  · intro hstart
    unfold isStart at hstart
    split at hstart
    · rename_i keyword name hpieces
      obtain ⟨-, hname, hspaced⟩ := (Text.pieces_eq_pair_iff h).mp hpieces
      simp only [Bool.and_eq_true, decide_eq_true_eq, List.all_eq_true] at hstart
      obtain ⟨rfl, hchars⟩ := hstart
      exact ⟨name, hname.1, hchars, hspaced⟩
    · cases hstart
  · rintro ⟨name, hne, hchars, hspaced⟩
    have hname : Text.IsWord name := ⟨hne, fun c hc => Text.not_isBlank_of_isWordChar (hchars c hc)⟩
    unfold isStart
    rw [(Text.pieces_eq_pair_iff h).mpr ⟨hscript, hname, hspaced⟩]
    simpa using hchars

theorem ScriptLine.isEnd_iff {l : ScriptLine} : l.isEnd ↔ l.text = Script.endLine :=
  decide_eq_true_iff

namespace Instruction

/-- The instruction is what the line says: `generate` and a word, or `wait` and a count. -/
def WrittenAs : Instruction → List Char → Prop
  | generate waveform, cs =>
    Text.IsWord waveform.toList ∧ Text.Spaced cs "generate".toList waveform.toList
  | wait cycles, cs =>
    ∃ numeral, Counter.WrittenAs cycles numeral ∧ Text.Spaced cs "wait".toList numeral

/-- It reads an instruction exactly off the lines on which one is written. -/
theorem read?_eq_some_iff {l : ScriptLine} (h : Text.Trimmed l.text) {i : Instruction} :
    read? l = some i ↔ i.WrittenAs l.text := by
  constructor
  · intro hread
    unfold read? at hread
    split at hread
    -- The keyword decides which kind of argument is read.
    · rename_i keyword argument hpieces
      obtain ⟨-, hargument, hspaced⟩ := (Text.pieces_eq_pair_iff h).mp hpieces
      split at hread
      · rename_i hkeyword
        subst hkeyword
        cases hread
        rw [WrittenAs, String.toList_ofList]
        exact ⟨hargument, hspaced⟩
      · split at hread
        · rename_i hkeyword
          subst hkeyword
          obtain ⟨n, hn, rfl⟩ := Option.map_eq_some_iff.mp hread
          exact ⟨argument, Counter.read?_eq_some_iff.mp hn, hspaced⟩
        · cases hread
    · cases hread
  · intro hwritten
    have hkeyword := i.isWord_keyword
    unfold read?
    cases i with
    | generate waveform =>
      obtain ⟨hword, hspaced⟩ := hwritten
      -- Conversely, what is written falls into the two words that the reader asks for.
      have hpieces := (Text.pieces_eq_pair_iff h).mpr ⟨hkeyword, hword, hspaced⟩
      simp only [hpieces]
      rw [keyword, if_pos rfl, String.ofList_toList]
    | wait cycles =>
      obtain ⟨numeral, hnumeral, hspaced⟩ := hwritten
      have hpieces := (Text.pieces_eq_pair_iff h).mpr ⟨hkeyword, hnumeral.isWord, hspaced⟩
      have hne : "wait".toList ≠ "generate".toList := by decide
      simp only [hpieces]
      rw [keyword, if_neg hne, if_pos rfl, Counter.read?_eq_some_iff.mpr hnumeral,
        Option.map_some]

end Instruction

/-! ## What follows the first line -/

namespace Script

/-- The lines before the first one that ends a script; all of them, if none does. -/
def beforeEnd (ls : List ScriptLine) : List ScriptLine :=
  ls.takeWhile (·.text ≠ endLine)

/-- No instruction is what the line says, and `e` reports it. -/
def Unreadable (l : ScriptLine) (e : ScriptFault) : Prop :=
  (∀ i : Instruction, ¬ i.WrittenAs l.text) ∧ e = .unreadable l.number (String.ofList l.text)

/-- What the lines after the first one are read as. -/
inductive BodyReading (ls : List ScriptLine) : Except ScriptFault (List Instruction) → Prop where
  | unreadable {e : ScriptFault} (hfault : FirstFault Unreadable (beforeEnd ls) e) :
      BodyReading ls (.error e)
  | missingEnd {is : List Instruction}
      (hwritten : List.Forall₂ (fun l i => i.WrittenAs l.text) (beforeEnd ls) is)
      (hend : ¬ ∃ l ∈ ls, l.text = endLine) : BodyReading ls (.error .missingEnd)
  | ended {is : List Instruction}
      (hwritten : List.Forall₂ (fun l i => i.WrittenAs l.text) (beforeEnd ls) is)
      (hend : ∃ l ∈ ls, l.text = endLine) : BodyReading ls (.ok is)

/-- Reads one instruction, or reports its line. -/
def readLine (l : ScriptLine) : Except ScriptFault Instruction :=
  match Instruction.read? l with
  | some i => .ok i
  | none => .error (.unreadable l.number (String.ofList l.text))

section

variable {l : ScriptLine} (h : Text.Trimmed l.text)

include h

/-- A line reads as an instruction exactly if that is written on it. -/
theorem readLine_eq_ok_iff {i : Instruction} : readLine l = .ok i ↔ i.WrittenAs l.text := by
  rw [← Instruction.read?_eq_some_iff h, readLine]
  cases Instruction.read? l <;> simp

/-- A line is refused exactly if no instruction is written on it. -/
theorem readLine_eq_error_iff {e : ScriptFault} : readLine l = .error e ↔ Unreadable l e := by
  simp only [Unreadable, ← Instruction.read?_eq_some_iff h, readLine]
  cases Instruction.read? l <;> simp [eq_comm]

end

section

variable {ls : List ScriptLine} (h : ∀ l ∈ ls, Text.Trimmed l.text)

include h

/-- Of several lines, the first one that cannot be read is reported. -/
theorem mapM_readLine_eq_error_iff {e : ScriptFault} :
    ls.mapM readLine = .error e ↔ FirstFault Unreadable ls e := by
  rw [mapM_eq_error_iff]
  exact firstFault_congr fun l hl _ => readLine_eq_error_iff (h l hl)

/-- All lines are read exactly if each of them is. -/
theorem mapM_readLine_eq_ok_iff {is : List Instruction} :
    ls.mapM readLine = .ok is ↔ List.Forall₂ (fun l i => i.WrittenAs l.text) ls is := by
  rw [mapM_eq_ok_iff]
  constructor <;> intro hread
  · exact ((List.forall₂_and_left _ _).mpr ⟨h, hread⟩).imp
      fun l i hl => (readLine_eq_ok_iff hl.1).mp hl.2
  · exact ((List.forall₂_and_left _ _).mpr ⟨h, hread⟩).imp
      fun l i hl => (readLine_eq_ok_iff hl.1).mpr hl.2

end

/-- The reader reads the lines before the end one by one, and looks for the end after that. -/
theorem readBody_eq (ls : List ScriptLine) :
    readBody ls = (beforeEnd ls).mapM readLine >>= fun is =>
      if ∃ l ∈ ls, l.text = endLine then .ok is else .error .missingEnd := by
  induction ls with
  | nil => rfl
  | cons l ls ih =>
    rw [readBody, beforeEnd]
    -- Nothing after the line that ends the script is read.
    by_cases hend : l.text = endLine
    · rw [if_pos (ScriptLine.isEnd_iff.mpr hend), List.takeWhile_cons_of_neg (by simpa using hend)]
      simp [hend, pure, Except.pure, bind, Except.bind]
    · rw [if_neg (mt ScriptLine.isEnd_iff.mp hend),
        List.takeWhile_cons_of_pos (by simpa using hend), List.mapM_cons, readLine]
      cases Instruction.read? l with
      | none => rfl
      -- A line that is read is followed by the rest, and then by the question whether an end was found.
      | some i =>
        rw [ih, beforeEnd]
        cases (ls.takeWhile (·.text ≠ endLine)).mapM readLine with
        | error e => rfl
        | ok is =>
          simp only [List.exists_mem_cons_iff, hend, false_or]
          show Except.map _ (if _ then _ else _) = if _ then _ else _
          split <;> rfl

/-- The body of a script reads in one way. -/
theorem readBody_eq_iff {ls : List ScriptLine} (h : ∀ l ∈ ls, Text.Trimmed l.text)
    {r : Except ScriptFault (List Instruction)} : readBody ls = r ↔ BodyReading ls r := by
  have hbefore : ∀ l ∈ beforeEnd ls, Text.Trimmed l.text := fun l hl =>
    -- The lines before the end are lines of the text, and so trimmed.
    h l (List.takeWhile_subset _ hl)
  rw [readBody_eq]
  constructor
  · rintro rfl
    cases hread : (beforeEnd ls).mapM readLine with
    | error e => exact .unreadable ((mapM_readLine_eq_error_iff hbefore).mp hread)
    | ok is =>
      show BodyReading ls (if _ then _ else _)
      split
      · rename_i hend
        exact .ended ((mapM_readLine_eq_ok_iff hbefore).mp hread) hend
      · rename_i hend
        exact .missingEnd ((mapM_readLine_eq_ok_iff hbefore).mp hread) hend
  · intro hreading
    cases hreading with
    | unreadable hfault =>
      rw [(mapM_readLine_eq_error_iff hbefore).mpr hfault]
      rfl
    | missingEnd hwritten hend =>
      rw [(mapM_readLine_eq_ok_iff hbefore).mpr hwritten]
      exact if_neg hend
    | ended hwritten hend =>
      rw [(mapM_readLine_eq_ok_iff hbefore).mpr hwritten]
      exact if_pos hend

/-! ## Whole texts -/

/-- What a text with these lines is read as. -/
inductive Reading : List ScriptLine → Except ScriptFault Script → Prop where
  | missingStart {ls : List ScriptLine} (h : ∀ l ∈ ls.head?, ¬ IsFirstLine l.text) :
      Reading ls (.error .missingStart)
  | refused {l : ScriptLine} {ls : List ScriptLine} {e : ScriptFault} (hfirst : IsFirstLine l.text)
      (hbody : BodyReading ls (.error e)) : Reading (l :: ls) (.error e)
  | read {l : ScriptLine} {ls : List ScriptLine} {is : List Instruction}
      (hfirst : IsFirstLine l.text) (hbody : BodyReading ls (.ok is)) : Reading (l :: ls) (.ok ⟨is⟩)

/-- So does a script, line by line. -/
theorem parse_eq_iff {text : String} (h : ∀ l ∈ ScriptLine.ofText text, Text.Trimmed l.text)
    {r : Except ScriptFault Script} : parse text = r ↔ Reading (ScriptLine.ofText text) r := by
  unfold parse
  cases hlines : ScriptLine.ofText text with
  | nil =>
    -- A text without lines has no first line either.
    constructor
    · rintro rfl
      exact .missingStart (by simp)
    · intro hreading
      cases hreading
      rfl
  | cons l ls =>
    rw [hlines] at h
    have hl := ScriptLine.isStart_iff (h l List.mem_cons_self)
    have hbody := fun {r} => readBody_eq_iff (fun m hm => h m (List.mem_cons_of_mem l hm)) (r := r)
    -- The first line decides: without it nothing else is looked at.
    by_cases hfirst : IsFirstLine l.text
    · simp only [if_pos (hl.mpr hfirst)]
      constructor
      · rintro rfl
        cases hread : readBody ls with
        | error e => exact .refused hfirst (hbody.mp hread)
        | ok is => exact .read hfirst (hbody.mp hread)
      · intro hreading
        cases hreading with
        | missingStart hnot => exact absurd hfirst (hnot l rfl)
        | refused _ he =>
          rw [hbody.mpr he]
          rfl
        | read _ his =>
          rw [hbody.mpr his]
          rfl
    · simp only [if_neg (mt hl.mp hfirst)]
      constructor
      · rintro rfl
        refine .missingStart fun m hm => ?_
        obtain rfl := Option.some.inj hm
        exact hfirst
      · intro hreading
        cases hreading with
        | missingStart => rfl
        | refused hl' => exact absurd hl' hfirst
        | read hl' => exact absurd hl' hfirst

/-- What a script has to be, by the texts of its lines. -/
theorem reading_ok_iff {ls : List ScriptLine} {s : Script} :
    Reading ls (.ok s)
      ↔ endLine ∈ ls.map (·.text)
          ∧ ∃ first body, (ls.map (·.text)).takeWhile (· ≠ endLine) = first :: body
            ∧ IsFirstLine first
            ∧ List.Forall₂ (fun cs i => i.WrittenAs cs) body s.instructions := by
  -- Cutting at the end before or after taking the lines' texts is the same.
  have hbefore : ∀ ls, (ls.map ScriptLine.text).takeWhile (· ≠ endLine)
      = (beforeEnd ls).map (·.text) := fun ls => List.takeWhile_map
  constructor
  · intro h
    cases h with
    | @read l ls is hfirst hbody =>
      cases hbody with
      | ended hwritten hend =>
      obtain ⟨last, hlast, htext⟩ := hend
      refine ⟨htext ▸ List.mem_map_of_mem (List.mem_cons_of_mem l hlast), l.text,
        (beforeEnd ls).map (·.text), ?_, hfirst, List.forall₂_map_left_iff.mpr hwritten⟩
      rw [List.map_cons, List.takeWhile_cons_of_pos (by simpa using hfirst.ne_endLine), hbefore]
  · rintro ⟨hend, first, body, htake, hfirst, hwritten⟩
    cases ls with
    | nil => cases hend
    | cons l ls =>
      rw [List.map_cons] at hend htake
      by_cases hl : l.text = endLine
      · rw [List.takeWhile_cons_of_neg (by simpa using hl)] at htake
        cases htake
      · rw [List.takeWhile_cons_of_pos (by simpa using hl), hbefore] at htake
        cases htake
        have hrest := (List.mem_cons.mp hend).resolve_left (Ne.symm hl)
        obtain ⟨last, hlast, htext⟩ := List.mem_map.mp hrest
        exact .read hfirst (.ended (List.forall₂_map_left_iff.mp hwritten) ⟨last, hlast, htext⟩)

/-- Up to the first line that ends a script, the same is on the lines that are not blank. -/
structure Alike (ls ls' : List Text.Line) : Prop where
  takeWhile_eq : (Text.contents ls).takeWhile (· ≠ endLine)
    = (Text.contents ls').takeWhile (· ≠ endLine)
  mem_iff : endLine ∈ Text.contents ls ↔ endLine ∈ Text.contents ls'

/-- However a text is laid out in lines, its visible lines are what is read. -/
theorem parse_eq_iff_of_laidOut {text : String} {ls : List Text.Line}
    (h : Text.LaidOut ls text.toList) {r : Except ScriptFault Script} :
    parse text = r ↔ Reading (ScriptLine.visible 1 (ls.map (·.content))) r := by
  have hlines := ScriptLine.ofText_of_laidOut h
  rw [parse_eq_iff (hlines ▸ fun _ => ScriptLine.trimmed_of_mem_visible), hlines]

/-- A text reads as a script exactly if its lines say so. -/
theorem parse_eq_ok_iff_of_laidOut {text : String} {ls : List Text.Line}
    (h : Text.LaidOut ls text.toList) {s : Script} :
    parse text = .ok s
      ↔ endLine ∈ Text.contents ls
          ∧ ∃ first body, (Text.contents ls).takeWhile (· ≠ endLine) = first :: body
            ∧ IsFirstLine first
            ∧ List.Forall₂ (fun cs i => i.WrittenAs cs) body s.instructions := by
  rw [parse_eq_iff_of_laidOut h, reading_ok_iff, ScriptLine.map_text_visible]
  rfl

/-- **The grammar of scripts.** Every text is laid out in lines, and whichever way it is, the lines
decide what it is read as: a script, or the first fault. A script does not change with the layout, nor
with anything after the first line that ends it. -/
theorem grammar_parse (text : String) :
    (∃ ls, Text.LaidOut ls text.toList)
      ∧ ∀ ls, Text.LaidOut ls text.toList →
          (∀ r, parse text = r ↔ Reading (ScriptLine.visible 1 (ls.map (·.content))) r)
            ∧ ∀ text' ls', Text.LaidOut ls' text'.toList → Alike ls ls' →
                ∀ s, parse text = .ok s ↔ parse text' = .ok s := by
  refine ⟨Text.exists_laidOut _, fun ls hls => ⟨fun r => parse_eq_iff_of_laidOut hls, ?_⟩⟩
  intro text' ls' hls' halike s
  rw [parse_eq_ok_iff_of_laidOut hls, parse_eq_ok_iff_of_laidOut hls', halike.takeWhile_eq,
    halike.mem_iff]

-- Blank lines are counted, and a name may stand after any blank.
example : parse "\n \r\nscript\u2003main\n\n\twait -3 \r\nend script"
    = .error (.unreadable 5 "wait -3") := by decide +kernel

end Script

end PulseTrain
