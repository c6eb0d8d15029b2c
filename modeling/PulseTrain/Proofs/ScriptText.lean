import PulseTrain.Proofs.Names
import PulseTrain.Proofs.Pieces
import PulseTrain.Script.Reader

/-!
# Scripts written and read

A script is written one instruction to a line and nothing in it is escaped, so the names of its
waveforms decide whether its text can be read: each of them has to be a word. Whatever the reader
accepts has such names.

* `Counter.read?_eq_some_iff` says which texts are read as a count, and `Counter.read?_decimal` reads
  one back.
* `Instruction.IsReadable` is the condition on one instruction, and `Instruction.isReadable_of_read?`
  says that nothing else is ever read.
* `ScriptLine.numbered` are the lines of a text from some number on; `Script.readBody_numbered` is the
  induction along the instructions.
* `Script.parse_text` is the result.
-/

namespace PulseTrain

/-! ## Counts -/

namespace Numeral

theorem foldlM_readDigit_eq_some_iff {cs : List Char} {m n : Nat} :
    cs.foldlM readDigit m = some n
      ↔ (∀ c ∈ cs, c.isDigit) ∧ n = (cs.map digitValue).foldl (fun n d => 10 * n + d) m := by
  induction cs generalizing m with
  | nil => simpa using eq_comm
  | cons c cs ih =>
    rw [List.foldlM_cons, readDigit, List.map_cons, List.foldl_cons, digitValue]
    -- A character that is no digit ends the reading.
    by_cases hc : c.isDigit
    · rw [if_pos hc, if_pos hc, List.forall_mem_cons]
      simp only [hc, true_and]
      exact ih
    · simp [hc]

/-- A decimal numeral is read off a non-empty run of digits, and its value is theirs in base ten. -/
theorem readDecimal_eq_some_iff {cs : List Char} {n : Nat} :
    readDecimal cs = some n
      ↔ cs ≠ [] ∧ (∀ c ∈ cs, c.isDigit) ∧ n = value 10 (cs.map digitValue) := by
  cases cs with
  | nil => simp [readDecimal]
  | cons c cs =>
    rw [readDecimal, foldlM_readDigit_eq_some_iff]
    simp [value]

theorem digits_ne_nil (base n : Nat) : digits base n ≠ [] := by
  unfold digits
  split <;> simp

theorem toList_text (n : Nat) : (text n).toList = decimal n :=
  String.toList_ofList

theorem exists_of_mem_decimal {n : Nat} {c : Char} (h : c ∈ decimal n) :
    ∃ d < 10, c = Nat.digitChar d := by
  obtain ⟨d, hd, rfl⟩ := List.mem_map.mp h
  exact ⟨d, lt_of_mem_digits (by omega) hd, rfl⟩

theorem isDigit_of_mem_decimal {n : Nat} {c : Char} (h : c ∈ decimal n) : c.isDigit := by
  have hdigit : ∀ d < 10, (Nat.digitChar d).isDigit := by decide
  obtain ⟨d, hd, rfl⟩ := exists_of_mem_decimal h
  exact hdigit d hd

theorem isWord_decimal (n : Nat) : Text.IsWord (decimal n) := by
  have hdigit : ∀ d < 10, Text.isBlank (Nat.digitChar d) = false := by decide
  refine ⟨by simpa [decimal] using digits_ne_nil 10 n, fun c hc => ?_⟩
  obtain ⟨d, hd, rfl⟩ := exists_of_mem_decimal hc
  exact hdigit d hd

end Numeral

namespace Counter

theorem read?_of_isDigit {cs : List Char} (h : ∀ c ∈ cs, c.isDigit) :
    read? cs = (Numeral.readDecimal cs).bind fit? := by
  unfold read?
  split
  · have hplus := h '+' List.mem_cons_self
    cases hplus
  · rfl

/-- A count that fits, in decimal digits, perhaps after a plus sign. -/
def WrittenAs (n : Nat) (cs : List Char) : Prop :=
  ∃ sign digits, (sign = [] ∨ sign = ['+']) ∧ cs = sign ++ digits
    ∧ digits ≠ [] ∧ (∀ c ∈ digits, c.isDigit)
    ∧ n = Numeral.value 10 (digits.map Numeral.digitValue) ∧ n < bound

/-- A numeral is accepted when its value fits in 64 bits. -/
theorem bind_fit?_eq_some_iff {digits : List Char} {n : Nat} :
    (Numeral.readDecimal digits).bind fit? = some n
      ↔ digits ≠ [] ∧ (∀ c ∈ digits, c.isDigit)
          ∧ n = Numeral.value 10 (digits.map Numeral.digitValue) ∧ n < bound := by
  have hfit : ∀ m, fit? m = some n ↔ m = n ∧ n < bound := by
    intro m
    unfold fit?
    split <;> grind
  simp only [Option.bind_eq_some_iff, hfit]
  constructor
  · rintro ⟨m, hm, rfl, hlt⟩
    obtain ⟨hne, hdigits, hvalue⟩ := Numeral.readDecimal_eq_some_iff.mp hm
    exact ⟨hne, hdigits, hvalue, hlt⟩
  · rintro ⟨hne, hdigits, hvalue, hlt⟩
    exact ⟨n, Numeral.readDecimal_eq_some_iff.mpr ⟨hne, hdigits, hvalue⟩, rfl, hlt⟩

/-- The counts that are read are those written as decimal numerals of 64 bits, with or without a plus sign.
-/
theorem read?_eq_some_iff {cs : List Char} {n : Nat} : read? cs = some n ↔ WrittenAs n cs := by
  constructor
  · intro h
    unfold read? at h
    -- A plus sign is skipped, and nothing else may come before the digits.
    split at h
    · exact ⟨['+'], _, .inr rfl, rfl, bind_fit?_eq_some_iff.mp h⟩
    · exact ⟨[], cs, .inl rfl, rfl, bind_fit?_eq_some_iff.mp h⟩
  · rintro ⟨sign, digits, rfl | rfl, rfl, h⟩
    · rw [read?_of_isDigit h.2.1]
      exact bind_fit?_eq_some_iff.mpr h
    · exact bind_fit?_eq_some_iff.mpr h

/-- A count that fits is read back. -/
theorem read?_decimal {n : Nat} (h : n < bound) : read? (Numeral.decimal n) = some n := by
  have hvalue := Numeral.readText_text n
  rw [Numeral.readText, Numeral.toList_text] at hvalue
  exact read?_eq_some_iff.mpr ⟨[], Numeral.decimal n, .inl rfl, rfl, (Numeral.isWord_decimal n).1,
    fun _ => Numeral.isDigit_of_mem_decimal, hvalue.symm, h⟩

theorem lt_of_read? {cs : List Char} {n : Nat} (h : read? cs = some n) : n < bound := by
  obtain ⟨sign, digits, -, -, -, -, -, hlt⟩ := read?_eq_some_iff.mp h
  exact hlt

end Counter

/-! ## Instructions -/

namespace Instruction

/-- The word that names an instruction. -/
def keyword : Instruction → String
  | generate _ => "generate"
  | wait _ => "wait"

/-- What an instruction is about. -/
def argument : Instruction → List Char
  | generate waveform => waveform.toList
  | wait cycles => Numeral.decimal cycles

/-- The line of an instruction in a script. -/
def line (i : Instruction) : List Char :=
  ' ' :: ' ' :: i.text.toList

/-- The text of an instruction can be read: its waveform is a word, or its count fits. -/
def IsReadable : Instruction → Prop
  | generate waveform => Text.IsWord waveform.toList
  | wait cycles => cycles < Counter.bound

theorem toList_text (i : Instruction) : i.text.toList = i.keyword.toList ++ ' ' :: i.argument := by
  cases i with
  | generate waveform =>
    have hname : "generate ".toList = "generate".toList ++ [' '] := by decide
    rw [text, String.toList_append, hname, List.append_assoc, keyword, argument,
      List.singleton_append]
  | wait cycles =>
    have hname : "wait ".toList = "wait".toList ++ [' '] := by decide
    rw [text, String.toList_append, hname, List.append_assoc, keyword, argument,
      List.singleton_append, Numeral.toList_text]

theorem isWord_keyword (i : Instruction) : Text.IsWord i.keyword.toList := by
  cases i with
  | generate waveform =>
    show Text.IsWord "generate".toList
    decide
  | wait cycles =>
    show Text.IsWord "wait".toList
    decide

theorem IsReadable.isWord_argument {i : Instruction} (h : i.IsReadable) :
    Text.IsWord i.argument := by
  cases i with
  | generate waveform => exact h
  | wait cycles => exact Numeral.isWord_decimal cycles

theorem pieces_text {i : Instruction} (h : Text.IsWord i.argument) :
    Text.pieces i.text.toList = [i.keyword.toList, i.argument] := by
  rw [toList_text, Text.pieces_append_blank i.isWord_keyword (by decide), Text.pieces_of_isWord h]

/-- The blanks around a line are those its layout puts there. -/
theorem trim_line {i : Instruction} (h : Text.IsWord i.argument) :
    Text.trim i.line = i.text.toList := by
  -- The keyword comes first and the argument last, and both are words.
  have hne : i.text.toList ≠ [] := by simp [toList_text]
  have hblank : ∀ c ∈ [' ', ' '], Text.isBlank c := by
    intro c hc
    obtain rfl : c = ' ' := by simpa using hc
    decide
  show Text.trim ([' ', ' '] ++ i.text.toList) = i.text.toList
  rw [← List.append_nil ([' ', ' '] ++ i.text.toList)]
  refine Text.trim_append hblank (by simp) hne (fun c hc => ?_) fun c hc => ?_
  · rw [toList_text, List.head?_append, Option.mem_def, Option.or_eq_some_iff] at hc
    rcases hc with hc | ⟨hnone, -⟩
    · exact i.isWord_keyword.2 c (List.mem_of_mem_head? hc)
    · exact absurd (List.head?_eq_none_iff.mp hnone) i.isWord_keyword.1
  · rw [toList_text, List.getLast?_append, List.getLast?_cons, Option.some_or,
      Option.mem_def, Option.some.injEq] at hc
    cases hlast : i.argument.getLast? with
    | none => exact absurd (List.getLast?_eq_none_iff.mp hlast) h.1
    | some d =>
      rw [hlast] at hc
      exact h.2 c (hc ▸ List.mem_of_getLast? hlast)

theorem isLine_line {i : Instruction} (h : Text.IsWord i.argument) : Text.IsLine i.line := by
  intro c hc
  rw [line, toList_text, List.mem_cons, List.mem_cons, List.mem_append, List.mem_cons] at hc
  -- Blanks, the keyword, a blank and the argument: a line feed is none of them.
  rcases hc with rfl | rfl | hc | rfl | hc
  · decide
  · decide
  · exact ⟨i.isWord_keyword.ne_of_mem (by decide) hc, i.isWord_keyword.ne_of_mem (by decide) hc⟩
  · decide
  · exact ⟨h.ne_of_mem (by decide) hc, h.ne_of_mem (by decide) hc⟩

/-- Reading a line that was written gives back the instruction. -/
theorem read?_text {i : Instruction} (h : i.IsReadable) (number : Nat) :
    read? ⟨number, i.text.toList⟩ = some i := by
  unfold read?
  simp only [pieces_text h.isWord_argument]
  cases i with
  | generate waveform => rw [keyword, if_pos rfl, argument, String.ofList_toList]
  | wait cycles =>
    have hne : "wait".toList ≠ "generate".toList := by decide
    rw [keyword, if_neg hne, if_pos rfl, argument, Counter.read?_decimal h, Option.map_some]

/-- Nothing but what can be written is read. -/
theorem isReadable_of_read? {l : ScriptLine} {i : Instruction} (h : read? l = some i) :
    i.IsReadable := by
  unfold read? at h
  split at h
  · rename_i keyword argument hpieces
    have hword : Text.IsWord argument := Text.isWord_of_mem_pieces (by
      rw [hpieces]
      simp)
    split at h
    · cases h
      simpa [IsReadable] using hword
    · split at h
      · obtain ⟨n, hn, rfl⟩ := Option.map_eq_some_iff.mp h
        exact Counter.lt_of_read? hn
      · cases h
  · cases h

theorem not_isEnd (i : Instruction) (number : Nat) :
    ¬ (ScriptLine.mk number i.text.toList).isEnd := by
  unfold ScriptLine.isEnd
  rw [decide_eq_true_iff]
  intro h
  have hhead := congrArg List.head? h
  cases i <;> simp [toList_text, keyword] at hhead

end Instruction

/-! ## Lines -/

namespace ScriptLine

/-- The lines that are not blank, when the first of them all has this number. -/
def numbered (first : Nat) (ls : List (List Char)) : List ScriptLine :=
  ((ls.zipIdx first).map fun (line, number) => ⟨number, Text.trim line⟩).filter (!·.text.isEmpty)

theorem ofText_eq (text : String) : ofText text = numbered 1 (Text.lines text.toList) := rfl

theorem numbered_cons {first : Nat} {line : List Char} (h : Text.trim line ≠ [])
    (ls : List (List Char)) :
    numbered first (line :: ls) = ⟨first, Text.trim line⟩ :: numbered (first + 1) ls := by
  unfold numbered
  rw [List.zipIdx_cons, List.map_cons, List.filter_cons_of_pos (by simpa using h)]

end ScriptLine

namespace Script

/-- The line that ends a script. -/
def endLine : List Char := "end script".toList

/-- What follows the first line of a script. -/
def body (is : List Instruction) : List Char :=
  is.flatMap (fun i => i.line ++ ['\n']) ++ endLine ++ ['\n']

theorem toList_text (s : Script) :
    s.text.toList = "script main".toList ++ '\n' :: body s.instructions := by
  have hflat : (s.instructions.map fun i => "  " ++ i.text ++ "\n").flatMap String.toList
      = s.instructions.flatMap fun i => i.line ++ ['\n'] := by
    rw [List.flatMap_map]
    simp [Instruction.line]
  have hfirst : "script main\n".toList = "script main".toList ++ ['\n'] := by decide
  have hlast : "end script\n".toList = endLine ++ ['\n'] := by decide
  unfold text body
  rw [String.toList_append, String.toList_append, String.toList_join, hflat, hfirst, hlast]
  simp only [List.append_assoc, List.cons_append, List.nil_append]

/-- The body of a script is one line for each instruction and the line that ends it. -/
theorem lines_body {is : List Instruction} (h : ∀ i ∈ is, Text.IsWord i.argument) :
    Text.lines (body is) = is.map Instruction.line ++ [endLine] := by
  induction is with
  | nil =>
    have hend : Text.IsLine endLine := by decide
    exact Text.lines_append_lineFeed hend []
  | cons i is ih =>
    have hi := Instruction.isLine_line (h i List.mem_cons_self)
    have hline := Text.lines_append_lineFeed hi (body is)
    rw [ih fun j hj => h j (List.mem_cons_of_mem i hj)] at hline
    rw [List.map_cons, List.cons_append, ← hline]
    simp [body]

/-- Written lines are read back, whatever their numbers are. -/
theorem readBody_numbered {is : List Instruction} (h : ∀ i ∈ is, i.IsReadable) (first : Nat) :
    readBody (ScriptLine.numbered first (is.map Instruction.line ++ [endLine])) = .ok is := by
  induction is generalizing first with
  | nil =>
    have htrim : Text.trim endLine = endLine := by decide
    have hne : endLine ≠ [] := by decide
    rw [List.map_nil, List.nil_append, ScriptLine.numbered_cons (htrim ▸ hne), htrim, readBody]
    exact if_pos (decide_eq_true rfl)
  -- The lines are read one by one, and none of them is the line that ends the script.
  | cons i is ih =>
    have hi := h i List.mem_cons_self
    have htrim := Instruction.trim_line hi.isWord_argument
    have hne : i.text.toList ≠ [] := by simp [Instruction.toList_text]
    rw [List.map_cons, List.cons_append, ScriptLine.numbered_cons (htrim ▸ hne), htrim, readBody,
      if_neg (i.not_isEnd _), Instruction.read?_text hi,
      ih fun j hj => h j (List.mem_cons_of_mem i hj)]
    rfl

/-- A readable script is read back from its text. -/
theorem parse_text_of_isReadable {s : Script} (h : ∀ i ∈ s.instructions, i.IsReadable) :
    parse s.text = .ok s := by
  have hfirst : Text.IsLine "script main".toList := by decide
  have htrim : Text.trim "script main".toList = "script main".toList := by decide
  have hne : "script main".toList ≠ [] := by decide
  have hstart : (ScriptLine.mk 1 "script main".toList).isStart := by decide +kernel
  -- The first line is the start of the script, and the body is numbered from the second line on.
  have hlines : ScriptLine.ofText s.text
      = ⟨1, "script main".toList⟩
        :: ScriptLine.numbered 2 (s.instructions.map Instruction.line ++ [endLine]) := by
    rw [ScriptLine.ofText_eq, toList_text, Text.lines_append_lineFeed hfirst,
      lines_body fun i hi => (h i hi).isWord_argument, ScriptLine.numbered_cons (htrim ▸ hne), htrim]
  unfold parse
  simp only [hlines, if_pos hstart, readBody_numbered h 2]
  rfl

/-- Nothing but what can be written is read. -/
theorem isReadable_of_readBody {ls : List ScriptLine} {is : List Instruction}
    (h : readBody ls = .ok is) : ∀ i ∈ is, i.IsReadable := by
  induction ls generalizing is with
  | nil => cases h
  | cons l ls ih =>
    rw [readBody] at h
    split at h
    · cases h
      simp
    -- Every line up to the end was read, so each instruction came from a line.
    · cases hread : Instruction.read? l with
      | none =>
        rw [hread] at h
        cases h
      | some i =>
        rw [hread] at h
        cases hrest : readBody ls with
        | error e =>
          rw [hrest] at h
          cases h
        | ok is' =>
          rw [hrest] at h
          cases h
          intro j hj
          rcases List.mem_cons.mp hj with rfl | hj
          · exact Instruction.isReadable_of_read? hread
          · exact ih hrest j hj

/-- Whatever is read is readable: its names are words and its counts fit in 64 bits. -/
theorem isReadable_of_parse {text : String} {s : Script} (h : parse text = .ok s) :
    ∀ i ∈ s.instructions, i.IsReadable := by
  unfold parse at h
  split at h
  · cases h
  · split at h
    · rename_i ls _ _
      cases hbody : readBody ls with
      | error e =>
        rw [hbody] at h
        cases h
      | ok is =>
        rw [hbody] at h
        cases h
        exact isReadable_of_readBody hbody
    · cases h

/-- **The round trip of script text.** The text of a script reads back as the script exactly if every
waveform is named by a word and every count fits a counter; and whatever is read, from any text, is
written as a text that reads back. -/
theorem parse_text (s : Script) :
    (parse s.text = .ok s
      ↔ (∀ name, .generate name ∈ s.instructions →
            name ≠ "" ∧ ∀ c ∈ name.toList, Text.isBlank c = false)
          ∧ ∀ cycles, .wait cycles ∈ s.instructions → cycles < Counter.bound)
      ∧ ∀ text, parse text = .ok s → parse s.text = .ok s := by
  -- Readability, instruction by instruction, is a condition on names and another one on counts.
  have hreadable : (∀ i ∈ s.instructions, i.IsReadable)
      ↔ (∀ name, .generate name ∈ s.instructions →
            name ≠ "" ∧ ∀ c ∈ name.toList, Text.isBlank c = false)
          ∧ ∀ cycles, .wait cycles ∈ s.instructions → cycles < Counter.bound := by
    constructor
    · refine fun h => ⟨fun name hname => ?_, fun cycles hcycles => h _ hcycles⟩
      obtain ⟨hne, hword⟩ := h _ hname
      exact ⟨fun hnone => hne (String.toList_eq_nil_iff.mpr hnone), hword⟩
    · rintro ⟨hnames, hcounts⟩ i hi
      cases i with
      | generate name =>
        obtain ⟨hne, hword⟩ := hnames name hi
        exact ⟨fun hnone => hne (String.toList_eq_nil_iff.mp hnone), hword⟩
      | wait cycles => exact hcounts cycles hi
  rw [← hreadable]
  exact ⟨⟨isReadable_of_parse, parse_text_of_isReadable⟩,
    fun text htext => parse_text_of_isReadable (isReadable_of_parse htext)⟩

-- A name can bring its own last line, and then the rest of the script is never looked at.
example : (parse (Script.text ⟨[.generate "w0\nend script", .wait 4]⟩)).toOption
    = some ⟨[.generate "w0"]⟩ := by decide +kernel

end Script

end PulseTrain
