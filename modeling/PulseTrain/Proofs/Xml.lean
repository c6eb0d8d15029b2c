import PulseTrain.Artifact
import PulseTrain.Proofs.Arrival
import PulseTrain.Proofs.Legality
import PulseTrain.Proofs.LevelsText
import PulseTrain.Proofs.ScriptText

/-!
# What is sent to the card can be read back

The text of an artifact is its parts put one after the other, and nothing in it is escaped. It is still
read in one way only: no name has a character that ends what it stands in, every instruction and every
waveform begins unlike what comes after the last of them, and no waveform is empty.

* `Text.PrefixCode` says that a text tells, whatever follows, what was written first and where that ends.
  `Text.prefixCode_flatMap` makes one of a list; `Script.prefixCode_text` and `Waveform.prefixCode_xml`
  are the two that an artifact is made of.
* `Artifact.Plain` is what is asked of names and samples, and `Artifact.Plain.xml_inj` needs no more.
* `Artifact.plain_ofLedger` says that a compile gives it, and `Artifact.eq_of_xml` is the result.
-/

namespace PulseTrain

/-! ## Texts read from the front -/

namespace Text

/-- A mark that occurs in neither text cuts both at the same place. -/
theorem eq_of_append_cons {x : Char} {a b rest rest' : List Char} (ha : x ∉ a) (hb : x ∉ b)
    (h : a ++ x :: rest = b ++ x :: rest') : a = b ∧ rest = rest' := by
  -- Neither text can go on past the mark in the other.
  induction a generalizing b with
  | nil =>
    cases b with
    | nil => exact ⟨rfl, List.tail_eq_of_cons_eq h⟩
    | cons d b => exact absurd (List.head_eq_of_cons_eq h ▸ List.mem_cons_self) hb
  | cons c a ih =>
    cases b with
    | nil => exact absurd (List.head_eq_of_cons_eq h ▸ List.mem_cons_self) ha
    | cons d b =>
      rw [List.cons_append, List.cons_append, List.cons.injEq] at h
      obtain ⟨rfl, hrest⟩ := ih (fun hx => ha (List.mem_cons_of_mem c hx))
        (fun hx => hb (List.mem_cons_of_mem d hx)) h.2
      exact ⟨by rw [h.1], hrest⟩

variable {α : Type} {good : α → Prop} {write : α → List Char} {stop : List Char}

/-- A text that begins with a good value as `write` has it begins with no other, and goes on at one place
only. -/
def PrefixCode (good : α → Prop) (write : α → List Char) : Prop :=
  ∀ a b, good a → good b → ∀ rest rest', write a ++ rest = write b ++ rest' → a = b ∧ rest = rest'

/-- Values one after the other can be told apart if what follows the last of them begins unlike any of
them. -/
theorem prefixCode_flatMap (h : PrefixCode good write)
    (hstop : ∀ a, good a → ∀ rest rest', write a ++ rest ≠ stop ++ rest') :
    PrefixCode (fun as : List α => ∀ a ∈ as, good a) fun as => as.flatMap write ++ stop := by
  -- By induction on the first list: each item is cut off both texts, until the stop is reached in both.
  intro as
  induction as with
  | nil =>
    intro bs _ hbs rest rest' heq
    cases bs with
    | nil => exact ⟨rfl, List.append_cancel_left heq⟩
    | cons b bs =>
      simp only [List.flatMap_nil, List.nil_append, List.flatMap_cons, List.append_assoc] at heq
      exact absurd heq.symm (hstop b (hbs b List.mem_cons_self) _ _)
  | cons a as ih =>
    intro bs has hbs rest rest' heq
    cases bs with
    | nil =>
      simp only [List.flatMap_nil, List.nil_append, List.flatMap_cons, List.append_assoc] at heq
      exact absurd heq (hstop a (has a List.mem_cons_self) _ _)
    | cons b bs =>
      simp only [List.flatMap_cons, List.append_assoc] at heq
      obtain ⟨rfl, hrest⟩ := h a b (has a List.mem_cons_self) (hbs b List.mem_cons_self) _ _ heq
      rw [← List.append_assoc, ← List.append_assoc (bs.flatMap write)] at hrest
      obtain ⟨rfl, hend⟩ := ih bs (fun a' ha' => has a' (List.mem_cons_of_mem _ ha'))
        (fun b' hb' => hbs b' (List.mem_cons_of_mem _ hb')) rest rest' hrest
      exact ⟨rfl, hend⟩

theorem mem_intercalate {x c : Char} {ls : List (List Char)} (h : c ∈ [x].intercalate ls) :
    c = x ∨ ∃ l ∈ ls, c ∈ l := by
  induction ls with
  | nil => cases h
  | cons l ls ih =>
    cases ls with
    | nil => exact .inr ⟨l, List.mem_singleton_self l, by simpa using h⟩
    | cons l' ls =>
      rw [List.intercalate_cons_cons, List.mem_append, List.mem_append, List.mem_singleton] at h
      rcases h with (h | h) | h
      · exact .inr ⟨l, List.mem_cons_self, h⟩
      · exact .inl h
      · exact (ih h).imp_right fun ⟨m, hm, hc⟩ => ⟨m, List.mem_cons_of_mem l hm, hc⟩

end Text

/-! ## Scripts -/

namespace Instruction

/-- The text of a count determines it. -/
theorem text_injective : Function.Injective text := by
  intro i j h
  -- Keyword and argument stand on either side of the one blank.
  have hblank : ∀ k : Instruction, ' ' ∉ k.keyword.toList := fun k hk =>
    k.isWord_keyword.ne_of_mem (b := ' ') (by decide) hk rfl
  have htext := congrArg String.toList h
  rw [toList_text, toList_text] at htext
  obtain ⟨hkeyword, hargument⟩ := Text.eq_of_append_cons (hblank i) (hblank j) htext
  have hkeyword := String.toList_inj.mp hkeyword
  cases i with
  | generate name =>
    cases j with
    | generate name' => rw [String.toList_inj.mp hargument]
    | wait n => simp [keyword] at hkeyword
  | wait n =>
    cases j with
    | generate name => simp [keyword] at hkeyword
    | wait n' =>
      have hcount : Numeral.text n = Numeral.text n' := congrArg String.ofList hargument
      rw [Numeral.text_injective hcount]

/-- The line of an instruction can be cut off any text it begins. -/
theorem prefixCode_line :
    Text.PrefixCode (fun i : Instruction => Text.IsWord i.argument) fun i => i.line ++ ['\n'] := by
  intro i j hi hj rest rest' h
  have hfree : ∀ {k : Instruction}, Text.IsWord k.argument → '\n' ∉ k.line := fun hk hmem =>
    (isLine_line hk _ hmem).1 rfl
  rw [List.append_assoc, List.append_assoc, List.singleton_append, List.singleton_append] at h
  obtain ⟨hline, hrest⟩ := Text.eq_of_append_cons (hfree hi) (hfree hj) h
  exact ⟨text_injective (String.toList_inj.mp (by simpa [line] using hline)), hrest⟩

end Instruction

namespace Script

/-- The last line of a script begins unlike an instruction. -/
theorem prefixCode_body :
    Text.PrefixCode (fun is => ∀ i ∈ is, Text.IsWord i.argument) body := by
  -- The last line begins with a letter, and every other line with a blank.
  have hstop : ∀ i : Instruction, Text.IsWord i.argument → ∀ rest rest',
      (i.line ++ ['\n']) ++ rest ≠ (endLine ++ ['\n']) ++ rest' := by
    intro i _ rest rest' h
    have hend : endLine.head? = some 'e' := by decide
    have hhead : some ' ' = ((endLine ++ ['\n']) ++ rest').head? := congrArg List.head? h
    rw [List.append_assoc, List.head?_append, hend] at hhead
    cases hhead
  have hcode := Text.prefixCode_flatMap Instruction.prefixCode_line hstop
  intro is js his hjs rest rest' h
  refine hcode is js his hjs rest rest' ?_
  simpa only [body, List.append_assoc] using h

/-- The text of a script can be cut off any text it begins. -/
theorem prefixCode_text :
    Text.PrefixCode (fun s : Script => ∀ i ∈ s.instructions, Text.IsWord i.argument)
      fun s => s.text.toList := by
  intro s t hs ht rest rest' h
  simp only [toList_text, List.append_assoc, List.cons_append] at h
  have h := List.append_cancel_left h
  rw [List.cons.injEq] at h
  obtain ⟨his, hrest⟩ := prefixCode_body _ _ hs ht rest rest' h.2
  exact ⟨congrArg Script.mk his, hrest⟩

end Script

/-! ## Waveforms -/

namespace Waveform

/-- No character that ends a part of the element stands in the name, and there are samples. -/
structure IsPlain (w : Waveform) : Prop where
  name : '<' ∉ w.name.toList
  samples : w.samples ≠ []

def offsets (w : Waveform) : List Char :=
  [' '].intercalate ((List.range w.samples.length).map Numeral.decimal)

def states (w : Waveform) : List Char :=
  ['\n'].intercalate (w.samples.map Levels.chars)

theorem toList_xml (w : Waveform) :
    w.xml.toList = "<waveform><name>".toList ++ (w.name.toList
      ++ '<' :: ("/name><transitions>".toList ++ (w.offsets
      ++ '<' :: ("/transitions><states>".toList ++ (w.states
      ++ '<' :: "/states>\n</waveform>\n".toList))))) := by
  -- The parts are joined as lists of characters.
  have hoffsets : (" ".intercalate ((List.range w.samples.length).map Numeral.text)).toList
      = w.offsets := by
    rw [String.toList_intercalate, List.map_map, offsets]
    congr 1
    exact List.map_congr_left fun n _ => Numeral.toList_text n
  have hstates : ("\n".intercalate (w.samples.map Levels.text)).toList = w.states := by
    rw [String.toList_intercalate, List.map_map, states]
    congr 1
    exact List.map_congr_left fun s _ => String.toList_ofList
  unfold xml
  simp only [String.toList_append, hoffsets, hstates, List.append_assoc]
  rfl

/-- A waveform begins unlike what comes after the last of them. -/
theorem xml_ne_close (w : Waveform) (rest rest' : List Char) :
    w.xml.toList ++ rest ≠ "</waveforms>\n".toList ++ rest' := by
  have hopen : "<waveform><name>".toList = '<' :: 'w' :: "aveform><name>".toList := by decide
  have hclose : "</waveforms>\n".toList = '<' :: '/' :: "waveforms>\n".toList := by decide
  intro h
  simp only [toList_xml, hopen, hclose, List.cons_append, List.cons.injEq] at h
  exact absurd h.2.1 (by decide)

theorem not_mem_offsets (w : Waveform) : '<' ∉ w.offsets := by
  intro h
  rcases Text.mem_intercalate h with h | ⟨l, hl, h⟩
  · exact absurd h (by decide)
  · obtain ⟨n, -, rfl⟩ := List.mem_map.mp hl
    exact absurd (Numeral.isDigit_of_mem_decimal h) (by decide)

theorem not_mem_states (w : Waveform) : '<' ∉ w.states := by
  intro h
  rcases Text.mem_intercalate h with h | ⟨l, hl, h⟩
  · exact absurd h (by decide)
  · obtain ⟨s, -, rfl⟩ := List.mem_map.mp hl
    exact absurd (Levels.mem_chars h) (by decide)

/-- Samples are told apart by the lines of their states. There is at least one, since no line at all
would look like one without a channel. -/
theorem samples_eq_of_states {v w : Waveform} (hv : v.samples ≠ []) (hw : w.samples ≠ [])
    (h : v.states = w.states) : v.samples = w.samples := by
  -- No state has a line feed in it, so the lines give back the states.
  have hsplit : ∀ {u : Waveform}, u.samples ≠ [] →
      u.states.splitOn '\n' = u.samples.map Levels.chars := by
    intro u hu
    refine List.splitOn_intercalate '\n' (fun l hl hmem => ?_) (by simpa using hu)
    obtain ⟨s, -, rfl⟩ := List.mem_map.mp hl
    exact absurd (Levels.mem_chars hmem) (by decide)
  have hchars : v.samples.map Levels.chars = w.samples.map Levels.chars := by
    rw [← hsplit hv, ← hsplit hw, h]
  exact List.map_injective_iff.mpr Levels.chars_injective hchars

/-- The text of a waveform can be cut off any text it begins. -/
theorem prefixCode_xml : Text.PrefixCode IsPlain fun w => w.xml.toList := by
  intro v w hv hw rest rest' h
  simp only [toList_xml, List.append_assoc, List.cons_append] at h
  -- Name, offsets and states each end at the next tag.
  obtain ⟨hname, h⟩ := Text.eq_of_append_cons hv.name hw.name (List.append_cancel_left h)
  obtain ⟨-, h⟩ := Text.eq_of_append_cons v.not_mem_offsets w.not_mem_offsets
    (List.append_cancel_left h)
  obtain ⟨hstates, h⟩ := Text.eq_of_append_cons v.not_mem_states w.not_mem_states
    (List.append_cancel_left h)
  have hsamples := samples_eq_of_states hv.samples hw.samples hstates
  refine ⟨?_, List.append_cancel_left h⟩
  cases v
  cases w
  rw [Waveform.mk.injEq]
  exact ⟨String.toList_inj.mp hname, hsamples⟩

end Waveform

/-! ## Artifacts -/

theorem Waveforms.toList_injective : Function.Injective toList := by
  intro ws ws' h
  refine Directory.ext (List.map_injective_iff.mpr ?_ h)
  rintro ⟨name, samples⟩ ⟨name', samples'⟩ hw
  rwa [Waveform.mk.injEq, ← Prod.mk.injEq] at hw

namespace Artifact

/-- Nothing in the text of the artifact can be taken for the end of what it stands in. -/
structure Plain (a : Artifact) : Prop where
  names : ∀ name, .generate name ∈ a.script.instructions → Text.IsWord name.toList
  waveforms : ∀ w ∈ a.waveforms.toList, w.IsPlain

theorem Plain.isWord_argument {a : Artifact} (h : a.Plain) :
    ∀ i ∈ a.script.instructions, Text.IsWord i.argument := by
  intro i hi
  cases i with
  | generate name => exact h.names name hi
  | wait cycles => exact Numeral.isWord_decimal cycles

theorem toList_xml (a : Artifact) :
    a.xml.toList = "<script>".toList ++ (a.script.text.toList ++ ("</script>\n<waveforms>".toList
      ++ (a.waveforms.toList.flatMap (fun w => w.xml.toList) ++ "</waveforms>\n".toList))) := by
  unfold xml Waveforms.xml
  simp only [String.toList_append, String.toList_join, List.flatMap_map, List.append_assoc]

/-- The text of an artifact is read in one way only: first the script, then one waveform after the
other. -/
theorem Plain.xml_inj {a b : Artifact} (ha : a.Plain) (hb : b.Plain) (h : a.xml = b.xml) : a = b := by
  have hlist : a.xml.toList = b.xml.toList := congrArg String.toList h
  rw [toList_xml, toList_xml] at hlist
  obtain ⟨hscript, hrest⟩ := Script.prefixCode_text _ _ ha.isWord_argument hb.isWord_argument _ _
    (List.append_cancel_left hlist)
  -- The waveforms are read off one by one, up to the closing tag.
  have hwaveforms : a.waveforms.toList = b.waveforms.toList := by
    refine (Text.prefixCode_flatMap Waveform.prefixCode_xml (fun w _ => w.xml_ne_close) _ _
      ha.waveforms hb.waveforms [] [] ?_).1
    simpa using List.append_cancel_left hrest
  cases a
  cases b
  rw [mk.injEq]
  exact ⟨hscript, Waveforms.toList_injective hwaveforms⟩

end Artifact

/-! ## What a compile writes -/

namespace Text

/-- A word in which no element begins. -/
structure IsName (cs : List Char) : Prop where
  isWord : IsWord cs
  plain : '<' ∉ cs

/-- A letter and digits make a name. -/
theorem isName_cons {letter : Char} (hletter : isBlank letter = false ∧ letter ≠ '<')
    {ds : List Char} (hds : ∀ c ∈ ds, ∃ d < 16, c = Nat.digitChar d) : IsName (letter :: ds) := by
  -- All that follows the letter are digits, and no digit is a blank or opens a tag.
  have hdigit : ∀ d < 16, isBlank (Nat.digitChar d) = false ∧ Nat.digitChar d ≠ '<' := by decide
  have hall : ∀ c ∈ letter :: ds, isBlank c = false ∧ c ≠ '<' := by
    intro c hc
    rcases List.mem_cons.mp hc with rfl | hc
    · exact hletter
    · obtain ⟨d, hd, rfl⟩ := hds c hc
      exact hdigit d hd
  exact ⟨⟨List.cons_ne_nil letter ds, fun c hc => (hall c hc).1⟩, fun h => (hall _ h).2 rfl⟩

end Text

theorem Levels.isName_waveformName (s : Levels) : Text.IsName s.waveformName.toList := by
  have hletter : "w".toList = ['w'] := by decide
  rw [waveformName, String.toList_append, hletter, List.singleton_append]
  exact Text.isName_cons (by decide) fun c hc => exists_of_mem_hex hc

theorem Catalog.isName_fusedName (n : Nat) : Text.IsName (fusedName n).toList := by
  have hletter : "c".toList = ['c'] := by decide
  rw [fusedName, String.toList_append, hletter, List.singleton_append, Numeral.toList_text]
  refine Text.isName_cons (by decide) fun c hc => ?_
  obtain ⟨d, hd, rfl⟩ := Numeral.exists_of_mem_decimal hc
  exact ⟨d, by omega, rfl⟩

theorem Passage.isName_of_mem_ofFrames {card : Card} {fs : List Frame} {width : Nat}
    (hwidth : ∀ f ∈ fs, f.state.width = width) {p : Passage} (hp : p ∈ ofFrames card fs) :
    Text.IsName p.waveform.toList := by
  rcases (numbered_ofFrames hwidth).cases_of_mem hp with ⟨f, -, hname⟩ | ⟨-, n, -, hname⟩
  · exact hname ▸ f.state.isName_waveformName
  · exact hname ▸ Catalog.isName_fusedName n

namespace Artifact

/-- Whatever compiles is plain: its instructions name waveforms by words and its waveforms have plain names.
-/
theorem plain_ofLedger {card : Card} {l : Ledger} {a : Artifact} (h : ofLedger card l = .ok a) :
    a.Plain := by
  obtain ⟨-, fs, hfs, -, rfl⟩ := ofLedger_eq_ok_iff.mp h
  have hwidth : ∀ f ∈ fs, f.state.width = card.channels := fun _ hf =>
    Frame.width_of_mem_ofTransitions hfs hf
  constructor
  · intro name hname
    rw [Passage.instructions_ofFrames] at hname
    obtain ⟨p, hp, hname⟩ := List.mem_flatMap.mp hname
    obtain rfl : name = p.waveform := by simpa [Passage.instructions] using hname
    exact (Passage.isName_of_mem_ofFrames hwidth hp).isWord
  · intro w hw
    obtain ⟨e, he, rfl⟩ := List.mem_map.mp hw
    obtain ⟨p, hp, hname, hsamples⟩ := Passage.exists_of_mem_waveforms hwidth he
    obtain ⟨last, hlast, -⟩ := Passage.waits_of_mem_ofFrames hp
    -- Every passage plays some frame, so its waveform is not empty.
    have hne : p.group.map (Frame.hold card.quantum) ≠ [] := by
      simpa using List.ne_nil_of_mem (List.mem_of_getLast? hlast)
    refine ⟨?_, ?_⟩
    · show '<' ∉ e.1.toList
      exact hname ▸ (Passage.isName_of_mem_ofFrames hwidth hp).plain
    · show e.2 ≠ []
      exact hsamples ▸ List.ne_nil_of_length_pos (Hold.length_unroll_pos card.quantum_pos hne)

/-- **The text for the card loses nothing.** Of what compiles, on any two cards, equal texts are the
text of one artifact: its instructions, and its waveforms in order, down to every bit of a sample. -/
theorem eq_of_xml {card card' : Card} {l l' : Ledger} {a a' : Artifact}
    (h : ofLedger card l = .ok a) (h' : ofLedger card' l' = .ok a') (hxml : a.xml = a'.xml) :
    a = a' :=
  (plain_ofLedger h).xml_inj (plain_ofLedger h') hxml

theorem eq_of_xml_corrected :
    ∃ a a', ofLedger Card.paired Ledger.unordered = .ok a
      ∧ ofLedger Card.paired Ledger.corrected = .ok a' ∧ a.xml = a'.xml ∧ a = a' :=
  ⟨unordered, unordered, ofLedger_unordered, ofLedger_corrected, rfl,
    eq_of_xml ofLedger_unordered ofLedger_corrected rfl⟩

end Artifact

end PulseTrain
