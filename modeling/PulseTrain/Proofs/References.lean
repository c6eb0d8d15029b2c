import PulseTrain.Proofs.Passages
import PulseTrain.Proofs.RoundTrip

/-!
# Which waveforms are shared

In a compiled script the passages that play one frame are named by its state, and all others are
numbered. So a waveform is shared exactly by passages that play one frame each, of equal states; and
what is defined is what is played, in the order in which it is played first.

* `Passage.Numbered` is that way of naming, and `Passage.numbered_run` says that a compile follows it.
* `Passage.Numbered.pairwise_shared` and `Passage.Numbered.fused_names` are what follows from it.
* `Catalog.Sound.keys_addAll` says in which order waveforms are defined.
* `Artifact.references_ofLedger` is the result.
-/

namespace PulseTrain

/-! ## What is defined, and in which order -/

namespace Catalog

variable {quantum width : Nat} {c : Catalog}

/-- A hold by itself is named by its state, and takes no number. -/
theorem Sound.add_of_lead_eq_nil (hc : Sound quantum width c) {b : Burst} (hb : b.lead = []) :
    (c.add quantum b).1 = b.final.state.waveformName ∧ (c.add quantum b).2.fused = c.fused := by
  rw [Catalog.add, if_pos hb]
  exact hc.addPlain_eq b.final.state

/-- Fused holds take the next number. -/
theorem add_of_lead_ne_nil (quantum : Nat) (c : Catalog) {b : Burst} (hb : b.lead ≠ []) :
    (c.add quantum b).1 = fusedName c.fused ∧ (c.add quantum b).2.fused = c.fused + 1 := by
  rw [Catalog.add, if_neg hb]
  exact ⟨rfl, rfl⟩

/-- Waveforms are defined in the order in which their names are handed out first. -/
theorem Sound.keys_addAll {bs : List Burst} (hc : Sound quantum width c)
    (hbs : ∀ b ∈ bs, b.final.state.width = width) :
    (c.addAll quantum bs).2.waveforms.keys
      = c.waveforms.keys ++ ((c.addAll quantum bs).1.removeAll c.waveforms.keys).eraseDups := by
  obtain ⟨-, hgrows⟩ := hc.answers (width_of_mem_namings hbs)
  rw [addAll_eq, hgrows.keys, Directory.foldl_enter]

end Catalog

namespace Passage

/-! ## Passages named and numbered -/

/-- Passages for one frame are named by its state, and the others are numbered from `n` on. -/
inductive Numbered : Nat → List Passage → Prop where
  | nil (n : Nat) : Numbered n []
  | plain {n : Nat} {p : Passage} {ps : List Passage} {f : Frame} (hgroup : p.group = [f])
      (hname : p.waveform = f.state.waveformName) (hrest : Numbered n ps) : Numbered n (p :: ps)
  | fused {n : Nat} {p : Passage} {ps : List Passage} (hgroup : 1 < p.group.length)
      (hname : p.waveform = Catalog.fusedName n) (hrest : Numbered (n + 1) ps) :
      Numbered n (p :: ps)

/-- Passages are numbered from where the catalog has got to. Induction along the bursts, with the catalog
that each leaves to the next. -/
theorem numbered_run {card : Card} {c : Catalog} {width : Nat} {bs : List Burst}
    {groups : List (List Frame)} (h : List.Forall₂ (Burst.Plays card) bs groups)
    (hc : c.Sound card.quantum width) (hwidth : ∀ b ∈ bs, b.final.state.width = width) :
    Numbered c.fused (run card c bs groups) := by
  -- By induction on the bursts, numbering on from the fused waveforms that the catalog has.
  induction h generalizing c with
  | nil => exact .nil _
  | @cons b group bs groups hplays _ ih =>
    obtain ⟨hnamed, -⟩ := hc.add (hwidth _ List.mem_cons_self)
    have hrest := ih hnamed fun b hb => hwidth b (List.mem_cons_of_mem _ hb)
    have hlead := hplays.lead_eq_nil_iff
    obtain ⟨last, hlast, hfinal⟩ := hplays.final
    rw [run]
    -- A burst has no lead exactly if its group is one frame, and that decides how it is named.
    by_cases hplain : b.lead = []
    · obtain ⟨f, rfl⟩ := List.length_eq_one_iff.mp (hlead.mp hplain)
      obtain ⟨hname, hfused⟩ := hc.add_of_lead_eq_nil hplain
      obtain rfl : f = last := by simpa using hlast
      have hstate : (c.add card.quantum b).1 = f.state.waveformName := by
        rw [hname, hfinal]
        rfl
      rw [hfused] at hrest
      exact .plain rfl hstate hrest
    · obtain ⟨hname, hfused⟩ := Catalog.add_of_lead_ne_nil card.quantum c hplain
      have hpos : 0 < group.length := List.length_pos_of_mem (List.mem_of_getLast? hlast)
      have hne : group.length ≠ 1 := mt hlead.mpr hplain
      rw [hfused] at hrest
      exact .fused (show 1 < group.length by omega) hname hrest

namespace Numbered

variable {n : Nat} {ps : List Passage}

/-- The name of a passage that plays one frame can be read off the frame. -/
theorem name_of_group_eq (h : Numbered n ps) {p : Passage} (hp : p ∈ ps) {f : Frame}
    (hgroup : p.group = [f]) : p.waveform = f.state.waveformName := by
  induction h with
  | nil => cases hp
  | @plain n p' ps f' hgroup' hname hrest ih =>
    rcases List.mem_cons.mp hp with rfl | hp
    · rw [hgroup, List.cons.injEq] at hgroup'
      rw [hname, hgroup'.1]
    · exact ih hp
  | @fused n p' ps hgroup' hname hrest ih =>
    rcases List.mem_cons.mp hp with rfl | hp
    · rw [hgroup] at hgroup'
      simp at hgroup'
    · exact ih hp

/-- Every passage is for one frame, or it has a number of its own. -/
theorem cases_of_mem (h : Numbered n ps) {p : Passage} (hp : p ∈ ps) :
    (∃ f, p.group = [f] ∧ p.waveform = f.state.waveformName)
      ∨ 1 < p.group.length ∧ ∃ m, n ≤ m ∧ p.waveform = Catalog.fusedName m := by
  induction h with
  | nil => cases hp
  | @plain n p' ps f hgroup hname hrest ih =>
    -- The passage is the first one, or one of those numbered from `n` or from `n + 1` on.
    rcases List.mem_cons.mp hp with rfl | hp
    · exact .inl ⟨f, hgroup, hname⟩
    · exact ih hp
  | @fused n p' ps hgroup hname hrest ih =>
    rcases List.mem_cons.mp hp with rfl | hp
    · exact .inr ⟨hgroup, n, Nat.le_refl n, hname⟩
    · rcases ih hp with hplain | ⟨hlong, m, hle, hm⟩
      · exact .inl hplain
      · exact .inr ⟨hlong, m, Nat.le_of_succ_le hle, hm⟩

variable {width : Nat}

/-- Two passages have the same waveform exactly if they are for one frame each, of equal states. -/
theorem pairwise_shared (h : Numbered n ps)
    (hwidth : ∀ p ∈ ps, ∀ f ∈ p.group, f.state.width = width) :
    ps.Pairwise fun p p' => p.waveform = p'.waveform
      ↔ ∃ f f', p.group = [f] ∧ p'.group = [f'] ∧ f.state = f'.state := by
  induction h with
  | nil => exact .nil
  | @plain n p ps f hgroup hname hrest ih =>
    refine List.pairwise_cons.mpr
      ⟨fun p' hp' => ?_, ih fun q hq => hwidth q (List.mem_cons_of_mem p hq)⟩
    -- Two plain names agree exactly when the states do, and no plain name is a fused one.
    rcases hrest.cases_of_mem hp' with ⟨f', hgroup', hname'⟩ | ⟨hlong, m, -, hname'⟩
    · have hf := hwidth p List.mem_cons_self f (by simp [hgroup])
      have hf' := hwidth p' (List.mem_cons_of_mem p hp') f' (by simp [hgroup'])
      rw [hname, hname', hgroup, hgroup']
      simp only [List.cons.injEq, and_true, exists_and_left, exists_eq_left']
      exact ⟨Levels.waveformName_inj (hf.trans hf'.symm), congrArg Levels.waveformName⟩
    · rw [hname, hname']
      refine iff_of_false (Catalog.waveformName_ne_fusedName f.state m) ?_
      rintro ⟨-, f', -, hgroup', -⟩
      simp [hgroup'] at hlong
  | @fused n p ps hlong hname hrest ih =>
    refine List.pairwise_cons.mpr
      ⟨fun p' hp' => ?_, ih fun q hq => hwidth q (List.mem_cons_of_mem p hq)⟩
    refine iff_of_false ?_ ?_
    · rw [hname]
      rcases hrest.cases_of_mem hp' with ⟨f', -, hname'⟩ | ⟨-, m, hle, hname'⟩
      · rw [hname']
        exact (Catalog.waveformName_ne_fusedName f'.state n).symm
      -- The numbers after this one are greater.
      · rw [hname']
        intro hsame
        have := Catalog.fusedName_injective hsame
        omega
    · rintro ⟨f, -, hgroup, -⟩
      simp [hgroup] at hlong

/-- The passages that play more than one frame have the numbers from `n` on, in order. -/
theorem fused_names (h : Numbered n ps) :
    (ps.filter fun p => 1 < p.group.length).map (·.waveform)
      = (List.range' n (ps.countP fun p => 1 < p.group.length)).map Catalog.fusedName := by
  induction h with
  | nil => rfl
  | @plain n p ps f hgroup hname hrest ih =>
    have hshort : ¬ 1 < p.group.length := by simp [hgroup]
    rw [List.filter_cons_of_neg (by simpa using hshort),
      List.countP_cons_of_neg (by simpa using hshort), ih]
  | @fused n p ps hlong hname hrest ih =>
    rw [List.filter_cons_of_pos (by simpa using hlong),
      List.countP_cons_of_pos (by simpa using hlong), List.map_cons, ih, hname, List.range'_succ,
      List.map_cons]

/-- Each number is given to one passage, up to as many as there are. -/
theorem count_fusedName (h : Numbered n ps) (m : Nat) :
    (ps.map (·.waveform)).count (Catalog.fusedName m)
      = if n ≤ m ∧ m < n + ps.countP fun p => 1 < p.group.length then 1 else 0 := by
  induction h with
  | nil n => simp
  | @plain n p ps f hgroup hname hrest ih =>
    -- A plain passage has no numbered name and does not use up a number.
    have hshort : ¬ 1 < p.group.length := by simp [hgroup]
    rw [List.map_cons, hname, List.count_cons_of_ne (Catalog.waveformName_ne_fusedName _ _),
      List.countP_cons_of_neg (by simpa using hshort), ih]
  | @fused n p ps hlong hname hrest ih =>
    rw [List.map_cons, hname, List.countP_cons_of_pos (by simpa using hlong)]
    -- The number `n` is used here, and later numbers are greater.
    by_cases hm : n = m
    · subst hm
      rw [List.count_cons_self, ih, if_neg (by omega), if_pos (by omega)]
    · rw [List.count_cons_of_ne fun hsame => hm (Catalog.fusedName_injective hsame), ih]
      exact if_congr (by omega) rfl rfl

end Numbered

section Compiled

variable {card : Card} {fs : List Frame} {width : Nat}

/-- The passages of a recording are numbered from zero on. -/
theorem numbered_ofFrames (hwidth : ∀ f ∈ fs, f.state.width = width) :
    Numbered 0 (ofFrames card fs) :=
  numbered_run (Burst.forall₂_plays card fs) (Catalog.sound_empty _ width)
    fun _ hb => width_of_mem_bursts hwidth hb

/-- What is defined is what is played, in the order in which it is played first. -/
theorem keys_ofFrames (hwidth : ∀ f ∈ fs, f.state.width = width) :
    (Artifact.ofFrames card fs).waveforms.keys
      = ((ofFrames card fs).map (·.waveform)).eraseDups := by
  have hbursts : ∀ b ∈ bursts card fs, b.final.state.width = width := fun b hb =>
    width_of_mem_bursts hwidth hb
  -- The keys are the names as they were given, each at its first use.
  have hkeys := (Catalog.sound_empty card.quantum width).keys_addAll hbursts
  have hnames := map_waveform_run (Burst.forall₂_plays card fs) {}
  have hempty : ({} : Catalog).waveforms.keys = [] := rfl
  rw [hempty, List.nil_append, List.removeAll_nil] at hkeys
  rw [waveforms_ofFrames, hkeys]
  exact congrArg List.eraseDups hnames.symm

end Compiled

end Passage

/-! ## The result -/

namespace Artifact

/-- The artifact `a` in passages `ps`, and how they share its waveforms. -/
structure References (card : Card) (ledger : Ledger) (a : Artifact) (fs : List Frame)
    (ps : List Passage) : Prop where
  recorded : Frame.ofTransitions card ledger.transitions = .ok fs
  groups : ps.map (·.group) = Frame.groups card fs
  script : a.script.instructions = ps.flatMap Passage.instructions
  /-- What is generated is defined, and what is defined is generated. -/
  defined : ∀ name, name ∈ a.waveforms.keys ↔ ∃ p ∈ ps, p.waveform = name
  unique : a.waveforms.keys.Nodup
  /-- Waveforms are defined in the order in which they are generated first. -/
  ordered : a.waveforms.keys = (ps.map (·.waveform)).eraseDups
  /-- Two passages share a waveform exactly if each plays one frame, and in equal states. -/
  shared : ps.Pairwise fun p p' => p.waveform = p'.waveform
    ↔ ∃ f f', p.group = [f] ∧ p'.group = [f'] ∧ f.state = f'.state
  /-- The waveform for one frame is named by its state, and holds it for one quantum. -/
  plain : ∀ p ∈ ps, ∀ f, p.group = [f] → p.waveform = f.state.waveformName
    ∧ a.waveforms.find? p.waveform = some (List.replicate card.quantum f.state)
  /-- The waveforms for several frames are numbered in the order of the script. -/
  fused : (ps.filter fun p => 1 < p.group.length).map (·.waveform)
    = (List.range (ps.countP fun p => 1 < p.group.length)).map Catalog.fusedName
  fused_once : ∀ n < ps.countP fun p => 1 < p.group.length,
    (ps.map (·.waveform)).count (Catalog.fusedName n) = 1
  apart : ∀ p ∈ ps, ∀ p' ∈ ps, p.group.length = 1 → 1 < p'.group.length →
    p.waveform ≠ p'.waveform

/-- **The references of a compiled artifact.** Whatever compiles defines what it generates and nothing
else, and shares a waveform exactly where a single frame comes up again in an equal state. -/
theorem references_ofLedger {card : Card} {ledger : Ledger} {a : Artifact}
    (h : ofLedger card ledger = .ok a) : ∃ fs ps, References card ledger a fs ps := by
  obtain ⟨-, fs, hfs, -, rfl⟩ := ofLedger_eq_ok_iff.mp h
  have hwidth : ∀ f ∈ fs, f.state.width = card.channels := fun _ hf =>
    Frame.width_of_mem_ofTransitions hfs hf
  have hnumbered : Passage.Numbered 0 (Passage.ofFrames card fs) :=
    Passage.numbered_ofFrames hwidth
  have hkeys := @Passage.keys_ofFrames card fs card.channels hwidth
  refine ⟨fs, Passage.ofFrames card fs, {
    recorded := hfs
    groups := Passage.map_group_ofFrames card fs
    script := Passage.instructions_ofFrames card fs
    defined := fun name => ?_
    unique := Directory.nodup_keys _
    ordered := hkeys
    shared := hnumbered.pairwise_shared fun p hp f hf =>
      hwidth f (Passage.mem_of_mem_ofFrames hp hf)
    plain := fun p hp f hf => ⟨hnumbered.name_of_group_eq hp hf, ?_⟩
    fused := ?_
    fused_once := fun n hn => ?_
    apart := fun p hp p' hp' hone hmany => ?_ }⟩
  · rw [hkeys, List.mem_eraseDups, List.mem_map]
  · rw [Passage.find?_of_mem_ofFrames hwidth hp, hf]
    rfl
  · rw [hnumbered.fused_names, List.range_eq_range']
  · rw [hnumbered.count_fusedName, if_pos (by omega)]
  -- A plain waveform and a fused one have names of different forms.
  · obtain ⟨f, hf⟩ := List.length_eq_one_iff.mp hone
    rw [hnumbered.name_of_group_eq hp hf]
    rcases hnumbered.cases_of_mem hp' with ⟨f', hf', -⟩ | ⟨-, m, -, hm⟩
    · simp [hf'] at hmany
    · rw [hm]
      exact Catalog.waveformName_ne_fusedName f.state m

/-- Two passages of several frames each share nothing. -/
theorem references_unordered :
    ofLedger Card.paired Ledger.unordered = .ok unordered
      ∧ ∃ fs ps, References Card.paired Ledger.unordered unordered fs ps :=
  ⟨ofLedger_unordered, references_ofLedger ofLedger_unordered⟩

end Artifact

end PulseTrain
