import Mathlib.Algebra.BigOperators.Ring.List
import Mathlib.Algebra.Ring.Nat
import PulseTrain.Proofs.References

/-!
# Scripts that the card can play

What compiles respects the limits of the card, as long as it can be waited for. A passage is one waveform
and a block of waits, which together are the last frame of its group on the grid; and but for the last
passage, the card has the time that it needs between two waveforms.

* `Passage.eq_of_instructions`: a script is cut into passages in one way.
* `Frame.not_isShort_of_mem_dropLast_groups`: every group but the last ends in a frame that is long
  enough, since that is where groups are split.
* `Frame.Waitable` is what the waits must come to. `Wait.block_split` gives the block then, and
  `Hold.length_unroll` the length of a waveform.
* `Artifact.legal_ofLedger` is the result: there are legal passages exactly if the waits come to that.
-/

namespace PulseTrain

/-! ## One way to cut a script -/

namespace Passage

/-- Waits end where something else begins. -/
theorem eq_of_map_wait_append {ns ns' : List Nat} {rest rest' : List Instruction}
    (hrest : ∀ i ∈ rest.head?, i.isWait = false) (hrest' : ∀ i ∈ rest'.head?, i.isWait = false)
    (h : ns.map .wait ++ rest = ns'.map .wait ++ rest') : ns = ns' ∧ rest = rest' := by
  -- The two runs of waits end together, since neither rest begins with a wait.
  induction ns generalizing ns' with
  | nil =>
    cases ns' with
    | nil => exact ⟨rfl, h⟩
    | cons n' ns' =>
      have hwait := hrest (.wait n') (by simpa using congrArg List.head? h)
      cases hwait
  | cons n ns ih =>
    cases ns' with
    | nil =>
      have hwait := hrest' (.wait n) (by simpa using (congrArg List.head? h).symm)
      cases hwait
    | cons n' ns' =>
      simp only [List.map_cons, List.cons_append, List.cons.injEq, Instruction.wait.injEq] at h
      obtain ⟨rfl, h⟩ := h
      obtain ⟨rfl, rfl⟩ := ih h
      exact ⟨rfl, rfl⟩

/-- A script in passages does not begin with a wait. -/
theorem isWait_head?_flatMap (ps : List Passage) :
    ∀ i ∈ (ps.flatMap instructions).head?, i.isWait = false := by
  cases ps with
  | nil => exact nofun
  | cons p ps =>
    rintro i hi
    cases hi
    rfl

/-- The groups and the instructions tell the passages: each begins with its waveform, and the waits up
to the next waveform are its own. -/
theorem eq_of_instructions {ps ps' : List Passage}
    (hscript : ps.flatMap instructions = ps'.flatMap instructions)
    (hgroups : ps.map (·.group) = ps'.map (·.group)) : ps = ps' := by
  induction ps generalizing ps' with
  | nil => exact (List.map_eq_nil_iff.mp hgroups.symm).symm
  | cons p ps ih =>
    cases ps' with
    | nil => cases hgroups
    | cons p' ps' =>
      obtain ⟨name, waits, group⟩ := p
      obtain ⟨name', waits', group'⟩ := p'
      simp only [List.map_cons, List.cons.injEq] at hgroups
      simp only [List.flatMap_cons, instructions, List.cons_append, List.cons.injEq,
        Instruction.generate.injEq] at hscript
      -- The names agree at the head of the script, and the waits up to the next name.
      obtain ⟨rfl, hscript⟩ := hscript
      obtain ⟨rfl, hgroups⟩ := hgroups
      obtain ⟨rfl, hrest⟩ :=
        eq_of_map_wait_append (isWait_head?_flatMap ps) (isWait_head?_flatMap ps') hscript
      rw [ih hrest hgroups]

end Passage

/-! ## What can be waited for -/

namespace Frame

variable {card : Card} {fs : List Frame}

/-- A group that another one follows ends in a frame that can be waited for. -/
theorem not_isShort_of_mem_dropLast_groups {group : List Frame}
    (hgroup : group ∈ (groups card fs).dropLast) {last : Frame} (hlast : last ∈ group.getLast?) :
    ¬ last.isShort card := by
  rw [isShort_iff]
  exact Nat.not_lt.mpr ((groups_eq_iff.mp rfl).stable group hgroup last hlast)

/-- The wait after each waveform fits in a counter, and each waveform is on the grid. -/
structure Waitable (card : Card) (fs : List Frame) : Prop where
  last : ∀ group ∈ groups card fs, ∀ last ∈ group.getLast?,
    Wait.cover card.quantum last.duration < Counter.bound
  /-- The frames before the last of their group are played sample by sample. -/
  lead : ∀ group ∈ groups card fs,
    card.quantum ∣ (group.dropLast.map fun f => Wait.align card.quantum f.duration).sum

/-- It is enough that every wait fits. -/
theorem WaitsFit.waitable (h : WaitsFit card.quantum fs) : Waitable card fs where
  last _ hgroup _ hlast := h _ (mem_of_mem_groups hgroup (List.mem_of_getLast? hlast))
  lead group hgroup := by
    refine List.dvd_sum fun wait hwait => ?_
    obtain ⟨f, hf, rfl⟩ := List.mem_map.mp hwait
    have hfits := h f (mem_of_mem_groups hgroup (List.dropLast_subset _ hf))
    rw [Wait.align_eq_cover_iff.mpr hfits]
    exact Wait.dvd_cover _ _

end Frame

/-! ## Legal passages -/

namespace Passage

variable {card : Card} {fs : List Frame} {p : Passage}

/-- A passage that another one follows has a group that another one follows. -/
theorem group_mem_dropLast (hp : p ∈ (ofFrames card fs).dropLast) :
    p.group ∈ (Frame.groups card fs).dropLast := by
  rw [← map_group_ofFrames, ← List.map_dropLast]
  exact List.mem_map_of_mem hp

theorem group_mem (hp : p ∈ ofFrames card fs) : p.group ∈ Frame.groups card fs := by
  rw [← map_group_ofFrames]
  exact List.mem_map_of_mem hp

/-- The waits of a passage are what a counter keeps of its last frame on the grid. -/
theorem sum_waits_of_mem_ofFrames (hp : p ∈ ofFrames card fs) :
    ∃ last ∈ p.group.getLast?, p.waits.sum = Wait.align card.quantum last.duration := by
  obtain ⟨last, hlast, hwaits⟩ := waits_of_mem_ofFrames hp
  exact ⟨last, hlast, by rw [hwaits, Wait.sum_split]⟩

/-- The waits of a passage are its last frame on the grid exactly if that fits in a counter. -/
theorem sum_waits_eq_cover_iff (hp : p ∈ ofFrames card fs) :
    (∃ last ∈ p.group.getLast?, p.waits.sum = Wait.cover card.quantum last.duration)
      ↔ ∀ last ∈ p.group.getLast?, Wait.cover card.quantum last.duration < Counter.bound := by
  obtain ⟨last, hlast, hsum⟩ := sum_waits_of_mem_ofFrames hp
  rw [Option.mem_def] at hlast
  simp [hlast, hsum, Wait.align_eq_cover_iff]

/-- Between two waveforms there is the time that the card needs. -/
theorem stableWait_le_sum_waits (hp : p ∈ (ofFrames card fs).dropLast) :
    card.stableWait ≤ p.waits.sum := by
  obtain ⟨last, hlast, hsum⟩ := sum_waits_of_mem_ofFrames (List.dropLast_subset _ hp)
  have hlong := Frame.not_isShort_of_mem_dropLast_groups (group_mem_dropLast hp) hlast
  rw [Frame.isShort_iff] at hlong
  exact hsum ▸ Nat.le_of_not_lt hlong

/-- The waits of a passage are a block, if what they wait for fits in a counter. -/
theorem block_of_mem_ofFrames (hpos : ∀ f ∈ fs, 0 < f.duration) (hp : p ∈ ofFrames card fs)
    (hfits : ∀ last ∈ p.group.getLast?, Wait.cover card.quantum last.duration < Counter.bound) :
    Wait.Block card.quantum card.maxWait p.waits := by
  obtain ⟨last, hlast, hwaits⟩ := waits_of_mem_ofFrames hp
  -- No frame is empty, so its wait is not.
  have hduration := hpos last (mem_of_mem_ofFrames hp (List.mem_of_getLast? hlast))
  rw [hwaits, Wait.align_eq_cover_iff.mpr (hfits last hlast)]
  exact Wait.block_split card.maxWait_pos (Nat.dvd_of_mod_eq_zero card.quantum_dvd_maxWait)
    (Wait.cover_pos card.quantum_pos hduration) (Wait.dvd_cover _ _)

/-- What the waveform of a passage plays. -/
def samples (card : Card) (p : Passage) : List Levels :=
  Hold.unroll card.quantum (p.group.map (Frame.hold card.quantum))

/-- The waveform of a passage takes the frames before the last one, and a quantum. -/
theorem length_samples (hp : p ∈ ofFrames card fs) :
    (p.samples card).length
      = (p.group.dropLast.map fun f => Wait.align card.quantum f.duration).sum + card.quantum := by
  obtain ⟨last, hlast, -⟩ := waits_of_mem_ofFrames hp
  have hne : p.group.map (Frame.hold card.quantum) ≠ [] := by
    simpa using List.ne_nil_of_mem (List.mem_of_getLast? hlast)
  rw [samples, Hold.length_unroll hne, ← List.map_dropLast, List.map_map]
  rfl

/-- Its samples have a bit for every channel. -/
theorem width_of_mem_samples {width : Nat} (hwidth : ∀ f ∈ fs, f.state.width = width)
    (hp : p ∈ ofFrames card fs) {state : Levels} (hstate : state ∈ p.samples card) :
    state.width = width := by
  obtain ⟨d, hd, rfl⟩ := Hold.exists_of_mem_unroll hstate
  obtain ⟨f, hf, rfl⟩ := List.mem_map.mp hd
  exact hwidth f (mem_of_mem_ofFrames hp hf)

/-- Every waveform belongs to a passage. -/
theorem exists_of_mem_waveforms {width : Nat} (hwidth : ∀ f ∈ fs, f.state.width = width)
    {e : String × List Levels} (he : e ∈ (Artifact.ofFrames card fs).waveforms.entries) :
    ∃ p ∈ ofFrames card fs, p.waveform = e.1 ∧ e.2 = p.samples card := by
  have hkey : e.1 ∈ (Artifact.ofFrames card fs).waveforms.keys := List.mem_map_of_mem he
  rw [keys_ofFrames hwidth, List.mem_eraseDups] at hkey
  obtain ⟨p, hp, hname⟩ := List.mem_map.mp hkey
  have hfound := find?_of_mem_ofFrames hwidth hp
  rw [hname, Directory.find?_of_mem he] at hfound
  exact ⟨p, hp, hname, Option.some.inj hfound⟩

end Passage

/-! ## The result -/

namespace Artifact

/-- The artifact `a` in passages `ps`, and what the card asks of them. -/
structure Legal (card : Card) (ledger : Ledger) (a : Artifact) (fs : List Frame)
    (ps : List Passage) : Prop where
  recorded : Frame.ofTransitions card ledger.transitions = .ok fs
  groups : ps.map (·.group) = Frame.groups card fs
  /-- The script is a waveform and its waits, over and over. -/
  script : a.script.instructions = ps.flatMap Passage.instructions
  plays : ∀ p ∈ ps, a.waveforms.find? p.waveform
    = some (Hold.unroll card.quantum (p.group.map (Frame.hold card.quantum)))
  wait : ∀ n, .wait n ∈ a.script.instructions →
    0 < n ∧ card.quantum ∣ n ∧ n ≤ card.maxWait
  block : ∀ p ∈ ps, Wait.Block card.quantum card.maxWait p.waits
  /-- What is waited for is the last frame, rounded up. -/
  total : ∀ p ∈ ps, ∃ last ∈ p.group.getLast?,
    p.waits.sum = Wait.cover card.quantum last.duration
  /-- The card has time enough before every waveform but the first. -/
  stable : ∀ p ∈ ps.dropLast, card.stableWait ≤ p.waits.sum
  waveforms : ∀ e ∈ a.waveforms.entries, 0 < e.2.length ∧ card.quantum ∣ e.2.length
    ∧ ∀ state ∈ e.2, state.width = card.channels

variable {card : Card} {ledger : Ledger} {a : Artifact} {fs : List Frame} {ps : List Passage}

/-- Legal passages wait for what a counter can hold, and play waveforms on the grid. -/
theorem Legal.waitable (h : ofLedger card ledger = .ok a) (hlegal : Legal card ledger a fs ps) :
    Frame.Waitable card fs := by
  obtain ⟨-, rfl⟩ := eq_ofFrames_of_ofLedger h hlegal.recorded
  -- These are the passages of the compile, since a script has no others.
  obtain rfl : ps = Passage.ofFrames card fs := by
    refine Passage.eq_of_instructions ?_ ?_
    · exact hlegal.script.symm.trans (Passage.instructions_ofFrames card fs)
    · exact hlegal.groups.trans (Passage.map_group_ofFrames card fs).symm
  constructor
  all_goals
    intro group hgroup
    rw [← Passage.map_group_ofFrames] at hgroup
    obtain ⟨p, hp, rfl⟩ := List.mem_map.mp hgroup
  · exact (Passage.sum_waits_eq_cover_iff hp).mp (hlegal.total p hp)
  · have hmem := Directory.mem_of_find? (hlegal.plays p hp)
    obtain ⟨-, hdvd, -⟩ := hlegal.waveforms _ hmem
    have hlength := Passage.length_samples hp
    rw [Passage.samples] at hlength
    rwa [hlength, Nat.dvd_add_left (Nat.dvd_refl _)] at hdvd

/-- What can be waited for compiles to legal passages. -/
theorem legal_of_waitable (h : ofLedger card ledger = .ok a)
    (hfs : Frame.ofTransitions card ledger.transitions = .ok fs) (hwaits : Frame.Waitable card fs) :
    Legal card ledger a fs (Passage.ofFrames card fs) := by
  obtain ⟨-, rfl⟩ := eq_ofFrames_of_ofLedger h hfs
  -- Frames that compile have the width of the card and take time.
  have hwidth : ∀ f ∈ fs, f.state.width = card.channels := fun _ hf =>
    Frame.width_of_mem_ofTransitions hfs hf
  have hpos : ∀ f ∈ fs, 0 < f.duration := fun _ hf =>
    Frame.duration_pos_of_mem_ofTransitions hfs hf
  have hblock : ∀ p ∈ Passage.ofFrames card fs,
      Wait.Block card.quantum card.maxWait p.waits := fun p hp =>
    Passage.block_of_mem_ofFrames hpos hp (hwaits.last p.group (Passage.group_mem hp))
  refine {
    recorded := hfs
    groups := Passage.map_group_ofFrames card fs
    script := Passage.instructions_ofFrames card fs
    plays := fun p hp => Passage.find?_of_mem_ofFrames hwidth hp
    wait := fun n hn => ?_
    block := hblock
    total := fun p hp =>
      (Passage.sum_waits_eq_cover_iff hp).mpr (hwaits.last p.group (Passage.group_mem hp))
    stable := fun p hp => Passage.stableWait_le_sum_waits hp
    waveforms := fun e he => ?_ }
  -- A wait of the script is one of the waits of some passage.
  · rw [Passage.instructions_ofFrames] at hn
    obtain ⟨p, hp, hn⟩ := List.mem_flatMap.mp hn
    have hwait : n ∈ p.waits := by simpa [Passage.instructions] using hn
    exact (hblock p hp).each n hwait
  -- A waveform plays some passage: the frames before the last one, and a quantum.
  · obtain ⟨p, hp, -, hsamples⟩ := Passage.exists_of_mem_waveforms hwidth he
    have hlead := hwaits.lead p.group (Passage.group_mem hp)
    rw [hsamples, Passage.length_samples hp]
    exact ⟨Nat.add_pos_right _ card.quantum_pos, Nat.dvd_add hlead (Nat.dvd_refl _),
      fun state hstate => Passage.width_of_mem_samples hwidth hp hstate⟩

/-- **The limits of the card.** What compiles stays within them, exactly if every wait after a waveform
fits in a counter and every waveform is on the grid. -/
theorem legal_ofLedger (h : ofLedger card ledger = .ok a) :
    (∃ fs ps, Legal card ledger a fs ps)
      ↔ ∀ fs, Frame.ofTransitions card ledger.transitions = .ok fs → Frame.Waitable card fs := by
  constructor
  · rintro ⟨fs, ps, hlegal⟩ fs' hfs'
    obtain rfl : fs' = fs := Except.ok.inj (hfs'.symm.trans hlegal.recorded)
    exact hlegal.waitable h
  · intro hwaits
    obtain ⟨-, fs, hfs, -⟩ := ofLedger_eq_ok_iff.mp h
    exact ⟨fs, _, legal_of_waitable h hfs (hwaits fs hfs)⟩

/-- A recording whose waits fit is legal. -/
theorem legal_unordered :
    ofLedger Card.paired Ledger.unordered = .ok unordered
      ∧ ∃ fs ps, Legal Card.paired Ledger.unordered unordered fs ps :=
  ⟨ofLedger_unordered, (legal_ofLedger ofLedger_unordered).mpr fun _ hfs =>
    (Frame.counted_unordered hfs).waitsFit.waitable⟩

end Artifact

/-! ## A wait that does not fit

The card would wait for one page more than a counter reaches. A wrapping program goes on with no wait at
all. -/

/-- One request, late. -/
def Ledger.late : Ledger where
  transitions := [⟨18446744073709549568, 0, true⟩]

/-- The frames of `Ledger.late`. -/
def Frame.late : List Frame :=
  [⟨0, ⟨[false]⟩, 18446744073709549568⟩, ⟨18446744073709549568, ⟨[true]⟩, 1⟩]

/-- The request comes 2048 samples before a counter ends. -/
theorem Frame.ofTransitions_late :
    ofTransitions (Card.paged .wrapping) Ledger.late.transitions = .ok late := by
  have hplaced : Ledger.late.transitions.mapM (Change.ofTransition (Card.paged .wrapping))
      = .ok [⟨18446744073709549568, 0, true⟩] := by decide +kernel
  refine (congrArg (Except.map _) hplaced).trans (congrArg Except.ok ?_)
  rw [ofChanges_eq (List.cons_ne_nil _ _), Change.mergeSort_eq_of_perm (List.Perm.refl _) (by decide)]
  decide +kernel

/-- It compiles, and not to legal passages. -/
theorem Artifact.not_legal_late : ∃ a, ofLedger (Card.paged .wrapping) Ledger.late = .ok a
    ∧ ¬ ∃ fs ps, Legal (Card.paged .wrapping) Ledger.late a fs ps := by
  have hcompiled : ofLedger (Card.paged .wrapping) Ledger.late
      = .ok (ofFrames (Card.paged .wrapping) Frame.late) :=
    ofLedger_eq_ok_iff.mpr ⟨Region.check_nil, _, Frame.ofTransitions_late, nofun, rfl⟩
  refine ⟨_, hcompiled, fun ⟨fs, ps, hlegal⟩ => ?_⟩
  obtain rfl := Except.ok.inj (Frame.ofTransitions_late.symm.trans hlegal.recorded)
  -- No frame is short on this card, so each is a group of its own.
  have hgroups : Frame.groups (Card.paged .wrapping) Frame.late
      = [[⟨0, ⟨[false]⟩, 18446744073709549568⟩], [⟨18446744073709549568, ⟨[true]⟩, 1⟩]] := by
    decide +kernel
  have hfits := (hlegal.waitable hcompiled).last
  rw [hgroups] at hfits
  exact absurd (hfits _ List.mem_cons_self _ rfl) (by decide +kernel)

end PulseTrain
