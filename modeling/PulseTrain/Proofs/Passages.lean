import Mathlib.Data.List.SplitBy
import PulseTrain.Proofs.Replay

/-!
# Scripts in passages

A compiled script is a list of passages: one waveform each, and the waits after it. Each of them plays a
group of frames, and the groups are said here without bursts: a frame is in one group with the next
exactly if it is too short to be waited for.

* `Frame.groups` are the groups of a recording's frames, and `Passage` is what becomes of one.
  `Frame.groups_eq_iff` says what makes them the groups, without going along the frames.
* `Burst.map_holds_fuse` is the induction: cutting into bursts splits after every frame that is long
  enough. So each group has its burst (`Burst.forall₂_plays`).
* `Passage.run` goes along with assembly, and `Passage.ofFrames` are the passages of a compile.
* `Passage.instructions_ofFrames`, `Passage.waits_of_mem_ofFrames` and `Passage.find?_of_mem_ofFrames`
  say what is written for each of them.
-/

namespace PulseTrain

namespace Frame

/-! ## Groups of frames -/

/-- The card cannot wait for a frame that is this short. -/
def isShort (card : Card) (f : Frame) : Bool :=
  Wait.align card.quantum f.duration < card.stableWait

/-- Frames in groups: those too short to be waited for go with the frame after them. -/
def groups (card : Card) (fs : List Frame) : List (List Frame) :=
  fs.splitBy fun f _ => f.isShort card

variable {card : Card} {lead : List Frame}

theorem isShort_iff {f : Frame} :
    f.isShort card ↔ (f.hold card.quantum).cycles < card.stableWait :=
  decide_eq_true_iff

/-- A relation that looks at the left of two neighbours looks at all entries but the last. -/
theorem isChain_left_iff {α : Type} {p : α → Prop} {l : List α} :
    (l.IsChain fun a _ => p a) ↔ ∀ a ∈ l.dropLast, p a := by
  induction l with
  | nil => simp
  | cons a rest ih =>
    cases rest with
    | nil => simp
    | cons b rest =>
      rw [List.isChain_cons_cons, ih, List.dropLast_cons_cons, List.forall_mem_cons]

/-- Short frames are in one group with the frame after them. -/
theorem groups_of_isShort (hlead : ∀ f ∈ lead, f.isShort card) (last : Frame) :
    groups card (lead ++ [last]) = [lead ++ [last]] :=
  List.splitBy_of_isChain (by simp) (isChain_left_iff.mpr (by simpa using hlead))

/-- After a frame that can be waited for a new group begins. -/
theorem groups_append {f : Frame} (hf : ¬ f.isShort card) (rest : List Frame) :
    groups card (lead ++ f :: rest) = groups card (lead ++ [f]) ++ groups card rest := by
  unfold groups
  rw [← List.splitBy_append (by simpa using fun _ _ => hf)]
  simp

theorem mem_of_mem_groups {fs group : List Frame} (hgroup : group ∈ groups card fs) {f : Frame}
    (hf : f ∈ group) : f ∈ fs := by
  rw [← List.flatten_splitBy (fun f _ => f.isShort card) fs]
  exact List.mem_flatten_of_mem hgroup hf

/-- `gs` are frames in groups: in each of them the last can be waited for and the others cannot. The
last frame of all ends its group either way. -/
structure Grouping (card : Card) (fs : List Frame) (gs : List (List Frame)) : Prop where
  /-- Together the groups are all frames, each of them once and in order. -/
  flatten : gs.flatten = fs
  nonempty : ∀ g ∈ gs, g ≠ []
  short : ∀ g ∈ gs, ∀ f ∈ g.dropLast, Wait.align card.quantum f.duration < card.stableWait
  stable : ∀ g ∈ gs.dropLast, ∀ last ∈ g.getLast?,
    card.stableWait ≤ Wait.align card.quantum last.duration

/-- There is one way to group frames. -/
theorem groups_eq_iff {fs : List Frame} {gs : List (List Frame)} :
    groups card fs = gs ↔ Grouping card fs gs := by
  -- Within a group every frame but the last is short.
  have hshort : (∀ g ∈ gs, g.IsChain fun f _ => f.isShort card = true)
      ↔ ∀ g ∈ gs, ∀ f ∈ g.dropLast, Wait.align card.quantum f.duration < card.stableWait := by
    refine forall₂_congr fun g _ => isChain_left_iff.trans ?_
    exact forall₂_congr fun f _ => isShort_iff
  -- Between groups only the frame before matters, since there is one after.
  have hstable (hne : ∀ g ∈ gs, g ≠ []) :
      (gs.IsChain fun before after => ∃ (hb : before ≠ []) (_ : after ≠ []),
          (before.getLast hb).isShort card = false)
        ↔ ∀ g ∈ gs.dropLast, ∀ last ∈ g.getLast?,
          card.stableWait ≤ Wait.align card.quantum last.duration := by
    refine Iff.trans (List.IsChain.iff_of_mem_imp fun before after hb ha => ?_) isChain_left_iff
    simp [hne before hb, hne after ha, List.getLast?_eq_some_getLast, isShort]
  unfold groups
  rw [List.splitBy_eq_iff]
  constructor
  · rintro ⟨hflatten, hnil, hchains, hchain⟩
    have hne : ∀ g ∈ gs, g ≠ [] := fun g hg heq => hnil (heq ▸ hg)
    exact ⟨hflatten.symm, hne, hshort.mp hchains, (hstable hne).mp hchain⟩
  · intro h
    exact ⟨h.flatten.symm, fun hnil => h.nonempty [] hnil rfl, hshort.mpr h.short,
      (hstable h.nonempty).mpr h.stable⟩

end Frame

/-! ## The burst of a group -/

/-- Cutting into bursts splits frames into their groups. Induction on the frames; those in `lead` are
short, and wait for the last of their group. -/
theorem Burst.map_holds_fuse {card : Card} {lead fs : List Frame}
    (hlead : ∀ f ∈ lead, f.isShort card) (hne : fs ≠ []) :
    (fuse card.stableWait (lead.map (Frame.hold card.quantum))
        (fs.map (Frame.hold card.quantum))).map holds
      = (Frame.groups card (lead ++ fs)).map (List.map (Frame.hold card.quantum)) := by
  induction fs generalizing lead with
  -- By induction on the frames, with those that wait to be fused carried along in `lead`.
  | nil => exact absurd rfl hne
  | cons f rest ih =>
    cases rest with
    -- The last frame ends its group, short or not.
    | nil =>
      rw [Frame.groups_of_isShort hlead]
      simp [fuse, holds]
    | cons next rest =>
      rw [List.map_cons, List.map_cons, fuse]
      -- A short frame joins those that wait, and any other one ends their group.
      by_cases hshort : f.isShort card
      · rw [if_pos (Frame.isShort_iff.mp hshort)]
        have hmore : ∀ g ∈ lead ++ [f], g.isShort card := by
          simpa [or_imp, forall_and] using ⟨hlead, hshort⟩
        simpa using ih hmore (List.cons_ne_nil next rest)
      · rw [if_neg (mt Frame.isShort_iff.mpr hshort), Frame.groups_append hshort,
          Frame.groups_of_isShort hlead]
        have hrest := @ih [] (by simp) (List.cons_ne_nil next rest)
        rw [List.nil_append] at hrest
        rw [List.map_append, ← hrest]
        simp [holds]

namespace Burst

/-- The burst plays these frames, each for as long as the card can hold it. -/
def Plays (card : Card) (b : Burst) (group : List Frame) : Prop :=
  b.holds = group.map (Frame.hold card.quantum)

/-- The bursts play the groups, one by one. -/
theorem forall₂_plays (card : Card) (fs : List Frame) :
    List.Forall₂ (Plays card) (fuse card.stableWait [] (fs.map (Frame.hold card.quantum)))
      (Frame.groups card fs) := by
  -- A burst is made up of the holds of its group.
  have hmap : (fuse card.stableWait [] (fs.map (Frame.hold card.quantum))).map holds
      = (Frame.groups card fs).map (List.map (Frame.hold card.quantum)) := by
    cases fs with
    | nil => rfl
    | cons f fs => exact @map_holds_fuse card [] (f :: fs) (by simp) (List.cons_ne_nil f fs)
  -- Lists with equal images are related one by one.
  rw [← List.forall₂_eq_eq_eq, List.forall₂_map_left_iff, List.forall₂_map_right_iff] at hmap
  exact hmap

variable {card : Card} {b : Burst} {group : List Frame}

theorem Plays.samples_eq (h : Plays card b group) :
    b.samples card.quantum = Hold.unroll card.quantum (group.map (Frame.hold card.quantum)) := by
  rw [← h, unroll_holds]

/-- What is waited for is the last frame. -/
theorem Plays.final (h : Plays card b group) :
    ∃ last ∈ group.getLast?, b.final = last.hold card.quantum := by
  have hlast := congrArg List.getLast? h
  rw [holds, List.getLast?_append, List.getLast?_map] at hlast
  obtain ⟨last, hlast, heq⟩ := Option.map_eq_some_iff.mp hlast.symm
  exact ⟨last, hlast, heq.symm⟩

/-- A burst without a lead plays a single frame. -/
theorem Plays.lead_eq_nil_iff (h : Plays card b group) : b.lead = [] ↔ group.length = 1 := by
  have hlength := congrArg List.length h
  rw [holds, List.length_append, List.length_map, List.length_singleton] at hlength
  rw [← List.length_eq_zero_iff]
  omega

end Burst

/-! ## Passages -/

/-- A waveform of a script, the waits after it, and the frames that it is for. -/
structure Passage where
  waveform : String
  waits : List Nat
  group : List Frame
deriving DecidableEq, Repr

namespace Passage

/-- The instructions of a passage. -/
def instructions (p : Passage) : List Instruction :=
  .generate p.waveform :: p.waits.map .wait

/-- The passages that bursts become, when they play these groups of frames. -/
def run (card : Card) (c : Catalog) : List Burst → List (List Frame) → List Passage
  | b :: bs, group :: groups =>
    let (name, named) := c.add card.quantum b
    ⟨name, Wait.split card.maxWait b.final.cycles, group⟩ :: run card named bs groups
  | _, _ => []

section Run

variable {card : Card} {c : Catalog} {bs : List Burst} {groups : List (List Frame)}

/-- There is a passage for every group. -/
theorem map_group_run (h : List.Forall₂ (Burst.Plays card) bs groups) (c : Catalog) :
    (run card c bs groups).map (·.group) = groups := by
  induction h generalizing c with
  | nil => rfl
  | cons _ _ ih => rw [run, List.map_cons, ih]

/-- Passages are played by the waveforms that the catalog names. -/
theorem map_waveform_run (h : List.Forall₂ (Burst.Plays card) bs groups) (c : Catalog) :
    (run card c bs groups).map (·.waveform) = (c.addAll card.quantum bs).1 := by
  induction h generalizing c with
  | nil => rfl
  | cons _ _ ih => rw [run, List.map_cons, ih, Catalog.addAll]

/-- The instructions of the passages are those that assembly writes. -/
theorem flatMap_instructions_run (h : List.Forall₂ (Burst.Plays card) bs groups)
    (c : Catalog) :
    (run card c bs groups).flatMap instructions = (Assembly.run card c bs).1 := by
  induction h generalizing c with
  | nil => rfl
  | cons _ _ ih =>
    rw [run, List.flatMap_cons, ih, Assembly.run]
    rfl

/-- A passage waits for the last frame of its group, in as many instructions as that takes. -/
theorem waits_of_mem_run (h : List.Forall₂ (Burst.Plays card) bs groups) {p : Passage}
    (hp : p ∈ run card c bs groups) :
    ∃ last ∈ p.group.getLast?,
      p.waits = Wait.split card.maxWait (Wait.align card.quantum last.duration) := by
  induction h generalizing c with
  | nil => cases hp
  | cons hplays _ ih =>
    -- The first passage waits for the last frame of its burst; the others were named from a later
    -- catalog, which has no say in the waits.
    rcases List.mem_cons.mp hp with rfl | hp
    · obtain ⟨last, hlast, hfinal⟩ := hplays.final
      exact ⟨last, hlast, by rw [hfinal]; rfl⟩
    · exact ih hp

/-- The waveform of a passage plays its frames. -/
theorem find?_of_mem_run (h : List.Forall₂ (Burst.Plays card) bs groups) {width : Nat}
    (hc : c.Sound card.quantum width) (hwidth : ∀ b ∈ bs, b.final.state.width = width)
    {p : Passage} (hp : p ∈ run card c bs groups) :
    (c.addAll card.quantum bs).2.waveforms.find? p.waveform
      = some (Hold.unroll card.quantum (p.group.map (Frame.hold card.quantum))) := by
  induction h generalizing c with
  | nil => cases hp
  | cons hplays _ ih =>
    obtain ⟨hnamed, -, hfound⟩ := hc.add (hwidth _ List.mem_cons_self)
    have hrest := fun b hb => hwidth b (List.mem_cons_of_mem _ hb)
    -- Later bursts take no name away, so what `p` plays is found at the end too.
    rcases List.mem_cons.mp hp with rfl | hp
    · rw [← hplays.samples_eq]
      exact (hnamed.addAll hrest).2 _ _ hfound
    · exact ih hnamed hrest hp

end Run

/-! ## The passages of a compile -/

/-- The bursts that frames are cut into. -/
def bursts (card : Card) (fs : List Frame) : List Burst :=
  Burst.fuse card.stableWait [] (fs.map (Frame.hold card.quantum))

/-- The passages that frames become. -/
def ofFrames (card : Card) (fs : List Frame) : List Passage :=
  run card {} (bursts card fs) (Frame.groups card fs)

/-- There is a passage for every group of a recording. -/
theorem map_group_ofFrames (card : Card) (fs : List Frame) :
    (ofFrames card fs).map (·.group) = Frame.groups card fs :=
  map_group_run (Burst.forall₂_plays card fs) {}

/-- A passage plays frames of the recording. -/
theorem mem_of_mem_ofFrames {card : Card} {fs : List Frame} {p : Passage}
    (hp : p ∈ ofFrames card fs) {f : Frame} (hf : f ∈ p.group) : f ∈ fs := by
  have hgroup : p.group ∈ Frame.groups card fs := by
    rw [← map_group_ofFrames]
    exact List.mem_map_of_mem hp
  exact Frame.mem_of_mem_groups hgroup hf

/-- The script is its passages, one after the other. -/
theorem instructions_ofFrames (card : Card) (fs : List Frame) :
    (Artifact.ofFrames card fs).script.instructions = (ofFrames card fs).flatMap instructions :=
  (flatMap_instructions_run (Burst.forall₂_plays card fs) {}).symm

/-- Each waits for the last of its frames. -/
theorem waits_of_mem_ofFrames {card : Card} {fs : List Frame} {p : Passage}
    (hp : p ∈ ofFrames card fs) :
    ∃ last ∈ p.group.getLast?,
      p.waits = Wait.split card.maxWait (Wait.align card.quantum last.duration) :=
  waits_of_mem_run (Burst.forall₂_plays card fs) hp

/-- The waveforms are what is in the catalog when all bursts are named. -/
theorem waveforms_ofFrames (card : Card) (fs : List Frame) :
    (Artifact.ofFrames card fs).waveforms
      = (Catalog.addAll card.quantum {} (bursts card fs)).2.waveforms := by
  unfold Artifact.ofFrames Artifact.ofHolds
  rw [Assembly.run_eq]
  rfl

/-- A burst has the width of the frames that it plays. -/
theorem width_of_mem_bursts {card : Card} {fs : List Frame} {width : Nat}
    (hwidth : ∀ f ∈ fs, f.state.width = width) {b : Burst} (hb : b ∈ bursts card fs) :
    b.final.state.width = width := by
  obtain ⟨f, hf, hfinal⟩ := List.mem_map.mp (Burst.mem_of_mem_fuse hb b.final_mem_holds)
  rw [← hfinal]
  exact hwidth f hf

/-- The waveform of a passage is found under its name, and plays its frames. -/
theorem find?_of_mem_ofFrames {card : Card} {fs : List Frame} {width : Nat}
    (hwidth : ∀ f ∈ fs, f.state.width = width) {p : Passage} (hp : p ∈ ofFrames card fs) :
    (Artifact.ofFrames card fs).waveforms.find? p.waveform
      = some (Hold.unroll card.quantum (p.group.map (Frame.hold card.quantum))) := by
  rw [waveforms_ofFrames]
  exact find?_of_mem_run (Burst.forall₂_plays card fs) (Catalog.sound_empty _ width)
    (fun b hb => width_of_mem_bursts hwidth hb) hp

end Passage

end PulseTrain
