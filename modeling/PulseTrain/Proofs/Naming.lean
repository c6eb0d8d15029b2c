import Mathlib.Data.List.Forall2
import PulseTrain.Assembly
import PulseTrain.Proofs.Catalogs

/-!
# Bursts find their samples under their names

While a sequence is compiled every burst gets the name of a waveform that plays it. What a catalog
defines stays defined, and so at the end every burst still finds its own samples under its name.

* `Burst.naming` is what a burst asks the catalog for, and `Catalog.addAll_eq` reads a compile as these
  namings in turn.
* `Assembly.run_eq` splits a run into naming and writing.
* `Catalog.Sound.find?_addAll` is the result: names and samples correspond.
-/

namespace PulseTrain

/-- The samples of the waveform that plays a burst: all of its leading holds, and one quantum of the
hold that is waited for. -/
def Burst.samples (quantum : Nat) (b : Burst) : List Levels :=
  b.lead.flatMap Hold.samples ++ List.replicate quantum b.final.state

/-- A waveform plays all holds but the last in full, and a quantum of that. -/
theorem Hold.unroll_append_singleton (quantum : Nat) (lead : List Hold) (last : Hold) :
    unroll quantum (lead ++ [last])
      = lead.flatMap Hold.samples ++ List.replicate quantum last.state := by
  induction lead with
  | nil => rfl
  | cons h lead ih =>
    cases lead with
    | nil => simp [unroll]
    | cons next rest =>
      rw [List.flatMap_cons, List.append_assoc, ← ih]
      rfl

/-- So it is with the holds of a burst. -/
theorem Burst.unroll_holds (quantum : Nat) (b : Burst) :
    Hold.unroll quantum b.holds = b.samples quantum :=
  Hold.unroll_append_singleton quantum b.lead b.final

/-- What the name of a burst is asked for. -/
def Burst.naming (b : Burst) : Catalog.Naming :=
  if b.lead = [] then .plain b.final.state else .fused b.holds

/-- The samples that a burst is named for are those that it plays. -/
theorem Burst.samples_naming (quantum : Nat) (b : Burst) :
    b.naming.samples quantum = b.samples quantum := by
  unfold naming
  split
  · rename_i hlead
    simp [Catalog.Naming.samples, samples, hlead]
  · exact b.unroll_holds quantum

/-- A burst that is named by a state is named by its own. -/
theorem Burst.width_of_mem_naming {width : Nat} {b : Burst} (hb : b.final.state.width = width)
    {s : Levels} (hs : s ∈ b.naming.state?) : s.width = width := by
  unfold naming at hs
  split at hs
  · cases hs
    exact hb
  · cases hs

namespace Catalog

variable {quantum width : Nat} {c : Catalog}

/-- Naming a burst is answering a request for its name. -/
theorem add_eq (quantum : Nat) (c : Catalog) (b : Burst) :
    c.add quantum b = c.answer quantum b.naming := by
  unfold Catalog.add Burst.naming
  split <;> rfl

/-- The waveform of a burst is found under its name, and all others stay as they were. -/
theorem Sound.add (hc : Sound quantum width c) {b : Burst} (hb : b.final.state.width = width) :
    Sound quantum width (c.add quantum b).2 ∧ Keeps c (c.add quantum b).2
      ∧ (c.add quantum b).2.waveforms.find? (c.add quantum b).1 = some (b.samples quantum) := by
  rw [add_eq, ← b.samples_naming]
  exact hc.answer fun _ => Burst.width_of_mem_naming hb

/-! ## A whole run -/

/-- Names the waveforms of bursts in turn. -/
def addAll (quantum : Nat) (c : Catalog) : List Burst → List String × Catalog
  | [] => ([], c)
  | b :: bs =>
    let (name, named) := c.add quantum b
    let (names, last) := addAll quantum named bs
    (name :: names, last)

/-- Naming bursts is answering requests one after the other. -/
theorem addAll_eq (quantum : Nat) (c : Catalog) (bs : List Burst) :
    c.addAll quantum bs = c.answers quantum (bs.map Burst.naming) := by
  induction bs generalizing c with
  | nil => rfl
  | cons b bs ih => simp only [addAll, List.map_cons, answers, add_eq, ih]

theorem width_of_mem_namings {bs : List Burst} (hbs : ∀ b ∈ bs, b.final.state.width = width) :
    ∀ n ∈ bs.map Burst.naming, ∀ s ∈ n.state?, s.width = width := by
  intro n hn s hs
  obtain ⟨b, hb, rfl⟩ := List.mem_map.mp hn
  exact Burst.width_of_mem_naming (hbs b hb) hs

/-- A catalog stays sound while bursts are named, and loses no waveform. -/
theorem Sound.addAll {bs : List Burst} (hc : Sound quantum width c)
    (hbs : ∀ b ∈ bs, b.final.state.width = width) :
    Sound quantum width (c.addAll quantum bs).2 ∧ Keeps c (c.addAll quantum bs).2 := by
  obtain ⟨hlast, hgrows⟩ := hc.answers (width_of_mem_namings hbs)
  rw [addAll_eq]
  exact ⟨hlast, hgrows.keeps⟩

/-- When all bursts are named, each of them finds its own samples under its name. -/
theorem Sound.find?_addAll {bs : List Burst} (hc : Sound quantum width c)
    (hbs : ∀ b ∈ bs, b.final.state.width = width) :
    List.Forall₂ (fun name (b : Burst) =>
        (c.addAll quantum bs).2.waveforms.find? name = some (b.samples quantum))
      (c.addAll quantum bs).1 bs := by
  induction bs generalizing c with
  | nil => exact .nil
  | cons b bs ih =>
    have hrest : ∀ d ∈ bs, d.final.state.width = width :=
      fun d hd => hbs d (List.mem_cons_of_mem b hd)
    obtain ⟨hnamed, -, hfound⟩ := hc.add (hbs b List.mem_cons_self)
    -- The bursts after `b` keep what `b` has found.
    exact .cons ((hnamed.addAll hrest).2 _ _ hfound) (ih hnamed hrest)

end Catalog

/-- A run names the bursts and writes each of them under its name. -/
theorem Assembly.run_eq (card : Card) (c : Catalog) (bs : List Burst) :
    run card c bs
      = ((List.zipWith (emit card.maxWait) (c.addAll card.quantum bs).1 bs).flatten,
        (c.addAll card.quantum bs).2) := by
  induction bs generalizing c with
  | nil => rfl
  | cons b bs ih =>
    simp only [run, Catalog.addAll, ih, List.zipWith_cons_cons, List.flatten_cons]

end PulseTrain
