import PulseTrain.Proofs.Directories
import PulseTrain.Proofs.Names

/-!
# What a catalog defines stays defined

A catalog hands out names one after the other: for one state by itself the name of that state, for
several holds the next number. A name that is handed out for a new waveform has not been handed out
before, so entering the waveform replaces no other: the waveforms so far keep their places and their
samples, and the new one comes last.

* `Catalog.Sound` is the invariant, kept by every naming (`Catalog.Sound.answer`).
* `Catalog.Grows` says what a naming adds to a catalog (`Catalog.Sound.grows_answer`), and
  `Catalog.Sound.answers` carries both through namings in turn.
* `Catalog.orderly_answers` is the result, for all that can be asked of an empty catalog.
-/

namespace PulseTrain

namespace Catalog

/-! ## The invariant -/

/-- Every plain waveform goes by the name of its state and holds it for a quantum, and every name in
use is one that was handed out. -/
structure Sound (quantum width : Nat) (c : Catalog) : Prop where
  plain : ∀ s name, c.plain.find? s = some name →
    s.width = width ∧ name = s.waveformName
      ∧ c.waveforms.find? name = some (List.replicate quantum s)
  known : ∀ name, c.waveforms.find? name ≠ none →
    (∃ s, c.plain.find? s = some name) ∨ ∃ n < c.fused, name = fusedName n

/-- With nothing in the catalog, nothing in it is wrong. -/
theorem sound_empty (quantum width : Nat) : Sound quantum width {} where
  plain _ _ h := by cases h
  known _ h := absurd rfl h

/-- Everything defined in `c` is defined in `c'` in the same way. -/
def Keeps (c c' : Catalog) : Prop :=
  ∀ name samples, c.waveforms.find? name = some samples →
    c'.waveforms.find? name = some samples

theorem Keeps.refl (c : Catalog) : Keeps c c := fun _ _ h => h

variable {quantum width : Nat} {c : Catalog}

/-- A state that has no waveform yet gets a name that is not in use. -/
theorem Sound.find?_waveformName (hc : Sound quantum width c) {s : Levels} (hs : s.width = width)
    (hnew : c.plain.find? s = none) : c.waveforms.find? s.waveformName = none := by
  by_contra hused
  rcases hc.known _ hused with ⟨t, ht⟩ | ⟨n, -, hn⟩
  · obtain ⟨hwidth, hname, -⟩ := hc.plain t _ ht
    have hst : s = t := Levels.waveformName_inj (hs.trans hwidth.symm) hname
    rw [hst, ht] at hnew
    cases hnew
  · exact waveformName_ne_fusedName s n hn

/-- The next number gives a name that is not in use. -/
theorem Sound.find?_fusedName (hc : Sound quantum width c) :
    c.waveforms.find? (fusedName c.fused) = none := by
  by_contra hused
  rcases hc.known _ hused with ⟨t, ht⟩ | ⟨n, hlt, hn⟩
  · exact waveformName_ne_fusedName t c.fused (hc.plain t _ ht).2.1.symm
  · have := fusedName_injective hn
    omega

/-- Entering a waveform under a name that is not in use keeps all others. -/
theorem find?_insert_of_new {ws : Waveforms} {name other : String} {samples new : List Levels}
    (hnew : ws.find? name = none) (hother : ws.find? other = some samples) :
    (ws.insert name new).find? other = some samples := by
  rw [Directory.find?_insert, if_neg, hother]
  rintro rfl
  rw [hnew] at hother
  cases hother

/-! ## One naming -/

/-- A plain waveform is found under its name afterwards, and nothing is lost. -/
theorem Sound.addPlain (hc : Sound quantum width c) {s : Levels} (hs : s.width = width) :
    Sound quantum width (c.addPlain quantum s).2 ∧ Keeps c (c.addPlain quantum s).2
      ∧ (c.addPlain quantum s).2.waveforms.find? (c.addPlain quantum s).1
          = some (List.replicate quantum s) := by
  unfold Catalog.addPlain
  cases hfind : c.plain.find? s with
  | some name => exact ⟨hc, Keeps.refl c, (hc.plain s name hfind).2.2⟩
  | none =>
    -- A state without a name gets one that no waveform has.
    have hnew := hc.find?_waveformName hs hfind
    -- `t` may be the state just entered, or one from before; so may `name`.
    refine ⟨⟨fun t name ht => ?_, fun name hused => ?_⟩,
      fun other samples h => find?_insert_of_new hnew h, ?_⟩
    · simp only [Directory.find?_insert] at ht
      split at ht
      · rename_i hts
        cases ht
        exact ⟨hts ▸ hs, by rw [hts], by simp [Directory.find?_insert, hts]⟩
      · obtain ⟨hwidth, hname, hsamples⟩ := hc.plain t name ht
        exact ⟨hwidth, hname, find?_insert_of_new hnew hsamples⟩
    · simp only [Directory.find?_insert] at hused
      split at hused
      · rename_i hname
        exact .inl ⟨s, by simp [Directory.find?_insert, hname]⟩
      · rcases hc.known name hused with ⟨t, ht⟩ | hfused
        · refine .inl ⟨t, ?_⟩
          simp only [Directory.find?_insert]
          rw [if_neg, ht]
          rintro rfl
          rw [hfind] at ht
          cases ht
        · exact .inr hfused
    · simp [Directory.find?_insert]

/-- So is a fused one, whose number is new. -/
theorem Sound.addFused (hc : Sound quantum width c) (holds : List Hold) :
    Sound quantum width (c.addFused quantum holds).2 ∧ Keeps c (c.addFused quantum holds).2
      ∧ (c.addFused quantum holds).2.waveforms.find? (c.addFused quantum holds).1
          = some (Hold.unroll quantum holds) := by
  -- Fused waveforms are numbered on, so the name is new.
  have hnew := hc.find?_fusedName
  unfold Catalog.addFused
  refine ⟨⟨fun t name ht => ?_, fun name hused => ?_⟩,
    fun other samples h => find?_insert_of_new hnew h, ?_⟩
  · obtain ⟨hwidth, hname, hsamples⟩ := hc.plain t name ht
    exact ⟨hwidth, hname, find?_insert_of_new hnew hsamples⟩
  · simp only [Directory.find?_insert] at hused
    split at hused
    · rename_i hname
      exact .inr ⟨c.fused, Nat.lt_succ_self _, hname⟩
    · rcases hc.known name hused with hplain | ⟨n, hlt, hn⟩
      · exact .inl hplain
      · exact .inr ⟨n, Nat.lt_succ_of_lt hlt, hn⟩
  · simp [Directory.find?_insert]

/-! ## Namings

A name is asked for in one of two ways, and the two may come in any order. -/

/-- What a name is asked for: one state by itself, or several holds. -/
inductive Naming where
  | plain (state : Levels)
  | fused (holds : List Hold)
deriving DecidableEq, Repr

namespace Naming

/-- The samples of the waveform that is named. -/
def samples (quantum : Nat) : Naming → List Levels
  | plain s => List.replicate quantum s
  | fused holds => Hold.unroll quantum holds

/-- The state that is named by itself. -/
def state? : Naming → Option Levels
  | plain s => some s
  | fused _ => none

end Naming

/-- The name that is handed out, and the catalog afterwards. -/
def answer (quantum : Nat) (c : Catalog) : Naming → String × Catalog
  | .plain s => c.addPlain quantum s
  | .fused holds => c.addFused quantum holds

/-- Samples are found under the name that they are given, and all waveforms so far stay as they
were. -/
theorem Sound.answer (hc : Sound quantum width c) {n : Naming}
    (hn : ∀ s ∈ n.state?, s.width = width) :
    Sound quantum width (c.answer quantum n).2 ∧ Keeps c (c.answer quantum n).2
      ∧ (c.answer quantum n).2.waveforms.find? (c.answer quantum n).1
          = some (n.samples quantum) := by
  cases n with
  | plain s => exact hc.addPlain (hn s rfl)
  | fused holds => exact hc.addFused holds

/-- A state by itself goes by its own name, and uses up no number. -/
theorem Sound.addPlain_eq (hc : Sound quantum width c) (s : Levels) :
    (c.addPlain quantum s).1 = s.waveformName ∧ (c.addPlain quantum s).2.fused = c.fused := by
  unfold Catalog.addPlain
  cases hfind : c.plain.find? s with
  | some name => exact ⟨(hc.plain _ name hfind).2.1, rfl⟩
  | none => exact ⟨rfl, rfl⟩

/-! ## What namings add -/

/-- What has become of `c` when `names` were handed out for `ns`. -/
structure Grows (c : Catalog) (ns : List Naming) (names : List String) (c' : Catalog) : Prop where
  /-- Waveforms are only added, and only at the end. -/
  entries : c.waveforms.entries <+: c'.waveforms.entries
  keys : c'.waveforms.keys = names.foldl Directory.enter c.waveforms.keys
  states : c'.plain.keys = (ns.filterMap Naming.state?).foldl Directory.enter c.plain.keys
  fused : c'.fused = c.fused + ns.countP fun n => n.state?.isNone
  /-- There is one more waveform for each new state and for each number used up. -/
  count : c'.waveforms.keys.length + (c.plain.keys.length + c.fused)
    = c.waveforms.keys.length + (c'.plain.keys.length + c'.fused)

/-- Without requests nothing grows. -/
theorem Grows.refl (c : Catalog) : Grows c [] [] c where
  entries := List.prefix_refl _
  keys := rfl
  states := rfl
  fused := rfl
  count := rfl

/-- Requests in two parts grow a catalog by both. -/
theorem Grows.trans {a b c : Catalog} {ns ns' : List Naming} {names names' : List String}
    (hab : Grows a ns names b) (hbc : Grows b ns' names' c) :
    Grows a (ns ++ ns') (names ++ names') c where
  entries := hab.entries.trans hbc.entries
  keys := by rw [hbc.keys, hab.keys, List.foldl_append]
  states := by rw [hbc.states, hab.states, List.filterMap_append, List.foldl_append]
  fused := by rw [hbc.fused, hab.fused, List.countP_append, Nat.add_assoc]
  count := by
    have hfirst := hab.count
    have hsecond := hbc.count
    omega

/-- What has its place is found. -/
theorem Grows.keeps {c' : Catalog} {ns : List Naming} {names : List String}
    (h : Grows c ns names c') : Keeps c c' := fun _ _ hfind =>
  Directory.find?_of_mem (h.entries.subset (Directory.mem_of_find? hfind))

/-- One request grows a catalog by its answer. -/
theorem Sound.grows_answer (hc : Sound quantum width c) {n : Naming}
    (hn : ∀ s ∈ n.state?, s.width = width) :
    Grows c [n] [(c.answer quantum n).1] (c.answer quantum n).2 := by
  cases n with
  | plain s =>
    simp only [Catalog.answer, Catalog.addPlain]
    cases hfind : c.plain.find? s with
    | some name =>
      -- A state that has its name already enters nothing.
      have hused := Directory.mem_keys_of_find? (hc.plain s name hfind).2.2
      exact {
        entries := List.prefix_refl _
        keys := (Directory.enter_of_mem hused).symm
        states := (Directory.enter_of_mem (Directory.mem_keys_of_find? hfind)).symm
        fused := rfl
        count := rfl }
    | none =>
      have hnew := hc.find?_waveformName (hn s rfl) hfind
      exact {
        entries := by
          rw [Directory.entries_insert_of_new hnew]
          exact List.prefix_append _ _
        keys := Directory.keys_insert _ _ _
        states := Directory.keys_insert _ _ _
        fused := rfl
        count := by
          simp only [Directory.length_keys_insert_of_new hnew,
            Directory.length_keys_insert_of_new hfind]
          omega }
  | fused holds =>
    have hnew := hc.find?_fusedName
    exact {
      entries := by
        show _ <+: (c.waveforms.insert (fusedName c.fused) _).entries
        rw [Directory.entries_insert_of_new hnew]
        exact List.prefix_append _ _
      keys := Directory.keys_insert _ _ _
      states := rfl
      fused := rfl
      count := by
        simp only [Catalog.answer, Catalog.addFused, Directory.length_keys_insert_of_new hnew]
        omega }

/-! ## Namings in turn -/

/-- The names that are handed out in turn, and the catalog afterwards. -/
def answers (quantum : Nat) (c : Catalog) : List Naming → List String × Catalog
  | [] => ([], c)
  | n :: ns =>
    let (name, named) := c.answer quantum n
    let (names, last) := answers quantum named ns
    (name :: names, last)

/-- Requests in two parts are answered in two parts. -/
theorem answers_append (quantum : Nat) (c : Catalog) (ns ns' : List Naming) :
    c.answers quantum (ns ++ ns')
      = ((c.answers quantum ns).1 ++ ((c.answers quantum ns).2.answers quantum ns').1,
        ((c.answers quantum ns).2.answers quantum ns').2) := by
  induction ns generalizing c with
  | nil => rfl
  | cons n ns ih =>
    simp only [List.cons_append, answers, ih]

/-- Every request is answered. -/
theorem length_answers (quantum : Nat) (c : Catalog) (ns : List Naming) :
    (c.answers quantum ns).1.length = ns.length := by
  induction ns generalizing c with
  | nil => rfl
  | cons n ns ih => simp only [answers, List.length_cons, ih]

/-- Later requests do not change earlier answers. -/
theorem take_answers (quantum : Nat) (c : Catalog) (ns : List Naming) (i : Nat) :
    (c.answers quantum (ns.take i)).1 = (c.answers quantum ns).1.take i := by
  induction ns generalizing c i with
  | nil => simp [answers]
  | cons n ns ih =>
    cases i with
    | zero => rfl
    | succ i => simp only [List.take_succ_cons, answers, ih]

/-- Number `i` is answered by the catalog that the namings before it leave. -/
theorem getElem?_answers (quantum : Nat) (c : Catalog) {ns : List Naming} {i : Nat} {n : Naming}
    (hn : ns[i]? = some n) :
    (c.answers quantum ns).1[i]? = some ((c.answers quantum (ns.take i)).2.answer quantum n).1
      ∧ (c.answers quantum (ns.take (i + 1))).2
          = ((c.answers quantum (ns.take i)).2.answer quantum n).2 := by
  -- By induction on the namings: the rest are answered by the catalog the first one leaves.
  induction ns generalizing c i with
  | nil => cases hn
  | cons first ns ih =>
    cases i with
    | zero =>
      obtain rfl : first = n := by simpa using hn
      exact ⟨rfl, rfl⟩
    | succ i => exact ih _ hn

/-- What one naming does, namings in turn do. -/
theorem Sound.answers {ns : List Naming} (hc : Sound quantum width c)
    (hns : ∀ n ∈ ns, ∀ s ∈ n.state?, s.width = width) :
    Sound quantum width (c.answers quantum ns).2
      ∧ Grows c ns (c.answers quantum ns).1 (c.answers quantum ns).2 := by
  induction ns generalizing c with
  | nil => exact ⟨hc, Grows.refl c⟩
  | cons n ns ih =>
    have hn := hns n List.mem_cons_self
    obtain ⟨hlast, hrest⟩ := ih (hc.answer hn).1 fun m hm => hns m (List.mem_cons_of_mem n hm)
    exact ⟨hlast, (hc.grows_answer hn).trans hrest⟩

/-! ## The result

What an empty catalog is asked for, and what has become of it. -/

/-- The names that are handed out for `ns`. -/
def names (quantum : Nat) (ns : List Naming) : List String :=
  (answers quantum {} ns).1

/-- The catalog after `ns`. -/
def after (quantum : Nat) (ns : List Naming) : Catalog :=
  (answers quantum {} ns).2

section After

variable {ns : List Naming} {i : Nat} {n : Naming}

/-- The answer to request number `i` is what the catalog after those before it answers. -/
theorem getElem?_names (quantum : Nat) (hn : ns[i]? = some n) :
    (names quantum ns)[i]? = some ((after quantum (ns.take i)).answer quantum n).1 :=
  (getElem?_answers quantum {} hn).1

theorem after_take_succ (quantum : Nat) (hn : ns[i]? = some n) :
    after quantum (ns.take (i + 1)) = ((after quantum (ns.take i)).answer quantum n).2 :=
  (getElem?_answers quantum {} hn).2

variable (h : ∀ n ∈ ns, ∀ s ∈ n.state?, s.width = width)
include h

theorem sound_after : Sound quantum width (after quantum ns) :=
  ((sound_empty quantum width).answers h).1

/-- The names that are handed out are those of the requests. -/
theorem grows_after : Grows {} ns (names quantum ns) (after quantum ns) :=
  ((sound_empty quantum width).answers h).2

theorem sound_after_take (i : Nat) : Sound quantum width (after quantum (ns.take i)) :=
  sound_after fun n hn => h n (List.mem_of_mem_take hn)

/-- What is defined is what was handed out, in the order in which it was first. -/
theorem keys_after : (after quantum ns).waveforms.keys = (names quantum ns).eraseDups := by
  rw [(grows_after h).keys, Directory.foldl_enter]
  exact congrArg List.eraseDups List.removeAll_nil

/-- A name is defined exactly if it was handed out. -/
theorem isSome_find?_after_iff {name : String} :
    ((after quantum ns).waveforms.find? name).isSome ↔ name ∈ names quantum ns := by
  rw [Directory.isSome_find?_iff, keys_after h, List.mem_eraseDups]

/-- There is one waveform for each state, and one for every fused request. -/
theorem length_keys_after :
    (after quantum ns).waveforms.keys.length
      = (ns.filterMap Naming.state?).eraseDups.length + ns.countP fun n => n.state?.isNone := by
  have hgrows : Grows {} ns (names quantum ns) (after quantum ns) := grows_after h
  have hstates : (after quantum ns).plain.keys = (ns.filterMap Naming.state?).eraseDups := by
    rw [hgrows.states, Directory.foldl_enter]
    exact congrArg List.eraseDups List.removeAll_nil
  -- Every waveform is either plain or fused, so the two counts add up.
  calc (after quantum ns).waveforms.keys.length
    _ = (after quantum ns).plain.keys.length + (after quantum ns).fused := by
      have hcount := hgrows.count
      have hplain : ({} : Catalog).plain.keys = [] := rfl
      have hwaveforms : ({} : Catalog).waveforms.keys = [] := rfl
      simpa [hplain, hwaveforms] using hcount
    _ = _ := by rw [hstates, hgrows.fused, Nat.zero_add]

/-- A plain waveform is named by its state. -/
theorem getElem?_names_of_plain {s : Levels} (hs : ns[i]? = some (.plain s)) :
    (names quantum ns)[i]? = some s.waveformName := by
  have hsound : Sound quantum width (after quantum (ns.take i)) := sound_after_take h i
  rw [getElem?_names quantum hs]
  exact congrArg some (hsound.addPlain_eq s).1

/-- A number is not in use when it comes up, and all that was handed out before it is. -/
theorem notMem_take_names_of_fused {holds : List Hold} {name : String}
    (hn : ns[i]? = some (.fused holds)) (hname : (names quantum ns)[i]? = some name) :
    name ∉ (names quantum ns).take i := by
  intro hmem
  have hsound : Sound quantum width (after quantum (ns.take i)) := sound_after_take h i
  -- A fused name is new when it is given, and so not among the names given before.
  have hnew := hsound.find?_fusedName
  obtain rfl : fusedName (after quantum (ns.take i)).fused = name :=
    Option.some.inj ((getElem?_names quantum hn).symm.trans hname)
  rw [names, ← take_answers, ← names,
    ← isSome_find?_after_iff fun n hn => h n (List.mem_of_mem_take hn), hnew] at hmem
  cases hmem

/-- The waveforms that are defined first stay in place, whatever is named after them. -/
theorem prefix_after_take {j k : Nat} (hjk : j ≤ k) :
    (after quantum (ns.take j)).waveforms.entries
      <+: (after quantum (ns.take k)).waveforms.entries := by
  obtain ⟨later, hlater⟩ : ns.take j <+: ns.take k := List.take_prefix_take_left hjk
  have hwidth : ∀ n ∈ later, ∀ s ∈ n.state?, s.width = width := fun n hn =>
    h n (List.mem_of_mem_take (hlater ▸ List.mem_append_right _ hn))
  have hsound : Sound quantum width (after quantum (ns.take j)) := sound_after_take h j
  have hgrows := (hsound.answers hwidth).2
  have happend := congrArg Prod.snd (answers_append quantum {} (ns.take j) later)
  rw [hlater] at happend
  rw [after, after, happend]
  exact hgrows.entries

/-- A waveform keeps its place and its samples through all later requests. -/
theorem exists_place (hn : ns[i]? = some n) :
    ∃ (name : String) (place : Nat), (names quantum ns)[i]? = some name ∧ ∀ k, i < k →
      (after quantum (ns.take k)).waveforms.entries[place]? = some (name, n.samples quantum) := by
  have hsound : Sound quantum width (after quantum (ns.take i)) := sound_after_take h i
  have hfound := (hsound.answer (h n (List.mem_of_getElem? hn))).2.2
  rw [← after_take_succ quantum hn] at hfound
  obtain ⟨place, hplace⟩ := List.mem_iff_getElem?.mp (Directory.mem_of_find? hfound)
  refine ⟨_, place, getElem?_names quantum hn, fun k hk => ?_⟩
  -- What stands in a place right after the naming stands there after any number `k` of them.
  have hprefix : (after quantum (ns.take (i + 1))).waveforms.entries
      <+: (after quantum (ns.take k)).waveforms.entries := prefix_after_take h hk
  obtain ⟨later, hlater⟩ := hprefix
  obtain ⟨hlt, -⟩ := List.getElem?_eq_some_iff.mp hplace
  rw [← hlater, List.getElem?_append_left hlt]
  exact hplace

end After

/-- What can be relied on when an empty catalog is asked for `ns`. -/
structure Orderly (quantum : Nat) (ns : List Naming) : Prop where
  length : (names quantum ns).length = ns.length
  /-- States by themselves share a name exactly if they are equal. -/
  shared : ∀ (i j : Nat) (s t : Levels), ns[i]? = some (.plain s) → ns[j]? = some (.plain t) →
    ((names quantum ns)[i]? = (names quantum ns)[j]? ↔ s = t)
  /-- For several holds a name is handed out that was not handed out before. -/
  fresh : ∀ (i : Nat) (holds : List Hold) (name : String), ns[i]? = some (.fused holds) →
    (names quantum ns)[i]? = some name → name ∉ (names quantum ns).take i
  /-- Once it is handed out, a name has its place and its samples, whatever is named later. -/
  kept : ∀ (i : Nat) (n : Naming), ns[i]? = some n →
    ∃ (name : String) (place : Nat), (names quantum ns)[i]? = some name ∧ ∀ k, i < k →
      (after quantum (ns.take k)).waveforms.entries[place]? = some (name, n.samples quantum)
  /-- What is defined is what was handed out, in the order in which it was handed out first. -/
  ordered : (after quantum ns).waveforms.keys = (names quantum ns).eraseDups
  /-- There is one waveform for each state that was named by itself, and one for each time that
  several holds were named. -/
  counted : (after quantum ns).waveforms.keys.length
    = (ns.filterMap Naming.state?).eraseDups.length + ns.countP fun n => n.state?.isNone

/-- **Names are handed out in order.** Whatever a catalog is asked for, and in whatever order, it
shares a name exactly where a state by itself comes up again, and what it has defined it does not
touch. Only the states that are named by themselves need to have one width. -/
theorem orderly_answers {ns : List Naming} (h : ∀ n ∈ ns, ∀ s ∈ n.state?, s.width = width) :
    Orderly quantum ns where
  length := length_answers quantum {} ns
  shared i j s t hs ht := by
    have hwidth : s.width = t.width := by
      rw [h _ (List.mem_of_getElem? hs) s rfl, h _ (List.mem_of_getElem? ht) t rfl]
    rw [getElem?_names_of_plain h hs, getElem?_names_of_plain h ht, Option.some.injEq]
    exact ⟨Levels.waveformName_inj hwidth, congrArg Levels.waveformName⟩
  fresh _ _ _ hn hname := notMem_take_names_of_fused h hn hname
  kept _ _ hn := exists_place h hn
  ordered := keys_after h
  counted := length_keys_after h

/-- Two states, one of them twice, and the same holds twice. -/
def mingled : List Naming :=
  let high : Levels := ⟨[true, false]⟩
  let low : Levels := ⟨[false, false]⟩
  let holds : List Hold := [⟨high, 2⟩, ⟨low, 4⟩]
  [.plain high, .fused holds, .plain low, .plain high, .fused holds]

/-- Plain and fused requests, mingled. -/
theorem orderly_mingled :
    (∀ n ∈ mingled, ∀ s ∈ n.state?, s.width = 2) ∧ Orderly 2 mingled :=
  have hwidth : ∀ n ∈ mingled, ∀ s ∈ n.state?, s.width = 2 := by decide
  ⟨hwidth, orderly_answers hwidth⟩

example : names 2 mingled = ["w1", "c0", "w0", "w1", "c1"] := by decide +kernel

end Catalog

end PulseTrain
