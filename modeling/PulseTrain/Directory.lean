/-!
# Directories

A directory holds one value for each of its keys and lists them in the order in which the keys were
first entered. Entering a key again replaces its value where it stands.

* `insert`, `find?` and `map` are the operations; `keys` and `values` the views.
* `keys_insert` says where a key goes, and `find?_insert` what is found afterwards.
-/

namespace PulseTrain

/-- Values by key, in the order of first entry. -/
structure Directory (κ ν : Type) where
  entries : List (κ × ν)
  nodup_keys : (entries.map Prod.fst).Nodup := by simp

namespace Directory

variable {κ ν : Type}

instance [DecidableEq κ] [DecidableEq ν] : DecidableEq (Directory κ ν) := fun a b =>
  if h : a.entries = b.entries then
    isTrue (by cases a; cases b; cases h; rfl)
  else isFalse fun e => h (e ▸ rfl)

/-- The directory without entries. -/
def empty : Directory κ ν where
  entries := []

instance : EmptyCollection (Directory κ ν) := ⟨empty⟩

/-- The keys in the order of first entry. -/
def keys (d : Directory κ ν) : List κ :=
  d.entries.map Prod.fst

/-- The values in the order of first entry of their keys. -/
def values (d : Directory κ ν) : List ν :=
  d.entries.map Prod.snd

@[ext] theorem ext {a b : Directory κ ν} (h : a.entries = b.entries) : a = b := by
  cases a; cases b; cases h; rfl

variable [DecidableEq κ]

/-- The value of the first entry for `k`. -/
def seek (k : κ) : List (κ × ν) → Option ν
  | [] => none
  | e :: es => if e.1 = k then some e.2 else seek k es

/-- The value of `k`. -/
def find? (d : Directory κ ν) (k : κ) : Option ν :=
  seek k d.entries

/-! ## Entering a value -/

/-- Replaces the value of `k`, or adds it at the end. -/
def put (k : κ) (v : ν) : List (κ × ν) → List (κ × ν)
  | [] => [(k, v)]
  | e :: es => if e.1 = k then (k, v) :: es else e :: put k v es

/-- Putting a key that is there already leaves the order of the keys alone; a new key goes last. -/
theorem map_fst_put (k : κ) (v : ν) (es : List (κ × ν)) :
    (put k v es).map Prod.fst
      = if k ∈ es.map Prod.fst then es.map Prod.fst else es.map Prod.fst ++ [k] := by
  induction es with
  | nil => rfl
  | cons e es ih =>
    rw [put]
    split
    -- The key is found here, and the rest is left alone.
    · rename_i h
      simp [h]
    · rename_i h
      rw [List.map_cons, ih, List.map_cons]
      have : k ≠ e.1 := fun hk => h hk.symm
      by_cases hk : k ∈ es.map Prod.fst <;> simp [hk, this]

/-- Enters `v` under `k`. -/
def insert (d : Directory κ ν) (k : κ) (v : ν) : Directory κ ν where
  entries := put k v d.entries
  nodup_keys := by
    rw [map_fst_put]
    split
    · exact d.nodup_keys
    · rename_i h
      rw [List.nodup_append]
      refine ⟨d.nodup_keys, by simp, fun a ha b hb => ?_⟩
      rw [List.mem_singleton] at hb
      rintro rfl
      exact h (hb ▸ ha)

/-- A key already known keeps its place; a new one comes last. -/
theorem keys_insert (d : Directory κ ν) (k : κ) (v : ν) :
    (d.insert k v).keys = if k ∈ d.keys then d.keys else d.keys ++ [k] :=
  map_fst_put k v d.entries

/-- Entering a value changes what is found under its key and nothing else. -/
theorem find?_insert (d : Directory κ ν) (k k' : κ) (v : ν) :
    (d.insert k v).find? k' = if k' = k then some v else d.find? k' := by
  simp only [find?, insert]
  induction d.entries with
  | nil => by_cases h : k' = k <;> simp [put, seek, h, Ne.symm]
  | cons e es ih =>
    rw [put]
    by_cases he : e.1 = k
    · subst he
      by_cases h : k' = e.1 <;> simp [seek, h, Ne.symm]
    · rw [if_neg he, seek, seek, ih]
      by_cases h : k' = k
      · subst h
        simp [he]
      · simp [h]

/-- The entries of a list, entered in turn: a repeated key keeps its first place and its last
value. -/
def ofList (es : List (κ × ν)) : Directory κ ν :=
  es.foldl (fun d e => d.insert e.1 e.2) empty

omit [DecidableEq κ] in
/-- Every value changed in place. -/
def map (f : ν → ν) (d : Directory κ ν) : Directory κ ν where
  entries := d.entries.map fun e => (e.1, f e.2)
  nodup_keys := by
    simpa [List.map_map, Function.comp_def] using d.nodup_keys

omit [DecidableEq κ] in
@[simp] theorem keys_map (f : ν → ν) (d : Directory κ ν) : (d.map f).keys = d.keys := by
  simp [keys, map, List.map_map, Function.comp_def]

end Directory

end PulseTrain
