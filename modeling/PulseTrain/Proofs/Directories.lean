import Mathlib.Data.List.Basic
import PulseTrain.Directory

/-!
# Directories by what is found in them

A directory is its keys in order and the value found under each of them.

* `Directory.isSome_find?_iff`, `Directory.find?_of_mem` and `Directory.mem_of_find?` say what is found:
  something under each key, every entry under its own, and nothing else.
* `Directory.eq_of_find?` says that nothing but keys and finds tells two directories apart.
* `Directory.entries_insert_of_new` and `Directory.foldl_enter` say where new keys go: each comes last
  when it is entered, so that the keys stand in the order of first entry.
* `Directory.find?_map` and `Directory.map_insert` go with a change of all values.
-/

namespace PulseTrain.Directory

variable {κ ν : Type} [DecidableEq κ]

/-- What is not a key has no value, and nothing else has none. -/
theorem seek_eq_none_iff {k : κ} {es : List (κ × ν)} :
    seek k es = none ↔ k ∉ es.map Prod.fst := by
  induction es with
  | nil => simp [seek]
  | cons e es ih =>
    rw [seek, List.map_cons, List.mem_cons]
    by_cases h : e.1 = k
    · simp [h]
    · rw [if_neg h, ih]
      simp [Ne.symm h]

/-- A key is what a value is found for. -/
theorem isSome_find?_iff {d : Directory κ ν} {k : κ} : (d.find? k).isSome ↔ k ∈ d.keys := by
  rw [Option.isSome_iff_ne_none, find?, Ne, seek_eq_none_iff, not_not, keys]

theorem mem_keys_of_find? {d : Directory κ ν} {k : κ} {v : ν} (h : d.find? k = some v) :
    k ∈ d.keys :=
  isSome_find?_iff.mp (Option.isSome_of_eq_some h)

/-- Keys are entered once, so every entry is found. -/
theorem seek_of_mem {e : κ × ν} {es : List (κ × ν)} (hnodup : (es.map Prod.fst).Nodup)
    (he : e ∈ es) : seek e.1 es = some e.2 := by
  induction es with
  | nil => cases he
  | cons first es ih =>
    rw [List.map_cons, List.nodup_cons] at hnodup
    -- No other entry has the key of the first, so a search for it stops there.
    rcases List.mem_cons.mp he with rfl | he
    · rw [seek, if_pos rfl]
    · have hne : first.1 ≠ e.1 := fun h => hnodup.1 (h ▸ List.mem_map_of_mem he)
      rw [seek, if_neg hne, ih hnodup.2 he]

/-- Every entry is found under its own key, since no other has that key. -/
theorem find?_of_mem {d : Directory κ ν} {e : κ × ν} (he : e ∈ d.entries) :
    d.find? e.1 = some e.2 :=
  seek_of_mem d.nodup_keys he

/-- What is found under a key is an entry. -/
theorem mem_of_find? {d : Directory κ ν} {k : κ} {v : ν} (h : d.find? k = some v) :
    (k, v) ∈ d.entries := by
  obtain ⟨e, he, rfl⟩ := List.mem_map.mp (mem_keys_of_find? h)
  obtain rfl : e.2 = v := Option.some.inj ((find?_of_mem he).symm.trans h)
  exact he

/-- Replacing a value keeps the keys. -/
theorem keys_insert_of_find? {d : Directory κ ν} {k : κ} {v : ν} (h : d.find? k = some v) (w : ν) :
    (d.insert k w).keys = d.keys := by
  rw [keys_insert, if_pos (mem_keys_of_find? h)]

/-- Entries with the same keys in the same order and the same values are equal. -/
theorem eq_of_seek {es es' : List (κ × ν)} (hnodup : (es.map Prod.fst).Nodup)
    (hkeys : es.map Prod.fst = es'.map Prod.fst) (h : ∀ k, seek k es = seek k es') : es = es' := by
  induction es generalizing es' with
  | nil =>
    cases es' with
    | nil => rfl
    | cons e' es' => cases hkeys
  | cons e es ih =>
    cases es' with
    | nil => cases hkeys
    | cons e' es' =>
      rw [List.map_cons, List.map_cons, List.cons.injEq] at hkeys
      rw [List.map_cons, List.nodup_cons] at hnodup
      -- The first key finds the first value in both lists.
      have hhead : e.2 = e'.2 := by
        have := h e.1
        rw [seek, seek, if_pos rfl, if_pos hkeys.1.symm] at this
        exact Option.some.inj this
      -- The first key is no key of the rest, so there it is found in neither.
      have htail : es = es' := by
        refine ih hnodup.2 hkeys.2 fun k => ?_
        by_cases hk : e.1 = k
        · subst hk
          rw [seek_eq_none_iff.mpr hnodup.1, seek_eq_none_iff.mpr (hkeys.2 ▸ hnodup.1)]
        · have := h k
          rwa [seek, seek, if_neg hk, if_neg (hkeys.1 ▸ hk)] at this
      rw [htail, Prod.ext hkeys.1 hhead]

/-- Directories with the same keys in the same order and the same values under them are equal. -/
theorem eq_of_find? {a b : Directory κ ν} (hkeys : a.keys = b.keys)
    (h : ∀ k, a.find? k = b.find? k) : a = b :=
  Directory.ext (eq_of_seek a.nodup_keys hkeys h)

/-! ## New keys

A key that is not known yet is entered at the end, and no other entry moves. -/

/-- A new key goes to the end. -/
theorem put_of_new {k : κ} {es : List (κ × ν)} (h : seek k es = none) (v : ν) :
    put k v es = es ++ [(k, v)] := by
  induction es with
  | nil => rfl
  | cons e es ih =>
    rw [seek] at h
    split at h
    · cases h
    · rename_i hne
      rw [put, if_neg hne, ih h, List.cons_append]

theorem entries_insert_of_new {d : Directory κ ν} {k : κ} (h : d.find? k = none) (v : ν) :
    (d.insert k v).entries = d.entries ++ [(k, v)] :=
  put_of_new h v

theorem length_keys_insert_of_new {d : Directory κ ν} {k : κ} (h : d.find? k = none) (v : ν) :
    (d.insert k v).keys.length = d.keys.length + 1 := by
  rw [keys, entries_insert_of_new h, List.length_map, List.length_append, keys, List.length_map]
  rfl

/-- The keys when `k` has been entered. -/
def enter (keys : List κ) (k : κ) : List κ :=
  if k ∈ keys then keys else keys ++ [k]

theorem enter_of_mem {keys : List κ} {k : κ} (h : k ∈ keys) : enter keys k = keys :=
  if_pos h

theorem removeAll_concat (xs keys : List κ) (k : κ) :
    xs.removeAll (keys ++ [k]) = (xs.removeAll keys).filter fun x => !x == k := by
  unfold List.removeAll
  rw [List.filter_filter]
  refine List.filter_congr fun x _ => ?_
  by_cases h : x = k <;> simp [h]

/-- Keys that are entered in turn come after those that were there, in the order in which they are
entered first. -/
theorem foldl_enter (keys xs : List κ) :
    xs.foldl enter keys = keys ++ (xs.removeAll keys).eraseDups := by
  induction xs generalizing keys with
  | nil => exact (List.append_nil keys).symm
  | cons x xs ih =>
    rw [List.foldl_cons, ih, List.cons_removeAll, enter]
    by_cases hknown : x ∈ keys
    · simp [hknown]
    -- A new key comes next, and does not count when it comes up again.
    · rw [if_neg hknown, if_pos (by simpa using hknown), List.eraseDups_cons, List.append_assoc,
        removeAll_concat]
      rfl

/-! ## Changing all values

A directory with every value changed finds what was found, changed. -/

/-- Changing all values changes what is found. -/
theorem find?_map (f : ν → ν) (d : Directory κ ν) (k : κ) :
    (d.map f).find? k = (d.find? k).map f := by
  show seek k (d.entries.map fun e => (e.1, f e.2)) = (seek k d.entries).map f
  induction d.entries with
  | nil => rfl
  | cons e es ih =>
    rw [List.map_cons, seek, seek, ih]
    split <;> rfl

/-- Entering a value where it stands already changes nothing. -/
theorem insert_of_find? {d : Directory κ ν} {k : κ} {v : ν} (h : d.find? k = some v) :
    d.insert k v = d := by
  refine eq_of_find? (keys_insert_of_find? h v) fun k' => ?_
  rw [find?_insert]
  split
  · rename_i hk
    rw [hk, h]
  · rfl

/-- It does not matter whether a value is changed before it is entered or afterwards. -/
theorem map_insert (f : ν → ν) (d : Directory κ ν) (k : κ) (v : ν) :
    (d.insert k v).map f = (d.map f).insert k (f v) := by
  refine eq_of_find? (by simp only [keys_map, keys_insert]) fun k' => ?_
  rw [find?_map, find?_insert, find?_insert, find?_map]
  split <;> rfl

end PulseTrain.Directory
