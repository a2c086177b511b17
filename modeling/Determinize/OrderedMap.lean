/-!
# Maps that keep the order in which keys were first bound

`OrderedMap κ ν` is a finite map whose bindings are listed in the order in which their keys first
appeared. Binding a key again replaces its value and keeps its place, so two maps are equal exactly
when they list the same bindings in the same order.

Results:
* `get?_put`: what is found after a binding was put;
* `put_of_get?`: putting a binding again changes nothing;
* `keys_put`: a bound key keeps its place, a new key goes to the end;
* `mem_entries_iff`: the entries are exactly the bindings that can be found.
-/
namespace Determinize

/-- A finite map listed in order of first binding; no key is listed twice. -/
structure OrderedMap (κ ν : Type) where
  entries : List (κ × ν)
  nodup : (entries.map Prod.fst).Nodup
  deriving DecidableEq

namespace OrderedMap

variable {κ ν : Type}

/-! ## Lists of bindings -/

/-- The value that a list of bindings gives to `k`. -/
def lookup [DecidableEq κ] (k : κ) : List (κ × ν) → Option ν
  | [] => none
  | (k', v) :: rest => if k' = k then some v else lookup k rest

/-- Replaces the value of `k` in its place, or adds the binding at the end. -/
def rebind [DecidableEq κ] (k : κ) (v : ν) : List (κ × ν) → List (κ × ν)
  | [] => [(k, v)]
  | (k', v') :: rest => if k' = k then (k, v) :: rest else (k', v') :: rebind k v rest

theorem keys_rebind [DecidableEq κ] (k : κ) (v : ν) (es : List (κ × ν)) :
    (rebind k v es).map Prod.fst =
      if k ∈ es.map Prod.fst then es.map Prod.fst else es.map Prod.fst ++ [k] := by
  induction es with
  | nil => simp [rebind]
  | cons e rest ih =>
    obtain ⟨k', v'⟩ := e
    by_cases h : k' = k
    · simp [rebind, h]
    · have h' : ¬ k = k' := fun e => h e.symm
      simp only [rebind, h, if_false, List.map_cons, ih, List.mem_cons, h', false_or]
      split <;> simp

theorem nodup_rebind [DecidableEq κ] (k : κ) (v : ν) (es : List (κ × ν))
    (h : (es.map Prod.fst).Nodup) : ((rebind k v es).map Prod.fst).Nodup := by
  rw [keys_rebind]
  split
  · exact h
  · rename_i hk
    rw [List.nodup_append]
    refine ⟨h, by simp, ?_⟩
    intro a ha b hb
    rw [List.mem_singleton] at hb
    rintro rfl
    exact hk (hb ▸ ha)

theorem lookup_rebind [DecidableEq κ] (k j : κ) (v : ν) (es : List (κ × ν)) :
    lookup j (rebind k v es) = if k = j then some v else lookup j es := by
  induction es with
  | nil => simp [rebind, lookup]
  | cons e rest ih =>
    obtain ⟨k', v'⟩ := e
    by_cases h : k' = k
    · subst h
      by_cases hj : k' = j <;> simp [rebind, lookup, hj]
    · simp only [rebind, h, if_false, lookup, ih]
      by_cases hj : k' = j
      · subst hj
        have h' : ¬ k = k' := fun e => h e.symm
        simp [h']
      · simp [hj]

theorem rebind_of_lookup [DecidableEq κ] {k : κ} {v : ν} {es : List (κ × ν)}
    (h : lookup k es = some v) : rebind k v es = es := by
  induction es with
  | nil => cases h
  | cons e rest ih =>
    obtain ⟨k', v'⟩ := e
    simp only [lookup] at h
    simp only [rebind]
    split at h
    · rename_i hk
      cases h
      rw [if_pos hk, hk]
    · rename_i hk
      rw [if_neg hk, ih h]

theorem mem_of_lookup [DecidableEq κ] {k : κ} {v : ν} {es : List (κ × ν)}
    (h : lookup k es = some v) : (k, v) ∈ es := by
  induction es with
  | nil => cases h
  | cons e rest ih =>
    obtain ⟨k', v'⟩ := e
    simp only [lookup] at h
    split at h
    · rename_i hk
      cases h
      simp [hk]
    · exact List.mem_cons_of_mem _ (ih h)

theorem lookup_of_mem [DecidableEq κ] {k : κ} {v : ν} {es : List (κ × ν)}
    (hn : (es.map Prod.fst).Nodup) (h : (k, v) ∈ es) : lookup k es = some v := by
  induction es with
  | nil => cases h
  | cons e rest ih =>
    obtain ⟨k', v'⟩ := e
    simp only [List.map_cons, List.nodup_cons] at hn
    rcases List.mem_cons.mp h with h | h
    · cases h
      simp [lookup]
    · have hk : k' ≠ k := by
        rintro rfl
        exact hn.1 (List.mem_map.mpr ⟨_, h, rfl⟩)
      simp only [lookup, hk, if_false]
      exact ih hn.2 h

/-! ## The map and its operations -/

/-- The map without bindings. -/
def empty : OrderedMap κ ν := ⟨[], by simp⟩

instance : EmptyCollection (OrderedMap κ ν) := ⟨empty⟩

/-- The keys in order of first binding. -/
def keys (m : OrderedMap κ ν) : List κ := m.entries.map Prod.fst

/-- The values in the order of their keys. -/
def values (m : OrderedMap κ ν) : List ν := m.entries.map Prod.snd

/-- The number of keys. -/
def size (m : OrderedMap κ ν) : Nat := m.entries.length

instance : Membership κ (OrderedMap κ ν) := ⟨fun m k => k ∈ m.keys⟩

theorem nodup_keys (m : OrderedMap κ ν) : m.keys.Nodup := m.nodup

theorem mem_def {k : κ} {m : OrderedMap κ ν} : k ∈ m ↔ k ∈ m.keys := Iff.rfl

@[simp] theorem length_keys (m : OrderedMap κ ν) : m.keys.length = m.size := by
  simp [keys, size]

variable [DecidableEq κ]

/-- The value bound to `k`. -/
def get? (m : OrderedMap κ ν) (k : κ) : Option ν := lookup k m.entries

/-- Binds `k` to `v`, in the place of `k` if it has one, else at the end. -/
def put (m : OrderedMap κ ν) (k : κ) (v : ν) : OrderedMap κ ν :=
  ⟨rebind k v m.entries, nodup_rebind k v m.entries m.nodup⟩

/-- Puts the bindings of a list one after the other. -/
def ofList (es : List (κ × ν)) : OrderedMap κ ν :=
  es.foldl (fun m e => m.put e.1 e.2) empty

instance (k : κ) (m : OrderedMap κ ν) : Decidable (k ∈ m) :=
  inferInstanceAs (Decidable (k ∈ m.keys))

/-! ## What each operation does to the view -/

@[simp] theorem get?_empty (k : κ) : (∅ : OrderedMap κ ν).get? k = none := rfl

theorem get?_put (m : OrderedMap κ ν) (k j : κ) (v : ν) :
    (m.put k v).get? j = if k = j then some v else m.get? j :=
  lookup_rebind k j v m.entries

/-- Putting a binding that is there changes nothing. -/
theorem put_of_get? {m : OrderedMap κ ν} {k : κ} {v : ν} (h : m.get? k = some v) :
    m.put k v = m := by
  obtain ⟨es, hn⟩ := m
  have he : rebind k v es = es := rebind_of_lookup h
  simp only [put, he]

theorem keys_put (m : OrderedMap κ ν) (k : κ) (v : ν) :
    (m.put k v).keys = if k ∈ m then m.keys else m.keys ++ [k] :=
  keys_rebind k v m.entries

theorem mem_entries_iff {m : OrderedMap κ ν} {k : κ} {v : ν} :
    (k, v) ∈ m.entries ↔ m.get? k = some v :=
  ⟨lookup_of_mem m.nodup, mem_of_lookup⟩

theorem mem_iff_get?_isSome {m : OrderedMap κ ν} {k : κ} : k ∈ m ↔ (m.get? k).isSome = true := by
  rw [mem_def, keys, List.mem_map, Option.isSome_iff_exists]
  refine ⟨fun h => ?_, fun h => ?_⟩
  · obtain ⟨⟨k', v⟩, h, rfl⟩ := h
    exact ⟨v, mem_entries_iff.mp h⟩
  · obtain ⟨v, h⟩ := h
    exact ⟨(k, v), mem_entries_iff.mpr h, rfl⟩

theorem get?_eq_none_iff {m : OrderedMap κ ν} {k : κ} : m.get? k = none ↔ k ∉ m := by
  rw [mem_iff_get?_isSome]
  cases m.get? k <;> simp

theorem mem_put {m : OrderedMap κ ν} {k j : κ} {v : ν} : j ∈ m.put k v ↔ j = k ∨ j ∈ m := by
  rw [mem_iff_get?_isSome, mem_iff_get?_isSome, get?_put]
  by_cases h : k = j
  · simp [h]
  · have h' : ¬ j = k := fun e => h e.symm
    simp [h, h']

end OrderedMap

end Determinize
