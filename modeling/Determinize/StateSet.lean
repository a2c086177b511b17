/-!
# Finite sets of states

A state of a graph is named by its index. A set of states is kept as the number whose binary digits
are the set's membership tests, so two sets with the same members are equal as values and a set can
serve as a key.

Results:
* `ext`: sets with the same members are equal;
* `mem_union`, `mem_sdiff`, `mem_insert`, `mem_ofList`: membership after each operation;
* `mem_toList`, `nodup_toList`: the list of a set holds each member once;
* `bits_lt_iff`: a set of states below `n` is one of `1 <<< n` numbers.
-/
namespace Determinize

/-- The index of a state in its graph. -/
abbrev StateId := Nat

/-- A finite set of states; digit `i` of `bits` says whether state `i` is a member. -/
structure StateSet where
  bits : Nat
  deriving DecidableEq

namespace StateSet

instance : Membership StateId StateSet := ⟨fun s i => s.bits.testBit i = true⟩

instance (i : StateId) (s : StateSet) : Decidable (i ∈ s) :=
  inferInstanceAs (Decidable (s.bits.testBit i = true))

instance : EmptyCollection StateSet := ⟨⟨0⟩⟩

instance : Inhabited StateSet := ⟨∅⟩

instance : Insert StateId StateSet := ⟨fun i s => ⟨s.bits ||| 1 <<< i⟩⟩

instance : Singleton StateId StateSet := ⟨fun i => ⟨1 <<< i⟩⟩

instance : Union StateSet := ⟨fun s t => ⟨s.bits ||| t.bits⟩⟩

instance : SDiff StateSet := ⟨fun s t => ⟨(s.bits ||| t.bits) ^^^ t.bits⟩⟩

/-- The set without its largest member. -/
def dropMax (s : StateSet) : StateSet := ⟨s.bits ^^^ 1 <<< s.bits.log2⟩

theorem testBit_dropMax (s : StateSet) (i : Nat) :
    s.dropMax.bits.testBit i = (s.bits.testBit i ^^ decide (s.bits.log2 = i)) := by
  unfold dropMax
  rw [Nat.testBit_xor, Nat.one_shiftLeft, Nat.testBit_two_pow]

theorem testBit_of_log2_lt {n i : Nat} (h : n.log2 < i) : n.testBit i = false :=
  Nat.testBit_lt_two_pow (Nat.lt_of_lt_of_le (@Nat.lt_log2_self n)
    (Nat.pow_le_pow_right (show 0 < 2 by decide) h))

theorem dropMax_lt {s : StateSet} (h : s.bits ≠ 0) : s.dropMax.bits < s.bits := by
  refine Nat.lt_of_lt_of_le (Nat.lt_pow_two_of_testBit _ fun i hi => ?_) (Nat.log2_self_le h)
  rw [testBit_dropMax]
  rcases Nat.eq_or_lt_of_le hi with rfl | hi
  · simp [Nat.testBit_log2 h]
  · rw [testBit_of_log2_lt hi]
    simp [Nat.ne_of_lt hi]

/-- The members, the largest first. -/
def toList (s : StateSet) : List StateId :=
  if s.bits = 0 then [] else s.bits.log2 :: s.dropMax.toList
termination_by s.bits
decreasing_by exact dropMax_lt ‹_›

/-- The set of the members of a list. -/
def ofList (l : List StateId) : StateSet :=
  l.foldr (fun i s => insert i s) ∅

/-! ## Membership -/

theorem mem_def {i : StateId} {s : StateSet} : i ∈ s ↔ s.bits.testBit i = true := Iff.rfl

theorem ext {s t : StateSet} (h : ∀ i, i ∈ s ↔ i ∈ t) : s = t := by
  cases s with
  | mk a =>
    cases t with
    | mk b =>
      congr
      exact Nat.eq_of_testBit_eq fun i => Bool.eq_iff_iff.mpr (h i)

@[simp] theorem not_mem_empty (i : StateId) : i ∉ (∅ : StateSet) := by
  show ¬ (0 : Nat).testBit i = true
  simp

theorem mem_insert {i j : StateId} {s : StateSet} :
    i ∈ (insert j s : StateSet) ↔ i = j ∨ i ∈ s := by
  show (s.bits ||| 1 <<< j).testBit i = true ↔ i = j ∨ s.bits.testBit i = true
  rw [Nat.testBit_or, Nat.one_shiftLeft, Nat.testBit_two_pow,
    Bool.or_eq_true, decide_eq_true_eq, or_comm, eq_comm]

theorem mem_singleton {i j : StateId} : i ∈ ({j} : StateSet) ↔ i = j := by
  show (1 <<< j).testBit i = true ↔ i = j
  rw [Nat.one_shiftLeft, Nat.testBit_two_pow, decide_eq_true_eq, eq_comm]

theorem mem_union {i : StateId} {s t : StateSet} : i ∈ s ∪ t ↔ i ∈ s ∨ i ∈ t := by
  show (s.bits ||| t.bits).testBit i = true ↔ _
  rw [Nat.testBit_or, Bool.or_eq_true, mem_def, mem_def]

theorem mem_sdiff {i : StateId} {s t : StateSet} : i ∈ s \ t ↔ i ∈ s ∧ i ∉ t := by
  show ((s.bits ||| t.bits) ^^^ t.bits).testBit i = true ↔ _
  rw [Nat.testBit_xor, Nat.testBit_or, mem_def, mem_def]
  cases s.bits.testBit i <;> cases t.bits.testBit i <;> simp

theorem mem_ofList {i : StateId} {l : List StateId} : i ∈ ofList l ↔ i ∈ l := by
  induction l with
  | nil => simp [ofList]
  | cons j l ih =>
    show i ∈ (insert j (ofList l) : StateSet) ↔ i ∈ j :: l
    rw [mem_insert, ih, List.mem_cons]

theorem mem_dropMax {i : StateId} {s : StateSet} (h : s.bits ≠ 0) :
    i ∈ s ↔ i = s.bits.log2 ∨ i ∈ s.dropMax := by
  rw [mem_def, mem_def, testBit_dropMax]
  by_cases hi : s.bits.log2 = i
  · subst hi
    simp [Nat.testBit_log2 h]
  · have hi' : ¬ i = s.bits.log2 := fun he => hi he.symm
    simp [hi, hi']

theorem mem_toList {i : StateId} {s : StateSet} : i ∈ s.toList ↔ i ∈ s := by
  fun_induction toList s with
  | case1 s h =>
    rw [mem_def, h]
    simp
  | case2 s h ih => rw [List.mem_cons, ih, mem_dropMax h]

@[simp] theorem toList_empty : (∅ : StateSet).toList = [] := by
  rw [toList]
  exact if_pos rfl

theorem nodup_toList (s : StateSet) : s.toList.Nodup := by
  fun_induction toList s with
  | case1 s h => exact List.nodup_nil
  | case2 s h ih =>
    refine List.nodup_cons.mpr ⟨?_, ih⟩
    rw [mem_toList, mem_def, testBit_dropMax, Nat.testBit_log2 h]
    simp

theorem eq_empty_iff {s : StateSet} : s = ∅ ↔ ∀ i, i ∉ s := by
  refine ⟨fun h i => ?_, fun h => ?_⟩
  · subst h
    exact not_mem_empty i
  · exact ext fun i => ⟨fun hi => absurd hi (h i), fun hi => absurd hi (not_mem_empty i)⟩

theorem bits_lt_iff {s : StateSet} {n : Nat} : s.bits < 1 <<< n ↔ ∀ i ∈ s, i < n := by
  rw [Nat.one_shiftLeft]
  refine ⟨fun h i hi => ?_, fun h => ?_⟩
  · apply Nat.lt_of_not_le
    intro hle
    have hlt := Nat.lt_of_lt_of_le h (Nat.pow_le_pow_right (show 0 < 2 by decide) hle)
    rw [mem_def, Nat.testBit_lt_two_pow hlt] at hi
    cases hi
  · apply Nat.lt_pow_two_of_testBit
    intro i hi
    cases hb : s.bits.testBit i with
    | false => rfl
    | true => exact absurd (h i hb) (Nat.not_lt.mpr hi)

end StateSet

end Determinize
