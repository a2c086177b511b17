import Determinize.NFA

/-!
# The sets that words lead to

Reading a word steps from closed set to closed set. `after` gives the set behind a whole word, also
behind one with characters that are no symbols, and `Reached` says which sets the words over the
alphabet lead to from the start.

Results:
* `acceptsFrom_iff`, `accepts_iff`: the early refusals agree with stepping to the end of the word;
* `Reached.after`, `reached_iff_after`: the reached sets are those behind the words over the
  alphabet.
-/
namespace Determinize.NFA

/-- The set that a word leads to from a set. -/
def after (m : NFA) (g : Graph) (S : StateSet) (w : List Char) : StateSet := w.foldl (m.step g) S

/-- Every character of the word is a symbol. -/
def Over (m : NFA) (w : List Char) : Prop := ∀ c ∈ w, c ∈ m.alphabet

instance (m : NFA) (w : List Char) : Decidable (m.Over w) := List.decidableBAll _ w

/-- The closed sets that are met by stepping from the start over the alphabet. -/
inductive Reached (m : NFA) (g : Graph) : StateSet → Prop
  | start {s : StateId} : m.start = some s → Reached m g (m.closed g s)
  | step {S : StateSet} {c : Char} : Reached m g S → c ∈ m.alphabet → Reached m g (m.step g S c)

variable {m : NFA} {g : Graph}

@[simp] theorem after_cons (S : StateSet) (c : Char) (w : List Char) :
    m.after g S (c :: w) = m.after g (m.step g S c) w := rfl

theorem after_empty (w : List Char) : m.after g ∅ w = ∅ := by
  induction w with
  | nil => rfl
  | cons c w ih => rw [after_cons, step_empty, ih]

@[simp] theorem over_nil : m.Over [] := fun _ h => absurd h List.not_mem_nil

@[simp] theorem over_cons {c : Char} {w : List Char} :
    m.Over (c :: w) ↔ c ∈ m.alphabet ∧ m.Over w := List.forall_mem_cons

theorem isAccepting_empty : g.isAccepting ∅ = false := by
  simp [Graph.isAccepting]

theorem acceptsFrom_iff {S : StateSet} {w : List Char} :
    m.acceptsFrom g S w = true ↔ m.Over w ∧ g.isAccepting (m.after g S w) = true := by
  induction w generalizing S with
  | nil => simp [acceptsFrom, after]
  | cons c w ih =>
    simp only [acceptsFrom, over_cons, after_cons]
    by_cases hc : c ∈ m.alphabet
    · by_cases hT : m.step g S c = ∅
      · simp [hc, hT, after_empty, isAccepting_empty]
      · simp [hc, hT, ih]
    · simp [hc]

theorem accepts_iff {word : String} :
    m.accepts g word = true ↔ ∃ s, m.start = some s ∧ m.Over word.toList ∧
      g.isAccepting (m.after g (m.closed g s) word.toList) = true := by
  unfold accepts
  cases m.start with
  | none => simp
  | some s => simp [acceptsFrom_iff]

theorem accepts_iff_after {s : StateId} (hs : m.start = some s) {word : String} :
    m.accepts g word = true ↔ m.Over word.toList ∧
      g.isAccepting (m.after g (m.closed g s) word.toList) = true := by
  rw [accepts_iff, hs]
  simp

/-! ## Reached sets -/

theorem Reached.after {S : StateSet} (h : m.Reached g S) {w : List Char} (hw : m.Over w) :
    m.Reached g (m.after g S w) := by
  induction w generalizing S with
  | nil => exact h
  | cons c w ih =>
    rw [over_cons] at hw
    exact ih (h.step hw.1) hw.2

theorem reached_iff_after {S : StateSet} :
    m.Reached g S ↔ ∃ s w, m.start = some s ∧ m.Over w ∧ m.after g (m.closed g s) w = S := by
  refine ⟨fun h => ?_, fun h => ?_⟩
  · induction h with
    | start hs => exact ⟨_, [], hs, over_nil, rfl⟩
    | @step S c _ hc ih =>
      obtain ⟨s, w, hs, hw, rfl⟩ := ih
      refine ⟨s, w ++ [c], hs, ?_, by simp [NFA.after]⟩
      intro d hd
      rcases List.mem_append.mp hd with hd | hd
      · exact hw d hd
      · rw [List.mem_singleton.mp hd]
        exact hc
  · obtain ⟨s, w, hs, hw, rfl⟩ := h
    exact (Reached.start hs).after hw

end Determinize.NFA
