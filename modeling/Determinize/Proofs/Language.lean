import Determinize.Proofs.Naming

/-!
# The language of a conversion

A nondeterministic automaton and the deterministic one that it is converted to accept the same
words, unless the conversion merges the empty set with that of a final state with the empty name.
Then the deterministic automaton accepts also the words over the alphabet that lead to no state.

Results:
* `accepts_toDFA_iff_or`, `accepts_toDFA_ne_iff`: the accepted words and the exception;
* `toDFA_language`: when a conversion fails, and the language of its result.
-/
namespace Determinize.NFA

variable {m : NFA} {g : Graph} {s : StateId}

theorem isAccepting_singleton {q : StateId} : g.isAccepting {q} = true ↔ g.isFinal q = true := by
  rw [Graph.isAccepting_iff]
  refine ⟨fun ⟨r, hr, hf⟩ => ?_, fun hf => ⟨q, StateSet.mem_singleton.mpr rfl, hf⟩⟩
  rw [StateSet.mem_singleton] at hr
  exact hr ▸ hf

/-- A word after which no state is left is refused. -/
theorem accepts_of_after_empty (hs : m.start = some s) {word : String}
    (h : m.after g (m.closed g s) word.toList = ∅) : m.accepts g word = false := by
  rw [Bool.eq_false_iff]
  intro ha
  have hacc := ((accepts_iff_after hs).mp ha).2
  rw [h, isAccepting_empty] at hacc
  cases hacc

/-- What the merged pair adds to the language. -/
theorem accepts_toDFA_iff_or (h : Inv false g m) (hs : m.start = some s) {d : DFA}
    (hd : m.toDFA g = .ok d) (word : String) : d.accepts word = true ↔ m.accepts g word = true ∨
      ((∃ q, m.Merges g q ∧ g.isFinal q = true) ∧ m.Over word.toList ∧
        m.after g (m.closed g s) word.toList = ∅) := by
  rw [accepts_toDFA_iff hs hd, accepts_iff_after hs]
  refine ⟨fun ⟨hw, T, hT, hacc, he⟩ => ?_, fun ha => ?_⟩
  · have hU := (Reached.start hs).after (g := g) hw
    rcases (identifier_eq_iff_of_reached h hT hU).mp he with rfl | ⟨q, hq, ⟨rfl, -⟩ | ⟨rfl, hU'⟩⟩
    · exact Or.inl ⟨hw, hacc⟩
    · rw [isAccepting_empty] at hacc
      cases hacc
    · exact Or.inr ⟨⟨q, hq, isAccepting_singleton.mp hacc⟩, hw, hU'⟩
  · rcases ha with ⟨hw, hacc⟩ | ⟨⟨q, hq, hf⟩, hw, hU⟩
    · exact ⟨hw, _, (Reached.start hs).after hw, hacc, rfl⟩
    · refine ⟨hw, {q}, hq.2.2, isAccepting_singleton.mpr hf, ?_⟩
      rw [hU]
      exact identifier_singleton hq.1

/-- The words that one automaton accepts and the other does not. -/
theorem accepts_toDFA_ne_iff (h : Inv false g m) (hs : m.start = some s) {d : DFA}
    (hd : m.toDFA g = .ok d) (word : String) : d.accepts word ≠ m.accepts g word ↔
      (∃ q, m.Merges g q ∧ g.isFinal q = true) ∧ m.Over word.toList ∧
        m.after g (m.closed g s) word.toList = ∅ := by
  have hor := accepts_toDFA_iff_or h hs hd word
  refine ⟨fun hne => ?_, fun hx => ?_⟩
  · cases hm : m.accepts g word with
    | true =>
      rw [hor.mpr (Or.inl hm), hm] at hne
      exact absurd rfl hne
    | false =>
      rw [hm, Bool.ne_false_iff] at hne
      rcases hor.mp hne with ha | hx
      · rw [hm] at ha
        cases ha
      · exact hx
  · rw [hor.mpr (Or.inr hx), accepts_of_after_empty hs hx.2.2]
    exact Bool.noConfusion

/-- A conversion fails exactly if the empty set and that of a state with the empty name are reached
and lead apart on some symbol, and then by a refused transition. The result of one that goes through
accepts the same words, except that with such a pair, whose state is final, it also accepts the
words over the alphabet that lead to the empty set. Without the empty name there is no exception. -/
theorem toDFA_language (h : History false g m) (hs : m.start = some s) :
    ((∃ c, m.toDFA g = .error (.refused c)) ↔
      ∃ q a, (g.name q = "" ∧ m.Reached g ∅ ∧ m.Reached g {q}) ∧ a ∈ m.alphabet ∧
        m.step g {q} a ≠ ∅ ∧ m.step g {q} a ≠ {q}) ∧
    (∀ f, m.toDFA g = .error f → ∃ c, f = .refused c) ∧
    (∀ d, m.toDFA g = .ok d → ∀ word,
      (d.accepts word ≠ m.accepts g word ↔
        (∃ q, (g.name q = "" ∧ m.Reached g ∅ ∧ m.Reached g {q}) ∧ g.isFinal q = true) ∧
          (∀ c ∈ word.toList, c ∈ m.alphabet) ∧
          m.after g (m.closed g s) word.toList = ∅) ∧
      (d.accepts word ≠ m.accepts g word →
        d.accepts word = true ∧ m.accepts g word = false)) ∧
    (m.state? "" = none → ∃ d, m.toDFA g = .ok d ∧ ∀ word, d.accepts word = m.accepts g word) := by
  have hi := h.inv
  refine ⟨?_, fun f hf => toDFA_error hs hf, fun d hd word =>
    ⟨accepts_toDFA_ne_iff hi hs hd word, fun hne => ?_⟩, fun hn => ?_⟩
  · rw [toDFA_error_iff hs, toDFA_ok_iff_not_split hi hs, not_not]
    rfl
  · have hx := (accepts_toDFA_ne_iff hi hs hd word).mp hne
    exact ⟨(accepts_toDFA_iff_or hi hs hd word).mpr (Or.inr hx), accepts_of_after_empty hs hx.2.2⟩
  · have hno := not_merges_of_named hi (fun S hS => hS.within hi) hn
    obtain ⟨d, hd⟩ := (toDFA_ok_iff_not_split hi hs).mpr fun ⟨q, a, hq, _⟩ => hno q hq
    refine ⟨d, hd, fun word => Classical.byContradiction fun hne => ?_⟩
    obtain ⟨⟨q, hq, -⟩, -⟩ := (accepts_toDFA_ne_iff hi hs hd word).mp hne
    exact hno q hq

/-- A start and behind it a final state with the empty name. -/
def trailing : Graph × NFA :=
  attempts ∅ (NFA.new {}) [.add .start "s", .add .final "", .connect "s" (.text "a") ""]

theorem history_trailing : History false trailing.1 trailing.2 := (History.new ∅ {}).calls _

theorem merges_trailing : trailing.2.Merges trailing.1 1 :=
  ⟨by decide, reached_iff_after.mpr ⟨0, ['a', 'a'], rfl, by decide, by decide +kernel⟩,
    reached_iff_after.mpr ⟨0, ['a'], rfl, by decide, by decide +kernel⟩⟩

theorem toDFA_language_trailing : History false trailing.1 trailing.2 ∧
    trailing.2.start = some 0 ∧ ∃ d, trailing.2.toDFA trailing.1 = .ok d ∧
      d.accepts "aa" = true ∧ trailing.2.accepts trailing.1 "aa" = false := by
  have hnone : (DFA.builder.feed ∅ (trailing.2.calls trailing.1)).2 = none := by decide +kernel
  have hd := (toDFA_eq_ok (s := 0) rfl).mpr (Prod.ext rfl hnone)
  have hover : trailing.2.Over "aa".toList := by decide
  obtain ⟨hiff, hboth⟩ := (toDFA_language history_trailing (s := 0) rfl).2.2.1 _ hd "aa"
  have hne := hiff.mpr ⟨⟨1, merges_trailing, by decide⟩, hover, by decide +kernel⟩
  exact ⟨history_trailing, rfl, _, hd, hboth hne⟩

end Determinize.NFA
