import Determinize.Proofs.Emission
import Determinize.Proofs.Feeding

/-!
# The automaton that a conversion fills

A conversion knows subsets, while the automaton that it fills knows identifiers. That automaton is
the image of the reached subsets under their identifiers, and it exists exactly if subsets with one
identifier lead to subsets with one identifier. Nothing is assumed about names here.

Results:
* `toDFA_ok_iff`: when the conversion goes through, and `toDFA_error`: what is the matter otherwise;
* `next?_identifier`: a transition follows the step of any subset with the identifier;
* `accepts_toDFA_iff`: a word is accepted if some reached accepting subset has the identifier of the
  set behind the word.
-/
namespace Determinize

/-! ## The calls of an emission -/

namespace Emission

variable {g : Graph} {e : Emission}

theorem start_mem_calls {i : String} :
    .start i ∈ e.calls g ↔ ∃ S, e = .opening S ∧ i = g.identifier S := by
  cases e with
  | opening S =>
    simp only [calls_opening, Construction.openingCalls]
    split <;> simp
  | declare S =>
    simp only [calls_declare, Construction.declaration]
    split <;> simp
  | link S a T => simp [calls]

theorem final_mem_calls {i : String} : .final i ∈ e.calls g ↔
    ∃ S ∈ e.declared, g.isAccepting S = true ∧ g.identifier S = i := by
  cases e with
  | opening S =>
    simp only [calls_opening, Construction.openingCalls, declared]
    split
    · rename_i h
      simpa [h] using eq_comm
    · rename_i h
      simp [h]
  | declare S =>
    simp only [calls_declare, Construction.declaration, declared]
    split
    · rename_i h
      simpa [h] using eq_comm
    · rename_i h
      simp [h]
  | link S a T => simp [calls, declared]

theorem transition_mem_calls {q a t : String} : .transition q a t ∈ e.calls g ↔
    ∃ S c T, e = .link S c T ∧ g.identifier S = q ∧ String.singleton c = a ∧
      g.identifier T = t := by
  cases e with
  | opening S =>
    simp only [calls_opening, Construction.openingCalls]
    split <;> simp
  | declare S =>
    simp only [calls_declare, Construction.declaration]
    split <;> simp
  | link S c T => simp [calls, eq_comm]

end Emission

namespace NFA

variable {m : NFA} {g : Graph} {s : StateId}

theorem mem_calls_final (hs : m.start = some s) {i : String} : .final i ∈ m.calls g ↔
    ∃ S, m.Reached g S ∧ g.isAccepting S = true ∧ g.identifier S = i := by
  simp only [← mem_order hs, ← declared_emissions hs, calls, List.mem_flatMap,
    Emission.final_mem_calls]
  refine ⟨fun h => ?_, fun h => ?_⟩
  · obtain ⟨e, he, S, hS, h⟩ := h
    exact ⟨S, ⟨e, he, hS⟩, h⟩
  · obtain ⟨S, ⟨e, he, hS⟩, h⟩ := h
    exact ⟨e, he, S, hS, h⟩

theorem mem_calls_transition (hs : m.start = some s) {q a t : String} :
    .transition q a t ∈ m.calls g ↔ ∃ S c, m.Reached g S ∧ c ∈ m.alphabet ∧ g.identifier S = q ∧
      String.singleton c = a ∧ g.identifier (m.step g S c) = t := by
  simp only [calls, List.mem_flatMap, Emission.transition_mem_calls]
  refine ⟨fun h => ?_, fun h => ?_⟩
  · obtain ⟨e, he, S, c, T, hl, hq, ha, ht⟩ := h
    rw [hl, mem_emissions_link hs] at he
    obtain ⟨hS, hc, rfl⟩ := he
    exact ⟨S, c, hS, hc, hq, ha, ht⟩
  · obtain ⟨S, c, hS, hc, hq, ha, ht⟩ := h
    exact ⟨_, (mem_emissions_link hs).mpr ⟨hS, hc, rfl⟩, S, c, _, rfl, hq, ha, ht⟩

/-- Only the first call declares a start. -/
theorem calls_eq (hs : m.start = some s) : ∃ rest,
    m.calls g = .start (g.identifier (m.closed g s)) :: rest ∧ ∀ i, .start i ∉ rest := by
  refine ⟨(if g.isAccepting (m.closed g s) then [.final (g.identifier (m.closed g s))] else []) ++
    (m.script g [m.closed g s] (m.pairs (m.order g))).flatMap (Emission.calls g), ?_, ?_⟩
  · rw [calls, emissions_eq hs, List.flatMap_cons, Emission.calls_opening]
    rfl
  · intro i hi
    rcases List.mem_append.mp hi with hi | hi
    · split at hi <;> simp at hi
    · obtain ⟨e, he, hie⟩ := List.mem_flatMap.mp hi
      obtain ⟨S, rfl, -⟩ := Emission.start_mem_calls.mp hie
      exact opening_not_mem_script _ _ _ he

/-! ## When the conversion goes through -/

theorem toDFA_eq_ok (hs : m.start = some s) {d : DFA} :
    m.toDFA g = .ok d ↔ DFA.builder.feed ∅ (m.calls g) = (d, none) := by
  have hf := determinize_follows (g := g) hs DFA.builder ∅
  rw [toDFA_eq_ok_iff, hf.builder, hf.result]
  generalize DFA.builder.feed ∅ (m.calls g) = r
  obtain ⟨d', e⟩ := r
  cases e <;> simp

theorem toDFA_eq_error (hs : m.start = some s) {f : Fault Conflict} :
    m.toDFA g = .error f ↔ ∃ c, f = .refused c ∧ (DFA.builder.feed ∅ (m.calls g)).2 = some c := by
  have hf := (determinize_follows (g := g) hs DFA.builder ∅).result
  unfold toDFA
  generalize m.determinize DFA.builder g ∅ = outcome at hf
  generalize (DFA.builder.feed ∅ (m.calls g)).2 = refusal at hf
  obtain ⟨_, d, result⟩ := outcome
  cases refusal with
  | none =>
    obtain rfl := hf
    simp [Outcome.filled]
  | some c =>
    obtain rfl := hf
    simp [Outcome.filled, eq_comm]

/-- Only the refusal of a call ends a conversion early. -/
theorem toDFA_error (hs : m.start = some s) {f : Fault Conflict} (h : m.toDFA g = .error f) :
    ∃ c, f = .refused c := by
  obtain ⟨c, hc, -⟩ := (toDFA_eq_error hs).mp h
  exact ⟨c, hc⟩

/-- The conversion goes through exactly if subsets with one identifier lead to subsets with one
identifier. -/
theorem toDFA_ok_iff (hs : m.start = some s) : (∃ d, m.toDFA g = .ok d) ↔
    ∀ S T a, m.Reached g S → m.Reached g T → a ∈ m.alphabet → g.identifier S = g.identifier T →
      g.identifier (m.step g S a) = g.identifier (m.step g T a) := by
  have hoffered : ∀ q a t, DFA.Offered ∅ (m.calls g) q a t ↔ .transition q a t ∈ m.calls g := by
    intro q a t
    have hnone : DFA.next? ∅ q a = none := rfl
    simp [DFA.Offered, hnone]
  have hfeed : (∃ d, m.toDFA g = .ok d) ↔ (DFA.builder.feed ∅ (m.calls g)).2 = none := by
    simp only [toDFA_eq_ok hs]
    refine ⟨fun hd => ?_, fun hnone => ⟨_, Prod.ext rfl hnone⟩⟩
    obtain ⟨d, hd⟩ := hd
    rw [hd]
  rw [hfeed, DFA.feed_eq_none_iff]
  simp only [hoffered, mem_calls_transition hs]
  refine ⟨fun h S T a hS hT ha he => ?_, fun h q a t u ht hu => ?_⟩
  · exact h _ _ _ _ ⟨S, a, hS, ha, rfl, rfl, rfl⟩ ⟨T, a, hT, ha, he.symm, rfl, rfl⟩
  · obtain ⟨S, c, hS, hc, rfl, rfl, rfl⟩ := ht
    obtain ⟨T, e, hT, -, hq, he, rfl⟩ := hu
    rw [String.singleton_inj] at he
    subst he
    exact h S T e hS hT hc hq.symm

theorem toDFA_error_iff (hs : m.start = some s) :
    (∃ c, m.toDFA g = .error (.refused c)) ↔ ¬ ∃ d, m.toDFA g = .ok d := by
  cases h : m.toDFA g with
  | ok d => simp
  | error f =>
    obtain ⟨c, rfl⟩ := toDFA_error hs h
    simp

/-! ## What it accepts -/

variable {d : DFA}

theorem toDFA_extends (hs : m.start = some s) (hd : m.toDFA g = .ok d) :
    DFA.Extends ∅ (m.calls g) d :=
  DFA.feed_extends ((toDFA_eq_ok hs).mp hd)

theorem init_toDFA (hs : m.start = some s) (hd : m.toDFA g = .ok d) :
    d.init = some (g.identifier (m.closed g s)) := by
  obtain ⟨rest, hc, hrest⟩ := calls_eq (g := g) hs
  have hfeed := (toDFA_eq_ok hs).mp hd
  rw [hc] at hfeed
  have htail : DFA.builder.feed (DFA.addStart ∅ (g.identifier (m.closed g s))) rest = (d, none) :=
    hfeed
  exact (DFA.feed_extends htail).init hrest

theorem mem_accepting (hs : m.start = some s) (hd : m.toDFA g = .ok d) {i : String} :
    i ∈ d.accepting ↔ ∃ S, m.Reached g S ∧ g.isAccepting S = true ∧ g.identifier S = i := by
  rw [(toDFA_extends hs hd).accepting, mem_calls_final hs]
  exact or_iff_right List.not_mem_nil

theorem next?_eq_some_iff (hs : m.start = some s) (hd : m.toDFA g = .ok d) {q a t : String} :
    d.next? q a = some t ↔ ∃ S c, m.Reached g S ∧ c ∈ m.alphabet ∧ g.identifier S = q ∧
      String.singleton c = a ∧ g.identifier (m.step g S c) = t := by
  rw [(toDFA_extends hs hd).next, mem_calls_transition hs]
  exact or_iff_right (by simp [DFA.next?, show (∅ : DFA).delta = ∅ from rfl])

theorem next?_identifier (hs : m.start = some s) (hd : m.toDFA g = .ok d) {S : StateSet}
    (hS : m.Reached g S) (c : Char) : d.next? (g.identifier S) (String.singleton c) =
      if c ∈ m.alphabet then some (g.identifier (m.step g S c)) else none := by
  split
  · rename_i hc
    exact (next?_eq_some_iff hs hd).mpr ⟨S, c, hS, hc, rfl, rfl, rfl⟩
  · rename_i hc
    rw [Option.eq_none_iff_forall_ne_some]
    intro t ht
    obtain ⟨T, e, -, he, -, hce, -⟩ := (next?_eq_some_iff hs hd).mp ht
    rw [String.singleton_inj] at hce
    exact hc (hce ▸ he)

theorem acceptsFrom_identifier (hs : m.start = some s) (hd : m.toDFA g = .ok d) {S : StateSet}
    (hS : m.Reached g S) (w : List Char) : d.acceptsFrom (g.identifier S) w = true ↔
      m.Over w ∧ ∃ T, m.Reached g T ∧ g.isAccepting T = true ∧
        g.identifier T = g.identifier (m.after g S w) := by
  induction w generalizing S with
  | nil => simp [DFA.acceptsFrom, mem_accepting hs hd, after]
  | cons c w ih =>
    simp only [DFA.acceptsFrom, next?_identifier hs hd hS, over_cons, after_cons]
    by_cases hc : c ∈ m.alphabet
    · simp only [hc, if_true, true_and]
      exact ih (hS.step hc)
    · simp [hc]

theorem accepts_toDFA_iff (hs : m.start = some s) (hd : m.toDFA g = .ok d) (word : String) :
    d.accepts word = true ↔ m.Over word.toList ∧ ∃ T, m.Reached g T ∧ g.isAccepting T = true ∧
      g.identifier T = g.identifier (m.after g (m.closed g s) word.toList) := by
  simp only [DFA.accepts, init_toDFA hs hd]
  exact acceptsFrom_identifier hs hd (.start hs) word.toList

end NFA

end Determinize
