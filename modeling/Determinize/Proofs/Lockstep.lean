import Determinize.Proofs.Content
import Determinize.Proofs.Enumeration
import Mathlib.Data.List.Forall2

/-!
# Two builds of one content, converted side by side

Where two automata say the same and list their symbols in the same order, their constructions run in
lockstep: the sets that one meets are those of the other, under other indices, and what is told
about them is told in the same words. Where only the order of the symbols differs, the sets are met
in another order, and still the same automaton is built.

Results:
* `fresh_script`: sets with the same names add such sets, and tell the same;
* `explores_matches`: two searches meet such sets side by side;
* `content_determines`: all that the content of an automaton decides.
-/
namespace Determinize.NFA

open List (Forall₂)

variable {m₁ m₂ : NFA} {g₁ g₂ : Graph} {S T : StateSet}

/-- Pairs of one symbol and of sets with the same names. -/
def MatchesPair (m₁ m₂ : NFA) (p q : StateSet × Char) : Prop := Matches m₁ m₂ p.1 q.1 ∧ p.2 = q.2

namespace Rebuilt

theorem biUnique (h : Rebuilt m₁ g₁ m₂ g₂) : Relator.BiUnique (Matches m₁ m₂) :=
  ⟨fun _ _ _ hS hT => h.symm.eq_of_matches hS.symm hT.symm,
    fun _ _ _ hS hT => h.eq_of_matches hS hT⟩

/-- What a set leads to is new in both automata or in none, and the same is told about it. -/
theorem fresh_script (h : Rebuilt m₁ g₁ m₂ g₂) {l₁ l₂ : List (StateSet × Char)}
    (hl : Forall₂ (MatchesPair m₁ m₂) l₁ l₂) {seen₁ seen₂ : List StateSet}
    (hseen : Forall₂ (Matches m₁ m₂) seen₁ seen₂) :
    Forall₂ (Matches m₁ m₂) (m₁.fresh g₁ seen₁ l₁) (m₂.fresh g₂ seen₂ l₂) ∧
      (m₁.script g₁ seen₁ l₁).flatMap (Emission.calls g₁) =
        (m₂.script g₂ seen₂ l₂).flatMap (Emission.calls g₂) := by
  induction hl generalizing seen₁ seen₂ with
  | nil => exact ⟨.nil, rfl⟩
  | @cons p q l₁ l₂ hp _ ih =>
    obtain ⟨S, a⟩ := p
    obtain ⟨T, b⟩ := q
    obtain ⟨hST, hab⟩ := hp
    simp only at hST hab
    subst hab
    have htarget := h.matches_step hST a
    have hmem := List.rel_mem h.biUnique htarget hseen
    have hlink : Emission.calls g₁ (.link S a (m₁.step g₁ S a)) =
        Emission.calls g₂ (.link T a (m₂.step g₂ T a)) := by
      rw [Emission.calls, Emission.calls, h.identifier_eq hST, h.identifier_eq htarget]
    have hdeclare : Emission.calls g₁ (.declare (m₁.step g₁ S a)) =
        Emission.calls g₂ (.declare (m₂.step g₂ T a)) := by
      rw [Emission.calls_declare, Emission.calls_declare, Construction.declaration,
        Construction.declaration, h.identifier_eq htarget, h.isAccepting_eq htarget]
    -- By `hmem` the target is new in both or in neither.
    by_cases hS : m₁.step g₁ S a ∈ seen₁
    · obtain ⟨hfresh, hscript⟩ := ih hseen
      simp only [fresh, script, hS, hmem.mp hS, if_true, List.flatMap_cons, hlink, hscript]
      exact ⟨hfresh, trivial⟩
    · have hT := hmem.not.mp hS
      obtain ⟨hfresh, hscript⟩ := ih (List.rel_append hseen (.cons htarget .nil))
      simp only [fresh, script, hS, hT, if_false, List.flatMap_cons, hlink, hdeclare, hscript]
      exact ⟨.cons htarget hfresh, trivial⟩

theorem matches_pairs (ha : m₁.alphabet = m₂.alphabet) {queue₁ queue₂ : List StateSet}
    (hq : Forall₂ (Matches m₁ m₂) queue₁ queue₂) :
    Forall₂ (MatchesPair m₁ m₂) (m₁.pairs queue₁) (m₂.pairs queue₂) := by
  refine List.rel_flatMap hq fun S T hST => ?_
  rw [← ha, List.forall₂_map_left_iff, List.forall₂_map_right_iff, List.forall₂_same]
  exact fun a _ => ⟨hST, rfl⟩

/-- Two searches from sets with the same names meet sets with the same names, side by side. -/
theorem explores_matches (h : Rebuilt m₁ g₁ m₂ g₂) (ha : m₁.alphabet = m₂.alphabet)
    {seen₁ seen₂ queue₁ queue₂ news₁ news₂ : List StateSet}
    (h₁ : m₁.Explores g₁ seen₁ queue₁ news₁) (h₂ : m₂.Explores g₂ seen₂ queue₂ news₂)
    (hseen : Forall₂ (Matches m₁ m₂) seen₁ seen₂) (hq : Forall₂ (Matches m₁ m₂) queue₁ queue₂) :
    Forall₂ (Matches m₁ m₂) news₁ news₂ := by
  induction h₁ generalizing seen₂ queue₂ news₂ with
  | done seen₁ =>
    cases hq
    cases h₂
    exact .nil
  | next S _ ih =>
    cases hq with
    | cons hST hq =>
      cases h₂ with
      | next T h₂ =>
        have hfresh := (h.fresh_script (matches_pairs ha (.cons hST .nil)) hseen).1
        exact List.rel_append hfresh
          (ih h₂ (List.rel_append hseen hfresh) (List.rel_append hq hfresh))

/-- With the symbols in the same order, both conversions make the same calls. -/
theorem recorded_eq (h : Rebuilt m₁ g₁ m₂ g₂) (ha : m₁.alphabet = m₂.alphabet) :
    m₁.recorded g₁ = m₂.recorded g₂ := by
  cases hs : m₁.start with
  | none =>
    rw [recorded_of_start_none g₁ hs, recorded_of_start_none g₂ (h.start_none hs)]
  | some s =>
    obtain ⟨t, ht, hst⟩ := h.start hs
    have hfirst := h.matches_closed hst
    obtain ⟨news₁, h₁, horder₁, -⟩ := exists_fresh_run (g := g₁) hs
    obtain ⟨news₂, h₂, horder₂, -⟩ := exists_fresh_run (g := g₂) ht
    have hone : Forall₂ (Matches m₁ m₂) [m₁.closed g₁ s] [m₂.closed g₂ t] := .cons hfirst .nil
    have horder : Forall₂ (Matches m₁ m₂) (m₁.order g₁) (m₂.order g₂) := by
      rw [horder₁, horder₂]
      exact .cons hfirst (h.explores_matches ha h₁ h₂ hone hone)
    have hopening : Emission.calls g₁ (.opening (m₁.closed g₁ s)) =
        Emission.calls g₂ (.opening (m₂.closed g₂ t)) := by
      rw [Emission.calls_opening, Emission.calls_opening, Construction.openingCalls,
        Construction.openingCalls, h.identifier_eq hfirst, h.isAccepting_eq hfirst]
    rw [recorded_eq_calls hs, recorded_eq_calls ht, calls, calls, emissions_eq hs,
      emissions_eq ht, List.flatMap_cons, List.flatMap_cons, hopening,
      (h.fresh_script (matches_pairs ha horder) hone).2]

/-- So they leave every builder in the same state. -/
theorem builder_eq (h : Rebuilt m₁ g₁ m₂ g₂) (ha : m₁.alphabet = m₂.alphabet) {σ ε : Type}
    (b : Builder σ ε) (t : σ) :
    (m₁.determinize b g₁ t).builder = (m₂.determinize b g₂ t).builder := by
  cases hs : m₁.start with
  | none =>
    rw [determinize_of_start_none b g₁ t hs, determinize_of_start_none b g₂ t (h.start_none hs)]
  | some s =>
    obtain ⟨t', ht, -⟩ := h.start hs
    rw [(determinize_recorded hs b t).1, (determinize_recorded ht b t).1, h.recorded_eq ha]

end Rebuilt

/-- Two automata with one content, whatever calls built them. They accept the same words. Their
conversions both lack a start or neither does, both fail at a conflict or neither does, and where
they return automata these have the same start, states, accepting states and transitions, and the
same symbols, maybe in another order. If the automata have their symbols in the same order, the
conversions make the same calls and leave every builder in the same state; so does each run that
lists the sets it reads in any other order. -/
theorem content_determines (h₁ : History false g₁ m₁) (h₂ : History false g₂ m₂)
    (hc : SameContent m₁ g₁ m₂ g₂) :
    (∀ word, m₁.accepts g₁ word = m₂.accepts g₂ word) ∧
    (m₁.toDFA g₁ = .error .missingStart ↔ m₂.toDFA g₂ = .error .missingStart) ∧
    ((∃ c, m₁.toDFA g₁ = .error (.refused c)) ↔ ∃ c, m₂.toDFA g₂ = .error (.refused c)) ∧
    (∀ d₁ d₂, m₁.toDFA g₁ = .ok d₁ → m₂.toDFA g₂ = .ok d₂ →
      d₁.init = d₂.init ∧ (∀ q, q ∈ d₁.states ↔ q ∈ d₂.states) ∧
      (∀ q, q ∈ d₁.accepting ↔ q ∈ d₂.accepting) ∧
      (∀ q a, d₁.next? q a = d₂.next? q a) ∧ d₁.alphabet.Perm d₂.alphabet) ∧
    (m₁.alphabet = m₂.alphabet → ∃ l, m₁.recorded g₁ = l ∧ m₂.recorded g₂ = l ∧
      (∀ calls, m₁.Performs g₁ calls ↔ calls = l) ∧
      (∀ calls, m₂.Performs g₂ calls ↔ calls = l) ∧
      ∀ {σ ε : Type} (b : Builder σ ε) (t : σ),
        (m₁.determinize b g₁ t).builder = (m₂.determinize b g₂ t).builder) := by
  have h := rebuilt_of_history h₁ h₂ hc
  refine ⟨h.accepts_eq, ⟨h.toDFA_missingStart, h.symm.toDFA_missingStart⟩,
    ⟨h.toDFA_refused, h.symm.toDFA_refused⟩, fun d₁ d₂ hd₁ hd₂ => ?_, fun ha => ?_⟩
  · exact ⟨h.init_eq hd₁ hd₂, h.states_iff hd₁ hd₂, h.accepting_iff hd₁ hd₂, h.next?_eq hd₁ hd₂,
      h.alphabet_perm hd₁ hd₂⟩
  · have heq := h.recorded_eq ha
    exact ⟨_, rfl, heq.symm, fun _ => performs_iff, fun _ => heq ▸ performs_iff,
      fun b t => h.builder_eq ha b t⟩

/-- Calls that add three states, and transitions with two symbols and an empty move. -/
def orderly : List Edit :=
  [.add .start "p", .add .plain "r", .add .final "q", .connect "p" (.text "a") "q",
    .connect "p" (.text "a") "r", .connect "r" (.text "b") "q", .connect "p" (.text "e") "r"]

/-- The same states and transitions in another order, with refused and repeated calls. -/
def messy : List Edit :=
  [.connect "p" (.text "a") "q", .add .final "q", .add .plain "r", .add .start "p",
    .add .plain "q", .connect "p" (.text "e") "r", .connect "p" (.text "a") "r",
    .connect "r" (.text "bb") "q", .connect "r" (.text "b") "q", .connect "p" (.text "a") "q",
    .connect "p" (.text "a") "r"]

/-- The same states and transitions, where the second symbol is used first. -/
def backward : List Edit :=
  [.add .start "p", .add .final "q", .add .plain "r", .connect "r" (.text "b") "q",
    .connect "p" (.text "e") "r", .connect "p" (.text "a") "r", .connect "p" (.text "a") "q"]

/-- What calls on an automaton without states lead to. -/
def built (es : List Edit) : Graph × NFA := attempts ∅ (NFA.new {}) es

theorem history_built (es : List Edit) : History false (built es).1 (built es).2 :=
  (History.new ∅ {}).calls es

theorem reflects_built (es : List Edit) : Reflects (built es).1 (built es).2 es :=
  reflects_attempts es (reflects_new ∅ {})

/-- Three builds of one content. Two list their states in different orders and make the same calls;
the third has its symbols in another order, and its conversion the same transitions. -/
theorem content_determines_messy :
    (built orderly).2.states.keys ≠ (built messy).2.states.keys ∧
    (built orderly).2.recorded (built orderly).1 = (built messy).2.recorded (built messy).1 ∧
    ∃ d₁ d₂, (built orderly).2.toDFA (built orderly).1 = .ok d₁ ∧
      (built backward).2.toDFA (built backward).1 = .ok d₂ ∧
      d₁.alphabet = ["a", "b"] ∧ d₂.alphabet = ["b", "a"] ∧
      (∀ q, q ∈ d₁.states ↔ q ∈ d₂.states) ∧ ∀ q a, d₁.next? q a = d₂.next? q a := by
  have hmessy : SameContent (built orderly).2 (built orderly).1 (built messy).2 (built messy).1 :=
    sameContent_of_reflects (reflects_built orderly) (reflects_built messy) (by decide +kernel)
      (by decide +kernel) (by decide +kernel) (by decide +kernel) (by decide +kernel)
  have hbackward : SameContent (built orderly).2 (built orderly).1 (built backward).2
      (built backward).1 :=
    sameContent_of_reflects (reflects_built orderly) (reflects_built backward) (by decide +kernel)
      (by decide +kernel) (by decide +kernel) (by decide +kernel) (by decide +kernel)
  obtain ⟨-, -, -, -, hcalls⟩ :=
    content_determines (history_built orderly) (history_built messy) hmessy
  obtain ⟨l, horderly, hl, -⟩ := hcalls (by decide +kernel)
  obtain ⟨-, -, -, hsame, -⟩ :=
    content_determines (history_built orderly) (history_built backward) hbackward
  have hinv₁ := (history_built orderly).inv
  have hinv₂ := (history_built backward).inv
  have hs₁ : (built orderly).2.start = some 0 := by decide +kernel
  have hs₂ : (built backward).2.start = some 0 := by decide +kernel
  obtain ⟨d₁, hd₁⟩ := toDFA_ok_of_named hinv₁ hs₁ (by decide +kernel)
  obtain ⟨d₂, hd₂⟩ := toDFA_ok_of_named hinv₂ hs₂ (by decide +kernel)
  obtain ⟨-, hstates, -, hnext, -⟩ := hsame d₁ d₂ hd₁ hd₂
  refine ⟨by decide +kernel, horderly.trans hl.symm, d₁, d₂, hd₁, hd₂, ?_, ?_, hstates, hnext⟩
  · rw [alphabet_toDFA hs₁ hinv₁.distinct hd₁]
    decide +kernel
  · rw [alphabet_toDFA hs₂ hinv₂.distinct hd₂]
    decide +kernel

end Determinize.NFA
