import Determinize.Proofs.Replay

/-!
# Runs that list sets in any order

A set of states has no order of its own. A run reads the members of sets when it moves, when it
searches a closure, when it looks for a final member and when it writes an identifier. `Performs`
says which calls a run can make if each set that it reads is listed in any order, and in another
order at each reading.

Results:
* `closes_iff`, `steps_iff`, `names_iff`, `judges_iff`: no such reading depends on the order;
* `performs_iff`: there is such a run, and all of them make the calls of a fresh run.
-/
namespace Determinize

/-! ## Readings of a set -/

namespace Graph

/-- A search through the edges labelled `a` that meets the members of `S`, and then all targets, in
some order finds the set `T`. -/
def Closes (g : Graph) (a : String) (S T : StateSet) : Prop :=
  ∃ stack : List StateId, stack.Perm S.toList ∧ g.Searches a S stack T

/-- The members of `S` in some order make the identifier `i`. -/
def Names (g : Graph) (S : StateSet) (i : String) : Prop :=
  ∃ l : List StateId, l.Perm S.toList ∧ g.identifierOf l = i

/-- Whether one of the members of `S` in some order is final. -/
def Judges (g : Graph) (S : StateSet) (b : Bool) : Prop :=
  ∃ l : List StateId, l.Perm S.toList ∧ (l.any fun s => g.isFinal s) = b

variable {g : Graph} {S : StateSet}

theorem closes_iff {a : String} {T : StateSet} : g.Closes a S T ↔ T = g.closure a S := by
  refine ⟨fun ⟨stack, hp, h⟩ => StateSet.ext fun s => ?_, fun h => ?_⟩
  · rw [h.mem_iff hp, mem_closure]
  · rw [h]
    exact ⟨_, List.Perm.refl _, searches_search g a S S.toList⟩

theorem names_iff {i : String} : g.Names S i ↔ i = g.identifier S := by
  refine ⟨fun ⟨l, hp, h⟩ => ?_, fun h => ⟨_, List.Perm.refl _, h.symm⟩⟩
  rw [← h]
  exact Identifier.ofNames_eq_of_perm (hp.map g.name)

theorem judges_iff {b : Bool} : g.Judges S b ↔ b = g.isAccepting S := by
  refine ⟨fun ⟨l, hp, h⟩ => ?_, fun h => ⟨_, List.Perm.refl _, h.symm⟩⟩
  rw [← h]
  exact hp.any_eq

/-- Calls that declare a set: as accepting if it has a final member. -/
def Declares (g : Graph) (S : StateSet) (call : Call) : Prop :=
  ∃ b i, g.Judges S b ∧ g.Names S i ∧ call = if b then .final i else .state i

theorem declares_iff {call : Call} :
    g.Declares S call ↔ call = Construction.declaration g S := by
  simp only [Declares, judges_iff, names_iff, Construction.declaration, exists_and_left,
    exists_eq_left]

end Graph

namespace NFA

variable {m : NFA} {g : Graph}

/-- With the members of `S` in some order, the set `S` leads to `T` on a symbol. -/
def Steps (m : NFA) (g : Graph) (S : StateSet) (c : Char) (T : StateSet) : Prop :=
  ∃ l : List StateId, l.Perm S.toList ∧
    g.Closes m.epsilon (g.moveAll l (String.singleton c)) T

theorem steps_iff {S T : StateSet} {c : Char} : m.Steps g S c T ↔ T = m.step g S c := by
  have hmove : ∀ l : List StateId, l.Perm S.toList →
      g.moveAll l (String.singleton c) = g.move S (String.singleton c) := by
    intro l hp
    refine StateSet.ext fun t => ?_
    rw [Graph.move, Graph.mem_moveAll, Graph.mem_moveAll]
    simp only [hp.mem_iff]
  constructor
  · rintro ⟨l, hp, h⟩
    rw [Graph.closes_iff.mp h, hmove l hp, step]
  · intro h
    exact ⟨_, List.Perm.refl _, Graph.closes_iff.mpr h⟩

/-! ## Runs -/

/-- What the loop can tell a builder, with the set under expansion and its remaining symbols, the
registered sets and the queue. -/
inductive Traverses (m : NFA) (g : Graph) :
    Option (StateSet × List Char) → List StateSet → List StateSet → List Call → Prop
  | done {seen : List StateSet} : Traverses m g none seen [] []
  | pop {S : StateSet} {seen queue : List StateSet} {calls : List Call} :
      Traverses m g (some (S, m.alphabet)) seen queue calls →
      Traverses m g none seen (S :: queue) calls
  | known {S T : StateSet} {a : Char} {rest : List Char} {i j : String}
      {seen queue : List StateSet} {calls : List Call} :
      m.Steps g S a T → T ∈ seen → g.Names S i → g.Names T j →
      Traverses m g (some (S, rest)) seen queue calls →
      Traverses m g (some (S, a :: rest)) seen queue
        (.transition i (String.singleton a) j :: calls)
  | unknown {S T : StateSet} {a : Char} {rest : List Char} {i j : String} {call : Call}
      {seen queue : List StateSet} {calls : List Call} :
      m.Steps g S a T → T ∉ seen → g.Declares T call → g.Names S i → g.Names T j →
      Traverses m g (some (S, rest)) (seen ++ [T]) (queue ++ [T]) calls →
      Traverses m g (some (S, a :: rest)) seen queue
        (call :: .transition i (String.singleton a) j :: calls)
  | expanded {S : StateSet} {seen queue : List StateSet} {calls : List Call} :
      Traverses m g none seen queue calls → Traverses m g (some (S, [])) seen queue calls

/-- What a fresh run can tell a builder that takes every call. -/
inductive Performs (m : NFA) (g : Graph) : List Call → Prop
  | missing : m.start = none → Performs m g []
  | run {q : StateId} {S : StateSet} {i : String} {b : Bool} {calls : List Call} :
      m.start = some q → g.Closes m.epsilon {q} S → g.Names S i → g.Judges S b →
      m.Traverses g none [S] [S] calls →
      Performs m g (.start i :: (if b then [.final i] else []) ++ calls)

/-- The pairs that are left of the set under expansion. -/
def left : Option (StateSet × List Char) → List (StateSet × Char)
  | none => []
  | some (S, symbols) => symbols.map fun a => (S, a)

/-- The loop tells what the search tells, whatever the order of the members. -/
theorem Traverses.eq_script {current : Option (StateSet × List Char)}
    {seen queue later : List StateSet} {calls : List Call}
    (h : m.Traverses g current seen queue calls)
    (hlater : m.Explores g (seen ++ m.fresh g seen (left current))
      (queue ++ m.fresh g seen (left current)) later) :
    calls = (m.script g seen (left current ++
      m.pairs (queue ++ m.fresh g seen (left current) ++ later))).flatMap (Emission.calls g) := by
  -- The search is the one that starts when the set under expansion is through.
  induction h generalizing later with
  | done =>
    simp only [left, fresh, List.append_nil] at hlater ⊢
    cases hlater
    rfl
  | @pop S seen queue calls _ ih =>
    simp only [left, fresh, List.append_nil, List.nil_append] at hlater ⊢
    cases hlater with
    | @next _ _ later _ hnext =>
      rw [pairs_singleton] at hnext
      rw [ih hnext, List.cons_append, pairs_cons, pairs_singleton, List.append_assoc]
      rfl
  | @known S T a rest i j seen queue calls hT hmem hi hj _ ih =>
    rw [steps_iff] at hT
    rw [Graph.names_iff] at hi hj
    subst hT hi hj
    simp only [left, List.map_cons, fresh, hmem, if_true] at hlater ih ⊢
    rw [ih hlater, List.cons_append, script, if_pos hmem]
    rfl
  | @unknown S T a rest i j call seen queue calls hT hmem hcall hi hj _ ih =>
    rw [steps_iff] at hT
    rw [Graph.declares_iff] at hcall
    rw [Graph.names_iff] at hi hj
    subst hT hcall hi hj
    simp only [left, List.map_cons, fresh, hmem, if_false] at hlater ih ⊢
    rw [ih (by simpa using hlater), List.cons_append, script, if_neg hmem, List.flatMap_cons,
      Emission.calls_declare]
    simp [Emission.calls]
  | expanded _ ih =>
    simp only [left, List.map_nil] at hlater ih ⊢
    exact ih hlater

/-- Expanding a set, where the rest of the loop is given. -/
theorem traverses_left {S : StateSet} {symbols : List Char} {seen queue : List StateSet}
    {calls : List Call} (h : m.Traverses g none
      (seen ++ m.fresh g seen (symbols.map fun a => (S, a)))
      (queue ++ m.fresh g seen (symbols.map fun a => (S, a))) calls) :
    m.Traverses g (some (S, symbols)) seen queue
      ((m.script g seen (symbols.map fun a => (S, a))).flatMap (Emission.calls g) ++ calls) := by
  induction symbols generalizing seen queue with
  | nil =>
    simp only [List.map_nil, fresh, List.append_nil] at h
    exact .expanded h
  | cons a rest ih =>
    by_cases hmem : m.step g S a ∈ seen
    · simp only [List.map_cons, fresh, hmem, if_true] at h
      simp only [List.map_cons, script, hmem, if_true]
      exact .known (steps_iff.mpr rfl) hmem (Graph.names_iff.mpr rfl) (Graph.names_iff.mpr rfl)
        (ih h)
    · simp only [List.map_cons, fresh, hmem, if_false] at h
      simp only [List.map_cons, script, hmem, if_false]
      rw [List.flatMap_cons, Emission.calls_declare]
      exact .unknown (steps_iff.mpr rfl) hmem (Graph.declares_iff.mpr rfl)
        (Graph.names_iff.mpr rfl) (Graph.names_iff.mpr rfl) (ih (by simpa using h))

theorem Explores.traverses {seen queue news : List StateSet} (h : m.Explores g seen queue news) :
    m.Traverses g none seen queue
      ((m.script g seen (m.pairs (queue ++ news))).flatMap (Emission.calls g)) := by
  induction h with
  | done seen => exact .done
  | @next seen queue later S _ ih =>
    rw [script_next, List.flatMap_append]
    rw [pairs_singleton] at ih ⊢
    exact .pop (traverses_left ih)

/-- A run makes the recorded calls, in whatever order it lists the sets that it reads. -/
theorem performs_iff {calls : List Call} : m.Performs g calls ↔ calls = m.recorded g := by
  cases hs : m.start with
  | none =>
    rw [recorded_of_start_none g hs]
    refine ⟨fun h => ?_, fun h => h ▸ .missing hs⟩
    cases h with
    | missing => rfl
    | run hq =>
      rw [hs] at hq
      cases hq
  | some q =>
    obtain ⟨news, hexplores, horder, -⟩ := exists_fresh_run (g := g) hs
    rw [recorded_eq_calls hs, NFA.calls, emissions_eq hs, horder, List.flatMap_cons]
    simp only [Emission.calls_opening, Construction.openingCalls]
    refine ⟨fun h => ?_, fun h => ?_⟩
    · cases h with
      | missing hn =>
        rw [hs] at hn
        cases hn
      | @run q' S i b calls hq hS hi hb hloop =>
        rw [hs] at hq
        cases hq
        have hS : S = m.closed g q := Graph.closes_iff.mp hS
        rw [Graph.names_iff] at hi
        rw [Graph.judges_iff] at hb
        subst hS hi hb
        have hleft : m.fresh g [m.closed g q] (left none) = [] := rfl
        rw [hloop.eq_script (hleft ▸ hexplores)]
        simp only [left, fresh, List.nil_append, List.append_nil, List.singleton_append]
    · rw [h]
      exact .run hs (Graph.closes_iff.mpr rfl) (Graph.names_iff.mpr rfl)
        (Graph.judges_iff.mpr rfl) hexplores.traverses

end NFA

end Determinize
