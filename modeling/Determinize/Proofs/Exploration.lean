import Determinize.Construction
import Determinize.Proofs.Words
import Mathlib.Data.List.Nodup

/-!
# The order in which subsets are met

Expanding subsets one after the other meets the targets of their pairs with the symbols. A target
that is not among the subsets seen so far is new: it is declared, and waits behind all others for
its own expansion. `fresh` and `script` say which subsets a list of pairs adds and what it tells a
builder, and `Explores` is the breadth-first search made of such expansions.

Results:
* `fresh_append`, `script_append`: pairs may be taken in portions;
* `Explores.fresh_eq`: the new subsets are those that expanding the waiting ones and themselves
  adds, each once and in that order;
* `Explores.announced`: a transition is told only between subsets that were declared;
* `Explores.sound`, `Explores.step_mem`: the search meets nothing that steps do not reach, and all
  that they reach.
-/
namespace Determinize

/-- What a builder is told about subsets: the first one, a further one, or where a subset leads. -/
inductive Emission where
  | opening (S : StateSet)
  | declare (S : StateSet)
  | link (S : StateSet) (a : Char) (T : StateSet)
  deriving DecidableEq

namespace Emission

/-- Whether a subset has a final member can be found out. -/
instance (g : Graph) (S : StateSet) : Decidable (∃ s ∈ S, g.isFinal s = true) :=
  decidable_of_iff (g.isAccepting S = true) Graph.isAccepting_iff

/-- The calls that tell it. A subset is declared as final if it has a final member; the first one is
declared as the start, and as final by a second call. -/
def calls (g : Graph) : Emission → List Call
  | opening S => .start (g.identifier S) ::
      if ∃ s ∈ S, g.isFinal s = true then [.final (g.identifier S)] else []
  | declare S =>
      if ∃ s ∈ S, g.isFinal s = true then [.final (g.identifier S)] else [.state (g.identifier S)]
  | link S a T => [.transition (g.identifier S) (String.singleton a) (g.identifier T)]

theorem calls_opening (g : Graph) (S : StateSet) :
    (opening S).calls g = Construction.openingCalls g S := by
  simp only [calls, Construction.openingCalls, ← Graph.isAccepting_iff]

theorem calls_declare (g : Graph) (S : StateSet) :
    (declare S).calls g = [Construction.declaration g S] := by
  simp only [calls, Construction.declaration, ← Graph.isAccepting_iff]
  split <;> rfl

/-- The subset that is declared, if there is one. -/
def declared : Emission → List StateSet
  | opening S => [S]
  | declare S => [S]
  | link _ _ _ => []

/-- A transition needs both its subsets declared. -/
def Allowed (seen : List StateSet) : Emission → Prop
  | link S _ T => S ∈ seen ∧ T ∈ seen
  | _ => True

/-- Everything is allowed when it is told, where `seen` was declared before. -/
def Announced : List StateSet → List Emission → Prop
  | _, [] => True
  | seen, e :: rest => e.Allowed seen ∧ Announced (seen ++ e.declared) rest

theorem announced_append {seen : List StateSet} {l k : List Emission} :
    Announced seen (l ++ k) ↔ Announced seen l ∧ Announced (seen ++ l.flatMap declared) k := by
  induction l generalizing seen with
  | nil => simp [Announced]
  | cons e l ih => simp [Announced, ih, and_assoc]

/-- A transition comes after the declarations of both its subsets. -/
theorem Announced.link {seen : List StateSet} {before after : List Emission} {S T : StateSet}
    {a : Char} (h : Announced seen (before ++ .link S a T :: after)) :
    S ∈ seen ++ before.flatMap declared ∧ T ∈ seen ++ before.flatMap declared :=
  (announced_append.mp h).2.1

end Emission

namespace NFA

/-- The pairs of subsets and symbols: all symbols for the first subset, then for the next. -/
def pairs (m : NFA) (order : List StateSet) : List (StateSet × Char) :=
  order.flatMap fun S => m.alphabet.map fun a => (S, a)

/-- The targets of the pairs that were not seen, in the order in which they are met. -/
def fresh (m : NFA) (g : Graph) (seen : List StateSet) : List (StateSet × Char) → List StateSet
  | [] => []
  | (S, a) :: rest =>
    if m.step g S a ∈ seen then m.fresh g seen rest
    else m.step g S a :: m.fresh g (seen ++ [m.step g S a]) rest

/-- What the pairs tell a builder: a target that was not seen is declared, then comes the
transition. -/
def script (m : NFA) (g : Graph) (seen : List StateSet) : List (StateSet × Char) → List Emission
  | [] => []
  | (S, a) :: rest =>
    if m.step g S a ∈ seen then .link S a (m.step g S a) :: m.script g seen rest
    else .declare (m.step g S a) :: .link S a (m.step g S a) ::
      m.script g (seen ++ [m.step g S a]) rest

variable {m : NFA} {g : Graph}

/-! ## Pairs in portions -/

theorem pairs_cons (S : StateSet) (order : List StateSet) :
    m.pairs (S :: order) = m.pairs [S] ++ m.pairs order := by
  simp [pairs]

theorem pairs_singleton (S : StateSet) : m.pairs [S] = m.alphabet.map fun a => (S, a) := by
  simp [pairs]

theorem mem_pairs {order : List StateSet} {S : StateSet} {a : Char} :
    (S, a) ∈ m.pairs order ↔ S ∈ order ∧ a ∈ m.alphabet := by
  simp [pairs]

theorem length_pairs (order : List StateSet) :
    (m.pairs order).length = order.length * m.alphabet.length := by
  simp [pairs]

theorem fresh_append (seen : List StateSet) (l k : List (StateSet × Char)) :
    m.fresh g seen (l ++ k) = m.fresh g seen l ++ m.fresh g (seen ++ m.fresh g seen l) k := by
  induction l generalizing seen with
  | nil => simp [fresh]
  | cons p l ih =>
    obtain ⟨S, a⟩ := p
    by_cases h : m.step g S a ∈ seen
    · simp only [List.cons_append, fresh, h, if_true, ih]
    · simp only [List.cons_append, fresh, h, if_false, ih, List.append_assoc, List.nil_append]

theorem script_append (seen : List StateSet) (l k : List (StateSet × Char)) :
    m.script g seen (l ++ k) = m.script g seen l ++ m.script g (seen ++ m.fresh g seen l) k := by
  induction l generalizing seen with
  | nil => simp [script, fresh]
  | cons p l ih =>
    obtain ⟨S, a⟩ := p
    by_cases h : m.step g S a ∈ seen
    · simp only [List.cons_append, script, fresh, h, if_true, ih]
    · simp only [List.cons_append, script, fresh, h, if_false, ih, List.append_assoc,
        List.nil_append]

/-! ## New subsets -/

theorem mem_fresh {seen : List StateSet} {l : List (StateSet × Char)} {T : StateSet}
    (h : T ∈ m.fresh g seen l) : ∃ S a, (S, a) ∈ l ∧ T = m.step g S a := by
  induction l generalizing seen with
  | nil => cases h
  | cons p l ih =>
    obtain ⟨S, a⟩ := p
    have hrest : ∀ {seen}, T ∈ m.fresh g seen l →
        ∃ R b, (R, b) ∈ (S, a) :: l ∧ T = m.step g R b := by
      intro seen h
      obtain ⟨R, b, hm, he⟩ := ih h
      exact ⟨R, b, List.mem_cons_of_mem _ hm, he⟩
    simp only [fresh] at h
    split at h
    · exact hrest h
    · rcases List.mem_cons.mp h with h | h
      · exact ⟨S, a, List.mem_cons_self, h⟩
      · exact hrest h

/-- The target of every pair is seen in the end. -/
theorem step_mem_fresh (seen : List StateSet) {l : List (StateSet × Char)} {S : StateSet} {a : Char}
    (h : (S, a) ∈ l) : m.step g S a ∈ seen ++ m.fresh g seen l := by
  induction l generalizing seen with
  | nil => cases h
  | cons p l ih =>
    obtain ⟨R, b⟩ := p
    by_cases hR : m.step g R b ∈ seen
    · rw [fresh, if_pos hR]
      rcases List.mem_cons.mp h with h | h
      · cases h
        exact List.mem_append_left _ hR
      · exact ih seen h
    · rw [fresh, if_neg hR, List.append_cons]
      rcases List.mem_cons.mp h with h | h
      · cases h
        simp
      · exact ih _ h

theorem nodup_fresh {seen : List StateSet} (l : List (StateSet × Char)) (h : seen.Nodup) :
    (seen ++ m.fresh g seen l).Nodup := by
  induction l generalizing seen with
  | nil => simpa [fresh] using h
  | cons p l ih =>
    obtain ⟨S, a⟩ := p
    by_cases hS : m.step g S a ∈ seen
    · rw [fresh, if_pos hS]
      exact ih h
    · rw [fresh, if_neg hS, List.append_cons]
      exact ih (by simpa using h.concat hS)

/-! ## What the pairs tell -/

theorem declared_script (seen : List StateSet) (l : List (StateSet × Char)) :
    (m.script g seen l).flatMap Emission.declared = m.fresh g seen l := by
  induction l generalizing seen with
  | nil => rfl
  | cons p l ih =>
    obtain ⟨S, a⟩ := p
    by_cases h : m.step g S a ∈ seen
    · simp [script, fresh, h, ih, Emission.declared]
    · simp [script, fresh, h, ih, Emission.declared]

theorem mem_script_link {seen : List StateSet} {l : List (StateSet × Char)} {S T : StateSet}
    {a : Char} : .link S a T ∈ m.script g seen l ↔ (S, a) ∈ l ∧ T = m.step g S a := by
  induction l generalizing seen with
  | nil => simp [script]
  | cons p l ih =>
    obtain ⟨R, b⟩ := p
    have hlink : Emission.link S a T = .link R b (m.step g R b) ↔
        (S, a) = (R, b) ∧ T = m.step g S a := by
      simp only [Emission.link.injEq, Prod.mk.injEq, and_assoc]
      refine and_congr_right fun hS => and_congr_right fun ha => ?_
      rw [hS, ha]
    by_cases h : m.step g R b ∈ seen
    · simp only [script, h, if_true, List.mem_cons, ih, hlink, or_and_right]
    · simp only [script, h, if_false, List.mem_cons, ih, hlink, or_and_right, reduceCtorEq,
        false_or]

theorem opening_not_mem_script (seen : List StateSet) (l : List (StateSet × Char))
    (S : StateSet) : .opening S ∉ m.script g seen l := by
  induction l generalizing seen with
  | nil => simp [script]
  | cons p l ih =>
    obtain ⟨R, b⟩ := p
    by_cases h : m.step g R b ∈ seen <;> simp [script, h, ih]

/-- One call for each new subset and one for each pair. -/
theorem length_script (seen : List StateSet) (l : List (StateSet × Char)) :
    ((m.script g seen l).flatMap (Emission.calls g)).length =
      (m.fresh g seen l).length + l.length := by
  induction l generalizing seen with
  | nil => rfl
  | cons p l ih =>
    obtain ⟨S, a⟩ := p
    have hlink : ((Emission.link S a (m.step g S a)).calls g).length = 1 := rfl
    have hdeclare : ((Emission.declare (m.step g S a)).calls g).length = 1 := by
      rw [Emission.calls_declare]
      rfl
    by_cases h : m.step g S a ∈ seen
    · simp only [script, fresh, h, if_true, List.flatMap_cons, List.length_append, ih,
        List.length_cons, hlink]
      omega
    · simp only [script, fresh, h, if_false, List.flatMap_cons, List.length_append, ih,
        List.length_cons, hlink, hdeclare]
      omega

theorem announced_script {seen : List StateSet} {l : List (StateSet × Char)}
    (h : ∀ S a, (S, a) ∈ l → S ∈ seen) : Emission.Announced seen (m.script g seen l) := by
  induction l generalizing seen with
  | nil => trivial
  | cons p l ih =>
    obtain ⟨S, a⟩ := p
    have hS := h S a List.mem_cons_self
    by_cases hT : m.step g S a ∈ seen
    · rw [script, if_pos hT]
      refine ⟨⟨hS, hT⟩, ?_⟩
      rw [Emission.declared, List.append_nil]
      exact ih fun R b hm => h R b (List.mem_cons_of_mem _ hm)
    · rw [script, if_neg hT]
      refine ⟨trivial, ⟨List.mem_append_left _ hS, by simp [Emission.declared]⟩, ?_⟩
      rw [Emission.declared, Emission.declared, List.append_nil]
      exact ih fun R b hm => List.mem_append_left _ (h R b (List.mem_cons_of_mem _ hm))

/-! ## Breadth-first search -/

/-- With `seen` known and `queue` waiting, expanding until nothing waits meets the subsets `news`,
which are known and wait in the order in which they are met. -/
inductive Explores (m : NFA) (g : Graph) :
    List StateSet → List StateSet → List StateSet → Prop
  | done (seen : List StateSet) : Explores m g seen [] []
  | next {seen queue later : List StateSet} (S : StateSet) :
      Explores m g (seen ++ m.fresh g seen (m.pairs [S])) (queue ++ m.fresh g seen (m.pairs [S]))
        later →
      Explores m g seen (S :: queue) (m.fresh g seen (m.pairs [S]) ++ later)

variable {seen queue news : List StateSet}

theorem Explores.fresh_eq (h : m.Explores g seen queue news) :
    m.fresh g seen (m.pairs (queue ++ news)) = news := by
  induction h with
  | done seen => rfl
  | next S _ ih =>
    rw [List.cons_append, pairs_cons, fresh_append, ← List.append_assoc, ih]

/-- What the search tells is what its first expansion tells and then the rest. -/
theorem script_next (seen queue later : List StateSet) (S : StateSet) :
    m.script g seen (m.pairs (S :: queue ++ (m.fresh g seen (m.pairs [S]) ++ later))) =
      m.script g seen (m.pairs [S]) ++ m.script g (seen ++ m.fresh g seen (m.pairs [S]))
        (m.pairs (queue ++ m.fresh g seen (m.pairs [S]) ++ later)) := by
  rw [List.cons_append, pairs_cons, script_append, ← List.append_assoc]

theorem Explores.announced (h : m.Explores g seen queue news) (hq : ∀ S ∈ queue, S ∈ seen) :
    Emission.Announced seen (m.script g seen (m.pairs (queue ++ news))) := by
  induction h with
  | done seen => trivial
  | @next seen queue later S _ ih =>
    rw [script_next, Emission.announced_append, declared_script]
    refine ⟨announced_script fun R a hm => ?_, ih fun R hR => ?_⟩
    · rw [mem_pairs, List.mem_singleton] at hm
      rw [hm.1]
      exact hq S List.mem_cons_self
    · rcases List.mem_append.mp hR with hR | hR
      · exact List.mem_append_left _ (hq R (List.mem_cons_of_mem _ hR))
      · exact List.mem_append_right _ hR

/-- Whatever holds of the waiting subsets and is passed along steps holds of all that is met. -/
theorem Explores.sound (h : m.Explores g seen queue news) {P : StateSet → Prop}
    (hstep : ∀ S a, P S → a ∈ m.alphabet → P (m.step g S a)) (hq : ∀ S ∈ queue, P S) :
    ∀ S ∈ news, P S := by
  induction h with
  | done seen => simp
  | @next seen queue later S _ ih =>
    have hfresh : ∀ T ∈ m.fresh g seen (m.pairs [S]), P T := by
      intro T hT
      obtain ⟨R, a, hm, rfl⟩ := mem_fresh hT
      rw [mem_pairs, List.mem_singleton] at hm
      exact hstep R a (hm.1 ▸ hq S List.mem_cons_self) hm.2
    have hlater := ih fun R hR => by
      rcases List.mem_append.mp hR with hR | hR
      · exact hq R (List.mem_cons_of_mem _ hR)
      · exact hfresh R hR
    intro T hT
    rcases List.mem_append.mp hT with hT | hT
    · exact hfresh T hT
    · exact hlater T hT

/-- Steps from the subsets that waited or were met lead to subsets that are known in the end. -/
theorem Explores.step_mem (h : m.Explores g seen queue news) {S : StateSet} {a : Char}
    (hS : S ∈ queue ++ news) (ha : a ∈ m.alphabet) : m.step g S a ∈ seen ++ news := by
  have hm := step_mem_fresh (m := m) (g := g) seen (mem_pairs.mpr ⟨hS, ha⟩)
  rw [h.fresh_eq] at hm
  exact hm

theorem Explores.nodup (h : m.Explores g seen queue news) (hs : seen.Nodup) :
    (seen ++ news).Nodup := by
  have hn := nodup_fresh (m := m) (g := g) (m.pairs (queue ++ news)) hs
  rw [h.fresh_eq] at hn
  exact hn

end NFA

end Determinize
