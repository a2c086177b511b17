import Determinize.DFA

/-!
# Feeding calls to a deterministic automaton

The automaton that a list of calls leaves is read off the list: a pair is bound exactly if it was
bound before or some call binds it, and a state accepts exactly if it did before or some call says
so. A call is refused exactly if the bindings before and those in the list do not agree. The states
and the symbols are listed in the order in which the calls first mention them; a transition mentions
both its ends, whether or not they were declared.

Results:
* `take_cases`: everything a call can do;
* `feed_extends`: what calls leave that are all taken;
* `feed_eq_none_iff`: all calls are taken exactly if no pair is offered two targets;
* `insertAll_of_subset`, `insertAll_of_nodup`: items that are there change nothing, and items that
  are not go to the end;
* `take_lists`, `feed_lists`: the lists of states and symbols behind calls that were taken.
-/
namespace Determinize

namespace DFA

/-- The automaton after calls that were all taken. -/
structure Extends (d : DFA) (l : List Call) (d' : DFA) : Prop where
  next : ∀ q a t, d'.next? q a = some t ↔ d.next? q a = some t ∨ .transition q a t ∈ l
  accepting : ∀ i, i ∈ d'.accepting ↔ i ∈ d.accepting ∨ .final i ∈ l
  init : (∀ i, .start i ∉ l) → d'.init = d.init

theorem Extends.refl (d : DFA) : Extends d [] d :=
  ⟨fun _ _ _ => by simp, fun _ => by simp, fun _ => rfl⟩

theorem Extends.trans {d d' d'' : DFA} {l k : List Call} (h : Extends d l d')
    (h' : Extends d' k d'') : Extends d (l ++ k) d'' := by
  refine ⟨fun q a t => ?_, fun i => ?_, fun hn => ?_⟩
  · rw [h'.next, h.next, List.mem_append, or_assoc]
  · rw [h'.accepting, h.accepting, List.mem_append, or_assoc]
  · rw [h'.init fun i hi => hn i (List.mem_append_right _ hi),
      h.init fun i hi => hn i (List.mem_append_left _ hi)]

/-! ## One call -/

theorem addTransition_of_free {d : DFA} {q a t : String}
    (h : ∀ u, d.next? q a = some u → u = t) : d.addTransition q a t = (d.link q a t, none) := by
  unfold addTransition
  cases hn : d.next? q a with
  | none => rfl
  | some u => exact if_pos (h u hn)

theorem extends_link {d : DFA} {q a t : String} (h : ∀ u, d.next? q a = some u → u = t) :
    Extends d [.transition q a t] (d.link q a t) := by
  refine ⟨fun r b u => ?_, fun i => ?_, fun _ => rfl⟩
  · rw [next?_addTransition (addTransition_of_free h)]
    split
    · rename_i he
      cases he
      have hu : d.next? q a = some u → u = t := h u
      simp only [Option.some.injEq, List.mem_singleton, Call.transition.injEq, true_and]
      refine ⟨fun hut => Or.inr hut.symm, fun hor => ?_⟩
      rcases hor with hb | hb
      · exact (hu hb).symm
      · exact hb.symm
    · rename_i hne
      have hcall : Call.transition r b u ≠ .transition q a t := by
        intro he
        cases he
        exact hne rfl
      simp [hcall]
  · simp [link, addState]

/-- A call is taken, or it is a transition whose pair has another target. -/
theorem take_cases (d : DFA) (c : Call) :
    (∃ d', d.take c = (d', none) ∧ Extends d [c] d') ∨
    (∃ q a t u, c = .transition q a t ∧ d.next? q a = some u ∧ u ≠ t ∧
      d.take c = (d, some ⟨q, a, u, t⟩)) := by
  cases c with
  | start i =>
    refine Or.inl ⟨d.addStart i, rfl, fun q a t => ?_, fun j => ?_, fun h => ?_⟩
    · simp [addStart, addState, next?]
    · simp [addStart, addState]
    · exact absurd (List.mem_singleton_self _) (h i)
  | state i =>
    refine Or.inl ⟨d.addState i, rfl, fun q a t => ?_, fun j => ?_, fun _ => rfl⟩
    · simp [addState, next?]
    · simp [addState]
  | final i =>
    refine Or.inl ⟨d.addFinal i, rfl, fun q a t => ?_, fun j => ?_, fun _ => rfl⟩
    · simp [addFinal, addState, next?]
    · simp only [addFinal, mem_insertNew, List.mem_singleton, Call.final.injEq]
      exact or_comm
  | transition q a t =>
    by_cases h : ∃ u, d.next? q a = some u ∧ u ≠ t
    · obtain ⟨u, hu, hne⟩ := h
      refine Or.inr ⟨q, a, t, u, rfl, hu, hne, ?_⟩
      exact addTransition_eq_refused_iff.mpr ⟨rfl, u, hu, hne, rfl⟩
    · have hfree : ∀ u, d.next? q a = some u → u = t := fun u hu =>
        Classical.byContradiction fun hne => h ⟨u, hu, hne⟩
      exact Or.inl ⟨d.link q a t, addTransition_of_free hfree, extends_link hfree⟩

/-! ## Many calls -/

theorem feed_extends {d d' : DFA} {l : List Call} (h : builder.feed d l = (d', none)) :
    Extends d l d' := by
  induction l generalizing d with
  | nil =>
    have he : d = d' := congrArg Prod.fst h
    exact he ▸ Extends.refl d
  | cons c l ih =>
    obtain ⟨d₁, ht, hx⟩ | ⟨q, a, t, u, -, -, -, ht⟩ := take_cases d c
    · simp only [Builder.feed, builder, ht] at h
      exact hx.trans (ih h)
    · simp only [Builder.feed, builder, ht] at h
      cases h

/-- The targets that a pair has or is offered. -/
def Offered (d : DFA) (l : List Call) (q a t : String) : Prop :=
  d.next? q a = some t ∨ .transition q a t ∈ l

theorem Extends.offered {d d' : DFA} {l k : List Call} (h : Extends d l d') {q a t : String} :
    d'.Offered k q a t ↔ d.Offered (l ++ k) q a t := by
  unfold Offered
  rw [h.next, List.mem_append, or_assoc]

/-- By induction on the calls: a taken call moves its binding from the list to the automaton, which
leaves the offers as they are, and a refused one shows two of them. -/
theorem feed_eq_none_iff {d : DFA} {l : List Call} :
    (builder.feed d l).2 = none ↔
      ∀ q a t u, d.Offered l q a t → d.Offered l q a u → t = u := by
  induction l generalizing d with
  | nil =>
    refine ⟨fun _ q a t u ht hu => ?_, fun _ => rfl⟩
    simp only [Offered, List.not_mem_nil, or_false] at ht hu
    rw [ht] at hu
    exact Option.some.inj hu
  | cons c l ih =>
    obtain ⟨d₁, ht, hx⟩ | ⟨q, a, t, u, rfl, hu, hne, ht⟩ := take_cases d c
    · simp only [Builder.feed, builder, ht]
      rw [show (c :: l) = [c] ++ l from rfl]
      simp only [← hx.offered]
      exact ih
    · simp only [Builder.feed, builder, ht, reduceCtorEq, false_iff]
      intro hall
      exact hne (hall q a u t (Or.inl hu) (Or.inr List.mem_cons_self))

end DFA

/-! ## Adding many items -/

/-- Adds items one after the other, each unless it is there. -/
def insertAll (xs l : List String) : List String := xs.foldl (fun l x => insertNew x l) l

@[simp] theorem insertAll_nil (l : List String) : insertAll [] l = l := rfl

@[simp] theorem insertAll_cons (x : String) (xs l : List String) :
    insertAll (x :: xs) l = insertAll xs (insertNew x l) := rfl

theorem insertAll_append (xs ys l : List String) :
    insertAll (xs ++ ys) l = insertAll ys (insertAll xs l) := List.foldl_append

theorem insertNew_of_mem {x : String} {l : List String} (h : x ∈ l) : insertNew x l = l := if_pos h

theorem insertAll_of_subset {xs l : List String} (h : ∀ x ∈ xs, x ∈ l) : insertAll xs l = l := by
  induction xs with
  | nil => rfl
  | cons x xs ih =>
    rw [insertAll_cons, insertNew_of_mem (h x List.mem_cons_self)]
    exact ih fun y hy => h y (List.mem_cons_of_mem _ hy)

theorem insertAll_of_nodup {xs l : List String} (h : (l ++ xs).Nodup) :
    insertAll xs l = l ++ xs := by
  induction xs generalizing l with
  | nil => simp
  | cons x xs ih =>
    have hx : x ∉ l := fun hm => (List.nodup_append.mp h).2.2 x hm x List.mem_cons_self rfl
    rw [List.append_cons] at h ⊢
    rw [insertAll_cons, insertNew, if_neg hx]
    exact ih h

theorem mem_insertAll {xs l : List String} {y : String} :
    y ∈ insertAll xs l ↔ y ∈ xs ∨ y ∈ l := by
  induction xs generalizing l with
  | nil => simp
  | cons x xs ih => rw [insertAll_cons, ih, mem_insertNew, List.mem_cons, or_assoc, or_left_comm]

theorem length_insertAll_le (xs l : List String) :
    (insertAll xs l).length ≤ l.length + xs.length := by
  induction xs generalizing l with
  | nil => simp
  | cons x xs ih =>
    have hx : (insertNew x l).length ≤ l.length + 1 := by
      unfold insertNew
      split <;> simp
    have hrest := ih (insertNew x l)
    rw [insertAll_cons, List.length_cons]
    omega

/-! ## What calls mention -/

namespace Call

/-- The states that a call mentions. -/
def mentioned : Call → List String
  | start id => [id]
  | state id => [id]
  | final id => [id]
  | transition source _ target => [source, target]

/-- The symbols that a call uses. -/
def used : Call → List String
  | transition _ symbol _ => [symbol]
  | _ => []

end Call

namespace DFA

theorem take_lists {d d' : DFA} {c : Call} (h : d.take c = (d', none)) :
    d'.states = insertAll c.mentioned d.states ∧ d'.alphabet = insertAll c.used d.alphabet := by
  cases c with
  | start id =>
    cases h
    exact ⟨rfl, rfl⟩
  | state id =>
    cases h
    exact ⟨rfl, rfl⟩
  | final id =>
    cases h
    exact ⟨rfl, rfl⟩
  | transition source symbol target =>
    rw [eq_link_of_addTransition h]
    exact ⟨rfl, rfl⟩

theorem feed_lists {d d' : DFA} {l : List Call} (h : builder.feed d l = (d', none)) :
    d'.states = insertAll (l.flatMap Call.mentioned) d.states ∧
      d'.alphabet = insertAll (l.flatMap Call.used) d.alphabet := by
  induction l generalizing d with
  | nil =>
    cases h
    exact ⟨rfl, rfl⟩
  | cons c l ih =>
    cases ht : d.take c with
    | mk d₁ r =>
      cases r with
      | some e =>
        simp only [Builder.feed, builder, ht] at h
        cases h
      | none =>
        simp only [Builder.feed, builder, ht] at h
        obtain ⟨hstates, halphabet⟩ := ih h
        obtain ⟨hs, ha⟩ := take_lists ht
        rw [List.flatMap_cons, List.flatMap_cons, insertAll_append, insertAll_append, ← hs, ← ha]
        exact ⟨hstates, halphabet⟩

end DFA

end Determinize
