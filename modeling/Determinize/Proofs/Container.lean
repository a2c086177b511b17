import Determinize.Proofs.Record
import Determinize.Proofs.Trim

/-!
# A deterministic automaton read off its calls

A deterministic automaton may be filled by hand, by calls in any order, and a caller may go on after
a refusal. Whatever was refused left no trace, so everything that the automaton holds can be read
off the calls that it took: who was mentioned first, what was said last, and which target a pair
got first.

Results:
* `insertAll_eraseDups`: adding items one by one keeps the first of each;
* `holds_taken`, `holds_refused`, `holds_takes`: what the fields hold behind a call and behind all;
* `Holds.ends`, `next?_takes_append`: transitions lead between listed states, and stay as they are;
* `isTotal_iff_foldlM`: totality is that no word over the alphabet is stuck;
* `takes_exact`: the contents behind any calls.
-/
namespace Determinize

/-- Adding items one by one keeps the first occurrence of each. -/
theorem insertAll_eraseDups (xs l : List String) :
    insertAll xs l.eraseDups = (l ++ xs).eraseDups := by
  induction xs generalizing l with
  | nil => rw [insertAll_nil, List.append_nil]
  | cons x xs ih =>
    have hone : insertNew x l.eraseDups = (l ++ [x]).eraseDups := by
      rw [insertNew, eraseDups_concat]
      simp only [List.mem_eraseDups]
    rw [insertAll_cons, hone, ih, ← List.append_cons]

namespace Call

/-- The start that a call declares. -/
def start? : Call → Option String
  | start id => some id
  | _ => none

/-- The accepting state that a call declares. -/
def final? : Call → Option String
  | final id => some id
  | _ => none

/-- The pair that a call binds. -/
def pair? : Call → Option (String × String)
  | transition source symbol _ => some (source, symbol)
  | _ => none

/-- The target that a call gives to a pair. -/
def target? (q a : String) : Call → Option String
  | transition source symbol target => if source = q ∧ symbol = a then some target else none
  | _ => none

theorem target?_eq_some_iff {q a t : String} {c : Call} :
    c.target? q a = some t ↔ c = .transition q a t := by
  cases c with
  | transition source symbol target => simp [target?, and_assoc]
  | _ => simp [target?]

theorem mem_used {a : String} {c : Call} : a ∈ c.used ↔ ∃ q t, c = .transition q a t := by
  cases c with
  | transition source symbol target => simp [used, eq_comm]
  | _ => simp [used]

theorem pair?_eq_some_iff {q a : String} {c : Call} :
    c.pair? = some (q, a) ↔ ∃ t, c = .transition q a t := by
  cases c <;> simp [pair?]

end Call

namespace DFA

/-- What calls leave, where a refused one changes nothing. -/
def takes (d : DFA) (calls : List Call) : DFA := calls.foldl (fun d c => (d.take c).1) d

/-- Those of the calls on the automaton without states that it takes. -/
def accepted (calls : List Call) : List Call :=
  collect (fun before c => if ((takes ∅ before).take c).2 = none then [c] else []) [] calls

theorem takes_concat (d : DFA) (calls : List Call) (c : Call) :
    d.takes (calls ++ [c]) = ((d.takes calls).take c).1 :=
  List.foldl_append

theorem accepted_concat (calls : List Call) (c : Call) : accepted (calls ++ [c]) =
    accepted calls ++ if ((takes ∅ calls).take c).2 = none then [c] else [] :=
  collect_concat _ [] calls c

/-! ## What the fields hold -/

/-- The automaton holds what the calls say, of which it took those in `taken`. -/
structure Holds (d : DFA) (calls taken : List Call) : Prop where
  states : d.states = (taken.flatMap Call.mentioned).eraseDups
  alphabet : d.alphabet = (taken.flatMap Call.used).eraseDups
  init : d.init = (calls.filterMap Call.start?).getLast?
  accepting : d.accepting = (calls.filterMap Call.final?).eraseDups
  next : ∀ q a, d.next? q a = taken.findSome? (Call.target? q a)
  pairs : d.delta.keys = (taken.filterMap Call.pair?).eraseDups

variable {d d' : DFA} {calls taken : List Call} {c : Call}

theorem holds_empty : Holds ∅ [] [] where
  states := rfl
  alphabet := rfl
  init := rfl
  accepting := rfl
  next _ _ := rfl
  pairs := rfl

theorem init_take (h : d.take c = (d', none)) : d'.init = c.start?.or d.init := by
  cases c with
  | transition q a t =>
    rw [eq_link_of_addTransition h]
    rfl
  | _ =>
    cases h
    rfl

theorem accepting_take (h : d.take c = (d', none)) :
    d'.accepting = insertAll c.final?.toList d.accepting := by
  cases c with
  | transition q a t =>
    rw [eq_link_of_addTransition h]
    rfl
  | _ =>
    cases h
    rfl

theorem keys_take (h : d.take c = (d', none)) : d'.delta.keys =
    match c.pair? with
    | some k => if k ∈ d.delta then d.delta.keys else d.delta.keys ++ [k]
    | none => d.delta.keys := by
  cases c with
  | transition q a t =>
    rw [eq_link_of_addTransition h]
    exact OrderedMap.keys_put d.delta (q, a) t
  | _ =>
    cases h
    rfl

/-- A pair keeps its target; a call that is taken can only give it one if it has none. -/
theorem next?_take (h : d.take c = (d', none)) (q a : String) :
    d'.next? q a = (d.next? q a).or (c.target? q a) := by
  obtain ⟨d₁, ht, hx⟩ | ⟨_, _, _, _, -, -, -, ht⟩ := take_cases d c <;> rw [h] at ht <;> cases ht
  refine Option.ext fun t => ?_
  rw [hx.next, Option.or_eq_some_iff, Call.target?_eq_some_iff, List.mem_singleton]
  constructor
  · rintro (hb | rfl)
    · exact Or.inl hb
    · cases hn : d.next? q a with
      | none => exact Or.inr ⟨rfl, rfl⟩
      | some u =>
        have hold := (hx.next q a u).mpr (Or.inl hn)
        rw [(hx.next q a t).mpr (Or.inr (List.mem_singleton_self _))] at hold
        exact Or.inl hold.symm
  · rintro (hb | ⟨-, rfl⟩)
    · exact Or.inl hb
    · exact Or.inr rfl

/-- One more call that is taken. -/
theorem holds_taken (hd : d.Holds calls taken) (h : d.take c = (d', none)) :
    d'.Holds (calls ++ [c]) (taken ++ [c]) := by
  obtain ⟨hstates, halphabet⟩ := take_lists h
  refine ⟨?_, ?_, ?_, ?_, fun q a => ?_, ?_⟩
  · rw [hstates, hd.states, insertAll_eraseDups, List.flatMap_append, List.flatMap_singleton]
  · rw [halphabet, hd.alphabet, insertAll_eraseDups, List.flatMap_append, List.flatMap_singleton]
  · rw [init_take h, hd.init, List.filterMap_append, List.getLast?_append]
    cases hc : c.start? <;> simp [hc]
  · rw [accepting_take h, hd.accepting, insertAll_eraseDups, List.filterMap_append]
    cases hc : c.final? <;> simp [hc]
  · rw [next?_take h, hd.next, List.findSome?_append, List.findSome?_singleton]
  · rw [keys_take h, List.filterMap_append]
    cases hc : c.pair? with
    | none => simp [hc, hd.pairs]
    | some k =>
      have hone : [c].filterMap Call.pair? = [k] := by simp [hc]
      have hk : k ∈ d.delta ↔ k ∈ taken.filterMap Call.pair? := by
        rw [OrderedMap.mem_def, hd.pairs, List.mem_eraseDups]
      rw [hone, eraseDups_concat]
      simp only [hk, hd.pairs]

/-- Only a transition is refused, and then nothing of it is left. -/
theorem take_refused {e : Conflict} (h : (d.take c).2 = some e) :
    (∃ q a t, c = .transition q a t ∧ d.addTransition q a t = (d, some e)) ∧
      (d.take c).1 = d := by
  obtain ⟨d', ht, -⟩ | ⟨q, a, t, u, rfl, -, -, ht⟩ := take_cases d c <;> rw [ht] at h <;> cases h
  exact ⟨⟨q, a, t, rfl, ht⟩, congrArg Prod.fst ht⟩

theorem holds_refused {e : Conflict} (hd : d.Holds calls taken) (h : (d.take c).2 = some e) :
    d.Holds (calls ++ [c]) taken := by
  obtain ⟨⟨q, a, t, rfl, -⟩, -⟩ := take_refused h
  have hstart : [Call.transition q a t].filterMap Call.start? = [] := rfl
  have hfinal : [Call.transition q a t].filterMap Call.final? = [] := rfl
  refine ⟨hd.states, hd.alphabet, ?_, ?_, hd.next, hd.pairs⟩
  · rw [hd.init, List.filterMap_append, hstart, List.append_nil]
  · rw [hd.accepting, List.filterMap_append, hfinal, List.append_nil]

theorem holds_takes (calls : List Call) : (takes ∅ calls).Holds calls (accepted calls) := by
  induction calls using List.reverseRecOn with
  | nil => exact holds_empty
  | append_singleton calls c ih =>
    rw [takes_concat, accepted_concat]
    cases hr : ((takes ∅ calls).take c).2 with
    | none =>
      rw [if_pos rfl]
      exact holds_taken ih (Prod.ext rfl hr)
    | some e =>
      rw [if_neg (by simp), List.append_nil, (take_refused hr).2]
      exact holds_refused ih hr

/-! ## What follows from it -/

theorem Holds.next?_eq_some (h : d.Holds calls taken) {q a t : String}
    (ht : d.next? q a = some t) : .transition q a t ∈ taken := by
  rw [h.next] at ht
  obtain ⟨c, hc, he⟩ := List.exists_of_findSome?_eq_some ht
  rwa [Call.target?_eq_some_iff.mp he] at hc

/-- Transitions lead from listed states to listed states. -/
theorem Holds.ends (h : d.Holds calls taken) {q a t : String} (ht : d.next? q a = some t) :
    q ∈ d.states ∧ t ∈ d.states := by
  have hmem : ∀ x ∈ (Call.transition q a t).mentioned, x ∈ d.states := fun x hx => by
    rw [h.states, List.mem_eraseDups]
    exact List.mem_flatMap.mpr ⟨_, h.next?_eq_some ht, hx⟩
  exact ⟨hmem q (by simp [Call.mentioned]), hmem t (by simp [Call.mentioned])⟩

/-- The symbols are those of the pairs that have a target. -/
theorem Holds.mem_alphabet (h : d.Holds calls taken) {a : String} :
    a ∈ d.alphabet ↔ ∃ q, (q, a) ∈ d.delta := by
  simp only [h.alphabet, OrderedMap.mem_def, h.pairs, List.mem_eraseDups, List.mem_flatMap,
    List.mem_filterMap, Call.mem_used, Call.pair?_eq_some_iff]
  constructor
  · rintro ⟨c, hc, q, t, he⟩
    exact ⟨q, c, hc, t, he⟩
  · rintro ⟨q, c, hc, t, he⟩
    exact ⟨c, hc, q, t, he⟩

theorem next?_takes_append {q a t : String} (h : d.next? q a = some t) (more : List Call) :
    (d.takes more).next? q a = some t := by
  induction more generalizing d with
  | nil => exact h
  | cons c more ih =>
    refine ih (d := (d.take c).1) ?_
    cases hr : (d.take c).2 with
    | none => rw [next?_take (Prod.ext rfl hr), h, Option.some_or]
    | some e => rw [(take_refused hr).2, h]

/-- An automaton whose transitions lead to its states is total exactly if from each of them every
word over the alphabet can be followed to its end. -/
theorem isTotal_iff_foldlM (hends : ∀ {q a t : String}, d.next? q a = some t → t ∈ d.states) :
    d.isTotal = true ↔ ∀ q ∈ d.states, ∀ w : List String, (∀ a ∈ w, a ∈ d.alphabet) →
      (w.foldlM d.next? q).isSome = true := by
  rw [isTotal_iff]
  refine ⟨fun h q hq w hw => ?_, fun h q hq a ha => ?_⟩
  · induction w generalizing q with
    | nil => rfl
    | cons a w ih =>
      rw [List.forall_mem_cons] at hw
      obtain ⟨t, ht⟩ := Option.isSome_iff_exists.mp
        (OrderedMap.mem_iff_get?_isSome.mp (h q hq a hw.1))
      have hnext : d.next? q a = some t := ht
      rw [List.foldlM_cons, hnext]
      exact ih t (hends hnext) hw.2
  · have hone := h q hq [a] (by simpa using ha)
    rw [OrderedMap.mem_iff_get?_isSome]
    simpa [next?] using hone

/-- **The contents of a deterministic automaton** behind any calls on the one without states, where
the caller goes on after a refusal. States and symbols are listed in the order in which the calls
that were taken first mention them, and the pairs in the order in which they were bound; the symbols
are those of the pairs. The start is the one declared last, and the accepting states are those
declared so. A pair has the target of the first call for it that was taken, and no further calls
change it; both ends of a transition are listed. A transition is refused exactly if its pair has
another target; nothing else is refused, and a refusal leaves everything as it was. So the automaton
is total exactly if no word over its alphabet is stuck at any of its states. -/
theorem takes_exact (calls : List Call) :
    (takes ∅ calls).states = ((accepted calls).flatMap Call.mentioned).eraseDups ∧
    (takes ∅ calls).alphabet = ((accepted calls).flatMap Call.used).eraseDups ∧
    (∀ a, a ∈ (takes ∅ calls).alphabet ↔ ∃ q, (q, a) ∈ (takes ∅ calls).delta) ∧
    (takes ∅ calls).init = (calls.filterMap Call.start?).getLast? ∧
    (takes ∅ calls).accepting = (calls.filterMap Call.final?).eraseDups ∧
    (takes ∅ calls).delta.keys = ((accepted calls).filterMap Call.pair?).eraseDups ∧
    (∀ q a t, (takes ∅ calls).next? q a = some t →
      q ∈ (takes ∅ calls).states ∧ t ∈ (takes ∅ calls).states) ∧
    (∀ q a, (takes ∅ calls).next? q a = (accepted calls).findSome? (Call.target? q a)) ∧
    (∀ q a t, (takes ∅ calls).next? q a = some t → ∀ more,
      (takes ∅ (calls ++ more)).next? q a = some t) ∧
    (∀ q a t d e, (takes ∅ calls).addTransition q a t = (d, some e) ↔ d = takes ∅ calls ∧
      ∃ bound, (takes ∅ calls).next? q a = some bound ∧ bound ≠ t ∧ e = ⟨q, a, bound, t⟩) ∧
    (∀ c e, ((takes ∅ calls).take c).2 = some e →
      (∃ q a t, c = .transition q a t ∧
        (takes ∅ calls).addTransition q a t = (takes ∅ calls, some e)) ∧
      takes ∅ (calls ++ [c]) = takes ∅ calls) ∧
    ((takes ∅ calls).isTotal = true ↔ ∀ q ∈ (takes ∅ calls).states, ∀ w : List String,
      (∀ a ∈ w, a ∈ (takes ∅ calls).alphabet) →
        (w.foldlM (takes ∅ calls).next? q).isSome = true) := by
  have h := holds_takes calls
  refine ⟨h.states, h.alphabet, fun a => h.mem_alphabet, h.init, h.accepting, h.pairs,
    fun q a t => h.ends, h.next, fun q a t ht more => ?_,
    fun q a t d e => addTransition_eq_refused_iff, fun c e he => ⟨(take_refused he).1, ?_⟩,
    isTotal_iff_foldlM fun ht => (h.ends ht).2⟩
  · rw [takes, List.foldl_append]
    exact next?_takes_append ht more
  · rw [takes_concat, (take_refused he).2]

/-- Calls in which a state is mentioned before it is declared, a pair is offered a second target and
then its own again, and the start is declared twice. -/
def mixedCalls : List Call :=
  [.transition "q" "a" "p", .start "p", .transition "q" "a" "q", .final "q",
    .transition "p" "bc" "r", .transition "q" "a" "p", .start "r", .final "q"]

theorem takes_exact_mixed : (accepted mixedCalls).length = 7 ∧
    (takes ∅ mixedCalls).states = ["q", "p", "r"] ∧ (takes ∅ mixedCalls).alphabet = ["a", "bc"] ∧
    (takes ∅ mixedCalls).init = some "r" ∧ (takes ∅ mixedCalls).accepting = ["q"] ∧
    (takes ∅ (mixedCalls ++ [.transition "q" "a" "r"])).next? "q" "a" = some "p" ∧
    ¬ ∀ q ∈ (takes ∅ mixedCalls).states, ∀ w : List String,
      (∀ a ∈ w, a ∈ (takes ∅ mixedCalls).alphabet) →
        (w.foldlM (takes ∅ mixedCalls).next? q).isSome = true := by
  obtain ⟨hstates, halphabet, -, hinit, haccepting, -, -, hnext, hkept, -, -, htotal⟩ :=
    takes_exact mixedCalls
  have hbound : (takes ∅ mixedCalls).next? "q" "a" = some "p" := (hnext "q" "a").trans (by decide)
  refine ⟨by decide, hstates.trans (by decide), halphabet.trans (by decide),
    hinit.trans (by decide), haccepting.trans (by decide), hkept "q" "a" "p" hbound _, ?_⟩
  rw [← htotal]
  decide

end DFA

end Determinize
