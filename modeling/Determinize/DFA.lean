import Determinize.OrderedMap
import Determinize.Value

/-!
# Builders and deterministic automata

A deterministic automaton is handed over as a list of calls: states are declared by their
identifier, one of them as the start, and transitions are added between identifiers. A builder takes
the calls one by one. It may refuse a call, depending on its state, and its state after a refused
call is its own choice. Two builders are given here.

A recorder counts the calls it gets, from one, and keeps those it takes in order. It refuses the
calls whose numbers are on its list; a refused call is counted and not kept. Reading a recorder
empties the record, while the count goes on.

A deterministic automaton has states named by texts and at most one transition for a state and a
symbol. Declaring a state again changes nothing but its role; a transition brings its ends and its
symbol with it. A second target for a pair is refused before anything changes.

Results:
* `feed_append`: feeding two lists is feeding the second after the first went through;
* `feed_total`: a builder that never refuses takes every list;
* `Recorder.calls_feed`: with an empty list of numbers every call is kept;
* `DFA.addTransition_eq_refused_iff`: a transition is refused exactly when its pair has another
  target, and then leaves the automaton as it was;
* `DFA.next?_addTransition`: an accepted transition binds its pair and no other.
-/
namespace Determinize

/-- A call to a builder (the methods of `DFABuilder`). -/
inductive Call where
  | start (id : String)
  | state (id : String)
  | final (id : String)
  | transition (source symbol target : String)
  deriving DecidableEq

/-- A builder with states `σ` and refusals `ε`: the state after a call, and the refusal if there is
one (`DFABuilder`). -/
structure Builder (σ ε : Type) where
  take : σ → Call → σ × Option ε

namespace Builder

variable {σ ε : Type}

/-- Hands over calls in order, up to the first that is refused. -/
def feed (b : Builder σ ε) (s : σ) : List Call → σ × Option ε
  | [] => (s, none)
  | c :: rest =>
    match b.take s c with
    | (s', none) => b.feed s' rest
    | (s', some e) => (s', some e)

theorem feed_append (b : Builder σ ε) (s : σ) (l m : List Call) :
    b.feed s (l ++ m) =
      match b.feed s l with
      | (s', none) => b.feed s' m
      | (s', some e) => (s', some e) := by
  induction l generalizing s with
  | nil => rfl
  | cons c l ih =>
    simp only [List.cons_append, feed]
    cases h : b.take s c with
    | mk s' r =>
      cases r with
      | none => exact ih s'
      | some e => rfl

theorem feed_total (b : Builder σ ε) (h : ∀ s c, (b.take s c).2 = none) (s : σ) (l : List Call) :
    (b.feed s l).2 = none := by
  induction l generalizing s with
  | nil => rfl
  | cons c l ih =>
    have hc := h s c
    simp only [feed]
    cases ht : b.take s c with
    | mk s' r =>
      rw [ht] at hc
      simp only at hc
      subst hc
      exact ih s'

end Builder

/-! ## Recorders -/

/-- A recorder: the numbers of the calls it refuses, the calls so far, and those kept. -/
structure Recorder where
  failing : List Int
  count : Nat
  calls : List Call
  deriving DecidableEq

/-- The refusal of the call with a number. -/
structure Refusal where
  number : Nat
  deriving DecidableEq

/-- The wording of a refusal. -/
def Refusal.message (r : Refusal) : String := "call " ++ Value.digits r.number

namespace Recorder

/-- A recorder that has got no calls. -/
def new (failing : List Int) : Recorder := ⟨failing, 0, []⟩

/-- Counts a call, and keeps it or refuses it. -/
def take (r : Recorder) (c : Call) : Recorder × Option Refusal :=
  if Int.ofNat (r.count + 1) ∈ r.failing then
    ({ r with count := r.count + 1 }, some ⟨r.count + 1⟩)
  else ({ r with count := r.count + 1, calls := r.calls ++ [c] }, none)

/-- The recorder as a builder. -/
def builder : Builder Recorder Refusal := ⟨take⟩

/-- The recorder after its record was read. -/
def emptied (r : Recorder) : Recorder := { r with calls := [] }

theorem calls_feed (n : Nat) (kept l : List Call) :
    builder.feed ⟨[], n, kept⟩ l = (⟨[], n + l.length, kept ++ l⟩, none) := by
  induction l generalizing n kept with
  | nil => simp [Builder.feed]
  | cons c l ih =>
    have ht : builder.take ⟨[], n, kept⟩ c = (⟨[], n + 1, kept ++ [c]⟩, none) := by
      simp [builder, take]
    simp only [Builder.feed, ht, ih, List.length_cons, List.append_assoc, List.singleton_append]
    rw [Nat.add_assoc, Nat.add_comm 1]

end Recorder

/-! ## Deterministic automata -/

/-- Adds an item at the end of a list, unless it is there (`DFA._ensure_state`). -/
def insertNew (x : String) (l : List String) : List String := if x ∈ l then l else l ++ [x]

theorem mem_insertNew {x y : String} {l : List String} : y ∈ insertNew x l ↔ y = x ∨ y ∈ l := by
  unfold insertNew
  split
  · rename_i h
    refine ⟨Or.inr, fun hy => ?_⟩
    rcases hy with rfl | hy
    · exact h
    · exact hy
  · simp [or_comm]

/-- A deterministic automaton: symbols and states in order of first mention, the start, the set of
accepting states, and the transitions (`DFA`). -/
structure DFA where
  alphabet : List String
  states : List String
  init : Option String
  accepting : List String
  delta : OrderedMap (String × String) String
  deriving DecidableEq

/-- A transition that was refused because its pair has another target (the `ValueError` of
`DFA.add_transition`). -/
structure Conflict where
  source : String
  symbol : String
  bound : String
  offered : String
  deriving DecidableEq

/-- The wording of a conflict. -/
def Conflict.message (c : Conflict) : String :=
  "Nondeterministic transition from " ++ c.source ++ " on " ++ Text.quote c.symbol ++ ": " ++
    c.bound ++ " and " ++ c.offered

namespace DFA

/-- The automaton without states. -/
def empty : DFA := ⟨[], [], none, [], ∅⟩

instance : EmptyCollection DFA := ⟨empty⟩

instance : Inhabited DFA := ⟨empty⟩

/-- The automaton of given parts; symbols and states are kept as they are, also repeated ones, while
of the accepting states and of the targets of a pair only the set and the last are kept. -/
def ofParts (alphabet states : List String) (init : Option String) (accepting : List String)
    (delta : List ((String × String) × String)) : DFA :=
  ⟨alphabet, states, init, accepting.foldl (fun l q => insertNew q l) [], OrderedMap.ofList delta⟩

/-! ### Building -/

/-- Declares a state (`DFA.add_state`). -/
def addState (d : DFA) (id : String) : DFA := { d with states := insertNew id d.states }

/-- Declares a state as the start (`DFA.add_start_state`). -/
def addStart (d : DFA) (id : String) : DFA := { d.addState id with init := some id }

/-- Declares a state as accepting (`DFA.add_final_state`). -/
def addFinal (d : DFA) (id : String) : DFA :=
  { d.addState id with accepting := insertNew id d.accepting }

/-- The target of a state and a symbol (`DFA.next_state`). -/
def next? (d : DFA) (source symbol : String) : Option String := d.delta.get? (source, symbol)

/-- Binds a pair that has no other target, with both ends and the symbol. -/
def link (d : DFA) (source symbol target : String) : DFA :=
  { (d.addState source).addState target with
    alphabet := insertNew symbol d.alphabet
    delta := d.delta.put (source, symbol) target }

/-- Adds a transition (`DFA.add_transition`). The target that its pair has is looked up first; if it
is another one, the automaton is left as it was. -/
def addTransition (d : DFA) (source symbol target : String) : DFA × Option Conflict :=
  match d.next? source symbol with
  | some bound =>
    if bound = target then (d.link source symbol target, none)
    else (d, some ⟨source, symbol, bound, target⟩)
  | none => (d.link source symbol target, none)

/-- Takes a call. -/
def take (d : DFA) : Call → DFA × Option Conflict
  | .start id => (d.addStart id, none)
  | .state id => (d.addState id, none)
  | .final id => (d.addFinal id, none)
  | .transition source symbol target => d.addTransition source symbol target

/-- The automaton as a builder. -/
def builder : Builder DFA Conflict := ⟨take⟩

theorem addTransition_eq_refused_iff {d d' : DFA} {source symbol target : String} {e : Conflict} :
    d.addTransition source symbol target = (d', some e) ↔ d' = d ∧
      ∃ bound, d.next? source symbol = some bound ∧ bound ≠ target ∧
        e = ⟨source, symbol, bound, target⟩ := by
  unfold addTransition
  cases hb : d.next? source symbol with
  | none => simp
  | some bound =>
    by_cases h : bound = target
    · simp [h]
    · have h' : ¬ target = bound := fun he => h he.symm
      simp [h, h', eq_comm]

theorem eq_link_of_addTransition {d d' : DFA} {source symbol target : String}
    (h : d.addTransition source symbol target = (d', none)) : d' = d.link source symbol target := by
  unfold addTransition at h
  split at h
  · split at h
    · cases h
      rfl
    · cases h
  · cases h
    rfl

theorem next?_addTransition {d d' : DFA} {source symbol target : String}
    (h : d.addTransition source symbol target = (d', none)) (q a : String) :
    d'.next? q a = if (source, symbol) = (q, a) then some target else d.next? q a := by
  rw [eq_link_of_addTransition h]
  exact OrderedMap.get?_put d.delta (source, symbol) (q, a) target

/-! ### Reading -/

/-- Whether a word leads from a state to an accepting one; a missing transition refuses it. -/
def acceptsFrom (d : DFA) (q : String) : List Char → Bool
  | [] => q ∈ d.accepting
  | c :: w =>
    match d.next? q (String.singleton c) with
    | some r => d.acceptsFrom r w
    | none => false

/-- Whether the automaton accepts a word (`DFA.accepts`). Without a start it accepts none. -/
def accepts (d : DFA) (word : String) : Bool :=
  match d.init with
  | some q => d.acceptsFrom q word.toList
  | none => false

/-- Whether every state has a transition on every symbol (`DFA.is_total`). -/
def isTotal (d : DFA) : Bool :=
  d.states.all fun q => d.alphabet.all fun a => (d.next? q a).isSome

/-- The number of listed states (`DFA.size`). -/
def size (d : DFA) : Nat := d.states.length

/-- The number of transitions (`DFA.transition_count`). -/
def transitionCount (d : DFA) : Nat := d.delta.size

/-- Whether two automata agree: symbols and states in order, the start, and the accepting states and
the transitions in any order. -/
def agrees (d e : DFA) : Bool :=
  decide (d.alphabet = e.alphabet) && decide (d.states = e.states) && decide (d.init = e.init) &&
    d.accepting.all (fun q => q ∈ e.accepting) && e.accepting.all (fun q => q ∈ d.accepting) &&
    d.delta.entries.all (fun b => e.delta.get? b.1 = some b.2) &&
    e.delta.entries.all (fun b => d.delta.get? b.1 = some b.2)

end DFA

end Determinize
