import Determinize.Graph
import Determinize.Value

/-!
# Nondeterministic automata

An automaton is a view of a graph: the states it knows by name in the order they were added, which
of them is the start, and the symbols of its transitions in the order of their first use. One
character is reserved for the moves that read nothing; it is never a symbol. A second setting says
whether repeated state names are also logged.

The automaton grows by edits. Adding a state whose name is taken keeps the first state as it is and
yields a warning; a collector keeps the warnings of one or more automata in the order in which they
were reported. A transition is refused unless both names are known and its symbol is one character.
The checks come before any change, and an edit returns the graph and the automaton beside the
refusal, so that what a refused edit leaves is part of its result.

A word is read by stepping through closed sets of states: from the closure of the start under the
moves that read nothing, each symbol leads to the closure of the move on it. A symbol outside the
alphabet refuses the word, and so does a symbol after which no state is left.

Results:
* `Config.ofValue_eq_ok_iff`: settings are accepted exactly for a text of one character;
* `Config.ofOptions_none`: the default settings pass their own check;
* `Diagnostics.last?_report`: a reported warning is the last one;
* `add_fresh`, `add_taken`: what an addition does to the automaton;
* `connect_cases`: a transition is taken between known states, or refused with everything kept;
* `mem_learn`: the symbols after a transition was taken;
* `step_within`, `step_empty`: a step stays within the graph, and leads from nowhere to nowhere.
-/
namespace Determinize

/-! ## Settings -/

/-- The settings: the character of the empty moves, and whether repeated names are logged
(`Config`). -/
structure Config where
  epsilon : Char := 'e'
  logDuplicates : Bool := true
  deriving DecidableEq

/-- A value that was refused as the character of the empty moves (`ConfigurationError`). -/
structure InvalidEpsilon where
  offered : Value

/-- The wording of the refusal. -/
def InvalidEpsilon.message (e : InvalidEpsilon) : String :=
  "epsilon must be a single character, got " ++ e.offered.shown

namespace Config

instance : Inhabited Config := ⟨{}⟩

/-- The settings with the given values; the character of the empty moves must be one character
(`Config.__post_init__`). -/
def ofValue (epsilon : Value) (logDuplicates : Bool) : Except InvalidEpsilon Config :=
  match epsilon.char? with
  | some c => .ok ⟨c, logDuplicates⟩
  | none => .error ⟨epsilon⟩

/-- The character of the empty moves as an edge label. -/
def epsilonLabel (c : Config) : String := String.singleton c.epsilon

theorem ofValue_eq_ok_iff {v : Value} {b : Bool} {c : Config} :
    ofValue v b = .ok c ↔ v = .text c.epsilonLabel ∧ c.logDuplicates = b := by
  unfold ofValue
  split
  · rename_i d hd
    rw [Value.char?_eq_some_iff] at hd
    subst hd
    cases c
    simp [epsilonLabel, eq_comm]
  · rename_i hn
    refine ⟨fun h => ?_, fun h => ?_⟩
    · cases h
    · obtain ⟨rfl, -⟩ := h
      rw [epsilonLabel, Value.char?_eq_some_iff.mpr rfl] at hn
      cases hn

/-- The settings with the values that are given, and the default ones for the others. -/
def ofOptions (epsilon : Option Value) (logDuplicates : Option Bool) :
    Except InvalidEpsilon Config :=
  let default : Config := {}
  ofValue (epsilon.getD (.text default.epsilonLabel)) (logDuplicates.getD default.logDuplicates)

/-- All settings pass their own check. -/
theorem ofValue_epsilonLabel (c : Config) :
    ofValue (.text c.epsilonLabel) c.logDuplicates = .ok c :=
  ofValue_eq_ok_iff.mpr ⟨rfl, rfl⟩

/-- Without values of their own the settings are the default ones (`Config.default`). -/
theorem ofOptions_none : ofOptions none none = .ok {} := ofValue_epsilonLabel {}

end Config

/-! ## Warnings and their collector -/

/-- An addition that was ignored because its name was taken, with the roles it asked for
(`DuplicateStateWarning`). -/
structure Warning where
  name : String
  requestedFinal : Bool := false
  requestedStart : Bool := false
  deriving DecidableEq

namespace Warning

/-- What the warning says. -/
def message (w : Warning) : String :=
  "A state with name " ++ Text.quote w.name ++ " already exists in the NFA"

/-- The warning with all its fields. -/
def shown (w : Warning) : String :=
  "DuplicateStateWarning(name=" ++ Text.quote w.name ++
    ", requested_final=" ++ (Value.bool w.requestedFinal).shown ++
    ", requested_start=" ++ (Value.bool w.requestedStart).shown ++ ")"

end Warning

/-- A collector of warnings, in the order of the reports (`Diagnostics`). -/
structure Diagnostics where
  warnings : List Warning
  deriving DecidableEq

namespace Diagnostics

instance : EmptyCollection Diagnostics := ⟨⟨[]⟩⟩

/-- Adds a warning at the end (`Diagnostics.warn`). -/
def report (d : Diagnostics) (w : Warning) : Diagnostics := ⟨d.warnings ++ [w]⟩

/-- The number of warnings (`len`). -/
def size (d : Diagnostics) : Nat := d.warnings.length

/-- The warning reported last (`Diagnostics.last`). -/
def last? (d : Diagnostics) : Option Warning := d.warnings.getLast?

/-- The collector with all its warnings. -/
def shown (d : Diagnostics) : String :=
  "Diagnostics(warnings=" ++ Text.bracket (d.warnings.map Warning.shown) ++ ")"

theorem last?_report (d : Diagnostics) (w : Warning) : (d.report w).last? = some w := by
  simp [last?, report]

end Diagnostics

/-! ## Automata and their edits -/

/-- A nondeterministic automaton over the states of a graph (`NFA`). -/
structure NFA where
  config : Config
  states : OrderedMap String StateId
  start : Option StateId
  alphabet : List Char
  deriving DecidableEq

/-- The role that a state is added for. -/
inductive Role where
  | start
  | plain
  | final
  deriving DecidableEq

/-- An edit of an automaton: a named state (`add_start_state`, `add_state`, `add_final_state`), or a
transition between two names (`add_transition`). -/
inductive Edit where
  | add (role : Role) (name : String)
  | connect (source : String) (symbol : Value) (target : String)

/-- Why a transition was refused (`UnknownStateError`, `InvalidSymbolError`). -/
inductive EditError where
  | unknownState (name : String)
  | invalidSymbol (symbol : Value)

/-- The wording of a refusal. -/
def EditError.message : EditError → String
  | unknownState name => "No NFA state exists with name " ++ Text.quote name
  | invalidSymbol symbol => "Transition symbol must be a single character, got " ++ symbol.shown

/-- What an edit leaves: the graph and the automaton, the warning if there is one, and the refusal
if it was refused. -/
structure Edited where
  graph : Graph
  nfa : NFA
  warning : Option Warning
  refusal : Option EditError

namespace NFA

/-- The automaton without states. -/
def new (config : Config) : NFA := ⟨config, ∅, none, []⟩

instance : Inhabited NFA := ⟨new {}⟩

/-- The label of the moves that read nothing (`NFA.epsilon`). -/
def epsilon (m : NFA) : String := m.config.epsilonLabel

/-- The number of states (`NFA.size`). -/
def size (m : NFA) : Nat := m.states.size

/-- The state of a name (`NFA.get_state`). -/
def state? (m : NFA) (name : String) : Option StateId := m.states.get? name

/-- The final states in the order they were added (`NFA.final_states`). -/
def finals (m : NFA) (g : Graph) : List StateId := m.states.values.filter fun s => g.isFinal s

/-- Makes `s` the start if the role asks for it. -/
def withRole (m : NFA) (role : Role) (s : StateId) : NFA :=
  match role with
  | .start => { m with start := some s }
  | _ => m

/-- Adds a state of a name for a role (`NFA._add`). -/
def add (g : Graph) (m : NFA) (role : Role) (name : String) : Edited :=
  match m.state? name with
  | some s => ⟨g, m.withRole role s, some ⟨name, role = .final, role = .start⟩, none⟩
  | none =>
    ⟨g.addState name (role = .final),
      { m with states := m.states.put name g.size }.withRole role g.size, none, none⟩

/-- Takes a symbol into the alphabet, unless it is there or reads nothing. -/
def learn (m : NFA) (c : Char) : NFA :=
  if c = m.config.epsilon ∨ c ∈ m.alphabet then m else { m with alphabet := m.alphabet ++ [c] }

/-- Adds a transition between the states of two names (`NFA.add_transition`): after the checks of
both names and of the symbol, first the edge and then the symbol. -/
def connect (g : Graph) (m : NFA) (source : String) (symbol : Value) (target : String) : Edited :=
  match m.state? source with
  | none => ⟨g, m, none, some (.unknownState source)⟩
  | some s =>
    match m.state? target with
    | none => ⟨g, m, none, some (.unknownState target)⟩
    | some t =>
      match symbol.char? with
      | none => ⟨g, m, none, some (.invalidSymbol symbol)⟩
      | some c => ⟨g.addEdge s (String.singleton c) t, m.learn c, none, none⟩

/-- Carries out an edit. -/
def edit (g : Graph) (m : NFA) : Edit → Edited
  | .add role name => add g m role name
  | .connect source symbol target => connect g m source symbol target

theorem add_taken {g : Graph} {m : NFA} {name : String} {s : StateId} (role : Role)
    (h : m.state? name = some s) : add g m role name =
      ⟨g, m.withRole role s, some ⟨name, role = .final, role = .start⟩, none⟩ := by
  unfold add
  rw [h]

theorem add_fresh {g : Graph} {m : NFA} {name : String} (role : Role) (h : m.state? name = none) :
    add g m role name = ⟨g.addState name (role = .final),
      { m with states := m.states.put name g.size }.withRole role g.size, none, none⟩ := by
  unfold add
  rw [h]

theorem mem_learn {m : NFA} {c d : Char} :
    d ∈ (m.learn c).alphabet ↔ d ∈ m.alphabet ∨ d = c ∧ c ≠ m.config.epsilon := by
  unfold learn
  split
  · rename_i h
    rcases h with h | h
    · simp [h]
    · refine ⟨Or.inl, fun hd => ?_⟩
      rcases hd with hd | ⟨rfl, -⟩
      · exact hd
      · exact h
  · rename_i h
    rw [not_or] at h
    simp [h.1]

/-- A transition is refused with everything kept, or it leads between known states. -/
theorem connect_cases (g : Graph) (m : NFA) (source : String) (symbol : Value) (target : String) :
    (∃ error, connect g m source symbol target = ⟨g, m, none, some error⟩) ∨
    ∃ s t c, m.state? source = some s ∧ m.state? target = some t ∧
      symbol = .text (String.singleton c) ∧ connect g m source symbol target =
        ⟨g.addEdge s (String.singleton c) t, m.learn c, none, none⟩ := by
  unfold connect
  split
  · exact Or.inl ⟨_, rfl⟩
  · rename_i s hs
    split
    · exact Or.inl ⟨_, rfl⟩
    · rename_i t ht
      split
      · exact Or.inl ⟨_, rfl⟩
      · rename_i c hc
        exact Or.inr ⟨s, t, c, hs, ht, Value.char?_eq_some_iff.mp hc, rfl⟩

/-- A refused edit leaves the graph and the automaton as they were, and warns of nothing. -/
theorem edit_of_refusal {g : Graph} {m : NFA} {e : Edit} {error : EditError}
    (h : (edit g m e).refusal = some error) : edit g m e = ⟨g, m, none, some error⟩ := by
  cases e with
  | add role name =>
    simp only [edit, add] at h
    split at h <;> cases h
  | connect source symbol target =>
    rw [edit] at h ⊢
    obtain ⟨error', he⟩ | ⟨s, t, c, -, -, -, he⟩ := connect_cases g m source symbol target
    · rw [he] at h ⊢
      cases h
      rfl
    · rw [he] at h
      cases h

/-- The automaton with its names, the name of its start and its symbols. -/
def shown (m : NFA) (g : Graph) : String :=
  let start : Value := match m.start with
    | some s => .text (g.name s)
    | none => .null
  "NFA(states=" ++ Text.bracket (m.states.keys.map Text.quote) ++ ", start=" ++ start.shown ++
    ", alphabet=" ++ Text.bracket (m.alphabet.map fun c => Text.quote (String.singleton c)) ++ ")"

/-! ## Words -/

/-- The closed set that a closed set leads to on a symbol. -/
def step (m : NFA) (g : Graph) (S : StateSet) (c : Char) : StateSet :=
  g.closure m.epsilon (g.move S (String.singleton c))

/-- The closed set that holds a state (`epsilon_closure`). -/
def closed (m : NFA) (g : Graph) (s : StateId) : StateSet := g.closure m.epsilon {s}

/-- Whether a word leads from a closed set to a set with a final member. -/
def acceptsFrom (m : NFA) (g : Graph) (S : StateSet) : List Char → Bool
  | [] => g.isAccepting S
  | c :: w =>
    if c ∈ m.alphabet then
      let T := m.step g S c
      if T = ∅ then false else acceptsFrom m g T w
    else false

/-- Whether the automaton accepts a word (`NFA.accepts`). Without a start it accepts none. -/
def accepts (m : NFA) (g : Graph) (word : String) : Bool :=
  match m.start with
  | some s => m.acceptsFrom g (m.closed g s) word.toList
  | none => false

theorem step_within (m : NFA) (g : Graph) (S : StateSet) (c : Char) :
    ∀ t ∈ m.step g S c, t < g.size := by
  refine Graph.lt_of_mem_closure fun t ht => ?_
  obtain ⟨s, -, hs⟩ := Graph.mem_move.mp ht
  exact Graph.targets_lt hs

theorem step_empty (m : NFA) (g : Graph) (c : Char) : m.step g ∅ c = ∅ := by
  rw [StateSet.eq_empty_iff]
  intro t ht
  induction Graph.mem_closure.mp ht with
  | seed h =>
    obtain ⟨s, hs, -⟩ := Graph.mem_move.mp h
    exact StateSet.not_mem_empty s hs
  | edge h _ ih => exact ih (Graph.mem_closure.mpr h)

end NFA

end Determinize
