import Determinize.Construction

/-!
# Several automata side by side

A workspace holds what a session works on: one graph for all states, collectors of warnings,
automata that each report to a collector, builders, and constructions that each join an automaton
with a builder. Several automata may share a collector, edges may lead from the states of one
automaton to those of another, and several constructions may emit into one builder. What is worth
logging is noted in order.

An operation on something that is not there has no answer; the operations that have one return the
workspace they leave beside it, also if the answer is a refusal.

Results:
* `graph_keep`, `automata_keep`, `collectors_keep`: what an edited automaton leaves;
* `keep_refused`: a refused edit leaves the workspace as it was.
-/
namespace Determinize

/-- Something worth logging: a name that was taken, or a conversion that went through, with the
numbers of sets met and of states of the automaton. -/
inductive Notice where
  | taken (name : String)
  | converted (subsets states : Nat)
  deriving DecidableEq

/-- The wording of a notice. -/
def Notice.message : Notice → String
  | taken name => Warning.message ⟨name, false, false⟩
  | converted subsets states =>
    "Subset construction produced " ++ Value.digits subsets ++ " DFA states from " ++
      Value.digits states ++ " NFA states"

/-- An automaton and the collector that it reports to (`NFA.diagnostics`). -/
structure Member where
  nfa : NFA
  collector : Nat

/-- A builder of a workspace: a recorder or a deterministic automaton. -/
inductive Sink where
  | recorder (r : Recorder)
  | dfa (d : DFA)

/-- Why a builder of a workspace refused a call. -/
inductive SinkError where
  | refusal (r : Refusal)
  | conflict (c : Conflict)

/-- The wording of a refused call. -/
def SinkError.message : SinkError → String
  | refusal r => r.message
  | conflict c => c.message

/-- Hands a call to whichever builder it is. -/
def Sink.take : Sink → Call → Sink × Option SinkError
  | recorder r, c => (recorder (r.take c).1, (r.take c).2.map SinkError.refusal)
  | dfa d, c => (dfa (d.take c).1, (d.take c).2.map SinkError.conflict)

/-- The builders of a workspace as one builder. -/
def Sink.builder : Builder Sink SinkError := ⟨Sink.take⟩

/-- A construction with its automaton and its builder (`SubsetConstruction`). -/
structure Job where
  automaton : Nat
  sink : Nat
  construction : Construction

/-- Everything a session works on. -/
structure Workspace where
  graph : Graph
  collectors : Array Diagnostics
  automata : Array Member
  sinks : Array Sink
  jobs : Array Job
  notices : List Notice

namespace Workspace

/-- The workspace that holds nothing. -/
def empty : Workspace := ⟨∅, #[], #[], #[], #[], []⟩

instance : EmptyCollection Workspace := ⟨empty⟩

instance : Inhabited Workspace := ⟨empty⟩

/-! ## Adding -/

/-- Adds a collector without warnings; its place is the number of collectors before. -/
def addCollector (w : Workspace) : Workspace := { w with collectors := w.collectors.push ∅ }

/-- Adds an automaton without states (`NFA`): with the settings that are given, else the default
ones, and with the collector that is given, with or without warnings, else one of its own. -/
def addAutomaton (w : Workspace) (config : Option Config) (collector : Option Nat) : Workspace :=
  match collector with
  | some k => { w with automata := w.automata.push ⟨NFA.new (config.getD {}), k⟩ }
  | none =>
    { w.addCollector with
      automata := w.automata.push ⟨NFA.new (config.getD {}), w.collectors.size⟩ }

/-- Adds a builder. -/
def addSink (w : Workspace) (sink : Sink) : Workspace := { w with sinks := w.sinks.push sink }

/-- Adds a construction that has met no set. -/
def addJob (w : Workspace) (automaton sink : Nat) : Workspace :=
  { w with jobs := w.jobs.push ⟨automaton, sink, ∅⟩ }

/-! ## Collectors -/

/-- The collector at a place; beyond the last one there are no warnings. -/
def collector (w : Workspace) (i : Nat) : Diagnostics := (w.collectors[i]?).getD ∅

/-- Reports a warning to a collector. -/
def report (w : Workspace) (i : Nat) (warning : Warning) : Workspace :=
  { w with collectors := w.collectors.modify i fun d => d.report warning }

/-- Drops the warnings of a collector (`Diagnostics.clear`). -/
def clear (w : Workspace) (i : Nat) : Workspace :=
  { w with collectors := w.collectors.modify i fun _ => ∅ }

/-- Takes the notices out of the workspace. -/
def drainNotices (w : Workspace) : Workspace × List Notice := ({ w with notices := [] }, w.notices)

/-! ## Edits -/

/-- What an edited automaton leaves: its warning is reported, and noted if it asks for it. -/
def keep (w : Workspace) (i : Nat) (member : Member) (e : Edited) : Workspace :=
  let changed : Workspace :=
    { w with graph := e.graph, automata := w.automata.setIfInBounds i { member with nfa := e.nfa } }
  match e.warning with
  | none => changed
  | some warning =>
    let reported := changed.report member.collector warning
    if member.nfa.config.logDuplicates then
      { reported with notices := reported.notices ++ [.taken warning.name] }
    else reported

/-- Edits the automaton at a place: what it leaves, and the refusal if there is one. -/
def edit? (w : Workspace) (i : Nat) (e : Edit) : Option (Workspace × Option EditError) :=
  match w.automata[i]? with
  | none => none
  | some member =>
    let edited := member.nfa.edit w.graph e
    some (w.keep i member edited, edited.refusal)

/-- Adds an edge between states, whichever automata know them. -/
def addEdge (w : Workspace) (s : StateId) (label : String) (t : StateId) : Workspace :=
  { w with graph := w.graph.addEdge s label t }

/-! ## Conversions -/

/-- The workspace with a notice of a run for an automaton, if the run went through. -/
def noted {σ ε : Type} (w : Workspace) (m : NFA) (o : Outcome σ ε) : Workspace :=
  match o.result with
  | .ok _ => { w with notices := w.notices ++ [.converted o.construction.registry.size m.size] }
  | .error _ => w

/-- Runs a construction for an automaton into the builder at a place. -/
def run? (w : Workspace) (c : Construction) (m : NFA) (i : Nat) :
    Option (Workspace × Outcome Sink SinkError) :=
  match w.sinks[i]? with
  | none => none
  | some sink =>
    let o := c.run Sink.builder m w.graph sink
    some ({ w with sinks := w.sinks.setIfInBounds i o.builder }.noted m o, o)

/-- Converts the automaton at a place into the builder at another (`NFA.to_dfa`). -/
def convert? (w : Workspace) (automaton sink : Nat) :
    Option (Workspace × Outcome Sink SinkError) :=
  match w.automata[automaton]? with
  | none => none
  | some member => w.run? ∅ member.nfa sink

/-- Runs the construction at a place, which keeps what it has met (`SubsetConstruction.run`). -/
def runJob? (w : Workspace) (i : Nat) : Option (Workspace × Outcome Sink SinkError) :=
  match w.jobs[i]? with
  | none => none
  | some job =>
    match w.automata[job.automaton]? with
    | none => none
    | some member =>
      match w.run? job.construction member.nfa job.sink with
      | none => none
      | some (w', o) =>
        some ({ w' with
          jobs := w'.jobs.setIfInBounds i { job with construction := o.construction } }, o)

/-- Converts the automaton at a place into a deterministic one of its own (`NFA.get_dfa`). -/
def toDFA? (w : Workspace) (i : Nat) : Option (Workspace × Except (Fault Conflict) DFA) :=
  match w.automata[i]? with
  | none => none
  | some member =>
    let o := member.nfa.determinize DFA.builder w.graph ∅
    some (w.noted member.nfa o, o.filled)

/-! ## What an edit changes and what stays -/

theorem graph_keep (w : Workspace) (i : Nat) (member : Member) (r : Edited) :
    (w.keep i member r).graph = r.graph := by
  unfold keep
  simp only
  split
  · rfl
  · split <;> rfl

theorem automata_keep (w : Workspace) (i : Nat) (member : Member) (r : Edited) :
    (w.keep i member r).automata =
      w.automata.setIfInBounds i { member with nfa := r.nfa } := by
  unfold keep
  simp only
  split
  · rfl
  · split <;> rfl

theorem collectors_keep (w : Workspace) (i k : Nat) (member : Member) (r : Edited) :
    (w.keep i member r).collectors[k]? = w.collectors[k]?.map fun d =>
      if member.collector = k then ⟨d.warnings ++ r.warning.toList⟩ else d := by
  unfold keep
  cases r.warning with
  | none => simp
  | some warning =>
    have hreport : (w.collectors.modify member.collector fun d => d.report warning)[k]? =
        w.collectors[k]?.map fun d =>
          if member.collector = k then ⟨d.warnings ++ [warning]⟩ else d := by
      rw [Array.getElem?_modify]
      split <;> simp [Diagnostics.report]
    simp only
    split <;> exact hreport

/-- A refused edit leaves the workspace as it was. -/
theorem keep_refused {w : Workspace} {i : Nat} {member : Member} (h : w.automata[i]? = some member)
    (refusal : Option EditError) :
    w.keep i member ⟨w.graph, member.nfa, none, refusal⟩ = w := by
  obtain ⟨hi, hm⟩ := Array.getElem?_eq_some_iff.mp h
  simp only [keep]
  rw [← hm, Array.setIfInBounds, dif_pos hi, Array.set_getElem_self]

end Workspace

end Determinize
