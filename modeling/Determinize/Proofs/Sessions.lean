import Determinize.Workspace
import Determinize.Proofs.Reruns
import Mathlib.Logic.Relation

/-!
# Conversions in a workspace

A workspace holds recorders and deterministic automata side by side as one kind of builder. A
builder that is held inside another takes calls there as it does on its own, so what is emitted into
a builder of a workspace is what is emitted into that recorder or that automaton. A conversion in a
workspace is therefore one of `NFA.determinize` or `NFA.toDFA`, and the runs of one of its
constructions are runs of a construction as such, whatever happens to the builders and to other
constructions between them.

Results:
* `Embeds.feed`, `run_embeds`: calls, and a whole run, into a builder inside another;
* `convert?_recorder`, `convert?_dfa`, `toDFA?_eq`: what conversions answer and leave;
* `convert?_cases`, `toDFA?_cases`, `runJob?_cases`: whatever is answered, it is one of these runs;
* `Converts.behind`, `behind_converts`: any conversions leave constructions that `Runs` describes.
-/
namespace Determinize

variable {σ ε τ δ : Type}

/-! ## Builders inside builders -/

/-- The builder `b'` holds `b` inside: on the states `f s` it does what `b` does on `s`. -/
def Builder.Embeds (b : Builder σ ε) (b' : Builder τ δ) (f : σ → τ) (r : ε → δ) : Prop :=
  ∀ s c, b'.take (f s) c = (f (b.take s c).1, (b.take s c).2.map r)

/-- A fault with another account of the refusal. -/
def Fault.map (r : ε → δ) : Fault ε → Fault δ
  | missingStart => missingStart
  | refused e => refused (r e)
  | unregistered S => unregistered S

/-- How far a run has come, told with another builder. -/
def Progress.map (f : σ → τ) (r : ε → δ) (p : Progress σ ε) : Progress τ δ :=
  ⟨p.construction, f p.builder, p.fault.map (Fault.map r)⟩

/-- What a run leaves, told with another builder. -/
def Outcome.map (f : σ → τ) (r : ε → δ) (o : Outcome σ ε) : Outcome τ δ :=
  ⟨o.construction, f o.builder, o.result.mapError (Fault.map r)⟩

variable {b : Builder σ ε} {b' : Builder τ δ} {f : σ → τ} {r : ε → δ}

theorem Builder.Embeds.feed (h : b.Embeds b' f r) (s : σ) (l : List Call) :
    b'.feed (f s) l = (f (b.feed s l).1, (b.feed s l).2.map r) := by
  induction l generalizing s with
  | nil => rfl
  | cons c l ih =>
    simp only [Builder.feed, h s c]
    cases b.take s c with
    | mk s' e =>
      cases e with
      | none => exact ih s'
      | some e => rfl

namespace Construction

theorem expand_embeds (h : b.Embeds b' f r) (m : NFA) (g : Graph) (S : StateSet) (source : String)
    (symbols : List Char) (c : Construction) (s : σ) :
    expand b' m g S source symbols c (f s) = (expand b m g S source symbols c s).map f r := by
  induction symbols generalizing c s with
  | nil => rfl
  | cons a rest ih =>
    simp only [expand, h.feed]
    cases b.feed s (c.visit g source a (m.step g S a)).2 with
    | mk s' e =>
      cases e with
      | none => exact ih _ s'
      | some e => rfl

theorem drain_embeds (h : b.Embeds b' f r) (m : NFA) (g : Graph) (c : Construction) (s : σ) :
    drain b' m g c (f s) = (drain b m g c s).map f r := by
  induction c, s using drain.induct b m g with
  | case1 registry s =>
    rw [drain, drain]
    rfl
  | case2 registry S rest s hS =>
    rw [drain, drain, hS]
    rfl
  | case3 registry S rest s source hS p e he =>
    have hp : (expand b m g S source m.alphabet ⟨registry, rest⟩ s).fault = some e := he
    rw [drain, drain, hS]
    simp only [expand_embeds h, Progress.map, hp, Option.map_some]
  | case4 registry S rest s source hS p he ih =>
    have hp : (expand b m g S source m.alphabet ⟨registry, rest⟩ s).fault = none := he
    rw [drain, drain, hS]
    simp only [expand_embeds h, Progress.map, hp, Option.map_none]
    exact ih

/-- A run into a builder inside another is the run into the builder itself. -/
theorem run_embeds (h : b.Embeds b' f r) (m : NFA) (g : Graph) (c : Construction) (s : σ) :
    c.run b' m g (f s) = (c.run b m g s).map f r := by
  unfold run
  cases m.start with
  | none => rfl
  | some q =>
    simp only [h.feed]
    cases b.feed s (openingCalls g (m.closed g q)) with
    | mk s' e =>
      cases e with
      | some e => rfl
      | none =>
        simp only [Option.map_none, drain_embeds h]
        cases hp : (drain b m g (c.register g (m.closed g q)) s').fault with
        | some e =>
          simp only [Progress.map, hp, Option.map_some]
          rfl
        | none =>
          simp only [Progress.map, hp, Option.map_none]
          rfl

end Construction

theorem Sink.embeds_recorder :
    Recorder.builder.Embeds Sink.builder Sink.recorder SinkError.refusal := fun _ _ => rfl

theorem Sink.embeds_dfa : DFA.builder.Embeds Sink.builder Sink.dfa SinkError.conflict :=
  fun _ _ => rfl

namespace Workspace

/-! ## What conversions leave -/

/-- A run for the automaton `m` changes the builders of a workspace and its notices, where a run
that goes through is noted, and nothing else. -/
structure Emitted (w w' : Workspace) (m : NFA) (sinks : Array Sink) (o : Outcome σ ε) : Prop where
  graph : w'.graph = w.graph
  collectors : w'.collectors = w.collectors
  automata : w'.automata = w.automata
  sinks : w'.sinks = sinks
  notices : w'.notices = w.notices ++ match o.result with
    | .ok _ => [.converted o.construction.registry.size m.size]
    | .error _ => []

variable {w w' : Workspace} {i j k : Nat} {member : Member} {sink : Sink}

theorem emitted_noted (w : Workspace) (m : NFA) (sinks : Array Sink) (o : Outcome σ ε) :
    Emitted w ({ w with sinks := sinks }.noted m o) m sinks o ∧
      ({ w with sinks := sinks }.noted m o).jobs = w.jobs := by
  unfold noted
  cases h : o.result with
  | ok found => exact ⟨⟨rfl, rfl, rfl, rfl, by rw [h]⟩, rfl⟩
  | error e => exact ⟨⟨rfl, rfl, rfl, rfl, by rw [h, List.append_nil]⟩, rfl⟩

/-- What is noted does not depend on where the builder is held. -/
theorem noted_map (w : Workspace) (m : NFA) (o : Outcome σ ε) (f : σ → τ) (r : ε → δ) :
    w.noted m (o.map f r) = w.noted m o := by
  unfold noted
  cases h : o.result with
  | ok found => simp only [Outcome.map, h, Except.mapError]
  | error e => simp only [Outcome.map, h, Except.mapError]

/-- A run into a builder of the workspace is the run into the one held there. -/
theorem run?_embeds {b : Builder σ ε} {f : σ → Sink} {r : ε → SinkError}
    (h : b.Embeds Sink.builder f r) {s : σ} (hk : w.sinks[k]? = some (f s)) (c : Construction)
    (m : NFA) :
    ∃ w', w.run? c m k = some (w', (c.run b m w.graph s).map f r) ∧
      Emitted w w' m (w.sinks.setIfInBounds k (f (c.run b m w.graph s).builder))
        (c.run b m w.graph s) ∧ w'.jobs = w.jobs := by
  refine ⟨_, ?_, emitted_noted w m _ (c.run b m w.graph s)⟩
  simp only [run?, hk, Construction.run_embeds h, noted_map]
  rfl

theorem convert?_eq (hm : w.automata[i]? = some member) :
    w.convert? i k = w.run? ∅ member.nfa k := by
  rw [convert?, hm]

theorem convert?_recorder {r : Recorder} (hm : w.automata[i]? = some member)
    (hk : w.sinks[k]? = some (.recorder r)) :
    ∃ w', w.convert? i k = some (w',
        (member.nfa.determinize Recorder.builder w.graph r).map .recorder .refusal) ∧
      Emitted w w' member.nfa
        (w.sinks.setIfInBounds k
          (.recorder (member.nfa.determinize Recorder.builder w.graph r).builder))
        (member.nfa.determinize Recorder.builder w.graph r) ∧ w'.jobs = w.jobs := by
  rw [convert?_eq hm]
  exact run?_embeds Sink.embeds_recorder hk ∅ member.nfa

theorem convert?_dfa {d : DFA} (hm : w.automata[i]? = some member)
    (hk : w.sinks[k]? = some (.dfa d)) :
    ∃ w', w.convert? i k = some (w',
        (member.nfa.determinize DFA.builder w.graph d).map .dfa .conflict) ∧
      Emitted w w' member.nfa
        (w.sinks.setIfInBounds k (.dfa (member.nfa.determinize DFA.builder w.graph d).builder))
        (member.nfa.determinize DFA.builder w.graph d) ∧ w'.jobs = w.jobs := by
  rw [convert?_eq hm]
  exact run?_embeds Sink.embeds_dfa hk ∅ member.nfa

/-- The plain conversion answers as `NFA.toDFA` and leaves the builders alone. -/
theorem toDFA?_eq (hm : w.automata[i]? = some member) :
    ∃ w', w.toDFA? i = some (w', member.nfa.toDFA w.graph) ∧
      Emitted w w' member.nfa w.sinks (member.nfa.determinize DFA.builder w.graph ∅) ∧
      w'.jobs = w.jobs := by
  refine ⟨_, ?_, emitted_noted w member.nfa w.sinks (member.nfa.determinize DFA.builder w.graph ∅)⟩
  simp only [toDFA?, hm]
  rfl

/-! ## Constructions that are run again -/

/-- Whatever a run into a builder of the workspace answers, it is the run into what is held. -/
theorem run?_cases {c : Construction} {m : NFA} {o : Outcome Sink SinkError}
    (h : w.run? c m k = some (w', o)) :
    ∃ sink, w.sinks[k]? = some sink ∧ o = c.run Sink.builder m w.graph sink ∧
      Emitted w w' m (w.sinks.setIfInBounds k o.builder) o ∧ w'.jobs = w.jobs := by
  unfold run? at h
  split at h
  · cases h
  · rename_i sink hs
    simp only [Option.some.injEq, Prod.mk.injEq] at h
    obtain ⟨rfl, rfl⟩ := h
    exact ⟨sink, hs, rfl, emitted_noted w m _ _⟩

theorem convert?_cases {o : Outcome Sink SinkError} (h : w.convert? i k = some (w', o)) :
    ∃ member sink, w.automata[i]? = some member ∧ w.sinks[k]? = some sink ∧
      o = member.nfa.determinize Sink.builder w.graph sink ∧
      Emitted w w' member.nfa (w.sinks.setIfInBounds k o.builder) o ∧ w'.jobs = w.jobs := by
  unfold convert? at h
  split at h
  · cases h
  · rename_i member hm
    obtain ⟨sink, hs, ho, hleft, hjobs⟩ := run?_cases h
    exact ⟨member, sink, hm, hs, ho, hleft, hjobs⟩

theorem toDFA?_cases {r : Except (Fault Conflict) DFA} (h : w.toDFA? i = some (w', r)) :
    ∃ member, w.automata[i]? = some member ∧ r = member.nfa.toDFA w.graph ∧
      Emitted w w' member.nfa w.sinks (member.nfa.determinize DFA.builder w.graph ∅) ∧
      w'.jobs = w.jobs := by
  cases hm : w.automata[i]? with
  | none =>
    rw [toDFA?, hm] at h
    cases h
  | some member =>
    obtain ⟨w'', he, hleft, hjobs⟩ := toDFA?_eq hm
    cases he.symm.trans h
    exact ⟨member, rfl, rfl, hleft, hjobs⟩

/-- A run of a construction of the workspace goes on from what it has met so far, and keeps what the
run leaves. -/
theorem runJob?_cases {o : Outcome Sink SinkError} (h : w.runJob? j = some (w', o)) :
    ∃ job member sink, w.jobs[j]? = some job ∧ w.automata[job.automaton]? = some member ∧
      w.sinks[job.sink]? = some sink ∧
      o = job.construction.run Sink.builder member.nfa w.graph sink ∧
      Emitted w w' member.nfa (w.sinks.setIfInBounds job.sink o.builder) o ∧
      w'.jobs = w.jobs.setIfInBounds j { job with construction := o.construction } := by
  unfold runJob? at h
  split at h
  · cases h
  · rename_i job hj
    split at h
    · cases h
    · rename_i member hm
      split at h
      · cases h
      · rename_i w₁ o₁ hrun
        obtain ⟨sink, hs, ho, hleft, hjobs⟩ := run?_cases hrun
        cases h
        exact ⟨job, member, sink, hj, hm, hs, ho, ⟨hleft.graph, hleft.collectors, hleft.automata,
          hleft.sinks, hleft.notices⟩, by rw [hjobs]⟩

/-- A conversion of a session: into a builder of the workspace, into an automaton of its own, or by
a construction of the workspace, which may be added at any time. -/
inductive Converts (w w' : Workspace) : Prop
  | into {i k : Nat} {o : Outcome Sink SinkError} : w.convert? i k = some (w', o) → Converts w w'
  | own {i : Nat} {r : Except (Fault Conflict) DFA} : w.toDFA? i = some (w', r) → Converts w w'
  | job {j : Nat} {o : Outcome Sink SinkError} : w.runJob? j = some (w', o) → Converts w w'
  | new {i k : Nat} : w' = w.addJob i k → Converts w w'

/-- Every construction of the workspace is what runs for its automaton left. -/
def Behind (w : Workspace) : Prop :=
  ∀ (j : Nat) (job : Job) (member : Member), w.jobs[j]? = some job →
    w.automata[job.automaton]? = some member →
    ∃ logs, Construction.Runs member.nfa w.graph logs job.construction

theorem behind_of_new (h : ∀ (j : Nat) (job : Job), w.jobs[j]? = some job →
    job.construction = ∅) : w.Behind := by
  intro j job member hjob _
  rw [h j job hjob]
  exact ⟨[], .new⟩

/-- A construction that is added has met no set. -/
theorem Behind.addJob (h : w.Behind) (i k : Nat) : (w.addJob i k).Behind := by
  intro j job member hjob hmember
  rw [Workspace.addJob, Array.getElem?_push] at hjob
  split at hjob
  · cases hjob
    exact ⟨[], .new⟩
  · exact h j job member hjob hmember

/-- No conversion changes an automaton, and each leaves every construction behind runs. -/
theorem Converts.behind (h : Converts w w') (hw : w.Behind) :
    w'.Behind ∧ w'.graph = w.graph ∧ w'.automata = w.automata := by
  have hsame : ∀ {m : NFA} {sinks : Array Sink} {σ ε : Type} {o : Outcome σ ε},
      Emitted w w' m sinks o → w'.jobs = w.jobs → w'.Behind := by
    intro m sinks σ ε o hleft hjobs j job member hjob hmember
    rw [hjobs] at hjob
    rw [hleft.automata] at hmember
    rw [hleft.graph]
    exact hw j job member hjob hmember
  cases h with
  | into h =>
    obtain ⟨_, _, -, -, -, hleft, hjobs⟩ := convert?_cases h
    exact ⟨hsame hleft hjobs, hleft.graph, hleft.automata⟩
  | own h =>
    obtain ⟨_, -, -, hleft, hjobs⟩ := toDFA?_cases h
    exact ⟨hsame hleft hjobs, hleft.graph, hleft.automata⟩
  | @job j o h =>
    obtain ⟨job, member, sink, hj, hm, -, ho, hleft, hjobs⟩ := runJob?_cases h
    refine ⟨fun i job' member' hjob hmember => ?_, hleft.graph, hleft.automata⟩
    rw [hjobs, Array.getElem?_setIfInBounds] at hjob
    rw [hleft.automata] at hmember
    rw [hleft.graph]
    split at hjob
    · rename_i hi
      subst hi
      split at hjob
      · cases hjob
        cases hm.symm.trans hmember
        obtain ⟨logs, hruns⟩ := hw j job member hj hm
        exact ⟨_, ho ▸ hruns.run Sink.builder sink⟩
      · cases hjob
    · exact hw i job' member' hjob hmember
  | new h =>
    subst h
    exact ⟨hw.addJob _ _, rfl, rfl⟩

/-- Behind any conversions of a session, taken or refused, every construction is what runs for its
automaton left, so what holds of `Runs` holds of it. -/
theorem behind_converts (h : Relation.ReflTransGen Converts w w') (hw : w.Behind) :
    w'.Behind ∧ w'.graph = w.graph ∧ w'.automata = w.automata := by
  induction h with
  | refl => exact ⟨hw, rfl, rfl⟩
  | tail _ hstep ih =>
    obtain ⟨hbehind, hgraph, hautomata⟩ := ih
    obtain ⟨hnext, hg, ha⟩ := hstep.behind hbehind
    exact ⟨hnext, hg.trans hgraph, ha.trans hautomata⟩

end Workspace

end Determinize
