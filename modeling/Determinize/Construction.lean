import Determinize.DFA
import Determinize.NFA

/-!
# The subset construction

The identifier of a set of states is one text: the names of its members in ascending order of their
characters, each with a backslash before every backslash, comma and brace in it, with a comma and a
space between two names, between braces. So the order of the members does not matter, while a
repeated name counts as often as it occurs.

A construction names each closed set of states that it meets. Its registry binds the sets to their
identifiers in the order in which they were met, and its queue holds the sets whose transitions were
not emitted yet. A run meets the closed set of the start state, declares it to the builder, and then
expands queued sets first in, first out: each symbol of the alphabet in turn leads to a set that is
met. A set met for the first time is registered and queued before it is declared, and then the
transition to it follows.

A builder may refuse a call. The run ends there, with the sets met so far still registered and
queued, so that another run of the same construction goes on from what is left; the set under
expansion is no longer queued. The set of the start is queued once more by every run.

Results:
* `Identifier.ofNames_eq_of_perm`: the order of a list of names does not matter;
* `visit_known`, `visit_new`: what meeting a set changes, and which calls it yields;
* `expand_pending`: expanding a set adds none to those that are not met or not expanded yet, which
  is why a run ends;
* `run_missingStart`: without a start nothing is emitted and nothing is met;
* `toDFA_eq_ok_iff`: the plain conversion returns what the run leaves, exactly if it goes through.
-/
namespace Determinize

/-! ## Identifiers -/

namespace Identifier

/-- The brace before the names. -/
def opening : Char := '\x7b'

/-- The brace behind the names. -/
def closing : Char := '\x7d'

/-- Whether a character of a name gets a backslash. -/
def isSpecial (c : Char) : Bool := c = '\\' || c = ',' || c = opening || c = closing

/-- A name with a backslash before every special character. -/
def escape : List Char → List Char
  | [] => []
  | c :: rest => if isSpecial c then '\\' :: c :: escape rest else c :: escape rest

/-- Escaped names with a comma and a space between two of them. -/
def join : List (List Char) → List Char
  | [] => []
  | [name] => escape name
  | name :: next :: rest => escape name ++ ',' :: ' ' :: join (next :: rest)

/-- Names in ascending order. -/
def sorted (names : List String) : List String := names.mergeSort fun a b => decide (a ≤ b)

/-- The identifier of a list of names (`subset_id`). -/
def ofNames (names : List String) : String :=
  String.ofList (opening :: (join ((sorted names).map String.toList) ++ [closing]))

theorem sorted_perm (names : List String) : (sorted names).Perm names :=
  List.mergeSort_perm names _

theorem sorted_ordered (names : List String) : (sorted names).Pairwise fun a b => a ≤ b := by
  have h := @List.pairwise_mergeSort String (fun a b => decide (a ≤ b))
    (fun a b c hab hbc => by
      rw [decide_eq_true_eq] at hab hbc ⊢
      exact Std.le_trans hab hbc)
    (fun a b => by
      rw [Bool.or_eq_true, decide_eq_true_eq, decide_eq_true_eq]
      exact Std.le_total)
    names
  unfold sorted
  simpa only [decide_eq_true_eq] using h

/-- Only one order is ascending. -/
theorem sorted_eq_of_ordered {l m : List String} (hp : l.Perm m)
    (hm : m.Pairwise fun a b => a ≤ b) : sorted l = m :=
  ((sorted_perm l).trans hp).eq_of_pairwise (fun _ _ _ _ hab hba => Std.le_antisymm hab hba)
    (sorted_ordered l) hm

theorem sorted_eq_of_perm {l m : List String} (h : l.Perm m) : sorted l = sorted m :=
  sorted_eq_of_ordered (h.trans (sorted_perm m).symm) (sorted_ordered m)

theorem ofNames_eq_of_perm {l m : List String} (h : l.Perm m) : ofNames l = ofNames m := by
  unfold ofNames
  rw [sorted_eq_of_perm h]

theorem ofNames_nil : ofNames [] = String.ofList [opening, closing] := by
  simp [ofNames, sorted, join]

end Identifier

namespace Graph

/-- The identifier of a list of states: that of their names (`subset_id`). -/
def identifierOf (g : Graph) (l : List StateId) : String := Identifier.ofNames (l.map g.name)

/-- The identifier of a set of states. -/
def identifier (g : Graph) (S : StateSet) : String := g.identifierOf S.toList

end Graph

/-! ## Registered sets -/

/-- The state of a construction: the sets met so far with their identifiers, and those to expand
(`SubsetConstruction`). -/
structure Construction where
  registry : OrderedMap StateSet String
  queue : List StateSet
  deriving DecidableEq

namespace Construction

/-- The construction that has met no set. -/
def empty : Construction := ⟨∅, []⟩

instance : EmptyCollection Construction := ⟨empty⟩

instance : Inhabited Construction := ⟨empty⟩

/-- Binds a set to its identifier and queues it (`SubsetConstruction._register`). -/
def register (g : Graph) (c : Construction) (S : StateSet) : Construction :=
  ⟨c.registry.put S (g.identifier S), c.queue ++ [S]⟩

/-- The call that declares a set: as accepting if it has a final member. -/
def declaration (g : Graph) (S : StateSet) : Call :=
  if g.isAccepting S then .final (g.identifier S) else .state (g.identifier S)

/-- The calls that declare the first set: as the start, and again if it has a final member. -/
def openingCalls (g : Graph) (S : StateSet) : List Call :=
  .start (g.identifier S) :: if g.isAccepting S then [.final (g.identifier S)] else []

/-- Meets the set `T` on the symbol `a` from the set with the identifier `source`: the construction
afterwards, and the calls to be emitted. -/
def visit (g : Graph) (c : Construction) (source : String) (a : Char) (T : StateSet) :
    Construction × List Call :=
  match c.registry.get? T with
  | some target => (c, [.transition source (String.singleton a) target])
  | none =>
    (c.register g T,
      [declaration g T, .transition source (String.singleton a) (g.identifier T)])

theorem visit_known {g : Graph} {c : Construction} {T : StateSet} {target : String}
    (source : String) (a : Char) (h : c.registry.get? T = some target) :
    c.visit g source a T = (c, [.transition source (String.singleton a) target]) := by
  unfold visit
  rw [h]

theorem visit_new {g : Graph} {c : Construction} {T : StateSet} (source : String) (a : Char)
    (h : T ∉ c.registry) : c.visit g source a T =
      (c.register g T,
        [declaration g T, .transition source (String.singleton a) (g.identifier T)]) := by
  unfold visit
  rw [OrderedMap.get?_eq_none_iff.mpr h]

theorem mem_register {g : Graph} {c : Construction} {S T : StateSet} :
    T ∈ (c.register g S).registry ↔ T = S ∨ T ∈ c.registry :=
  OrderedMap.mem_put

/-! ### What is left to be met -/

/-- The sets of states of the graph that were not met, by their digits. -/
def unregistered (g : Graph) (c : Construction) : List Nat :=
  (List.range (1 <<< g.size)).filter fun b => (⟨b⟩ : StateSet) ∉ c.registry

theorem unregistered_register {g : Graph} {c : Construction} {T : StateSet}
    (hT : T ∉ c.registry) (hg : ∀ t ∈ T, t < g.size) :
    ((c.register g T).unregistered g).length < (c.unregistered g).length := by
  have hsub : (c.register g T).unregistered g =
      (c.unregistered g).filter fun b => (⟨b⟩ : StateSet) ≠ T := by
    unfold unregistered
    rw [List.filter_filter]
    congr
    funext b
    simp only [mem_register, not_or, Bool.decide_and, ne_eq]
  rw [hsub, List.length_filter_lt_length_iff_exists]
  refine ⟨T.bits, ?_, by simp⟩
  unfold unregistered
  rw [List.mem_filter, List.mem_range]
  exact ⟨StateSet.bits_lt_iff.mpr hg, by simpa using hT⟩

/-- The number of sets not met or not expanded yet. -/
def pending (g : Graph) (c : Construction) : Nat := (c.unregistered g).length + c.queue.length

theorem visit_pending {g : Graph} {T : StateSet} (c : Construction) (source : String) (a : Char)
    (hg : ∀ t ∈ T, t < g.size) : (c.visit g source a T).1.pending g ≤ c.pending g := by
  by_cases hT : T ∈ c.registry
  · obtain ⟨target, h⟩ := Option.isSome_iff_exists.mp (OrderedMap.mem_iff_get?_isSome.mp hT)
    exact Nat.le_of_eq (by rw [visit_known source a h])
  · have hu := unregistered_register hT hg
    have hq : (c.register g T).queue.length = c.queue.length + 1 := by simp [register]
    rw [visit_new source a hT]
    show (c.register g T).pending g ≤ c.pending g
    unfold pending
    omega

end Construction

/-! ## Runs -/

/-- Why a run ended early: no start state (`MissingStartStateError`), a call refused by the builder,
or a queued set that the registry does not know. -/
inductive Fault (ε : Type) where
  | missingStart
  | refused (e : ε)
  | unregistered (S : StateSet)

/-- The wording of a fault, given that of a refused call. -/
def Fault.message {ε : Type} (describe : ε → String) : Fault ε → String
  | missingStart => "NFA has no start state"
  | refused e => describe e
  | unregistered _ => "subset without an identifier"

/-- How far a run has come: the construction, the builder, and the fault that ended it. -/
structure Progress (σ ε : Type) where
  construction : Construction
  builder : σ
  fault : Option (Fault ε)

/-- The subset of each identifier, in the order in which the identifiers were first met. -/
abbrev SubsetMap := OrderedMap String StateSet

/-- What a run leaves, and the subset of each identifier if it went through. -/
structure Outcome (σ ε : Type) where
  construction : Construction
  builder : σ
  result : Except (Fault ε) SubsetMap

variable {σ ε : Type}

/-- The builder behind a run that went through; else the fault. -/
def Outcome.filled (o : Outcome σ ε) : Except (Fault ε) σ :=
  match o.result with
  | .ok _ => .ok o.builder
  | .error e => .error e

namespace Construction

/-- Emits the transitions of the set `S`, whose identifier is `source`, on a list of symbols. -/
def expand (b : Builder σ ε) (m : NFA) (g : Graph) (S : StateSet) (source : String) :
    List Char → Construction → σ → Progress σ ε
  | [], c, s => ⟨c, s, none⟩
  | a :: rest, c, s =>
    let met := c.visit g source a (m.step g S a)
    match b.feed s met.2 with
    | (s', none) => expand b m g S source rest met.1 s'
    | (s', some e) => ⟨met.1, s', some (.refused e)⟩

theorem expand_pending (b : Builder σ ε) (m : NFA) (g : Graph) (S : StateSet) (source : String)
    (symbols : List Char) (c : Construction) (s : σ) :
    (expand b m g S source symbols c s).construction.pending g ≤ c.pending g := by
  induction symbols generalizing c s with
  | nil => exact Nat.le_refl _
  | cons a rest ih =>
    have hv := visit_pending c source a (m.step_within g S a)
    unfold expand
    simp only
    split
    · exact Nat.le_trans (ih _ _) hv
    · exact hv

/-- Expands queued sets until the queue is empty or the builder refuses. -/
def drain (b : Builder σ ε) (m : NFA) (g : Graph) : Construction → σ → Progress σ ε
  | ⟨registry, []⟩, s => ⟨⟨registry, []⟩, s, none⟩
  | ⟨registry, S :: rest⟩, s =>
    match registry.get? S with
    | none => ⟨⟨registry, rest⟩, s, some (.unregistered S)⟩
    | some source =>
      let p := expand b m g S source m.alphabet ⟨registry, rest⟩ s
      match p.fault with
      | some _ => p
      | none => drain b m g p.construction p.builder
termination_by c => c.pending g
decreasing_by
  refine Nat.lt_of_le_of_lt (expand_pending b m g S source m.alphabet ⟨registry, rest⟩ s) ?_
  exact Nat.lt_succ_self _

/-- The subset of each identifier; of subsets with one identifier the last in the place of the
first. -/
def subsets (c : Construction) : SubsetMap :=
  c.registry.entries.foldl (fun found e => found.put e.2 e.1) ∅

/-- Runs the construction for the automaton `m` into a builder (`SubsetConstruction.run`). -/
def run (b : Builder σ ε) (m : NFA) (g : Graph) (c : Construction) (s : σ) : Outcome σ ε :=
  match m.start with
  | none => ⟨c, s, .error .missingStart⟩
  | some q =>
    let S := m.closed g q
    match b.feed s (openingCalls g S) with
    | (s', some e) => ⟨c.register g S, s', .error (.refused e)⟩
    | (s', none) =>
      let p := drain b m g (c.register g S) s'
      match p.fault with
      | some e => ⟨p.construction, p.builder, .error e⟩
      | none => ⟨p.construction, p.builder, .ok p.construction.subsets⟩

theorem run_missingStart (b : Builder σ ε) {m : NFA} (g : Graph) (c : Construction) (s : σ)
    (h : m.start = none) : c.run b m g s = ⟨c, s, .error .missingStart⟩ := by
  unfold run
  rw [h]

end Construction

/-! ## Conversions -/

namespace NFA

/-- Emits an equivalent deterministic automaton into a builder: one run of a construction that has
met no set (`determinize`, `NFA.to_dfa`, `convert`). -/
def determinize (b : Builder σ ε) (m : NFA) (g : Graph) (s : σ) : Outcome σ ε :=
  Construction.run b m g ∅ s

/-- An equivalent deterministic automaton: the one without states, filled (`NFA.get_dfa`). -/
def toDFA (m : NFA) (g : Graph) : Except (Fault Conflict) DFA :=
  (m.determinize DFA.builder g ∅).filled

theorem toDFA_eq_ok_iff {m : NFA} {g : Graph} {d : DFA} :
    m.toDFA g = .ok d ↔
      (m.determinize DFA.builder g ∅).builder = d ∧
        ∃ found, (m.determinize DFA.builder g ∅).result = .ok found := by
  unfold toDFA Outcome.filled
  cases (m.determinize DFA.builder g ∅).result with
  | ok found => simp
  | error e => simp

theorem determinize_of_start_none (b : Builder σ ε) {m : NFA} (g : Graph) (s : σ)
    (h : m.start = none) : m.determinize b g s = ⟨∅, s, .error .missingStart⟩ :=
  Construction.run_missingStart b g ∅ s h

theorem toDFA_of_start_none {m : NFA} (g : Graph) (h : m.start = none) :
    m.toDFA g = .error .missingStart := by
  rw [toDFA, determinize_of_start_none DFA.builder g ∅ h]
  rfl

end NFA

end Determinize
