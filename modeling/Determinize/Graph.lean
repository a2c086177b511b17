import Determinize.OrderedMap
import Determinize.StateSet
import Determinize.Text

/-!
# Graphs of named states

A graph holds states in the order of their making. A state has a name and a finality, both fixed
when it is made, and for each edge label the set of the states its edges of that label lead to.
States are told apart by their index, so several states may have one name. Labels are arbitrary
texts; which labels are symbols, and which one reads nothing, is decided by an automaton.

The closure of a set of states under a label holds every state reached from the set by any number
of edges of that label. It is found by a depth-first search that keeps the states seen so far and a
stack of those whose edges were not followed yet. A state enters the stack only when it is seen for
the first time, so the states not seen and those on the stack get fewer with every step, and the
search ends on every graph, with cycles and loops.

An operation that is offered to callers has its name there behind its description.

Results:
* `targets_lt`: every edge leads to a state of the graph;
* `targets_addState`, `targets_addEdge`: the edges after each operation;
* `mem_move`: a move leads exactly where the edges of its label lead;
* `unseen_union`: what is seen for the first time is no longer unseen;
* `Searches.mem_iff`: in whatever order targets are met, the search finds the same;
* `mem_closure`: the closure holds exactly the reached states;
* `lt_of_mem_closure`: the closure of states of the graph stays within the graph.
-/
namespace Determinize

/-- A state: its name, whether it is final, and the targets of its edges by label (`NFAState`). -/
structure State where
  name : String
  isFinal : Bool
  table : OrderedMap String StateSet
  deriving DecidableEq

namespace State

/-- A state without edges. -/
def new (name : String) (isFinal : Bool) : State := ⟨name, isFinal, ∅⟩

/-- The targets of the edges labelled `a` (`NFAState.transitions_on`). -/
def targets (q : State) (a : String) : StateSet := (q.table.get? a).getD ∅

/-- Adds an edge; adding it again changes nothing (`NFAState.add_transition`). -/
def addEdge (q : State) (a : String) (t : StateId) : State :=
  { q with table := q.table.put a (insert t (q.targets a)) }

/-- The state with its name and, if it is final, a word that says so. -/
def shown (q : State) : String :=
  "NFAState(" ++ Text.quote q.name ++ (if q.isFinal then ", final)" else ")")

theorem targets_new (name : String) (isFinal : Bool) (a : String) :
    (new name isFinal).targets a = ∅ := rfl

theorem targets_addEdge (q : State) (a b : String) (t : StateId) :
    (q.addEdge a t).targets b = if a = b then insert t (q.targets b) else q.targets b := by
  simp only [targets, addEdge, OrderedMap.get?_put]
  split
  · rename_i h
    subst h
    rfl
  · rfl

end State

/-- A finite graph whose edges stay within it. -/
structure Graph where
  states : Array State
  closed : ∀ (s : StateId) (h : s < states.size) (a : String) (t : StateId),
    t ∈ states[s].targets a → t < states.size

namespace Graph

/-- The graph without states. -/
def empty : Graph := ⟨#[], fun _ h => absurd h (Nat.not_lt_zero _)⟩

instance : EmptyCollection Graph := ⟨empty⟩

instance : Inhabited Graph := ⟨empty⟩

/-- The number of states. -/
def size (g : Graph) : Nat := g.states.size

/-- The state at an index; beyond the graph a nameless state without edges. -/
def state (g : Graph) (s : StateId) : State := (g.states[s]?).getD (State.new "" false)

/-- The name of a state. -/
def name (g : Graph) (s : StateId) : String := (g.state s).name

/-- Whether a state is final. -/
def isFinal (g : Graph) (s : StateId) : Bool := (g.state s).isFinal

/-- The targets of the edges of a state labelled `a`. -/
def targets (g : Graph) (s : StateId) (a : String) : StateSet := (g.state s).targets a

theorem targets_lt {g : Graph} {s t : StateId} {a : String} (h : t ∈ g.targets s a) :
    t < g.size := by
  unfold targets state at h
  by_cases hs : s < g.states.size
  · rw [Array.getElem?_eq_getElem hs, Option.getD_some] at h
    exact g.closed s hs a t h
  · rw [Array.getElem?_eq_none (Nat.not_lt.mp hs)] at h
    exact absurd h (StateSet.not_mem_empty t)

/-! ## Growing a graph -/

theorem closed_push (g : Graph) (name : String) (isFinal : Bool) (s : StateId)
    (h : s < (g.states.push (State.new name isFinal)).size) (a : String) (t : StateId)
    (ht : t ∈ (g.states.push (State.new name isFinal))[s].targets a) :
    t < (g.states.push (State.new name isFinal)).size := by
  rw [Array.getElem_push] at ht
  rw [Array.size_push]
  split at ht
  · rename_i hs
    exact Nat.lt_succ_of_lt (g.closed s hs a t ht)
  · exact absurd ht (StateSet.not_mem_empty t)

/-- Adds a state without edges; its index is the size of the graph before. -/
def addState (g : Graph) (name : String) (isFinal : Bool) : Graph :=
  ⟨g.states.push (State.new name isFinal), closed_push g name isFinal⟩

theorem closed_modify (g : Graph) (r : StateId) (b : String) (u : StateId) (hu : u < g.states.size)
    (s : StateId) (h : s < (g.states.modify r (fun q => q.addEdge b u)).size) (a : String)
    (t : StateId) (ht : t ∈ (g.states.modify r (fun q => q.addEdge b u))[s].targets a) :
    t < (g.states.modify r (fun q => q.addEdge b u)).size := by
  rw [Array.size_modify] at h ⊢
  rw [Array.getElem_modify] at ht
  split at ht
  · rw [State.targets_addEdge] at ht
    split at ht
    · rcases StateSet.mem_insert.mp ht with rfl | ht
      · exact hu
      · exact g.closed s h a t ht
    · exact g.closed s h a t ht
  · exact g.closed s h a t ht

/-- Adds an edge between two states of the graph; an edge to or from anywhere else is ignored. -/
def addEdge (g : Graph) (s : StateId) (a : String) (t : StateId) : Graph :=
  if h : t < g.states.size then
    ⟨g.states.modify s (fun q => q.addEdge a t), closed_modify g s a t h⟩
  else g

@[simp] theorem size_addState (g : Graph) (name : String) (isFinal : Bool) :
    (g.addState name isFinal).size = g.size + 1 := by
  simp [size, addState]

@[simp] theorem size_addEdge (g : Graph) (s t : StateId) (a : String) :
    (g.addEdge s a t).size = g.size := by
  unfold addEdge
  split <;> simp [size]

theorem state_addState (g : Graph) (name : String) (isFinal : Bool) (s : StateId) :
    (g.addState name isFinal).state s =
      if s = g.size then State.new name isFinal else g.state s := by
  unfold state addState size
  rw [Array.getElem?_push]
  split <;> rfl

theorem state_addEdge (g : Graph) (s t r : StateId) (a : String) (hs : s < g.size)
    (ht : t < g.size) :
    (g.addEdge s a t).state r = if s = r then (g.state r).addEdge a t else g.state r := by
  have ht' : t < g.states.size := ht
  have hs' : s < g.states.size := hs
  unfold state addEdge
  simp only [ht', dif_pos, Array.getElem?_modify]
  split
  · rename_i hr
    subst hr
    rw [Array.getElem?_eq_getElem hs']
    rfl
  · rfl

/-- Beyond the last state there are no edges. -/
theorem targets_size (g : Graph) (a : String) : g.targets g.size a = ∅ := by
  simp [targets, state, size, State.targets_new]

theorem targets_addState (g : Graph) (name : String) (isFinal : Bool) (s : StateId) (a : String) :
    (g.addState name isFinal).targets s a = g.targets s a := by
  by_cases hs : s = g.size
  · rw [hs, targets_size, targets, state_addState, if_pos rfl, State.targets_new]
  · rw [targets, state_addState, if_neg hs, targets]

theorem targets_addEdge (g : Graph) (s t r : StateId) (a b : String) (hs : s < g.size)
    (ht : t < g.size) : (g.addEdge s a t).targets r b =
      if s = r ∧ a = b then insert t (g.targets r b) else g.targets r b := by
  unfold targets
  rw [state_addEdge g s t r a hs ht]
  by_cases hr : s = r
  · simp [hr, State.targets_addEdge]
  · simp [hr]

theorem mem_targets_addEdge {g : Graph} {s t r u : StateId} {a b : String} (hs : s < g.size)
    (ht : t < g.size) : u ∈ (g.addEdge s a t).targets r b ↔
      u ∈ g.targets r b ∨ (s = r ∧ a = b) ∧ u = t := by
  rw [targets_addEdge g s t r a b hs ht]
  split
  · rename_i h
    rw [StateSet.mem_insert, or_comm, and_iff_right h]
  · rename_i h
    rw [or_iff_left fun he => h he.1]

theorem name_addState (g : Graph) (name : String) (isFinal : Bool) (s : StateId) :
    (g.addState name isFinal).name s = if s = g.size then name else g.name s := by
  unfold Graph.name
  rw [state_addState]
  split <;> rfl

theorem isFinal_addState (g : Graph) (name : String) (isFinal : Bool) (s : StateId) :
    (g.addState name isFinal).isFinal s = if s = g.size then isFinal else g.isFinal s := by
  unfold Graph.isFinal
  rw [state_addState]
  split <;> rfl

theorem name_addEdge (g : Graph) (s t r : StateId) (a : String) (hs : s < g.size)
    (ht : t < g.size) : (g.addEdge s a t).name r = g.name r := by
  unfold name
  rw [state_addEdge g s t r a hs ht]
  split <;> rfl

theorem isFinal_addEdge (g : Graph) (s t r : StateId) (a : String) (hs : s < g.size)
    (ht : t < g.size) : (g.addEdge s a t).isFinal r = g.isFinal r := by
  unfold isFinal
  rw [state_addEdge g s t r a hs ht]
  split <;> rfl

/-! ## Sets of states -/

/-- The states that edges labelled `a` lead to from the states of a list, in whatever order. -/
def moveAll (g : Graph) (l : List StateId) (a : String) : StateSet :=
  l.foldr (fun s T => g.targets s a ∪ T) ∅

/-- The states that edges labelled `a` lead to from some member of a set (`NFA.move`). -/
def move (g : Graph) (S : StateSet) (a : String) : StateSet := g.moveAll S.toList a

/-- Whether some member of a set is final (`is_accepting`). -/
def isAccepting (g : Graph) (S : StateSet) : Bool :=
  S.toList.any fun s => g.isFinal s

theorem mem_moveAll {g : Graph} {l : List StateId} {a : String} {t : StateId} :
    t ∈ g.moveAll l a ↔ ∃ s, s ∈ l ∧ t ∈ g.targets s a := by
  induction l with
  | nil => simp [moveAll]
  | cons s l ih =>
    rw [moveAll, List.foldr_cons, ← moveAll, StateSet.mem_union, ih]
    simp

theorem mem_move {g : Graph} {S : StateSet} {a : String} {t : StateId} :
    t ∈ g.move S a ↔ ∃ s, s ∈ S ∧ t ∈ g.targets s a := by
  rw [move, mem_moveAll]
  simp only [StateSet.mem_toList]

theorem isAccepting_iff {g : Graph} {S : StateSet} :
    g.isAccepting S = true ↔ ∃ s, s ∈ S ∧ g.isFinal s = true := by
  unfold isAccepting
  simp only [List.any_eq_true, StateSet.mem_toList]

/-! ## Everything that edges of one label reach -/

/-- The states of the graph that were not seen. -/
def unseen (g : Graph) (seen : StateSet) : List StateId :=
  (List.range g.size).filter fun s => s ∉ seen

theorem mem_unseen {g : Graph} {seen : StateSet} {s : StateId} :
    s ∈ g.unseen seen ↔ s < g.size ∧ s ∉ seen := by
  unfold unseen
  rw [List.mem_filter, List.mem_range, decide_eq_true_eq]

theorem nodup_unseen (g : Graph) (seen : StateSet) : (g.unseen seen).Nodup :=
  List.Nodup.sublist List.filter_sublist List.nodup_range

/-- What is seen for the first time is no longer unseen. -/
theorem unseen_union {g : Graph} {seen fresh : StateSet} (hs : ∀ t ∈ fresh, t ∉ seen)
    (hg : ∀ t ∈ fresh, t < g.size) :
    fresh.toList.length + (g.unseen (seen ∪ fresh)).length ≤ (g.unseen seen).length := by
  rw [← List.length_append]
  refine List.Nodup.length_le_of_subset (List.nodup_append.mpr ⟨fresh.nodup_toList,
    g.nodup_unseen _, fun a ha b hb => ?_⟩) fun t ht => ?_
  · rintro rfl
    exact (mem_unseen.mp hb).2 (StateSet.mem_union.mpr (Or.inr (StateSet.mem_toList.mp ha)))
  · rcases List.mem_append.mp ht with ht | ht
    · have htf := StateSet.mem_toList.mp ht
      exact mem_unseen.mpr ⟨hg t htf, hs t htf⟩
    · obtain ⟨htg, htn⟩ := mem_unseen.mp ht
      exact mem_unseen.mpr ⟨htg, fun h => htn (StateSet.mem_union.mpr (Or.inl h))⟩

/-- Follows the edges labelled `a` from the states on the stack until the stack is empty. -/
def search (g : Graph) (a : String) (seen : StateSet) : List StateId → StateSet
  | [] => seen
  | s :: stack =>
    g.search a (seen ∪ (g.targets s a \ seen)) ((g.targets s a \ seen).toList ++ stack)
termination_by stack => (g.unseen seen).length + stack.length
decreasing_by
  have h := @unseen_union g seen (g.targets s a \ seen)
    (fun t ht => (StateSet.mem_sdiff.mp ht).2)
    (fun t ht => targets_lt (StateSet.mem_sdiff.mp ht).1)
  rw [List.length_append, List.length_cons]
  omega

/-- Every state reached from a member of `S` by edges labelled `a` (`epsilon_closure_of`; for a set
of one state `epsilon_closure`). -/
def closure (g : Graph) (a : String) (S : StateSet) : StateSet := g.search a S S.toList

/-- The same search, where the targets of each state are met in any order; it ends with the states
seen. -/
inductive Searches (g : Graph) (a : String) : StateSet → List StateId → StateSet → Prop
  | done (seen : StateSet) : Searches g a seen [] seen
  | next {seen found : StateSet} {s : StateId} {stack fresh : List StateId} :
      fresh.Perm (g.targets s a \ seen).toList →
      Searches g a (seen ∪ (g.targets s a \ seen)) (fresh ++ stack) found →
      Searches g a seen (s :: stack) found

theorem searches_search (g : Graph) (a : String) (seen : StateSet) (stack : List StateId) :
    Searches g a seen stack (g.search a seen stack) := by
  induction seen, stack using search.induct g a with
  | case1 seen =>
    rw [search]
    exact .done seen
  | case2 seen s stack ih =>
    rw [search]
    exact .next (List.Perm.refl _) ih

/-! ## What the search finds -/

/-- Reached from a member of `S` by zero or more edges labelled `a`. -/
inductive Reached (g : Graph) (a : String) (S : StateSet) : StateId → Prop
  | seed {s : StateId} : s ∈ S → Reached g a S s
  | edge {s t : StateId} : Reached g a S s → t ∈ g.targets s a → Reached g a S t

variable {g : Graph} {a : String} {seen found : StateSet} {stack : List StateId}

/-- Whatever holds of the seen states and is passed along edges holds of all that is found. -/
theorem Searches.sound (h : g.Searches a seen stack found) {P : StateId → Prop}
    (hstep : ∀ s t, P s → t ∈ g.targets s a → P t) (hseen : ∀ s ∈ seen, P s)
    (hstack : ∀ s ∈ stack, P s) : ∀ s ∈ found, P s := by
  induction h with
  | done seen => exact hseen
  | @next seen found s stack fresh hf _ ih =>
    have hnew : ∀ t ∈ g.targets s a \ seen, P t := fun t ht =>
      hstep s t (hstack s List.mem_cons_self) (StateSet.mem_sdiff.mp ht).1
    refine ih ?_ ?_
    · intro t ht
      rcases StateSet.mem_union.mp ht with ht | ht
      · exact hseen t ht
      · exact hnew t ht
    · intro t ht
      rcases List.mem_append.mp ht with ht | ht
      · exact hnew t (StateSet.mem_toList.mp (hf.mem_iff.mp ht))
      · exact hstack t (List.mem_cons_of_mem _ ht)

/-- Nothing seen is dropped, and if the edges of all other seen states lead to seen states then what
is found is closed under edges. -/
theorem Searches.closed (h : g.Searches a seen stack found)
    (hseen : ∀ s ∈ seen, s ∉ stack → ∀ t ∈ g.targets s a, t ∈ seen) :
    (∀ s ∈ seen, s ∈ found) ∧ ∀ s ∈ found, ∀ t ∈ g.targets s a, t ∈ found := by
  induction h with
  | done seen => exact ⟨fun s hs => hs, fun s hs => hseen s hs List.not_mem_nil⟩
  | @next seen found s stack fresh hf _ ih =>
    have hnext := ih (by
      intro r hr hrs t ht
      rw [List.mem_append, not_or, hf.mem_iff] at hrs
      rcases StateSet.mem_union.mp hr with hr | hr
      · by_cases hrs' : r = s
        · subst hrs'
          by_cases hts : t ∈ seen
          · exact StateSet.mem_union.mpr (Or.inl hts)
          · exact StateSet.mem_union.mpr (Or.inr (StateSet.mem_sdiff.mpr ⟨ht, hts⟩))
        · have hrc : r ∉ s :: stack := by
            intro hc
            rcases List.mem_cons.mp hc with hc | hc
            · exact hrs' hc
            · exact hrs.2 hc
          exact StateSet.mem_union.mpr (Or.inl (hseen r hr hrc t ht))
      · exact absurd (StateSet.mem_toList.mpr hr) hrs.1)
    exact ⟨fun r hr => hnext.1 r (StateSet.mem_union.mpr (Or.inl hr)), hnext.2⟩

/-- From a stack of all seen states the search finds exactly the reached states, in any order. -/
theorem Searches.mem_iff {S : StateSet} (h : g.Searches a S stack found)
    (hstack : stack.Perm S.toList) {s : StateId} : s ∈ found ↔ Reached g a S s := by
  have hS : ∀ r, r ∈ stack ↔ r ∈ S := fun r => by rw [hstack.mem_iff, StateSet.mem_toList]
  have hc := h.closed fun r hr hn => absurd ((hS r).mpr hr) hn
  refine ⟨?_, fun hr => ?_⟩
  · exact h.sound (fun _ _ hr ht => Reached.edge hr ht) (fun r hr => Reached.seed hr)
      (fun r hr => Reached.seed ((hS r).mp hr)) s
  · induction hr with
    | seed hs => exact hc.1 _ hs
    | edge _ ht ih => exact hc.2 _ ih _ ht

theorem mem_closure {S : StateSet} {s : StateId} :
    s ∈ g.closure a S ↔ Reached g a S s :=
  (searches_search g a S S.toList).mem_iff (List.Perm.refl _)

theorem lt_of_mem_closure {S : StateSet} (h : ∀ s ∈ S, s < g.size) :
    ∀ s ∈ g.closure a S, s < g.size := by
  intro s hs
  induction mem_closure.mp hs with
  | seed hs' => exact h _ hs'
  | edge _ ht _ => exact targets_lt ht

end Graph

end Determinize
