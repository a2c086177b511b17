import Determinize.NFA
import Mathlib.Data.List.Nodup

/-!
# What can happen to an automaton

`History raw g m` says that calls on the automaton `m`, accepted and refused ones, and whatever
happened elsewhere in the graph, lead to the automaton `m` in the graph `g`: states may be made on
their own or by other automata, and edges may be added between any states. Only if `raw` is set may
an edge be added directly to a state that the automaton knows; otherwise all edges of its states
come from its own calls.

Results:
* `attempt_cases`: everything a call can do;
* `History.inv`: names tell the states of an automaton apart, the label of the empty moves is never
  a symbol, and without direct edges its states lead only to its states, by symbols and empty moves.
-/
namespace Determinize.NFA

/-- A state that was added to the automaton under some name. -/
def Knows (m : NFA) (s : StateId) : Prop := ∃ name, m.state? name = some s

/-- What a call leaves, taken or refused. -/
def attempt (g : Graph) (m : NFA) (e : Edit) : Graph × NFA := ((m.edit g e).graph, (m.edit g e).nfa)

/-- What a sequence of calls leaves. -/
def attempts (g : Graph) (m : NFA) (es : List Edit) : Graph × NFA :=
  es.foldl (fun p e => attempt p.1 p.2 e) (g, m)

/-- The automaton and the graph after calls on it and anything else that happens to the graph. -/
inductive History (raw : Bool) : Graph → NFA → Prop
  | new (g : Graph) (config : Config) : History raw g (NFA.new config)
  | call {g : Graph} {m : NFA} (e : Edit) : History raw g m →
      History raw (attempt g m e).1 (attempt g m e).2
  | state {g : Graph} {m : NFA} (name : String) (isFinal : Bool) : History raw g m →
      History raw (g.addState name isFinal) m
  | edge {g : Graph} {m : NFA} {s t : StateId} (a : String) : s < g.size → t < g.size →
      (m.Knows s → raw = true) → History raw g m → History raw (g.addEdge s a t) m

theorem History.calls {raw : Bool} {g : Graph} {m : NFA} (es : List Edit) (h : History raw g m) :
    History raw (attempts g m es).1 (attempts g m es).2 := by
  induction es generalizing g m with
  | nil => exact h
  | cons e es ih => exact ih (h.call e)

/-! ## What a call does -/

theorem state?_withRole (m : NFA) (role : Role) (s : StateId) (name : String) :
    (m.withRole role s).state? name = m.state? name := by
  cases role <;> rfl

theorem config_withRole (m : NFA) (role : Role) (s : StateId) :
    (m.withRole role s).config = m.config := by
  cases role <;> rfl

theorem alphabet_withRole (m : NFA) (role : Role) (s : StateId) :
    (m.withRole role s).alphabet = m.alphabet := by
  cases role <;> rfl

theorem states_withRole (m : NFA) (role : Role) (s : StateId) :
    (m.withRole role s).states = m.states := by
  cases role <;> rfl

theorem start_withRole (m : NFA) (role : Role) (s : StateId) :
    (m.withRole role s).start = some s ∨ (m.withRole role s).start = m.start := by
  cases role with
  | start => exact Or.inl rfl
  | plain => exact Or.inr rfl
  | final => exact Or.inr rfl

theorem state?_learn (m : NFA) (c : Char) (name : String) :
    (m.learn c).state? name = m.state? name := by
  unfold learn; split <;> rfl

theorem config_learn (m : NFA) (c : Char) : (m.learn c).config = m.config := by
  unfold learn; split <;> rfl

theorem start_learn (m : NFA) (c : Char) : (m.learn c).start = m.start := by
  unfold learn; split <;> rfl

theorem nodup_learn {m : NFA} (c : Char) (h : m.alphabet.Nodup) : (m.learn c).alphabet.Nodup := by
  unfold learn
  split
  · exact h
  · rename_i hc
    rw [not_or] at hc
    simpa using h.concat hc.2

/-- The automaton with one more name for a state. -/
def bind (m : NFA) (name : String) (s : StateId) : NFA := { m with states := m.states.put name s }

theorem state?_bind (m : NFA) (name name' : String) (s : StateId) :
    (m.bind name s).state? name' = if name = name' then some s else m.state? name' :=
  OrderedMap.get?_put m.states name name' s

/-- A call changes nothing, or only the start, or adds a state, or adds an edge with its symbol. -/
theorem attempt_cases (g : Graph) (m : NFA) (e : Edit) :
    attempt g m e = (g, m) ∨
    (∃ role name s, m.state? name = some s ∧ attempt g m e = (g, m.withRole role s)) ∨
    (∃ role name, m.state? name = none ∧ attempt g m e =
      (g.addState name (role = .final), (m.bind name g.size).withRole role g.size)) ∨
    (∃ s t c, m.Knows s ∧ m.Knows t ∧ attempt g m e =
      (g.addEdge s (String.singleton c) t, m.learn c)) := by
  cases e with
  | add role name =>
    right
    cases hs : m.state? name with
    | some s =>
      refine Or.inl ⟨role, name, s, hs, ?_⟩
      simp only [attempt, edit, add_taken role hs]
    | none =>
      refine Or.inr (Or.inl ⟨role, name, hs, ?_⟩)
      simp only [attempt, edit, add_fresh role hs, bind]
  | connect source symbol target =>
    rw [attempt, edit]
    obtain ⟨error, hc⟩ | ⟨s, t, c, hs, ht, -, hc⟩ := connect_cases g m source symbol target
    · rw [hc]
      exact Or.inl rfl
    · rw [hc]
      exact Or.inr (Or.inr (Or.inr ⟨s, t, c, ⟨source, hs⟩, ⟨target, ht⟩, rfl⟩))

/-! ## What every history keeps -/

/-- The invariant of an automaton in its graph. -/
structure Inv (raw : Bool) (g : Graph) (m : NFA) : Prop where
  named : ∀ {name : String} {s : StateId}, m.state? name = some s → s < g.size ∧ g.name s = name
  start : ∀ {s : StateId}, m.start = some s → m.Knows s
  epsilon : m.config.epsilon ∉ m.alphabet
  distinct : m.alphabet.Nodup
  edges : raw = false → ∀ {s t : StateId} {a : String}, m.Knows s → t ∈ g.targets s a →
    m.Knows t ∧ ∃ c, a = String.singleton c ∧ (c = m.config.epsilon ∨ c ∈ m.alphabet)

variable {raw : Bool} {g : Graph} {m : NFA}

theorem Inv.lt (h : Inv raw g m) {s : StateId} (hs : m.Knows s) : s < g.size := by
  obtain ⟨name, hn⟩ := hs
  exact (h.named hn).1

/-- The states of an automaton have different names. -/
theorem Inv.name_inj (h : Inv raw g m) {s t : StateId} (hs : m.Knows s) (ht : m.Knows t)
    (he : g.name s = g.name t) : s = t := by
  obtain ⟨n, hn⟩ := hs
  obtain ⟨k, hk⟩ := ht
  have hnk : n = k := by rw [← (h.named hn).2, ← (h.named hk).2, he]
  subst hnk
  rw [hn] at hk
  exact Option.some.inj hk

theorem inv_new (g : Graph) (config : Config) : Inv raw g (NFA.new config) where
  named h := by cases h
  start h := by cases h
  epsilon := List.not_mem_nil
  distinct := List.nodup_nil
  edges _ _ _ _ h _ := by
    obtain ⟨name, hn⟩ := h
    cases hn

theorem inv_withRole (role : Role) {s : StateId} (hs : m.Knows s) (h : Inv raw g m) :
    Inv raw g (m.withRole role s) := by
  have hk : ∀ t, (m.withRole role s).Knows t ↔ m.Knows t := fun t => by
    simp only [Knows, state?_withRole]
  refine ⟨?_, ?_, ?_, ?_, ?_⟩
  · intro name t ht
    rw [state?_withRole] at ht
    exact h.named ht
  · intro t ht
    rw [hk]
    rcases start_withRole m role s with hr | hr
    · rw [hr] at ht
      cases ht
      exact hs
    · rw [hr] at ht
      exact h.start ht
  · rw [config_withRole, alphabet_withRole]
    exact h.epsilon
  · rw [alphabet_withRole]
    exact h.distinct
  · intro hr t u a ht hu
    rw [hk] at ht ⊢
    rw [config_withRole, alphabet_withRole]
    exact h.edges hr ht hu

theorem inv_addState (name : String) (isFinal : Bool) (h : Inv raw g m) :
    Inv raw (g.addState name isFinal) m where
  named hn := by
    obtain ⟨hlt, hname⟩ := h.named hn
    rw [Graph.size_addState, Graph.name_addState, if_neg (Nat.ne_of_lt hlt)]
    exact ⟨Nat.lt_succ_of_lt hlt, hname⟩
  start := h.start
  epsilon := h.epsilon
  distinct := h.distinct
  edges hr s t a hs ht := by
    rw [Graph.targets_addState] at ht
    exact h.edges hr hs ht

/-- A fresh name gets the new state, which has no edges yet. -/
theorem inv_bind {name : String} (isFinal : Bool) (hn : m.state? name = none) (h : Inv raw g m) :
    Inv raw (g.addState name isFinal) (m.bind name g.size) := by
  have h' := inv_addState name isFinal h
  have hold : ∀ {s}, m.Knows s → (m.bind name g.size).Knows s := by
    intro s hs
    obtain ⟨k, hk⟩ := hs
    have hne : ¬ name = k := by
      intro he
      rw [← he, hn] at hk
      cases hk
    refine ⟨k, ?_⟩
    rw [state?_bind, if_neg hne]
    exact hk
  refine ⟨?_, fun hs => hold (h.start hs), h.epsilon, h.distinct, ?_⟩
  · intro k s hk
    rw [state?_bind] at hk
    split at hk
    · rename_i he
      cases hk
      rw [Graph.size_addState, Graph.name_addState, if_pos rfl]
      exact ⟨Nat.lt_succ_self _, he⟩
    · exact h'.named hk
  · intro hr s t a hs ht
    obtain ⟨k, hk⟩ := hs
    rw [state?_bind] at hk
    split at hk
    · cases hk
      rw [Graph.targets_addState, Graph.targets_size] at ht
      exact absurd ht (StateSet.not_mem_empty t)
    · obtain ⟨hkt, hc⟩ := h'.edges hr ⟨k, hk⟩ ht
      exact ⟨hold hkt, hc⟩

theorem inv_edge {s t : StateId} (a : String) (hs : s < g.size) (ht : t < g.size)
    (hraw : m.Knows s → raw = true) (h : Inv raw g m) : Inv raw (g.addEdge s a t) m where
  named hn := by
    rw [Graph.size_addEdge, Graph.name_addEdge g s t _ a hs ht]
    exact h.named hn
  start := h.start
  epsilon := h.epsilon
  distinct := h.distinct
  edges hr r u b hk hu := by
    have hne : ¬ (s = r ∧ a = b) := by
      intro he
      rw [he.1] at hraw
      rw [hraw hk] at hr
      cases hr
    rw [Graph.targets_addEdge g s t r a b hs ht, if_neg hne] at hu
    exact h.edges hr hk hu

theorem inv_connect {s t : StateId} (c : Char) (hs : m.Knows s) (ht : m.Knows t)
    (h : Inv raw g m) : Inv raw (g.addEdge s (String.singleton c) t) (m.learn c) := by
  have hslt := h.lt hs
  have htlt := h.lt ht
  have hk : ∀ r, (m.learn c).Knows r ↔ m.Knows r := fun r => by simp only [Knows, state?_learn]
  refine ⟨?_, ?_, ?_, nodup_learn c h.distinct, ?_⟩
  · intro name r hr
    rw [state?_learn] at hr
    rw [Graph.size_addEdge, Graph.name_addEdge g s t r _ hslt htlt]
    exact h.named hr
  · intro r hr
    rw [start_learn] at hr
    exact (hk r).mpr (h.start hr)
  · rw [config_learn, mem_learn]
    intro he
    rcases he with he | ⟨he, hne⟩
    · exact h.epsilon he
    · exact hne he.symm
  · intro hr r u a hrk hu
    rw [hk] at hrk ⊢
    rw [config_learn]
    rw [Graph.targets_addEdge g s t r _ a hslt htlt] at hu
    have hother : u ∈ g.targets r a → m.Knows u ∧
        ∃ d, a = String.singleton d ∧ (d = m.config.epsilon ∨ d ∈ (m.learn c).alphabet) := by
      intro hu
      obtain ⟨hku, d, hd, hda⟩ := h.edges hr hrk hu
      exact ⟨hku, d, hd, hda.imp_right fun hda => mem_learn.mpr (Or.inl hda)⟩
    split at hu
    · rename_i he
      rcases StateSet.mem_insert.mp hu with rfl | hu
      · refine ⟨ht, c, he.2.symm, ?_⟩
        by_cases hc : c = m.config.epsilon
        · exact Or.inl hc
        · exact Or.inr (mem_learn.mpr (Or.inr ⟨rfl, hc⟩))
      · exact hother hu
    · exact hother hu

theorem inv_attempt (e : Edit) (h : Inv raw g m) :
    Inv raw (attempt g m e).1 (attempt g m e).2 := by
  obtain he | ⟨role, name, s, hs, he⟩ | ⟨role, name, hn, he⟩ | ⟨s, t, c, hs, ht, he⟩ :=
    attempt_cases g m e <;> rw [he]
  · exact h
  · exact inv_withRole role ⟨name, hs⟩ h
  · refine inv_withRole role ⟨name, ?_⟩ (inv_bind _ hn h)
    rw [state?_bind, if_pos rfl]
  · exact inv_connect c hs ht h

theorem History.inv (h : History raw g m) : Inv raw g m := by
  induction h with
  | new g config => exact inv_new g config
  | call e _ ih => exact inv_attempt e ih
  | state name isFinal _ ih => exact inv_addState name isFinal ih
  | edge a hs ht hraw _ ih => exact inv_edge a hs ht hraw ih

end Determinize.NFA
