import Determinize.Proofs.Emission
import Determinize.Proofs.Paths

/-!
# Growing an automaton

Calls that add states and transitions take nothing away: every edge stays, and so does the finality
of every state, also where a state is added again for another role. So a path that spells a word
spells it still, and an accepted word stays accepted. Words can only be gained by a new transition:
a new state has no edges, so no path from the start ends there.

Results:
* `attempt_additive`: what a call can do that makes no state the start;
* `grows_attempt`, `grows_attempts`: what such calls keep, one and many;
* `adds_attempt`, `adds_attempts`: if they add no transition, they only add states;
* `grows_accepts`: accepted words stay accepted, and without a new transition no others are.
-/
namespace Determinize

/-! ## Paths in a greater graph -/

namespace Graph

variable {g g' : Graph} {s t : StateId} {labels : List String}

theorem Path.mono (h : ∀ {s t : StateId} {a : String}, t ∈ g.targets s a → t ∈ g'.targets s a)
    (hp : g.Path s labels t) : g'.Path s labels t := by
  induction hp with
  | nil s => exact .nil s
  | cons ht _ ih => exact .cons (h ht) ih

/-- A path from a state of the graph ends in the graph. -/
theorem Path.lt (hp : g.Path s labels t) (hs : s < g.size) : t < g.size := by
  induction hp with
  | nil s => exact hs
  | cons ht _ ih => exact ih (targets_lt ht)

end Graph

namespace NFA

/-! ## What growth keeps -/

/-- All edges, finalities and symbols of `m` in `g` are there in `g'`, with the same start. -/
structure Grows (g : Graph) (m : NFA) (g' : Graph) (m' : NFA) : Prop where
  size : g.size ≤ g'.size
  edges : ∀ {s t : StateId} {a : String}, t ∈ g.targets s a → t ∈ g'.targets s a
  final : ∀ s < g.size, g'.isFinal s = g.isFinal s
  start : m'.start = m.start
  config : m'.config = m.config
  symbols : ∀ c ∈ m.alphabet, c ∈ m'.alphabet

/-- Nothing but states is new. -/
structure AddsStates (g : Graph) (m : NFA) (g' : Graph) (m' : NFA) : Prop
    extends Grows g m g' m' where
  noEdges : ∀ {s t : StateId} {a : String}, t ∈ g'.targets s a → t ∈ g.targets s a
  noSymbols : m'.alphabet = m.alphabet

variable {raw : Bool} {g g' g'' : Graph} {m m' m'' : NFA} {e : Edit} {es : List Edit}

theorem Grows.refl (g : Graph) (m : NFA) : Grows g m g m :=
  ⟨Nat.le_refl _, fun h => h, fun _ _ => rfl, rfl, rfl, fun _ h => h⟩

theorem Grows.trans (h : Grows g m g' m') (h' : Grows g' m' g'' m'') : Grows g m g'' m'' where
  size := Nat.le_trans h.size h'.size
  edges ht := h'.edges (h.edges ht)
  final s hs := (h'.final s (Nat.lt_of_lt_of_le hs h.size)).trans (h.final s hs)
  start := h'.start.trans h.start
  config := h'.config.trans h.config
  symbols c hc := h'.symbols c (h.symbols c hc)

theorem AddsStates.refl (g : Graph) (m : NFA) : AddsStates g m g m :=
  ⟨.refl g m, fun h => h, rfl⟩

theorem AddsStates.trans (h : AddsStates g m g' m') (h' : AddsStates g' m' g'' m'') :
    AddsStates g m g'' m'' :=
  ⟨h.toGrows.trans h'.toGrows, fun ht => h.noEdges (h'.noEdges ht),
    h'.noSymbols.trans h.noSymbols⟩

theorem adds_addState (g : Graph) (m : NFA) (name : String) (isFinal : Bool) :
    AddsStates g m (g.addState name isFinal) (m.bind name g.size) := by
  refine ⟨⟨?_, fun ht => ?_, fun s hs => ?_, rfl, rfl, fun c hc => hc⟩, fun ht => ?_, rfl⟩
  · rw [Graph.size_addState]
    exact Nat.le_succ _
  · rw [Graph.targets_addState]
    exact ht
  · rw [Graph.isFinal_addState, if_neg (Nat.ne_of_lt hs)]
  · rwa [Graph.targets_addState] at ht

theorem grows_connect {s t : StateId} (c : Char) (hs : s < g.size) (ht : t < g.size) :
    Grows g m (g.addEdge s (String.singleton c) t) (m.learn c) where
  size := Nat.le_of_eq (Graph.size_addEdge g s t _).symm
  edges hu := (Graph.mem_targets_addEdge hs ht).mpr (Or.inl hu)
  final r _ := Graph.isFinal_addEdge g s t r _ hs ht
  start := start_learn m c
  config := config_learn m c
  symbols _ hd := mem_learn.mpr (Or.inl hd)

/-! ## Calls that make no state the start -/

/-- Such a call changes nothing, or adds a state, or is a transition that is taken. A state that is
added again keeps its finality, whatever role it is added for. -/
theorem attempt_additive (g : Graph) (m : NFA) (he : ∀ name, e ≠ .add .start name) :
    attempt g m e = (g, m) ∨
    (∃ name isFinal, attempt g m e = (g.addState name isFinal, m.bind name g.size)) ∨
    ∃ source symbol target s t c, e = .connect source symbol target ∧
      (connect g m source symbol target).refusal = none ∧ m.Knows s ∧ m.Knows t ∧
      attempt g m e = (g.addEdge s (String.singleton c) t, m.learn c) := by
  cases e with
  | add role name =>
    have hrole : ∀ (m : NFA) s, m.withRole role s = m := fun m s => by
      cases role with
      | start => exact absurd rfl (he name)
      | plain => rfl
      | final => rfl
    cases hs : m.state? name with
    | some s =>
      left
      simp only [attempt, edit, add_taken role hs, hrole]
    | none =>
      refine Or.inr (Or.inl ⟨name, role = .final, ?_⟩)
      simp only [attempt, edit, add_fresh role hs, hrole, bind]
  | connect source symbol target =>
    obtain ⟨error, hc⟩ | ⟨s, t, c, hs, ht, -, hc⟩ := connect_cases g m source symbol target
    · left
      rw [attempt, edit, hc]
    · refine Or.inr (Or.inr ⟨source, symbol, target, s, t, c, rfl, congrArg Edited.refusal hc,
        ⟨source, hs⟩, ⟨target, ht⟩, ?_⟩)
      rw [attempt, edit, hc]

theorem grows_attempt (h : Inv raw g m) (he : ∀ name, e ≠ .add .start name) :
    Grows g m (attempt g m e).1 (attempt g m e).2 := by
  obtain ha | ⟨name, isFinal, ha⟩ | ⟨-, -, -, s, t, c, -, -, hs, ht, ha⟩ :=
    attempt_additive g m he <;> rw [ha]
  · exact .refl g m
  · exact (adds_addState g m name isFinal).toGrows
  · exact grows_connect c (h.lt hs) (h.lt ht)

theorem grows_attempts (h : Inv raw g m) (hes : ∀ e ∈ es, ∀ name, e ≠ .add .start name) :
    Grows g m (attempts g m es).1 (attempts g m es).2 := by
  induction es generalizing g m with
  | nil => exact .refl g m
  | cons e es ih =>
    rw [List.forall_mem_cons] at hes
    exact (grows_attempt h hes.1).trans (ih (inv_attempt e h) hes.2)

/-! ## Calls that add no transition -/

/-- Every transition among the calls is refused when its turn comes. -/
def Edgeless (g : Graph) (m : NFA) (es : List Edit) : Prop :=
  ∀ before source symbol target after, es = before ++ .connect source symbol target :: after →
    ∃ error, (connect (attempts g m before).1 (attempts g m before).2 source symbol
      target).refusal = some error

theorem edgeless_nil (g : Graph) (m : NFA) : Edgeless g m [] := by
  intro before source symbol target after h
  cases before <;> cases h

theorem edgeless_cons : Edgeless g m (e :: es) ↔
    (∀ source symbol target, e = .connect source symbol target →
      ∃ error, (connect g m source symbol target).refusal = some error) ∧
    Edgeless (attempt g m e).1 (attempt g m e).2 es := by
  constructor
  · intro h
    refine ⟨fun source symbol target he => ?_, fun before source symbol target after hes => ?_⟩
    · exact h [] source symbol target es (by rw [he, List.nil_append])
    · exact h (e :: before) source symbol target after (by rw [hes, List.cons_append])
  · intro ⟨hfirst, hrest⟩ before source symbol target after hes
    cases before with
    | nil =>
      cases hes
      exact hfirst source symbol target rfl
    | cons e' before =>
      cases hes
      exact hrest before source symbol target after rfl

theorem adds_attempt (he : ∀ name, e ≠ .add .start name)
    (hno : ∀ source symbol target, e = .connect source symbol target →
      ∃ error, (connect g m source symbol target).refusal = some error) :
    AddsStates g m (attempt g m e).1 (attempt g m e).2 := by
  obtain ha | ⟨name, isFinal, ha⟩ | ⟨source, symbol, target, -, -, -, hc, hok, -⟩ :=
    attempt_additive g m he
  · rw [ha]
    exact .refl g m
  · rw [ha]
    exact adds_addState g m name isFinal
  · obtain ⟨error, herror⟩ := hno source symbol target hc
    rw [herror] at hok
    cases hok

theorem adds_attempts (hes : ∀ e ∈ es, ∀ name, e ≠ .add .start name) (hno : Edgeless g m es) :
    AddsStates g m (attempts g m es).1 (attempts g m es).2 := by
  induction es generalizing g m with
  | nil => exact .refl g m
  | cons e es ih =>
    rw [List.forall_mem_cons] at hes
    rw [edgeless_cons] at hno
    exact (adds_attempt hes.1 hno.1).trans (ih hes.2 hno.2)

/-! ## Words -/

/-- If the paths from the start to final states are there as well, so are the accepted words. -/
theorem accepts_of_paths (hε : m.config.epsilon ∉ m.alphabet)
    (hε' : m'.config.epsilon ∉ m'.alphabet) (hstart : m'.start = m.start)
    (hconfig : m'.config = m.config)
    (hsymbols : ∀ c ∈ m.alphabet, c ∈ m'.alphabet)
    (hpaths : ∀ {s t : StateId} {labels : List String}, m.start = some s → g.Path s labels t →
      g.isFinal t = true → g'.Path s labels t ∧ g'.isFinal t = true)
    {word : String} (h : m.accepts g word = true) : m'.accepts g' word = true := by
  rw [accepts_iff_over_path hε] at h
  rw [accepts_iff_over_path hε']
  obtain ⟨s, hs, hover, t, labels, hp, hf, hl⟩ := h
  obtain ⟨hp', hf'⟩ := hpaths hs hp hf
  have hlabel : m'.epsilon = m.epsilon := by rw [epsilon, epsilon, hconfig]
  refine ⟨s, hstart.trans hs, fun c hc => hsymbols c (hover c hc), t, labels, hp', hf', ?_⟩
  unfold Spells
  rw [hlabel]
  exact hl

theorem Grows.accepts (h : Grows g m g' m') (hi : Inv raw g m) (hi' : Inv raw g' m')
    {word : String} (ha : m.accepts g word = true) : m'.accepts g' word = true := by
  refine accepts_of_paths hi.epsilon hi'.epsilon h.start h.config h.symbols
    (fun hs hp hf => ?_) ha
  have ht := hp.lt (hi.lt (hi.start hs))
  exact ⟨hp.mono h.edges, (h.final _ ht).trans hf⟩

/-- Paths from the start do not lead to the new states. -/
theorem AddsStates.accepts (h : AddsStates g m g' m') (hi : Inv raw g m) (hi' : Inv raw g' m')
    (word : String) : m'.accepts g' word = m.accepts g word := by
  rw [Bool.eq_iff_iff]
  refine ⟨fun ha => ?_, h.toGrows.accepts hi hi'⟩
  refine accepts_of_paths hi'.epsilon hi.epsilon h.start.symm h.config.symm
    (fun c hc => h.noSymbols ▸ hc) (fun hs hp hf => ?_) ha
  have hp' := hp.mono h.noEdges
  have ht := hp'.lt (hi.lt (hi.start (h.start ▸ hs)))
  exact ⟨hp', (h.final _ ht).symm.trans hf⟩

/-- Behind any further calls that make no state the start, be they taken, refused or warned about,
every word is accepted that was accepted before. If each of the transitions among them is refused,
no other word is: new states, final ones too, and states added again for another role are without
effect. -/
theorem grows_accepts (h : History raw g m) (es : List Edit)
    (hes : ∀ e ∈ es, ∀ name, e ≠ .add .start name) :
    (∀ word, m.accepts g word = true →
      (attempts g m es).2.accepts (attempts g m es).1 word = true) ∧
    (Edgeless g m es →
      ∀ word, (attempts g m es).2.accepts (attempts g m es).1 word = m.accepts g word) := by
  have hi := h.inv
  have hi' := (h.calls es).inv
  refine ⟨fun word ha => (grows_attempts hi hes).accepts hi hi' ha, fun hno word => ?_⟩
  exact (adds_attempts hes hno).accepts hi hi' word

/-- On a start `p` that leads to the final state `q`: another transition loses no word; and adding
`p` again as a final state, a new final state and two refused transitions change none. -/
theorem grows_accepts_chain : History false chain.1 chain.2 ∧
    (attempts chain.1 chain.2 [.connect "q" (.text "b") "p"]).2.accepts
      (attempts chain.1 chain.2 [.connect "q" (.text "b") "p"]).1 "a" = true ∧
    ∀ word, (attempts chain.1 chain.2 [.add .final "p", .add .final "z",
        .connect "p" (.text "ab") "q", .connect "p" (.text "a") "y"]).2.accepts
      (attempts chain.1 chain.2 [.add .final "p", .add .final "z",
        .connect "p" (.text "ab") "q", .connect "p" (.text "a") "y"]).1 word =
      chain.2.accepts chain.1 word := by
  have h : History false chain.1 chain.2 := (History.new ∅ {}).calls _
  refine ⟨h, (grows_accepts h _ (by simp)).1 "a" (by decide +kernel),
    (grows_accepts h _ (by simp)).2 ?_⟩
  refine edgeless_cons.mpr ⟨by simp, edgeless_cons.mpr ⟨by simp, edgeless_cons.mpr ⟨?_,
    edgeless_cons.mpr ⟨?_, edgeless_nil _ _⟩⟩⟩⟩
  · intro source symbol target he
    cases he
    exact ⟨.invalidSymbol (.text "ab"), rfl⟩
  · intro source symbol target he
    cases he
    exact ⟨.unknownState "y", rfl⟩

end NFA

end Determinize
