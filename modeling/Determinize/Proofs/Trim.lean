import Determinize.Proofs.Naming
import Determinize.Proofs.Simulation
import Mathlib.Data.List.ProdSigma

/-!
# The shape of a converted automaton

The automaton that a conversion returns is complete and trim: it has a transition for each of its
states and each symbol and no other, and all its states can be reached. Its states are listed as the
subsets were registered, and its symbols as in the given automaton. Nothing is assumed about names,
so subsets with one identifier may have become one state.

Results:
* `insertAll_mentioned`: once a subset is declared, transitions mention no further states;
* `states_toDFA`, `alphabet_toDFA`: the lists of states and symbols, in order;
* `mem_delta_iff`, `follow_states`: completeness, and how each state is reached;
* `toDFA_wellFormed`: the shape of every result of a conversion.
-/
namespace Determinize

/-! ## What emissions mention -/

namespace Emission

variable {g : Graph} {seen : List StateSet} {l : List String}

/-- What is told mentions the subset that it declares, and else only declared ones. -/
theorem insertAll_mentioned_one {e : Emission} (h : e.Allowed seen)
    (hl : ∀ S ∈ seen, g.identifier S ∈ l) :
    insertAll ((e.calls g).flatMap Call.mentioned) l =
      insertAll (e.declared.map g.identifier) l := by
  cases e with
  | opening S =>
    have hagain : ∀ x : String, insertNew x (insertNew x l) = insertNew x l := fun x =>
      insertNew_of_mem (mem_insertNew.mpr (Or.inl rfl))
    simp only [calls_opening, Construction.openingCalls, declared]
    split <;> simp [Call.mentioned, hagain]
  | declare S =>
    simp only [calls_declare, Construction.declaration, declared]
    split <;> rfl
  | link S a T =>
    have hS := hl S h.1
    have hT := hl T h.2
    rw [declared, List.map_nil, insertAll_nil]
    exact insertAll_of_subset (by simp [calls, Call.mentioned, hS, hT])

theorem insertAll_mentioned {es : List Emission} (h : Announced seen es)
    (hl : ∀ S ∈ seen, g.identifier S ∈ l) :
    insertAll ((es.flatMap (calls g)).flatMap Call.mentioned) l =
      insertAll ((es.flatMap declared).map g.identifier) l := by
  induction es generalizing seen l with
  | nil => rfl
  | cons e es ih =>
    simp only [List.flatMap_cons, List.flatMap_append, List.map_append, insertAll_append]
    rw [insertAll_mentioned_one h.1 hl]
    refine ih h.2 fun S hS => mem_insertAll.mpr ?_
    rcases List.mem_append.mp hS with hS | hS
    · exact Or.inr (hl S hS)
    · exact Or.inl (List.mem_map.mpr ⟨S, hS, rfl⟩)

end Emission

namespace NFA

variable {m : NFA} {g : Graph} {s : StateId} {d : DFA}

/-- Each pair uses its symbol once. -/
theorem used_script (seen : List StateSet) (l : List (StateSet × Char)) :
    ((m.script g seen l).flatMap (Emission.calls g)).flatMap Call.used =
      l.map fun p => String.singleton p.2 := by
  have hdeclare : ∀ T, (Emission.calls g (.declare T)).flatMap Call.used = [] := by
    intro T
    simp only [Emission.calls_declare, Construction.declaration]
    split <;> rfl
  have hlink : ∀ S a T, (Emission.calls g (.link S a T)).flatMap Call.used =
      [String.singleton a] := fun S a T => rfl
  induction l generalizing seen with
  | nil => rfl
  | cons p l ih =>
    obtain ⟨S, a⟩ := p
    by_cases h : m.step g S a ∈ seen
    · simp [script, h, ih, hlink]
    · simp [script, h, ih, hlink, hdeclare]

/-! ## The lists of the result -/

/-- The states are listed in the order in which their identifiers were first registered. -/
theorem states_toDFA (hs : m.start = some s) (hd : m.toDFA g = .ok d) :
    d.states = (m.mapping g).keys := by
  rw [(DFA.feed_lists ((toDFA_eq_ok hs).mp hd)).1, calls,
    Emission.insertAll_mentioned (announced_emissions hs) (by simp), declared_emissions hs,
    keys_mapping]
  rfl

/-- All symbols are used when the first subset is expanded. -/
theorem alphabet_toDFA (hs : m.start = some s) (hn : m.alphabet.Nodup) (hd : m.toDFA g = .ok d) :
    d.alphabet = m.alphabet.map String.singleton := by
  obtain ⟨rest, horder⟩ : ∃ rest, m.order g = m.closed g s :: rest := ⟨_, order_eq hs⟩
  have hused : (m.calls g).flatMap Call.used =
      m.alphabet.map String.singleton ++ (m.pairs rest).map fun p => String.singleton p.2 := by
    have hopening : ((Emission.opening (m.closed g s)).calls g).flatMap Call.used = [] := by
      simp only [Emission.calls_opening, Construction.openingCalls]
      split <;> rfl
    rw [calls, emissions_eq hs, List.flatMap_cons, List.flatMap_append, hopening, used_script,
      horder, pairs_cons, pairs_singleton, List.map_append, List.map_map]
    rfl
  have hfirst : insertAll (m.alphabet.map String.singleton) [] =
      m.alphabet.map String.singleton :=
    insertAll_of_nodup (hn.map fun _ _ => String.singleton_inj.mp)
  rw [(DFA.feed_lists ((toDFA_eq_ok hs).mp hd)).2, hused, insertAll_append]
  refine (congrArg _ hfirst).trans (insertAll_of_subset fun a ha => ?_)
  obtain ⟨⟨S, c⟩, hp, rfl⟩ := List.mem_map.mp ha
  exact List.mem_map.mpr ⟨c, (mem_pairs.mp hp).2, rfl⟩

/-- The states are the identifiers of the reached subsets. -/
theorem mem_states_toDFA (hs : m.start = some s) (hd : m.toDFA g = .ok d) {q : String} :
    q ∈ d.states ↔ ∃ S, m.Reached g S ∧ g.identifier S = q := by
  rw [states_toDFA hs hd, ← OrderedMap.mem_def, mem_mapping, List.mem_map]
  simp only [mem_order hs]

/-- There is a transition for every state and every symbol, and no other. -/
theorem mem_delta_iff (hs : m.start = some s) (hd : m.toDFA g = .ok d) {q a : String} :
    (q, a) ∈ d.delta ↔ q ∈ d.states ∧ a ∈ m.alphabet.map String.singleton := by
  rw [OrderedMap.mem_iff_get?_isSome, Option.isSome_iff_exists, mem_states_toDFA hs hd,
    List.mem_map]
  refine ⟨fun ⟨t, ht⟩ => ?_, fun ⟨⟨S, hS, hq⟩, c, hc, ha⟩ => ?_⟩
  · obtain ⟨S, c, hS, hc, hq, ha, -⟩ := (next?_eq_some_iff hs hd).mp ht
    exact ⟨⟨S, hS, hq⟩, c, hc, ha⟩
  · exact ⟨_, (next?_eq_some_iff hs hd).mpr ⟨S, c, hS, hc, hq, ha, rfl⟩⟩

/-- Every state is where some word over the alphabet leads. -/
theorem follow_states (hs : m.start = some s) (hd : m.toDFA g = .ok d) {q : String}
    (hq : q ∈ d.states) : ∃ i w, d.init = some i ∧ m.Over w ∧ d.follow i w = some q := by
  obtain ⟨S, hS, rfl⟩ := (mem_states_toDFA hs hd).mp hq
  obtain ⟨s', w, hs', hw, rfl⟩ := reached_iff_after.mp hS
  rw [hs] at hs'
  cases hs'
  exact ⟨_, w, init_toDFA hs hd, hw, follow_identifier hs hd (.start hs) hw⟩

/-! ## The shape -/

end NFA

theorem DFA.isTotal_iff {d : DFA} :
    d.isTotal = true ↔ ∀ q ∈ d.states, ∀ a ∈ d.alphabet, (q, a) ∈ d.delta := by
  simp only [isTotal, List.all_eq_true, next?, OrderedMap.mem_iff_get?_isSome]

/-- Where the transitions are those of all pairs, they are as many as the pairs. -/
theorem DFA.transitionCount_of_complete {d : DFA} (hstates : d.states.Nodup)
    (halphabet : d.alphabet.Nodup)
    (h : ∀ q a, (q, a) ∈ d.delta ↔ q ∈ d.states ∧ a ∈ d.alphabet) :
    d.transitionCount = d.size * d.alphabet.length := by
  have hp : d.delta.keys.Perm (d.states ×ˢ d.alphabet) := by
    rw [List.perm_ext_iff_of_nodup d.delta.nodup_keys (hstates.product halphabet)]
    rintro ⟨q, a⟩
    rw [← OrderedMap.mem_def, h, List.mem_product]
  rw [transitionCount, ← OrderedMap.length_keys, hp.length_eq, List.length_product, size]

namespace NFA

variable {m : NFA} {g : Graph} {s : StateId} {d : DFA} {raw : Bool}

/-- The automaton that a conversion returns, whatever the names: its symbols are those of the given
automaton in order; its states are the identifiers of the mapping in order, each once; its start and
its accepting states are among them; it has a transition for each state and each symbol and no
other, so that it is total; the transitions lead to its states; and each of its states can be
reached from the start. -/
theorem toDFA_wellFormed (h : History raw g m) (hs : m.start = some s) (hd : m.toDFA g = .ok d) :
    d.alphabet = m.alphabet.map String.singleton ∧
    d.states.Nodup ∧
    (∃ found, (m.determinize DFA.builder g ∅).result = .ok found ∧ d.states = found.keys) ∧
    (∀ {σ ε : Type} (b : Builder σ ε) (t : σ) (found : SubsetMap),
      (m.determinize b g t).result = .ok found → d.states = found.keys) ∧
    (∃ i, d.init = some i ∧ i ∈ d.states ∧
      ∀ q ∈ d.states, ∃ w : List Char, d.follow i w = some q) ∧
    (∀ q ∈ d.accepting, q ∈ d.states) ∧
    (∀ q a, (q, a) ∈ d.delta ↔ q ∈ d.states ∧ a ∈ d.alphabet) ∧
    (∀ q a t, d.next? q a = some t → t ∈ d.states) ∧
    d.isTotal = true ∧ d.transitionCount = d.size * d.alphabet.length := by
  have hdistinct := h.inv.distinct
  have halphabet := alphabet_toDFA hs hdistinct hd
  have hstates := states_toDFA hs hd
  have hnodup : d.states.Nodup := hstates ▸ (m.mapping g).nodup_keys
  have hdelta : ∀ q a, (q, a) ∈ d.delta ↔ q ∈ d.states ∧ a ∈ d.alphabet := fun q a => by
    rw [halphabet]
    exact mem_delta_iff hs hd
  have hmapping : ∀ {σ ε : Type} (b : Builder σ ε) (t : σ) (found : SubsetMap),
      (m.determinize b g t).result = .ok found → d.states = found.keys := fun b t found hok => by
    rw [hstates, (determinize_ok hs hok).1]
  refine ⟨halphabet, hnodup, ?_, hmapping, ⟨_, init_toDFA hs hd, ?_, fun q hq => ?_⟩,
    fun q hq => ?_, hdelta, fun q a t ht => ?_, DFA.isTotal_iff.mpr fun q hq a ha => ?_,
    DFA.transitionCount_of_complete hnodup ?_ hdelta⟩
  · obtain ⟨-, found, hok⟩ := toDFA_eq_ok_iff.mp hd
    exact ⟨found, hok, hmapping DFA.builder ∅ found hok⟩
  · exact (mem_states_toDFA hs hd).mpr ⟨_, .start hs, rfl⟩
  · obtain ⟨i, w, hi, -, hw⟩ := follow_states hs hd hq
    rw [init_toDFA hs hd] at hi
    cases hi
    exact ⟨w, hw⟩
  · obtain ⟨S, hS, -, rfl⟩ := (mem_accepting hs hd).mp hq
    exact (mem_states_toDFA hs hd).mpr ⟨S, hS, rfl⟩
  · obtain ⟨S, c, hS, hc, -, -, rfl⟩ := (next?_eq_some_iff hs hd).mp ht
    exact (mem_states_toDFA hs hd).mpr ⟨_, hS.step hc, rfl⟩
  · exact (hdelta q a).mpr ⟨hq, ha⟩
  · rw [halphabet]
    exact hdistinct.map fun _ _ => String.singleton_inj.mp

/-- Two sets with one identifier became one state, so there are fewer states than reached sets. -/
theorem toDFA_wellFormed_homonyms : History true homonyms.1 homonyms.2 ∧
    homonyms.2.start = some 0 ∧ ∃ d, homonyms.2.toDFA homonyms.1 = .ok d ∧
      d.alphabet = ["a", "b"] ∧ d.isTotal = true ∧ d.transitionCount = d.size * 2 ∧
      d.size < (homonyms.2.order homonyms.1).length := by
  have hnone : (DFA.builder.feed ∅ (homonyms.2.calls homonyms.1)).2 = none := by decide +kernel
  have hd := (toDFA_eq_ok (s := 0) rfl).mpr (Prod.ext rfl hnone)
  obtain ⟨halphabet, -, -, -, -, -, -, -, htotal, hcount⟩ :=
    toDFA_wellFormed history_homonyms (s := 0) rfl hd
  have hsymbols : homonyms.2.alphabet.map String.singleton = ["a", "b"] := by decide +kernel
  rw [halphabet, hsymbols] at hcount
  exact ⟨history_homonyms, rfl, _, hd, halphabet.trans hsymbols, htotal, hcount, by decide +kernel⟩

end NFA

end Determinize
