import Determinize.Proofs.Naming
import Determinize.Proofs.Record
import Determinize.Proofs.Trim

/-!
# What an automaton says, however it was built

The content of an automaton is its empty-move label, the names and finalities of its states, the
name of its start and its transitions between names. Different calls can lead to one content: in
another order, repeated, refused. The states then have other indices, and the symbols another order.
States of two such automata with one name behave alike, and so do sets with the same names: they
step to sets with the same names, are accepting together and have one identifier. So what is reached
in one is reached in the other.

Results:
* `Reflects.hasState_iff`, `Reflects.hasTransition_iff`, `mem_alphabet_iff`: the content that calls
  lead to, and that it decides the symbols;
* `Rebuilt.matches_step`, `Rebuilt.reached`: sets with the same names step alike;
* `Rebuilt.accepts_eq`, `Rebuilt.toDFA_ok`: the same words, and the same conversions fail;
* `Rebuilt.states_iff`, `Rebuilt.next?_eq`: the converted automata are the same.
-/
namespace Determinize.NFA

/-- The automaton has a state of a name, final or not. -/
def HasState (m : NFA) (g : Graph) (name : String) (isFinal : Bool) : Prop :=
  ∃ s, m.state? name = some s ∧ g.isFinal s = isFinal

/-- The automaton has a transition between the states of two names. -/
def HasTransition (m : NFA) (g : Graph) (source : String) (c : Char) (target : String) : Prop :=
  ∃ s t, m.state? source = some s ∧ m.state? target = some t ∧
    t ∈ g.targets s (String.singleton c)

/-- Two automata, each in its graph, that say the same. -/
structure SameContent (m₁ : NFA) (g₁ : Graph) (m₂ : NFA) (g₂ : Graph) : Prop where
  epsilon : m₁.config.epsilon = m₂.config.epsilon
  states : ∀ name isFinal, m₁.HasState g₁ name isFinal ↔ m₂.HasState g₂ name isFinal
  start : m₁.start.map g₁.name = m₂.start.map g₂.name
  transitions : ∀ source c target,
    m₁.HasTransition g₁ source c target ↔ m₂.HasTransition g₂ source c target

theorem SameContent.symm {m₁ m₂ : NFA} {g₁ g₂ : Graph} (h : SameContent m₁ g₁ m₂ g₂) :
    SameContent m₂ g₂ m₁ g₁ where
  epsilon := h.epsilon.symm
  states name isFinal := (h.states name isFinal).symm
  start := h.start.symm
  transitions source c target := (h.transitions source c target).symm

/-! ## The content that calls lead to -/

section Calls

variable {m : NFA} {g : Graph} {es : List Edit}

theorem Reflects.hasState_iff (h : Reflects g m es) {name : String} {isFinal : Bool} :
    m.HasState g name isFinal ↔ name ∈ Record.names es ∧ Record.isFinal es name = isFinal := by
  rw [h.mem_names]
  refine ⟨fun ⟨s, hs, hf⟩ => ⟨⟨s, hs⟩, ?_⟩, fun ⟨⟨s, hs⟩, hf⟩ => ⟨s, hs, ?_⟩⟩
  · rw [← h.finals hs, hf]
  · rw [h.finals hs, hf]

theorem Reflects.hasTransition_iff (h : Reflects g m es) {source target : String} {c : Char} :
    m.HasTransition g source c target ↔ (source, c, target) ∈ Record.transitions es := by
  refine ⟨fun ⟨s, t, hs, ht, hmem⟩ => ?_, fun hmem => ?_⟩
  · obtain ⟨d, target', htrans, hd, ht'⟩ := (h.targets hs _ t).mp hmem
    rw [String.singleton_inj] at hd
    rw [hd, h.inv.state?_inj ht ht']
    exact htrans
  · obtain ⟨hsource, htarget⟩ := Record.names_of_mem_transitions es hmem
    obtain ⟨s, hs⟩ := h.mem_names.mp hsource
    obtain ⟨t, ht⟩ := h.mem_names.mp htarget
    exact ⟨s, t, hs, ht, (h.targets hs _ t).mpr ⟨c, target, hmem, rfl, ht⟩⟩

theorem Reflects.start_name (h : Reflects g m es) : m.start.map g.name = Record.start? es := by
  rw [h.start]
  cases hs : Record.start? es with
  | none => rfl
  | some name =>
    obtain ⟨s, hn⟩ := h.mem_names.mp (Record.names_of_start? es hs)
    rw [Option.bind_some, hn, Option.map_some, (h.inv.named hn).2]

/-- Calls with the same states, the same start and the same transitions lead to the same content. -/
theorem sameContent_of_reflects {m' : NFA} {g' : Graph} {es' : List Edit} (h : Reflects g m es)
    (h' : Reflects g' m' es') (hepsilon : m.config.epsilon = m'.config.epsilon)
    (hnames : (Record.names es).Perm (Record.names es'))
    (hfinal : ∀ name ∈ Record.names es, Record.isFinal es name = Record.isFinal es' name)
    (hstart : Record.start? es = Record.start? es')
    (htransitions : (∀ t ∈ Record.transitions es, t ∈ Record.transitions es') ∧
      ∀ t ∈ Record.transitions es', t ∈ Record.transitions es) : SameContent m g m' g' where
  epsilon := hepsilon
  states name isFinal := by
    rw [h.hasState_iff, h'.hasState_iff, ← hnames.mem_iff]
    exact and_congr_right fun hn => by rw [hfinal name hn]
  start := by rw [h.start_name, h'.start_name, hstart]
  transitions source c target := by
    rw [h.hasTransition_iff, h'.hasTransition_iff]
    exact ⟨htransitions.1 _, htransitions.2 _⟩

/-- The symbols are those of the transitions, but for the one that reads nothing. -/
theorem mem_alphabet_iff (h : History false g m) {c : Char} : c ∈ m.alphabet ↔
    c ≠ m.config.epsilon ∧ ∃ source target, m.HasTransition g source c target := by
  obtain ⟨es, hes⟩ := h.reflects
  simp only [hes.hasTransition_iff, hes.alphabet, Record.alphabet, List.mem_eraseDups,
    List.mem_filter, List.mem_map, decide_eq_true_eq]
  constructor
  · rintro ⟨⟨⟨source, d, target⟩, htrans, rfl⟩, hc⟩
    exact ⟨hc, source, target, htrans⟩
  · rintro ⟨hc, source, target, htrans⟩
    exact ⟨⟨_, htrans, rfl⟩, hc⟩

end Calls

/-! ## States and sets with the same names -/

/-- The states of one name in two automata. -/
def Namesakes (m₁ m₂ : NFA) (s t : StateId) : Prop :=
  ∃ name, m₁.state? name = some s ∧ m₂.state? name = some t

/-- All members of `S` have namesakes in `T`. -/
def Covers (m₁ m₂ : NFA) (S T : StateSet) : Prop := ∀ s ∈ S, ∃ t ∈ T, Namesakes m₁ m₂ s t

/-- The members have the same names. -/
def Matches (m₁ m₂ : NFA) (S T : StateSet) : Prop := Covers m₁ m₂ S T ∧ Covers m₂ m₁ T S

/-- Two automata that say the same, of which each was built by its own calls. -/
structure Rebuilt (m₁ : NFA) (g₁ : Graph) (m₂ : NFA) (g₂ : Graph) : Prop where
  content : SameContent m₁ g₁ m₂ g₂
  left : Inv false g₁ m₁
  right : Inv false g₂ m₂
  symbols : ∀ c, c ∈ m₁.alphabet ↔ c ∈ m₂.alphabet

variable {m₁ m₂ : NFA} {g₁ g₂ : Graph} {s t : StateId} {S T : StateSet}

theorem Namesakes.symm (h : Namesakes m₁ m₂ s t) : Namesakes m₂ m₁ t s := by
  obtain ⟨name, hs, ht⟩ := h
  exact ⟨name, ht, hs⟩

theorem Matches.symm (h : Matches m₁ m₂ S T) : Matches m₂ m₁ T S := ⟨h.2, h.1⟩

theorem Covers.within (h : Covers m₁ m₂ S T) : m₁.Within S := fun s hs => by
  obtain ⟨t, -, name, hn, -⟩ := h s hs
  exact ⟨name, hn⟩

theorem rebuilt_of_history (h₁ : History false g₁ m₁) (h₂ : History false g₂ m₂)
    (h : SameContent m₁ g₁ m₂ g₂) : Rebuilt m₁ g₁ m₂ g₂ where
  content := h
  left := h₁.inv
  right := h₂.inv
  symbols c := by
    rw [mem_alphabet_iff h₁, mem_alphabet_iff h₂, h.epsilon]
    simp only [h.transitions]

namespace Rebuilt

theorem symm (h : Rebuilt m₁ g₁ m₂ g₂) : Rebuilt m₂ g₂ m₁ g₁ where
  content := h.content.symm
  left := h.right
  right := h.left
  symbols c := (h.symbols c).symm

theorem over_iff (h : Rebuilt m₁ g₁ m₂ g₂) {w : List Char} : m₁.Over w ↔ m₂.Over w :=
  forall₂_congr fun c _ => h.symbols c

/-! ### States of one name -/

theorem eq_of_namesakes (h : Rebuilt m₁ g₁ m₂ g₂) {t' : StateId} (ht : Namesakes m₁ m₂ s t)
    (ht' : Namesakes m₁ m₂ s t') : t = t' := by
  obtain ⟨name, hs, ht⟩ := ht
  obtain ⟨name', hs', ht'⟩ := ht'
  rw [h.left.state?_inj hs hs', ht'] at ht
  exact (Option.some.inj ht).symm

theorem name_eq (h : Rebuilt m₁ g₁ m₂ g₂) (hst : Namesakes m₁ m₂ s t) :
    g₁.name s = g₂.name t := by
  obtain ⟨name, hs, ht⟩ := hst
  rw [(h.left.named hs).2, (h.right.named ht).2]

theorem isFinal_eq (h : Rebuilt m₁ g₁ m₂ g₂) (hst : Namesakes m₁ m₂ s t) :
    g₁.isFinal s = g₂.isFinal t := by
  obtain ⟨name, hs, ht⟩ := hst
  obtain ⟨t', ht', hf⟩ := (h.content.states name (g₁.isFinal s)).mp ⟨s, hs, rfl⟩
  rw [ht] at ht'
  cases ht'
  exact hf.symm

/-- Edges of one label lead from namesakes to namesakes. -/
theorem target (h : Rebuilt m₁ g₁ m₂ g₂) (hst : Namesakes m₁ m₂ s t) {c : Char} {s' : StateId}
    (hs' : s' ∈ g₁.targets s (String.singleton c)) :
    ∃ t' ∈ g₂.targets t (String.singleton c), Namesakes m₁ m₂ s' t' := by
  obtain ⟨source, hs, ht⟩ := hst
  obtain ⟨⟨target, htarget⟩, -⟩ := h.left.edges rfl ⟨source, hs⟩ hs'
  obtain ⟨t₀, t', ht₀, ht', hmem⟩ :=
    (h.content.transitions source c target).mp ⟨s, s', hs, htarget, hs'⟩
  rw [ht] at ht₀
  cases ht₀
  exact ⟨t', hmem, target, htarget, ht'⟩

theorem start (h : Rebuilt m₁ g₁ m₂ g₂) (hs : m₁.start = some s) :
    ∃ t, m₂.start = some t ∧ Namesakes m₁ m₂ s t := by
  have hname := h.content.start
  rw [hs, Option.map_some, eq_comm, Option.map_eq_some_iff] at hname
  obtain ⟨t, ht, he⟩ := hname
  obtain ⟨name, hn⟩ := h.left.start hs
  obtain ⟨name', hn'⟩ := h.right.start ht
  rw [(h.left.named hn).2, (h.right.named hn').2] at he
  exact ⟨t, ht, name, hn, he ▸ hn'⟩

theorem start_none (h : Rebuilt m₁ g₁ m₂ g₂) (hs : m₁.start = none) : m₂.start = none := by
  have hname := h.content.start
  rw [hs, Option.map_none, eq_comm, Option.map_eq_none_iff] at hname
  exact hname

/-! ### Sets with the same names -/

theorem covers_closure (h : Rebuilt m₁ g₁ m₂ g₂) (hST : Covers m₁ m₂ S T) :
    Covers m₁ m₂ (g₁.closure m₁.epsilon S) (g₂.closure m₂.epsilon T) := by
  have hlabel : m₂.epsilon = m₁.epsilon := by
    rw [epsilon, epsilon, Config.epsilonLabel, Config.epsilonLabel, h.content.epsilon]
  rw [hlabel]
  intro s hs
  induction Graph.mem_closure.mp hs with
  | seed hseed =>
    obtain ⟨t, ht, hst⟩ := hST _ hseed
    exact ⟨t, Graph.mem_closure.mpr (.seed ht), hst⟩
  | edge hr hs' ih =>
    obtain ⟨t, ht, hst⟩ := ih (Graph.mem_closure.mpr hr)
    obtain ⟨t', ht', hst'⟩ := h.target hst hs'
    exact ⟨t', Graph.mem_closure.mpr (.edge (Graph.mem_closure.mp ht) ht'), hst'⟩

theorem covers_step (h : Rebuilt m₁ g₁ m₂ g₂) (hST : Covers m₁ m₂ S T) (c : Char) :
    Covers m₁ m₂ (m₁.step g₁ S c) (m₂.step g₂ T c) := by
  refine h.covers_closure fun s' hs' => ?_
  obtain ⟨s, hs, hmem⟩ := Graph.mem_move.mp hs'
  obtain ⟨t, ht, hst⟩ := hST s hs
  obtain ⟨t', ht', hst'⟩ := h.target hst hmem
  exact ⟨t', Graph.mem_move.mpr ⟨t, ht, ht'⟩, hst'⟩

/-- Sets with the same names step to sets with the same names. -/
theorem matches_step (h : Rebuilt m₁ g₁ m₂ g₂) (hST : Matches m₁ m₂ S T) (c : Char) :
    Matches m₁ m₂ (m₁.step g₁ S c) (m₂.step g₂ T c) :=
  ⟨h.covers_step hST.1 c, h.symm.covers_step hST.2 c⟩

theorem matches_closed (h : Rebuilt m₁ g₁ m₂ g₂) (hst : Namesakes m₁ m₂ s t) :
    Matches m₁ m₂ (m₁.closed g₁ s) (m₂.closed g₂ t) := by
  have hone : ∀ {m₁ m₂ : NFA} {s t : StateId}, Namesakes m₁ m₂ s t → Covers m₁ m₂ {s} {t} :=
    fun hst r hr => ⟨_, StateSet.mem_singleton.mpr rfl, StateSet.mem_singleton.mp hr ▸ hst⟩
  exact ⟨h.covers_closure (hone hst), h.symm.covers_closure (hone hst.symm)⟩

theorem matches_after (h : Rebuilt m₁ g₁ m₂ g₂) (hST : Matches m₁ m₂ S T) (w : List Char) :
    Matches m₁ m₂ (m₁.after g₁ S w) (m₂.after g₂ T w) := by
  induction w generalizing S T with
  | nil => exact hST
  | cons c w ih => exact ih (h.matches_step hST c)

/-- A set matches no two sets. -/
theorem eq_of_matches (h : Rebuilt m₁ g₁ m₂ g₂) {T' : StateSet} (hST : Matches m₁ m₂ S T)
    (hST' : Matches m₁ m₂ S T') : T = T' := by
  have hsub : ∀ {T T' : StateSet}, Matches m₁ m₂ S T → Matches m₁ m₂ S T' → ∀ t ∈ T, t ∈ T' := by
    intro T T' hST hST' t ht
    obtain ⟨s, hs, hts⟩ := hST.2 t ht
    obtain ⟨t', ht', hst'⟩ := hST'.1 s hs
    exact h.eq_of_namesakes hts.symm hst' ▸ ht'
  exact StateSet.ext fun t => ⟨hsub hST hST' t, hsub hST' hST t⟩

theorem isAccepting_eq (h : Rebuilt m₁ g₁ m₂ g₂) (hST : Matches m₁ m₂ S T) :
    g₁.isAccepting S = g₂.isAccepting T := by
  rw [Bool.eq_iff_iff, Graph.isAccepting_iff, Graph.isAccepting_iff]
  refine ⟨fun ⟨s, hs, hf⟩ => ?_, fun ⟨t, ht, hf⟩ => ?_⟩
  · obtain ⟨t, ht, hst⟩ := hST.1 s hs
    exact ⟨t, ht, h.isFinal_eq hst ▸ hf⟩
  · obtain ⟨s, hs, hts⟩ := hST.2 t ht
    exact ⟨s, hs, h.isFinal_eq hts.symm ▸ hf⟩

/-- Sets with the same names have one identifier: it is written from the sorted names. -/
theorem identifier_eq (h : Rebuilt m₁ g₁ m₂ g₂) (hST : Matches m₁ m₂ S T) :
    g₁.identifier S = g₂.identifier T := by
  have hnodup : ∀ {m : NFA} {g : Graph} {S : StateSet}, Inv false g m → m.Within S →
      (S.toList.map g.name).Nodup := fun hi hS =>
    (StateSet.nodup_toList _).map_on fun s hs t ht he =>
      hi.name_inj (hS s (StateSet.mem_toList.mp hs)) (hS t (StateSet.mem_toList.mp ht)) he
  refine Identifier.ofNames_eq_of_perm ((List.perm_ext_iff_of_nodup
    (hnodup h.left hST.1.within) (hnodup h.right hST.2.within)).mpr fun name => ?_)
  simp only [List.mem_map, StateSet.mem_toList]
  refine ⟨fun ⟨s, hs, hn⟩ => ?_, fun ⟨t, ht, hn⟩ => ?_⟩
  · obtain ⟨t, ht, hst⟩ := hST.1 s hs
    exact ⟨t, ht, h.name_eq hst ▸ hn⟩
  · obtain ⟨s, hs, hts⟩ := hST.2 t ht
    exact ⟨s, hs, h.name_eq hts.symm ▸ hn⟩

/-- What is reached in one automaton is reached in the other. -/
theorem reached (h : Rebuilt m₁ g₁ m₂ g₂) (hS : m₁.Reached g₁ S) :
    ∃ T, m₂.Reached g₂ T ∧ Matches m₁ m₂ S T := by
  induction hS with
  | start hs =>
    obtain ⟨t, ht, hst⟩ := h.start hs
    exact ⟨_, .start ht, h.matches_closed hst⟩
  | @step S c _ hc ih =>
    obtain ⟨T, hT, hST⟩ := ih
    exact ⟨_, hT.step ((h.symbols c).mp hc), h.matches_step hST c⟩

/-! ## The same words, and the same conversion -/

theorem accepts_imp (h : Rebuilt m₁ g₁ m₂ g₂) {word : String} (hw : m₁.accepts g₁ word = true) :
    m₂.accepts g₂ word = true := by
  obtain ⟨s, hs, hover, hacc⟩ := accepts_iff.mp hw
  obtain ⟨t, ht, hst⟩ := h.start hs
  refine accepts_iff.mpr ⟨t, ht, h.over_iff.mp hover, ?_⟩
  rw [← h.isAccepting_eq (h.matches_after (h.matches_closed hst) word.toList)]
  exact hacc

theorem accepts_eq (h : Rebuilt m₁ g₁ m₂ g₂) (word : String) :
    m₁.accepts g₁ word = m₂.accepts g₂ word :=
  Bool.eq_iff_iff.mpr ⟨h.accepts_imp, h.symm.accepts_imp⟩

/-- If no two reached sets with one identifier lead apart, then none in the other automaton do. -/
theorem toDFA_ok (h : Rebuilt m₁ g₁ m₂ g₂) (hs : m₁.start = some s)
    (hd : ∃ d, m₁.toDFA g₁ = .ok d) : ∃ d, m₂.toDFA g₂ = .ok d := by
  obtain ⟨t, ht, -⟩ := h.start hs
  rw [toDFA_ok_iff hs] at hd
  rw [toDFA_ok_iff ht]
  intro T T' a hT hT' ha he
  obtain ⟨S, hS, hTS⟩ := h.symm.reached hT
  obtain ⟨S', hS', hTS'⟩ := h.symm.reached hT'
  rw [h.symm.identifier_eq hTS, h.symm.identifier_eq hTS'] at he
  rw [h.symm.identifier_eq (h.symm.matches_step hTS a),
    h.symm.identifier_eq (h.symm.matches_step hTS' a)]
  exact hd S S' a hS hS' ((h.symbols a).mpr ha) he

/-- Where one conversion lacks a start, so does the other. -/
theorem toDFA_missingStart (h : Rebuilt m₁ g₁ m₂ g₂)
    (he : m₁.toDFA g₁ = .error .missingStart) : m₂.toDFA g₂ = .error .missingStart := by
  cases hs : m₁.start with
  | none => exact toDFA_of_start_none g₂ (h.start_none hs)
  | some s =>
    obtain ⟨c, hc⟩ := toDFA_error hs he
    cases hc

theorem toDFA_refused (h : Rebuilt m₁ g₁ m₂ g₂)
    (he : ∃ c, m₁.toDFA g₁ = .error (.refused c)) : ∃ c, m₂.toDFA g₂ = .error (.refused c) := by
  cases hs : m₁.start with
  | none =>
    obtain ⟨c, hc⟩ := he
    rw [toDFA_of_start_none g₁ hs] at hc
    cases hc
  | some s =>
    obtain ⟨t, ht, -⟩ := h.start hs
    rw [toDFA_error_iff hs] at he
    rw [toDFA_error_iff ht]
    exact fun hd => he (h.symm.toDFA_ok ht hd)

variable {d₁ d₂ : DFA}

/-- A conversion that goes through had a start, and so had the other. -/
theorem starts (h : Rebuilt m₁ g₁ m₂ g₂) (hd : m₁.toDFA g₁ = .ok d₁) :
    ∃ s t, m₁.start = some s ∧ m₂.start = some t ∧ Namesakes m₁ m₂ s t := by
  cases hs : m₁.start with
  | none =>
    rw [toDFA_of_start_none g₁ hs] at hd
    cases hd
  | some s =>
    obtain ⟨t, ht, hst⟩ := h.start hs
    exact ⟨s, t, rfl, ht, hst⟩

theorem init_eq (h : Rebuilt m₁ g₁ m₂ g₂) (hd₁ : m₁.toDFA g₁ = .ok d₁)
    (hd₂ : m₂.toDFA g₂ = .ok d₂) : d₁.init = d₂.init := by
  obtain ⟨s, t, hs, ht, hst⟩ := h.starts hd₁
  rw [init_toDFA hs hd₁, init_toDFA ht hd₂, h.identifier_eq (h.matches_closed hst)]

theorem states_subset (h : Rebuilt m₁ g₁ m₂ g₂) (hd₁ : m₁.toDFA g₁ = .ok d₁)
    (hd₂ : m₂.toDFA g₂ = .ok d₂) {q : String} (hq : q ∈ d₁.states) : q ∈ d₂.states := by
  obtain ⟨s, t, hs, ht, -⟩ := h.starts hd₁
  obtain ⟨S, hS, rfl⟩ := (mem_states_toDFA hs hd₁).mp hq
  obtain ⟨T, hT, hST⟩ := h.reached hS
  exact (mem_states_toDFA ht hd₂).mpr ⟨T, hT, (h.identifier_eq hST).symm⟩

theorem accepting_subset (h : Rebuilt m₁ g₁ m₂ g₂) (hd₁ : m₁.toDFA g₁ = .ok d₁)
    (hd₂ : m₂.toDFA g₂ = .ok d₂) {q : String} (hq : q ∈ d₁.accepting) : q ∈ d₂.accepting := by
  obtain ⟨s, t, hs, ht, -⟩ := h.starts hd₁
  obtain ⟨S, hS, hf, rfl⟩ := (mem_accepting hs hd₁).mp hq
  obtain ⟨T, hT, hST⟩ := h.reached hS
  exact (mem_accepting ht hd₂).mpr
    ⟨T, hT, (h.isAccepting_eq hST).symm.trans hf, (h.identifier_eq hST).symm⟩

theorem next?_imp (h : Rebuilt m₁ g₁ m₂ g₂) (hd₁ : m₁.toDFA g₁ = .ok d₁)
    (hd₂ : m₂.toDFA g₂ = .ok d₂) {q a r : String} (hr : d₁.next? q a = some r) :
    d₂.next? q a = some r := by
  obtain ⟨s, t, hs, ht, -⟩ := h.starts hd₁
  obtain ⟨S, c, hS, hc, rfl, rfl, rfl⟩ := (next?_eq_some_iff hs hd₁).mp hr
  obtain ⟨T, hT, hST⟩ := h.reached hS
  exact (next?_eq_some_iff ht hd₂).mpr ⟨T, c, hT, (h.symbols c).mp hc,
    (h.identifier_eq hST).symm, rfl, (h.identifier_eq (h.matches_step hST c)).symm⟩

theorem states_iff (h : Rebuilt m₁ g₁ m₂ g₂) (hd₁ : m₁.toDFA g₁ = .ok d₁)
    (hd₂ : m₂.toDFA g₂ = .ok d₂) (q : String) : q ∈ d₁.states ↔ q ∈ d₂.states :=
  ⟨h.states_subset hd₁ hd₂, h.symm.states_subset hd₂ hd₁⟩

theorem accepting_iff (h : Rebuilt m₁ g₁ m₂ g₂) (hd₁ : m₁.toDFA g₁ = .ok d₁)
    (hd₂ : m₂.toDFA g₂ = .ok d₂) (q : String) : q ∈ d₁.accepting ↔ q ∈ d₂.accepting :=
  ⟨h.accepting_subset hd₁ hd₂, h.symm.accepting_subset hd₂ hd₁⟩

theorem next?_eq (h : Rebuilt m₁ g₁ m₂ g₂) (hd₁ : m₁.toDFA g₁ = .ok d₁)
    (hd₂ : m₂.toDFA g₂ = .ok d₂) (q a : String) : d₁.next? q a = d₂.next? q a :=
  Option.ext fun _ => ⟨h.next?_imp hd₁ hd₂, h.symm.next?_imp hd₂ hd₁⟩

/-- The symbols are the same, maybe in another order. -/
theorem alphabet_perm (h : Rebuilt m₁ g₁ m₂ g₂) (hd₁ : m₁.toDFA g₁ = .ok d₁)
    (hd₂ : m₂.toDFA g₂ = .ok d₂) : d₁.alphabet.Perm d₂.alphabet := by
  obtain ⟨s, t, hs, ht, -⟩ := h.starts hd₁
  rw [alphabet_toDFA hs h.left.distinct hd₁, alphabet_toDFA ht h.right.distinct hd₂]
  exact ((List.perm_ext_iff_of_nodup h.left.distinct h.right.distinct).mpr h.symbols).map _

end Rebuilt

end Determinize.NFA
