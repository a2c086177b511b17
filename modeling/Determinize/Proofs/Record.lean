import Determinize.Proofs.History
import Mathlib.Data.List.Induction

/-!
# What the calls on an automaton say

The content of an automaton can be read off the calls made on it, without running them: its names
are those that were added, in the order of their first additions, where the first addition of a name
decides whether its state is final; the last start added is the start; and the transitions are those
between names that were known by then, whose symbols make up the alphabet.

Results:
* `names_add`, `isFinal_concat`, `start?_concat`, `transitions_concat`: what one more call says;
* `refusal_eq_some_iff`, `warning_eq`: what a call answers and reports behind earlier calls;
* `reflects_attempt`: an automaton keeps reflecting its calls, accepted and refused ones;
* `reflects_elsewhere`: calls on an automaton with other states do not matter.
-/
namespace Determinize

/-- What the items of a list contribute, each given the items before it. -/
def collect {α β : Type} (f : List α → α → List β) (before : List α) : List α → List β
  | [] => []
  | x :: rest => f before x ++ collect f (before ++ [x]) rest

theorem collect_concat {α β : Type} (f : List α → α → List β) (before l : List α) (x : α) :
    collect f before (l ++ [x]) = collect f before l ++ f (before ++ l) x := by
  induction l generalizing before with
  | nil => simp [collect]
  | cons y l ih => simp [collect, ih]

theorem eraseDups_concat {α : Type} [BEq α] [LawfulBEq α] (l : List α) (x : α) :
    (l ++ [x]).eraseDups = if x ∈ l then l.eraseDups else l.eraseDups ++ [x] := by
  rw [List.eraseDups_append]
  by_cases h : x ∈ l
  · simp [List.removeAll, h]
  · simp [List.removeAll, h, List.eraseDups_cons]

namespace Edit

/-- The name that a call adds. -/
def name? : Edit → Option String
  | .add _ name => some name
  | .connect _ _ _ => none

/-- The name that a call adds as the start. -/
def start? : Edit → Option String
  | .add .start name => some name
  | _ => none

/-- Whether a call that adds this name asks for a final state. -/
def final? (name : String) : Edit → Option Bool
  | .add role name' => if name' = name then some (role = .final) else none
  | .connect _ _ _ => none

end Edit

namespace Record

/-- The names that were added, in the order of their first additions. -/
def names (es : List Edit) : List String := (es.filterMap Edit.name?).eraseDups

/-- Whether the first addition of a name asked for a final state. -/
def isFinal (es : List Edit) (name : String) : Bool := es.findSome? (Edit.final? name) == some true

/-- The name that was last added as the start. -/
def start? (es : List Edit) : Option String := (es.filterMap Edit.start?).getLast?

/-- The transition that a call adds behind earlier calls: one between names that were added by then,
with a text of one character. -/
def transition? (before : List Edit) : Edit → Option (String × Char × String)
  | .connect source (.text symbol) target =>
    match symbol.toList with
    | [c] =>
      if source ∈ names before ∧ target ∈ names before then some (source, c, target) else none
    | _ => none
  | _ => none

/-- The transitions that were added, in the order of the calls. -/
def transitions (es : List Edit) : List (String × Char × String) :=
  collect (fun before e => (transition? before e).toList) [] es

/-- The symbols of the transitions, without the one that reads nothing, in the order of their first
uses. -/
def alphabet (ε : Char) (es : List Edit) : List Char :=
  (((transitions es).map fun t => t.2.1).filter fun c => decide (c ≠ ε)).eraseDups

/-- Whether a value is a symbol can be found out. -/
instance (symbol : Value) : Decidable (∃ c, symbol = .text (String.singleton c)) :=
  decidable_of_iff (symbol.char?.isSome = true) (by
    simp only [Option.isSome_iff_exists, Value.char?_eq_some_iff])

/-- The error that a call raises behind earlier calls. -/
def refusal? (before : List Edit) : Edit → Option EditError
  | .add _ _ => none
  | .connect source symbol target =>
    if source ∉ names before then some (.unknownState source)
    else if target ∉ names before then some (.unknownState target)
    else if ∃ c, symbol = .text (String.singleton c) then none
    else some (.invalidSymbol symbol)

/-- The warning that a call yields behind earlier calls. -/
def warning? (before : List Edit) : Edit → Option Warning
  | .add role name =>
    if name ∈ names before then some ⟨name, role = .final, role = .start⟩ else none
  | .connect _ _ _ => none

/-! ## One more call -/

variable (es : List Edit)

theorem mem_names {name : String} : name ∈ names es ↔ name ∈ es.filterMap Edit.name? :=
  List.mem_eraseDups

theorem names_add (role : Role) (name : String) : names (es ++ [.add role name]) =
    if name ∈ names es then names es else names es ++ [name] := by
  have hone : [Edit.add role name].filterMap Edit.name? = [name] := rfl
  rw [names, List.filterMap_append, hone, eraseDups_concat]
  simp only [mem_names]
  rfl

theorem names_connect (source target : String) (symbol : Value) :
    names (es ++ [.connect source symbol target]) = names es := by
  have hone : [Edit.connect source symbol target].filterMap Edit.name? = [] := rfl
  rw [names, List.filterMap_append, hone, List.append_nil, names]

theorem isSome_final?_iff {name : String} :
    (es.findSome? (Edit.final? name)).isSome = true ↔ name ∈ names es := by
  rw [mem_names, List.findSome?_isSome_iff, List.mem_filterMap]
  refine exists_congr fun e => and_congr_right fun _ => ?_
  cases e with
  | add role name' => simp [Edit.final?, Edit.name?]
  | connect source symbol target => simp [Edit.final?, Edit.name?]

/-- Once a name is there, no call changes whether it is final. -/
theorem isFinal_concat (e : Edit) (name : String) : isFinal (es ++ [e]) name =
    if name ∈ names es then isFinal es name else e.final? name == some true := by
  rw [isFinal, List.findSome?_append]
  split
  · rename_i h
    rw [← isSome_final?_iff, Option.isSome_iff_exists] at h
    obtain ⟨b, hb⟩ := h
    rw [hb, Option.some_or, isFinal, hb]
  · rename_i h
    rw [← isSome_final?_iff, Option.not_isSome_iff_eq_none] at h
    rw [h, Option.none_or, List.findSome?_singleton]

theorem start?_concat (e : Edit) : start? (es ++ [e]) = e.start?.or (start? es) := by
  rw [start?, List.filterMap_append, List.getLast?_append, start?]
  cases h : e.start? with
  | none => simp [h]
  | some name => simp [h]

theorem names_of_start? {name : String} (h : start? es = some name) : name ∈ names es := by
  obtain ⟨e, he, hn⟩ := List.mem_filterMap.mp (List.mem_of_getLast? h)
  rw [mem_names, List.mem_filterMap]
  refine ⟨e, he, ?_⟩
  cases e with
  | add role name' =>
    cases role with
    | start => exact hn
    | plain => cases hn
    | final => cases hn
  | connect source symbol target => cases hn

theorem transition?_eq_some_iff {es : List Edit} {e : Edit} {source target : String} {c : Char} :
    transition? es e = some (source, c, target) ↔
      e = .connect source (.text (String.singleton c)) target ∧
        source ∈ names es ∧ target ∈ names es := by
  constructor
  · intro h
    unfold transition? at h
    split at h
    · rename_i p symbol q
      split at h
      · rename_i d hd
        split at h
        · rename_i hnames
          cases h
          have hone : symbol = String.singleton c := by
            rw [← String.toList_inj, hd, String.toList_singleton]
          exact ⟨by rw [hone], hnames⟩
        · cases h
      · cases h
    · cases h
  · rintro ⟨rfl, hnames⟩
    simp only [transition?, String.toList_singleton]
    exact if_pos hnames

/-- The transitions are those of the calls that are not refused. -/
theorem refusal?_eq_none_iff {source target : String} {symbol : Value} :
    refusal? es (.connect source symbol target) = none ↔
      ∃ c, transition? es (.connect source symbol target) = some (source, c, target) := by
  simp only [transition?_eq_some_iff, refusal?]
  by_cases hs : source ∈ names es <;> by_cases ht : target ∈ names es <;> simp [hs, ht]

theorem transition?_of_refusal? {e : Edit} {error : EditError}
    (h : refusal? es e = some error) : transition? es e = none := by
  cases ht : transition? es e with
  | none => rfl
  | some t =>
    obtain ⟨source, c, target⟩ := t
    obtain ⟨rfl, -⟩ := transition?_eq_some_iff.mp ht
    rw [(refusal?_eq_none_iff es).mpr ⟨c, ht⟩] at h
    cases h

theorem transitions_concat (e : Edit) :
    transitions (es ++ [e]) = transitions es ++ (transition? es e).toList :=
  collect_concat _ [] es e

theorem transitions_concat_none {e : Edit} (h : transition? es e = none) :
    transitions (es ++ [e]) = transitions es := by
  rw [transitions_concat, h, Option.toList_none, List.append_nil]

theorem names_subset (e : Edit) {name : String} (h : name ∈ names es) :
    name ∈ names (es ++ [e]) := by
  rw [mem_names, List.filterMap_append]
  exact List.mem_append_left _ ((mem_names es).mp h)

theorem names_of_mem_transitions {source target : String} {c : Char}
    (h : (source, c, target) ∈ transitions es) : source ∈ names es ∧ target ∈ names es := by
  induction es using List.reverseRecOn with
  | nil => cases h
  | append_singleton es e ih =>
    rw [transitions_concat, List.mem_append, Option.mem_toList] at h
    have hold : source ∈ names es ∧ target ∈ names es := by
      rcases h with h | h
      · exact ih h
      · exact (transition?_eq_some_iff.mp h).2
    exact ⟨names_subset es e hold.1, names_subset es e hold.2⟩

theorem alphabet_concat_none (ε : Char) {e : Edit} (h : transition? es e = none) :
    alphabet ε (es ++ [e]) = alphabet ε es := by
  rw [alphabet, transitions_concat_none es h, alphabet]

theorem alphabet_concat_some (ε : Char) {e : Edit} {source target : String} {c : Char}
    (h : transition? es e = some (source, c, target)) : alphabet ε (es ++ [e]) =
      if c = ε ∨ c ∈ alphabet ε es then alphabet ε es else alphabet ε es ++ [c] := by
  have hmem : ∀ l : List Char, c ∈ l.eraseDups ↔ c ∈ l := fun l => List.mem_eraseDups
  rw [alphabet, transitions_concat, h, Option.toList_some, List.map_append, List.filter_append]
  by_cases hc : c = ε
  · simp [hc, alphabet]
  · have hone : ([(source, c, target)].map fun t => t.2.1).filter (fun c => decide (c ≠ ε)) =
        [c] := by
      simp [hc]
    rw [hone, eraseDups_concat]
    simp only [hc, false_or, alphabet, hmem]

end Record

namespace NFA

/-- An automaton in its graph says exactly what a sequence of calls says. -/
structure Reflects (g : Graph) (m : NFA) (es : List Edit) : Prop where
  inv : Inv false g m
  names : m.states.keys = Record.names es
  finals : ∀ {name : String} {s : StateId}, m.state? name = some s →
    g.isFinal s = Record.isFinal es name
  start : m.start = (Record.start? es).bind m.state?
  targets : ∀ {source : String} {s : StateId}, m.state? source = some s →
    ∀ (a : String) (t : StateId), t ∈ g.targets s a ↔
      ∃ c target, (source, c, target) ∈ Record.transitions es ∧ a = String.singleton c ∧
        m.state? target = some t
  alphabet : m.alphabet = Record.alphabet m.config.epsilon es

variable {g : Graph} {m : NFA} {es : List Edit}

theorem Reflects.mem_names (h : Reflects g m es) {name : String} :
    name ∈ Record.names es ↔ ∃ s, m.state? name = some s := by
  rw [← h.names, ← OrderedMap.mem_def, OrderedMap.mem_iff_get?_isSome, Option.isSome_iff_exists]
  rfl

theorem Reflects.not_mem_names (h : Reflects g m es) {name : String} :
    name ∉ Record.names es ↔ m.state? name = none := by
  rw [← h.names, ← OrderedMap.mem_def]
  exact OrderedMap.get?_eq_none_iff.symm

/-- The first addition of a name decides whether its state is final. -/
theorem Reflects.finals_concat (h : Reflects g m es) (e : Edit) {name : String} {s : StateId}
    (hs : m.state? name = some s) : g.isFinal s = Record.isFinal (es ++ [e]) name := by
  rw [Record.isFinal_concat, if_pos (h.mem_names.mpr ⟨s, hs⟩), h.finals hs]

theorem Inv.state?_inj {raw : Bool} (h : Inv raw g m) {name name' : String} {s : StateId}
    (hn : m.state? name = some s) (hn' : m.state? name' = some s) : name = name' := by
  rw [← (h.named hn).2, (h.named hn').2]

theorem reflects_new (g : Graph) (config : Config) : Reflects g (NFA.new config) [] where
  inv := inv_new g config
  names := rfl
  finals h := by cases h
  start := rfl
  targets h := by cases h
  alphabet := rfl

/-! ## Calls on the automaton -/

/-- A call is refused exactly as the calls before it say. -/
theorem Reflects.refusal_eq_some_iff (h : Reflects g m es) {e : Edit} {error : EditError} :
    (m.edit g e).refusal = some error ↔ Record.refusal? es e = some error := by
  cases e with
  | add role name =>
    cases hs : m.state? name with
    | none => simp [edit, add_fresh role hs, Record.refusal?]
    | some s => simp [edit, add_taken role hs, Record.refusal?]
  | connect source symbol target =>
    rw [edit, connect, Record.refusal?]
    cases hs : m.state? source with
    | none => simp [h.not_mem_names.mpr hs]
    | some s =>
      cases ht : m.state? target with
      | none => simp [h.mem_names.mpr ⟨s, hs⟩, h.not_mem_names.mpr ht]
      | some t =>
        have hs' := h.mem_names.mpr ⟨s, hs⟩
        have ht' := h.mem_names.mpr ⟨t, ht⟩
        cases hc : symbol.char? with
        | none =>
          have hno : ¬ ∃ c, symbol = .text (String.singleton c) := by
            rintro ⟨c, hsymbol⟩
            rw [Value.char?_eq_some_iff.mpr hsymbol] at hc
            cases hc
          simp only [hs', ht', hno, not_true_eq_false, if_false]
        | some c =>
          have hyes : ∃ c, symbol = .text (String.singleton c) :=
            ⟨c, Value.char?_eq_some_iff.mp hc⟩
          simp only [hs', ht', hyes, not_true_eq_false, if_false, if_true]

/-- A call that is not taken says nothing. -/
theorem reflects_refused {source target : String} {symbol : Value} (h : Reflects g m es)
    (hn : Record.transition? es (.connect source symbol target) = none) :
    Reflects g m (es ++ [.connect source symbol target]) where
  inv := h.inv
  names := by rw [Record.names_connect, h.names]
  finals := h.finals_concat _
  start := by
    rw [Record.start?_concat, h.start]
    rfl
  targets hs a t := by
    rw [Record.transitions_concat_none es hn]
    exact h.targets hs a t
  alphabet := by rw [Record.alphabet_concat_none es _ hn, h.alphabet]

theorem reflects_connect {source target : String} {s t : StateId} {c : Char}
    (h : Reflects g m es) (hs : m.state? source = some s) (ht : m.state? target = some t) :
    Reflects (g.addEdge s (String.singleton c) t) (m.learn c)
      (es ++ [.connect source (.text (String.singleton c)) target]) := by
  have htrans : Record.transition? es (.connect source (.text (String.singleton c)) target) =
      some (source, c, target) :=
    Record.transition?_eq_some_iff.mpr ⟨rfl, h.mem_names.mpr ⟨s, hs⟩, h.mem_names.mpr ⟨t, ht⟩⟩
  have hslt := (h.inv.named hs).1
  have htlt := (h.inv.named ht).1
  refine ⟨inv_connect c ⟨source, hs⟩ ⟨target, ht⟩ h.inv, ?_, ?_, ?_, ?_, ?_⟩
  · rw [Record.names_connect, ← h.names]
    unfold learn
    split <;> rfl
  · intro name r hr
    rw [state?_learn] at hr
    rw [Graph.isFinal_addEdge g s t r _ hslt htlt]
    exact h.finals_concat _ hr
  · rw [start_learn, h.start, Record.start?_concat]
    exact Option.bind_congr fun name _ => (state?_learn m c name).symm
  · intro name r hr a u
    rw [state?_learn] at hr
    have hsource : s = r ↔ source = name :=
      ⟨fun he => h.inv.state?_inj hs (he ▸ hr), fun he => by
        rw [he, hr] at hs
        exact (Option.some.inj hs).symm⟩
    rw [Graph.mem_targets_addEdge hslt htlt, Record.transitions_concat, htrans, Option.toList_some]
    simp only [state?_learn, List.mem_append, List.mem_singleton, Prod.mk.injEq, or_and_right,
      exists_or, ← h.targets hr a u]
    refine or_congr_right ⟨fun hu => ?_, fun hu => ?_⟩
    · obtain ⟨⟨he, ha⟩, rfl⟩ := hu
      exact ⟨c, target, ⟨(hsource.mp he).symm, rfl, rfl⟩, ha.symm, ht⟩
    · obtain ⟨d, k, ⟨rfl, rfl, rfl⟩, ha, hk⟩ := hu
      rw [ht] at hk
      exact ⟨⟨hsource.mpr rfl, ha.symm⟩, (Option.some.inj hk).symm⟩
  · rw [config_learn, Record.alphabet_concat_some es _ htrans, ← h.alphabet]
    unfold learn
    split <;> rfl

/-- A name that is there only becomes the start if the call asks for it. -/
theorem reflects_taken (role : Role) {name : String} {s : StateId} (h : Reflects g m es)
    (hs : m.state? name = some s) : Reflects g (m.withRole role s) (es ++ [.add role name]) where
  inv := inv_withRole role ⟨name, hs⟩ h.inv
  names := by
    rw [Record.names_add, if_pos (h.mem_names.mpr ⟨s, hs⟩), ← h.names, states_withRole]
  finals hr := by
    rw [state?_withRole] at hr
    exact h.finals_concat _ hr
  start := by
    rw [Record.start?_concat]
    cases role with
    | start => exact hs.symm
    | plain => exact h.start
    | final => exact h.start
  targets hr a t := by
    rw [state?_withRole] at hr
    simp only [state?_withRole]
    rw [Record.transitions_concat_none es rfl]
    exact h.targets hr a t
  alphabet := by
    rw [alphabet_withRole, config_withRole, Record.alphabet_concat_none es _ rfl, h.alphabet]

theorem reflects_addState (name : String) (isFinal : Bool) (h : Reflects g m es) :
    Reflects (g.addState name isFinal) m es where
  inv := inv_addState name isFinal h.inv
  names := h.names
  finals hs := by
    rw [Graph.isFinal_addState, if_neg (Nat.ne_of_lt (h.inv.named hs).1)]
    exact h.finals hs
  start := h.start
  targets hs a t := by
    rw [Graph.targets_addState]
    exact h.targets hs a t
  alphabet := h.alphabet

/-- A new name gets a state of its own with the finality that the call asks for. -/
theorem reflects_fresh (role : Role) {name : String} (h : Reflects g m es)
    (hn : m.state? name = none) :
    Reflects (g.addState name (role = .final)) ((m.bind name g.size).withRole role g.size)
      (es ++ [.add role name]) := by
  have hfresh := h.not_mem_names.mpr hn
  have hnew : (m.bind name g.size).state? name = some g.size := by rw [state?_bind, if_pos rfl]
  have hother : ∀ {k : String}, k ∈ Record.names es →
      (m.bind name g.size).state? k = m.state? k := by
    intro k hk
    have hne : ¬ name = k := by
      rintro rfl
      exact hfresh hk
    rw [state?_bind, if_neg hne]
  refine ⟨inv_withRole role ⟨name, hnew⟩ (inv_bind _ hn h.inv), ?_, ?_, ?_, ?_, ?_⟩
  · rw [Record.names_add, if_neg hfresh, ← h.names, states_withRole]
    rw [← h.names] at hfresh
    exact (OrderedMap.keys_put m.states name g.size).trans (if_neg hfresh)
  · intro k r hr
    rw [state?_withRole, state?_bind] at hr
    rw [Graph.isFinal_addState]
    split at hr
    · rename_i he
      cases hr
      rw [if_pos rfl, Record.isFinal_concat, ← he, if_neg hfresh]
      simp [Edit.final?]
    · rw [if_neg (Nat.ne_of_lt (h.inv.named hr).1)]
      exact h.finals_concat _ hr
  · have hold : (Record.start? es).bind (m.bind name g.size).state? = m.start := by
      rw [h.start]
      exact Option.bind_congr fun k hk => hother (Record.names_of_start? es hk)
    rw [Record.start?_concat]
    cases role with
    | start => exact hnew.symm
    | plain => exact hold.symm
    | final => exact hold.symm
  · intro k r hr a t
    rw [state?_withRole] at hr
    rw [Graph.targets_addState, Record.transitions_concat_none es rfl]
    simp only [state?_withRole]
    have hmem : (∃ c target, (k, c, target) ∈ Record.transitions es ∧ a = String.singleton c ∧
        (m.bind name g.size).state? target = some t) ↔
        ∃ c target, (k, c, target) ∈ Record.transitions es ∧ a = String.singleton c ∧
          m.state? target = some t := by
      refine exists_congr fun c => exists_congr fun target => and_congr_right fun hc => ?_
      rw [hother (Record.names_of_mem_transitions es hc).2]
    rw [hmem]
    by_cases hk : k ∈ Record.names es
    · rw [hother hk] at hr
      exact h.targets hr a t
    · -- `k` is the new name: its state has no edges, and no transition could name it before
      have hnone := h.not_mem_names.mp hk
      rw [state?_bind, hnone] at hr
      split at hr
      · cases hr
        constructor
        · intro ht
          rw [Graph.targets_size] at ht
          exact absurd ht (StateSet.not_mem_empty t)
        · rintro ⟨c, target, hc, -⟩
          exact absurd (Record.names_of_mem_transitions es hc).1 hk
      · cases hr
  · rw [alphabet_withRole, config_withRole, Record.alphabet_concat_none es _ rfl]
    exact h.alphabet

/-- An automaton keeps saying what its calls say, the refused ones among them. -/
theorem reflects_attempt (e : Edit) (h : Reflects g m es) :
    Reflects (attempt g m e).1 (attempt g m e).2 (es ++ [e]) := by
  cases e with
  | add role name =>
    cases hs : m.state? name with
    | some s =>
      simp only [attempt, edit, add_taken role hs]
      exact reflects_taken role h hs
    | none =>
      simp only [attempt, edit, add_fresh role hs]
      exact reflects_fresh role h hs
  | connect source symbol target =>
    obtain ⟨error, hc⟩ | ⟨s, t, c, hs, ht, rfl, hc⟩ := connect_cases g m source symbol target
    · have he : (m.edit g (.connect source symbol target)).refusal = some error :=
        congrArg Edited.refusal hc
      have hn := Record.transition?_of_refusal? es (h.refusal_eq_some_iff.mp he)
      rw [attempt, edit, hc]
      exact reflects_refused h hn
    · rw [attempt, edit, hc]
      exact reflects_connect h hs ht

theorem reflects_attempts (more : List Edit) (h : Reflects g m es) :
    Reflects (attempts g m more).1 (attempts g m more).2 (es ++ more) := by
  induction more generalizing g m es with
  | nil => simpa [attempts] using h
  | cons e more ih =>
    rw [List.append_cons]
    exact ih (reflects_attempt e h)

/-! ## Calls on other automata -/

theorem reflects_addEdge {s t : StateId} (a : String) (hs : s < g.size) (ht : t < g.size)
    (hk : ¬ m.Knows s) (h : Reflects g m es) : Reflects (g.addEdge s a t) m es where
  inv := inv_edge a hs ht (fun hk' => absurd hk' hk) h.inv
  names := h.names
  finals hr := by
    rw [Graph.isFinal_addEdge g s t _ a hs ht]
    exact h.finals hr
  start := h.start
  targets {source r} hr b u := by
    have hne : ¬ (s = r ∧ a = b) := fun he => hk ⟨source, he.1 ▸ hr⟩
    rw [Graph.targets_addEdge g s t r a b hs ht, if_neg hne]
    exact h.targets hr b u
  alphabet := h.alphabet

/-- An automaton says what some calls say, whatever happened elsewhere in the graph. -/
theorem History.reflects (h : History false g m) : ∃ es, Reflects g m es := by
  induction h with
  | new g config => exact ⟨[], reflects_new g config⟩
  | call e _ ih =>
    obtain ⟨es, hes⟩ := ih
    exact ⟨es ++ [e], reflects_attempt e hes⟩
  | state name isFinal _ ih =>
    obtain ⟨es, hes⟩ := ih
    exact ⟨es, reflects_addState name isFinal hes⟩
  | edge a hs ht hraw _ ih =>
    obtain ⟨es, hes⟩ := ih
    exact ⟨es, reflects_addEdge a hs ht (fun hk => Bool.false_ne_true (hraw hk)) hes⟩

theorem config_attempt (g : Graph) (m : NFA) (e : Edit) :
    (attempt g m e).2.config = m.config := by
  obtain he | ⟨role, name, r, -, he⟩ | ⟨role, name, -, he⟩ | ⟨r, t, c, -, -, he⟩ :=
    attempt_cases g m e <;> rw [he]
  · exact config_withRole m role r
  · exact config_withRole _ role _
  · exact config_learn m c

/-- The states that an automaton knows after a call are those it knew, and a new one. -/
theorem knows_attempt {e : Edit} {s : StateId} (h : (attempt g m e).2.Knows s) :
    m.Knows s ∨ s = g.size := by
  have hrole : ∀ (m : NFA) (role : Role) (r : StateId), (m.withRole role r).Knows s → m.Knows s :=
    fun m role r hk => by simpa only [Knows, state?_withRole] using hk
  obtain he | ⟨role, name, r, -, he⟩ | ⟨role, name, -, he⟩ | ⟨r, t, c, -, -, he⟩ :=
    attempt_cases g m e <;> rw [he] at h
  · exact Or.inl h
  · exact Or.inl (hrole m role r h)
  · obtain ⟨k, hk⟩ := hrole _ role _ h
    rw [state?_bind] at hk
    split at hk
    · exact Or.inr (Option.some.inj hk).symm
    · exact Or.inl ⟨k, hk⟩
  · exact Or.inl (by simpa only [Knows, state?_learn] using h)

/-- What is said about an automaton is the same after calls on an automaton that knows none of its
states. -/
theorem reflects_elsewhere {m' : NFA} (e : Edit) (hm' : Inv false g m')
    (hd : ∀ s, m.Knows s → ¬ m'.Knows s) (h : Reflects g m es) :
    Reflects (attempt g m' e).1 m es := by
  obtain he | ⟨role, name, r, -, he⟩ | ⟨role, name, -, he⟩ | ⟨s, t, c, hs, ht, he⟩ :=
    attempt_cases g m' e <;> rw [he]
  · exact h
  · exact h
  · exact reflects_addState name _ h
  · exact reflects_addEdge _ (hm'.lt hs) (hm'.lt ht) (fun hk => hd s hk hs) h

/-! ## What a call reports -/

/-- A call yields exactly the warning that the calls before it say. -/
theorem Reflects.warning_eq (h : Reflects g m es) (e : Edit) :
    (m.edit g e).warning = Record.warning? es e := by
  cases e with
  | add role name =>
    rw [Record.warning?]
    cases hs : m.state? name with
    | some s =>
      rw [if_pos (h.mem_names.mpr ⟨s, hs⟩)]
      simp only [edit, add_taken role hs]
    | none =>
      rw [if_neg (h.not_mem_names.mpr hs)]
      simp only [edit, add_fresh role hs]
  | connect source symbol target =>
    rw [Record.warning?]
    obtain ⟨error, hc⟩ | ⟨s, t, c, -, -, -, hc⟩ := connect_cases g m source symbol target <;>
      rw [edit, hc]

end NFA

end Determinize
