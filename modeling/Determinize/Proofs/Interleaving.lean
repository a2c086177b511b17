import Determinize.Workspace
import Determinize.Proofs.Record

/-!
# Calls on several automata

Automata are added to a workspace, each with settings and a collector of its own or with given ones,
and are built by calls in any interleaving, some of them refused. No two automata ever know a common
state, so a call on one of them is a call elsewhere for the others, and each automaton reflects its
own calls. Only the collectors see the calls of several automata: the warnings of a collector are
those of the automata that report to it, in the order of the calls.

Results:
* `automata_addAutomata`, `collectors_addAutomata`: the automata and collectors that are added;
* `edit?_eq`, `automata_attempt_cases`: everything a call can answer and leave;
* `inv_attempt`, `inv_attempts`: what calls keep of all automata and collectors;
* `calls_exact`: every automaton, every collector and the answer to every further call, after any
  calls.
-/
namespace Determinize.Workspace

/-- The workspace with an automaton more for each of the options. -/
def addAutomata (w : Workspace) (options : List (Option Config × Option Nat)) : Workspace :=
  options.foldl (fun w o => w.addAutomaton o.1 o.2) w

/-- The number of options that ask for a collector of their own. -/
def fresh (options : List (Option Config × Option Nat)) : Nat := options.countP fun o => o.2.isNone

/-- What a call on the automaton at a place leaves, taken or refused. -/
def attempt (w : Workspace) (i : Nat) (e : Edit) : Workspace :=
  match w.edit? i e with
  | some (w', _) => w'
  | none => w

/-- What calls on automata leave, each with the place of its automaton. -/
def attempts (w : Workspace) (calls : List (Nat × Edit)) : Workspace :=
  calls.foldl (fun w call => w.attempt call.1 call.2) w

/-- What no call changes about an automaton: its collector and its settings. -/
def fixed (member : Member) : Nat × Config := (member.collector, member.nfa.config)

/-- The calls on the automaton at a place. -/
def own (i : Nat) (calls : List (Nat × Edit)) : List Edit :=
  calls.filterMap fun call => if call.1 = i then some call.2 else none

/-- The warning that a call reports to the collector at a place, behind earlier calls. -/
def reported (w : Workspace) (k : Nat) (before : List (Nat × Edit)) (call : Nat × Edit) :
    Option Warning :=
  match w.automata[call.1]? with
  | some member =>
    if member.collector = k then Record.warning? (own call.1 before) call.2 else none
  | none => none

/-- The warnings that calls report to the collector at a place. -/
def reports (w : Workspace) (k : Nat) (calls : List (Nat × Edit)) : List Warning :=
  collect (fun before call => (w.reported k before call).toList) [] calls

theorem attempts_concat (w : Workspace) (calls : List (Nat × Edit)) (i : Nat) (e : Edit) :
    w.attempts (calls ++ [(i, e)]) = (w.attempts calls).attempt i e :=
  List.foldl_append

theorem own_concat (i j : Nat) (calls : List (Nat × Edit)) (e : Edit) :
    own j (calls ++ [(i, e)]) = if i = j then own j calls ++ [e] else own j calls := by
  rw [own, List.filterMap_append]
  split
  · rename_i h
    simp [own, h]
  · rename_i h
    simp [own, h]

theorem reports_concat (w : Workspace) (k : Nat) (calls : List (Nat × Edit)) (call : Nat × Edit) :
    w.reports k (calls ++ [call]) = w.reports k calls ++ (w.reported k calls call).toList :=
  collect_concat _ [] calls call

variable {w : Workspace} {i : Nat} {member : Member}

/-! ## The automata that are added -/

theorem automata_addAutomaton (w : Workspace) (config : Option Config) (collector : Option Nat) :
    (w.addAutomaton config collector).automata =
      w.automata.push ⟨NFA.new (config.getD {}), collector.getD w.collectors.size⟩ := by
  cases collector <;> rfl

theorem collectors_addAutomaton (w : Workspace) (config : Option Config) (collector : Option Nat) :
    (w.addAutomaton config collector).collectors =
      w.collectors ++ Array.replicate (fresh [(config, collector)]) ∅ := by
  cases collector with
  | some k => simp [addAutomaton, fresh]
  | none => simp [addAutomaton, addCollector, fresh]

/-- Each automaton without a given collector brings one without warnings; the others stay. -/
theorem collectors_addAutomata (w : Workspace) (options : List (Option Config × Option Nat)) :
    (w.addAutomata options).collectors =
      w.collectors ++ Array.replicate (fresh options) ∅ := by
  induction options generalizing w with
  | nil => simp [addAutomata, fresh]
  | cons o options ih =>
    have hcount : fresh (o :: options) = fresh [o] + fresh options := by
      rw [fresh, fresh, fresh, ← List.countP_append, List.singleton_append]
    rw [hcount, ← Array.replicate_append_replicate, ← Array.append_assoc,
      ← collectors_addAutomaton]
    exact ih (w.addAutomaton o.1 o.2)

theorem addAutomata_concat (w : Workspace) (options : List (Option Config × Option Nat))
    (o : Option Config × Option Nat) :
    w.addAutomata (options ++ [o]) = (w.addAutomata options).addAutomaton o.1 o.2 :=
  List.foldl_append

theorem size_addAutomata (w : Workspace) (options : List (Option Config × Option Nat)) :
    (w.addAutomata options).automata.size = w.automata.size + options.length := by
  induction options using List.reverseRecOn with
  | nil => rfl
  | append_singleton options o ih =>
    rw [addAutomata_concat, automata_addAutomaton, Array.size_push, ih, List.length_append]
    rfl

/-- The automata that were there stay. -/
theorem automata_addAutomata_of_lt (options : List (Option Config × Option Nat))
    (hi : i < w.automata.size) : (w.addAutomata options).automata[i]? = w.automata[i]? := by
  induction options using List.reverseRecOn with
  | nil => rfl
  | append_singleton options o ih =>
    have hne : i ≠ (w.addAutomata options).automata.size := by
      rw [size_addAutomata]
      omega
    rw [addAutomata_concat, automata_addAutomaton, Array.getElem?_push, if_neg hne, ih]

/-- Those that are added come behind them, without states. -/
theorem automata_addAutomata (w : Workspace) (options : List (Option Config × Option Nat))
    (j : Nat) : (w.addAutomata options).automata[w.automata.size + j]? = options[j]?.map fun o =>
      ⟨NFA.new (o.1.getD {}), o.2.getD (w.collectors.size + fresh (options.take j))⟩ := by
  induction options using List.reverseRecOn with
  | nil => simp [addAutomata]
  | append_singleton options o ih =>
    rw [addAutomata_concat, automata_addAutomaton, Array.getElem?_push, size_addAutomata,
      collectors_addAutomata, Array.size_append, Array.size_replicate, ih]
    by_cases hj : j = options.length
    · subst hj
      simp
    · have hne : ¬ w.automata.size + j = w.automata.size + options.length := by omega
      rw [if_neg hne]
      by_cases hlt : j < options.length
      · rw [List.getElem?_append_left hlt, List.take_append_of_le_length (Nat.le_of_lt hlt)]
      · have hle : options.length + 1 ≤ j := by omega
        rw [List.getElem?_eq_none (by omega), List.getElem?_eq_none (by simpa using hle)]
        rfl

theorem new_addAutomata (options : List (Option Config × Option Nat))
    (h : ∀ (i : Nat) (member : Member), w.automata[i]? = some member →
      member.nfa = NFA.new member.nfa.config) (i : Nat) (member : Member)
    (hm : (w.addAutomata options).automata[i]? = some member) :
    member.nfa = NFA.new member.nfa.config := by
  rcases Nat.lt_or_ge i w.automata.size with hi | hi
  · rw [automata_addAutomata_of_lt options hi] at hm
    exact h i member hm
  · rw [← Nat.add_sub_cancel' hi, automata_addAutomata] at hm
    obtain ⟨o, -, rfl⟩ := Option.map_eq_some_iff.mp hm
    rfl

/-! ## What a call does -/

theorem attempt_none (e : Edit) (h : w.automata[i]? = none) : w.attempt i e = w := by
  simp only [attempt, edit?, h]

/-- A call on an automaton leaves what the automaton makes of it, and answers as the automaton. -/
theorem edit?_eq (e : Edit) (h : w.automata[i]? = some member) :
    w.edit? i e = some (w.attempt i e, (member.nfa.edit w.graph e).refusal) ∧
      w.attempt i e = w.keep i member (member.nfa.edit w.graph e) := by
  simp only [attempt, edit?, h, and_self]

theorem graph_attempt (e : Edit) (h : w.automata[i]? = some member) :
    (w.attempt i e).graph = (NFA.attempt w.graph member.nfa e).1 := by
  rw [(edit?_eq e h).2, graph_keep, NFA.attempt]

theorem automata_attempt (e : Edit) (h : w.automata[i]? = some member) :
    (w.attempt i e).automata = w.automata.setIfInBounds i
      { member with nfa := (NFA.attempt w.graph member.nfa e).2 } := by
  rw [(edit?_eq e h).2, automata_keep, NFA.attempt]

theorem collectors_attempt (e : Edit) (h : w.automata[i]? = some member) (k : Nat) :
    (w.attempt i e).collectors[k]? = w.collectors[k]?.map fun d =>
      if member.collector = k then
        ⟨d.warnings ++ (member.nfa.edit w.graph e).warning.toList⟩
      else d := by
  rw [(edit?_eq e h).2, collectors_keep]

/-- The automaton of a call is the edited one; all others are as they were. -/
theorem automata_attempt_cases {j : Nat} {member' : Member} (e : Edit)
    (h : w.automata[i]? = some member) (hj : (w.attempt i e).automata[j]? = some member') :
    (i = j ∧ member' = { member with nfa := (NFA.attempt w.graph member.nfa e).2 }) ∨
    (i ≠ j ∧ w.automata[j]? = some member') := by
  rw [automata_attempt e h, Array.getElem?_setIfInBounds] at hj
  split at hj
  · rename_i hij
    rw [if_pos (Array.getElem?_eq_some_iff.mp h).1] at hj
    exact Or.inl ⟨hij, (Option.some.inj hj).symm⟩
  · rename_i hij
    exact Or.inr ⟨hij, hj⟩

theorem fixed_attempt (e : Edit) (h : w.automata[i]? = some member) (j : Nat) :
    (w.attempt i e).automata[j]?.map fixed = w.automata[j]?.map fixed := by
  rw [automata_attempt e h, Array.getElem?_setIfInBounds]
  split
  · rename_i hij
    rw [if_pos (Array.getElem?_eq_some_iff.mp h).1, ← hij, h, Option.map_some, Option.map_some,
      fixed, fixed, NFA.config_attempt]
  · rfl

/-! ## What calls keep -/

/-- The invariant of a workspace that calls were made on, and of the one they started from. -/
structure Inv (w₀ w : Workspace) (calls : List (Nat × Edit)) : Prop where
  members : ∀ i : Nat, w.automata[i]?.map fixed = w₀.automata[i]?.map fixed
  reflects : ∀ {i : Nat} {member : Member}, w.automata[i]? = some member →
    member.nfa.Reflects w.graph (own i calls)
  apart : ∀ {i j : Nat} {member member' : Member}, w.automata[i]? = some member →
    w.automata[j]? = some member' → i ≠ j → ∀ s, member.nfa.Knows s → ¬ member'.nfa.Knows s
  collectors : ∀ k : Nat, w.collectors[k]? = w₀.collectors[k]?.map fun d =>
    ⟨d.warnings ++ w₀.reports k calls⟩

theorem inv_new (h : ∀ (i : Nat) (member : Member), w.automata[i]? = some member →
    member.nfa = NFA.new member.nfa.config) : Inv w w [] where
  members _ := rfl
  reflects {i member} hm := by
    rw [h i member hm]
    exact NFA.reflects_new _ _
  apart {i j member member'} hm hm' hij s hs := by
    rw [h i member hm] at hs
    obtain ⟨name, hn⟩ := hs
    cases hn
  collectors k := by simp [reports, collect]

variable {w₀ : Workspace} {calls : List (Nat × Edit)}

/-- A state that an automaton knows after a call is not known to the others: it is new to all. -/
theorem Inv.apart_attempt {j k : Nat} {member₁ member₂ : Member} (e : Edit)
    (h : Inv w₀ w calls) (hm : w.automata[i]? = some member)
    (h₁ : (w.attempt i e).automata[j]? = some member₁)
    (h₂ : (w.attempt i e).automata[k]? = some member₂) (hjk : j ≠ k) (s : StateId)
    (hs : member₁.nfa.Knows s) : ¬ member₂.nfa.Knows s := by
  intro hs'
  obtain ⟨rfl, rfl⟩ | ⟨hj, h₁⟩ := automata_attempt_cases e hm h₁
  · obtain ⟨rfl, -⟩ | ⟨-, h₂⟩ := automata_attempt_cases e hm h₂
    · exact hjk rfl
    · rcases NFA.knows_attempt hs with hs | rfl
      · exact h.apart hm h₂ hjk s hs hs'
      · exact Nat.lt_irrefl _ ((h.reflects h₂).inv.lt hs')
  · obtain ⟨rfl, rfl⟩ | ⟨hk, h₂⟩ := automata_attempt_cases e hm h₂
    · rcases NFA.knows_attempt hs' with hs' | rfl
      · exact h.apart h₁ hm hjk s hs hs'
      · exact Nat.lt_irrefl _ ((h.reflects h₁).inv.lt hs)
    · exact h.apart h₁ h₂ hjk s hs hs'

theorem inv_attempt (e : Edit) (h : Inv w₀ w calls) :
    Inv w₀ (w.attempt i e) (calls ++ [(i, e)]) := by
  have hfixed := h.members i
  cases hm : w.automata[i]? with
  | none =>
    have hm₀ : w₀.automata[i]? = none := by
      rw [hm, Option.map_none] at hfixed
      exact Option.map_eq_none_iff.mp hfixed.symm
    rw [attempt_none e hm]
    refine ⟨h.members, ?_, h.apart, ?_⟩
    · intro j member hj
      have hij : i ≠ j := by
        rintro rfl
        rw [hm] at hj
        cases hj
      rw [own_concat, if_neg hij]
      exact h.reflects hj
    · intro k
      rw [h.collectors, reports_concat, reported, hm₀, Option.toList_none, List.append_nil]
  | some member =>
    rw [hm, Option.map_some] at hfixed
    -- the reports are counted by the collectors of `w₀`, the call reports to that of `w`
    obtain ⟨member₀, hm₀, he⟩ := Option.map_eq_some_iff.mp hfixed.symm
    have hcollector : member₀.collector = member.collector := congrArg Prod.fst he
    refine ⟨fun j => ?_, ?_, fun h₁ h₂ => h.apart_attempt e hm h₁ h₂, ?_⟩
    · rw [fixed_attempt e hm, h.members]
    · intro j member' hj
      rw [own_concat, graph_attempt e hm]
      obtain ⟨rfl, rfl⟩ | ⟨hij, hj⟩ := automata_attempt_cases e hm hj
      · rw [if_pos rfl]
        exact NFA.reflects_attempt e (h.reflects hm)
      · rw [if_neg hij]
        exact NFA.reflects_elsewhere e (h.reflects hm).inv (h.apart hj hm (Ne.symm hij))
          (h.reflects hj)
    · intro k
      rw [collectors_attempt e hm, h.collectors, Option.map_map, reports_concat,
        (h.reflects hm).warning_eq]
      congr 1
      funext d
      simp only [Function.comp, reported, hm₀, hcollector]
      split
      · rw [List.append_assoc]
      · simp

theorem inv_attempts (more : List (Nat × Edit)) (h : Inv w₀ w calls) :
    Inv w₀ (w.attempts more) (calls ++ more) := by
  induction more generalizing w calls with
  | nil => simpa [attempts] using h
  | cons call more ih =>
    obtain ⟨i, e⟩ := call
    have hstep : Inv w₀ (w.attempt i e) (calls ++ [(i, e)]) := inv_attempt e h
    have hrest := ih hstep
    rw [List.append_assoc] at hrest
    exact hrest

/-- A further call is answered as the calls before it say; if it is refused, it changes nothing. -/
theorem Inv.answer {j : Nat} (e : Edit) (h : Inv w₀ w calls) (hm : w.automata[j]? = some member) :
    w.edit? j e = some (w.attempt j e, Record.refusal? (own j calls) e) ∧
      (Record.refusal? (own j calls) e ≠ none → w.attempt j e = w) := by
  obtain ⟨hedit, hleft⟩ := edit?_eq e hm
  have hrefusal : (member.nfa.edit w.graph e).refusal = Record.refusal? (own j calls) e :=
    Option.ext fun error => (h.reflects hm).refusal_eq_some_iff
  refine ⟨hrefusal ▸ hedit, fun hne => ?_⟩
  obtain ⟨error, herror⟩ := Option.ne_none_iff_exists'.mp (hrefusal ▸ hne)
  rw [hleft, NFA.edit_of_refusal herror, keep_refused hm]

/-- **The record of calls.** Automata are added without states: each with the settings that are
given for it, else the default ones, and with the collector that is given, with or without warnings,
else with one of its own that has none. After calls on all automata in any interleaving each is
exactly what its own calls say: the names that were added in the order of their first additions,
each with a state of that name that is final if its first addition asked for it; as the start the
state of the name last added as the start; as edges the transitions of the calls that were not
refused; and as symbols the characters of these in the order of their first uses, without the one
that reads nothing. A further call is refused exactly as its own calls say, for the first reason
that applies, and then changes nothing. The collectors hold what they held and the warnings of the
automata that report to them, in the order of the calls. -/
theorem calls_exact (w : Workspace) (options : List (Option Config × Option Nat))
    (calls : List (Nat × Edit))
    (hnew : ∀ (i : Nat) (member : Member), w.automata[i]? = some member →
      member.nfa = NFA.new member.nfa.config) :
    (∀ i < w.automata.size, (w.addAutomata options).automata[i]? = w.automata[i]?) ∧
    (∀ (j : Nat) (config : Option Config) (collector : Option Nat),
      options[j]? = some (config, collector) →
        (w.addAutomata options).automata[w.automata.size + j]? = some ⟨NFA.new (config.getD {}),
          collector.getD (w.collectors.size + fresh (options.take j))⟩) ∧
    (w.addAutomata options).collectors = w.collectors ++ Array.replicate (fresh options) ∅ ∧
    (∀ (i : Nat) (member : Member), (w.addAutomata options).automata[i]? = some member →
      ∃ m : NFA,
        ((w.addAutomata options).attempts calls).automata[i]? = some ⟨m, member.collector⟩ ∧
        m.config = member.nfa.config ∧
        m.states.keys = Record.names (own i calls) ∧
        (∀ (name : String) (s : StateId), m.state? name = some s →
          ((w.addAutomata options).attempts calls).graph.name s = name ∧
          ((w.addAutomata options).attempts calls).graph.isFinal s =
            Record.isFinal (own i calls) name) ∧
        m.start = (Record.start? (own i calls)).bind m.state? ∧
        (∀ (source : String) (s : StateId), m.state? source = some s →
          ∀ (a : String) (t : StateId),
            t ∈ ((w.addAutomata options).attempts calls).graph.targets s a ↔ ∃ c target,
              (source, c, target) ∈ Record.transitions (own i calls) ∧ a = String.singleton c ∧
                m.state? target = some t) ∧
        m.alphabet = Record.alphabet m.config.epsilon (own i calls) ∧
        ∀ e : Edit,
          ((w.addAutomata options).attempts calls).edit? i e =
            some ((w.addAutomata options).attempts (calls ++ [(i, e)]),
              Record.refusal? (own i calls) e) ∧
          (Record.refusal? (own i calls) e ≠ none →
            (w.addAutomata options).attempts (calls ++ [(i, e)]) =
              (w.addAutomata options).attempts calls)) ∧
    ∀ k : Nat, ((w.addAutomata options).attempts calls).collectors[k]? =
      (w.addAutomata options).collectors[k]?.map fun d =>
        ⟨d.warnings ++ (w.addAutomata options).reports k calls⟩ := by
  refine ⟨fun i hi => automata_addAutomata_of_lt options hi, fun j config collector ho => ?_,
    collectors_addAutomata w options, ?_⟩
  · rw [automata_addAutomata, ho, Option.map_some]
  have h : Inv (w.addAutomata options) ((w.addAutomata options).attempts calls) calls :=
    inv_attempts calls (inv_new (new_addAutomata options hnew))
  refine ⟨fun i member₀ hm₀ => ?_, h.collectors⟩
  have hfixed := h.members i
  rw [hm₀, Option.map_some] at hfixed
  obtain ⟨member, hm, he⟩ := Option.map_eq_some_iff.mp hfixed
  have hcollector : member.collector = member₀.collector := congrArg Prod.fst he
  have hconfig : member.nfa.config = member₀.nfa.config := congrArg Prod.snd he
  have hr := h.reflects hm
  refine ⟨member.nfa, ?_, hconfig, hr.names, fun name s hs => ⟨(hr.inv.named hs).2, hr.finals hs⟩,
    hr.start, fun source s hs => hr.targets hs, hr.alphabet, fun e => ?_⟩
  · rw [hm, ← hcollector]
  · rw [attempts_concat]
    exact h.answer e hm

/-- A workspace with one collector and no automata. -/
def shared : Workspace := empty.addCollector

/-- The options of three automata: two share the collector of `shared`, and for the second of them
`e` is a symbol; the third gets a collector of its own. -/
def sharing : List (Option Config × Option Nat) :=
  [(none, some 0), (some { epsilon := 'x' }, some 0), (none, none)]

/-- Interleaved calls on the three, some of them refused and some with names that are taken. -/
def sharedCalls : List (Nat × Edit) :=
  [(0, .add .start "p"), (1, .add .final "p"), (0, .connect "p" (.text "a") "q"),
    (0, .add .final "q"), (1, .add .start "p"), (0, .connect "p" (.text "e") "q"),
    (2, .add .plain "p"), (1, .connect "p" (.text "e") "p"), (0, .add .final "p"),
    (2, .add .plain "p"), (0, .connect "p" (.text "ab") "q"), (0, .connect "q" (.text "b") "p")]

/-- Each of the three knows what its own calls added, and the shared collector holds the warnings of
two of them in the order of the calls. -/
theorem calls_exact_shared :
    (∀ (i : Nat) (member : Member), shared.automata[i]? = some member →
      member.nfa = NFA.new member.nfa.config) ∧
    (∃ m₀ m₁ m₂ : NFA,
      ((shared.addAutomata sharing).attempts sharedCalls).automata[0]? = some ⟨m₀, 0⟩ ∧
      ((shared.addAutomata sharing).attempts sharedCalls).automata[1]? = some ⟨m₁, 0⟩ ∧
      ((shared.addAutomata sharing).attempts sharedCalls).automata[2]? = some ⟨m₂, 1⟩ ∧
      m₀.states.keys = ["p", "q"] ∧ m₀.alphabet = ['b'] ∧
      m₁.states.keys = ["p"] ∧ m₁.alphabet = ['e'] ∧
      (((shared.addAutomata sharing).attempts sharedCalls).edit? 0
        (.connect "p" (.text "ab") "r")).map Prod.snd = some (some (.unknownState "r"))) ∧
    ((shared.addAutomata sharing).attempts sharedCalls).collectors[0]? =
      some ⟨[⟨"p", false, true⟩, ⟨"p", true, false⟩]⟩ ∧
    ((shared.addAutomata sharing).attempts sharedCalls).collectors[1]? =
      some ⟨[⟨"p", false, false⟩]⟩ := by
  have hnew : ∀ (i : Nat) (member : Member), shared.automata[i]? = some member →
      member.nfa = NFA.new member.nfa.config := fun i member hm => by
    cases hm.symm.trans (Array.getElem?_empty (i := i))
  obtain ⟨-, hmade, hown, hmembers, hcollectors⟩ := calls_exact shared sharing sharedCalls hnew
  obtain ⟨m₀, hm₀, hconfig₀, hnames₀, -, -, -, halphabet₀, hanswer₀⟩ :=
    hmembers 0 _ (hmade 0 none (some 0) rfl)
  obtain ⟨m₁, hm₁, hconfig₁, hnames₁, -, -, -, halphabet₁, -⟩ :=
    hmembers 1 _ (hmade 1 _ (some 0) rfl)
  obtain ⟨m₂, hm₂, -⟩ := hmembers 2 _ (hmade 2 none none rfl)
  rw [hconfig₀] at halphabet₀
  rw [hconfig₁] at halphabet₁
  refine ⟨hnew, ⟨m₀, m₁, m₂, hm₀, hm₁, hm₂, hnames₀.trans ?_, halphabet₀.trans ?_,
    hnames₁.trans ?_, halphabet₁.trans ?_, ?_⟩, (hcollectors 0).trans ?_,
    (hcollectors 1).trans ?_⟩
  · decide +kernel
  · decide +kernel
  · decide +kernel
  · decide +kernel
  · rw [(hanswer₀ _).1]
    rfl
  · rw [hown]
    rfl
  · rw [hown]
    rfl

end Determinize.Workspace
