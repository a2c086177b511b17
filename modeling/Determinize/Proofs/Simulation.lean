import Determinize.Proofs.Image

/-!
# Following a word in the converted automaton

Two states may have one name, and then two reached sets may have one identifier. As long as the
conversion goes through, the identifiers still follow the sets: a word over the alphabet leads the
converted automaton to the identifier of the set that it leads to, and merged sets can only add
words to the language.

Results:
* `acceptsFrom_iff_follow`: acceptance is following the word to an accepting state;
* `follow_identifier`: a word over the alphabet leads from identifier to identifier;
* `toDFA_simulates`: the converted automaton as a simulation, whatever the names.
-/
namespace Determinize

namespace DFA

/-- The state that a word leads to, if no transition is missing on the way. -/
def follow (d : DFA) (q : String) : List Char → Option String
  | [] => some q
  | c :: w =>
    match d.next? q (String.singleton c) with
    | some r => d.follow r w
    | none => none

theorem acceptsFrom_iff_follow {d : DFA} {q : String} {w : List Char} :
    d.acceptsFrom q w = true ↔ ∃ r, d.follow q w = some r ∧ r ∈ d.accepting := by
  induction w generalizing q with
  | nil => simp [acceptsFrom, follow]
  | cons c w ih =>
    simp only [acceptsFrom, follow]
    cases d.next? q (String.singleton c) with
    | none => simp
    | some r => exact ih

end DFA

namespace NFA

variable {m : NFA} {g : Graph} {s : StateId} {d : DFA}

theorem follow_identifier (hs : m.start = some s) (hd : m.toDFA g = .ok d) {S : StateSet}
    (hS : m.Reached g S) {w : List Char} (hw : m.Over w) :
    d.follow (g.identifier S) w = some (g.identifier (m.after g S w)) := by
  induction w generalizing S with
  | nil => rfl
  | cons c w ih =>
    rw [over_cons] at hw
    simp only [DFA.follow, next?_identifier hs hd hS, if_pos hw.1, after_cons]
    exact ih (hS.step hw.1) hw.2

/-- A word over the alphabet is accepted exactly if the identifier it leads to is that of some
reached accepting set. -/
theorem accepts_toDFA_iff_of_over (hs : m.start = some s) (hd : m.toDFA g = .ok d) {word : String}
    (hw : m.Over word.toList) : d.accepts word = true ↔
      ∃ T, m.Reached g T ∧ g.identifier T = g.identifier (m.after g (m.closed g s) word.toList) ∧
        ∃ t, t ∈ T ∧ g.isFinal t = true := by
  rw [DFA.accepts, init_toDFA hs hd, DFA.acceptsFrom_iff_follow,
    follow_identifier hs hd (.start hs) hw]
  simp only [Option.some.injEq, exists_eq_left', mem_accepting hs hd, Graph.isAccepting_iff,
    and_left_comm, and_comm]

/-- No assumption is made about names, and none about the edges of the graph. In the automaton that
a conversion returns, every word over the alphabet leads from the start to the identifier of the set
behind the word, and is accepted exactly if some reached set with that identifier has a final
member. So all words of the given automaton are accepted, and words with other characters by
neither. -/
theorem toDFA_simulates (hs : m.start = some s) (hd : m.toDFA g = .ok d) :
    (∀ w : List Char, (∀ c ∈ w, c ∈ m.alphabet) → ∃ q, d.init = some q ∧
      d.follow q w = some (g.identifier (m.after g (m.closed g s) w))) ∧
    (∀ word : String, (∀ c ∈ word.toList, c ∈ m.alphabet) → (d.accepts word = true ↔
      ∃ T, m.Reached g T ∧ g.identifier T = g.identifier (m.after g (m.closed g s) word.toList) ∧
        ∃ t, t ∈ T ∧ g.isFinal t = true)) ∧
    (∀ word, m.accepts g word = true → d.accepts word = true) ∧
    (∀ word : String, (∃ c ∈ word.toList, c ∉ m.alphabet) →
      d.accepts word = false ∧ m.accepts g word = false) := by
  refine ⟨fun w hw => ⟨_, init_toDFA hs hd, follow_identifier hs hd (.start hs) hw⟩,
    fun word hw => accepts_toDFA_iff_of_over hs hd hw, fun word ha => ?_, fun word hx => ?_⟩
  · obtain ⟨hw, hacc⟩ := (accepts_iff_after hs).mp ha
    exact (accepts_toDFA_iff_of_over hs hd hw).mpr
      ⟨_, (Reached.start hs).after hw, rfl, Graph.isAccepting_iff.mp hacc⟩
  · obtain ⟨c, hc, hn⟩ := hx
    have hover : ¬ m.Over word.toList := fun hw => hn (hw c hc)
    rw [Bool.eq_false_iff, Bool.eq_false_iff]
    exact ⟨fun ha => hover ((accepts_toDFA_iff hs hd word).mp ha).1,
      fun ha => hover ((accepts_iff_after hs).mp ha).1⟩

/-- A start that leads to two states with one name: on `a` to a final state of the automaton, on `b`
to a state of no automaton that is not final. -/
def homonyms : Graph × NFA :=
  let p := attempts ∅ (NFA.new {}) [.add .start "s", .add .final "t", .connect "s" (.text "a") "t",
    .connect "t" (.text "b") "t"]
  (((p.1.addState "t" false).addEdge 0 "b" 2).addEdge 2 "b" 2, p.2)

theorem history_homonyms : History true homonyms.1 homonyms.2 := by
  have h : History true _ _ := (History.new ∅ {}).calls [.add .start "s", .add .final "t",
    .connect "s" (.text "a") "t", .connect "t" (.text "b") "t"]
  exact .edge (s := 2) (t := 2) "b" (by decide) (by decide) (fun _ => rfl)
    (.edge (s := 0) (t := 2) "b" (by decide) (by decide) (fun _ => rfl) (.state "t" false h))

/-- The sets behind `a` and `b` are merged, so that `b` is accepted for the final state behind
`a`. -/
theorem toDFA_simulates_homonyms : History true homonyms.1 homonyms.2 ∧
    homonyms.2.start = some 0 ∧ ∃ d, homonyms.2.toDFA homonyms.1 = .ok d ∧
      (∃ q, d.init = some q ∧ d.follow q ['b', 'b'] = some "\x7bt\x7d") ∧
      d.accepts "b" = true ∧ homonyms.2.accepts homonyms.1 "b" = false := by
  have hnone : (DFA.builder.feed ∅ (homonyms.2.calls homonyms.1)).2 = none := by decide +kernel
  have hd := (toDFA_eq_ok (s := 0) rfl).mpr (Prod.ext rfl hnone)
  have hover : homonyms.2.Over "b".toList ∧ homonyms.2.Over ['b', 'b'] ∧ homonyms.2.Over ['a'] := by
    decide
  obtain ⟨hfollow, haccepts, -⟩ := toDFA_simulates (s := 0) rfl hd
  have hid : homonyms.1.identifier (homonyms.2.after homonyms.1 (homonyms.2.closed homonyms.1 0)
      ['b', 'b']) = "\x7bt\x7d" := by decide +kernel
  have hmerged : homonyms.1.identifier (homonyms.2.after homonyms.1
      (homonyms.2.closed homonyms.1 0) ['a']) = homonyms.1.identifier (homonyms.2.after homonyms.1
      (homonyms.2.closed homonyms.1 0) "b".toList) := by decide +kernel
  refine ⟨history_homonyms, rfl, _, hd, hid ▸ hfollow ['b', 'b'] hover.2.1, ?_, by decide +kernel⟩
  exact (haccepts "b" hover.1).mpr ⟨_, (Reached.start rfl).after hover.2.2, hmerged, 1,
    by decide +kernel, by decide⟩

end NFA

end Determinize
