import Determinize.Proofs.History
import Determinize.Proofs.Words

/-!
# Accepted words and labelled paths

An automaton accepts by stepping through closed sets. The same words are described by single paths:
a path from the start to a final state spells a word if its labels, without those that read nothing,
are the characters of the word in order.

Results:
* `mem_after_iff`: the set behind a word holds the ends of the paths that spell it;
* `accepts_iff_path`: a word is accepted exactly if it is over the alphabet and some path from the
  start to a final state spells it, whatever edges the graph has; for an automaton whose edges all
  come from its own calls every spelled word is over the alphabet.
-/
namespace Determinize

/-- Edges that lead from a state to a state, with their labels in order. -/
inductive Graph.Path (g : Graph) : StateId → List String → StateId → Prop
  | nil (s : StateId) : Path g s [] s
  | cons {s t u : StateId} {a : String} {labels : List String} : t ∈ g.targets s a →
      Path g t labels u → Path g s (a :: labels) u

theorem Graph.Path.append {g : Graph} {s t u : StateId} {l k : List String} (h : g.Path s l t)
    (h' : g.Path t k u) : g.Path s (l ++ k) u := by
  induction h with
  | nil s => exact h'
  | cons ht _ ih => exact .cons ht (ih h')

namespace NFA

/-- The labels that read something are the characters of the word, one label each. -/
def Spells (m : NFA) (labels : List String) (w : List Char) : Prop :=
  labels.filter (fun a => decide (a ≠ m.epsilon)) = w.map String.singleton

instance (m : NFA) (labels : List String) (w : List Char) : Decidable (m.Spells labels w) :=
  inferInstanceAs (Decidable (_ = _))

/-- A set that no empty move leaves. -/
def Closed (m : NFA) (g : Graph) (S : StateSet) : Prop :=
  ∀ s ∈ S, ∀ t ∈ g.targets s m.epsilon, t ∈ S

variable {m : NFA} {g : Graph}

theorem singleton_eq_epsilon {c : Char} : String.singleton c = m.epsilon ↔ c = m.config.epsilon :=
  String.singleton_inj

theorem spells_nil : m.Spells [] [] := rfl

theorem spells_epsilon {labels : List String} {w : List Char} :
    m.Spells (m.epsilon :: labels) w ↔ m.Spells labels w := by
  simp [Spells]

theorem spells_append {l k : List String} {v w : List Char} (h : m.Spells l v)
    (h' : m.Spells k w) : m.Spells (l ++ k) (v ++ w) := by
  unfold Spells at *
  rw [List.filter_append, List.map_append, h, h']

theorem spells_singleton {c : Char} (h : c ≠ m.config.epsilon) :
    m.Spells [String.singleton c] [c] := by
  simp [Spells, singleton_eq_epsilon, h]

/-- A spelled word does not hold the character of the empty moves. -/
theorem epsilon_not_mem_of_spells {labels : List String} {w : List Char}
    (h : m.Spells labels w) : m.config.epsilon ∉ w := by
  intro he
  have hm : m.epsilon ∈ labels.filter (fun a => decide (a ≠ m.epsilon)) := by
    rw [h]
    exact List.mem_map.mpr ⟨_, he, rfl⟩
  simp at hm

/-- Each character of a spelled word is a label. -/
theorem mem_labels_of_spells {labels : List String} {w : List Char} (h : m.Spells labels w)
    {c : Char} (hc : c ∈ w) : String.singleton c ∈ labels := by
  have hm : String.singleton c ∈ labels.filter (fun a => decide (a ≠ m.epsilon)) := by
    rw [h]
    exact List.mem_map.mpr ⟨c, hc, rfl⟩
  exact (List.mem_filter.mp hm).1

/-! ## One symbol -/

theorem mem_closed_self (s : StateId) : s ∈ m.closed g s :=
  Graph.mem_closure.mpr (.seed (StateSet.mem_singleton.mpr rfl))

theorem closed_closure (S : StateSet) : m.Closed g (g.closure m.epsilon S) := by
  intro s hs t ht
  exact Graph.mem_closure.mpr (.edge (Graph.mem_closure.mp hs) ht)

theorem mem_step_of_edge {S : StateSet} {s t : StateId} {c : Char} (hs : s ∈ S)
    (ht : t ∈ g.targets s (String.singleton c)) : t ∈ m.step g S c :=
  Graph.mem_closure.mpr (.seed (Graph.mem_move.mpr ⟨s, hs, ht⟩))

/-- Empty moves from a set make a path that spells nothing. -/
theorem path_of_reached {S : StateSet} {t : StateId} (h : g.Reached m.epsilon S t) :
    ∃ s ∈ S, ∃ labels, g.Path s labels t ∧ m.Spells labels [] := by
  induction h with
  | seed hs => exact ⟨_, hs, [], .nil _, spells_nil⟩
  | @edge t u _ hu ih =>
    obtain ⟨s, hs, labels, hp, hl⟩ := ih
    have he : m.Spells [m.epsilon] [] := spells_epsilon.mpr spells_nil
    exact ⟨s, hs, labels ++ [m.epsilon], hp.append (.cons hu (.nil u)), spells_append hl he⟩

theorem path_of_mem_step {S : StateSet} {t : StateId} {c : Char} (hc : c ≠ m.config.epsilon)
    (h : t ∈ m.step g S c) : ∃ s ∈ S, ∃ labels, g.Path s labels t ∧ m.Spells labels [c] := by
  obtain ⟨u, hu, labels, hp, hl⟩ := path_of_reached (Graph.mem_closure.mp h)
  obtain ⟨s, hs, hsu⟩ := Graph.mem_move.mp hu
  exact ⟨s, hs, String.singleton c :: labels, .cons hsu hp,
    spells_append (spells_singleton hc) hl⟩

/-! ## Whole words -/

theorem path_of_mem_after {S : StateSet} {t : StateId} {w : List Char}
    (hw : m.config.epsilon ∉ w) (h : t ∈ m.after g S w) :
    ∃ s ∈ S, ∃ labels, g.Path s labels t ∧ m.Spells labels w := by
  induction w generalizing S with
  | nil => exact ⟨t, h, [], .nil t, spells_nil⟩
  | cons c w ih =>
    rw [List.mem_cons, not_or] at hw
    obtain ⟨u, hu, k, hk, hkw⟩ := ih hw.2 h
    obtain ⟨s, hs, l, hl, hlc⟩ := path_of_mem_step (Ne.symm hw.1) hu
    exact ⟨s, hs, l ++ k, hl.append hk, spells_append hlc hkw⟩

/-- By induction on the path: an empty move stays in the closed set, any other edge takes the next
character of the word. -/
theorem mem_after_of_path {s t : StateId} {labels : List String} (hp : g.Path s labels t) :
    ∀ {S : StateSet} {w : List Char}, m.Closed g S → s ∈ S → m.Spells labels w →
      t ∈ m.after g S w := by
  induction hp with
  | nil s =>
    intro S w _ hs hl
    cases w with
    | nil => exact hs
    | cons c w => simp [Spells] at hl
  | @cons s u t a labels hu _ ih =>
    intro S w hS hs hl
    by_cases ha : a = m.epsilon
    · subst ha
      exact ih hS (hS s hs u hu) (spells_epsilon.mp hl)
    · simp only [Spells, ha, ne_eq, not_false_eq_true, decide_true, List.filter_cons_of_pos] at hl
      cases w with
      | nil => cases hl
      | cons c w =>
        simp only [List.map_cons, List.cons.injEq] at hl
        obtain ⟨rfl, hl⟩ := hl
        exact ih (S := m.step g S c) (closed_closure _) (mem_step_of_edge hs hu) hl

theorem mem_after_iff {S : StateSet} (hS : m.Closed g S) {t : StateId} {w : List Char}
    (hw : m.config.epsilon ∉ w) :
    t ∈ m.after g S w ↔ ∃ s ∈ S, ∃ labels, g.Path s labels t ∧ m.Spells labels w := by
  refine ⟨path_of_mem_after hw, fun h => ?_⟩
  obtain ⟨s, hs, labels, hp, hl⟩ := h
  exact mem_after_of_path hp hS hs hl

/-- From the closed set of a state: paths may as well begin at the state itself. -/
theorem mem_after_closed_iff {s t : StateId} {w : List Char} (hw : m.config.epsilon ∉ w) :
    t ∈ m.after g (m.closed g s) w ↔ ∃ labels, g.Path s labels t ∧ m.Spells labels w := by
  rw [closed, mem_after_iff (closed_closure {s}) hw]
  refine ⟨fun h => ?_, fun h => ?_⟩
  · obtain ⟨u, hu, k, hk, hkw⟩ := h
    obtain ⟨r, hr, l, hl, hlw⟩ := path_of_reached (Graph.mem_closure.mp hu)
    rw [StateSet.mem_singleton.mp hr] at hl
    exact ⟨l ++ k, hl.append hk, spells_append hlw hkw⟩
  · obtain ⟨labels, hp, hl⟩ := h
    exact ⟨s, mem_closed_self s, labels, hp, hl⟩

/-! ## Acceptance -/

/-- Without direct edges, a path from a state of the automaton has only symbols and empty moves as
labels. -/
theorem Inv.labels (h : Inv false g m) {s t : StateId} {labels : List String}
    (hp : g.Path s labels t) (hs : m.Knows s) :
    ∀ a ∈ labels, ∃ c, a = String.singleton c ∧ (c = m.config.epsilon ∨ c ∈ m.alphabet) := by
  induction hp with
  | nil s => simp
  | cons ht _ ih =>
    obtain ⟨hkt, ha⟩ := h.edges rfl hs ht
    exact List.forall_mem_cons.mpr ⟨ha, ih hkt⟩

theorem Inv.over_of_path (h : Inv false g m) {s t : StateId} {labels : List String}
    {w : List Char} (hs : m.start = some s) (hp : g.Path s labels t) (hl : m.Spells labels w) :
    m.Over w := by
  intro c hc
  obtain ⟨d, hd, hda⟩ := h.labels hp (h.start hs) _ (mem_labels_of_spells hl hc)
  rw [String.singleton_inj] at hd
  subst hd
  rcases hda with rfl | hda
  · exact absurd hc (epsilon_not_mem_of_spells hl)
  · exact hda

theorem accepts_iff_over_path (hε : m.config.epsilon ∉ m.alphabet) (word : String) :
    m.accepts g word = true ↔ ∃ s, m.start = some s ∧ m.Over word.toList ∧
      ∃ t labels, g.Path s labels t ∧ g.isFinal t = true ∧ m.Spells labels word.toList := by
  rw [accepts_iff]
  refine exists_congr fun s => and_congr_right fun _ => and_congr_right fun hw => ?_
  have hne : m.config.epsilon ∉ word.toList := fun he => hε (hw _ he)
  rw [Graph.isAccepting_iff]
  refine ⟨fun h => ?_, fun h => ?_⟩
  · obtain ⟨t, ht, hf⟩ := h
    obtain ⟨labels, hp, hl⟩ := (mem_after_closed_iff hne).mp ht
    exact ⟨t, labels, hp, hf, hl⟩
  · obtain ⟨t, labels, hp, hf, hl⟩ := h
    exact ⟨t, (mem_after_closed_iff hne).mpr ⟨labels, hp, hl⟩, hf⟩

/-- Acceptance by stepping is acceptance by a path. The condition on the characters of the word can
be dropped if all edges come from calls, and no word with the character of the empty moves is
accepted. -/
theorem accepts_iff_path {raw : Bool} (h : History raw g m) (word : String) :
    (m.accepts g word = true ↔ ∃ s, m.start = some s ∧ (∀ c ∈ word.toList, c ∈ m.alphabet) ∧
      ∃ t labels, g.Path s labels t ∧ g.isFinal t = true ∧ m.Spells labels word.toList) ∧
    (raw = false → ∀ s t labels, m.start = some s → g.Path s labels t →
      m.Spells labels word.toList → ∀ c ∈ word.toList, c ∈ m.alphabet) ∧
    (raw = false → (m.accepts g word = true ↔ ∃ s, m.start = some s ∧
      ∃ t labels, g.Path s labels t ∧ g.isFinal t = true ∧ m.Spells labels word.toList)) ∧
    (m.config.epsilon ∈ word.toList → m.accepts g word = false) := by
  have hi := h.inv
  have hacc := accepts_iff_over_path (g := g) hi.epsilon word
  refine ⟨hacc, fun hr s t labels hs hp hl => ?_, fun hr => ?_, fun he => ?_⟩
  · subst hr
    exact hi.over_of_path hs hp hl
  · subst hr
    rw [hacc]
    refine exists_congr fun s => and_congr_right fun hs => ?_
    refine ⟨fun hp => hp.2, fun hp => ?_⟩
    obtain ⟨t, labels, hp, hf, hl⟩ := hp
    exact ⟨hi.over_of_path hs hp hl, t, labels, hp, hf, hl⟩
  · rw [Bool.eq_false_iff]
    intro ha
    obtain ⟨s, -, hw, -⟩ := hacc.mp ha
    exact hi.epsilon (hw _ he)

/-- A start that reads `a`, with an empty move from it to a final state of no automaton. -/
def detour : Graph × NFA :=
  let p := attempts ∅ (NFA.new {}) [.add .start "p", .connect "p" (.text "a") "p"]
  ((p.1.addState "f" true).addEdge 0 "e" 1, p.2)

theorem history_detour : History true detour.1 detour.2 := by
  have h : History true _ _ := (History.new ∅ {}).calls
    [.add .start "p", .connect "p" (.text "a") "p"]
  exact .edge (s := 0) (t := 1) "e" (by decide) (by decide) (fun _ => rfl) (.state "f" true h)

theorem accepts_detour : History true detour.1 detour.2 ∧ detour.2.accepts detour.1 "a" = true ∧
    detour.2.accepts detour.1 "ae" = false := by
  have hover : detour.2.Over "a".toList := by decide
  exact ⟨history_detour,
    (accepts_iff_path history_detour "a").1.mpr ⟨0, by decide, hover, 1, ["a", "e"],
      .cons (t := 0) (by decide) (.cons (t := 1) (by decide) (.nil 1)), by decide, by decide⟩,
    (accepts_iff_path history_detour "ae").2.2.2 (by decide)⟩

end NFA

end Determinize
