import Determinize.Proofs.Image

/-!
# Replaying a conversion

What a conversion emits does not depend on the builder it emits into. A recorder that takes every
call gets a list of calls; into any other builder the same calls go one by one, up to the first that
the builder refuses.

Results:
* `feed_refused_iff`: a refusal stops a feed behind the calls that were taken;
* `Recorder.feed_cut`, `DFA.feed_conflict`: where a recorder and a deterministic automaton stop;
* `determinize_replays`: a conversion into any builder replays the recorded calls.
-/
namespace Determinize

theorem Builder.feed_refused_iff {σ ε : Type} {b : Builder σ ε} {s s' : σ} {l : List Call} {e : ε} :
    b.feed s l = (s', some e) ↔ ∃ before c after t, l = before ++ c :: after ∧
      b.feed s before = (t, none) ∧ b.take t c = (s', some e) := by
  refine ⟨fun h => ?_, fun h => ?_⟩
  · induction l generalizing s with
    | nil => cases h
    | cons c l ih =>
      cases ht : b.take s c with
      | mk t r =>
        simp only [feed, ht] at h
        cases r with
        | some f => exact ⟨[], c, l, s, rfl, rfl, ht.trans h⟩
        | none =>
          obtain ⟨before, c', after, u, rfl, hb, hc⟩ := ih h
          refine ⟨c :: before, c', after, u, rfl, ?_, hc⟩
          simp only [feed, ht, hb]
  · obtain ⟨before, c, after, t, rfl, hb, hc⟩ := h
    rw [feed_append, hb]
    simp only [feed, hc]

/-- A recorder keeps the calls before the first whose number it refuses; that call is counted. -/
theorem Recorder.feed_cut (failing : List Int) (n : Nat) (kept l : List Call) :
    ∃ k, (∀ i < k, Int.ofNat (n + i + 1) ∉ failing) ∧
      ((k = l.length ∧ builder.feed ⟨failing, n, kept⟩ l = (⟨failing, n + k, kept ++ l⟩, none)) ∨
        (k < l.length ∧ Int.ofNat (n + k + 1) ∈ failing ∧ builder.feed ⟨failing, n, kept⟩ l =
          (⟨failing, n + k + 1, kept ++ l.take k⟩, some ⟨n + k + 1⟩))) := by
  induction l generalizing n kept with
  | nil => exact ⟨0, by simp, Or.inl ⟨rfl, by simp [Builder.feed]⟩⟩
  | cons c l ih =>
    by_cases hn : Int.ofNat (n + 1) ∈ failing
    · refine ⟨0, by simp, Or.inr ⟨Nat.succ_pos _, hn, ?_⟩⟩
      simp only [Builder.feed, builder, take, hn, if_true, List.take_zero, List.append_nil,
        Nat.add_zero]
    · -- the rest is fed to a recorder that has counted and kept one more
      have htake : builder.take ⟨failing, n, kept⟩ c = (⟨failing, n + 1, kept ++ [c]⟩, none) := by
        simp only [builder, take, hn, if_false]
      obtain ⟨k, hfree, hk⟩ := ih (n + 1) (kept ++ [c])
      have hshift : ∀ i, n + 1 + i = n + (i + 1) := fun i => by omega
      simp only [hshift, List.append_assoc, List.singleton_append] at hfree hk
      refine ⟨k + 1, fun i hi => ?_, ?_⟩
      · cases i with
        | zero => exact hn
        | succ i => exact hfree i (Nat.lt_of_succ_lt_succ hi)
      · simp only [Builder.feed, htake, List.length_cons, List.take_succ_cons]
        rcases hk with ⟨hlen, hfeed⟩ | ⟨hlt, hstop, hfeed⟩
        · exact Or.inl ⟨by rw [hlen], hfeed⟩
        · exact Or.inr ⟨Nat.succ_lt_succ hlt, hstop, hfeed⟩

/-- A deterministic automaton stops at a transition whose pair has another target, and is left as
the calls before made it. -/
theorem DFA.feed_conflict {d d' : DFA} {l : List Call} {e : Conflict}
    (h : builder.feed d l = (d', some e)) : ∃ before after,
      l = before ++ .transition e.source e.symbol e.offered :: after ∧
        builder.feed d before = (d', none) ∧ d'.next? e.source e.symbol = some e.bound ∧
        e.bound ≠ e.offered := by
  obtain ⟨before, c, after, t, rfl, hb, hc⟩ := Builder.feed_refused_iff.mp h
  obtain ⟨_, ht, -⟩ | ⟨q, a, r, u, rfl, hu, hne, ht⟩ := take_cases t c
  · have hcontra := ht.symm.trans hc
    cases hcontra
  · have hsame := ht.symm.trans hc
    cases hsame
    exact ⟨before, after, rfl, hb, hu, hne⟩

namespace NFA

/-- The calls that a conversion makes to a recorder that takes them all. -/
def recorded (m : NFA) (g : Graph) : List Call :=
  (m.determinize Recorder.builder g (Recorder.new [])).builder.calls

variable {m : NFA} {g : Graph} {s : StateId}

theorem recorded_eq_calls (hs : m.start = some s) : m.recorded g = m.calls g := by
  rw [recorded, (determinize_follows hs Recorder.builder (Recorder.new [])).builder, Recorder.new,
    Recorder.calls_feed]
  rfl

theorem recorded_of_start_none (g : Graph) (hn : m.start = none) : m.recorded g = [] := by
  rw [recorded, determinize_of_start_none Recorder.builder g _ hn]
  rfl

/-- The outcome of a conversion, read off the recorded calls. -/
theorem determinize_recorded (hs : m.start = some s) {σ ε : Type} (b : Builder σ ε) (t : σ) :
    (m.determinize b g t).builder = (b.feed t (m.recorded g)).1 ∧
    (m.determinize b g t).result = match (b.feed t (m.recorded g)).2 with
      | none => .ok (m.mapping g)
      | some e => .error (.refused e) := by
  have hf := determinize_follows (g := g) hs b t
  rw [recorded_eq_calls hs, ← subsets_eq_mapping]
  exact ⟨hf.builder, hf.result⟩

/-- Either every recorded call is taken and the mapping is returned, or the calls before the first
refused one are taken and its refusal is the result. -/
theorem determinize_cut (hs : m.start = some s) {σ ε : Type} (b : Builder σ ε) (t : σ) :
    (b.feed t (m.recorded g) = ((m.determinize b g t).builder, none) ∧
      (m.determinize b g t).result = .ok (m.mapping g)) ∨
    ∃ e before c after t', m.recorded g = before ++ c :: after ∧ b.feed t before = (t', none) ∧
      b.take t' c = ((m.determinize b g t).builder, some e) ∧
      (m.determinize b g t).result = .error (.refused e) := by
  obtain ⟨hb, hr⟩ := determinize_recorded (g := g) hs b t
  rw [hb, hr]
  cases hf : b.feed t (m.recorded g) with
  | mk t'' r =>
    cases r with
    | none => exact Or.inl ⟨rfl, rfl⟩
    | some e =>
      obtain ⟨before, c, after, t', hl, hbefore, hc⟩ := Builder.feed_refused_iff.mp hf
      exact Or.inr ⟨e, before, c, after, t', hl, hbefore, hc, rfl⟩

theorem determinize_recorder (hs : m.start = some s) (failing : List Int) (n : Nat)
    (kept : List Call) : ∃ k, (∀ i < k, Int.ofNat (n + i + 1) ∉ failing) ∧
      ((k = (m.recorded g).length ∧ (m.determinize Recorder.builder g ⟨failing, n, kept⟩).builder =
          ⟨failing, n + k, kept ++ m.recorded g⟩ ∧
        (m.determinize Recorder.builder g ⟨failing, n, kept⟩).result = .ok (m.mapping g)) ∨
      (k < (m.recorded g).length ∧ Int.ofNat (n + k + 1) ∈ failing ∧
        (m.determinize Recorder.builder g ⟨failing, n, kept⟩).builder =
          ⟨failing, n + k + 1, kept ++ (m.recorded g).take k⟩ ∧
        (m.determinize Recorder.builder g ⟨failing, n, kept⟩).result =
          .error (.refused ⟨n + k + 1⟩))) := by
  obtain ⟨hb, hr⟩ := determinize_recorded (g := g) hs Recorder.builder ⟨failing, n, kept⟩
  obtain ⟨k, hfree, hk⟩ := Recorder.feed_cut failing n kept (m.recorded g)
  rw [hb, hr]
  rcases hk with ⟨hlen, hfeed⟩ | ⟨hlt, hstop, hfeed⟩
  · exact ⟨k, hfree, Or.inl ⟨hlen, by rw [hfeed], by rw [hfeed]⟩⟩
  · exact ⟨k, hfree, Or.inr ⟨hlt, hstop, by rw [hfeed], by rw [hfeed]⟩⟩

theorem toDFA_recorded (hs : m.start = some s) :
    m.toDFA g = match DFA.builder.feed ∅ (m.recorded g) with
      | (d, none) => .ok d
      | (_, some e) => .error (.refused e) := by
  rw [recorded_eq_calls hs]
  cases hf : DFA.builder.feed ∅ (m.calls g) with
  | mk d r =>
    cases r with
    | none => exact (toDFA_eq_ok hs).mpr hf
    | some e => exact (toDFA_eq_error hs).mpr ⟨e, rfl, by rw [hf]⟩

/-- A conversion of an automaton with a start, into any builder, feeds the builder the calls that a
recorder gets which takes them all, up to the first that is refused: the calls before it were taken,
its refusal is the result, and there is no mapping; if none is refused, the mapping is that of the
recorder. A recorder with a list of refused numbers, whatever its count, keeps the calls before the
first such number. A deterministic automaton, whatever it holds, stops at the first transition whose
pair has another target and is left as it was then; so does the plain form, which starts from the
automaton without states. Without a start the builder is left as it was. -/
theorem determinize_replays (m : NFA) (g : Graph) :
    (∀ s, m.start = some s → ∃ found,
      (m.determinize Recorder.builder g (Recorder.new [])).result = .ok found ∧
      (∀ {σ ε : Type} (b : Builder σ ε) (t : σ),
        (b.feed t (m.recorded g) = ((m.determinize b g t).builder, none) ∧
          (m.determinize b g t).result = .ok found) ∨
        ∃ e before c after t', m.recorded g = before ++ c :: after ∧
          b.feed t before = (t', none) ∧ b.take t' c = ((m.determinize b g t).builder, some e) ∧
          (m.determinize b g t).result = .error (.refused e)) ∧
      (∀ (failing : List Int) (n : Nat) (kept : List Call), ∃ k,
        (∀ i < k, Int.ofNat (n + i + 1) ∉ failing) ∧
        ((k = (m.recorded g).length ∧
          (m.determinize Recorder.builder g ⟨failing, n, kept⟩).builder =
            ⟨failing, n + k, kept ++ m.recorded g⟩ ∧
          (m.determinize Recorder.builder g ⟨failing, n, kept⟩).result = .ok found) ∨
        (k < (m.recorded g).length ∧ Int.ofNat (n + k + 1) ∈ failing ∧
          (m.determinize Recorder.builder g ⟨failing, n, kept⟩).builder =
            ⟨failing, n + k + 1, kept ++ (m.recorded g).take k⟩ ∧
          (m.determinize Recorder.builder g ⟨failing, n, kept⟩).result =
            .error (.refused ⟨n + k + 1⟩)))) ∧
      (∀ (d : DFA) (e : Conflict),
        (m.determinize DFA.builder g d).result = .error (.refused e) → ∃ before after,
          m.recorded g = before ++ .transition e.source e.symbol e.offered :: after ∧
          DFA.builder.feed d before = ((m.determinize DFA.builder g d).builder, none) ∧
          (m.determinize DFA.builder g d).builder.next? e.source e.symbol = some e.bound ∧
          e.bound ≠ e.offered) ∧
      m.toDFA g = match DFA.builder.feed ∅ (m.recorded g) with
        | (d, none) => .ok d
        | (_, some e) => .error (.refused e)) ∧
    (m.start = none → (∀ {σ ε : Type} (b : Builder σ ε) (t : σ),
      m.determinize b g t = ⟨∅, t, .error .missingStart⟩) ∧ m.toDFA g = .error .missingStart) := by
  refine ⟨fun s hs => ⟨m.mapping g, ?_, fun b t => determinize_cut hs b t,
    determinize_recorder hs, fun d e he => ?_, toDFA_recorded hs⟩, fun hn => ⟨fun b t => ?_, ?_⟩⟩
  · rw [(determinize_recorded hs Recorder.builder (Recorder.new [])).2, Recorder.new,
      Recorder.calls_feed]
  · obtain ⟨hb, hr⟩ := determinize_recorded (g := g) hs DFA.builder d
    rw [hr] at he
    rw [hb]
    cases hf : DFA.builder.feed d (m.recorded g) with
    | mk d' r =>
      rw [hf] at he
      cases r with
      | none => cases he
      | some e' =>
        cases he
        exact DFA.feed_conflict hf
  · exact determinize_of_start_none b g t hn
  · exact toDFA_of_start_none g hn

/-- A recorder that has counted two calls and refuses its sixth keeps three of six. -/
theorem determinize_replays_chain : chain.2.start = some 0 ∧
    (chain.2.recorded chain.1).length = 6 ∧
    (chain.2.determinize Recorder.builder chain.1 ⟨[6, 1], 2, []⟩).builder =
      ⟨[6, 1], 6, (chain.2.recorded chain.1).take 3⟩ ∧
    (chain.2.determinize Recorder.builder chain.1 ⟨[6, 1], 2, []⟩).result =
      .error (.refused ⟨6⟩) := by
  have hlen : (chain.2.recorded chain.1).length = 6 := by decide +kernel
  obtain ⟨found, -, -, hrecorder, -⟩ := (determinize_replays chain.2 chain.1).1 0 rfl
  obtain ⟨k, hfree, hk⟩ := hrecorder [6, 1] 2 []
  rcases hk with ⟨rfl, -, -⟩ | ⟨-, hstop, hbuilder, hresult⟩
  · exact absurd (hfree 3 (by rw [hlen]; decide)) (by decide)
  · have hk : k = 3 := by
      simp only [List.mem_cons, List.not_mem_nil, or_false, Int.ofNat_eq_natCast] at hstop
      omega
    subst hk
    exact ⟨rfl, hlen, hbuilder, hresult⟩

end NFA

end Determinize
