import Determinize.Proofs.Emission

/-!
# Running a construction again

A construction keeps its registry and its queue between runs, also behind a run that a builder cut
short. The log of a run says what was told to the builder and taken, what it refused, and which
subset was being expanded then; that subset has left the queue and does not come back to it.

Results:
* `tell_cases`: everything that telling a builder a list of emissions can leave;
* `drain_accounts`, `run_accounts`: what one run does to the registry and the queue, and that the
  log is what the builder heard;
* `runs_registry`: registry and queue behind any number of runs with refusals anywhere.
-/
namespace Determinize

/-- What a run told its builder: the emissions taken, the one refused, and the subset whose
expansion the refusal interrupted. -/
structure Log where
  taken : List Emission
  refused : Option Emission
  interrupted : Option StateSet

namespace Log

/-- The log with emissions that were taken before. -/
def after (l : Log) (before : List Emission) : Log := { l with taken := before ++ l.taken }

/-- The subsets of which a declaration was taken. -/
def declared (l : Log) : List StateSet := l.taken.flatMap Emission.declared

/-- The subset of which a declaration was refused. -/
def undeclared (l : Log) : List StateSet := l.refused.toList.flatMap Emission.declared

/-- The transitions of a subset were taken on all symbols. -/
def Expands (l : Log) (m : NFA) (g : Graph) (S : StateSet) : Prop :=
  ∀ a ∈ m.alphabet, .link S a (m.step g S a) ∈ l.taken

theorem mem_declared_after {l : Log} {before : List Emission} {S : StateSet} :
    S ∈ (l.after before).declared ↔ S ∈ before.flatMap Emission.declared ∨ S ∈ l.declared := by
  rw [after, declared, List.flatMap_append, List.mem_append]
  rfl

theorem Expands.after {l : Log} {m : NFA} {g : Graph} {S : StateSet} (h : l.Expands m g S)
    (before : List Emission) : (l.after before).Expands m g S :=
  fun a ha => List.mem_append_right _ (h a ha)

end Log

variable {σ ε : Type}

/-- Tells emissions one after the other, up to the first with a call that the builder refuses. -/
def Builder.tell (b : Builder σ ε) (g : Graph) (s : σ) : List Emission → Log
  | [] => ⟨[], none, none⟩
  | e :: rest =>
    match b.feed s (e.calls g) with
    | (s', none) => (b.tell g s' rest).after [e]
    | (_, some _) => ⟨[], some e, none⟩

theorem Builder.tell_cases (b : Builder σ ε) (g : Graph) (s : σ) (es : List Emission) :
    (∃ s', b.tell g s es = ⟨es, none, none⟩ ∧
      b.feed s (es.flatMap (Emission.calls g)) = (s', none)) ∨
    ∃ before e rest t s' f, es = before ++ e :: rest ∧ b.tell g s es = ⟨before, some e, none⟩ ∧
      b.feed s (before.flatMap (Emission.calls g)) = (t, none) ∧
      b.feed t (e.calls g) = (s', some f) ∧
      b.feed s (es.flatMap (Emission.calls g)) = (s', some f) := by
  induction es generalizing s with
  | nil => exact Or.inl ⟨s, rfl, rfl⟩
  | cons e es ih =>
    rw [List.flatMap_cons, tell, feed_append]
    cases hf : b.feed s (e.calls g) with
    | mk s₁ r =>
      cases r with
      | some f => exact Or.inr ⟨[], e, es, s, s₁, f, rfl, rfl, rfl, hf, rfl⟩
      | none =>
        simp only
        rcases ih s₁ with
          ⟨s', htell, hfeed⟩ | ⟨before, e', rest, t, s', f, rfl, htell, hb, he, hfeed⟩
        · exact Or.inl ⟨s', by rw [htell]; rfl, hfeed⟩
        · refine Or.inr ⟨e :: before, e', rest, t, s', f, rfl, by rw [htell]; rfl, ?_, he, hfeed⟩
          rw [List.flatMap_cons, feed_append, hf]
          exact hb

theorem Builder.tell_append (b : Builder σ ε) (g : Graph) (s : σ) (l k : List Emission) :
    b.tell g s (l ++ k) = match b.feed s (l.flatMap (Emission.calls g)) with
      | (s', none) => (b.tell g s' k).after l
      | (_, some _) => b.tell g s l := by
  induction l generalizing s with
  | nil => rfl
  | cons e l ih =>
    rw [List.cons_append, tell, tell, List.flatMap_cons, feed_append]
    cases b.feed s (e.calls g) with
    | mk s₁ r =>
      cases r with
      | some f => rfl
      | none =>
        simp only [ih]
        cases b.feed s₁ (l.flatMap (Emission.calls g)) with
        | mk s₂ r => cases r <;> rfl

namespace Construction

/-- The log of expanding queued sets. -/
def drainLog (b : Builder σ ε) (m : NFA) (g : Graph) : Construction → σ → Log
  | ⟨_, []⟩, _ => ⟨[], none, none⟩
  | ⟨registry, S :: queue⟩, s =>
    let told := b.tell g s (m.script g registry.keys (m.pairs [S]))
    let p := expand b m g S (g.identifier S) m.alphabet ⟨registry, queue⟩ s
    match p.fault with
    | some _ => { told with interrupted := some S }
    | none => (drainLog b m g p.construction p.builder).after told.taken
termination_by c => c.pending g
decreasing_by
  refine Nat.lt_of_le_of_lt
    (expand_pending b m g S (g.identifier S) m.alphabet ⟨registry, queue⟩ s) ?_
  exact Nat.lt_succ_self _

/-- The log of a run. -/
def log (b : Builder σ ε) (m : NFA) (g : Graph) (c : Construction) (s : σ) : Log :=
  match m.start with
  | none => ⟨[], none, none⟩
  | some q =>
    let S := m.closed g q
    match b.feed s ((Emission.opening S).calls g) with
    | (s', none) => (drainLog b m g (c.register g S) s').after [.opening S]
    | (_, some _) => ⟨[], some (.opening S), none⟩

variable {m : NFA} {g : Graph} {c : Construction}

/-! ## What an expansion leaves -/

theorem registerAll_append (c : Construction) (l k : List StateSet) :
    (c.registerAll g l).registerAll g k = c.registerAll g (l ++ k) := by
  simp [registerAll, bindAll]

theorem visit_eq_script (h : c.Inv g) (S : StateSet) (a : Char) :
    c.visit g (g.identifier S) a (m.step g S a) =
      (c.registerAll g (m.fresh g c.registry.keys [(S, a)]),
        (m.script g c.registry.keys [(S, a)]).flatMap (Emission.calls g)) := by
  obtain ⟨-, hcalls, hnews⟩ := visit_script (m := m) h S a []
  rw [hcalls, hnews]
  simp [NFA.script, NFA.fresh, registerAll, bindAll]

/-- The target of a pair is declared before the transition is told, so it was declared or its
declaration was refused, if it is new. -/
theorem tell_pair (b : Builder σ ε) (s : σ) (seen : List StateSet) (S : StateSet) (a : Char) :
    (b.tell g s (m.script g seen [(S, a)])).declared ++
      (b.tell g s (m.script g seen [(S, a)])).undeclared = m.fresh g seen [(S, a)] := by
  by_cases hT : m.step g S a ∈ seen
  · simp only [NFA.script, NFA.fresh, hT, if_true, Builder.tell]
    cases b.feed s ((Emission.link S a (m.step g S a)).calls g) with
    | mk s₁ r => cases r <;> rfl
  · simp only [NFA.script, NFA.fresh, hT, if_false, Builder.tell]
    cases b.feed s ((Emission.declare (m.step g S a)).calls g) with
    | mk s₁ r =>
      cases r with
      | some f => rfl
      | none =>
        simp only
        cases b.feed s₁ ((Emission.link S a (m.step g S a)).calls g) with
        | mk s₂ r => cases r <;> rfl

/-- Whatever was declared, or was to be, is registered and queued. -/
theorem expand_registers (b : Builder σ ε) (h : c.Inv g) (S : StateSet) (symbols : List Char)
    (s : σ) {told : Log}
    (ht : b.tell g s (m.script g c.registry.keys (symbols.map fun a => (S, a))) = told) :
    (expand b m g S (g.identifier S) symbols c s).construction =
      c.registerAll g (told.declared ++ told.undeclared) := by
  induction symbols generalizing c s told with
  | nil =>
    subst ht
    simp [expand, NFA.script, Builder.tell, Log.declared, Log.undeclared, registerAll, bindAll]
  | cons a rest ih =>
    rw [List.map_cons, ← List.singleton_append, NFA.script_append, Builder.tell_append] at ht
    rw [expand, visit_eq_script h]
    simp only
    cases hf : b.feed s ((m.script g c.registry.keys [(S, a)]).flatMap (Emission.calls g)) with
    | mk s' r =>
      rw [hf] at ht
      cases r with
      | some f =>
        subst ht
        rw [tell_pair]
      | none =>
        subst ht
        have hrest := ih (inv_registerAll h (m.fresh g c.registry.keys [(S, a)])) s' rfl
        rw [keys_registerAll_fresh] at hrest
        simp only
        rw [hrest, registerAll_append, ← List.append_assoc]
        congr 2
        simp only [Log.declared, Log.after, List.flatMap_append, NFA.declared_script]

theorem mem_registerAll {news : List StateSet} {T : StateSet} :
    T ∈ (c.registerAll g news).registry ↔ T ∈ c.registry ∨ T ∈ news := by
  induction news generalizing c with
  | nil => simp [registerAll, bindAll]
  | cons S news ih => rw [registerAll_cons, ih, mem_register, List.mem_cons, or_assoc, or_left_comm]

/-! ## What the log accounts for -/

/-- The log `l` accounts for all that happened between `c` and `c'`: a subset is new because it was
declared or its declaration was refused; a subset that waited or is new still waits, was expanded,
or was interrupted; and transitions lead to registered subsets. -/
structure Accounts (m : NFA) (g : Graph) (c : Construction) (l : Log) (c' : Construction) :
    Prop where
  inv : c'.Inv g
  registered : ∀ S, S ∈ c'.registry ↔ S ∈ c.registry ∨ S ∈ l.declared ∨ S ∈ l.undeclared
  waiting : ∀ S ∈ c'.registry, S ∉ c.registry ∨ S ∈ c.queue →
    S ∈ c'.queue ∨ l.Expands m g S ∨ l.interrupted = some S
  links : ∀ S a T, .link S a T ∈ l.taken → T ∈ c'.registry
  reached : (∀ S ∈ c.registry, m.Reached g S) → ∀ S ∈ c'.registry, m.Reached g S
  interrupted : ∀ S, l.interrupted = some S → ∃ a ∈ m.alphabet,
    l.refused = some (.declare (m.step g S a)) ∨ l.refused = some (.link S a (m.step g S a))

theorem accounts_done (hc : c.Inv g) (hq : c.queue = []) :
    Accounts m g c ⟨[], none, none⟩ c where
  inv := hc
  registered S := by simp [Log.declared, Log.undeclared]
  waiting S hS h := by
    rcases h with h | h
    · exact absurd hS h
    · rw [hq] at h
      exact absurd h List.not_mem_nil
  links S a T h := absurd h List.not_mem_nil
  reached h := h
  interrupted S h := by cases h

/-- One part of a run without refusals, and then another. -/
theorem Accounts.trans {c' c'' : Construction} {es : List Emission} {l : Log}
    (h : Accounts m g c ⟨es, none, none⟩ c') (h' : Accounts m g c' l c'') :
    Accounts m g c (l.after es) c'' where
  inv := h'.inv
  registered S := by
    rw [h'.registered, h.registered, Log.mem_declared_after]
    simp only [Log.declared, Log.undeclared, Log.after, Option.toList_none, List.flatMap_nil,
      List.not_mem_nil, or_false, or_assoc]
  waiting S hS hw := by
    have hlater : (S ∉ c'.registry ∨ S ∈ c'.queue) →
        S ∈ c''.queue ∨ (l.after es).Expands m g S ∨ l.interrupted = some S := fun hw' =>
      (h'.waiting S hS hw').imp_right (Or.imp_left fun he => he.after es)
    by_cases hS' : S ∈ c'.registry
    · rcases h.waiting S hS' hw with hq | he | hi
      · exact hlater (Or.inr hq)
      · exact Or.inr (Or.inl fun a ha => List.mem_append_left _ (he a ha))
      · cases hi
    · exact hlater (Or.inl hS')
  links S a T hl := by
    rcases List.mem_append.mp hl with hl | hl
    · exact (h'.registered T).mpr (Or.inl (h.links S a T hl))
    · exact h'.links S a T hl
  reached hr := h'.reached (h.reached hr)
  interrupted := h'.interrupted

/-- Meeting the first subset, whether or not the builder takes it. -/
theorem accounts_opening (hc : c.Inv g) {q : StateId} (hs : m.start = some q) {l : Log}
    (hl : l = ⟨[.opening (m.closed g q)], none, none⟩ ∨
      l = ⟨[], some (.opening (m.closed g q)), none⟩) :
    Accounts m g c l (c.register g (m.closed g q)) where
  inv := inv_register hc _
  registered S := by
    rw [mem_register, or_comm]
    rcases hl with rfl | rfl <;> simp [Log.declared, Log.undeclared, Emission.declared]
  waiting S hS hw := by
    left
    rw [mem_register] at hS
    rcases hw with hw | hw
    · exact List.mem_append_right _ (List.mem_singleton.mpr (hS.resolve_right hw))
    · exact List.mem_append_left _ hw
  links S a T h := by rcases hl with rfl | rfl <;> simp at h
  reached hr S hS := by
    rcases mem_register.mp hS with rfl | hS
    · exact .start hs
    · exact hr S hS
  interrupted S h := by rcases hl with rfl | rfl <;> cases h

theorem mem_script {seen : List StateSet} {l : List (StateSet × Char)} {e : Emission}
    (h : e ∈ m.script g seen l) : ∃ S a, (S, a) ∈ l ∧
      (e = .declare (m.step g S a) ∨ e = .link S a (m.step g S a)) := by
  induction l generalizing seen with
  | nil => cases h
  | cons p l ih =>
    obtain ⟨S, a⟩ := p
    have hrest : ∀ {seen}, e ∈ m.script g seen l → ∃ R b, (R, b) ∈ (S, a) :: l ∧
        (e = .declare (m.step g R b) ∨ e = .link R b (m.step g R b)) := by
      intro seen h
      obtain ⟨R, b, hm, he⟩ := ih h
      exact ⟨R, b, List.mem_cons_of_mem _ hm, he⟩
    simp only [NFA.script] at h
    split at h
    · rcases List.mem_cons.mp h with rfl | h
      · exact ⟨S, a, List.mem_cons_self, Or.inr rfl⟩
      · exact hrest h
    · rcases List.mem_cons.mp h with rfl | h
      · exact ⟨S, a, List.mem_cons_self, Or.inl rfl⟩
      · rcases List.mem_cons.mp h with rfl | h
        · exact ⟨S, a, List.mem_cons_self, Or.inr rfl⟩
        · exact hrest h

/-- What was told, and the emission refused, come first. -/
theorem tell_split (b : Builder σ ε) (g : Graph) (s : σ) (es : List Emission) :
    ∃ rest, es = (b.tell g s es).taken ++ ((b.tell g s es).refused.toList ++ rest) := by
  rcases b.tell_cases g s es with ⟨s', ht, -⟩ | ⟨before, e, rest, t, s', f, hes, ht, -⟩
  · exact ⟨[], by rw [ht]; simp⟩
  · exact ⟨rest, by rw [ht]; exact hes⟩

section Told

variable {b : Builder σ ε} {s : σ} {seen : List StateSet} {S : StateSet} {told : Log}

theorem told_form (ht : b.tell g s (m.script g seen (m.pairs [S])) = told) {e : Emission}
    (he : e ∈ told.taken ∨ told.refused = some e) :
    ∃ a ∈ m.alphabet, e = .declare (m.step g S a) ∨ e = .link S a (m.step g S a) := by
  obtain ⟨rest, hsplit⟩ := tell_split b g s (m.script g seen (m.pairs [S]))
  rw [ht] at hsplit
  have hscript : e ∈ m.script g seen (m.pairs [S]) := by
    rw [hsplit, List.mem_append, List.mem_append, Option.mem_toList]
    exact he.imp_right Or.inl
  obtain ⟨R, a, hm, hform⟩ := mem_script hscript
  rw [NFA.mem_pairs, List.mem_singleton] at hm
  obtain ⟨rfl, ha⟩ := hm
  exact ⟨a, ha, hform⟩

/-- The subsets met are targets. -/
theorem told_met (ht : b.tell g s (m.script g seen (m.pairs [S])) = told) {T : StateSet}
    (hT : T ∈ told.declared ∨ T ∈ told.undeclared) : ∃ a ∈ m.alphabet, T = m.step g S a := by
  have he : ∃ e, (e ∈ told.taken ∨ told.refused = some e) ∧ T ∈ e.declared := by
    rcases hT with hT | hT
    · obtain ⟨e, he, hTe⟩ := List.mem_flatMap.mp hT
      exact ⟨e, Or.inl he, hTe⟩
    · obtain ⟨e, he, hTe⟩ := List.mem_flatMap.mp hT
      exact ⟨e, Or.inr (Option.mem_toList.mp he), hTe⟩
  obtain ⟨e, he, hTe⟩ := he
  obtain ⟨a, ha, rfl | rfl⟩ := told_form ht he
  · exact ⟨a, ha, List.mem_singleton.mp hTe⟩
  · exact absurd hTe List.not_mem_nil

/-- A transition is told after its target was declared. -/
theorem told_link (ht : b.tell g s (m.script g seen (m.pairs [S])) = told) (hS : S ∈ seen)
    {R T : StateSet} {a : Char} (hl : .link R a T ∈ told.taken) : T ∈ seen ∨ T ∈ told.declared := by
  obtain ⟨rest, hsplit⟩ := tell_split b g s (m.script g seen (m.pairs [S]))
  obtain ⟨before, after, hbefore⟩ := List.append_of_mem hl
  have hannounced : Emission.Announced seen (m.script g seen (m.pairs [S])) :=
    NFA.announced_script fun R a hm => by
      rw [NFA.mem_pairs, List.mem_singleton] at hm
      exact hm.1 ▸ hS
  rw [hsplit, ht, hbefore, List.append_assoc, List.cons_append] at hannounced
  rcases List.mem_append.mp hannounced.link.2 with hT | hT
  · exact Or.inl hT
  · rw [Log.declared, hbefore, List.flatMap_append]
    exact Or.inr (List.mem_append_left _ hT)

/-- Expanding one subset: its own expansion is complete or interrupted. -/
theorem accounts_expand {registry : OrderedMap StateSet String} {queue : List StateSet}
    (hc : Inv g ⟨registry, S :: queue⟩)
    (ht : b.tell g s (m.script g registry.keys (m.pairs [S])) = told) {i : Option StateSet}
    (hi : told.Expands m g S ∧ i = none ∨ told.refused.isSome ∧ i = some S) :
    Accounts m g ⟨registry, S :: queue⟩ { told with interrupted := i }
      (expand b m g S (g.identifier S) m.alphabet ⟨registry, queue⟩ s).construction := by
  have hS := hc.queued S List.mem_cons_self
  rw [NFA.pairs_singleton] at ht
  rw [expand_registers b hc.pop S m.alphabet s ht]
  rw [← NFA.pairs_singleton] at ht
  refine ⟨inv_registerAll hc.pop _, fun T => ?_, fun T hT hw => ?_, fun R a T hl => ?_,
    fun hreached T hT => ?_, fun R hR => ?_⟩
  · rw [mem_registerAll, List.mem_append]
    rfl
  · rw [mem_registerAll] at hT
    rcases hw with hw | hw
    · exact Or.inl (List.mem_append_right _ (hT.resolve_left hw))
    · rcases List.mem_cons.mp hw with rfl | hw
      · exact Or.inr (hi.imp And.left And.right)
      · exact Or.inl (List.mem_append_left _ hw)
  · rw [mem_registerAll, List.mem_append]
    exact (told_link ht hS hl).imp_right Or.inl
  · rw [mem_registerAll, List.mem_append] at hT
    rcases hT with hT | hT
    · exact hreached T hT
    · obtain ⟨a, ha, rfl⟩ := told_met ht hT
      exact (hreached S hS).step ha
  · rcases hi with ⟨-, rfl⟩ | ⟨hsome, rfl⟩
    · cases hR
    · obtain ⟨e, he⟩ := Option.isSome_iff_exists.mp hsome
      obtain ⟨a, ha, hform⟩ := told_form ht (Or.inr he)
      cases hR
      exact ⟨a, ha, by simpa only [he, Option.some.injEq] using hform⟩

end Told

/-! ## What a run leaves -/

/-- The log is what the builder heard between the states `s` and `p.builder`. -/
def Heard (b : Builder σ ε) (g : Graph) (s : σ) (l : Log) (p : Progress σ ε) : Prop :=
  (l.refused = none ∧ p.fault = none ∧ l.interrupted = none ∧ p.construction.queue = [] ∧
    b.feed s (l.taken.flatMap (Emission.calls g)) = (p.builder, none)) ∨
  ∃ e t f, l.refused = some e ∧ p.fault = some (.refused f) ∧
    b.feed s (l.taken.flatMap (Emission.calls g)) = (t, none) ∧
    b.feed t (e.calls g) = (p.builder, some f)

/-- What a builder took before comes first. -/
theorem Heard.after {b : Builder σ ε} {s s' : σ} {l : Log} {p : Progress σ ε} {es : List Emission}
    (h : Heard b g s' l p) (hes : b.feed s (es.flatMap (Emission.calls g)) = (s', none)) :
    Heard b g s (l.after es) p := by
  have hfeed : b.feed s ((l.after es).taken.flatMap (Emission.calls g)) =
      b.feed s' (l.taken.flatMap (Emission.calls g)) := by
    rw [Log.after, List.flatMap_append, Builder.feed_append, hes]
  unfold Heard
  rw [hfeed]
  exact h

theorem drain_accounts (b : Builder σ ε) {seen queue news : List StateSet}
    (h : m.Explores g seen queue news) {c : Construction} (hc : c.Inv g)
    (hk : c.registry.keys = seen) (hq : c.queue = queue) (s : σ) :
    Accounts m g c (drainLog b m g c s) (drain b m g c s).construction ∧
      Heard b g s (drainLog b m g c s) (drain b m g c s) := by
  induction h generalizing c s with
  | done seen =>
    obtain ⟨registry, queue⟩ := c
    subst hq
    rw [drain, drainLog]
    exact ⟨accounts_done hc rfl, Or.inl ⟨rfl, rfl, rfl, rfl, rfl⟩⟩
  | @next seen queue later S _ ih =>
    obtain ⟨registry, _⟩ := c
    subst hk hq
    have hS : registry.get? S = some (g.identifier S) := hc.get? (hc.queued S List.mem_cons_self)
    have he := expand_follows (m := m) b hc.pop S m.alphabet s
    rw [← NFA.pairs_singleton] at he
    rw [drain, hS, drainLog]
    simp only
    rcases b.tell_cases g s (m.script g registry.keys (m.pairs [S])) with
      ⟨s', htell, hfeed⟩ | ⟨before, e, rest, t, s', f, hsplit, htell, hbefore, hcalls, hfeed⟩
    · have hall : (⟨m.script g registry.keys (m.pairs [S]), none, none⟩ : Log).Expands m g S := by
        intro a ha
        exact NFA.mem_script_link.mpr ⟨NFA.mem_pairs.mpr ⟨List.mem_singleton.mpr rfl, ha⟩, rfl⟩
      have hacc := accounts_expand hc htell (Or.inl ⟨hall, rfl⟩)
      rw [hfeed] at he
      rw [htell, he.fault, he.builder]
      rw [he.construction rfl] at hacc ⊢
      obtain ⟨hrest, hheard⟩ := ih (inv_registerAll hc.pop (m.fresh g registry.keys (m.pairs [S])))
        (keys_registerAll_fresh (c := ⟨registry, queue⟩) (m.pairs [S])) rfl s'
      exact ⟨hacc.trans hrest, hheard.after hfeed⟩
    · -- the loop stops here, so `S` is out of the queue for good and the log has to name it
      have hacc := accounts_expand hc htell (Or.inr ⟨rfl, rfl⟩)
      rw [hfeed] at he
      rw [htell, he.fault]
      exact ⟨hacc, Or.inr ⟨e, t, f, rfl, he.fault, hbefore, he.builder ▸ hcalls⟩⟩

/-- The log is what the builder heard in a run that left `o`; a run that goes through leaves nothing
waiting. -/
def Described (b : Builder σ ε) (g : Graph) (s : σ) (l : Log) (o : Outcome σ ε) : Prop :=
  (l.refused = none ∧ o.result = .ok o.construction.subsets ∧ l.interrupted = none ∧
    o.construction.queue = [] ∧
    b.feed s (l.taken.flatMap (Emission.calls g)) = (o.builder, none)) ∨
  ∃ e t f, l.refused = some e ∧ o.result = .error (.refused f) ∧
    b.feed s (l.taken.flatMap (Emission.calls g)) = (t, none) ∧
    b.feed t (e.calls g) = (o.builder, some f)

/-- One run from whatever earlier runs left. The first subset takes part in it, also if it was
registered before. -/
theorem run_accounts (b : Builder σ ε) (hc : c.Inv g) {q : StateId} (hs : m.start = some q)
    (s : σ) : Accounts m g c (c.log b m g s) (c.run b m g s).construction ∧
      Described b g s (c.log b m g s) (c.run b m g s) ∧
      m.closed g q ∈ (c.run b m g s).construction.registry ∧
      (m.closed g q ∈ (c.run b m g s).construction.queue ∨
        (c.log b m g s).Expands m g (m.closed g q) ∨
        (c.log b m g s).interrupted = some (m.closed g q)) := by
  have hfirst : m.closed g q ∈ (c.register g (m.closed g q)).registry ∧
      m.closed g q ∈ (c.register g (m.closed g q)).queue :=
    ⟨mem_register.mpr (Or.inl rfl), List.mem_append_right _ (List.mem_singleton.mpr rfl)⟩
  unfold log run
  rw [hs]
  simp only
  rw [← Emission.calls_opening]
  cases hf : b.feed s ((Emission.opening (m.closed g q)).calls g) with
  | mk s' r =>
    cases r with
    | some f =>
      exact ⟨accounts_opening hc hs (Or.inr rfl), Or.inr ⟨_, s, f, rfl, rfl, rfl, hf⟩, hfirst.1,
        Or.inl hfirst.2⟩
    | none =>
      have hopen := accounts_opening hc hs (Or.inl rfl)
      obtain ⟨news, hexplores⟩ := exists_explores m (inv_register hc (m.closed g q))
      obtain ⟨hacc, hheard⟩ := drain_accounts b hexplores (inv_register hc _) rfl rfl s'
      have hes : b.feed s ([Emission.opening (m.closed g q)].flatMap (Emission.calls g)) =
          (s', none) := by rwa [List.flatMap_singleton]
      have hmem := (hacc.registered (m.closed g q)).mpr (Or.inl hfirst.1)
      have hwait := hacc.waiting (m.closed g q) hmem (Or.inr hfirst.2)
      have htotal := hopen.trans hacc
      simp only
      rcases hheard.after hes with ⟨hr, hfault, hi, hq, hfeed⟩ | ⟨e, t, f, hr, hfault, ht, he⟩
      · rw [hfault]
        exact ⟨htotal, Or.inl ⟨hr, rfl, hi, hq, hfeed⟩, hmem,
          hwait.imp_right (Or.imp_left fun h => h.after _)⟩
      · rw [hfault]
        exact ⟨htotal, Or.inr ⟨e, t, f, hr, rfl, ht, he⟩, hmem,
          hwait.imp_right (Or.imp_left fun h => h.after _)⟩

/-! ## Any number of runs -/

/-- What runs of one construction leave, and their logs; each run may emit into any builder. -/
inductive Runs (m : NFA) (g : Graph) : List Log → Construction → Prop
  | new : Runs m g [] ∅
  | run {logs : List Log} {c : Construction} {σ ε : Type} (b : Builder σ ε) (s : σ) :
      Runs m g logs c → Runs m g (logs ++ [c.log b m g s]) (c.run b m g s).construction

/-- What the logs of all runs say about a construction. -/
structure Kept (m : NFA) (g : Graph) (logs : List Log) (c : Construction) : Prop where
  inv : c.Inv g
  reached : ∀ S ∈ c.registry, m.Reached g S
  fate : ∀ S ∈ c.registry, S ∈ c.queue ∨ (∃ l ∈ logs, l.Expands m g S) ∨
    ∃ l ∈ logs, l.interrupted = some S
  declared : ∀ S ∈ c.registry, (∃ l ∈ logs, S ∈ l.declared) ∨ ∃ l ∈ logs, S ∈ l.undeclared
  links : ∀ l ∈ logs, ∀ S a T, .link S a T ∈ l.taken → T ∈ c.registry
  interrupted : ∀ l ∈ logs, ∀ S, l.interrupted = some S → ∃ a ∈ m.alphabet,
    l.refused = some (.declare (m.step g S a)) ∨ l.refused = some (.link S a (m.step g S a))

theorem kept_new : Kept m g [] ∅ where
  inv := inv_empty
  reached _ hS := absurd hS List.not_mem_nil
  fate _ hS := absurd hS List.not_mem_nil
  declared _ hS := absurd hS List.not_mem_nil
  links _ hl := absurd hl List.not_mem_nil
  interrupted _ hl := absurd hl List.not_mem_nil

/-- One more log of a list, and what an earlier one of them has. -/
theorem exists_mem_concat {logs : List Log} {l : Log} {P : Log → Prop} :
    (∃ l' ∈ logs ++ [l], P l') ↔ (∃ l' ∈ logs, P l') ∨ P l := by
  simp [or_and_right, exists_or]

theorem kept_run {logs : List Log} {l : Log} {c' : Construction} (h : Kept m g logs c)
    (ha : Accounts m g c l c') : Kept m g (logs ++ [l]) c' where
  inv := ha.inv
  reached := ha.reached h.reached
  fate S hS := by
    rw [exists_mem_concat, exists_mem_concat]
    have hnow : S ∉ c.registry ∨ S ∈ c.queue → S ∈ c'.queue ∨
        ((∃ l ∈ logs, l.Expands m g S) ∨ l.Expands m g S) ∨
        (∃ l ∈ logs, l.interrupted = some S) ∨ l.interrupted = some S := fun hw =>
      (ha.waiting S hS hw).imp_right (Or.imp Or.inr Or.inr)
    by_cases hold : S ∈ c.registry
    · rcases h.fate S hold with hq | he | hi
      · exact hnow (Or.inr hq)
      · exact Or.inr (Or.inl (Or.inl he))
      · exact Or.inr (Or.inr (Or.inl hi))
    · exact hnow (Or.inl hold)
  declared S hS := by
    rw [exists_mem_concat, exists_mem_concat]
    rcases (ha.registered S).mp hS with hS | hd | hu
    · exact (h.declared S hS).imp Or.inl Or.inl
    · exact Or.inl (Or.inr hd)
    · exact Or.inr (Or.inr hu)
  links l' hl' S a T hlink := by
    rcases List.mem_append.mp hl' with hl' | hl'
    · exact (ha.registered T).mpr (Or.inl (h.links l' hl' S a T hlink))
    · rw [List.mem_singleton.mp hl'] at hlink
      exact ha.links S a T hlink
  interrupted l' hl' := by
    rcases List.mem_append.mp hl' with hl' | hl'
    · exact h.interrupted l' hl'
    · rw [List.mem_singleton.mp hl']
      exact ha.interrupted

theorem Runs.kept {q : StateId} (hs : m.start = some q) {logs : List Log}
    (h : Runs m g logs c) : Kept m g logs c := by
  induction h with
  | new => exact kept_new
  | run b s _ ih => exact kept_run ih (run_accounts b ih.inv hs s).1

/-- If nothing waits, and whatever was interrupted was expanded as well, all reached subsets are
registered. -/
theorem Kept.complete {logs : List Log} (h : Kept m g logs c) (hq : c.queue = [])
    {q : StateId} (hs : m.start = some q) (hfirst : m.closed g q ∈ c.registry)
    (hi : ∀ S, (∃ l ∈ logs, l.interrupted = some S) → ∃ l ∈ logs, l.Expands m g S)
    (S : StateSet) : S ∈ c.registry ↔ m.Reached g S := by
  refine ⟨h.reached S, fun hS => ?_⟩
  induction hS with
  | start hq' =>
    rw [hs] at hq'
    cases hq'
    exact hfirst
  | @step S a _ ha ih =>
    have hexpanded : ∃ l ∈ logs, l.Expands m g S := by
      rcases h.fate S ih with hqueued | he | hbroken
      · rw [hq] at hqueued
        exact absurd hqueued List.not_mem_nil
      · exact he
      · exact hi S hbroken
    obtain ⟨l, hl, he⟩ := hexpanded
    exact h.links l hl S a _ (he a ha)

/-- Behind any runs of one construction, with refusals anywhere: queued subsets are registered;
registered subsets are reached and bound to their identifiers; each of them is queued, or was
expanded on the whole alphabet in one of the runs, or is the one whose expansion a refusal
interrupted in one of the runs; and each was declared, or its declaration was refused. So no run
finds a queued subset unregistered. A run that goes through leaves the queue empty and expands the
first subset; and if no other expansion was interrupted before, exactly the reached subsets are
registered then. -/
theorem runs_registry {q : StateId} (hs : m.start = some q) {logs : List Log}
    (h : Runs m g logs c) :
    (∀ S ∈ c.queue, S ∈ c.registry) ∧
    (∀ S ∈ c.registry, m.Reached g S ∧ c.registry.get? S = some (g.identifier S) ∧
      (S ∈ c.queue ∨ (∃ l ∈ logs, ∀ a ∈ m.alphabet, .link S a (m.step g S a) ∈ l.taken) ∨
        ∃ l ∈ logs, l.interrupted = some S) ∧
      ((∃ l ∈ logs, S ∈ l.declared) ∨ ∃ l ∈ logs, S ∈ l.undeclared)) ∧
    (∀ l ∈ logs, ∀ S, l.interrupted = some S → ∃ a ∈ m.alphabet,
      l.refused = some (.declare (m.step g S a)) ∨ l.refused = some (.link S a (m.step g S a))) ∧
    ∀ {σ ε : Type} (b : Builder σ ε) (s : σ),
      Described b g s (c.log b m g s) (c.run b m g s) ∧
      (∀ S, (c.run b m g s).result ≠ .error (.unregistered S)) ∧
      ∀ found, (c.run b m g s).result = .ok found →
        (c.run b m g s).construction.queue = [] ∧
        (∀ a ∈ m.alphabet,
          .link (m.closed g q) a (m.step g (m.closed g q) a) ∈ (c.log b m g s).taken) ∧
        ((∀ l ∈ logs, ∀ S, l.interrupted = some S → S = m.closed g q) →
          ∀ S, S ∈ (c.run b m g s).construction.registry ↔ m.Reached g S) := by
  have hk := h.kept hs
  refine ⟨hk.inv.queued, fun S hS => ⟨hk.reached S hS, hk.inv.get? hS, hk.fate S hS,
    hk.declared S hS⟩, hk.interrupted, fun b s => ?_⟩
  obtain ⟨hacc, hdescribed, hfirst, hwait⟩ := run_accounts b hk.inv hs s
  refine ⟨hdescribed, fun S hS => ?_, fun found hok => ?_⟩
  · rcases hdescribed with ⟨-, hr, -⟩ | ⟨e, t, f, -, hr, -⟩ <;> rw [hr] at hS <;> cases hS
  · obtain ⟨-, -, hi, hq, -⟩ | ⟨e, t, f, -, hr, -⟩ := hdescribed
    · have hexpands : (c.log b m g s).Expands m g (m.closed g q) := by
        rcases hwait with hw | he | hb
        · rw [hq] at hw
          exact absurd hw List.not_mem_nil
        · exact he
        · rw [hi] at hb
          cases hb
      refine ⟨hq, hexpands, fun honly => (kept_run hk hacc).complete hq hs hfirst fun S hS => ?_⟩
      refine exists_mem_concat.mpr (Or.inr ?_)
      rcases exists_mem_concat.mp hS with ⟨l, hl, hb⟩ | hb
      · rw [honly l hl S hb]
        exact hexpands
      · rw [hi] at hb
        cases hb
    · rw [hr] at hok
      cases hok

/-- A run of which the third call was refused, the transition of the first subset, and one that goes
through: all reached subsets are registered. -/
theorem runs_registry_chain : ∃ first : Construction, ∃ l : Log,
    Runs NFA.chain.2 NFA.chain.1 [l] first ∧
    l.interrupted = some (NFA.chain.2.closed NFA.chain.1 0) ∧
    (∃ found, (first.run Builder.silent NFA.chain.2 NFA.chain.1 ()).result = .ok found) ∧
    ∀ S, S ∈ (first.run Builder.silent NFA.chain.2 NFA.chain.1 ()).construction.registry ↔
      NFA.chain.2.Reached NFA.chain.1 S := by
  have hruns := Runs.new.run (m := NFA.chain.2) (g := NFA.chain.1) Recorder.builder
    (Recorder.new [3])
  have hbroken : (Construction.log Recorder.builder NFA.chain.2 NFA.chain.1 ∅
      (Recorder.new [3])).interrupted = some (NFA.chain.2.closed NFA.chain.1 0) := by
    decide +kernel
  obtain ⟨-, -, -, hnext⟩ := runs_registry (q := 0) rfl hruns
  obtain ⟨hdescribed, -, hok⟩ := hnext Builder.silent ()
  refine ⟨_, _, hruns, hbroken, ?_⟩
  rcases hdescribed with ⟨-, hr, -⟩ | ⟨e, t, f, -, -, -, hf⟩
  · refine ⟨⟨_, hr⟩, (hok _ hr).2.2 fun l hl S hS => ?_⟩
    rw [List.mem_singleton.mp hl, hbroken] at hS
    exact (Option.some.inj hS).symm
  · rw [Builder.silent_feed] at hf
    cases hf

end Construction

end Determinize
