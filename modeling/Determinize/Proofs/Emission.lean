import Determinize.Construction
import Determinize.Proofs.History
import Determinize.Proofs.Exploration

/-!
# What a run emits

A run of the construction emits what the breadth-first search from its registered and queued
subsets tells: `drain_follows` and `run_follows` say so for every builder, where a refused call ends
the run at that call. For a fresh run `order` lists the subsets in the order in which they are
registered, and `emissions` what is told about them.

Results:
* `exists_explores`: the search ends, since the subsets of a finite graph run out;
* `determinize_follows`: a fresh run feeds its builder the calls of `emissions`, and nothing else;
* `mem_order`, `nodup_order`: the registered subsets are the reached ones, each once;
* `emission_exact`: the exact sequence of calls of a fresh run.
-/
namespace Determinize

/-- The builder that takes every call and keeps nothing. -/
def Builder.silent : Builder Unit Empty := ⟨fun s _ => (s, none)⟩

theorem Builder.silent_feed (l : List Call) : Builder.silent.feed () l = ((), none) :=
  Prod.ext rfl (Builder.silent.feed_total (fun _ _ => rfl) () l)

/-- Progress that feeding calls describes, where `r` is what feeding them leaves and `c` the
construction if none of them is refused. -/
structure Progress.Follows {σ ε : Type} (p : Progress σ ε) (r : σ × Option ε) (c : Construction) :
    Prop where
  builder : p.builder = r.1
  fault : p.fault = r.2.map .refused
  construction : r.2 = none → p.construction = c

/-- The outcome of a run that feeding calls describes, likewise. -/
structure Outcome.Follows {σ ε : Type} (o : Outcome σ ε) (r : σ × Option ε) (c : Construction) :
    Prop where
  builder : o.builder = r.1
  result : o.result = match r.2 with
    | none => .ok c.subsets
    | some e => .error (.refused e)
  construction : r.2 = none → o.construction = c

/-- If all calls are taken, they say everything. -/
theorem Outcome.Follows.eq_of_taken {σ ε : Type} {o : Outcome σ ε} {r : σ × Option ε}
    {c : Construction} (h : o.Follows r c) (hr : r.2 = none) : o = ⟨c, r.1, .ok c.subsets⟩ := by
  obtain ⟨hb, hresult, hc⟩ := h
  rw [hr] at hresult
  obtain ⟨o, t, found⟩ := o
  cases hc hr
  rw [show t = r.1 from hb, show found = _ from hresult]

namespace Construction

/-- Binds subsets to their identifiers. -/
def bindAll (g : Graph) (registry : OrderedMap StateSet String) (news : List StateSet) :
    OrderedMap StateSet String :=
  news.foldl (fun r T => r.put T (g.identifier T)) registry

/-- Registers and queues subsets. -/
def registerAll (g : Graph) (c : Construction) (news : List StateSet) : Construction :=
  ⟨bindAll g c.registry news, c.queue ++ news⟩

/-- Registered subsets are bound to their identifiers, and queued ones are registered. -/
structure Inv (g : Graph) (c : Construction) : Prop where
  named : ∀ {S : StateSet} {id : String}, c.registry.get? S = some id → id = g.identifier S
  queued : ∀ S ∈ c.queue, S ∈ c.registry

variable {m : NFA} {g : Graph} {c : Construction}

/-! ## Registering -/

theorem inv_empty : Inv g ∅ where
  named h := by cases h
  queued _ h := absurd h List.not_mem_nil

theorem inv_register (h : c.Inv g) (S : StateSet) : (c.register g S).Inv g := by
  refine ⟨fun {T id} hT => ?_, fun T hT => ?_⟩
  · rw [register, OrderedMap.get?_put] at hT
    split at hT
    · rename_i he
      cases hT
      rw [he]
    · exact h.named hT
  · rw [mem_register]
    rcases List.mem_append.mp hT with hT | hT
    · exact Or.inr (h.queued T hT)
    · exact Or.inl (List.mem_singleton.mp hT)

theorem registerAll_cons (T : StateSet) (news : List StateSet) :
    c.registerAll g (T :: news) = (c.register g T).registerAll g news := by
  simp [registerAll, register, bindAll]

theorem inv_registerAll (h : c.Inv g) (news : List StateSet) : (c.registerAll g news).Inv g := by
  induction news generalizing c with
  | nil => simpa [registerAll, bindAll] using h
  | cons T news ih =>
    rw [registerAll_cons]
    exact ih (inv_register h T)

theorem keys_register {S : StateSet} (h : S ∉ c.registry) :
    (c.register g S).registry.keys = c.registry.keys ++ [S] := by
  rw [register, OrderedMap.keys_put, if_neg h]

theorem keys_bindAll {registry : OrderedMap StateSet String} {news : List StateSet}
    (h : (registry.keys ++ news).Nodup) :
    (bindAll g registry news).keys = registry.keys ++ news := by
  induction news generalizing registry with
  | nil => simp [bindAll]
  | cons T news ih =>
    have hT : T ∉ registry := by
      intro hm
      exact (List.nodup_append.mp h).2.2 T hm T List.mem_cons_self rfl
    have hk : (registry.put T (g.identifier T)).keys = registry.keys ++ [T] := by
      rw [OrderedMap.keys_put, if_neg hT]
    have hn : ((registry.put T (g.identifier T)).keys ++ news).Nodup := by
      rw [hk, ← List.append_cons]
      exact h
    have hrest := ih hn
    rw [hk, ← List.append_cons] at hrest
    exact hrest

theorem keys_registerAll_fresh (l : List (StateSet × Char)) :
    (c.registerAll g (m.fresh g c.registry.keys l)).registry.keys =
      c.registry.keys ++ m.fresh g c.registry.keys l :=
  keys_bindAll (NFA.nodup_fresh l c.registry.nodup_keys)

theorem Inv.get? (h : c.Inv g) {S : StateSet} (hS : S ∈ c.registry) :
    c.registry.get? S = some (g.identifier S) := by
  obtain ⟨id, hid⟩ := Option.isSome_iff_exists.mp (OrderedMap.mem_iff_get?_isSome.mp hS)
  rw [hid, h.named hid]

theorem Inv.pop {registry : OrderedMap StateSet String} {queue : List StateSet} {S : StateSet}
    (h : Inv g ⟨registry, S :: queue⟩) : Inv g ⟨registry, queue⟩ :=
  ⟨h.named, fun T hT => h.queued T (List.mem_cons_of_mem _ hT)⟩

/-! ## Expanding one subset -/

theorem visit_of_mem (h : c.Inv g) {T : StateSet} (hT : T ∈ c.registry) (S : StateSet) (a : Char) :
    c.visit g (g.identifier S) a T = (c, (Emission.link S a T).calls g) :=
  visit_known _ a (h.get? hT)

theorem visit_of_not_mem {T : StateSet} (hT : T ∉ c.registry) (S : StateSet) (a : Char) :
    c.visit g (g.identifier S) a T =
      (c.register g T, (Emission.declare T).calls g ++ (Emission.link S a T).calls g) := by
  rw [visit_new _ a hT, Emission.calls_declare]
  rfl

/-- Meeting the target of a pair tells what the pair tells, and the rest is told after it. -/
theorem visit_script (h : c.Inv g) (S : StateSet) (a : Char) (l : List (StateSet × Char)) :
    (c.visit g (g.identifier S) a (m.step g S a)).1.Inv g ∧
    (m.script g c.registry.keys ((S, a) :: l)).flatMap (Emission.calls g) =
      (c.visit g (g.identifier S) a (m.step g S a)).2 ++
        (m.script g (c.visit g (g.identifier S) a (m.step g S a)).1.registry.keys l).flatMap
          (Emission.calls g) ∧
    c.registerAll g (m.fresh g c.registry.keys ((S, a) :: l)) =
      (c.visit g (g.identifier S) a (m.step g S a)).1.registerAll g
        (m.fresh g (c.visit g (g.identifier S) a (m.step g S a)).1.registry.keys l) := by
  by_cases hT : m.step g S a ∈ c.registry
  · rw [visit_of_mem h hT, NFA.script, NFA.fresh, if_pos (show _ ∈ c.registry.keys from hT),
      if_pos (show _ ∈ c.registry.keys from hT)]
    exact ⟨h, List.flatMap_cons, rfl⟩
  · rw [visit_of_not_mem hT, NFA.script, NFA.fresh, if_neg (show ¬ _ ∈ c.registry.keys from hT),
      if_neg (show ¬ _ ∈ c.registry.keys from hT)]
    refine ⟨inv_register h _, ?_, ?_⟩
    · simp only [keys_register hT, List.flatMap_cons, List.append_assoc]
    · rw [keys_register hT, registerAll_cons]

variable {σ ε : Type}

theorem expand_follows (b : Builder σ ε) (h : c.Inv g) (S : StateSet) (symbols : List Char)
    (s : σ) : (expand b m g S (g.identifier S) symbols c s).Follows
      (b.feed s ((m.script g c.registry.keys (symbols.map fun a => (S, a))).flatMap
        (Emission.calls g)))
      (c.registerAll g (m.fresh g c.registry.keys (symbols.map fun a => (S, a)))) := by
  induction symbols generalizing c s with
  | nil => exact ⟨rfl, rfl, fun _ => by simp [registerAll, bindAll, NFA.fresh, expand]⟩
  | cons a rest ih =>
    obtain ⟨hv, hcalls, hnews⟩ := visit_script (m := m) h S a (rest.map fun a => (S, a))
    rw [List.map_cons, hcalls, hnews, Builder.feed_append, expand]
    generalize c.visit g (g.identifier S) a (m.step g S a) = met at hv
    obtain ⟨c', calls⟩ := met
    simp only
    cases hf : b.feed s calls with
    | mk s' r =>
      cases r with
      | none => exact ih hv s'
      | some e => exact ⟨rfl, rfl, fun he => by cases he⟩

/-! ## Draining the queue -/

theorem drain_follows (b : Builder σ ε) {seen queue news : List StateSet}
    (h : m.Explores g seen queue news) {c : Construction} (hc : c.Inv g)
    (hk : c.registry.keys = seen) (hq : c.queue = queue) (s : σ) :
    (drain b m g c s).Follows
      (b.feed s ((m.script g seen (m.pairs (queue ++ news))).flatMap (Emission.calls g)))
      ⟨bindAll g c.registry news, []⟩ := by
  induction h generalizing c s with
  | done seen =>
    obtain ⟨registry, queue⟩ := c
    subst hq
    rw [drain]
    exact ⟨rfl, rfl, fun _ => rfl⟩
  | @next seen queue later S _ ih =>
    obtain ⟨registry, _⟩ := c
    subst hk hq
    have hS : registry.get? S = some (g.identifier S) := hc.get? (hc.queued S List.mem_cons_self)
    have he := expand_follows (m := m) b hc.pop S m.alphabet s
    rw [← NFA.pairs_singleton] at he
    rw [NFA.script_next, List.flatMap_append, Builder.feed_append, drain, hS]
    simp only
    generalize expand b m g S (g.identifier S) m.alphabet ⟨registry, queue⟩ s = p at he
    obtain ⟨pc, pb, pf⟩ := p
    obtain ⟨hb, hf, hcons⟩ := he
    simp only at hb hf hcons ⊢
    generalize b.feed s _ = r at hb hf hcons
    obtain ⟨s', e⟩ := r
    -- A refused call ends the run and the feeding alike; otherwise both go on with the rest.
    cases e with
    | some e => rw [hb, hf]; exact ⟨rfl, rfl, fun he => by cases he⟩
    | none =>
      rw [hb, hf, hcons rfl]
      have hi := ih (inv_registerAll hc.pop (m.fresh g registry.keys (m.pairs [S])))
        (keys_registerAll_fresh (c := ⟨registry, queue⟩) (m.pairs [S])) rfl s'
      simpa [registerAll, bindAll] using hi

/-- Expanding a subset leaves less to be met or expanded. -/
theorem pending_expanded {registry : OrderedMap StateSet String} {S : StateSet}
    {queue : List StateSet} (hc : Inv g ⟨registry, queue⟩) :
    (registerAll g ⟨registry, queue⟩ (m.fresh g registry.keys (m.pairs [S]))).pending g <
      pending g ⟨registry, S :: queue⟩ := by
  have hf := expand_follows (m := m) Builder.silent hc S m.alphabet ()
  have hp := expand_pending Builder.silent m g S (g.identifier S) m.alphabet ⟨registry, queue⟩ ()
  rw [hf.construction (by rw [Builder.silent_feed])] at hp
  rw [NFA.pairs_singleton]
  exact Nat.lt_succ_of_le hp

/-- The search from the registered and queued subsets ends. -/
theorem exists_explores (m : NFA) (hc : c.Inv g) :
    ∃ news, m.Explores g c.registry.keys c.queue news := by
  -- The queue may grow at an expansion; what is still to be met or expanded cannot.
  induction hn : c.pending g using Nat.strongRecOn generalizing c with
  | ind n ih =>
    obtain ⟨registry, queue⟩ := c
    cases queue with
    | nil => exact ⟨[], .done _⟩
    | cons S queue =>
      have hlt := pending_expanded (m := m) (S := S) hc.pop
      rw [hn] at hlt
      obtain ⟨later, hl⟩ := ih _ hlt (inv_registerAll hc.pop _) rfl
      rw [keys_registerAll_fresh] at hl
      exact ⟨_, .next S hl⟩

/-! ## A whole run -/

/-- A run feeds its builder the calls of the first subset, and then what the search tells. -/
theorem run_follows (b : Builder σ ε) (hc : c.Inv g) {q : StateId} (hs : m.start = some q)
    {news : List StateSet} (h : m.Explores g (c.register g (m.closed g q)).registry.keys
      (c.queue ++ [m.closed g q]) news) (s : σ) :
    (c.run b m g s).Follows
      (b.feed s ((Emission.opening (m.closed g q) ::
        m.script g (c.register g (m.closed g q)).registry.keys
          (m.pairs (c.queue ++ [m.closed g q] ++ news))).flatMap (Emission.calls g)))
      ⟨bindAll g (c.register g (m.closed g q)).registry news, []⟩ := by
  unfold run
  rw [hs, List.flatMap_cons, Builder.feed_append, Emission.calls_opening]
  simp only
  cases hf : b.feed s (openingCalls g (m.closed g q)) with
  | mk s' e =>
    cases e with
    | some e => exact ⟨rfl, rfl, fun he => by cases he⟩
    | none =>
      obtain ⟨hb, hfault, hcons⟩ := drain_follows b h (inv_register hc (m.closed g q)) rfl rfl s'
      simp only
      generalize b.feed s' _ = r at hb hfault hcons
      obtain ⟨s'', e⟩ := r
      cases e with
      | none =>
        simp only [Option.map_none] at hfault
        simp only [hfault, hb, hcons]
        exact ⟨rfl, rfl, fun _ => rfl⟩
      | some e =>
        simp only [Option.map_some] at hfault
        simp only [hfault, hb]
        exact ⟨rfl, rfl, fun he => by cases he⟩

end Construction

/-! ## A fresh run -/

namespace NFA

/-- The subsets that a fresh run registers, in the order in which it registers them. -/
def order (m : NFA) (g : Graph) : List StateSet :=
  (m.determinize Builder.silent g ()).construction.registry.keys

/-- What a fresh run tells its builder. -/
def emissions (m : NFA) (g : Graph) : List Emission :=
  match m.start with
  | none => []
  | some s => .opening (m.closed g s) :: m.script g [m.closed g s] (m.pairs (m.order g))

/-- The calls by which a fresh run tells it. -/
def calls (m : NFA) (g : Graph) : List Call := (m.emissions g).flatMap (Emission.calls g)

/-- The subset of each identifier: that of the last registered subset with it. -/
def mapping (m : NFA) (g : Graph) : SubsetMap :=
  (m.order g).foldl (fun found S => found.put (g.identifier S) S) ∅

variable {m : NFA} {g : Graph} {s : StateId}

open Construction in
/-- One search describes every fresh run. -/
theorem exists_fresh_run (hs : m.start = some s) :
    ∃ news, m.Explores g [m.closed g s] [m.closed g s] news ∧ m.order g = m.closed g s :: news ∧
      ∀ {σ ε : Type} (b : Builder σ ε) (t : σ), (m.determinize b g t).Follows
        (b.feed t (m.calls g)) ⟨bindAll g ∅ (m.order g), []⟩ := by
  have hempty : Construction.Inv g ∅ := inv_empty
  obtain ⟨news, h⟩ := exists_explores m (inv_register hempty (m.closed g s))
  have hrun := fun {σ ε : Type} (b : Builder σ ε) (t : σ) => run_follows b hempty hs h t
  have horder : m.order g = m.closed g s :: news := by
    rw [order, determinize, (hrun Builder.silent ()).construction (by rw [Builder.silent_feed])]
    exact keys_bindAll (h.nodup (register g ∅ (m.closed g s)).registry.nodup_keys)
  have hcalls : m.calls g = (Emission.opening (m.closed g s) ::
      m.script g [m.closed g s] (m.pairs (m.closed g s :: news))).flatMap (Emission.calls g) := by
    unfold calls emissions
    rw [hs, horder]
  refine ⟨news, h, horder, fun b t => ?_⟩
  rw [hcalls, horder]
  exact hrun b t

theorem determinize_follows (hs : m.start = some s) {σ ε : Type} (b : Builder σ ε) (t : σ) :
    (m.determinize b g t).Follows (b.feed t (m.calls g))
      ⟨Construction.bindAll g ∅ (m.order g), []⟩ := by
  obtain ⟨news, -, -, hrun⟩ := exists_fresh_run (g := g) hs
  exact hrun b t

theorem emissions_eq (hs : m.start = some s) : m.emissions g =
    .opening (m.closed g s) :: m.script g [m.closed g s] (m.pairs (m.order g)) := by
  unfold emissions
  rw [hs]

/-- The subsets are registered in the order in which expanding them meets them. -/
theorem order_eq (hs : m.start = some s) : m.order g =
    m.closed g s :: m.fresh g [m.closed g s] (m.pairs (m.order g)) := by
  obtain ⟨news, h, horder, -⟩ := exists_fresh_run (g := g) hs
  have hf := h.fresh_eq
  rw [horder]
  exact congrArg _ hf.symm

theorem nodup_order (m : NFA) (g : Graph) : (m.order g).Nodup := OrderedMap.nodup_keys _

/-- The registered subsets are exactly those that are reached. -/
theorem mem_order (hs : m.start = some s) {S : StateSet} : S ∈ m.order g ↔ m.Reached g S := by
  obtain ⟨news, h, horder, -⟩ := exists_fresh_run (g := g) hs
  have hstart : ∀ T ∈ [m.closed g s], m.Reached g T := fun T hT =>
    List.mem_singleton.mp hT ▸ .start hs
  have hsound := h.sound (fun _ _ => .step) hstart
  rw [horder]
  refine ⟨fun hS => ?_, fun hS => ?_⟩
  · rcases List.mem_cons.mp hS with rfl | hS
    · exact .start hs
    · exact hsound S hS
  · induction hS with
    | start hq =>
      rw [hs] at hq
      cases hq
      exact List.mem_cons_self
    | step _ ha ih => exact h.step_mem ih ha

/-- Each registered subset is declared once, in the order of registration. -/
theorem declared_emissions (hs : m.start = some s) :
    (m.emissions g).flatMap Emission.declared = m.order g := by
  rw [emissions_eq hs, List.flatMap_cons, declared_script]
  exact (order_eq hs).symm

theorem announced_emissions (hs : m.start = some s) :
    Emission.Announced [] (m.emissions g) := by
  obtain ⟨news, h, horder, -⟩ := exists_fresh_run (g := g) hs
  rw [emissions_eq hs, horder]
  exact ⟨trivial, h.announced fun S hS => hS⟩

theorem mem_emissions_link (hs : m.start = some s) {S T : StateSet} {a : Char} :
    .link S a T ∈ m.emissions g ↔ m.Reached g S ∧ a ∈ m.alphabet ∧ T = m.step g S a := by
  rw [emissions_eq hs, ← mem_order hs]
  simp [mem_script_link, mem_pairs, and_assoc]

/-- One call declares a subset and one tells each transition; an accepting first subset needs one
more. -/
theorem length_calls (hs : m.start = some s) : (m.calls g).length =
    (m.order g).length + (m.order g).length * m.alphabet.length +
      if ∃ t ∈ m.closed g s, g.isFinal t = true then 1 else 0 := by
  have hlen := congrArg List.length (order_eq (g := g) hs)
  rw [List.length_cons] at hlen
  rw [calls, emissions_eq hs, List.flatMap_cons, List.length_append, length_script, length_pairs,
    Emission.calls]
  split <;> simp only [List.length_cons, List.length_nil] <;> omega

/-! ## The mapping -/

theorem entries_bindAll {order : List StateSet} (h : order.Nodup) :
    (Construction.bindAll g ∅ order).entries = order.map fun S => (S, g.identifier S) := by
  have hinv := Construction.inv_registerAll (Construction.inv_empty (g := g)) order
  have hkeys : (Construction.bindAll g ∅ order).keys = order := Construction.keys_bindAll h
  have hmap : ∀ e ∈ (Construction.bindAll g ∅ order).entries, (e.1, g.identifier e.1) = e := by
    intro e he
    have hget := OrderedMap.mem_entries_iff.mp he
    rw [← hinv.named hget]
  calc (Construction.bindAll g ∅ order).entries
      = (Construction.bindAll g ∅ order).entries.map fun e => (e.1, g.identifier e.1) := by
        rw [List.map_congr_left hmap, List.map_id']
    _ = (Construction.bindAll g ∅ order).keys.map fun S => (S, g.identifier S) := by
        simp [OrderedMap.keys]
    _ = order.map fun S => (S, g.identifier S) := by rw [hkeys]

theorem subsets_eq_mapping (m : NFA) (g : Graph) :
    Construction.subsets ⟨Construction.bindAll g ∅ (m.order g), []⟩ = m.mapping g := by
  unfold Construction.subsets mapping
  rw [entries_bindAll (nodup_order m g), List.foldl_map]

/-- What a fresh run returns and keeps if it goes through. -/
theorem determinize_ok (hs : m.start = some s) {σ ε : Type} {b : Builder σ ε} {t : σ}
    {found : SubsetMap} (h : (m.determinize b g t).result = .ok found) :
    found = m.mapping g ∧ (m.determinize b g t).construction.registry.keys = m.order g := by
  have hd := determinize_follows (g := g) hs b t
  have hnone : (b.feed t (m.calls g)).2 = none := by
    cases he : (b.feed t (m.calls g)).2 with
    | none => rfl
    | some e =>
      rw [hd.result, he] at h
      cases h
  rw [hd.result, hnone] at h
  refine ⟨?_, ?_⟩
  · rw [← subsets_eq_mapping]
    exact (Except.ok.inj h).symm
  · rw [hd.construction hnone]
    exact Construction.keys_bindAll (nodup_order m g)

/-- A fresh run into a builder that never refuses. With `S₀` the first subset, the calls are those
of `S₀`, followed for the registered subsets in order and the symbols in order by the declaration of
a target that was not registered yet and the transition to it; a subset is declared as final exactly
if it has a final member. The registered subsets are the reached ones, each declared once, and no
transition comes before the declarations of its subsets. -/
theorem emission_exact (hs : m.start = some s) :
    m.emissions g = .opening (m.closed g s) ::
      m.script g [m.closed g s] (m.pairs (m.order g)) ∧
    (∀ {σ ε : Type} (b : Builder σ ε), (∀ t c, (b.take t c).2 = none) → ∀ t,
      (m.determinize b g t).builder =
        (b.feed t ((m.emissions g).flatMap (Emission.calls g))).1 ∧
      (m.determinize b g t).construction.registry.keys = m.order g ∧
      (m.determinize b g t).result = .ok (m.mapping g)) ∧
    (m.determinize Recorder.builder g (Recorder.new [])).builder.calls =
      (m.emissions g).flatMap (Emission.calls g) ∧
    (m.order g).Nodup ∧
    (∀ S, S ∈ m.order g ↔ m.Reached g S) ∧
    (m.emissions g).flatMap Emission.declared = m.order g ∧
    ((m.emissions g).flatMap (Emission.calls g)).length =
      (m.order g).length + (m.order g).length * m.alphabet.length +
        (if ∃ t ∈ m.closed g s, g.isFinal t = true then 1 else 0) ∧
    ∀ before after S a T, m.emissions g = before ++ .link S a T :: after →
      S ∈ before.flatMap Emission.declared ∧ T ∈ before.flatMap Emission.declared := by
  refine ⟨emissions_eq hs, fun b hb t => ?_, ?_, nodup_order m g, fun S => mem_order hs,
    declared_emissions hs, length_calls hs, fun before after S a T he => ?_⟩
  · have hd := determinize_follows (g := g) hs b t
    have hok : (m.determinize b g t).result = .ok (m.mapping g) := by
      rw [hd.result, b.feed_total hb t (m.calls g)]
      exact congrArg _ (subsets_eq_mapping m g)
    exact ⟨hd.builder, (determinize_ok hs hok).2, hok⟩
  · rw [(determinize_follows hs Recorder.builder (Recorder.new [])).builder, Recorder.new,
      Recorder.calls_feed]
    rfl
  · have ha := announced_emissions (g := g) hs
    rw [he] at ha
    exact ha.link

/-- A start that leads to a final state. -/
def chain : Graph × NFA :=
  attempts ∅ (NFA.new {}) [.add .start "p", .add .final "q", .connect "p" (.text "a") "q"]

/-- A start that leads to a final state by an empty move, and that state to itself. -/
def hop : Graph × NFA :=
  attempts ∅ (NFA.new {}) [.add .start "p", .add .final "q", .connect "p" (.text "e") "q",
    .connect "q" (.text "a") "q"]

/-- The first subset of `hop` has both states. -/
theorem identifier_hop : hop.1.identifier ⟨3⟩ = "\x7bp, q\x7d" := by
  have hnames : (StateSet.toList ⟨3⟩).map hop.1.name = ["q", "p"] := by decide +kernel
  rw [Graph.identifier, Graph.identifierOf, hnames, Identifier.ofNames,
    Identifier.sorted_eq_of_ordered (List.Perm.swap "p" "q" []) (by decide)]
  rfl

/-- The first subset of `hop` has a final member and is declared twice, as the start and as final;
that of `chain` has none, and there the empty subset is reached. -/
theorem emission_exact_hop : hop.2.start = some 0 ∧ chain.2.start = some 0 ∧
    (hop.2.emissions hop.1).flatMap (Emission.calls hop.1) =
      [.start "\x7bp, q\x7d", .final "\x7bp, q\x7d", .final "\x7bq\x7d",
        .transition "\x7bp, q\x7d" "a" "\x7bq\x7d", .transition "\x7bq\x7d" "a" "\x7bq\x7d"] ∧
    (chain.2.emissions chain.1).flatMap (Emission.calls chain.1) =
      [.start "\x7bp\x7d", .final "\x7bq\x7d", .transition "\x7bp\x7d" "a" "\x7bq\x7d",
        .state "\x7b\x7d", .transition "\x7bq\x7d" "a" "\x7b\x7d",
        .transition "\x7b\x7d" "a" "\x7b\x7d"] := by
  have hhop : hop.2.emissions hop.1 =
      [.opening ⟨3⟩, .declare ⟨2⟩, .link ⟨3⟩ 'a' ⟨2⟩, .link ⟨2⟩ 'a' ⟨2⟩] :=
    (emission_exact (s := 0) rfl).1.trans (by decide +kernel)
  have hq : hop.1.identifier ⟨2⟩ = "\x7bq\x7d" := by decide +kernel
  have hchain := emission_exact (m := chain.2) (g := chain.1) (s := 0) rfl
  refine ⟨rfl, rfl, ?_, hchain.2.2.1.symm.trans (by decide +kernel)⟩
  have hboth : ∃ s ∈ (⟨3⟩ : StateSet), hop.1.isFinal s = true := ⟨1, by decide, by decide +kernel⟩
  have hone : ∃ s ∈ (⟨2⟩ : StateSet), hop.1.isFinal s = true := ⟨1, by decide, by decide +kernel⟩
  rw [hhop]
  simp only [List.flatMap_cons, List.flatMap_nil, Emission.calls, if_pos hboth, if_pos hone,
    identifier_hop, hq]
  rfl

end NFA

end Determinize
