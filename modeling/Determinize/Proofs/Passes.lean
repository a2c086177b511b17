import Determinize.Proofs.Naming
import Determinize.Proofs.Reruns
import Determinize.Proofs.Trim
import Mathlib.Algebra.Group.Nat.Defs
import Mathlib.Data.List.Sublists

/-!
# How long a run takes

A run of the construction takes sets from its queue, one in each pass of its loop, while expanding a
set may queue others. `Loop` and `Course` follow a run step by step: they count the passes, and list
the constructions on the way. A set is queued when it is registered and not again, but for the first
set, which every run queues. So the passes of a run are bounded by what was queued before, the first
set, and the sets that the run registers; and these run out, since a finite graph has finitely many
sets of states.

Results:
* `exists_loop`, `Loop.eq_drain`: the steps of the loop end, and they end where the loop does;
* `Loop.grows`: every pass pops one set, every new set is queued once, and nothing is unregistered;
* `length_unregistered`, `length_le_of_within`: how many sets there are in a graph, and how many of
  the states of one automaton;
* `run_bounded`: passes and registry of every run, whatever runs came before.
-/
namespace Determinize

namespace Construction

variable {σ ε : Type}

/-- A set under expansion, its identifier, and the symbols that are left. -/
structure Expanding where
  subset : StateSet
  source : String
  symbols : List Char

/-- The loop of a run, step by step, from a construction and a builder, with the set under expansion
if there is one: it makes `k` passes through the constructions of a list and ends with `p`. -/
inductive Loop (b : Builder σ ε) (m : NFA) (g : Graph) : Option Expanding → Construction → σ →
    Nat → List Construction → Progress σ ε → Prop
  | done {registry : OrderedMap StateSet String} {s : σ} :
      Loop b m g none ⟨registry, []⟩ s 0 [] ⟨⟨registry, []⟩, s, none⟩
  | lost {registry : OrderedMap StateSet String} {S : StateSet} {queue : List StateSet} {s : σ} :
      registry.get? S = none →
      Loop b m g none ⟨registry, S :: queue⟩ s 1 [⟨registry, queue⟩]
        ⟨⟨registry, queue⟩, s, some (.unregistered S)⟩
  | pop {registry : OrderedMap StateSet String} {S : StateSet} {queue : List StateSet} {s : σ}
      {source : String} {k : Nat} {cs : List Construction} {p : Progress σ ε} :
      registry.get? S = some source →
      Loop b m g (some ⟨S, source, m.alphabet⟩) ⟨registry, queue⟩ s k cs p →
      Loop b m g none ⟨registry, S :: queue⟩ s (k + 1) (⟨registry, queue⟩ :: cs) p
  | refused {S : StateSet} {source : String} {a : Char} {rest : List Char} {c : Construction}
      {s s' : σ} {e : ε} :
      b.feed s (c.visit g source a (m.step g S a)).2 = (s', some e) →
      Loop b m g (some ⟨S, source, a :: rest⟩) c s 0 [(c.visit g source a (m.step g S a)).1]
        ⟨(c.visit g source a (m.step g S a)).1, s', some (.refused e)⟩
  | taken {S : StateSet} {source : String} {a : Char} {rest : List Char} {c : Construction}
      {s s' : σ} {k : Nat} {cs : List Construction} {p : Progress σ ε} :
      b.feed s (c.visit g source a (m.step g S a)).2 = (s', none) →
      Loop b m g (some ⟨S, source, rest⟩) (c.visit g source a (m.step g S a)).1 s' k cs p →
      Loop b m g (some ⟨S, source, a :: rest⟩) c s k
        ((c.visit g source a (m.step g S a)).1 :: cs) p
  | expanded {S : StateSet} {source : String} {c : Construction} {s : σ} {k : Nat}
      {cs : List Construction} {p : Progress σ ε} :
      Loop b m g none c s k cs p → Loop b m g (some ⟨S, source, []⟩) c s k cs p

/-- The outcome of a run whose loop ends with `p`. -/
def outcome (p : Progress σ ε) : Outcome σ ε :=
  match p.fault with
  | some e => ⟨p.construction, p.builder, .error e⟩
  | none => ⟨p.construction, p.builder, .ok p.construction.subsets⟩

/-- A run, step by step: it makes `k` passes through the constructions of a list and ends with an
outcome. -/
inductive Course (b : Builder σ ε) (m : NFA) (g : Graph) (c : Construction) (s : σ) :
    Nat → List Construction → Outcome σ ε → Prop
  | missing : m.start = none → Course b m g c s 0 [] ⟨c, s, .error .missingStart⟩
  | refused {q : StateId} {s' : σ} {e : ε} : m.start = some q →
      b.feed s (openingCalls g (m.closed g q)) = (s', some e) →
      Course b m g c s 0 [c.register g (m.closed g q)]
        ⟨c.register g (m.closed g q), s', .error (.refused e)⟩
  | looped {q : StateId} {s' : σ} {k : Nat} {cs : List Construction} {p : Progress σ ε} :
      m.start = some q → b.feed s (openingCalls g (m.closed g q)) = (s', none) →
      Loop b m g none (c.register g (m.closed g q)) s' k cs p →
      Course b m g c s k (c.register g (m.closed g q) :: cs) (outcome p)

variable {b : Builder σ ε} {m : NFA} {g : Graph} {c : Construction} {s : σ}

/-! ## The steps end -/

theorem loop_of_fault {S : StateSet} {source : String} {symbols : List Char} {f : Fault ε}
    (h : (expand b m g S source symbols c s).fault = some f) :
    ∃ cs, Loop b m g (some ⟨S, source, symbols⟩) c s 0 cs
      (expand b m g S source symbols c s) := by
  induction symbols generalizing c s with
  | nil => cases h
  | cons a rest ih =>
    rw [expand] at h ⊢
    cases hf : b.feed s (c.visit g source a (m.step g S a)).2 with
    | mk s' r =>
      simp only [hf] at h ⊢
      cases r with
      | some e => exact ⟨_, .refused hf⟩
      | none =>
        obtain ⟨cs, hloop⟩ := ih h
        exact ⟨_, .taken hf hloop⟩

theorem loop_of_expanded {S : StateSet} {source : String} {symbols : List Char} {k : Nat}
    {cs : List Construction} {p : Progress σ ε}
    (h : (expand b m g S source symbols c s).fault = none)
    (hloop : Loop b m g none (expand b m g S source symbols c s).construction
      (expand b m g S source symbols c s).builder k cs p) :
    ∃ cs', Loop b m g (some ⟨S, source, symbols⟩) c s k cs' p := by
  induction symbols generalizing c s with
  | nil => exact ⟨cs, .expanded hloop⟩
  | cons a rest ih =>
    rw [expand] at h hloop
    cases hf : b.feed s (c.visit g source a (m.step g S a)).2 with
    | mk s' r =>
      simp only [hf] at h hloop
      cases r with
      | some e => cases h
      | none =>
        obtain ⟨cs', hloop'⟩ := ih h hloop
        exact ⟨_, .taken hf hloop'⟩

theorem exists_loop (b : Builder σ ε) (m : NFA) (g : Graph) (c : Construction) (s : σ) :
    ∃ k cs, Loop b m g none c s k cs (drain b m g c s) := by
  induction c, s using drain.induct b m g with
  | case1 registry s =>
    rw [drain]
    exact ⟨0, [], .done⟩
  | case2 registry S queue s hS =>
    rw [drain, hS]
    exact ⟨1, _, .lost hS⟩
  | case3 registry S queue s source hS p f hf =>
    obtain ⟨cs, hloop⟩ := loop_of_fault hf
    rw [drain, hS]
    simp only [show (expand b m g S source m.alphabet ⟨registry, queue⟩ s).fault = some f from hf]
    exact ⟨1, _, .pop hS hloop⟩
  | case4 registry S queue s source hS p hf ih =>
    obtain ⟨k, cs, hloop⟩ := ih
    obtain ⟨cs', hloop'⟩ := loop_of_expanded hf hloop
    rw [drain, hS]
    simp only [show (expand b m g S source m.alphabet ⟨registry, queue⟩ s).fault = none from hf]
    exact ⟨k + 1, _, .pop hS hloop'⟩

theorem exists_course (b : Builder σ ε) (m : NFA) (g : Graph) (c : Construction) (s : σ) :
    ∃ k cs, Course b m g c s k cs (c.run b m g s) := by
  unfold run
  cases hs : m.start with
  | none => exact ⟨0, [], .missing hs⟩
  | some q =>
    simp only
    cases hf : b.feed s (openingCalls g (m.closed g q)) with
    | mk s' r =>
      cases r with
      | some e => exact ⟨0, _, .refused hs hf⟩
      | none =>
        obtain ⟨k, cs, hloop⟩ := exists_loop b m g (c.register g (m.closed g q)) s'
        exact ⟨k, _, .looped hs hf hloop⟩

/-! ## The steps end where the loop does -/

/-- What the loop leaves, where a set may be under expansion. -/
def resume (b : Builder σ ε) (m : NFA) (g : Graph) :
    Option Expanding → Construction → σ → Progress σ ε
  | none, c, s => drain b m g c s
  | some w, c, s =>
    let p := expand b m g w.subset w.source w.symbols c s
    match p.fault with
    | some _ => p
    | none => drain b m g p.construction p.builder

theorem Loop.eq_resume {w : Option Expanding} {k : Nat} {cs : List Construction}
    {p : Progress σ ε} (h : Loop b m g w c s k cs p) : p = resume b m g w c s := by
  induction h with
  | done => rw [resume, drain]
  | lost hS => rw [resume, drain, hS]
  | pop hS _ ih =>
    rw [resume, drain, hS]
    exact ih
  | refused hf => simp only [resume, expand, hf]
  | taken hf _ ih =>
    rw [ih]
    simp only [resume, expand, hf]
  | expanded _ ih => exact ih

theorem Loop.eq_drain {k : Nat} {cs : List Construction} {p : Progress σ ε}
    (h : Loop b m g none c s k cs p) : p = drain b m g c s := h.eq_resume

theorem Course.eq_run {k : Nat} {cs : List Construction} {o : Outcome σ ε}
    (h : Course b m g c s k cs o) : o = c.run b m g s := by
  cases h with
  | missing hs => rw [run_missingStart b g c s hs]
  | refused hs hf => simp only [run, hs, hf]
  | @looped q s' k cs p hs hf hloop =>
    have hp := hloop.eq_drain
    subst hp
    cases hfault : (drain b m g (c.register g (m.closed g q)) s').fault <;>
      simp only [run, hs, hf, outcome, hfault]

/-! ## What the steps change -/

/-- Meeting a set queues it exactly if it registers it. -/
theorem visit_grows (g : Graph) (c : Construction) (source : String) (a : Char) (T : StateSet) :
    ∃ news, (c.visit g source a T).1.registry.keys = c.registry.keys ++ news ∧
      (c.visit g source a T).1.queue = c.queue ++ news := by
  by_cases hT : T ∈ c.registry
  · obtain ⟨target, h⟩ := Option.isSome_iff_exists.mp (OrderedMap.mem_iff_get?_isSome.mp hT)
    rw [visit_known source a h]
    exact ⟨[], by simp, by simp⟩
  · rw [visit_new source a hT]
    exact ⟨[T], keys_register hT, rfl⟩

/-- Every pass pops one set, every new set is queued once, and on the way nothing is registered that
is not registered in the end. -/
theorem Loop.grows {w : Option Expanding} {k : Nat} {cs : List Construction} {p : Progress σ ε}
    (h : Loop b m g w c s k cs p) :
    ∃ news, p.construction.registry.keys = c.registry.keys ++ news ∧
      k + p.construction.queue.length = c.queue.length + news.length ∧
      ∀ c' ∈ cs, c'.registry.keys <+: p.construction.registry.keys := by
  induction h with
  | done => exact ⟨[], by simp, by simp, by simp⟩
  | lost hS => exact ⟨[], by simp, by simp [Nat.add_comm], by simp⟩
  | pop hS _ ih =>
    obtain ⟨news, hkeys, hcount, hway⟩ := ih
    simp only at hkeys hcount
    refine ⟨news, hkeys, ?_, List.forall_mem_cons.mpr ⟨⟨news, hkeys.symm⟩, hway⟩⟩
    simp only [List.length_cons]
    omega
  | @refused S source a rest c s s' e hf =>
    obtain ⟨news, hkeys, hqueue⟩ := visit_grows g c source a (m.step g S a)
    exact ⟨news, hkeys, by simp [hqueue], by simp⟩
  | @taken S source a rest c s s' k cs p hf _ ih =>
    obtain ⟨first, hfirst, hqueue⟩ := visit_grows g c source a (m.step g S a)
    obtain ⟨news, hkeys, hcount, hway⟩ := ih
    refine ⟨first ++ news, ?_, ?_, List.forall_mem_cons.mpr ⟨⟨news, hkeys.symm⟩, hway⟩⟩
    · rw [hkeys, hfirst, List.append_assoc]
    · rw [hcount, hqueue, List.length_append, List.length_append, Nat.add_assoc]
  | expanded _ ih => exact ih

theorem construction_outcome (p : Progress σ ε) : (outcome p).construction = p.construction := by
  unfold outcome
  split <;> rfl

/-- Besides what was queued before and what is new, only the first set is popped or left. -/
theorem Course.grows {k : Nat} {cs : List Construction} {o : Outcome σ ε}
    (h : Course b m g c s k cs o) :
    ∃ news, o.construction.registry.keys = c.registry.keys ++ news ∧
      k + o.construction.queue.length ≤ c.queue.length + 1 + news.length ∧
      ∀ c' ∈ cs, c'.registry.keys <+: o.construction.registry.keys := by
  have hfirst : ∀ S, ∃ news, (c.register g S).registry.keys = c.registry.keys ++ news := by
    intro S
    rw [register, OrderedMap.keys_put]
    split
    · exact ⟨[], by simp⟩
    · exact ⟨[S], rfl⟩
  cases h with
  | missing hs => exact ⟨[], by simp, by simp, by simp⟩
  | @refused q s' e hs hf =>
    obtain ⟨first, hkeys⟩ := hfirst (m.closed g q)
    exact ⟨first, hkeys, by simp [register], by simp⟩
  | @looped q s' k cs p hs hf hloop =>
    -- The first set is queued also where it was registered before, so it may be popped twice.
    obtain ⟨first, hkeys⟩ := hfirst (m.closed g q)
    obtain ⟨news, hnews, hcount, hway⟩ := hloop.grows
    rw [construction_outcome]
    refine ⟨first ++ news, ?_, ?_, List.forall_mem_cons.mpr ⟨⟨news, hnews.symm⟩, hway⟩⟩
    · rw [hnews, hkeys, List.append_assoc]
    · simp only [register, List.length_append, List.length_singleton] at hcount ⊢
      omega

/-! ## How many sets there are -/

/-- All sets of states of the graph are registered or not. -/
theorem length_unregistered (h : ∀ S ∈ c.registry, ∀ t ∈ S, t < g.size) :
    (c.unregistered g).length + c.registry.size = 2 ^ g.size := by
  have hinj : ∀ S T : StateSet, S.bits = T.bits → S = T := fun S T he => by
    cases S
    cases T
    exact congrArg _ he
  have hkeys : (c.registry.keys.map StateSet.bits).Perm
      ((List.range (1 <<< g.size)).filter fun b => (⟨b⟩ : StateSet) ∈ c.registry) := by
    rw [List.perm_ext_iff_of_nodup (c.registry.nodup_keys.map hinj)
      (List.Nodup.sublist List.filter_sublist List.nodup_range)]
    intro n
    rw [List.mem_map, List.mem_filter, List.mem_range, decide_eq_true_eq]
    refine ⟨fun ⟨S, hS, hn⟩ => ?_, fun ⟨_, hn⟩ => ⟨⟨n⟩, hn, rfl⟩⟩
    subst hn
    exact ⟨StateSet.bits_lt_iff.mpr (h S hS), hS⟩
  have hall := List.length_eq_length_filter_add (l := List.range (1 <<< g.size))
    fun n => decide ((⟨n⟩ : StateSet) ∈ c.registry)
  rw [← hkeys.length_eq, List.length_map, OrderedMap.length_keys, List.length_range] at hall
  simp only [unregistered, decide_not, ← Nat.one_shiftLeft]
  omega

end Construction

namespace NFA

variable {m : NFA} {g : Graph}

theorem mem_values_of_knows {s : StateId} (h : m.Knows s) : s ∈ m.states.values := by
  obtain ⟨name, hn⟩ := h
  exact List.mem_map.mpr ⟨(name, s), OrderedMap.mem_entries_iff.mpr hn, rfl⟩

/-- An automaton with `n` states has no more than `2 ^ n` sets of states: each is told by which of
the states it holds. -/
theorem length_le_of_within {l : List StateSet} (hn : l.Nodup) (hl : ∀ S ∈ l, m.Within S) :
    l.length ≤ 2 ^ m.size := by
  have hmembers : (l.map fun S => m.states.values.filter fun s => s ∈ S).Nodup := by
    refine hn.map_on fun S hS T hT he => StateSet.ext fun s => ?_
    have hs : s ∈ m.states.values → (s ∈ S ↔ s ∈ T) := fun hv => by
      have hmem := congrArg (fun k => s ∈ k) he
      simpa [hv] using hmem
    exact ⟨fun h => (hs (mem_values_of_knows (hl S hS s h))).mp h,
      fun h => (hs (mem_values_of_knows (hl T hT s h))).mpr h⟩
  have hsub : (l.map fun S => m.states.values.filter fun s => s ∈ S) ⊆
      m.states.values.sublists := by
    intro k hk
    obtain ⟨S, -, rfl⟩ := List.mem_map.mp hk
    exact List.mem_sublists.mpr List.filter_sublist
  have hlen := hmembers.length_le_of_subset hsub
  rw [List.length_map, List.length_sublists, OrderedMap.values, List.length_map] at hlen
  exact hlen

/-- Reached sets are sets of states of the graph. -/
theorem Reached.lt {S : StateSet} (h : m.Reached g S) (hs : ∀ s, m.start = some s → s < g.size) :
    ∀ t ∈ S, t < g.size := by
  cases h with
  | start hq =>
    refine Graph.lt_of_mem_closure fun t ht => ?_
    rw [StateSet.mem_singleton.mp ht]
    exact hs _ hq
  | step _ _ => exact m.step_within g _ _

/-- A conversion returns no more states than there are sets of states of the automaton. -/
theorem size_toDFA_le (h : Inv false g m) {q : StateId} (hs : m.start = some q) {d : DFA}
    (hd : m.toDFA g = .ok d) : d.size ≤ 2 ^ m.size := by
  have hids := length_insertAll_le ((m.order g).map g.identifier) []
  have hsets := length_le_of_within (nodup_order m g) fun S hS => ((mem_order hs).mp hS).within h
  rw [List.length_nil, Nat.zero_add, List.length_map] at hids
  rw [DFA.size, states_toDFA hs hd, keys_mapping]
  exact hids.trans hsets

end NFA

namespace Construction

/-- Every run goes through its steps to an end, whatever runs with refusals came before, and there
is no other way to go. Each pass takes one set from the queue; the passes, with the sets left in the
queue, are no more than the sets queued before, one, and the sets newly registered. These are no
more than the sets of states of the graph that were not registered, which together with those that
were are all `2 ^ g.size`. For an automaton whose edges all come from its own calls, no more than
`2 ^ m.size` sets are registered at any point, and a conversion returns no more states than that. -/
theorem run_bounded {m : NFA} {g : Graph} {raw : Bool} {q : StateId} {logs : List Log}
    {c : Construction} {σ ε : Type} (h : NFA.History raw g m) (hs : m.start = some q)
    (hr : Runs m g logs c) (b : Builder σ ε) (s : σ) :
    (∃ k cs, Course b m g c s k cs (c.run b m g s)) ∧
    (∀ k cs o, Course b m g c s k cs o → o = c.run b m g s ∧ ∃ news,
      o.construction.registry.keys = c.registry.keys ++ news ∧
      k + o.construction.queue.length ≤ c.queue.length + 1 + news.length ∧
      news.length ≤ (c.unregistered g).length ∧
      (raw = false → ∀ c' ∈ c :: o.construction :: cs, c'.registry.size ≤ 2 ^ m.size)) ∧
    (c.unregistered g).length + c.registry.size = 2 ^ g.size ∧
    (raw = false → ∀ d, m.toDFA g = .ok d → d.size ≤ 2 ^ m.size) := by
  have hstart : ∀ t, m.start = some t → t < g.size := fun t ht => h.inv.lt (h.inv.start ht)
  have hall : ∀ {logs' c'}, Runs m g logs' c' →
      (c'.unregistered g).length + c'.registry.size = 2 ^ g.size := fun hc' =>
    length_unregistered fun S hS => ((hc'.kept hs).reached S hS).lt hstart
  refine ⟨exists_course b m g c s, fun k cs o hcourse => ?_, hall hr, fun hraw d hd => ?_⟩
  · have ho := hcourse.eq_run
    have hnext := Runs.run b s hr
    obtain ⟨news, hkeys, hpasses, hway⟩ := hcourse.grows
    refine ⟨ho, news, hkeys, hpasses, ?_, fun hraw c' hc' => ?_⟩
    · have hbefore := hall hr
      have hafter := hall hnext
      rw [← ho, ← OrderedMap.length_keys, hkeys, List.length_append,
        OrderedMap.length_keys] at hafter
      omega
    · subst hraw
      have hprefix : c'.registry.keys <+: o.construction.registry.keys := by
        rcases List.mem_cons.mp hc' with rfl | hc'
        · exact ⟨news, hkeys.symm⟩
        · rcases List.mem_cons.mp hc' with rfl | hc'
          · exact List.prefix_refl _
          · exact hway c' hc'
      rw [← OrderedMap.length_keys]
      refine NFA.length_le_of_within c'.registry.nodup_keys fun S hS => ?_
      have hreached := (hnext.kept hs).reached S (ho ▸ hprefix.subset hS)
      exact hreached.within h.inv
  · subst hraw
    exact NFA.size_toDFA_le h.inv hs hd

/-- Behind a run of which the third call was refused one set is queued and two are not registered,
so the next run, which queues the first set again, makes no more than four passes. -/
theorem run_bounded_chain : NFA.History false NFA.chain.1 NFA.chain.2 ∧
    ∃ c l, Runs NFA.chain.2 NFA.chain.1 [l] c ∧ c.queue.length = 1 ∧ c.registry.size = 2 ∧
      ∃ k cs, Course Builder.silent NFA.chain.2 NFA.chain.1 c () k cs
        (c.run Builder.silent NFA.chain.2 NFA.chain.1 ()) ∧ k ≤ 4 := by
  have hhistory : NFA.History false NFA.chain.1 NFA.chain.2 := (NFA.History.new ∅ {}).calls _
  have hruns := Runs.new.run (m := NFA.chain.2) (g := NFA.chain.1) Recorder.builder
    (Recorder.new [3])
  refine ⟨hhistory, _, _, hruns, by decide +kernel, by decide +kernel, ?_⟩
  obtain ⟨⟨k, cs, hcourse⟩, hall, -⟩ :=
    run_bounded hhistory (q := 0) rfl hruns Builder.silent ()
  obtain ⟨-, news, -, hpasses, hnews, -⟩ := hall k cs _ hcourse
  have hqueue : (Construction.run Recorder.builder NFA.chain.2 NFA.chain.1 ∅
      (Recorder.new [3])).construction.queue.length = 1 := by decide +kernel
  have hfree : ((Construction.run Recorder.builder NFA.chain.2 NFA.chain.1 ∅
      (Recorder.new [3])).construction.unregistered NFA.chain.1).length = 2 := by decide +kernel
  exact ⟨k, cs, hcourse, by omega⟩

end Construction

end Determinize
