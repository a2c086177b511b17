import Determinize.Proofs.Feeding
import Determinize.Proofs.Passes
import Determinize.Proofs.Replay

/-!
# Doing it again

A conversion may be repeated into the automaton that it filled, and a construction may be run again
behind a run that went through. The first finds all that it tells there already, whatever else the
automaton holds. The second finds the first set and all that it steps to registered, so it tells no
more than the first set and its transitions. Every run queues the first set once more, also one that
is refused; what refused runs leave queued is expanded by the next run that goes through, so that
the transitions are told again for each entry of the queue.

Results:
* `Contains`, `take_of_contains`, `feed_of_contains`: calls that say nothing new change nothing;
* `feed_again`, `determinize_again`: calls that were taken are taken again and change nothing;
* `settled_of_run`, `Settled.run`: a run that goes through settles the first set, and every further
  run, also one that is refused, keeps it settled;
* `Settled.follows`: what a run tells that finds the first set settled;
* `Further.settled`: what further runs leave, taken and refused ones;
* `repetition_idempotent`: both kinds of repetition;
* `repetition_expands_again`: a run behind a refused one tells the transitions twice.
-/
namespace Determinize

/-! ## The same calls to an automaton -/

namespace DFA

/-- The automaton holds all that a call says. -/
def Contains (d : DFA) : Call → Prop
  | .start id => id ∈ d.states ∧ d.init = some id
  | .state id => id ∈ d.states
  | .final id => id ∈ d.states ∧ id ∈ d.accepting
  | .transition source symbol target =>
    source ∈ d.states ∧ target ∈ d.states ∧ symbol ∈ d.alphabet ∧
      d.next? source symbol = some target

variable {d d' : DFA} {c : Call} {l : List Call}

theorem addState_of_mem {id : String} (h : id ∈ d.states) : d.addState id = d := by
  rw [addState, insertNew_of_mem h]

theorem link_of_contains {q a t : String} (h : d.Contains (.transition q a t)) :
    d.link q a t = d := by
  obtain ⟨hq, ht, ha, hnext⟩ := h
  rw [link, addState_of_mem hq, addState_of_mem ht, insertNew_of_mem ha,
    OrderedMap.put_of_get? hnext]

theorem take_of_contains (h : d.Contains c) : d.take c = (d, none) := by
  cases c with
  | start id => rw [take, addStart, addState_of_mem h.1, ← h.2]
  | state id => rw [take, addState_of_mem h]
  | final id => rw [take, addFinal, addState_of_mem h.1, insertNew_of_mem h.2]
  | transition q a t =>
    have hfree : ∀ u, d.next? q a = some u → u = t := fun u hu =>
      Option.some.inj (hu.symm.trans h.2.2.2)
    rw [take, addTransition_of_free hfree, link_of_contains h]

theorem feed_of_contains (h : ∀ c ∈ l, d.Contains c) : builder.feed d l = (d, none) := by
  induction l with
  | nil => rfl
  | cons c l ih =>
    rw [List.forall_mem_cons] at h
    have ht : builder.take d c = (d, none) := take_of_contains h.1
    simp only [Builder.feed, ht]
    exact ih h.2

/-- What was said and taken is there afterwards; of several starts only the last is. -/
theorem contains_of_feed (h : builder.feed d l = (d', none))
    (hstart : ∀ id, .start id ∈ l → d'.init = some id) : ∀ c ∈ l, d'.Contains c := by
  intro c hc
  obtain ⟨hstates, halphabet⟩ := feed_lists h
  have hx := feed_extends h
  have hstate : ∀ id ∈ c.mentioned, id ∈ d'.states := fun id hid => by
    rw [hstates, mem_insertAll]
    exact Or.inl (List.mem_flatMap.mpr ⟨c, hc, hid⟩)
  cases c with
  | start id => exact ⟨hstate id (by simp [Call.mentioned]), hstart id hc⟩
  | state id => exact hstate id (by simp [Call.mentioned])
  | final id =>
    exact ⟨hstate id (by simp [Call.mentioned]), (hx.accepting id).mpr (Or.inr hc)⟩
  | transition q a t =>
    have ha : a ∈ d'.alphabet := by
      rw [halphabet, mem_insertAll]
      exact Or.inl (List.mem_flatMap.mpr ⟨_, hc, by simp [Call.used]⟩)
    exact ⟨hstate q (by simp [Call.mentioned]), hstate t (by simp [Call.mentioned]), ha,
      (hx.next q a t).mpr (Or.inr hc)⟩

/-- Calls with one start, which comes first, are taken again and change nothing. -/
theorem feed_again {i : String} (h : builder.feed d (.start i :: l) = (d', none))
    (hl : ∀ id, .start id ∉ l) : builder.feed d' (.start i :: l) = (d', none) := by
  have htail : builder.feed (d.addStart i) l = (d', none) := h
  refine feed_of_contains (contains_of_feed h fun id hid => ?_)
  rcases List.mem_cons.mp hid with he | hid
  · cases he
    exact (feed_extends htail).init hl
  · exact absurd hid (hl id)

end DFA

namespace NFA

variable {m : NFA} {g : Graph}

theorem start_of_ok {σ ε : Type} {b : Builder σ ε} {c : Construction} {t : σ} {found : SubsetMap}
    (h : (c.run b m g t).result = .ok found) : ∃ q, m.start = some q := by
  cases hs : m.start with
  | some q => exact ⟨q, rfl⟩
  | none =>
    rw [Construction.run_missingStart b g c t hs] at h
    cases h

/-- A conversion that went through goes through again and changes nothing. -/
theorem determinize_again {d : DFA} {found : SubsetMap}
    (h : (m.determinize DFA.builder g d).result = .ok found) :
    (m.determinize DFA.builder g (m.determinize DFA.builder g d).builder).result = .ok found ∧
    (m.determinize DFA.builder g (m.determinize DFA.builder g d).builder).builder =
      (m.determinize DFA.builder g d).builder := by
  obtain ⟨q, hs⟩ := start_of_ok h
  rcases determinize_cut (g := g) hs DFA.builder d with ⟨hfeed, hok⟩ | ⟨e, _, _, _, _, -, -, -, he⟩
  · obtain ⟨rest, hcalls, hrest⟩ := calls_eq (g := g) hs
    rw [recorded_eq_calls hs, hcalls] at hfeed
    have hagain := DFA.feed_again hfeed hrest
    rw [← hcalls, ← recorded_eq_calls hs] at hagain
    obtain ⟨hb, hr⟩ := determinize_recorded (g := g) hs DFA.builder
      (m.determinize DFA.builder g d).builder
    rw [hb, hr, hagain, ← h, hok]
    exact ⟨rfl, rfl⟩
  · rw [he] at h
    cases h

end NFA

/-! ## Another run of a construction -/

namespace NFA

variable {m : NFA} {g : Graph} {seen : List StateSet}

theorem fresh_known {l : List (StateSet × Char)} (h : ∀ p ∈ l, m.step g p.1 p.2 ∈ seen) :
    m.fresh g seen l = [] := by
  induction l with
  | nil => rfl
  | cons p l ih =>
    rw [List.forall_mem_cons] at h
    rw [fresh, if_pos h.1]
    exact ih h.2

theorem script_known {l : List (StateSet × Char)} (h : ∀ p ∈ l, m.step g p.1 p.2 ∈ seen) :
    m.script g seen l = l.map fun p => .link p.1 p.2 (m.step g p.1 p.2) := by
  induction l with
  | nil => rfl
  | cons p l ih =>
    rw [List.forall_mem_cons] at h
    rw [script, if_pos h.1, ih h.2, List.map_cons]

/-- If all targets of the waiting sets are known, nothing is met. -/
theorem explores_known {queue : List StateSet}
    (h : ∀ S ∈ queue, ∀ a ∈ m.alphabet, m.step g S a ∈ seen) : m.Explores g seen queue [] := by
  induction queue with
  | nil => exact .done seen
  | cons S queue ih =>
    rw [List.forall_mem_cons] at h
    have hfresh : m.fresh g seen (m.pairs [S]) = [] := fresh_known fun p hp => by
      obtain ⟨T, a⟩ := p
      rw [mem_pairs, List.mem_singleton] at hp
      exact hp.1 ▸ h.1 a hp.2
    have hnext : m.Explores g (seen ++ m.fresh g seen (m.pairs [S]))
        (queue ++ m.fresh g seen (m.pairs [S])) [] := by
      rw [hfresh, List.append_nil, List.append_nil]
      exact ih h.2
    have hall := Explores.next S hnext
    rwa [hfresh] at hall

end NFA

namespace Construction

/-- The set `S` is registered with all that it steps to, and nothing else waits. -/
structure Settled (m : NFA) (g : Graph) (S : StateSet) (c : Construction) : Prop where
  inv : c.Inv g
  first : S ∈ c.registry
  targets : ∀ a ∈ m.alphabet, m.step g S a ∈ c.registry
  waiting : ∀ T ∈ c.queue, T = S

/-- The transition of a set on a symbol, as a call. -/
def transition (m : NFA) (g : Graph) (S : StateSet) (a : Char) : Call :=
  .transition (g.identifier S) (String.singleton a) (g.identifier (m.step g S a))

variable {σ ε : Type} {m : NFA} {g : Graph} {c : Construction} {S : StateSet} {q : StateId}

theorem calls_links (m : NFA) (g : Graph) (order : List StateSet) :
    ((m.pairs order).map fun p => Emission.link p.1 p.2 (m.step g p.1 p.2)).flatMap
      (Emission.calls g) = order.flatMap fun S => m.alphabet.map (transition m g S) := by
  induction order with
  | nil => rfl
  | cons S order ih =>
    have hone : ((m.alphabet.map fun a => (S, a)).map fun p =>
        Emission.link p.1 p.2 (m.step g p.1 p.2)).flatMap (Emission.calls g) =
        m.alphabet.map (transition m g S) := by
      rw [List.map_map, List.flatMap_map, List.map_eq_flatMap]
      rfl
    rw [NFA.pairs, List.flatMap_cons, List.map_append, List.flatMap_append, hone,
      List.flatMap_cons]
    exact congrArg _ ih

theorem register_of_mem (hc : c.Inv g) (hS : S ∈ c.registry) :
    c.register g S = ⟨c.registry, c.queue ++ [S]⟩ := by
  rw [register, OrderedMap.put_of_get? (hc.get? hS)]

/-- Behind a run that went through nothing waits, and the first set was expanded in it, whatever
refused runs came before. -/
theorem settled_of_run {logs : List Log} (hr : Runs m g logs c) (hs : m.start = some q)
    {b : Builder σ ε} {t : σ} {found : SubsetMap} (hok : (c.run b m g t).result = .ok found) :
    Settled m g (m.closed g q) (c.run b m g t).construction ∧
      (c.run b m g t).construction.queue = [] ∧
      found = (c.run b m g t).construction.subsets := by
  obtain ⟨hacc, hdescribed, hfirst, hwait⟩ := run_accounts b (hr.kept hs).inv hs t
  rcases hdescribed with ⟨-, hresult, hi, hq, -⟩ | ⟨e, t', f, -, hresult, -⟩
  · rw [hq, hi] at hwait
    have hexpands : (c.log b m g t).Expands m g (m.closed g q) := by
      rcases hwait with hw | he | hb
      · exact absurd hw List.not_mem_nil
      · exact he
      · cases hb
    refine ⟨⟨hacc.inv, hfirst, fun a ha => hacc.links _ _ _ (hexpands a ha), fun T hT => ?_⟩,
      hq, ?_⟩
    · rw [hq] at hT
      exact absurd hT List.not_mem_nil
    · rw [hresult] at hok
      exact (Except.ok.inj hok).symm
  · rw [hresult] at hok
    cases hok

/-- What a run tells that finds the first set settled: that set, and its transitions `n` times. -/
def repeated (m : NFA) (g : Graph) (S : StateSet) (n : Nat) : List Call :=
  (Emission.opening S).calls g ++ (List.replicate n (m.alphabet.map (transition m g S))).flatten

/-- Nothing else waits, so the queue is known by its length. -/
theorem Settled.queue_eq (h : Settled m g S c) : c.queue = List.replicate c.queue.length S :=
  List.eq_replicate_iff.mpr ⟨rfl, h.waiting⟩

/-- A run that finds the first set settled tells that set and its transitions, once for each entry
of the queue and once more, and leaves the registry as it was. -/
theorem Settled.follows (h : Settled m g (m.closed g q) c) (hs : m.start = some q)
    (b : Builder σ ε) (t : σ) : (c.run b m g t).Follows
      (b.feed t (repeated m g (m.closed g q) (c.queue.length + 1))) ⟨c.registry, []⟩ := by
  have hregister := register_of_mem h.inv h.first
  have hlist : c.queue ++ [m.closed g q] =
      List.replicate (c.queue.length + 1) (m.closed g q) := by
    rw [List.replicate_succ', ← h.queue_eq]
  have hqueue : ∀ T ∈ c.queue ++ [m.closed g q], ∀ a ∈ m.alphabet,
      m.step g T a ∈ c.registry.keys := by
    intro T hT a ha
    rcases List.mem_append.mp hT with hT | hT
    · exact h.waiting T hT ▸ h.targets a ha
    · exact List.mem_singleton.mp hT ▸ h.targets a ha
  have hexplores : m.Explores g (c.register g (m.closed g q)).registry.keys
      (c.queue ++ [m.closed g q]) [] := by
    rw [hregister]
    exact NFA.explores_known hqueue
  have hscript : m.script g c.registry.keys (m.pairs (c.queue ++ [m.closed g q])) =
      (m.pairs (c.queue ++ [m.closed g q])).map fun p => .link p.1 p.2 (m.step g p.1 p.2) :=
    NFA.script_known fun p hp => hqueue p.1 (NFA.mem_pairs.mp hp).1 p.2 (NFA.mem_pairs.mp hp).2
  have hrun := run_follows b h.inv hs hexplores t
  rw [hregister, List.append_nil, List.flatMap_cons, hscript, calls_links, hlist,
    List.flatMap_replicate] at hrun
  exact hrun

/-! ## Runs that go through and runs that are refused -/

theorem Settled.pop {registry : OrderedMap StateSet String} {T : StateSet} {queue : List StateSet}
    (h : Settled m g S ⟨registry, T :: queue⟩) : Settled m g S ⟨registry, queue⟩ :=
  ⟨h.inv.pop, h.first, h.targets, fun U hU => h.waiting U (List.mem_cons_of_mem _ hU)⟩

theorem Settled.register (h : Settled m g S c) :
    Settled m g S (c.register g S) ∧ (c.register g S).registry = c.registry := by
  have he := register_of_mem h.inv h.first
  refine ⟨⟨inv_register h.inv S, ?_, ?_, fun T hT => ?_⟩, ?_⟩
  · rw [he]
    exact h.first
  · rw [he]
    exact h.targets
  · rw [he] at hT
    exact (List.mem_append.mp hT).elim (h.waiting T) List.mem_singleton.mp
  · rw [he]

/-- Every step of the loop finds its target known, so nothing but the settled set is ever queued. -/
theorem Loop.settled {b : Builder σ ε} {w : Option Expanding} {t : σ} {k : Nat}
    {cs : List Construction} {p : Progress σ ε} (hl : Loop b m g w c t k cs p)
    (h : Settled m g S c)
    (hw : ∀ x, w = some x → x.subset = S ∧ ∀ a ∈ x.symbols, a ∈ m.alphabet) :
    Settled m g S p.construction ∧ p.construction.registry = c.registry := by
  have hvisit : ∀ {c : Construction} {source : String} {a : Char}, Settled m g S c →
      a ∈ m.alphabet → (c.visit g source a (m.step g S a)).1 = c := fun h ha => by
    rw [visit_known _ _ (h.inv.get? (h.targets _ ha))]
  induction hl with
  | done => exact ⟨h, rfl⟩
  | lost hT => exact ⟨h.pop, rfl⟩
  | pop hT _ ih =>
    refine ih h.pop fun x hx => ?_
    cases hx
    exact ⟨h.waiting _ List.mem_cons_self, fun a ha => ha⟩
  | refused hf =>
    obtain ⟨rfl, hsymbols⟩ := hw _ rfl
    rw [hvisit h (hsymbols _ List.mem_cons_self)]
    exact ⟨h, rfl⟩
  | taken hf _ ih =>
    obtain ⟨rfl, hsymbols⟩ := hw _ rfl
    rw [hvisit h (hsymbols _ List.mem_cons_self)] at ih
    refine ih h fun x hx => ?_
    cases hx
    exact ⟨rfl, fun a ha => hsymbols a (List.mem_cons_of_mem _ ha)⟩
  | expanded _ ih => exact ih h fun x hx => by cases hx

/-- What is settled stays so in every further run, also in one that is refused, and nothing is
registered then. -/
theorem Settled.run (h : Settled m g (m.closed g q) c) (hs : m.start = some q) (b : Builder σ ε)
    (t : σ) : Settled m g (m.closed g q) (c.run b m g t).construction ∧
      (c.run b m g t).construction.registry = c.registry := by
  obtain ⟨k, cs, hcourse⟩ := exists_course b m g c t
  generalize c.run b m g t = o at hcourse
  have hfirst : ∀ r, m.start = some r → Settled m g (m.closed g q) (c.register g (m.closed g r)) ∧
      (c.register g (m.closed g r)).registry = c.registry := fun r hr => by
    cases hs.symm.trans hr
    exact h.register
  cases hcourse with
  | missing hn => exact ⟨h, rfl⟩
  | refused hr hf => exact hfirst _ hr
  | looped hr hf hloop =>
    obtain ⟨hset, hkept⟩ := hloop.settled (hfirst _ hr).1 fun x hx => by cases hx
    rw [construction_outcome]
    exact ⟨hset, hkept.trans (hfirst _ hr).2⟩

/-- A run into a builder that takes every call goes through. -/
theorem Inv.run_total (hc : c.Inv g) (hs : m.start = some q) {b : Builder σ ε}
    (hb : ∀ t call, (b.take t call).2 = none) (t : σ) :
    ∃ found, (c.run b m g t).result = .ok found := by
  obtain ⟨news, h⟩ := exists_explores m (inv_register hc (m.closed g q))
  have hrun := (run_follows b hc hs h t).eq_of_taken (b.feed_total hb t _)
  exact ⟨_, congrArg Outcome.result hrun⟩

/-- Further runs of a construction, each into any builder, that leave `c'`; `k` of them were refused
behind the last one that went through. -/
inductive Further (m : NFA) (g : Graph) (c : Construction) : Nat → Construction → Prop
  | none : Further m g c 0 c
  | passed {k : Nat} {c' : Construction} {σ ε : Type} {b : Builder σ ε} {t : σ}
      {found : SubsetMap} : Further m g c k c' → (c'.run b m g t).result = .ok found →
      Further m g c 0 (c'.run b m g t).construction
  | refused {k : Nat} {c' : Construction} {σ ε : Type} {b : Builder σ ε} {t : σ} {f : Fault ε} :
      Further m g c k c' → (c'.run b m g t).result = .error f →
      Further m g c (k + 1) (c'.run b m g t).construction

/-- A run leaves one entry more in the queue at most, and none if it goes through. -/
theorem Settled.length_queue (h : Settled m g (m.closed g q) c) (hs : m.start = some q)
    (b : Builder σ ε) (t : σ) : (c.run b m g t).construction.queue.length ≤ c.queue.length + 1 ∧
      ∀ found, (c.run b m g t).result = .ok found → (c.run b m g t).construction.queue = [] := by
  constructor
  · obtain ⟨k, cs, hcourse⟩ := exists_course b m g c t
    obtain ⟨news, hkeys, hcount, -⟩ := hcourse.grows
    rw [(h.run hs b t).2, List.self_eq_append_right] at hkeys
    rw [hkeys, List.length_nil] at hcount
    omega
  · intro found hok
    obtain ⟨-, hresult, hleft⟩ := h.follows hs b t
    cases hf : (b.feed t (repeated m g (m.closed g q) (c.queue.length + 1))).2 with
    | none => rw [hleft hf]
    | some e =>
      rw [hresult, hf] at hok
      cases hok

/-- Further runs register nothing, and each refused one leaves one entry in the queue at most. -/
theorem Further.settled {k : Nat} {c' : Construction} (hf : Further m g c k c')
    (h : Settled m g (m.closed g q) c) (hs : m.start = some q) (hq : c.queue = []) :
    Settled m g (m.closed g q) c' ∧ c'.registry = c.registry ∧ c'.queue.length ≤ k := by
  induction hf with
  | none => exact ⟨h, rfl, by rw [hq, List.length_nil]⟩
  | @passed k c' σ ε b t found _ hok ih =>
    obtain ⟨hset, hregistry, -⟩ := ih
    obtain ⟨hset', hkept⟩ := hset.run hs b t
    refine ⟨hset', hkept.trans hregistry, ?_⟩
    rw [(hset.length_queue hs b t).2 found hok, List.length_nil]
  | @refused k c' σ ε b t f _ _ ih =>
    obtain ⟨hset, hregistry, hlen⟩ := ih
    obtain ⟨hset', hkept⟩ := hset.run hs b t
    have hmore := (hset.length_queue hs b t).1
    exact ⟨hset', hkept.trans hregistry, by omega⟩

end Construction

namespace NFA

open Construction in
/-- A conversion that went through into an automaton, whatever this held, goes through again into
what it left, changes nothing there and returns the same mapping. And behind a run of a construction
that went through, whatever runs came before, nothing is queued. Further runs, into any builders,
register nothing; only the first set is ever queued behind them, at most once for each run that was
refused since the last that went through. A further run into a builder that takes the calls tells it
the first set, that it is final if it has a final member, and its transition on each symbol in
order, the transitions once and once more for each entry of the queue. It declares nothing else,
leaves nothing queued, and returns the same mapping. -/
theorem repetition_idempotent (m : NFA) (g : Graph) :
    (∀ (d : DFA) (found : SubsetMap), (m.determinize DFA.builder g d).result = .ok found →
      (m.determinize DFA.builder g (m.determinize DFA.builder g d).builder).result = .ok found ∧
      (m.determinize DFA.builder g (m.determinize DFA.builder g d).builder).builder =
        (m.determinize DFA.builder g d).builder) ∧
    ∀ (logs : List Log) (c : Construction), Runs m g logs c →
      ∀ {σ ε : Type} (b : Builder σ ε) (s : σ) (found : SubsetMap),
        (c.run b m g s).result = .ok found →
        (c.run b m g s).construction.queue = [] ∧
        ∃ q, m.start = some q ∧ ∀ k c', Further m g (c.run b m g s).construction k c' →
          c'.registry = (c.run b m g s).construction.registry ∧
          ∃ n ≤ k, c'.queue = List.replicate n (m.closed g q) ∧
            (∀ {τ δ : Type} (b' : Builder τ δ) (t : τ),
              (b'.feed t (repeated m g (m.closed g q) (n + 1))).2 = none →
              c'.run b' m g t = ⟨(c.run b m g s).construction,
                (b'.feed t (repeated m g (m.closed g q) (n + 1))).1, .ok found⟩) ∧
            ∀ (j : Nat) (kept : List Call),
              (c'.run Recorder.builder m g ⟨[], j, kept⟩).builder.calls =
                kept ++ repeated m g (m.closed g q) (n + 1) := by
  refine ⟨fun d found => determinize_again, fun logs c hr σ ε b s found hok => ?_⟩
  obtain ⟨q, hs⟩ := start_of_ok hok
  obtain ⟨hsettled, hq, rfl⟩ := settled_of_run hr hs hok
  refine ⟨hq, q, hs, fun k c' hf => ?_⟩
  obtain ⟨hset, hregistry, hlen⟩ := hf.settled hsettled hs hq
  refine ⟨hregistry, c'.queue.length, hlen, hset.queue_eq, fun b' t htaken => ?_, fun j kept => ?_⟩
  · have hrun := (hset.follows hs b' t).eq_of_taken htaken
    have hleft : (⟨c'.registry, []⟩ : Construction) = (c.run b m g s).construction := by
      rw [hregistry, ← hq]
    rw [hrun, hleft]
  · rw [(hset.follows hs Recorder.builder ⟨[], j, kept⟩).builder, Recorder.calls_feed]

open Construction in
/-- What a run of `hop` tells that finds the first subset settled. -/
theorem repeated_hop (n : Nat) : repeated hop.2 hop.1 (hop.2.closed hop.1 0) n =
    .start "\x7bp, q\x7d" :: .final "\x7bp, q\x7d" ::
      List.replicate n (.transition "\x7bp, q\x7d" "a" "\x7bq\x7d") := by
  have hfirst : hop.2.closed hop.1 0 = ⟨3⟩ := by decide +kernel
  have hstep : hop.2.step hop.1 ⟨3⟩ 'a' = ⟨2⟩ := by decide +kernel
  have hq : hop.1.identifier ⟨2⟩ = "\x7bq\x7d" := by decide +kernel
  have hfinal : ∃ s ∈ (⟨3⟩ : StateSet), hop.1.isFinal s = true := ⟨1, by decide, by decide +kernel⟩
  have halphabet : hop.2.alphabet = ['a'] := by decide +kernel
  rw [repeated, hfirst, halphabet, List.map_singleton, transition, hstep, identifier_hop, hq,
    Emission.calls, if_pos hfinal, identifier_hop, List.flatten_replicate_singleton]
  rfl

open Construction in
/-- An automaton that held another state before holds it still after two conversions. Behind a run
that was refused and one that went through, `hop` tells the transition of its first subset once; but
behind one more run that is refused it tells it twice. -/
theorem repetition_idempotent_hop :
    (∃ found, (chain.2.determinize DFA.builder chain.1
        (chain.2.determinize DFA.builder chain.1 (DFA.addFinal ∅ "old")).builder).result =
      .ok found) ∧
    (chain.2.determinize DFA.builder chain.1
        (chain.2.determinize DFA.builder chain.1 (DFA.addFinal ∅ "old")).builder).builder.states =
      ["old", "\x7bp\x7d", "\x7bq\x7d", "\x7b\x7d"] ∧
    ∃ (l : Log) (c c' : Construction), Runs hop.2 hop.1 [l] c ∧
      l.interrupted = some (hop.2.closed hop.1 0) ∧
      ((c.run Builder.silent hop.2 hop.1 ()).construction.run Recorder.builder hop.2 hop.1
          (Recorder.new [])).builder.calls =
        [.start "\x7bp, q\x7d", .final "\x7bp, q\x7d",
          .transition "\x7bp, q\x7d" "a" "\x7bq\x7d"] ∧
      Further hop.2 hop.1 (c.run Builder.silent hop.2 hop.1 ()).construction 1 c' ∧
      (c'.run Recorder.builder hop.2 hop.1 (Recorder.new [])).builder.calls =
        [.start "\x7bp, q\x7d", .final "\x7bp, q\x7d",
          .transition "\x7bp, q\x7d" "a" "\x7bq\x7d",
          .transition "\x7bp, q\x7d" "a" "\x7bq\x7d"] := by
  have hchain : chain.2.start = some 0 := rfl
  have htaken : (DFA.builder.feed (DFA.addFinal ∅ "old") (chain.2.calls chain.1)).2 = none := by
    decide +kernel
  have hfirst := (determinize_follows hchain DFA.builder (DFA.addFinal ∅ "old")).eq_of_taken htaken
  obtain ⟨hresult, hbuilder⟩ :=
    (repetition_idempotent chain.2 chain.1).1 _ _ (congrArg Outcome.result hfirst)
  have hs : hop.2.start = some 0 := rfl
  have hruns := Runs.new.run (m := hop.2) (g := hop.1) Recorder.builder (Recorder.new [4])
  obtain ⟨found, hok⟩ := (hruns.kept hs).inv.run_total hs (b := Builder.silent) (fun _ _ => rfl) ()
  obtain ⟨-, q, hq, hfurther⟩ := (repetition_idempotent hop.2 hop.1).2 _ _ hruns _ _ _ hok
  cases hq.symm.trans hs
  obtain ⟨-, n, hn, -, -, hcalls⟩ := hfurther _ _ .none
  cases Nat.le_zero.mp hn
  have hrefused := Further.none.refused (b := Recorder.builder) (t := Recorder.new [1])
    (m := hop.2) (g := hop.1) (f := .refused ⟨1⟩)
    (c := (((∅ : Construction).run Recorder.builder hop.2 hop.1
      (Recorder.new [4])).construction.run Builder.silent hop.2 hop.1 ()).construction) rfl
  obtain ⟨-, k, hk, hqueue, -, hcalls'⟩ := hfurther _ _ hrefused
  have hlen := congrArg List.length hqueue
  rw [List.length_replicate] at hlen
  cases hlen.symm.trans (show _ = 1 by decide +kernel)
  refine ⟨⟨_, hresult⟩, hbuilder ▸ by decide +kernel, _, _, _, hruns, by decide +kernel,
    (hcalls 0 []).trans ?_, hrefused, (hcalls' 0 []).trans ?_⟩
  · rw [repeated_hop]
    rfl
  · rw [repeated_hop]
    rfl

open Construction in
/-- Three runs of one construction for `hop` into a recorder that refuses its sixth call and is read
behind each run: the first takes five calls and goes through, the second is refused at once, and the
third, of which every call is taken, tells the transition of the first subset twice. So a run that
went through does not make every later one tell it once. -/
theorem repetition_expands_again : ∃ o₁ o₂ o₃ : Outcome Recorder Refusal,
    o₁ = Construction.run Recorder.builder hop.2 hop.1 ∅ (Recorder.new [6]) ∧
    (∃ found, o₁.result = .ok found) ∧
    o₂ = o₁.construction.run Recorder.builder hop.2 hop.1 o₁.builder.emptied ∧
    o₂.result = .error (.refused ⟨6⟩) ∧
    o₃ = o₂.construction.run Recorder.builder hop.2 hop.1 o₂.builder.emptied ∧
    (∃ found, o₃.result = .ok found) ∧
    o₃.builder.calls =
      [.start "\x7bp, q\x7d", .final "\x7bp, q\x7d",
        .transition "\x7bp, q\x7d" "a" "\x7bq\x7d",
        .transition "\x7bp, q\x7d" "a" "\x7bq\x7d"] ∧
    o₃.builder.calls ≠ repeated hop.2 hop.1 (hop.2.closed hop.1 0) 1 := by
  have hs : hop.2.start = some 0 := rfl
  let o₁ := Construction.run Recorder.builder hop.2 hop.1 ∅ (Recorder.new [6])
  have hfive : o₁.builder.emptied = ⟨[6], 5, []⟩ := by decide +kernel
  let o₂ := o₁.construction.run Recorder.builder hop.2 hop.1 o₁.builder.emptied
  have htaken : (Recorder.builder.feed (Recorder.new [6]) (hop.2.calls hop.1)).2 = none := by
    decide +kernel
  have hok := congrArg Outcome.result
    ((determinize_follows hs Recorder.builder (Recorder.new [6])).eq_of_taken htaken)
  have hrefused : o₂.result = .error (.refused ⟨6⟩) := by
    simp only [o₂, hfive]
    rfl
  obtain ⟨hsettled, hempty, -⟩ := settled_of_run .new hs hok
  have hset := ((Further.none.refused hrefused).settled hsettled hs hempty).1
  have hqueue : o₂.construction.queue.length = 1 := by decide +kernel
  have hrecorder : o₂.builder.emptied = ⟨[6], 6, []⟩ := by decide +kernel
  have hrun := hset.follows hs Recorder.builder o₂.builder.emptied
  rw [hqueue, repeated_hop, hrecorder] at hrun
  have hcalls := congrArg Recorder.calls hrun.builder
  refine ⟨o₁, o₂, _, rfl, ⟨_, hok⟩, rfl, hrefused, rfl, ?_, ?_, ?_⟩
  · rw [hrecorder]
    exact ⟨_, hrun.result⟩
  · rw [hrecorder]
    exact hcalls
  · rw [hrecorder, repeated_hop, hcalls]
    decide

end NFA

end Determinize
