import Determinize.Graph
import Mathlib.Logic.Relation

/-!
# Searches in any order, step by step

The search for a closure sees the seeds, puts them on a stack, and then takes one state after the
other off the stack and looks at its targets one by one; a target that was not seen goes onto the
stack. `Traversal.Step` leaves open in which order: any state may be taken off the stack, and its
targets may be looked at in any order.

Results:
* `Traversal.Step.inv`, `Traversal.Step.effort_lt`: what a step keeps, and that less is left to do;
* `Traversal.Steps.length_le`, `Traversal.Inv.next_or_done`: every search ends, and all end alike;
* `reached_iff`, `closure_least`, `closure_union`: the closure as a reflexive and transitive one, as
  a least set and as a union;
* `closure_exact`: all of this for any collection of seeds.
-/
namespace Determinize.Graph

/-- A search on the way: the states seen, those of them whose edges were not followed yet, and the
targets that are left of the state under inspection. -/
structure Traversal where
  seen : StateSet
  stack : List StateId
  targets : List StateId

namespace Traversal

/-- One step: a state is taken off the stack, wherever it is there, or the next of its targets is
looked at. -/
inductive Step (g : Graph) (a : String) : Traversal → Traversal → Prop
  | pop {seen : StateSet} {s : StateId} {stack rest targets : List StateId} :
      stack.Perm (s :: rest) → targets.Perm (g.targets s a).toList →
      Step g a ⟨seen, stack, []⟩ ⟨seen, rest, targets⟩
  | known {seen : StateSet} {t : StateId} {stack targets : List StateId} :
      t ∈ seen → Step g a ⟨seen, stack, t :: targets⟩ ⟨seen, stack, targets⟩
  | found {seen : StateSet} {t : StateId} {stack targets : List StateId} :
      t ∉ seen → Step g a ⟨seen, stack, t :: targets⟩ ⟨insert t seen, t :: stack, targets⟩

/-- A number of steps, one after the other. -/
inductive Steps (g : Graph) (a : String) : Nat → Traversal → Traversal → Prop
  | stop (x : Traversal) : Steps g a 0 x x
  | step {k : Nat} {x y z : Traversal} : Step g a x y → Steps g a k y z → Steps g a (k + 1) x z

/-- What holds on the way from the seeds `S`: the edges of a seen state lead to seen states, unless
it waits on the stack or is under inspection. -/
structure Inv (g : Graph) (a : String) (S : StateSet) (x : Traversal) : Prop where
  seeds : ∀ s ∈ S, s ∈ x.seen
  reached : ∀ s ∈ x.seen, Reached g a S s
  stack : ∀ s ∈ x.stack, s ∈ x.seen
  targets : ∀ t ∈ x.targets, t < g.size ∧ Reached g a S t
  followed : ∀ s ∈ x.seen, s ∉ x.stack → ∀ t ∈ g.targets s a, t ∈ x.seen ∨ t ∈ x.targets

/-- What is left to do: every state that is not seen or waits may still be inspected, and has no
more targets than there are states. -/
def effort (g : Graph) (x : Traversal) : Nat :=
  ((g.unseen x.seen).length + x.stack.length) * (g.size + 1) + x.targets.length

variable {g : Graph} {a : String} {S : StateSet} {x y z : Traversal} {k : Nat}

theorem inv_start {stack : List StateId} (h : stack.Perm S.toList) : Inv g a S ⟨S, stack, []⟩ where
  seeds _ hs := hs
  reached _ hs := .seed hs
  stack _ hs := StateSet.mem_toList.mp (h.mem_iff.mp hs)
  targets _ ht := absurd ht List.not_mem_nil
  followed _ hs hn := absurd (h.mem_iff.mpr (StateSet.mem_toList.mpr hs)) hn

/-! ## One step -/

theorem Step.inv (h : Step g a x y) (hx : Inv g a S x) : Inv g a S y := by
  cases h with
  | @pop seen s stack rest targets hpop htargets =>
    have hs : s ∈ seen := hx.stack s (hpop.mem_iff.mpr List.mem_cons_self)
    have hmem : ∀ t, t ∈ targets ↔ t ∈ g.targets s a := fun t => by
      rw [htargets.mem_iff, StateSet.mem_toList]
    refine ⟨hx.seeds, hx.reached, fun r hr => ?_, fun t ht => ?_, fun r hr hn t ht => ?_⟩
    · exact hx.stack r (hpop.mem_iff.mpr (List.mem_cons_of_mem _ hr))
    · have hst := (hmem t).mp ht
      exact ⟨targets_lt hst, .edge (hx.reached s hs) hst⟩
    · by_cases hrs : r = s
      · exact Or.inr ((hmem t).mpr (hrs ▸ ht))
      · have hstack : r ∉ stack := fun hm => by
          rcases List.mem_cons.mp (hpop.mem_iff.mp hm) with he | hm
          · exact hrs he
          · exact hn hm
        exact Or.inl ((hx.followed r hr hstack t ht).resolve_right List.not_mem_nil)
  | @known seen t stack targets ht =>
    refine ⟨hx.seeds, hx.reached, hx.stack, fun u hu => ?_, fun r hr hn u hu => ?_⟩
    · exact hx.targets u (List.mem_cons_of_mem _ hu)
    · rcases hx.followed r hr hn u hu with hu | hu
      · exact Or.inl hu
      · rcases List.mem_cons.mp hu with rfl | hu
        · exact Or.inl ht
        · exact Or.inr hu
  | @found seen t stack targets ht =>
    have hold : ∀ r ∈ seen, r ∈ (insert t seen : StateSet) := fun r hr =>
      StateSet.mem_insert.mpr (Or.inr hr)
    have hnew : t ∈ (insert t seen : StateSet) := StateSet.mem_insert.mpr (Or.inl rfl)
    refine ⟨fun r hr => hold r (hx.seeds r hr), fun r hr => ?_, fun r hr => ?_, fun u hu => ?_,
      fun r hr hn u hu => ?_⟩
    · rcases StateSet.mem_insert.mp hr with rfl | hr
      · exact (hx.targets r List.mem_cons_self).2
      · exact hx.reached r hr
    · rcases List.mem_cons.mp hr with rfl | hr
      · exact hnew
      · exact hold r (hx.stack r hr)
    · exact hx.targets u (List.mem_cons_of_mem _ hu)
    · rw [List.mem_cons, not_or] at hn
      have hseen := (StateSet.mem_insert.mp hr).resolve_left hn.1
      rcases hx.followed r hseen hn.2 u hu with hu | hu
      · exact Or.inl (hold u hu)
      · rcases List.mem_cons.mp hu with rfl | hu
        · exact Or.inl hnew
        · exact Or.inr hu

theorem length_targets_le (g : Graph) (s : StateId) (a : String) :
    (g.targets s a).toList.length ≤ g.size := by
  have hsub : (g.targets s a).toList ⊆ List.range g.size := fun t ht =>
    List.mem_range.mpr (targets_lt (StateSet.mem_toList.mp ht))
  have hlen := (StateSet.nodup_toList (g.targets s a)).length_le_of_subset hsub
  rwa [List.length_range] at hlen

theorem length_unseen_insert {seen : StateSet} {t : StateId} (ht : t ∉ seen) (hg : t < g.size) :
    (g.unseen (insert t seen)).length + 1 ≤ (g.unseen seen).length := by
  have hone : ∀ u ∈ ({t} : StateSet), u = t := fun u hu => StateSet.mem_singleton.mp hu
  have hlen : ({t} : StateSet).toList.length + (g.unseen (insert t seen)).length ≤
      (g.unseen seen).length :=
    unseen_union (fun u hu => hone u hu ▸ ht) fun u hu => hone u hu ▸ hg
  have hmem : t ∈ ({t} : StateSet).toList :=
    StateSet.mem_toList.mpr (StateSet.mem_singleton.mpr rfl)
  have hpos := List.length_pos_of_mem hmem
  rw [Nat.add_comm]
  exact Nat.le_trans (Nat.add_le_add_right hpos _) hlen

/-- A step leaves less to do. A new state is one more on the stack and one less to be seen. -/
theorem Step.effort_lt (h : Step g a x y) (hx : Inv g a S x) : y.effort g < x.effort g := by
  cases h with
  | @pop seen s stack rest targets hpop htargets =>
    have htake := length_targets_le g s a
    have hrest := hpop.length_eq
    rw [← htargets.length_eq] at htake
    rw [List.length_cons] at hrest
    simp only [effort, hrest, ← Nat.add_assoc, Nat.add_mul, List.length_nil]
    omega
  | known ht => simp [effort]
  | @found seen t stack targets ht =>
    have hlen := length_unseen_insert ht (hx.targets t List.mem_cons_self).1
    have hsum : (g.unseen (insert t seen)).length + (stack.length + 1) ≤
        (g.unseen seen).length + stack.length := by omega
    have hmul := Nat.mul_le_mul_right (g.size + 1) hsum
    simp only [effort, List.length_cons]
    omega

/-! ## All steps -/

theorem Steps.inv (h : Steps g a k x y) (hx : Inv g a S x) : Inv g a S y := by
  induction h with
  | stop x => exact hx
  | step hxy _ ih => exact ih (hxy.inv hx)

theorem Steps.effort_le (h : Steps g a k x y) (hx : Inv g a S x) :
    k + y.effort g ≤ x.effort g := by
  induction h with
  | stop x => omega
  | step hxy _ ih =>
    have hlt := hxy.effort_lt hx
    have hle := ih (hxy.inv hx)
    omega

/-- A search goes on as long as a state waits or a target is left, and then has seen the closure. -/
theorem Inv.next_or_done (hx : Inv g a S x) :
    (∃ y, Step g a x y) ∨ x = ⟨g.closure a S, [], []⟩ := by
  obtain ⟨seen, stack, targets⟩ := x
  cases targets with
  | cons t targets =>
    left
    by_cases ht : t ∈ seen
    · exact ⟨_, .known ht⟩
    · exact ⟨_, .found ht⟩
  | nil =>
    cases stack with
    | cons s stack => exact Or.inl ⟨_, .pop (List.Perm.refl _) (List.Perm.refl _)⟩
    | nil =>
      right
      have hseen : seen = g.closure a S := StateSet.ext fun t => by
        rw [mem_closure]
        refine ⟨hx.reached t, fun ht => ?_⟩
        induction ht with
        | seed hs => exact hx.seeds _ hs
        | edge _ ht ih =>
          exact (hx.followed _ ih List.not_mem_nil _ ht).resolve_right List.not_mem_nil
      rw [hseen]

/-- By induction on what is left to do, a search comes to its end. -/
theorem Inv.exists_steps (hx : Inv g a S x) :
    ∃ k, Steps g a k x ⟨g.closure a S, [], []⟩ := by
  induction he : x.effort g using Nat.strongRecOn generalizing x with
  | ind n ih =>
    rcases hx.next_or_done with ⟨y, hxy⟩ | hdone
    · obtain ⟨k, hk⟩ := ih _ (he ▸ hxy.effort_lt hx) (hxy.inv hx) rfl
      exact ⟨k + 1, .step hxy hk⟩
    · exact ⟨0, hdone ▸ .stop x⟩

theorem Steps.length_le {seeds stack : List StateId}
    (hstack : stack.Perm (StateSet.ofList seeds).toList)
    (h : Steps g a k ⟨StateSet.ofList seeds, stack, []⟩ x) :
    k ≤ (g.size + seeds.length) * (g.size + 1) := by
  have hunseen : (g.unseen (StateSet.ofList seeds)).length ≤ g.size := by
    have hfilter := List.length_filter_le (fun s => decide (s ∉ StateSet.ofList seeds))
      (List.range g.size)
    rwa [List.length_range] at hfilter
  have hlen : stack.length ≤ seeds.length := by
    rw [hstack.length_eq]
    exact (StateSet.nodup_toList _).length_le_of_subset fun s hs =>
      StateSet.mem_ofList.mp (StateSet.mem_toList.mp hs)
  have heffort := h.effort_le (inv_start hstack)
  have hmul := Nat.mul_le_mul_right (g.size + 1) (Nat.add_le_add hunseen hlen)
  simp only [effort, List.length_nil, Nat.add_zero] at heffort
  omega

end Traversal

/-! ## What the closure is -/

variable {g : Graph} {a : String} {S T : StateSet}

/-- To be reached is to be led to by any number of edges. -/
theorem reached_iff {t : StateId} : Reached g a S t ↔
    ∃ s ∈ S, Relation.ReflTransGen (fun s t => t ∈ g.targets s a) s t := by
  refine ⟨fun h => ?_, ?_⟩
  · induction h with
    | seed hs => exact ⟨_, hs, .refl⟩
    | edge _ ht ih =>
      obtain ⟨s, hs, hst⟩ := ih
      exact ⟨s, hs, hst.tail ht⟩
  · rintro ⟨s, hs, h⟩
    induction h with
    | refl => exact .seed hs
    | tail _ ht ih => exact .edge ih ht

theorem subset_closure : ∀ s ∈ S, s ∈ g.closure a S := fun _ hs => mem_closure.mpr (.seed hs)

theorem edge_mem_closure {s t : StateId} (hs : s ∈ g.closure a S) (ht : t ∈ g.targets s a) :
    t ∈ g.closure a S := mem_closure.mpr (.edge (mem_closure.mp hs) ht)

/-- Whatever holds of the seeds and is passed along edges holds on the closure. -/
theorem closure_least {P : StateId → Prop} (hS : ∀ s ∈ S, P s)
    (hedge : ∀ s t, P s → t ∈ g.targets s a → P t) : ∀ t ∈ g.closure a S, P t := by
  intro t ht
  rw [mem_closure] at ht
  induction ht with
  | seed hs => exact hS _ hs
  | edge _ hst ih => exact hedge _ _ ih hst

theorem closure_empty : g.closure a ∅ = ∅ := by
  rw [StateSet.eq_empty_iff]
  exact closure_least (fun s hs => absurd hs (StateSet.not_mem_empty s)) fun _ _ h _ => h

theorem closure_closure : g.closure a (g.closure a S) = g.closure a S :=
  StateSet.ext fun t => ⟨closure_least (fun _ hs => hs) (fun _ _ => edge_mem_closure) t,
    subset_closure t⟩

theorem closure_union : g.closure a (S ∪ T) = g.closure a S ∪ g.closure a T := by
  refine StateSet.ext fun t =>
    ⟨closure_least (fun s hs => ?_) (fun s t hs ht => ?_) t, fun ht => ?_⟩
  · rcases StateSet.mem_union.mp hs with hs | hs
    · exact StateSet.mem_union.mpr (Or.inl (subset_closure s hs))
    · exact StateSet.mem_union.mpr (Or.inr (subset_closure s hs))
  · rcases StateSet.mem_union.mp hs with hs | hs
    · exact StateSet.mem_union.mpr (Or.inl (edge_mem_closure hs ht))
    · exact StateSet.mem_union.mpr (Or.inr (edge_mem_closure hs ht))
  · rcases StateSet.mem_union.mp ht with ht | ht
    · exact closure_least (fun s hs => subset_closure s (StateSet.mem_union.mpr (Or.inl hs)))
        (fun _ _ => edge_mem_closure) t ht
    · exact closure_least (fun s hs => subset_closure s (StateSet.mem_union.mpr (Or.inr hs)))
        (fun _ _ => edge_mem_closure) t ht

/-- The closure of a list of seeds, one seed after the other. -/
theorem closure_ofList (g : Graph) (a : String) (seeds : List StateId) :
    g.closure a (StateSet.ofList seeds) = seeds.foldr (fun s T => g.closure a {s} ∪ T) ∅ := by
  induction seeds with
  | nil => exact closure_empty
  | cons s seeds ih =>
    have hcons : StateSet.ofList (s :: seeds) = {s} ∪ StateSet.ofList seeds :=
      StateSet.ext fun t => by
        rw [StateSet.mem_union, StateSet.mem_singleton, StateSet.mem_ofList, StateSet.mem_ofList,
          List.mem_cons]
    rw [hcons, closure_union, ih, List.foldr_cons]

/-- **The closure of any seeds.** It holds exactly the states that edges of the label lead to from
some seed, so it is the least set that holds the seeds and is closed under those edges. A search
makes no more steps than the bound says; whatever state it takes off the stack next and in whatever
order it looks at targets, it can only stop with the closure. So the closure does not depend on the
order of the seeds or on repetitions; it is the union of the closures of the single seeds; and it is
its own closure. -/
theorem closure_exact (g : Graph) (a : String) (seeds : List StateId) :
    (∀ t, t ∈ g.closure a (StateSet.ofList seeds) ↔
      ∃ s ∈ seeds, Relation.ReflTransGen (fun s t => t ∈ g.targets s a) s t) ∧
    ((∀ s ∈ seeds, s ∈ g.closure a (StateSet.ofList seeds)) ∧
      (∀ s ∈ g.closure a (StateSet.ofList seeds), ∀ t ∈ g.targets s a,
        t ∈ g.closure a (StateSet.ofList seeds)) ∧
      ∀ P : StateId → Prop, (∀ s ∈ seeds, P s) → (∀ s t, P s → t ∈ g.targets s a → P t) →
        ∀ t ∈ g.closure a (StateSet.ofList seeds), P t) ∧
    (∀ stack : List StateId, stack.Perm (StateSet.ofList seeds).toList →
      (∃ k, Traversal.Steps g a k ⟨StateSet.ofList seeds, stack, []⟩
        ⟨g.closure a (StateSet.ofList seeds), [], []⟩) ∧
      ∀ k x, Traversal.Steps g a k ⟨StateSet.ofList seeds, stack, []⟩ x →
        k ≤ (g.size + seeds.length) * (g.size + 1) ∧
        ((∃ y, Traversal.Step g a x y) ∨ x = ⟨g.closure a (StateSet.ofList seeds), [], []⟩)) ∧
    (∀ seeds' : List StateId, (∀ s, s ∈ seeds' ↔ s ∈ seeds) →
      g.closure a (StateSet.ofList seeds') = g.closure a (StateSet.ofList seeds)) ∧
    g.closure a (StateSet.ofList seeds) = seeds.foldr (fun s T => g.closure a {s} ∪ T) ∅ ∧
    g.closure a (g.closure a (StateSet.ofList seeds)) = g.closure a (StateSet.ofList seeds) := by
  have hseed : ∀ s, s ∈ StateSet.ofList seeds ↔ s ∈ seeds := fun s => StateSet.mem_ofList
  refine ⟨fun t => ?_, ⟨fun s hs => subset_closure s ((hseed s).mpr hs),
    fun s hs t ht => edge_mem_closure hs ht, fun P hS hedge => ?_⟩, fun stack hstack => ?_,
    fun seeds' hsame => ?_, closure_ofList g a seeds, closure_closure⟩
  · rw [mem_closure, reached_iff]
    simp only [hseed]
  · exact closure_least (fun s hs => hS s ((hseed s).mp hs)) hedge
  · have hstart : Traversal.Inv g a (StateSet.ofList seeds) ⟨StateSet.ofList seeds, stack, []⟩ :=
      Traversal.inv_start hstack
    exact ⟨hstart.exists_steps, fun k x h => ⟨h.length_le hstack, (h.inv hstart).next_or_done⟩⟩
  · have hsets : StateSet.ofList seeds' = StateSet.ofList seeds := StateSet.ext fun s => by
      rw [StateSet.mem_ofList, hseed, hsame]
    rw [hsets]

/-- Three states in a circle of edges with one label, one of them with a loop, and a fourth that an
edge of another label leads to. -/
def circle : Graph :=
  let g := (((empty.addState "p" false).addState "q" true).addState "p" false).addState "" true
  ((((g.addEdge 0 "ab" 1).addEdge 1 "ab" 2).addEdge 2 "ab" 0).addEdge 1 "ab" 1).addEdge 2 "a" 3

/-- Seeds that are listed twice, with the stack in another order. -/
theorem closure_exact_circle :
    (∃ k, Traversal.Steps circle "ab" k ⟨StateSet.ofList [1, 2, 1], [1, 2], []⟩
      ⟨StateSet.ofList [0, 1, 2], [], []⟩ ∧ k ≤ 35) ∧
    3 ∉ circle.closure "ab" (StateSet.ofList [1, 2, 1]) := by
  obtain ⟨-, -, hsearch, -⟩ := closure_exact circle "ab" [1, 2, 1]
  obtain ⟨⟨k, hk⟩, hall⟩ := hsearch [1, 2] (by decide +kernel)
  have hfound : circle.closure "ab" (StateSet.ofList [1, 2, 1]) = StateSet.ofList [0, 1, 2] := by
    decide +kernel
  have hlen := (hall k _ hk).1
  rw [hfound] at hk ⊢
  exact ⟨⟨k, hk, hlen⟩, by decide⟩

end Determinize.Graph
