import Determinize.Proofs.Decoding
import Determinize.Proofs.History
import Determinize.Proofs.Image
import Determinize.Proofs.Feeding
import Mathlib.Data.List.Induction
import Mathlib.Data.List.Nodup

/-!
# Which subsets share an identifier

The names of an automaton's states are different and their identifiers can be read back, with one
exception: no name at all and a single empty name are both written as a pair of braces. So two
different sets of states share an identifier exactly if one is empty and the other holds just the
state with the empty name. Where both are reached, a conversion merges them.

Results:
* `identifier_eq_iff`: the exact ambiguity for sets of states of one automaton;
* `identifier_injOn_iff`, `toDFA_ok_iff_not_split`: what the merged pair does to the identifiers of
  reached sets, and when it makes a conversion fail;
* `naming_exact`: all consequences together, and `nameless_collides`, a failing input.
-/
namespace Determinize.NFA

variable {m : NFA} {g : Graph} {s : StateId}

/-! ## Sets of states of an automaton -/

/-- All members are states of the automaton. -/
def Within (m : NFA) (S : StateSet) : Prop := ∀ s ∈ S, m.Knows s

theorem within_empty (m : NFA) : m.Within ∅ := fun t ht => absurd ht (StateSet.not_mem_empty t)

theorem within_singleton {q : StateId} (h : m.Knows q) : m.Within {q} := fun _ ht =>
  StateSet.mem_singleton.mp ht ▸ h

theorem empty_ne_singleton (q : StateId) : (∅ : StateSet) ≠ {q} := by
  intro h
  have hq : q ∈ ({q} : StateSet) := StateSet.mem_singleton.mpr rfl
  exact StateSet.not_mem_empty q (h ▸ hq)

theorem within_closure (h : Inv false g m) {S : StateSet} {a : String} (hS : m.Within S) :
    m.Within (g.closure a S) := by
  intro t ht
  induction Graph.mem_closure.mp ht with
  | seed hs => exact hS _ hs
  | edge hr htu ih => exact (h.edges rfl (ih (Graph.mem_closure.mpr hr)) htu).1

theorem within_step (h : Inv false g m) {S : StateSet} (hS : m.Within S) (c : Char) :
    m.Within (m.step g S c) := by
  refine within_closure h fun t ht => ?_
  obtain ⟨s, hs, hst⟩ := Graph.mem_move.mp ht
  exact (h.edges rfl (hS s hs) hst).1

/-- Without direct edges, reached sets hold only states of the automaton. -/
theorem Reached.within (h : Inv false g m) {S : StateSet} (hS : m.Reached g S) : m.Within S := by
  induction hS with
  | start hs => exact within_closure h (within_singleton (h.start hs))
  | step _ _ ih => exact within_step h ih _

/-! ## Identifiers -/

theorem names_eq_nil_iff {S : StateSet} : S.toList.map g.name = [] ↔ S = ∅ := by
  rw [List.map_eq_nil_iff, List.eq_nil_iff_forall_not_mem, StateSet.eq_empty_iff]
  simp only [StateSet.mem_toList]

theorem eq_singleton_of_names {S : StateSet} {name : String} (h : S.toList.map g.name = [name]) :
    ∃ q, g.name q = name ∧ S = {q} := by
  obtain ⟨q, hq, hname⟩ := List.map_eq_singleton_iff.mp h
  refine ⟨q, hname, StateSet.ext fun i => ?_⟩
  rw [← StateSet.mem_toList, hq, List.mem_singleton, StateSet.mem_singleton]

theorem names_singleton (q : StateId) : ({q} : StateSet).toList.map g.name = [g.name q] := by
  have hq : ({q} : StateSet).toList = [q] := by
    refine List.perm_singleton.mp ((List.perm_ext_iff_of_nodup (StateSet.nodup_toList _)
      (List.nodup_singleton q)).mpr fun i => ?_)
    rw [StateSet.mem_toList, StateSet.mem_singleton, List.mem_singleton]
  rw [hq]
  rfl

/-- Two sets with the same names are equal, since names tell the states apart. -/
theorem eq_of_names_perm {raw : Bool} (h : Inv raw g m) {S T : StateSet} (hS : m.Within S)
    (hT : m.Within T) (hp : (S.toList.map g.name).Perm (T.toList.map g.name)) : S = T := by
  have hsub : ∀ {S T : StateSet}, m.Within S → m.Within T →
      (S.toList.map g.name).Perm (T.toList.map g.name) → ∀ i ∈ S, i ∈ T := by
    intro S T hS hT hp i hi
    have hname : g.name i ∈ T.toList.map g.name :=
      hp.mem_iff.mp (List.mem_map.mpr ⟨i, StateSet.mem_toList.mpr hi, rfl⟩)
    obtain ⟨j, hj, he⟩ := List.mem_map.mp hname
    have hjT := StateSet.mem_toList.mp hj
    exact h.name_inj (hT j hjT) (hS i hi) he ▸ hjT
  exact StateSet.ext fun i => ⟨hsub hS hT hp i, hsub hT hS hp.symm i⟩

theorem identifier_singleton {q : StateId} (hq : g.name q = "") :
    g.identifier {q} = g.identifier ∅ := by
  unfold Graph.identifier Graph.identifierOf
  rw [Identifier.ofNames_eq_iff, names_singleton, names_eq_nil_iff, hq]
  exact Or.inr (Or.inr ⟨rfl, rfl⟩)

/-- One set is empty and the other holds just `q`. -/
def Twins (q : StateId) (S T : StateSet) : Prop := S = ∅ ∧ T = {q} ∨ S = {q} ∧ T = ∅

theorem identifier_eq_iff {raw : Bool} (h : Inv raw g m) {S T : StateSet} (hS : m.Within S)
    (hT : m.Within T) :
    g.identifier S = g.identifier T ↔ S = T ∨ ∃ q, g.name q = "" ∧ Twins q S T := by
  refine ⟨fun he => ?_, fun he => ?_⟩
  · unfold Graph.identifier Graph.identifierOf at he
    rw [Identifier.ofNames_eq_iff, names_eq_nil_iff, names_eq_nil_iff] at he
    rcases he with hp | ⟨rfl, hq⟩ | ⟨hq, rfl⟩
    · exact Or.inl (eq_of_names_perm h hS hT hp)
    · obtain ⟨q, hn, rfl⟩ := eq_singleton_of_names hq
      exact Or.inr ⟨q, hn, Or.inl ⟨rfl, rfl⟩⟩
    · obtain ⟨q, hn, rfl⟩ := eq_singleton_of_names hq
      exact Or.inr ⟨q, hn, Or.inr ⟨rfl, rfl⟩⟩
  · rcases he with rfl | ⟨q, hn, ⟨rfl, rfl⟩ | ⟨rfl, rfl⟩⟩
    · rfl
    · exact (identifier_singleton hn).symm
    · exact identifier_singleton hn

/-- Identifiers tell all sets of states of an automaton apart exactly if no name is empty. -/
theorem identifier_inj_iff {raw : Bool} (h : Inv raw g m) :
    (∀ S T, m.Within S → m.Within T → g.identifier S = g.identifier T → S = T) ↔
      m.state? "" = none := by
  refine ⟨fun hall => ?_, fun hn S T hS hT he => ?_⟩
  · cases hq : m.state? "" with
    | none => rfl
    | some q =>
      have hw := within_singleton ⟨"", hq⟩
      have he := (identifier_singleton (h.named hq).2).symm
      exact absurd (hall _ _ (within_empty m) hw he) (empty_ne_singleton q)
  · rcases (identifier_eq_iff h hS hT).mp he with rfl | ⟨q, hname, htw⟩
    · rfl
    · have hknows : m.Knows q := by
        rcases htw with ⟨-, rfl⟩ | ⟨rfl, -⟩
        · exact hT q (StateSet.mem_singleton.mpr rfl)
        · exact hS q (StateSet.mem_singleton.mpr rfl)
      obtain ⟨name, hk⟩ := hknows
      rw [← (h.named hk).2, hname, hn] at hk
      cases hk

/-! ## Merged subsets -/

/-- The empty set is reached, and so is that of just the state `q` with the empty name. -/
def Merges (m : NFA) (g : Graph) (q : StateId) : Prop :=
  g.name q = "" ∧ m.Reached g ∅ ∧ m.Reached g {q}

theorem not_merges_of_named {raw : Bool} (h : Inv raw g m) (hw : ∀ S, m.Reached g S → m.Within S)
    (hn : m.state? "" = none) (q : StateId) : ¬ m.Merges g q := by
  intro hm
  obtain ⟨hq, -, hr⟩ := hm
  obtain ⟨name, hk⟩ := hw {q} hr q (StateSet.mem_singleton.mpr rfl)
  rw [← (h.named hk).2, hq, hn] at hk
  cases hk

theorem identifier_eq_iff_of_reached (h : Inv false g m) {S T : StateSet} (hS : m.Reached g S)
    (hT : m.Reached g T) :
    g.identifier S = g.identifier T ↔ S = T ∨ ∃ q, m.Merges g q ∧ Twins q S T := by
  rw [identifier_eq_iff h (hS.within h) (hT.within h)]
  refine or_congr_right (exists_congr fun q => and_congr_left fun htw => ?_)
  refine ⟨fun hn => ?_, fun hm => hm.1⟩
  rcases htw with ⟨rfl, rfl⟩ | ⟨rfl, rfl⟩
  · exact ⟨hn, hS, hT⟩
  · exact ⟨hn, hT, hS⟩

theorem identifier_injOn_iff (h : Inv false g m) :
    (∀ S T, m.Reached g S → m.Reached g T → g.identifier S = g.identifier T → S = T) ↔
      ¬ ∃ q, m.Merges g q := by
  refine ⟨fun hall ⟨q, hq⟩ => ?_, fun hno S T hS hT he => ?_⟩
  · have he := (identifier_singleton hq.1).symm
    exact empty_ne_singleton q (hall _ _ hq.2.1 hq.2.2 he)
  · rcases (identifier_eq_iff_of_reached h hS hT).mp he with he | ⟨q, hq, -⟩
    · exact he
    · exact absurd ⟨q, hq⟩ hno

/-- The merged pair leads apart on some symbol: from the empty set nowhere else, from the state with
the empty name to a set that is neither. -/
def Splits (m : NFA) (g : Graph) : Prop :=
  ∃ q a, m.Merges g q ∧ a ∈ m.alphabet ∧ m.step g {q} a ≠ ∅ ∧ m.step g {q} a ≠ {q}

theorem identifier_step_eq (h : Inv false g m) {q : StateId} (hq : m.Merges g q) {a : Char}
    (ha : a ∈ m.alphabet) : g.identifier (m.step g ∅ a) = g.identifier (m.step g {q} a) ↔
      m.step g {q} a = ∅ ∨ m.step g {q} a = {q} := by
  have hstep := hq.2.2.step ha
  rw [step_empty, identifier_eq_iff_of_reached h hq.2.1 hstep]
  refine ⟨fun he => ?_, fun he => ?_⟩
  · rcases he with he | ⟨r, hr, ⟨-, hsr⟩ | ⟨he, -⟩⟩
    · exact Or.inl he.symm
    · have hkq := hq.2.2.within h q (StateSet.mem_singleton.mpr rfl)
      have hkr := hr.2.2.within h r (StateSet.mem_singleton.mpr rfl)
      have hrq : r = q := h.name_inj hkr hkq (by rw [hr.1, hq.1])
      exact Or.inr (hrq ▸ hsr)
    · exact absurd he (empty_ne_singleton r)
  · rcases he with he | he
    · exact Or.inl he.symm
    · exact Or.inr ⟨q, hq, Or.inl ⟨rfl, he⟩⟩

/-- A conversion goes through exactly if no merged pair leads apart. -/
theorem toDFA_ok_iff_not_split (h : Inv false g m) (hs : m.start = some s) :
    (∃ d, m.toDFA g = .ok d) ↔ ¬ m.Splits g := by
  rw [toDFA_ok_iff hs]
  refine ⟨fun hall ⟨q, a, hq, ha, hne, hnq⟩ => ?_, fun hno S T a hS hT ha he => ?_⟩
  · have hids := (identifier_singleton hq.1).symm
    rcases (identifier_step_eq h hq ha).mp (hall _ _ a hq.2.1 hq.2.2 ha hids) with he | he
    · exact hne he
    · exact hnq he
  · have hstep : ∀ q, m.Merges g q →
        g.identifier (m.step g ∅ a) = g.identifier (m.step g {q} a) := fun q hq =>
      (identifier_step_eq h hq ha).mpr <| Classical.byContradiction fun hn => by
        rw [not_or] at hn
        exact hno ⟨q, a, hq, ha, hn.1, hn.2⟩
    rcases (identifier_eq_iff_of_reached h hS hT).mp he with rfl | ⟨q, hq, ⟨rfl, rfl⟩ | ⟨rfl, rfl⟩⟩
    · rfl
    · exact hstep q hq
    · exact (hstep q hq).symm

/-- Where no name is empty, every conversion with a start goes through. -/
theorem toDFA_ok_of_named (h : Inv false g m) (hs : m.start = some s) (hn : m.state? "" = none) :
    ∃ d, m.toDFA g = .ok d :=
  (toDFA_ok_iff_not_split h hs).mpr fun ⟨q, _, hq, _⟩ =>
    not_merges_of_named h (fun _ hS => hS.within h) hn q hq

/-! ## The mapping -/

theorem keys_mapping (m : NFA) (g : Graph) :
    (m.mapping g).keys = insertAll ((m.order g).map g.identifier) [] := by
  have hfold : ∀ (order : List StateSet) (found : SubsetMap),
      (order.foldl (fun found S => found.put (g.identifier S) S) found).keys =
        insertAll (order.map g.identifier) found.keys := by
    intro order
    induction order with
    | nil => exact fun found => rfl
    | cons S order ih =>
      intro found
      rw [List.foldl_cons, ih, OrderedMap.keys_put]
      rfl
  exact hfold (m.order g) ∅

theorem mem_mapping {i : String} : i ∈ m.mapping g ↔ i ∈ (m.order g).map g.identifier := by
  rw [OrderedMap.mem_def, keys_mapping, mem_insertAll]
  exact or_iff_left List.not_mem_nil

theorem of_get?_mapping {i : String} {S : StateSet} (h : (m.mapping g).get? i = some S) :
    S ∈ m.order g ∧ g.identifier S = i := by
  unfold mapping at h
  generalize m.order g = order at h ⊢
  induction order using List.reverseRecOn with
  | nil => cases h
  | append_singleton l T ih =>
    rw [List.foldl_append, List.foldl_cons, List.foldl_nil, OrderedMap.get?_put] at h
    split at h
    · rename_i he
      cases h
      exact ⟨List.mem_append_right _ List.mem_cons_self, he⟩
    · obtain ⟨hS, he⟩ := ih h
      exact ⟨List.mem_append_left _ hS, he⟩

/-- The mapping has as many entries as any list of subsets with all identifiers, each once. -/
theorem size_mapping {l : List StateSet} (hn : (l.map g.identifier).Nodup)
    (hl : ∀ i, i ∈ l.map g.identifier ↔ i ∈ (m.order g).map g.identifier) :
    (m.mapping g).size = l.length := by
  have hp : (m.mapping g).keys.Perm (l.map g.identifier) := by
    rw [List.perm_ext_iff_of_nodup (m.mapping g).nodup_keys hn]
    intro i
    rw [hl, ← mem_mapping, OrderedMap.mem_def]
  rw [← OrderedMap.length_keys, hp.length_eq, List.length_map]

/-- Each registered subset has its own entry exactly if none are merged. -/
theorem get?_mapping_iff (h : Inv false g m) (hs : m.start = some s) :
    (∀ S ∈ m.order g, (m.mapping g).get? (g.identifier S) = some S) ↔ ¬ ∃ q, m.Merges g q := by
  rw [← identifier_injOn_iff h]
  simp only [mem_order hs]
  refine ⟨fun hall S T hS hT he => ?_, fun hinj S hS => ?_⟩
  · have hget := hall S hS
    rw [he, hall T hT] at hget
    exact (Option.some.inj hget).symm
  · have hm : g.identifier S ∈ m.mapping g :=
      mem_mapping.mpr (List.mem_map.mpr ⟨S, (mem_order hs).mpr hS, rfl⟩)
    obtain ⟨T, hT⟩ := Option.isSome_iff_exists.mp (OrderedMap.mem_iff_get?_isSome.mp hm)
    obtain ⟨hTo, he⟩ := of_get?_mapping hT
    rw [hT, hinj T S ((mem_order hs).mp hTo) hS he]

theorem size_mapping_of_not_merges (h : Inv false g m) (hs : m.start = some s)
    (hno : ¬ ∃ q, m.Merges g q) : (m.mapping g).size = (m.order g).length := by
  refine size_mapping ?_ fun i => Iff.rfl
  refine (nodup_order m g).map_on fun S hS T hT he => ?_
  exact (identifier_injOn_iff h).mpr hno S T ((mem_order hs).mp hS) ((mem_order hs).mp hT) he

/-- Of a merged pair, the entry of one is lost. -/
theorem size_mapping_of_merges (h : Inv false g m) (hs : m.start = some s) {q : StateId}
    (hq : m.Merges g q) : (m.mapping g).size + 1 = (m.order g).length := by
  have hempty := (mem_order hs).mpr hq.2.1
  have hsingle := (mem_order hs).mpr hq.2.2
  have hids := (identifier_singleton hq.1).symm
  have hmem : ∀ S, S ∈ (m.order g).erase ∅ ↔ S ≠ ∅ ∧ m.Reached g S := fun S => by
    rw [(nodup_order m g).mem_erase_iff, mem_order hs]
  have hsize := size_mapping (m := m) (g := g) (l := (m.order g).erase ∅) ?_ fun i => ?_
  · rw [hsize, List.length_erase_add_one hempty]
  · refine ((nodup_order m g).erase ∅).map_on fun S hS T hT he => ?_
    rw [hmem] at hS hT
    rcases (identifier_eq_iff_of_reached h hS.2 hT.2).mp he with he | ⟨r, -, ⟨hS', -⟩ | ⟨-, hT'⟩⟩
    · exact he
    · exact absurd hS' hS.1
    · exact absurd hT' hT.1
  · -- The identifier of the empty set is not lost: the other subset of the pair has it too.
    refine ⟨fun hi => ?_, fun hi => ?_⟩
    · obtain ⟨S, hS, rfl⟩ := List.mem_map.mp hi
      exact List.mem_map.mpr ⟨S, List.mem_of_mem_erase hS, rfl⟩
    · obtain ⟨S, hS, rfl⟩ := List.mem_map.mp hi
      by_cases he : S = ∅
      · exact List.mem_map.mpr ⟨{q}, (hmem _).mpr ⟨(empty_ne_singleton q).symm, hq.2.2⟩,
          by rw [he, hids]⟩
      · exact List.mem_map.mpr ⟨S, (hmem S).mpr ⟨he, (mem_order hs).mp hS⟩, rfl⟩

/-! ## All consequences -/

/-- What identifiers tell apart. Different sets of states have different identifiers, but for the
empty set and that of the state with the empty name. Where both are reached, and only then, one
identifier is declared for two subsets and the mapping has one entry less than there are registered
subsets; and the conversion fails if in addition the two lead apart. -/
theorem naming_exact (h : History false g m) :
    (∀ S T, m.Within S → m.Within T →
      (g.identifier S = g.identifier T ↔ S = T ∨ ∃ q, g.name q = "" ∧ Twins q S T)) ∧
    ((∀ S T, m.Within S → m.Within T → g.identifier S = g.identifier T → S = T) ↔
      m.state? "" = none) ∧
    (m.state? "" = none → ∀ q, ¬ m.Merges g q) ∧
    ∀ s, m.start = some s →
      ((∀ S T, S ∈ (m.emissions g).flatMap Emission.declared →
        T ∈ (m.emissions g).flatMap Emission.declared → g.identifier S = g.identifier T → S = T) ↔
          ¬ ∃ q, m.Merges g q) ∧
      (∀ {σ ε : Type} (b : Builder σ ε), (∀ t c, (b.take t c).2 = none) → ∀ t,
        ∃ found, (m.determinize b g t).result = .ok found) ∧
      (∀ {σ ε : Type} (b : Builder σ ε) (t : σ) (found : SubsetMap),
        (m.determinize b g t).result = .ok found →
          ((∀ S ∈ (m.determinize b g t).construction.registry,
            found.get? (g.identifier S) = some S) ↔ ¬ ∃ q, m.Merges g q) ∧
          ((¬ ∃ q, m.Merges g q) →
            found.size = (m.determinize b g t).construction.registry.size) ∧
          ((∃ q, m.Merges g q) →
            found.size + 1 = (m.determinize b g t).construction.registry.size)) ∧
      ((∃ d, m.toDFA g = .ok d) ↔ ¬ m.Splits g) := by
  have hi := h.inv
  refine ⟨fun S T hS hT => identifier_eq_iff hi hS hT, identifier_inj_iff hi,
    not_merges_of_named hi fun S hS => hS.within hi, fun s hs => ⟨?_, fun b hb t => ?_,
    fun b t found hok => ?_, toDFA_ok_iff_not_split hi hs⟩⟩
  · rw [declared_emissions hs, ← identifier_injOn_iff hi]
    simp only [mem_order hs]
  · have hd := (determinize_follows (g := g) hs b t).result
    rw [b.feed_total hb t (m.calls g)] at hd
    exact ⟨_, hd⟩
  · obtain ⟨hfound, hkeys⟩ := determinize_ok hs hok
    have hsize : (m.determinize b g t).construction.registry.size = (m.order g).length := by
      rw [← OrderedMap.length_keys, hkeys]
    rw [hfound, hsize]
    refine ⟨?_, size_mapping_of_not_merges hi hs, fun ⟨q, hq⟩ => size_mapping_of_merges hi hs hq⟩
    simp only [OrderedMap.mem_def, hkeys]
    exact get?_mapping_iff hi hs

/-- Three states in a row, the middle one with the empty name. -/
def nameless : Graph × NFA :=
  attempts ∅ (NFA.new {}) [.add .start "s", .add .plain "", .add .final "t",
    .connect "s" (.text "a") "", .connect "" (.text "a") "t"]

theorem history_nameless : History false nameless.1 nameless.2 := (History.new ∅ {}).calls _

theorem splits_nameless : nameless.2.Splits nameless.1 := by
  have hempty : nameless.2.Reached nameless.1 ∅ :=
    reached_iff_after.mpr ⟨0, ['a', 'a', 'a'], rfl, by decide, by decide +kernel⟩
  have hmiddle : nameless.2.Reached nameless.1 {1} :=
    reached_iff_after.mpr ⟨0, ['a'], rfl, by decide, by decide +kernel⟩
  exact ⟨1, 'a', ⟨by decide, hempty, hmiddle⟩, by decide, by decide +kernel, by decide +kernel⟩

theorem naming_exact_nameless : History false nameless.1 nameless.2 ∧
    nameless.2.start = some 0 ∧ nameless.2.Splits nameless.1 ∧
    ¬ ∃ d, nameless.2.toDFA nameless.1 = .ok d :=
  ⟨history_nameless, rfl, splits_nameless, fun hd =>
    ((naming_exact history_nameless).2.2.2 0 rfl).2.2.2.mp hd splits_nameless⟩

/-- Four subsets are registered, but only three are in the mapping, and the conversion fails. -/
theorem nameless_collides :
    (¬ ∀ S T, nameless.2.Within S → nameless.2.Within T →
      nameless.1.identifier S = nameless.1.identifier T → S = T) ∧
    (nameless.2.order nameless.1).length = 4 ∧ (nameless.2.mapping nameless.1).size = 3 ∧
    nameless.2.toDFA nameless.1 = .error (.refused ⟨"\x7b\x7d", "a", "\x7bt\x7d", "\x7b\x7d"⟩) := by
  refine ⟨fun hall => ?_, by decide +kernel, by decide +kernel,
    (toDFA_eq_error (s := 0) rfl).mpr ⟨_, rfl, by decide +kernel⟩⟩
  have hempty : nameless.2.Within ∅ := within_empty _
  have hmiddle : nameless.2.Within {1} := within_singleton ⟨"", by decide⟩
  exact empty_ne_singleton 1 (hall ∅ {1} hempty hmiddle (by decide +kernel))

end Determinize.NFA
