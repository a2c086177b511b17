import Determinize.Construction

/-!
# Reading the names back from an identifier

Between its braces an identifier holds its names in ascending order. `decode` reads such a text: a
backslash stands for the character behind it, and a bare comma with the space behind it ends a name.

Results:
* `decode_join`: a list of names with at least one name is read back as it was written;
* `join_eq_iff`, `ofNames_eq_iff`: two lists have one identifier exactly when they hold the same
  names, each as often, or when one is empty and the other holds just the empty name;
* `read_ofNames`: from every identifier but a bare pair of braces the names are read back;
* `identifierOf_exact`: all this for sequences of states, whatever their names.
-/
namespace Determinize

namespace Identifier

/-- Puts characters in front of the first name of a list. -/
def extend (cs : List Char) : List (List Char) → List (List Char)
  | [] => [cs]
  | name :: names => (cs ++ name) :: names

/-- The names held by a text without its braces. -/
def decode : List Char → List (List Char)
  | [] => [[]]
  | '\\' :: c :: rest => extend [c] (decode rest)
  | ',' :: ' ' :: rest => [] :: decode rest
  | c :: rest => extend [c] (decode rest)

theorem extend_ne_nil (cs : List Char) (names : List (List Char)) : extend cs names ≠ [] := by
  cases names <;> simp [extend]

theorem decode_ne_nil (text : List Char) : decode text ≠ [] := by
  fun_cases decode text with
  | case1 => simp
  | case2 => exact extend_ne_nil _ _
  | case3 => simp
  | case4 => exact extend_ne_nil _ _

theorem extend_nil {names : List (List Char)} (h : names ≠ []) : extend [] names = names := by
  cases names with
  | nil => exact absurd rfl h
  | cons name names => rfl

theorem extend_extend (c : Char) (cs : List Char) (names : List (List Char)) :
    extend [c] (extend cs names) = extend (c :: cs) names := by
  cases names <;> simp [extend]

theorem decode_special (c : Char) (rest : List Char) :
    decode ('\\' :: c :: rest) = extend [c] (decode rest) := by
  rw [decode]

theorem decode_separator (rest : List Char) : decode (',' :: ' ' :: rest) = [] :: decode rest := by
  rw [decode]

theorem decode_plain {c : Char} (h : isSpecial c = false) (rest : List Char) :
    decode (c :: rest) = extend [c] (decode rest) := by
  simp only [isSpecial, Bool.or_eq_false_iff, decide_eq_false_iff_not] at h
  obtain ⟨⟨⟨hs, hc⟩, -⟩, -⟩ := h
  rw [decode]
  · intro _ _ he
    exact absurd he hs
  · intro _ he
    exact absurd he hc

/-! ## Names are read back -/

theorem decode_escape_append (name rest : List Char) :
    decode (escape name ++ rest) = extend name (decode rest) := by
  induction name with
  | nil => exact (extend_nil (decode_ne_nil rest)).symm
  | cons c name ih =>
    cases h : isSpecial c with
    | true =>
      have he : escape (c :: name) = '\\' :: c :: escape name := by simp [escape, h]
      rw [he, List.cons_append, List.cons_append, decode_special, ih, extend_extend]
    | false =>
      have he : escape (c :: name) = c :: escape name := by simp [escape, h]
      rw [he, List.cons_append, decode_plain h, ih, extend_extend]

theorem decode_join (name : List Char) (names : List (List Char)) :
    decode (join (name :: names)) = name :: names := by
  induction names generalizing name with
  | nil =>
    have h := decode_escape_append name []
    rw [List.append_nil] at h
    simp [join, h, decode, extend]
  | cons next rest ih =>
    have hj : join (name :: next :: rest) = escape name ++ ',' :: ' ' :: join (next :: rest) := rfl
    rw [hj, decode_escape_append, decode_separator, ih]
    simp [extend]

/-- The only two lists that are written alike are the empty one and that of the empty name. -/
theorem join_eq_iff {l m : List (List Char)} :
    join l = join m ↔ l = m ∨ (l = [] ∧ m = [[]]) ∨ (l = [[]] ∧ m = []) := by
  have hempty : ∀ name names, join (name :: names) = [] → name :: names = [[]] := by
    intro name names h
    have hd := decode_join name names
    rw [h] at hd
    exact hd.symm
  refine ⟨fun h => ?_, fun h => ?_⟩
  · cases l with
    | nil =>
      cases m with
      | nil => exact Or.inl rfl
      | cons name names => exact Or.inr (Or.inl ⟨rfl, hempty name names h.symm⟩)
    | cons name names =>
      cases m with
      | nil => exact Or.inr (Or.inr ⟨hempty name names h, rfl⟩)
      | cons name' names' =>
        have hd := congrArg decode h
        rw [decode_join, decode_join] at hd
        exact Or.inl hd
  · rcases h with rfl | ⟨rfl, rfl⟩ | ⟨rfl, rfl⟩ <;> rfl

/-! ## Identifiers -/

theorem map_toList_inj {l m : List String} : l.map String.toList = m.map String.toList ↔ l = m :=
  List.map_inj_right fun _ _ => String.toList_inj.mp

theorem sorted_eq_iff {l m : List String} : sorted l = sorted m ↔ l.Perm m := by
  refine ⟨fun h => ?_, sorted_eq_of_perm⟩
  exact (sorted_perm l).symm.trans (h ▸ sorted_perm m)

theorem sorted_eq_singleton_iff {l : List String} {name : String} :
    sorted l = [name] ↔ l = [name] := by
  refine ⟨fun h => ?_, fun h => ?_⟩
  · have hp := sorted_perm l
    rw [h] at hp
    exact List.perm_singleton.mp hp.symm
  · subst h
    simp [sorted]

theorem sorted_eq_nil_iff {l : List String} : sorted l = [] ↔ l = [] := by
  refine ⟨fun h => ?_, fun h => ?_⟩
  · have hp := sorted_perm l
    rw [h] at hp
    exact List.perm_nil.mp hp.symm
  · subst h
    simp [sorted]

/-- Two lists of names have one identifier exactly when they hold the same names, each as often, or
when one holds none and the other just the empty name. -/
theorem ofNames_eq_iff {l m : List String} :
    ofNames l = ofNames m ↔ l.Perm m ∨ (l = [] ∧ m = [""]) ∨ (l = [""] ∧ m = []) := by
  have hnil : ∀ l : List String, (sorted l).map String.toList = [] ↔ l = [] := by
    intro l
    rw [List.map_eq_nil_iff, sorted_eq_nil_iff]
  have hone : ∀ l : List String, (sorted l).map String.toList = [[]] ↔ l = [""] := by
    intro l
    rw [← sorted_eq_singleton_iff]
    exact map_toList_inj (m := [""])
  unfold ofNames
  rw [← String.toList_inj, String.toList_ofList, String.toList_ofList, List.cons.injEq,
    List.append_cancel_right_eq, join_eq_iff, map_toList_inj, sorted_eq_iff, hnil, hnil, hone, hone]
  simp

/-- The names that an identifier holds. -/
def read (id : String) : List String := (decode id.toList.tail.dropLast).map String.ofList

/-- A bare pair of braces may stand for no names as well as for one empty name. -/
theorem read_ofNames {names : List String} (h : ofNames names ≠ ofNames []) :
    read (ofNames names) = sorted names := by
  have htext : (ofNames names).toList.tail.dropLast = join ((sorted names).map String.toList) := by
    rw [ofNames, String.toList_ofList, List.tail_cons, List.dropLast_concat]
  rw [read, htext]
  cases hs : sorted names with
  | nil => exact absurd (congrArg ofNames (sorted_eq_nil_iff.mp hs)) h
  | cons name rest =>
    rw [List.map_cons, decode_join, ← List.map_cons, List.map_map]
    have hid : String.ofList ∘ String.toList = id := funext fun _ => String.ofList_toList
    rw [hid, List.map_id]

end Identifier

/-! ## Sequences of states -/

namespace Graph

theorem identifierOf_nil (g : Graph) : g.identifierOf [] = "\x7b\x7d" := Identifier.ofNames_nil

theorem names_eq_singleton_iff {g : Graph} {l : List StateId} {name : String} :
    l.map g.name = [name] ↔ ∃ q, l = [q] ∧ g.name q = name := List.map_eq_singleton_iff

/-- Two sequences of states, in any order and with repetitions, have one identifier exactly if their
names in ascending order are the same, or one is empty and the other holds one state, whose name is
empty. So the order of a sequence does not matter, and from every identifier but the bare braces the
names are read back in ascending order, each as often as it occurs. -/
theorem identifierOf_exact (g : Graph) (l k : List StateId) :
    (g.identifierOf l = g.identifierOf k ↔
      Identifier.sorted (l.map g.name) = Identifier.sorted (k.map g.name) ∨
      (l = [] ∧ ∃ q, k = [q] ∧ g.name q = "") ∨ ((∃ q, l = [q] ∧ g.name q = "") ∧ k = [])) ∧
    (l.Perm k → g.identifierOf l = g.identifierOf k) ∧
    (g.identifierOf l ≠ "\x7b\x7d" →
      Identifier.read (g.identifierOf l) = Identifier.sorted (l.map g.name)) ∧
    (Identifier.sorted (l.map g.name)).Perm (l.map g.name) ∧
    (Identifier.sorted (l.map g.name)).Pairwise (fun a b => a ≤ b) := by
  refine ⟨?_, fun hp => Identifier.ofNames_eq_of_perm (hp.map g.name), fun hne => ?_,
    Identifier.sorted_perm _, Identifier.sorted_ordered _⟩
  · rw [identifierOf, identifierOf, Identifier.ofNames_eq_iff, Identifier.sorted_eq_iff,
      List.map_eq_nil_iff, List.map_eq_nil_iff, names_eq_singleton_iff, names_eq_singleton_iff]
  · rw [← identifierOf_nil g] at hne
    exact Identifier.read_ofNames hne

/-- States with names that hold separators and escapes, and one with the empty name. -/
def awkward : Graph :=
  (((empty.addState "a, b" false).addState "\\" true).addState "" false).addState "\x7d,\\" false

theorem identifierOf_exact_awkward :
    awkward.identifierOf [3, 0, 2, 1, 0] = awkward.identifierOf [0, 0, 1, 2, 3] ∧
    Identifier.read (awkward.identifierOf [3, 0, 2, 1, 0]) =
      ["", "\\", "a, b", "a, b", "\x7d,\\"] ∧
    awkward.identifierOf [2] = awkward.identifierOf [] ∧
    awkward.identifierOf [2] ≠ awkward.identifierOf [2, 2] := by
  have hsorted : Identifier.sorted ([3, 0, 2, 1, 0].map awkward.name) =
      ["", "\\", "a, b", "a, b", "\x7d,\\"] :=
    Identifier.sorted_eq_of_ordered (by decide) (by decide)
  have hne : awkward.identifierOf [3, 0, 2, 1, 0] ≠ "\x7b\x7d" := fun he => by
    rcases (identifierOf_exact awkward _ []).1.mp (he.trans (identifierOf_nil _).symm) with
      hs | ⟨hl, -⟩ | ⟨⟨q, hl, -⟩, -⟩
    · exact absurd (Identifier.sorted_eq_iff.mp hs) (by decide)
    · cases hl
    · cases hl
  refine ⟨(identifierOf_exact awkward _ _).2.1 (by decide), ?_, ?_, fun he => ?_⟩
  · exact ((identifierOf_exact awkward [3, 0, 2, 1, 0] []).2.2.1 hne).trans hsorted
  · exact (identifierOf_exact awkward [2] []).1.mpr (Or.inr (Or.inr ⟨⟨2, rfl, by decide⟩, rfl⟩))
  · rcases (identifierOf_exact awkward [2] [2, 2]).1.mp he with hs | ⟨hl, -⟩ | ⟨-, hl⟩
    · exact absurd (Identifier.sorted_eq_iff.mp hs) (by decide)
    · cases hl
    · cases hl

end Graph

end Determinize
