import Determinize.Text

/-!
# Values offered as symbols

A symbol is offered as a value of any shape; only a text of exactly one character is a symbol. A
refused value is shown in the refusal, so every value has a text form.

A number that is not an integer by its form, such as `1.5` or `1e16`, is kept as a sign, digits and
a power of ten. Its text has no digit more than it needs. It is positional, with a digit on either
side of the point, if the leading digit stands for a power of ten from -4 to 15; else it has one
digit before the point and a signed exponent of at least two digits.

The text form has no limit on the digits of an integer or on the depth of a list. A value that is
none of the listed shapes is known by its text form only.

Results:
* `char?_eq_some_iff`: the symbols are exactly the texts of one character.
-/
namespace Determinize

/-! ## Decimal numbers -/

/-- A decimal number, an infinity, or the result of an undefined operation. -/
inductive Decimal where
  | finite (negative : Bool) (digits : Nat) (exponent : Int)
  | infinite (negative : Bool)
  | undefined
  deriving DecidableEq

namespace Decimal

/-- Moves zeros at the end of the digits into the power of ten. -/
def trim (digits : Nat) (exponent : Int) : Nat × Int :=
  if digits ≠ 0 ∧ digits % 10 = 0 then trim (digits / 10) (exponent + 1) else (digits, exponent)
termination_by digits
decreasing_by omega

/-- The lowest power of ten whose numbers are written positionally. -/
def lowestPlain : Int := -4

/-- The power of ten from which on numbers are written with an exponent. -/
def firstScientific : Int := 16

/-- Digits with the point where it stands, given the power of ten of the last digit and that of the
leading one. -/
def positional (ds : List Char) (last lead : Int) : List Char :=
  if 0 ≤ last then ds ++ List.replicate last.toNat '0' ++ ['.', '0']
  else if 0 ≤ lead then ds.take (lead.toNat + 1) ++ '.' :: ds.drop (lead.toNat + 1)
  else '0' :: '.' :: (List.replicate (-lead - 1).toNat '0' ++ ds)

/-- Digits with the point behind the first, if more follow, and the power of ten of the first. -/
def scientific (ds : List Char) (lead : Int) : List Char :=
  let exponent := Nat.toDigits 10 lead.natAbs
  let behind := if ds.length ≤ 1 then [] else '.' :: ds.drop 1
  let sign := if lead < 0 then '-' else '+'
  ds.take 1 ++ behind ++ 'e' :: sign :: (List.replicate (2 - exponent.length) '0' ++ exponent)

/-- The text of digits times a power of ten, without a sign. -/
def magnitude (digits : Nat) (exponent : Int) : List Char :=
  if digits = 0 then ['0', '.', '0']
  else
    let last := (trim digits exponent).2
    let ds := Nat.toDigits 10 (trim digits exponent).1
    let lead := last + Int.ofNat ds.length - 1
    if lowestPlain ≤ lead ∧ lead < firstScientific then positional ds last lead
    else scientific ds lead

/-- A minus sign if there is to be one. -/
def sign (negative : Bool) : String := if negative then "-" else ""

/-- The text of a decimal number. -/
def shown : Decimal → String
  | finite negative digits exponent => sign negative ++ String.ofList (magnitude digits exponent)
  | infinite negative => sign negative ++ "inf"
  | undefined => "nan"

end Decimal

/-! ## Values -/

/-- A value of any shape; the fields of a record are in order, and a value of another shape comes
with its text form. -/
inductive Value where
  | null
  | bool (b : Bool)
  | int (n : Int)
  | decimal (x : Decimal)
  | text (s : String)
  | list (items : List Value)
  | record (fields : List (String × Value))
  | other (form : String)
  deriving Inhabited

namespace Value

/-- Decimal digits of a number, without leading zeros. -/
def digits (n : Nat) : String := String.ofList (Nat.toDigits 10 n)

/-- An integer with a minus sign before it if it is negative. -/
def intText (n : Int) : String :=
  if n < 0 then "-" ++ digits n.natAbs else digits n.natAbs

mutual

/-- The text form of a value. -/
def shown : Value → String
  | null => "None"
  | bool true => "True"
  | bool false => "False"
  | int n => intText n
  | decimal x => x.shown
  | text s => Text.quote s
  | list items => Text.bracket (shownItems items)
  | record fields => "\x7b" ++ ", ".intercalate (shownFields fields) ++ "\x7d"
  | other form => form

/-- The text forms of the items of a list. -/
def shownItems : List Value → List String
  | [] => []
  | v :: rest => shown v :: shownItems rest

/-- The fields of a record, each as its name, a colon and its value. -/
def shownFields : List (String × Value) → List String
  | [] => []
  | (k, v) :: rest => (Text.quote k ++ ": " ++ shown v) :: shownFields rest

end

/-- The character of a text of exactly one character. -/
def char? : Value → Option Char
  | text s =>
    match s.toList with
    | [c] => some c
    | _ => none
  | _ => none

theorem char?_eq_some_iff {v : Value} {c : Char} :
    v.char? = some c ↔ v = text (String.singleton c) := by
  refine ⟨fun h => ?_, fun h => ?_⟩
  · cases v with
    | text s =>
      simp only [char?] at h
      split at h
      · rename_i d hs
        simp only [Option.some.injEq] at h
        subst h
        have : s = String.singleton d := by
          apply String.toList_inj.mp
          rw [hs, String.toList_singleton]
        rw [this]
      · cases h
    | _ => cases h
  · subst h
    simp [char?, String.toList_singleton]

end Value

end Determinize
