import PseudoLang.Proofs.Json.RoundTrip

/-!
The numbers in a JSON value, and those in its texts. The texts have the numbers of the value in the
same places, except that infinities and the undefined number are not written as numbers
(`numbers_denoted`).
-/

namespace PseudoLang.Json

open Number (Binary64)

/-- The numbers in a value, from left to right. -/
def numbers : Json → List Json
  | null | bool _ | string _ => []
  | integer n => [integer n]
  | float x => [float x]
  | array items => (items.map numbers).flatten
  | object members => (members.map fun member => numbers member.2).flatten
termination_by value => sizeOf value
decreasing_by
  · exact sizeOf_item_lt ‹_›
  · exact sizeOf_value_lt ‹_›

/-- Whether a number can be written as one. -/
def isWritable : Json → Bool
  | float x => x.isFinite
  | _ => true

theorem numbers_of_unsigned? {negative : Bool} {text : List Char} {value : Json}
    (h : unsigned? negative text = some value) : value.numbers = [value] := by
  unfold unsigned? at h
  dsimp only at h
  split at h
  · cases h
  · obtain ⟨⟨decimals, rest⟩, -, h⟩ := Option.bind_eq_some_iff.mp h
    obtain ⟨exponent, -, h⟩ := Option.bind_eq_some_iff.mp h
    dsimp only at h
    split at h <;> cases h <;> rw [numbers]

/-- Finite numbers are written as numbers, and no others. -/
theorem numbers_ofFloat (x : Binary64) :
    (ofFloat x).numbers = if x.isFinite then [ofFloat x] else [] := by
  have read := (scalar_float x).value
  cases x with
  | nan =>
    rw [← Option.some.inj (scalar_null.value.symm.trans read), numbers]
    rfl
  | infinite negative =>
    rw [← Option.some.inj (scalar_null.value.symm.trans read), numbers]
    rfl
  | finite negative significand exponent =>
    have numeral := Number.numeral_shortest numberStyle significand exponent
    cases negative with
    | false => exact numbers_of_unsigned? ((scalar?_numeral numeral).symm.trans read)
    | true => exact numbers_of_unsigned? ((scalar?_minus _).symm.trans read)

/-- What is written as a number is read as one, and in its place. -/
theorem numbers_denoted (value : Json) :
    value.denoted.numbers = (value.numbers.filter isWritable).map denoted := by
  induction value using induction_parts with
  | null | bool | string => simp [denoted, numbers]
  | integer n =>
    rw [denoted, numbers, List.filter_singleton]
    simp [isWritable, denoted]
  | float x =>
    rw [denoted, numbers, numbers_ofFloat, List.filter_singleton, isWritable]
    cases x.isFinite <;> simp [denoted]
  | array items ih =>
    rw [denoted, numbers, numbers, List.map_map, List.filter_flatten, List.map_flatten,
      List.map_map, List.map_map]
    congr 1
    exact List.map_congr_left ih
  | object members ih =>
    rw [denoted, numbers, numbers, List.map_map, List.filter_flatten, List.map_flatten,
      List.map_map, List.map_map]
    congr 1
    exact List.map_congr_left ih

end PseudoLang.Json
