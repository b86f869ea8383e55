import Colca.Uns.Topic
import Mathlib.Data.Nat.Digits.Defs

/-!
# Integers in the historian

A sample is kept as a number where a double holds it, and as the JSON text it came in where none does.
For an integer the code asks whether it survives the way through a double and back
(`representsExactly`), which it can only ask of an integer of 64 bits. So an integer is kept as it is
(`integer_kept_iff`) if it is refused, is a double, or has 64 bits and the platform does not turn the
double `2 ^ 63` into it. A longer one is rounded (`long_integer_rounded`).
-/

namespace Colca.Historian

open Uns

/-- A JSON integer, with its digits from the first. -/
structure Literal where
  neg : Bool
  digits : List ℕ
  digit : ∀ d ∈ digits, d < 10
  ne : digits ≠ []

/-- A number with a sign. -/
def signed (neg : Bool) (n : ℕ) : ℤ := if neg then -n else n

def Literal.mag (l : Literal) : ℕ := Nat.ofDigits 10 l.digits.reverse

def Literal.value (l : Literal) : ℤ := signed l.neg l.mag

/-- A finite double that holds an integer. -/
structure Double where
  neg : Bool
  mag : ℕ
deriving DecidableEq

def Double.value (f : Double) : ℤ := signed f.neg f.mag

/-- The nearest integer of 53 significant bits, the even one of two. -/
def nearest (n : ℕ) : ℕ :=
  let unit := 2 ^ (n.log2 - 52)
  let q := n / unit
  if unit < 2 * (n % unit) ∨ unit = 2 * (n % unit) ∧ q % 2 = 1 then (q + 1) * unit else q * unit

/-- What no double reaches. -/
@[irreducible] def overflow : ℕ := 2 ^ 1024

/-- `Number.Float64`: the nearest double, unless it overflows. -/
def Literal.float64 (l : Literal) : Option Double :=
  if nearest l.mag < overflow then some ⟨l.neg, nearest l.mag⟩ else none

/-- The digits of a number from the first. -/
def decimal (n : ℕ) : List ℕ := if n = 0 then [0] else (Nat.digits 10 n).reverse

/-- `fmt.Sprintf("%v", f)` gives the literal; from a million on it writes an exponent. -/
def Double.prints (f : Double) (l : Literal) : Bool :=
  f.mag < 10 ^ 6 && l.neg = f.neg && l.digits = decimal f.mag

/-- The integers of 64 bits. -/
def Int64 (i : ℤ) : Prop := -2 ^ 63 ≤ i ∧ i < 2 ^ 63

instance (i : ℤ) : Decidable (Int64 i) := inferInstanceAs (Decidable (_ ∧ _))

/-- `float64(i)`. -/
def Double.ofInt (i : ℤ) : Double := ⟨i < 0, nearest i.natAbs⟩

section Rows

-- what the platform makes of a double that is no integer of 64 bits
variable (wild : Double → ℤ)

/-- `int64(f)`. -/
def Double.toInt64 (f : Double) : ℤ := if Int64 f.value then f.value else wild f

/-- `representsExactly`, with `Number.Int64`, which fails for a longer literal. -/
def representsExactly (l : Literal) (f : Double) : Bool :=
  if Int64 l.value then (Double.ofInt l.value).value = f.value && f.toInt64 wild = l.value else true

/-- The values of a sample, but for numbers with a fraction or an exponent; a string may fail to
decode. -/
inductive Value
  | null
  | bool (b : Bool)
  | string (s : Option String)
  | composite (text : String)
  | integer (l : Literal)

/-- `Row`, its value in one column or in none. -/
structure Row where
  timestamp : ℤ
  signalID : String
  nodeID : String
  number : Option Double := none
  text : Option String := none
  bool : Option Bool := none
  json : Option (String ⊕ Literal) := none

inductive Error
  | notAMeasurement | undecodable | noSignal | undecodableString | undecodableNumber

/-- `setValue`. -/
def setValue (row : Row) : Value → Except Error Row
  | .null => .ok row
  | .bool b => .ok { row with bool := some b }
  | .string none => .error .undecodableString
  | .string (some s) => .ok { row with text := some s }
  | .composite text => .ok { row with json := some (.inl text) }
  | .integer l =>
    match l.float64 with
    | none => .error .undecodableNumber
    | some f =>
      if !f.prints l && !representsExactly wild l f then .ok { row with json := some (.inr l) }
      else .ok { row with number := some f }

/-- The decoded payload, with its timestamp in nanoseconds. -/
structure Body where
  signalID : String
  nodeID : String
  timestamp : Option ℤ
  value : Option Value
  deleted : Bool

/-- A topic of another contract; one that does not parse is none. -/
def isOther (topic : Topic) : Bool := (parse topic).toOption.any (·.contract ≠ "_Metric")

/-- `RowFrom`; a payload that does not decode is `none`. -/
def rowFrom (topic : Topic) (payload : Option Body) (ts : ℤ) : Except Error Row :=
  if isOther topic then .error .notAMeasurement
  else match payload with
    | none => .error .undecodable
    | some body =>
      if body.signalID = "" then .error .noSignal
      else match body.value with
        | none => .error .notAMeasurement
        | some value =>
          if body.deleted then .error .notAMeasurement
          else setValue wild
            { timestamp := body.timestamp.getD (ts * 1000000)
              signalID := body.signalID
              nodeID := if body.nodeID = "" then topic.getD 3 "" else body.nodeID } value

end Rows

/-- **The integer is kept as it is**: as its digits or as a number that is equal to it, or the record
is refused. -/
def Kept (l : Literal) : Except Error Row → Prop
  | .ok row => row.json = some (.inr l) ∨ ∃ f ∈ row.number, f.value = l.value
  | .error _ => True

/-- The integer is refused, is a double, or has 64 bits and is not what the platform makes of a double
it is not. -/
def Literal.Safe (wild : Double → ℤ) (l : Literal) : Prop :=
  ∀ f, l.float64 = some f → f.value = l.value ∨ Int64 l.value ∧ (Int64 f.value ∨ wild f ≠ l.value)

variable {wild : Double → ℤ} {l : Literal} {f : Double}

theorem ofDigits_decimal (n : ℕ) : Nat.ofDigits 10 (decimal n).reverse = n := by
  unfold decimal
  split
  · rename_i h
    rw [h]
    rfl
  · rw [List.reverse_reverse, Nat.ofDigits_digits]

/-- A double prints as the literal it is equal to. -/
theorem value_of_prints (h : f.prints l = true) : f.value = l.value := by
  simp only [Double.prints, Bool.and_eq_true, decide_eq_true_eq] at h
  rw [Double.value, Literal.value, Literal.mag, h.1.2, h.2, ofDigits_decimal]

/-- The double of a literal is that of its integer. -/
theorem value_ofInt (h : l.float64 = some f) : (Double.ofInt l.value).value = f.value := by
  obtain ⟨hneg, hmag⟩ : f.neg = l.neg ∧ f.mag = nearest l.mag := by grind [Literal.float64]
  unfold Double.ofInt Double.value Literal.value signed
  rw [hneg, hmag]
  cases l.neg
  · simp
  · rcases Nat.eq_zero_or_pos l.mag with hz | hpos
    · simp [hz, nearest]
    · simp [hpos]

/-- What is no 64-bit integer goes through unasked; of the others the double must give the integer
back. -/
theorem representsExactly_iff (h : l.float64 = some f) (hne : f.value ≠ l.value) :
    representsExactly wild l f = true ↔ (Int64 l.value → ¬ Int64 f.value ∧ wild f = l.value) := by
  unfold representsExactly Double.toInt64
  by_cases hl : Int64 l.value <;> by_cases hf : Int64 f.value <;> simp [hl, hf, hne, value_ofInt h]

theorem kept_setValue_iff {row : Row} (hrow : row.json = none) :
    Kept l (setValue wild row (.integer l)) ↔ l.Safe wild := by
  unfold Literal.Safe
  cases hf : l.float64 with
  | none => simp [setValue, hf, Kept]
  | some f =>
    by_cases heq : f.value = l.value
    · simp only [setValue, hf]
      split <;> simp [Kept, heq]
    · have hp : f.prints l = false := Bool.eq_false_iff.mpr fun hp ↦ heq (value_of_prints hp)
      have hr : representsExactly wild l f = true ↔ _ := representsExactly_iff hf heq
      simp only [setValue, hf, hp, Bool.not_false, Bool.true_and]
      cases h : representsExactly wild l f with
      | true =>
        rw [h] at hr
        simp only [Kept, hrow]
        grind
      | false =>
        rw [h] at hr
        simp only [Kept]
        grind

/-- **An integer is kept as it is exactly if it is safe**, once its record gets that far. -/
theorem integer_kept_iff (wild : Double → ℤ) (topic : Topic) (body : Body) (ts : ℤ) (l : Literal) :
    Kept l (rowFrom wild topic (some { body with value := some (.integer l) }) ts) ↔
      (isOther topic = false → body.signalID ≠ "" → body.deleted = false → l.Safe wild) := by
  simp only [rowFrom]
  split
  · simp_all [Kept]
  · split
    · simp_all [Kept]
    · split
      · simp_all [Kept]
      · rw [kept_setValue_iff rfl]
        simp_all

/-- The literal 9223372036854775809, which has 64 bits and no sign. -/
def long : Literal := ⟨false, decimal 9223372036854775809, by decide +kernel, by decide +kernel⟩

/-- **A longer integer is rounded**: of 9223372036854775809 a row with 9223372036854775808 is made. -/
theorem long_integer_rounded :
    ¬ ∃ wild : Double → ℤ, ∀ (topic : Topic) (body : Body) (ts : ℤ) (l : Literal),
      Kept l (rowFrom wild topic (some { body with value := some (.integer l) }) ts) := by
  rintro ⟨wild, h⟩
  have hrow : rowFrom wild [] (some ⟨"s", "n", none, some (.integer long), false⟩) 0 =
      setValue wild ⟨0, "s", "n", none, none, none, none⟩ (.integer long) := rfl
  have hk := (kept_setValue_iff rfl).mp (hrow ▸ h [] ⟨"s", "n", none, none, false⟩ 0 long)
    ⟨false, 9223372036854775808⟩ (by decide +kernel)
  exact hk.elim (by decide +kernel) fun hk ↦ absurd hk.1 (by decide +kernel)

end Colca.Historian
