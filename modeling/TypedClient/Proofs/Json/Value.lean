import TypedClient.Json.Printer
import TypedClient.Proofs.Decimal.Text

/-!
# Equal JSON values

Numbers are compared by what they are worth and not by how they are written (`Number.value`), and
objects whatever the order of their members is (`Same`). This is how JSON Schema compares values.
The text of a number is read back as the number (`Number.readsAs_text`).
-/

namespace TypedClient

namespace Json

/-- What a number is worth. -/
def Number.value : Number → ℚ
  | .int n => n
  | .float x => x.value

/-- JSON can write the number. -/
def Number.IsFinite : Number → Prop
  | .int _ => True
  | .float x => x.isFinite = true

/-- A numeral that is worth `q` stands for the number: exactly for a whole number, and as the
nearest one for a binary64 number. -/
def Number.ReadsAs (q : ℚ) : Number → Prop
  | .int n => q = n
  | .float x => x.IsNearest q

theorem Number.isNumeral_text {n : Number} (h : n.IsFinite) : Decimal.IsNumeral n.text.toList := by
  cases n with
  | int n => exact Decimal.isNumeral_intText n
  | float x =>
      have hfinite : x.isFinite = true := h
      rw [text, if_pos hfinite]
      exact Double.isNumeral_text h _

/-- A number is read back from its text. -/
theorem Number.readsAs_text {n : Number} (h : n.IsFinite) :
    n.ReadsAs (Decimal.numeralValue n.text.toList) := by
  cases n with
  | int n => exact Decimal.numeralValue_intText n
  | float x =>
      have hfinite : x.isFinite = true := h
      rw [text, if_pos hfinite]
      exact Double.isNearest_numeralValue_text h _

/-- No array, no object and no number that JSON cannot write. -/
def IsLiteral : Json → Prop
  | .number n => n.IsFinite
  | .array _ | .object _ => False
  | _ => True

theorem isLiteral_ofDouble (x : Double) : (ofDouble x).IsLiteral := by
  unfold ofDouble
  split
  · assumption
  · trivial

/-- Values that JSON Schema takes to be equal. -/
inductive Same : Json → Json → Prop
  | null : Same .null .null
  | bool (b : Bool) : Same (.bool b) (.bool b)
  | number {n k : Number} : n.value = k.value → Same (.number n) (.number k)
  | string (s : String) : Same (.string s) (.string s)
  | array {items others : List Json} : items.length = others.length →
      (∀ pair ∈ items.zip others, Same pair.1 pair.2) → Same (.array items) (.array others)
  | object {members others : List (String × Json)} :
      (∀ key, (members.lookup key).isSome = (others.lookup key).isSome) →
      (∀ key value other, members.lookup key = some value → others.lookup key = some other →
        Same value other) →
      Same (.object members) (.object others)

end Json

end TypedClient
