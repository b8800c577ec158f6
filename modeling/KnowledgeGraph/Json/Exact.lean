import KnowledgeGraph.Json.Basic

/-!
# Values as text without loss

Decimals do not bring every double back, so a value that must come back as it was is coded before it
is written: a double becomes a text of its parts, and a text gets a mark in front that sets it apart
from these.
-/

namespace KnowledgeGraph

namespace Binary64

/-- The parts of a double as text: its sign, its mantissa and its exponent behind the letter `p`. -/
def partsText (x : Binary64) : String :=
  (if x.negative then "-" else "+") ++ toString x.mantissa ++ "p" ++ toString x.exponent

/-- The double with the parts that a text gives. -/
def ofPartsText? : List Char → Option Binary64
  | [] => none
  | sign :: text => do
    let (mantissa, exponent) := text.span (· ≠ 'p')
    let mantissa ← (String.ofList mantissa).toNat?
    let exponent ← (String.ofList (exponent.drop 1)).toInt?
    some { negative := sign = '-', mantissa, exponent }

end Binary64

namespace Json

/-- The code of a leaf. -/
def codeLeaf : Json → Json
  | .string text => .string ("=" ++ text)
  | .number (.double value) => .string value.partsText
  | leaf => leaf

/-- The leaf that a code stands for. -/
def decodeLeaf : Json → Json
  | .string code =>
    match code.toList with
    | '=' :: text => .string (String.ofList text)
    | parts =>
      match Binary64.ofPartsText? parts with
      | some value => .number (.double value)
      | none => .string code
  | leaf => leaf

/-- A value with doubles and texts coded. -/
def code (value : Json) : Json := value.mapLeaves codeLeaf

/-- The value that a code stands for. -/
def decode (value : Json) : Json := value.mapLeaves decodeLeaf

end Json

end KnowledgeGraph
