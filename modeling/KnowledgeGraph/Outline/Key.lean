import KnowledgeGraph.Relation
import KnowledgeGraph.Fault

/-!
# Keys and references of outlines

An outline writes relations as keys, `-type->` from the concept above to the one below and `<-type-`
the other way, and concepts as references, of which a leading question mark makes an unknown. The
suffix `:to_all` at the end of a type says that the relation leads to several concepts.
-/

namespace KnowledgeGraph

/-- What stands behind a text's front, if the text starts with it. -/
def behind? : List Char → List Char → Option (List Char)
  | [], text => some text
  | c :: front, d :: text => if c = d then behind? front text else none
  | _ :: _, [] => none

/-- What stands before a text's back, if the text ends with it. -/
def before? (back text : List Char) : Option (List Char) :=
  (behind? back.reverse text.reverse).map List.reverse

/-- Which way a relation key points, seen from the concept above it. -/
inductive Arrow where
  /-- The concept above is the source. -/
  | forward
  /-- The concept above is the target. -/
  | backward
  deriving DecidableEq

/-- A key of an outline that names relations of one type. -/
structure RelationKey where
  /-- Which way the relations point. -/
  arrow : Arrow
  /-- The type of the relations, without the suffix. -/
  type : String
  /-- Whether the key has the suffix for several targets. -/
  toAll : Bool := false
  deriving DecidableEq

namespace RelationKey

/-- The suffix of a type whose relations lead to several targets. -/
def suffix : String := ":to_all"

/-- The key as it is written. -/
def text (key : RelationKey) : String :=
  let body := key.type ++ (if key.toAll then suffix else "")
  match key.arrow with
  | .forward => "-" ++ body ++ "->"
  | .backward => "<-" ++ body ++ "-"

/-- The arrow of a key and what stands between its ends. -/
def split? (text : List Char) : Option (Arrow × List Char) :=
  match behind? ['<', '-'] text >>= before? ['-'] with
  | some body => some (.backward, body)
  | none => (behind? ['-'] text >>= before? ['-', '>']).map fun body => (.forward, body)

/-- The key that a text writes. One suffix is taken off the type. -/
def parse (text : String) : Except OutlineFault RelationKey :=
  match split? text.toList with
  | none => .error (.keyShape text)
  | some (arrow, body) =>
    let (type, toAll) := match before? suffix.toList body with
      | some type => (type, true)
      | none => (body, false)
    if type.isEmpty then .error (.emptyType text)
    else .ok { arrow, type := String.ofList type, toAll }

/-- The triple that a key under one concept says of another. -/
def triple (key : RelationKey) (above below : String) : Triple :=
  match key.arrow with
  | .forward => ⟨above, key.type, below⟩
  | .backward => ⟨below, key.type, above⟩

end RelationKey

namespace Concept

/-- The concept that a reference stands for. The reference is its id, so it must be one, and more
than the mark of unknowns alone. -/
def parseReference (reference : String) : Except Fault Concept :=
  match Limits.checkConceptId reference with
  | .error violation => .error (.violation violation)
  | .ok () =>
    if reference = "?" then .error (.outline (.bareMark reference))
    else .ok (ofReference reference)

end Concept

end KnowledgeGraph
