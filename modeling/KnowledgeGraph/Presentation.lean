import KnowledgeGraph.Outline.Writing

/-!
# Presentation of results

Results are shown in one of two formats: as compact outlines, one on a line, or as indented records.
An empty list of results is shown as a phrase in either.
-/

namespace KnowledgeGraph.Presentation

/-- How results are shown. -/
inductive Format where
  /-- Compact outlines. -/
  | outline
  /-- Indented records. -/
  | record
  deriving DecidableEq

/-- What is shown in place of an empty result. -/
def noMatch : String := "no match"

/-- A value on one line or on indented lines. -/
def valueText : Format → Json → String
  | .outline, value => value.compact
  | .record, value => value.pretty

/-- A graph as a value: its outline or its record. -/
def graphValue : Format → Graph → Json
  | .outline, g => Outline.toJson (Outline.ofGraph g false)
  | .record, g => g.toJson

/-- A graph in a format. -/
def graphText (format : Format) (g : Graph) : String := valueText format (graphValue format g)

/-- Graphs in a format: outlines on lines, or a list of records. -/
def graphsText (format : Format) (graphs : List Graph) : String :=
  if graphs.isEmpty then noMatch
  else
    match format with
    | .outline => String.intercalate "\n" (graphs.map (graphText .outline))
    | .record => (Json.array (graphs.map Graph.toJson)).pretty

end KnowledgeGraph.Presentation
