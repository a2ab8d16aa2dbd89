import PortGraph.Json.Path
import PortGraph.Json.Written

/-!
Templates: text with path tokens in double braces. A token gives way to the value that its path
selects; what is put in is never looked at again. Braces that do not close are text.
-/

namespace PortGraph.Template

inductive Piece
  | literal (text : List Char)
  | token (expression : List Char)
deriving DecidableEq, Repr

def pieces (cs : List Char) : List Piece :=
  match h : Text.splitAt? ['{', '{'] cs with
  | none => [.literal cs]
  | some (before, after) =>
      match h' : Text.splitAt? ['}', '}'] after with
      | none => [.literal cs]
      | some (expression, rest) =>
          have : rest.length < cs.length :=
            Nat.lt_trans (Text.length_of_splitAt? (by simp) h')
              (Text.length_of_splitAt? (by simp) h)
          .literal before :: .token expression :: pieces rest
termination_by cs.length

/-- The text of a selected value: texts as they are, nothing for null. -/
def inserted : Option Json → List Char
  | some (.string s) => s.toList
  | some .null | none => []
  | some v => v.write

def Piece.render (v : Json) : Piece → Except Path.Error (List Char)
  | .literal cs => .ok cs
  | .token expression =>
      (Path.parse (String.ofList expression)).map fun path => inserted (path.select? v)

def render (template : String) (v : Json) : Except Path.Error String :=
  ((pieces template.toList).mapM (Piece.render v)).map fun parts => String.ofList parts.flatten

end PortGraph.Template
