import ExprLang.LetterCase
import ExprLang.Location

/-!
# Diagnostics

What is reported about a source: a message, the place it concerns and its severity, with an
optional code, help text and list of suggestions.
-/
namespace ExprLang

structure Diagnostic where
  message : String
  location : Location
  severity : String
  code : Option String := none
  help : Option String := none
  suggestions : Option (List String) := none
  deriving DecidableEq, Repr

namespace Diagnostic

def error : String := "error"

/-- An empty help text is not shown. -/
def helpLine (d : Diagnostic) : String :=
  match d.help with
  | none => ""
  | some help => if help.isEmpty then "" else "  help: " ++ help ++ "\n"

/-- An empty list of suggestions is not shown. -/
def suggestionLines (d : Diagnostic) : String :=
  match d.suggestions with
  | none | some [] => ""
  | some suggestions =>
      "  suggestions:\n" ++ String.join (suggestions.map fun s => "    - " ++ s ++ "\n")

def render (d : Diagnostic) : String :=
  LetterCase.upper d.severity ++ ": " ++ d.message ++ "\n"
    ++ "  --> " ++ d.location.text ++ "\n"
    ++ d.helpLine ++ d.suggestionLines

end Diagnostic

/-- The titles of one family of errors, by code and in code order. -/
abbrev CodeTable := List (String × String)

def CodeTable.title? (table : CodeTable) (code : Option String) : Option String :=
  code.bind fun c => List.lookup c table

end ExprLang
