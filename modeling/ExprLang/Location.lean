import ExprLang.Quoted

/-!
# Locations and spans

A location names one byte of a source: its file, its line and column counted from one, and its
offset counted from zero. The grammar never depends on locations; they serve messages. A span
runs from the location of a first token to the location of a last one.
-/
namespace ExprLang

structure Location where
  file : String
  line : Int
  column : Int
  offset : Int
  deriving DecidableEq, Repr

namespace Location

def text (l : Location) : String :=
  l.file ++ ":" ++ toString l.line ++ ":" ++ toString l.column

def written (l : Location) : String :=
  "SourceLocation(" ++ Quoted.quote l.file ++ ", " ++ toString l.line ++ ", "
    ++ toString l.column ++ ", " ++ toString l.offset ++ ")"

end Location

structure Span where
  first : Location
  last : Location
  deriving DecidableEq, Repr

namespace Span

/-- The file is named once when both ends share it. -/
def text (s : Span) : String :=
  if s.first.file = s.last.file then
    s.first.text ++ "-" ++ toString s.last.line ++ ":" ++ toString s.last.column
  else s.first.text ++ "-" ++ s.last.text

def join : Option Span → Option Span → Option Span
  | some a, some b => some ⟨a.first, b.last⟩
  | _, _ => none

end Span
end ExprLang
