/-!
# Keywords

The five reserved words. A word is a keyword exactly when it is spelt like one, letter case
included.
-/
namespace ExprLang

inductive Keyword
  | define
  | external
  | ifWord
  | thenWord
  | elseWord
  deriving DecidableEq, Repr

namespace Keyword

def all : List Keyword := [define, external, ifWord, thenWord, elseWord]

def spelling : Keyword → String
  | define => "def"
  | external => "extern"
  | ifWord => "if"
  | thenWord => "then"
  | elseWord => "else"

def kindName : Keyword → String
  | define => "DEF"
  | external => "EXTERN"
  | ifWord => "IF"
  | thenWord => "THEN"
  | elseWord => "ELSE"

def ofSpelling? (word : String) : Option Keyword := all.find? (·.spelling == word)

end Keyword
end ExprLang
