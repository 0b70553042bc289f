import ExprLang.EditDistance
import ExprLang.Keyword

/-!
# Keyword hints

The keywords that a word may have been meant for: those within edit distance two of the word in
lower case, nearest first, at most three. The lowering of letters is a parameter.
-/
namespace ExprLang.KeywordHint

def reach : Nat := 2

def limit : Nat := 3

def distanceTo (lowered : String) (k : Keyword) : Nat :=
  EditDistance.distance lowered.toList k.spelling.toList

/-- The keywords other than the word itself that are near its lowered form. -/
def candidates (word lowered : String) : List Keyword :=
  Keyword.all.filter fun k => k.spelling != word && distanceTo lowered k ≤ reach

/-- The sort is stable: keywords at the same distance stay in table order. -/
def nearest (lower : String → String) (word : String) : List Keyword :=
  ((candidates word (lower word)).mergeSort
    fun a b => distanceTo (lower word) a ≤ distanceTo (lower word) b).take limit

end ExprLang.KeywordHint
