import ExprLang.Scanner

/-!
# Token sources

Where a parser takes its tokens from, one at a time: a scanner, or a list of tokens that were
made beforehand.
-/
namespace ExprLang

/-- `pull` delivers the next token or the error in its place. `remaining` bounds the number of
tokens before the end of input that are still to come, and `position` says how far the source
has been read. -/
class TokenSource (σ : Type) where
  pull : σ → Except ScanError Token × σ
  remaining : σ → Nat
  position : σ → Nat
  remaining_pull : ∀ {s s' : σ} {token : Token}, pull s = (.ok token, s') →
    token.isEnd = false → remaining s' < remaining s

/-- Every token before the end of input takes at least one byte. -/
instance : TokenSource Scanner where
  pull := Scanner.next
  remaining s := s.rest.length
  position s := s.position.offset
  remaining_pull := Scanner.length_rest_next

/-- Tokens handed out in order, and then an end of input again and again. -/
structure TokenList where
  tokens : List Token
  last : Token
  taken : Nat
  last_isEnd : last.isEnd = true
  deriving DecidableEq, Repr

namespace TokenList

/-- A list of tokens is a source if its last one is an end of input. -/
def ofList? (tokens : List Token) : Option TokenList :=
  match tokens.getLast? with
  | none => none
  | some last => if h : last.isEnd = true then some ⟨tokens.dropLast, last, 0, h⟩ else none

def pull (s : TokenList) : Except ScanError Token × TokenList :=
  match s.tokens with
  | [] => (.ok s.last, { s with taken := s.taken + 1 })
  | token :: tokens => (.ok token, { s with tokens, taken := s.taken + 1 })

theorem length_tokens_pull {s s' : TokenList} {token : Token} (h : s.pull = (.ok token, s'))
    (hend : token.isEnd = false) : s'.tokens.length < s.tokens.length := by
  unfold pull at h
  split at h
  · next hs =>
    simp only [Prod.mk.injEq, Except.ok.injEq] at h
    obtain ⟨rfl, rfl⟩ := h
    rw [s.last_isEnd] at hend
    contradiction
  · next hs =>
    simp only [Prod.mk.injEq] at h
    obtain ⟨_, rfl⟩ := h
    simp [hs]

end TokenList

instance : TokenSource TokenList where
  pull := TokenList.pull
  remaining s := s.tokens.length
  position s := s.taken
  remaining_pull := TokenList.length_tokens_pull

end ExprLang
