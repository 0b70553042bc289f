import ExprLang.Proofs.Spelling
import ExprLang.Syntax
import Mathlib.Algebra.Group.Int.Defs
import Mathlib.Data.List.Forall2

/-!
# Programs as texts

A text for every program, with parentheses around each operand, argument, branch and body, and the
terminals that it is written from. Names, keywords and numbers in it never touch one another.
-/
namespace ExprLang

def grouped (text : String) : String := "(" ++ text ++ ")"

mutual

/-- The text of an expression, everything inside it in parentheses. -/
def Expr.source : Expr → String
  | .number value _ => toString value
  | .reference name _ => name
  | .binary op lhs rhs _ => grouped lhs.source ++ op.symbol ++ grouped rhs.source
  | .call callee args _ => callee ++ grouped (",".intercalate (Expr.sources args))
  | .conditional p t e _ =>
      "if " ++ grouped p.source ++ " then " ++ grouped t.source ++ " else " ++ grouped e.source

def Expr.sources : List Expr → List String
  | [] => []
  | e :: es => grouped e.source :: Expr.sources es

end

def Prototype.source (p : Prototype) : String := p.name ++ grouped (",".intercalate p.params)

def Function.source : Function → String
  | .definition p body _ => "def " ++ p.source ++ " " ++ grouped body.source
  | .external p _ => "extern " ++ p.source
  | .anonymous body _ => grouped body.source

/-- The functions in order, one a line. -/
def sourceOf (fs : List Function) : String := "\n".intercalate (fs.map Function.source)

mutual

/-- An expression with names, binary operators, and numbers of at most `bits` bits only. -/
def Expr.Writable (bits : Nat) : Expr → Prop
  | .number value _ => 0 ≤ value ∧ value ≤ 2 ^ bits - 1
  | .reference name _ => IsName name
  | .binary op lhs rhs _ => op.isBinary = true ∧ lhs.Writable bits ∧ rhs.Writable bits
  | .call callee args _ => IsName callee ∧ Expr.WritableAll bits args
  | .conditional p t e _ => p.Writable bits ∧ t.Writable bits ∧ e.Writable bits

def Expr.WritableAll (bits : Nat) : List Expr → Prop
  | [] => True
  | e :: es => e.Writable bits ∧ Expr.WritableAll bits es

end

def Prototype.Writable (p : Prototype) : Prop := IsName p.name ∧ ∀ param ∈ p.params, IsName param

def Function.Writable (bits : Nat) : Function → Prop
  | .definition p body _ => p.Writable ∧ body.Writable bits
  | .external p _ => p.Writable
  | .anonymous body _ => body.Writable bits

namespace Terminal

def grouped (ts : List Terminal) : List Terminal := .leftParen :: (ts ++ [.rightParen])

def separated (groups : List (List Terminal)) : List Terminal := [comma].intercalate groups

end Terminal

mutual

def Expr.sentence : Expr → List Terminal
  | .number value _ => [.number value]
  | .reference name _ => [.identifier name]
  | .binary op lhs rhs _ =>
      Terminal.grouped lhs.sentence ++ .operator op :: Terminal.grouped rhs.sentence
  | .call callee args _ =>
      .identifier callee :: Terminal.grouped (Terminal.separated (Expr.sentences args))
  | .conditional p t e _ =>
      .keyword .ifWord :: (Terminal.grouped p.sentence ++ .keyword .thenWord ::
        (Terminal.grouped t.sentence ++ .keyword .elseWord :: Terminal.grouped e.sentence))

def Expr.sentences : List Expr → List (List Terminal)
  | [] => []
  | e :: es => Terminal.grouped e.sentence :: Expr.sentences es

end

def Prototype.sentence (p : Prototype) : List Terminal :=
  .identifier p.name :: Terminal.grouped (Terminal.separated (p.params.map ([.identifier ·])))

def Function.sentence : Function → List Terminal
  | .definition p body _ =>
      .keyword .define :: (p.sentence ++ Terminal.grouped body.sentence)
  | .external p _ => .keyword .external :: p.sentence
  | .anonymous body _ => Terminal.grouped body.sentence

namespace Written

variable {bits : Nat} {ts us : List Terminal} {text more : String}

theorem leftParen (h : Written bits ts text) : Written bits (.leftParen :: ts) ("(" ++ text) :=
  .mark 0x28 (by simp [Byte.punctuation]) h

theorem rightParen (h : Written bits ts text) : Written bits (.rightParen :: ts) (")" ++ text) :=
  .mark 0x29 (by simp [Byte.punctuation]) h

theorem comma (h : Written bits ts text) : Written bits (.comma :: ts) ("," ++ text) :=
  .mark 0x2c (by simp [Byte.punctuation]) h

theorem operator {op : Operator} (binary : op.isBinary = true) (h : Written bits ts text) :
    Written bits (.operator op :: ts) (op.symbol ++ text) := by
  obtain ⟨byte, listed, hsymbol⟩ := Byte.exists_mark binary
  exact hsymbol ▸ .mark byte listed h

theorem space (h : Written bits ts text) : Written bits ts (" " ++ text) :=
  .blank 0x20 (by simp [Byte.blanks]) h

theorem lineFeed (h : Written bits ts text) : Written bits ts ("\n" ++ text) :=
  .blank 0x0a (by simp [Byte.blanks]) h

theorem keyword (k : Keyword) (start : String) (hstart : start = k.spelling ++ " ")
    (h : Written bits ts text) : Written bits (.keyword k :: ts) (start ++ text) := by
  rw [← k.ofWord_spelling, hstart, String.append_assoc]
  exact .word k.isWord_spelling (endsRun_of_opens (opens_append (by decide +kernel) _)) h.space

theorem keywordBetween (k : Keyword) (between : String)
    (hbetween : between = " " ++ (k.spelling ++ " ")) (h : Written bits ts text) :
    Written bits (.keyword k :: ts) (between ++ text) := by
  rw [hbetween, String.append_assoc]
  exact (h.keyword k _ rfl).space

theorem name {name : String} (hname : IsName name)
    (ends : EndsRun Byte.isWordByte (Byte.ofText text)) (h : Written bits ts text) :
    Written bits (.identifier name :: ts) (name ++ text) := by
  rw [← hname.ofWord_eq]
  exact .word hname.toIsWord ends h

theorem group (h : Written bits us more) (rest : Written bits ts text) :
    Written bits (Terminal.grouped us ++ ts) (grouped more ++ text) := by
  have hclosed := h.append rest.rightParen (opens_append (by decide +kernel) _)
  simpa [Terminal.grouped, grouped, String.append_assoc] using hclosed.leftParen

/-- Between texts may stand whatever can stand in front of a text. -/
theorem intercalate {between : List Terminal} {gap : String} {groups : List (List Terminal)}
    {texts : List String} (hopens : opens gap = true)
    (hgap : ∀ {ts text}, Written bits ts text → Written bits (between ++ ts) (gap ++ text))
    (h : List.Forall₂ (Written bits) groups texts) :
    Written bits (between.intercalate groups) (gap.intercalate texts) := by
  induction h with
  | nil => simpa using nil
  | @cons ts text groups texts first others ih =>
    cases others with
    | nil => simpa using first
    | cons =>
      rw [List.intercalate_cons_cons, String.intercalate_cons_cons, List.append_assoc,
        String.append_assoc]
      exact first.append (hgap ih) (opens_append hopens _)

end Written

theorem opens_grouped (text : String) : opens (grouped text) = true := by
  rw [grouped, String.append_assoc]
  exact opens_append (by decide +kernel) _

section Written

variable {bits : Nat} {ts : List Terminal} {text : String}

/-- A name with a list in parentheses behind it. -/
theorem written_call {callee : String} (hname : IsName callee)
    {groups : List (List Terminal)} {texts : List String}
    (h : List.Forall₂ (Written bits) groups texts) (rest : Written bits ts text) :
    Written bits (.identifier callee :: (Terminal.grouped (Terminal.separated groups) ++ ts))
      (callee ++ (grouped (",".intercalate texts) ++ text)) := by
  have hgroup : Written bits (Terminal.separated groups) (",".intercalate texts) :=
    Written.intercalate (by decide +kernel) Written.comma h
  exact .name hname (endsRun_of_opens (opens_append (opens_grouped _) _)) (hgroup.group rest)

mutual

theorem Expr.written_source (e : Expr) (h : e.Writable bits) :
    Written bits e.sentence e.source := by
  cases e with
  | number value span =>
    obtain ⟨n, rfl⟩ := Int.eq_ofNat_of_zero_le h.1
    have hpow : ((2 ^ bits : Nat) : Int) = 2 ^ bits := by simp
    have hfits : n ≤ 2 ^ bits - 1 := by
      have hle := h.2
      omega
    have hnumber := Written.number hfits endsRun_empty .nil
    rwa [String.append_empty] at hnumber
  | reference name span => simpa [Expr.source, Expr.sentence] using Written.name h endsRun_empty .nil
  | binary op lhs rhs span =>
    obtain ⟨binary, hl, hr⟩ := h
    have hrhs := (rhs.written_source hr).group .nil
    simpa [Expr.source, Expr.sentence, String.append_assoc] using
      (lhs.written_source hl).group (hrhs.operator binary)
  | call callee args span =>
    simpa [Expr.source, Expr.sentence] using
      written_call h.1 (Expr.written_sources args h.2) .nil
  | conditional p t e span =>
    obtain ⟨hp, ht, he⟩ := h
    have helse := ((e.written_source he).group .nil).keywordBetween .elseWord " else " rfl
    have hthen := ((t.written_source ht).group helse).keywordBetween .thenWord " then " rfl
    have hif := ((p.written_source hp).group hthen).keyword .ifWord "if " rfl
    simpa [Expr.source, Expr.sentence, String.append_assoc] using hif

theorem Expr.written_sources (es : List Expr) (h : Expr.WritableAll bits es) :
    List.Forall₂ (Written bits) (Expr.sentences es) (Expr.sources es) := by
  cases es with
  | nil => exact .nil
  | cons e es =>
    refine .cons ?_ (Expr.written_sources es h.2)
    simpa using (e.written_source h.1).group .nil

end

theorem Prototype.written_source (p : Prototype) (h : p.Writable) (rest : Written bits ts text) :
    Written bits (p.sentence ++ ts) (p.source ++ text) := by
  have hparams : List.Forall₂ (Written bits) (p.params.map ([.identifier ·])) p.params := by
    rw [List.forall₂_map_left_iff, List.forall₂_same]
    exact fun param hparam => by simpa using Written.name (h.2 param hparam) endsRun_empty .nil
  simpa [Prototype.sentence, Prototype.source, String.append_assoc] using
    written_call h.1 hparams rest

theorem Function.written_source (f : Function) (h : f.Writable bits) :
    Written bits f.sentence f.source := by
  cases f with
  | definition p body span =>
    have hbody := (body.written_source h.2).group .nil
    have hdefine := (p.written_source h.1 hbody.space).keyword .define "def " rfl
    simpa [Function.source, Function.sentence, String.append_assoc] using hdefine
  | external p span =>
    have hprototype : Written bits (p.sentence ++ []) (p.source ++ "") :=
      p.written_source h .nil
    simpa [Function.source, Function.sentence] using hprototype.keyword .external "extern " rfl
  | anonymous body span =>
    simpa [Function.source, Function.sentence] using (body.written_source h).group .nil

theorem intercalate_nil_left (groups : List (List Terminal)) :
    [].intercalate groups = groups.flatten := by
  induction groups with
  | nil => rfl
  | cons ts groups ih =>
    cases groups with
    | nil => simp
    | cons =>
      rw [List.intercalate_cons_cons, ih]
      simp

theorem written_sourceOf (fs : List Function) (h : ∀ f ∈ fs, f.Writable bits) :
    Written bits (fs.flatMap Function.sentence) (sourceOf fs) := by
  have hfs : List.Forall₂ (Written bits) (fs.map Function.sentence) (fs.map Function.source) := by
    rw [List.forall₂_map_left_iff, List.forall₂_map_right_iff, List.forall₂_same]
    exact fun f hf => f.written_source (h f hf)
  have hlines : Written bits (List.intercalate [] (fs.map Function.sentence)) (sourceOf fs) :=
    Written.intercalate (by decide +kernel) Written.lineFeed hfs
  rwa [intercalate_nil_left, ← List.flatMap_def] at hlines

end Written

end ExprLang
