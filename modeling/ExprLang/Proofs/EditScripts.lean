import ExprLang.EditDistance
import Mathlib.Order.Bounds.Basic
import Mathlib.Order.MinMax

/-!
# Edit scripts

The least number of insertions, deletions and substitutions that turn one text into another is what
the table of distances computes. A sequence of edits may go back and forth over the text. Read as an
alignment, which goes through both texts from front to back, it is no more expensive; and the
cheapest alignments of all prefixes are the rows of the table.
-/
namespace ExprLang.EditDistance

inductive Edit : List Char → List Char → Prop
  | insertion (before after : List Char) (c : Char) : Edit (before ++ after) (before ++ c :: after)
  | deletion (before after : List Char) (c : Char) : Edit (before ++ c :: after) (before ++ after)
  | substitution (before after : List Char) (c d : Char) :
      Edit (before ++ c :: after) (before ++ d :: after)

/-- `Edits n s t`: a sequence of `n` edits turns `s` into `t`. -/
inductive Edits : Nat → List Char → List Char → Prop
  | nil (s : List Char) : Edits 0 s s
  | cons {n : Nat} {s t u : List Char} (first : Edit s t) (others : Edits n t u) :
      Edits (n + 1) s u

variable {m n : Nat} {c d : Char} {s s' t t' u : List Char}

theorem Edit.symm (h : Edit s t) : Edit t s := by
  cases h with
  | insertion before after c => exact .deletion before after c
  | deletion before after c => exact .insertion before after c
  | substitution before after c d => exact .substitution before after d c

/-- At one place a text of at most one character takes the place of another. -/
theorem Edit.exists_parts (h : Edit s t) :
    ∃ before old new after, s = before ++ (old ++ after) ∧ t = before ++ (new ++ after) ∧
      old.length ≤ 1 ∧ new.length ≤ 1 := by
  cases h with
  | insertion before after c => exact ⟨before, [], [c], after, rfl, rfl, by simp, by simp⟩
  | deletion before after c => exact ⟨before, [c], [], after, rfl, rfl, by simp, by simp⟩
  | substitution before after c d =>
    exact ⟨before, [c], [d], after, rfl, rfl, by simp, by simp⟩

theorem Edit.under (h : Edit s t) (c : Char) : Edit (c :: s) (c :: t) := by
  cases h with
  | insertion before after d => exact .insertion (c :: before) after d
  | deletion before after d => exact .deletion (c :: before) after d
  | substitution before after d e => exact .substitution (c :: before) after d e

namespace Edits

theorem under (h : Edits n s t) (c : Char) : Edits n (c :: s) (c :: t) := by
  induction h with
  | nil => exact .nil _
  | cons first _ ih => exact .cons (first.under c) ih

theorem trans (h : Edits m s t) (h' : Edits n t u) : Edits (m + n) s u := by
  induction h with
  | nil => rwa [Nat.zero_add]
  | cons first _ ih =>
    rw [Nat.succ_add]
    exact .cons first (ih h')

theorem symm (h : Edits n s t) : Edits n t s := by
  induction h with
  | nil => exact .nil _
  | cons first _ ih => exact ih.trans (.cons first.symm (.nil _))

theorem eq_of_zero (h : Edits 0 s t) : s = t := by
  cases h with
  | nil => rfl

end Edits

/-- `Aligned n s t`: the texts `s` and `t`, gone through side by side from the front, differ at `n`
places, each a character of one of them only or two characters that are not the same. -/
inductive Aligned : Nat → List Char → List Char → Prop
  | nil : Aligned 0 [] []
  | keep {n : Nat} {s t : List Char} (c : Char) (rest : Aligned n s t) :
      Aligned n (c :: s) (c :: t)
  | insert {n : Nat} {s t : List Char} (d : Char) (rest : Aligned n s t) :
      Aligned (n + 1) s (d :: t)
  | delete {n : Nat} {s t : List Char} (c : Char) (rest : Aligned n s t) :
      Aligned (n + 1) (c :: s) t
  | replace {n : Nat} {s t : List Char} (c d : Char) (rest : Aligned n s t) :
      Aligned (n + 1) (c :: s) (d :: t)

namespace Aligned

theorem refl (s : List Char) : Aligned 0 s s := by
  induction s with
  | nil => exact .nil
  | cons c s ih => exact .keep c ih

theorem edits (h : Aligned n s t) : Edits n s t := by
  induction h with
  | nil => exact .nil []
  | keep c _ ih => exact ih.under c
  | @insert n s t d _ ih => exact .cons (.insertion [] s d) (ih.under d)
  | @delete n s t c _ ih => exact .cons (.deletion [] s c) ih
  | @replace n s t c d _ ih => exact .cons (.substitution [] s c d) (ih.under d)

theorem append (h : Aligned m s t) (h' : Aligned n s' t') :
    Aligned (m + n) (s ++ s') (t ++ t') := by
  induction h with
  | nil => simpa using h'
  | keep c _ ih => exact .keep c ih
  | insert d _ ih =>
    rw [Nat.succ_add]
    exact .insert d ih
  | delete c _ ih =>
    rw [Nat.succ_add]
    exact .delete c ih
  | replace c d _ ih =>
    rw [Nat.succ_add]
    exact .replace c d ih

theorem reverse (h : Aligned n s t) : Aligned n s.reverse t.reverse := by
  induction h with
  | nil => exact .nil
  | keep c _ ih => simpa using ih.append (.keep c .nil)
  | insert d _ ih => simpa using ih.append (.insert d .nil)
  | delete c _ ih => simpa using ih.append (.delete c .nil)
  | replace c d _ ih => simpa using ih.append (.replace c d .nil)

/-- Where one text is cut in two, the other one can be cut too. -/
theorem split (h : Aligned n (s ++ s') t) :
    ∃ k l u u', n = k + l ∧ t = u ++ u' ∧ Aligned k s u ∧ Aligned l s' u' := by
  induction s generalizing n t with
  | nil => exact ⟨0, n, [], t, (Nat.zero_add n).symm, rfl, .nil, h⟩
  | cons b s ih =>
    generalize hw : b :: s ++ s' = w at h
    induction h with
    | nil => contradiction
    | @insert n w t d _ ihrest =>
      obtain ⟨k, l, u, u', rfl, rfl, hs, hs'⟩ := ihrest hw
      exact ⟨k + 1, l, d :: u, u', Nat.add_right_comm k l 1, rfl, .insert d hs, hs'⟩
    | @keep n w t c rest =>
      obtain ⟨rfl, rfl⟩ := List.cons.inj hw
      obtain ⟨k, l, u, u', rfl, rfl, hs, hs'⟩ := ih rest
      exact ⟨k, l, b :: u, u', rfl, rfl, .keep b hs, hs'⟩
    | @delete n w t c rest =>
      obtain ⟨rfl, rfl⟩ := List.cons.inj hw
      obtain ⟨k, l, u, u', rfl, rfl, hs, hs'⟩ := ih rest
      exact ⟨k + 1, l, u, u', Nat.add_right_comm k l 1, rfl, .delete b hs, hs'⟩
    | @replace n w t c d rest =>
      obtain ⟨rfl, rfl⟩ := List.cons.inj hw
      obtain ⟨k, l, u, u', rfl, rfl, hs, hs'⟩ := ih rest
      exact ⟨k + 1, l, d :: u, u', Nat.add_right_comm k l 1, rfl, .replace b d hs, hs'⟩

theorem length_le (h : Aligned n s t) : t.length ≤ s.length + n := by
  induction h with
  | nil => exact Nat.le_refl 0
  | _ =>
    simp only [List.length_cons]
    omega

/-- Two texts differ at no more places than the longer one has. -/
theorem exists_le_max (s t : List Char) : ∃ n ≤ max s.length t.length, Aligned n s t := by
  induction s generalizing t with
  | nil =>
    induction t with
    | nil => exact ⟨0, Nat.zero_le _, .nil⟩
    | cons d t ih =>
      obtain ⟨n, hn, h⟩ := ih
      refine ⟨n + 1, ?_, .insert d h⟩
      simp only [List.length_nil, List.length_cons] at hn ⊢
      omega
  | cons c s ih =>
    obtain ⟨n, hn, h⟩ := ih t.tail
    cases t with
    | nil =>
      refine ⟨n + 1, ?_, .delete c h⟩
      simp only [List.tail_nil, List.length_nil, List.length_cons] at hn ⊢
      omega
    | cons d t =>
      refine ⟨n + 1, ?_, .replace c d h⟩
      simp only [List.tail_cons, List.length_cons] at hn ⊢
      omega

/-- An edit in front of an alignment costs at most one difference, whatever became of the character
that it concerns. -/
theorem edit (h : Aligned n t u) (first : Edit s t) : ∃ k ≤ n + 1, Aligned k s u := by
  obtain ⟨before, old, new, after, rfl, rfl, hold, hnew⟩ := first.exists_parts
  obtain ⟨k, l, v, v', rfl, rfl, hbefore, hrest⟩ := h.split
  obtain ⟨i, j, w, w', rfl, rfl, hmiddle, hafter⟩ := hrest.split
  obtain ⟨i', hi', hmiddle'⟩ := exists_le_max old w
  have hlength := hmiddle.length_le
  exact ⟨k + (i' + j), by omega, hbefore.append (hmiddle'.append hafter)⟩

end Aligned

/-- No sequence of edits is shorter than every alignment. -/
theorem Edits.exists_aligned (h : Edits n s t) : ∃ k ≤ n, Aligned k s t := by
  induction h with
  | nil s => exact ⟨0, Nat.le_refl 0, .refl s⟩
  | cons first _ ih =>
    obtain ⟨k, hk, haligned⟩ := ih
    obtain ⟨k', hk', haligned'⟩ := haligned.edit first
    exact ⟨k', by omega, haligned'⟩

/-- `Cheapest s t k`: an alignment of `s` and `t` has `k` differences at the least. -/
def Cheapest (s t : List Char) (k : Nat) : Prop := IsLeast {n | Aligned n s t} k

namespace Cheapest

variable {i j k : Nat}

theorem nil_left (t : List Char) : Cheapest [] t t.length := by
  constructor
  · induction t with
    | nil => exact .nil
    | cons d t ih => exact .insert d ih
  · intro n h
    generalize hs : [] = s at h
    induction h with
    | nil => exact Nat.zero_le _
    | insert d _ ih => exact Nat.succ_le_succ (ih hs)
    | _ => contradiction

theorem nil_right_cons (h : Cheapest s [] k) (c : Char) : Cheapest (c :: s) [] (k + 1) := by
  refine ⟨.delete c h.1, fun n haligned => ?_⟩
  cases haligned with
  | delete _ rest => exact Nat.succ_le_succ (h.2 rest)

/-- Two characters in front are aligned with each other, or one of them with nothing. -/
theorem cons_cons (above : Cheapest s (d :: t) i) (left : Cheapest (c :: s) t j)
    (diagonal : Cheapest s t k) :
    Cheapest (c :: s) (d :: t) (min (min (i + 1) (j + 1)) (k + if c = d then 0 else 1)) := by
  have hdiagonal : Aligned (k + if c = d then 0 else 1) (c :: s) (d :: t) := by
    by_cases hcd : c = d
    · subst hcd
      simpa using Aligned.keep c diagonal.1
    · simpa [hcd] using Aligned.replace c d diagonal.1
  refine ⟨?_, fun n h => ?_⟩
  · rcases min_choice (min (i + 1) (j + 1)) (k + if c = d then 0 else 1) with hmin | hmin
    · rw [hmin]
      rcases min_choice (i + 1) (j + 1) with hmin | hmin <;> rw [hmin]
      · exact .delete c above.1
      · exact .insert d left.1
    · rw [hmin]
      exact hdiagonal
  · cases h with
    | keep _ rest =>
      rw [if_pos rfl]
      exact (min_le_right _ _).trans (diagonal.2 rest)
    | insert _ rest =>
      exact (min_le_left _ _).trans ((min_le_right _ _).trans (Nat.succ_le_succ (left.2 rest)))
    | delete _ rest =>
      exact (min_le_left _ _).trans ((min_le_left _ _).trans (Nat.succ_le_succ (above.2 rest)))
    | replace _ _ rest =>
      have hle := diagonal.2 rest
      refine (min_le_right _ _).trans ?_
      split <;> omega

end Cheapest

/-- `Row s done todo cells`: the cells are the distances of `s` from `done` and from all that `done`
becomes as the characters of `todo` are put in front of it one by one. -/
inductive Row (s : List Char) : List Char → List Char → List Nat → Prop
  | nil {done : List Char} {k : Nat} (cell : Cheapest s done k) : Row s done [] [k]
  | cons {done todo : List Char} {d : Char} {k : Nat} {cells : List Nat} (cell : Cheapest s done k)
      (rest : Row s (d :: done) todo cells) : Row s done (d :: todo) (k :: cells)

namespace Row

variable {left : Nat} {done todo : List Char} {cells : List Nat}

theorem range (done todo : List Char) :
    Row [] done todo (List.range' done.length (todo.length + 1)) := by
  induction todo generalizing done with
  | nil => exact .nil (.nil_left done)
  | cons d todo ih => exact .cons (.nil_left done) (ih (d :: done))

/-- One row gives the next one, cell by cell. -/
theorem extendRow (h : Row s done todo cells) (hleft : Cheapest (c :: s) done left) :
    Row (c :: s) done todo (left :: EditDistance.extendRow c left todo cells) := by
  induction h generalizing left with
  | nil => exact .nil hleft
  | cons diagonal rest ih =>
    cases rest with
    | nil above => exact .cons hleft (ih (above.cons_cons hleft diagonal))
    | cons above => exact .cons hleft (ih (above.cons_cons hleft diagonal))

theorem nextRow (h : Row s [] todo cells) (c : Char) :
    Row (c :: s) [] todo (EditDistance.nextRow todo cells c) := by
  have hextend {k : Nat} (corner : Cheapest s [] k) := h.extendRow (corner.nil_right_cons c)
  cases h with
  | nil corner => exact hextend corner
  | cons corner => exact hextend corner

theorem foldl (h : Row s [] todo cells) (t : List Char) :
    Row (t.reverse ++ s) [] todo (t.foldl (EditDistance.nextRow todo) cells) := by
  induction t generalizing s cells with
  | nil => exact h
  | cons c t ih => simpa using ih (h.nextRow c)

/-- The last cell is about the whole text. -/
theorem getLastD (h : Row s done todo cells) (fallback : Nat) :
    Cheapest s (todo.reverse ++ done) (cells.getLastD fallback) := by
  induction h generalizing fallback with
  | nil cell => exact cell
  | @cons done todo d k cells cell _ ih =>
    simpa only [List.getLastD_cons, List.reverse_cons, List.append_assoc, List.singleton_append]
      using ih k

end Row

theorem cheapest_lastRow (s t : List Char) :
    Cheapest s.reverse t.reverse ((lastRow s t).getLastD 0) := by
  have hfirst : Row [] [] t (List.range (t.length + 1)) := by
    rw [List.range_eq_range']
    exact Row.range [] t
  simpa [lastRow] using (hfirst.foldl s).getLastD 0

/-- Going through both texts from the back finds the shortest sequences of edits too. -/
theorem isLeast_lastRow (s t : List Char) :
    IsLeast {n | Edits n s t} ((lastRow s t).getLastD 0) := by
  obtain ⟨haligned, hleast⟩ := cheapest_lastRow s t
  constructor
  · have hforward := haligned.reverse
    rw [List.reverse_reverse, List.reverse_reverse] at hforward
    exact hforward.edits
  · intro n h
    obtain ⟨k, hk, hforward⟩ := h.exists_aligned
    exact Nat.le_trans (hleast hforward.reverse) hk

theorem isLeast_distance (s t : List Char) : IsLeast {n | Edits n s t} (distance s t) := by
  unfold distance
  split
  · obtain ⟨hedits, hleast⟩ := isLeast_lastRow t s
    exact ⟨hedits.symm, fun n h => hleast (Edits.symm h)⟩
  · exact isLeast_lastRow s t

/-- The distance is the least number of edits, so it is a metric. -/
theorem distance_is_least :
    (∀ s t, IsLeast {n | Edits n s t} (distance s t)) ∧
      (∀ s t, distance s t = distance t s) ∧
      (∀ s t, distance s t = 0 ↔ s = t) ∧
      ∀ s t u, distance s u ≤ distance s t + distance t u := by
  have hedits (s t : List Char) : Edits (distance s t) s t := (isLeast_distance s t).1
  have hle {n : Nat} {s t : List Char} (h : Edits n s t) : distance s t ≤ n :=
    (isLeast_distance s t).2 h
  refine ⟨isLeast_distance, fun s t => ?_, fun s t => ⟨fun hzero => ?_, ?_⟩, fun s t u => ?_⟩
  · exact Nat.le_antisymm (hle (hedits t s).symm) (hle (hedits s t).symm)
  · have hnone := hedits s t
    rw [hzero] at hnone
    exact hnone.eq_of_zero
  · rintro rfl
    exact Nat.le_zero.1 (hle (.nil s))
  · exact hle ((hedits s t).trans (hedits t u))

/-- A substitution, another one and an insertion. -/
example : distance "kitten".toList "sitting".toList = 3 := by decide

end ExprLang.EditDistance
