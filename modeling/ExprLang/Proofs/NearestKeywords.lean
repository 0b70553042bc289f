import ExprLang.KeywordHint
import ExprLang.LetterCase
import ExprLang.Proofs.EditScripts

/-!
# Nearest keywords

The hints for a word are the first three of all keywords within two edits of it in lower case,
nearest first, where equally near ones come in table order. The table of distances is the least
number of edits, the sort keeps table order, and the list is cut only behind it.
-/
namespace ExprLang.KeywordHint

open EditDistance

variable {lowered word : String} {a b k : Keyword} {m n : Nat}

/-- The keyword is `n` edits away, and no fewer turn the lowered word into it. -/
def Away (lowered : String) (k : Keyword) (n : Nat) : Prop :=
  IsLeast {m | Edits m lowered.toList k.spelling.toList} n

theorem away_iff : Away lowered k n ↔ distanceTo lowered k = n := by
  have hleast : Away lowered k (distanceTo lowered k) := isLeast_distance _ _
  exact ⟨hleast.unique, fun h => h ▸ hleast⟩

/-- The keyword `a` is nearer than `b`, or it is equally near and stands before `b` in the table. -/
def Before (lowered : String) (a b : Keyword) : Prop :=
  ∃ m n, Away lowered a m ∧ Away lowered b n ∧
    (m < n ∨ m = n ∧ Keyword.all.idxOf a < Keyword.all.idxOf b)

def sorted (word lowered : String) : List Keyword :=
  (candidates word lowered).mergeSort fun a b => distanceTo lowered a ≤ distanceTo lowered b

theorem nearest_eq (lower : String → String) (word : String) :
    nearest lower word = (sorted word (lower word)).take 3 := rfl

theorem mem_sorted : k ∈ sorted word lowered ↔ k.spelling ≠ word ∧ distanceTo lowered k ≤ 2 := by
  have hall : k ∈ Keyword.all := by cases k <;> decide
  simp only [sorted, candidates, List.mem_mergeSort, List.mem_filter, hall, true_and,
    Bool.and_eq_true, bne_iff_ne, decide_eq_true_eq]
  exact Iff.rfl

theorem nodup_sorted (word lowered : String) : (sorted word lowered).Nodup := by
  have hall : Keyword.all.Nodup := by decide
  exact (List.mergeSort_perm _ _).nodup_iff.2 (hall.filter _)

theorem pair_sublist_all (h : Keyword.all.idxOf a < Keyword.all.idxOf b) :
    [a, b].Sublist Keyword.all := by
  cases a <;> cases b <;> first | contradiction | decide

theorem idxOf_lt_or_lt (h : a ≠ b) :
    Keyword.all.idxOf a < Keyword.all.idxOf b ∨ Keyword.all.idxOf b < Keyword.all.idxOf a := by
  cases a <;> cases b <;> first | contradiction | decide

/-- In a list without repetitions two elements stand in one order only. -/
theorem not_pair_sublist {l : List Keyword} (hl : l.Nodup) (hab : [a, b].Sublist l) :
    ¬ [b, a].Sublist l := by
  intro hba
  obtain ⟨before, behind, rfl, ha, hb⟩ := List.cons_sublist_iff.1 hab
  obtain ⟨before', behind', hsplit, hb', ha'⟩ := List.cons_sublist_iff.1 hba
  rw [List.singleton_sublist] at hb ha'
  rcases List.append_eq_append_iff.1 hsplit with ⟨mid, rfl, rfl⟩ | ⟨mid, rfl, rfl⟩
  · rw [← List.append_assoc] at hl
    exact (List.nodup_append.1 hl).2.2 a (List.mem_append_left mid ha) a ha' rfl
  · exact (List.nodup_append.1 hl).2.2 b (List.mem_append_left mid hb') b hb rfl

/-- Of two keywords that are equally near the sort keeps the one first that is so in the table. -/
theorem before_of_pair_sublist (h : [a, b].Sublist (sorted word lowered)) : Before lowered a b := by
  have hle : distanceTo lowered a ≤ distanceTo lowered b := by
    have hpairwise := @List.pairwise_mergeSort Keyword
      (fun a b => decide (distanceTo lowered a ≤ distanceTo lowered b))
      (fun a b c => by simpa using Nat.le_trans) (fun a b => by simpa using Nat.le_total _ _)
      (candidates word lowered)
    simpa using List.pairwise_iff_forall_sublist.1 hpairwise h
  refine ⟨_, _, away_iff.2 rfl, away_iff.2 rfl, ?_⟩
  rcases Nat.lt_or_eq_of_le hle with hlt | heq
  · exact .inl hlt
  refine .inr ⟨heq, ?_⟩
  have hnodup := nodup_sorted word lowered
  have hne : a ≠ b := by simpa using hnodup.sublist h
  by_contra hnot
  have hindex : Keyword.all.idxOf b < Keyword.all.idxOf a :=
    (idxOf_lt_or_lt hne).resolve_left hnot
  -- the other way round they would stand in the table, and so behind the sort
  have ha := mem_sorted.1 (h.subset List.mem_cons_self)
  have hb := mem_sorted.1 (h.subset (List.mem_cons_of_mem a List.mem_cons_self))
  have hcandidates : [b, a].Sublist (candidates word lowered) := by
    simpa [candidates, reach, ha, hb] using (pair_sublist_all hindex).filter
      fun k => k.spelling != word && decide (distanceTo lowered k ≤ reach)
  have hswapped : [b, a].Sublist (sorted word lowered) :=
    List.pair_sublist_mergeSort (fun a b c => by simpa using Nat.le_trans)
      (fun a b => by simpa using Nat.le_total _ _) (by simpa using heq.ge) hcandidates
  exact not_pair_sublist hnodup h hswapped

theorem pairwise_sorted (word lowered : String) :
    (sorted word lowered).Pairwise (Before lowered) :=
  List.pairwise_iff_forall_sublist.2 before_of_pair_sublist

/-- A text differs from a longer one in one edit for each further character at least. -/
theorem length_le_of_away (h : Away lowered k n) : lowered.length ≤ k.spelling.length + n := by
  obtain ⟨i, hi, haligned⟩ := (Edits.symm h.1).exists_aligned
  have hlength := haligned.length_le
  simp only [String.length_toList] at hlength
  omega

structure Nearest (lowered word : String) (hints : List Keyword) : Prop where
  nodup : hints.Nodup
  length_le : hints.length ≤ 3
  near : ∀ k ∈ hints, k.spelling ≠ word ∧ ∃ n ≤ 2, Away lowered k n
  ordered : hints.Pairwise (Before lowered)
  missing : ∀ k n, k.spelling ≠ word → Away lowered k n → n ≤ 2 → k ∉ hints →
    hints.length = 3 ∧ ∀ hint ∈ hints, (∃ m ≤ n, Away lowered hint m) ∧ Before lowered hint k
  none_of_long : 8 < lowered.length → hints = []

theorem Before.exists_le (h : Before lowered a b) (hb : Away lowered b n) :
    ∃ m ≤ n, Away lowered a m := by
  obtain ⟨m, n', ha, hb', hlt | ⟨heq, _⟩⟩ := h
  · obtain rfl := hb.unique hb'
    exact ⟨m, hlt.le, ha⟩
  · obtain rfl := hb.unique hb'
    exact ⟨m, heq.le, ha⟩

/-- However letters are lowered, a word is given the keywords that are nearest to it. -/
theorem hints_are_nearest (lower : String → String) (word : String) :
    Nearest (lower word) word (nearest lower word) := by
  rw [nearest_eq]
  generalize lower word = lowered
  have hcut := (sorted word lowered).take_append_drop 3
  have hpairwise := pairwise_sorted word lowered
  have hmem {k : Keyword} (hk : k ∈ (sorted word lowered).take 3) :=
    mem_sorted.1 (List.mem_of_mem_take hk)
  refine ⟨(nodup_sorted word lowered).sublist (List.take_sublist 3 _), List.length_take_le 3 _,
    fun k hk => ?_, hpairwise.sublist (List.take_sublist 3 _), ?_, fun hlong => ?_⟩
  · exact ⟨(hmem hk).1, _, (hmem hk).2, away_iff.2 rfl⟩
  · intro k n hne haway hn hnot
    have hk : k ∈ sorted word lowered := mem_sorted.2 ⟨hne, away_iff.1 haway ▸ hn⟩
    rw [← hcut, List.mem_append] at hk
    have hbehind := hk.resolve_left hnot
    have hlength := List.length_pos_of_mem hbehind
    rw [List.length_drop] at hlength
    rw [← hcut, List.pairwise_append] at hpairwise
    refine ⟨by rw [List.length_take]; omega, fun hint hhint => ?_⟩
    have hbefore := hpairwise.2.2 hint hhint k hbehind
    exact ⟨hbefore.exists_le haway, hbefore⟩
  · refine List.eq_nil_iff_forall_not_mem.2 fun k hk => ?_
    have hlength := length_le_of_away (away_iff.2 (rfl : distanceTo lowered k = _))
    have hnear := (hmem hk).2
    have hspelling : k.spelling.length ≤ 6 := by cases k <;> decide
    omega

/-- Three keywords are two edits away, and they come in table order. -/
example : nearest LetterCase.lower "En" = [.define, .ifWord, .thenWord] := by cbv

end ExprLang.KeywordHint
