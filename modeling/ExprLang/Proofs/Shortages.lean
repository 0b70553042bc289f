import ExprLang.Host
import ExprLang.Proofs.NumberWidth
import ExprLang.Proofs.WellFormed

/-!
# Shortages

What a host runs short of. Of the errors of a scanner only those about numbers may be too long to
write, and these exactly where the largest number of the width is. A tree is printed unless a path
through it is longer than the stack goes or a number in it is too long to write.
-/
namespace ExprLang

theorem Segment.fault {bits : Nat} {place : Location} {segment rest : List UInt8} {e : ScanError}
    (h : Segment bits place segment rest (.error e)) :
    (∃ byte : UInt8, e.fault = .invalidByte byte.toNat) ∨
      ∃ digits, e.fault = .numberOverflow digits bits := by
  cases h with
  | overflow => exact .inr ⟨_, rfl⟩
  | invalid => exact .inl ⟨_, rfl⟩

/-- An error of a scanner is about a byte, or about a number too large for its width. -/
theorem Scanner.fault_of_next {s : Scanner} {e : ScanError} (h : s.next.1 = .error e) :
    (∃ byte : UInt8, e.fault = .invalidByte byte.toNat) ∨
      ∃ digits, e.fault = .numberOverflow digits s.numberBits := by
  rcases s.ends_or_segment with ⟨place, hend⟩ | ⟨place, segment, rest, hsegment⟩
  · rw [hend] at h
    contradiction
  · rw [h] at hsegment
    exact hsegment.fault

namespace ScanFault

variable {host : Host} {digits : String} {bits : Nat}

theorem numbers_numberOverflow :
    (numberOverflow digits bits).numbers = [(bits : Int), (2 ^ bits - 1 : Nat)] := rfl

theorem writes_numberOverflow (h : host.writes ((2 ^ bits - 1 : Nat) : Int) = true) :
    ∀ n ∈ (numberOverflow digits bits).numbers, host.writes n = true := by
  have hle : (bits : Int).natAbs ≤ ((2 ^ bits - 1 : Nat) : Int).natAbs := by
    rw [Int.natAbs_natCast, Int.natAbs_natCast]
    exact Nat.le_sub_one_of_lt Nat.lt_two_pow_self
  rw [numbers_numberOverflow, List.forall_mem_cons, List.forall_mem_singleton]
  exact ⟨Host.writes_of_le hle h, h⟩

/-- Of the numbers in the text of an error only the largest number of a width may be too long. -/
theorem exists_unwritten_iff :
    (∃ n ∈ (numberOverflow digits bits).numbers, host.writes n = false) ↔
      host.writes ((2 ^ bits - 1 : Nat) : Int) = false := by
  constructor
  · rintro ⟨n, hn, hlong⟩
    refine Bool.eq_false_iff.2 fun h => ?_
    simp [writes_numberOverflow h n hn] at hlong
  · intro hlong
    exact ⟨_, List.mem_cons_of_mem _ List.mem_cons_self, hlong⟩

theorem writes_invalidByte (host : Host) (byte : UInt8) :
    ∀ n ∈ (invalidByte byte.toNat).numbers, host.writes n = true := by
  have hlt : byte.toNat < 256 := byte.toNat_lt
  simpa [numbers] using Host.writes_of_digits (h := host) (n := byte.toNat) (d := 3)
    (by decide) (by simp; omega)

end ScanFault

theorem Node.exists_path (n : Node) : ∃ ns, n.Path ns := by
  induction n using Node.induction_on_children with
  | h n ih =>
    cases hchildren : n.children with
    | nil => exact ⟨_, .leaf hchildren⟩
    | cons c cs =>
      have hc : c ∈ n.children := by simp [hchildren]
      obtain ⟨ns, hns⟩ := ih c hc
      exact ⟨_, .step hc hns⟩

namespace Host

variable {h : Host} {above : Nat} {n c : Node} {s : Shortage}

/-- What is missing to print a node that has so many nodes above it, and the tree below: some path
is longer than the stack goes, or some number is too long to write. -/
def Lacks (h : Host) (above : Nat) (n : Node) : Shortage → Prop
  | .stack => ∃ ns, n.Path ns ∧ h.levels.all (above + ns.length ≤ ·) = false
  | .digits => ∃ m ∈ n.walk, ∃ value, m.number? = some value ∧ h.writes value = false

def LacksAt (h : Host) (above : Nat) (n : Node) : Shortage → Prop
  | .stack => h.levels.all (above < ·) = false
  | .digits => ∃ value, n.number? = some value ∧ h.writes value = false

theorem Lacks.of_at (hs : h.LacksAt above n s) : h.Lacks above n s := by
  cases s with
  | digits => exact ⟨n, n.walk_eq_cons ▸ List.mem_cons_self, hs⟩
  | stack =>
    obtain ⟨ns, hns⟩ := n.exists_path
    have hpos := List.length_pos_iff.2 hns.ne_nil
    obtain ⟨most, hmost⟩ : ∃ most, h.levels = some most := by
      cases hlevels : h.levels <;> simp_all [LacksAt]
    refine ⟨ns, hns, ?_⟩
    simp only [LacksAt, hmost, Option.all_some, decide_eq_false_iff_not] at hs ⊢
    omega

theorem Lacks.of_child (hc : c ∈ n.children) (hs : h.Lacks (above + 1) c s) :
    h.Lacks above n s := by
  cases s with
  | digits =>
    obtain ⟨m, hm, hvalue⟩ := hs
    rw [Lacks, Node.walk_eq_cons]
    exact ⟨m, List.mem_cons_of_mem _ (List.mem_flatMap.2 ⟨c, hc, hm⟩), hvalue⟩
  | stack =>
    obtain ⟨ns, hns, hlong⟩ := hs
    refine ⟨_, .step hc hns, ?_⟩
    rwa [List.length_cons, Nat.add_comm ns.length, ← Nat.add_assoc]

/-- It is missing at the node itself or below one of its children. -/
theorem Lacks.cases (hs : h.Lacks above n s) :
    h.LacksAt above n s ∨ ∃ c ∈ n.children, h.Lacks (above + 1) c s := by
  cases s with
  | digits =>
    obtain ⟨m, hm, hvalue⟩ := hs
    rw [Node.walk_eq_cons, List.mem_cons, List.mem_flatMap] at hm
    rcases hm with rfl | ⟨c, hc, hm⟩
    · exact .inl hvalue
    · exact .inr ⟨c, hc, m, hm, hvalue⟩
  | stack =>
    obtain ⟨ns, hns, hlong⟩ := hs
    cases hns with
    | leaf => exact .inl hlong
    | @step _ c ns hc rest =>
      rw [List.length_cons, Nat.add_comm ns.length, ← Nat.add_assoc] at hlong
      exact .inr ⟨c, hc, ns, rest, hlong⟩

theorem forM_eq_ok {α ε : Type} {f : α → Except ε Unit} {as : List α} :
    as.forM f = .ok () ↔ ∀ a ∈ as, f a = .ok () := by
  induction as with
  | nil => simp [pure, Except.pure]
  | cons a as ih =>
    rw [List.forall_mem_cons, ← ih]
    cases h : f a <;> simp [List.forM_cons, bind, Except.bind, h]

theorem exists_of_forM_eq_error {α ε : Type} {f : α → Except ε Unit} {as : List α} {e : ε}
    (h : as.forM f = .error e) : ∃ a ∈ as, f a = .error e := by
  induction as with
  | nil => simp [pure, Except.pure] at h
  | cons a as ih =>
    cases hfa : f a with
    | error e' =>
      simp only [List.forM_eq_forM, List.forM_cons, bind, Except.bind, hfa] at h
      exact ⟨a, by simp, hfa.trans h⟩
    | ok u =>
      simp only [List.forM_eq_forM, List.forM_cons, bind, Except.bind, hfa] at h
      obtain ⟨b, hb, hfb⟩ := ih h
      exact ⟨b, List.mem_cons_of_mem _ hb, hfb⟩

theorem writesAll_eq_ok {numbers : List Int} :
    h.writesAll numbers = .ok () ↔ ∀ value ∈ numbers, h.writes value = true := by
  unfold writesAll
  split <;> simp_all

theorem eq_digits_of_writesAll {numbers : List Int} (hs : h.writesAll numbers = .error s) :
    s = .digits ∧ ∃ value ∈ numbers, h.writes value = false := by
  unfold writesAll at hs
  split at hs <;> simp_all

/-- A print stops at the node or in the print of a child, or it goes through both. -/
theorem print_cases (h : Host) (above : Nat) (n : Node) :
    (h.print above n = .ok () ∧ (∀ s, ¬ h.LacksAt above n s) ∧
      ∀ c ∈ n.children, h.print (above + 1) c = .ok ()) ∨
    ∃ s, h.print above n = .error s ∧
      (h.LacksAt above n s ∨ ∃ c ∈ n.children, h.print (above + 1) c = .error s) := by
  rw [print_eq]
  cases hroom : h.levels.all (above < ·) with
  | false =>
    have hdescend : h.descend above = .error .stack := by simp [descend, hroom]
    exact .inr ⟨.stack, by rw [hdescend]; rfl, .inl hroom⟩
  | true =>
    have hdescend : h.descend above = .ok () := by simp [descend, hroom]
    rw [hdescend]
    cases hwrites : h.writesAll n.number?.toList with
    | error s =>
      obtain ⟨rfl, value, hvalue, hlong⟩ := eq_digits_of_writesAll hwrites
      exact .inr ⟨.digits, rfl, .inl ⟨value, by simpa using hvalue, hlong⟩⟩
    | ok u =>
      cases hchildren : n.children.forM (h.print (above + 1)) with
      | error s =>
        exact .inr ⟨s, rfl, .inr (exists_of_forM_eq_error hchildren)⟩
      | ok u =>
        refine .inl ⟨rfl, fun s hs => ?_, forM_eq_ok.1 hchildren⟩
        cases s with
        | stack => simp [LacksAt, hroom] at hs
        | digits =>
          obtain ⟨value, hvalue, hlong⟩ := hs
          have hwritten := writesAll_eq_ok.1 hwrites value (by simp [hvalue])
          simp [hlong] at hwritten

theorem lacks_of_print (hs : h.print above n = .error s) : h.Lacks above n s := by
  induction n using Node.induction_on_children generalizing above with
  | h n ih =>
    rcases h.print_cases above n with ⟨hok, _⟩ | ⟨s', herror, hat | ⟨c, hc, hbelow⟩⟩
    · rw [hok] at hs
      contradiction
    · rw [herror, Except.error.injEq] at hs
      exact hs ▸ .of_at hat
    · rw [herror, Except.error.injEq] at hs
      exact .of_child hc (ih c hc (hs ▸ hbelow))

theorem not_lacks_of_print (hok : h.print above n = .ok ()) (s : Shortage) :
    ¬ h.Lacks above n s := by
  induction n using Node.induction_on_children generalizing above with
  | h n ih =>
    rcases h.print_cases above n with ⟨_, hat, hbelow⟩ | ⟨s', herror, _⟩
    · intro hs
      rcases hs.cases with hs | ⟨c, hc, hs⟩
      · exact hat s hs
      · exact ih c hc (hbelow c hc) hs
    · rw [hok] at herror
      contradiction

/-- A tree is printed unless something is missing for it. -/
theorem print_eq_error_iff :
    (∃ s, h.print above n = .error s) ↔ ∃ s, h.Lacks above n s := by
  constructor
  · rintro ⟨s, hs⟩
    exact ⟨s, lacks_of_print hs⟩
  · rintro ⟨s, hs⟩
    cases hprint : h.print above n with
    | error s' => exact ⟨s', rfl⟩
    | ok u => exact absurd hs (not_lacks_of_print hprint s)

end Host
end ExprLang
