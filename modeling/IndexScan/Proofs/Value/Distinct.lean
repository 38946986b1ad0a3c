import Mathlib.Data.List.Basic
import IndexScan.Proofs.Value.Digest
import IndexScan.Value.Distinct

/-!
# First occurrences up to equality

Equality of values does not mean identity, so what is known of `List.eraseDups` for lawful equality
is shown here for any equivalence.  Its recursion is on the list without the equals of its head, and
`Distinct.induct` is that recursion as an induction.  Going through a list with what has been seen
gives the first occurrences of what has not (`Distinct.unseen_eq`).
-/

namespace IndexScan.Distinct

variable {α β : Type}

section

variable [BEq α]

theorem induct {motive : List α → Prop} (nil : motive [])
    (cons : ∀ a l, motive (l.filter fun b => !b == a) → motive (a :: l)) (l : List α) :
    motive l := by
  induction hn : l.length using Nat.strong_induction_on generalizing l with
  | _ n ih =>
    subst hn
    cases l with
    | nil => exact nil
    | cons a l => exact cons a l (ih _ (Nat.lt_succ_of_le (List.length_filter_le _ _)) _ rfl)

theorem eraseDups_sublist (l : List α) : l.eraseDups.Sublist l := by
  induction l using induct with
  | nil => exact .refl _
  | cons a l ih =>
    rw [List.eraseDups_cons]
    exact (ih.trans List.filter_sublist).cons_cons a

theorem removeAll_congr {p q : List α} (h : ∀ a, p.contains a = q.contains a) (l : List α) :
    l.removeAll p = l.removeAll q := by
  refine List.filter_congr fun a _ => ?_
  rw [List.elem_eq_contains, List.elem_eq_contains, h]

theorem mem_removeAll {l q : List α} {a : α} :
    a ∈ l.removeAll q ↔ a ∈ l ∧ q.contains a = false := by
  simp [List.removeAll, List.mem_filter]

theorem eraseDups_filter {p : α → Bool} (hp : ∀ a b, a == b → p a = p b) (l : List α) :
    (l.filter p).eraseDups = l.eraseDups.filter p := by
  induction l using induct with
  | nil => rfl
  | cons a l ih =>
    rw [List.eraseDups_cons]
    by_cases ha : p a = true
    · rw [List.filter_cons_of_pos ha, List.filter_cons_of_pos ha, List.eraseDups_cons, ← ih,
        List.filter_comm]
    · rw [List.filter_cons_of_neg ha, List.filter_cons_of_neg ha, ← ih, List.filter_filter]
      -- what the head's equals lose by the first test they lose by the second one
      refine congrArg _ (List.filter_congr fun b _ => ?_)
      cases hba : b == a with
      | false => simp
      | true => simp [hp b a hba, ha]

variable [EquivBEq α]

theorem contains_filter_ne (l : List α) {a b : α} (h : (b == a) = false) :
    (l.filter fun c => !c == a).contains b = l.contains b := by
  rw [Bool.eq_iff_iff, List.contains_iff_exists_mem_beq, List.contains_iff_exists_mem_beq]
  constructor
  · rintro ⟨c, hc, hbc⟩
    exact ⟨c, (List.mem_filter.1 hc).1, hbc⟩
  · rintro ⟨c, hc, hbc⟩
    refine ⟨c, List.mem_filter.2 ⟨hc, ?_⟩, hbc⟩
    by_cases hca : (c == a) = true
    · rw [BEq.trans hbc hca] at h
      cases h
    · simpa using hca

theorem contains_eraseDups (l : List α) (b : α) : l.eraseDups.contains b = l.contains b := by
  induction l using induct with
  | nil => rfl
  | cons a l ih =>
    rw [List.eraseDups_cons, List.contains_cons, List.contains_cons, ih]
    cases hba : b == a with
    | true => rfl
    | false => rw [contains_filter_ne l hba]

/-- No first occurrence is equal to another one. -/
theorem pairwise_eraseDups (l : List α) : l.eraseDups.Pairwise fun a b => (a == b) = false := by
  induction l using induct with
  | nil => exact .nil
  | cons a l ih =>
    rw [List.eraseDups_cons]
    refine List.pairwise_cons.2 ⟨fun b hb => ?_, ih⟩
    have hNe := (List.mem_filter.1 ((eraseDups_sublist _).subset hb)).2
    rw [BEq.comm]
    simpa using hNe

theorem eraseDups_removeAll (l q : List α) :
    (l.removeAll q).eraseDups = l.eraseDups.removeAll q := by
  refine eraseDups_filter (fun a b hab => ?_) l
  rw [List.elem_eq_contains, List.elem_eq_contains, List.contains_congr hab]

theorem eraseDups_append (l m : List α) :
    (l ++ m).eraseDups = l.eraseDups ++ (m.removeAll l).eraseDups := by
  induction l using induct generalizing m with
  | nil => simp [List.removeAll, List.filter_true]
  | cons a l ih =>
    have hRest : (m.filter fun b => !b == a).removeAll (l.filter fun b => !b == a)
        = m.removeAll (a :: l) := by
      rw [List.removeAll, List.filter_filter]
      refine List.filter_congr fun b _ => ?_
      rw [List.elem_eq_contains, List.elem_eq_contains, List.contains_cons]
      cases hba : b == a with
      | true => simp
      | false => simp [contains_filter_ne l hba]
    rw [List.cons_append, List.eraseDups_cons, List.filter_append, ih, hRest, List.eraseDups_cons,
      List.cons_append]

/-- A list without equals is no longer than one that has an equal of each member. -/
theorem length_le_of_contains {l m : List α} (hPairwise : l.Pairwise fun a b => (a == b) = false)
    (h : ∀ a ∈ l, m.contains a = true) : l.length ≤ m.length := by
  induction l generalizing m with
  | nil => exact Nat.zero_le _
  | cons a l ih =>
    obtain ⟨hHead, hTail⟩ := List.pairwise_cons.1 hPairwise
    obtain ⟨hFirst, hOthers⟩ := List.forall_mem_cons.1 h
    obtain ⟨c, hc, hac⟩ := List.contains_iff_exists_mem_beq.1 hFirst
    have hLength : (m.eraseP (a == ·)).length = m.length - 1 := List.length_eraseP_of_mem hc hac
    have hPos : 0 < m.length := List.length_pos_of_mem hc
    have hRest : ∀ b ∈ l, (m.eraseP (a == ·)).contains b = true := by
      intro b hb
      obtain ⟨d, hd, hbd⟩ := List.contains_iff_exists_mem_beq.1 (hOthers b hb)
      have had : ¬ (a == d) = true := by
        intro had
        have hab := hHead b hb
        rw [BEq.trans had (BEq.symm hbd)] at hab
        cases hab
      exact List.contains_iff_exists_mem_beq.2 ⟨d, (List.mem_eraseP_of_neg had).2 hd, hbd⟩
    have hLe := ih hTail hRest
    rw [List.length_cons]
    omega

end

/-- Members of a list that derive nothing but what is taken out anyway can be left out. -/
theorem removeAll_flatMap_filter [BEq β] {l : List α} {f : α → List β} {q : List β} {p : α → Bool}
    (h : ∀ a ∈ l, p a = false → ∀ b ∈ f a, q.contains b = true) :
    ((l.filter p).flatMap f).removeAll q = (l.flatMap f).removeAll q := by
  induction l with
  | nil => rfl
  | cons a l ih =>
    obtain ⟨hHead, hRest⟩ := List.forall_mem_cons.1 h
    have hAppend : ∀ x y : List β, (x ++ y).removeAll q = x.removeAll q ++ y.removeAll q :=
      fun _ _ => List.filter_append ..
    rw [List.flatMap_cons, hAppend, ← ih hRest]
    by_cases ha : p a = true
    · rw [List.filter_cons_of_pos ha, List.flatMap_cons, hAppend]
    · have hNone : (f a).removeAll q = [] := by
        refine List.filter_eq_nil_iff.2 fun b hb => ?_
        rw [List.elem_eq_contains, hHead (Bool.eq_false_iff.2 ha) b hb]
        decide
      rw [List.filter_cons_of_neg ha, hNone, List.nil_append]

/-- Equals of a member seen before derive nothing new. -/
theorem eraseDups_flatMap [BEq α] [BEq β] [EquivBEq β] {f : α → List β}
    (hf : ∀ a b, a == b → ∀ c ∈ f a, (f b).contains c = true) (l : List α) :
    (l.flatMap f).eraseDups = (l.eraseDups.flatMap f).eraseDups := by
  induction l using induct with
  | nil => rfl
  | cons a l ih =>
    have hRest : ((l.filter fun b => !b == a).flatMap f).removeAll (f a)
        = (l.flatMap f).removeAll (f a) := by
      refine removeAll_flatMap_filter fun b _ hba => hf b a ?_
      simpa using hba
    rw [List.flatMap_cons, eraseDups_append, ← hRest, eraseDups_removeAll, ih,
      ← eraseDups_removeAll, ← eraseDups_append, List.eraseDups_cons, List.flatMap_cons]

/-! ### Going through a list with a set -/

variable [BEq α] [EquivBEq α] [Hashable α] [LawfulHashable α]

/-- What has not been seen is kept at its first occurrence, and has been seen from then on. -/
theorem unseen_eq {seen : Std.HashSet α} {earlier : List α}
    (hSeen : ∀ a, seen.contains a = earlier.contains a) (l : List α) :
    (unseen l seen).1 = (l.removeAll earlier).eraseDups ∧
      ∀ a, (unseen l seen).2.contains a = (earlier ++ (unseen l seen).1).contains a := by
  induction l generalizing seen earlier with
  | nil => simpa [unseen, List.removeAll] using hSeen
  | cons a l ih =>
    rw [unseen]
    by_cases ha : seen.contains a = true
    · rw [if_pos ha]
      have hDrop : (a :: l).removeAll earlier = l.removeAll earlier := by
        refine List.filter_cons_of_neg ?_
        rw [List.elem_eq_contains, ← hSeen, ha]
        decide
      rw [hDrop]
      exact ih hSeen
    · rw [if_neg ha]
      have hSeen' : ∀ b, (seen.insert a).contains b = (earlier ++ [a]).contains b := by
        intro b
        rw [Std.HashSet.contains_insert, hSeen, List.contains_append, List.contains_cons,
          List.contains_nil, Bool.or_false, Bool.or_comm, BEq.comm]
      obtain ⟨hFresh, hAll⟩ := ih hSeen'
      have hKeep : (a :: l).removeAll earlier = a :: l.removeAll earlier := by
        refine List.filter_cons_of_pos ?_
        rw [List.elem_eq_contains, ← hSeen, Bool.eq_false_iff.2 ha]
        decide
      have hRest : (l.removeAll earlier).filter (fun b => !b == a)
          = l.removeAll (earlier ++ [a]) := by
        rw [List.removeAll, List.filter_filter]
        refine List.filter_congr fun b _ => ?_
        simp [Bool.and_comm]
      refine ⟨?_, fun b => ?_⟩
      · rw [hKeep, List.eraseDups_cons, hRest, ← hFresh]
      · rw [hAll b, List.append_assoc]
        rfl

end IndexScan.Distinct
