import IndexScan.Proofs.Recursion.Rounds
import IndexScan.Recursion.Member

/-!
# Steps that derive from one row at a time

Such a step reads the whole working table and answers what a function derives from its rows, one
after the other.  Its evaluation is told from the sequence of working tables alone: the first empty
one ends it, and if that is beyond the limit it fails (`RowWise.evaluate_cases`).
-/

namespace IndexScan

theorem Row.fitted_beq {width : Nat} {a b : Tuple} (h : (a == b) = true) :
    (fitted width a == fitted width b) = true := by
  rw [beq_iff_forall₂] at h ⊢
  rw [fitted, fitted, h.length_eq]
  exact List.rel_append (List.forall₂_take width h) (List.forall₂_same.2 fun _ _ => BEq.rfl)

/-- Equal rows of a width give equal lists. -/
def RespectsEquality (width : Nat) (g : Tuple → List Tuple) : Prop :=
  ∀ a b, a.length = width → b.length = width → (a == b) = true → (g a == g b) = true

theorem RespectsEquality.contains {width : Nat} {g : Tuple → List Tuple}
    (h : RespectsEquality width g) {a b t : Tuple} (hab : (a == b) = true)
    (ht : t ∈ g (Row.fitted width a)) : (g (Row.fitted width b)).contains t = true :=
  contains_of_beq (h _ _ (Row.length_fitted width a) (Row.length_fitted width b)
    (Row.fitted_beq hab)) ht

/-- The ends of the edges from a row depend on its first cell up to equality. -/
theorem Derivation.respectsEquality_edges (width : Nat) (list : List (Value × Value)) :
    RespectsEquality width (edges list).ofTuple := by
  intro a b _ _ hab
  have hNode : (a.headD .null == b.headD .null) = true := by
    rw [beq_iff_forall₂] at hab
    cases hab with
    | nil => exact BEq.rfl
    | cons hHead _ => exact hHead
  have hEdges : (list.filter fun e => e.1 == a.headD .null)
      = list.filter fun e => e.1 == b.headD .null :=
    List.filter_congr fun e _ => BEq.congr_right hNode
  rw [ofTuple, ofTuple, hEdges]
  exact BEq.rfl

namespace RecursiveQuery

variable {σ : Type} (q : RecursiveQuery σ) (g : Tuple → List Tuple)

/-- The step reads the whole working table and derives from each of its rows. -/
def RowWise : Prop :=
  ∀ s, q.step s = (fun read => (read.map fun rows => rows.flatMap g, s)) <$> ScanProgram.scanWorking

/-- What is derived from the rows that tuples make. -/
def derived (ts : List Tuple) : List Tuple := ts.flatMap fun t => g (Row.fitted q.table.width t)

/-- The tuples that come before a working table, and it. -/
def progress (ts : List Tuple) : Nat → List Tuple × List Tuple
  | 0 => ([], q.kept [] ts)
  | n + 1 =>
    let (earlier, w) := progress ts n
    (earlier ++ w, q.kept (earlier ++ w) (q.derived g w))

/-- The working tables, from the anchor's tuples on. -/
def tables (ts : List Tuple) (n : Nat) : List Tuple := (q.progress g ts n).2

theorem tables_zero (ts : List Tuple) : q.tables g ts 0 = q.kept [] ts := rfl

theorem fst_progress (ts : List Tuple) (n : Nat) :
    (q.progress g ts n).1 = produced (q.tables g ts) n := by
  induction n with
  | zero => rfl
  | succ n ih =>
    rw [produced_succ, ← ih]
    rfl

theorem tables_succ (ts : List Tuple) (n : Nat) : q.tables g ts (n + 1)
    = q.kept (produced (q.tables g ts) (n + 1)) (q.derived g (q.tables g ts n)) := by
  rw [← fst_progress]
  rfl

variable {q g}

/-- After an empty working table there are only empty ones. -/
theorem tables_eq_nil {ts : List Tuple} {k n : Nat} (hk : q.tables g ts k = []) (h : k ≤ n) :
    q.tables g ts n = [] := by
  induction n, h using Nat.le_induction with
  | base => exact hk
  | succ n _ ih =>
    rw [tables_succ, ih, derived, List.flatMap_nil, kept]
    split <;> rfl

theorem produced_tables_eq {ts : List Tuple} {k n : Nat} (hk : q.tables g ts k = []) (h : k ≤ n) :
    produced (q.tables g ts) n = produced (q.tables g ts) k := by
  induction n, h using Nat.le_induction with
  | base => rfl
  | succ n h ih => rw [produced_succ, ih, tables_eq_nil hk h, List.append_nil]

theorem RowWise.stepAnswers (h : q.RowWise g) (o : RowOrder) :
    q.StepAnswers (fun w _ answer _ => answer = .ok (q.derived g w)) o := by
  intro ix w ahead s hServes
  obtain ⟨ix', ahead', hRun, hServes'⟩ := hServes.run_scanWorking
  refine ⟨_, s, ix', ahead', ?_, hServes', rfl⟩
  rw [h s, ScanProgram.result_run_map, hRun]
  simp only [Prod.map, Except.map, id, derived, List.flatMap_map]

/-- Rounds from working table number `n` on come to the first empty one, or to the limit. -/
theorem Rounds.tables_cases {ts : List Tuple} {left : Nat} {earlier w : List Tuple} {s s' : σ}
    {result : Except Error (List Tuple)}
    (h : q.Rounds (fun w _ answer _ => answer = .ok (q.derived g w)) left earlier w s result s')
    {n : Nat} (hEarlier : earlier = produced (q.tables g ts) n) (hw : w = q.tables g ts n) :
    (∃ k rows, k ≤ n + left ∧ q.tables g ts k = [] ∧ result = .ok rows ∧
        earlier ++ rows = produced (q.tables g ts) k) ∨
      (∀ k, n ≤ k → k ≤ n + left → q.tables g ts k ≠ []) ∧ result = .error q.limitError := by
  induction h generalizing n with
  | fixpoint => exact Or.inl ⟨n, [], by omega, hw.symm, rfl, by rw [List.append_nil, hEarlier]⟩
  | exceeded hNe =>
    refine Or.inr ⟨fun k hn hk => ?_, rfl⟩
    obtain rfl : k = n := by omega
    rwa [hw] at hNe
  | failed _ hCall => cases hCall
  | @round left earlier w us s s₁ s' result hNe hCall _ ih =>
    obtain rfl : us = q.derived g w := Except.ok.inj hCall
    have hEarlier' : earlier ++ w = produced (q.tables g ts) (n + 1) := by
      rw [produced_succ, hEarlier, hw]
    have hNext : q.kept (earlier ++ w) (q.derived g w) = q.tables g ts (n + 1) := by
      rw [tables_succ, hEarlier', hw]
    rcases ih hEarlier' hNext with ⟨k, rows, hk, hEmpty, rfl, hRows⟩ | ⟨hMore, rfl⟩
    · refine Or.inl ⟨k, w ++ rows, by omega, hEmpty, rfl, ?_⟩
      rw [← List.append_assoc, hRows]
    · refine Or.inr ⟨fun k hn hk => ?_, rfl⟩
      by_cases hFirst : k = n
      · rwa [hFirst, ← hw]
      · exact hMore k (by omega) (by omega)

section

variable (h : q.RowWise g) {o : RowOrder} {d : IndexDef} {ts : List Tuple}
  (hIndex : q.table.index? q.index = some d) (hType : d.type = .query)
  (hOrder : RowOrder.ofIndex q.table d q.settings.nulls = .ok o)
  (hAnchor : q.anchor.answer = .ok ts) (s : σ)

include h hIndex hType hOrder hAnchor

/-- The evaluation gives the tuples of the working tables before the first empty one, which must
not be beyond the limit. -/
theorem RowWise.evaluate_cases :
    (∃ k ≤ q.settings.recursionLimit, q.tables g ts k = [] ∧ (q.evaluate s).result.1
        = .ok { width := q.table.width, rows := produced (q.tables g ts) k }) ∨
      (∀ k ≤ q.settings.recursionLimit, q.tables g ts k ≠ []) ∧
        (q.evaluate s).result.1 = .error q.limitError := by
  obtain ⟨result, s', hEvaluate, hRounds⟩ :=
    exists_evaluate hIndex hType hOrder hAnchor (h.stepAnswers o) s
  rw [hEvaluate]
  rcases hRounds.tables_cases (n := 0) rfl (q.tables_zero g ts).symm with
    ⟨k, rows, hk, hEmpty, rfl, hRows⟩ | ⟨hMore, rfl⟩
  · refine Or.inl ⟨k, by omega, hEmpty, ?_⟩
    rw [← hRows]
    rfl
  · exact Or.inr ⟨fun k hk => hMore k (Nat.zero_le k) (by omega), rfl⟩

theorem RowWise.evaluate_of_empty {k : Nat} (hLimit : k ≤ q.settings.recursionLimit)
    (hk : q.tables g ts k = []) : (q.evaluate s).result.1
      = .ok { width := q.table.width, rows := produced (q.tables g ts) k } := by
  rcases h.evaluate_cases hIndex hType hOrder hAnchor s with ⟨n, -, hn, hRun⟩ | ⟨hMore, -⟩
  · rw [hRun]
    rcases Nat.le_total k n with hkn | hnk
    · rw [produced_tables_eq hk hkn]
    · rw [produced_tables_eq hn hnk]
  · exact absurd hk (hMore k hLimit)

end

end RecursiveQuery

end IndexScan
