import IndexScan.Proofs.Recursion.RowWise

/-!
# Repeated rows of a union

`UNION` drops a tuple that is equal to an earlier one, whatever the step does (`Rounds.pairwise`).
The tuples are compared as they are, and only their consumers fit them to the width of the table.  So
two tuples that are kept can be one row of the table, but then one of them has left out a cell or they
have cells too many (`Row.beq_of_fitted_beq`).
-/

namespace IndexScan

/-- No cell is lost or made up when a tuple has no more cells than the row. -/
theorem Row.beq_of_fitted_beq {width : Nat} {a b : Tuple} (hLength : a.length = b.length)
    (hWidth : a.length ≤ width) (h : (fitted width a == fitted width b) = true) :
    (a == b) = true := by
  have hTake : ∀ t : Tuple, t.length ≤ width → (fitted width t).take t.length = t := by
    intro t ht
    rw [fitted, List.take_of_length_le ht, List.take_left]
  rw [beq_iff_forall₂] at h ⊢
  have hCells := List.forall₂_take a.length h
  rwa [hTake a hWidth, hLength, hTake b (hLength ▸ hWidth)] at hCells

namespace RecursiveQuery

variable {σ : Type} {q : RecursiveQuery σ}

/-- Any step leaves the working table to the next call. -/
theorem stepAnswers_any (q : RecursiveQuery σ) (o : RowOrder) :
    q.StepAnswers (fun _ _ _ _ => True) o := by
  intro ix w ahead s h
  have hNone : ∀ c ∈ ([] : List ComputedCursor), c.feed = .shared :=
    fun _ hc => absurd hc List.not_mem_nil
  obtain ⟨⟨answer, s'⟩, log, ix', ahead', hRun, hServes, -⟩ := h.run_noting hNone (q.step s)
  refine ⟨answer, s', ix', ahead', ?_, hServes, trivial⟩
  rw [ScanProgram.result_run_noting, hRun]
  rfl

/-- What is produced has no equal among what was produced before. -/
theorem Rounds.pairwise {Answers : List Tuple → σ → Except Error (List Tuple) → σ → Prop}
    {left : Nat} {earlier w rows : List Tuple} {s s' : σ} {result : Except Error (List Tuple)}
    (hUnion : q.unionAll = false) (h : q.Rounds Answers left earlier w s result s')
    (hEarlier : (earlier ++ w).Pairwise fun t u => (t == u) = false) (hRows : result = .ok rows) :
    (earlier ++ rows).Pairwise fun t u => (t == u) = false := by
  induction h generalizing rows with
  | fixpoint =>
    cases hRows
    exact hEarlier
  | exceeded => cases hRows
  | failed => cases hRows
  | @round left earlier w ts s s₁ s' result hw hCall hRest ih =>
    cases result with
    | error e => cases hRows
    | ok rest =>
      cases hRows
      rw [← List.append_assoc]
      exact ih (pairwise_append_kept hUnion hEarlier ts) rfl

/-- No two tuples of a union are equal, and two that make the same row are of different widths or
wider than the table. -/
theorem evaluate_union_pairwise (hUnion : q.unionAll = false) (s : σ) {b : Buffer}
    (h : (q.evaluate s).result.1 = .ok b) :
    b.rows.Pairwise fun t u => (t == u) = false ∧
      ((Row.fitted q.table.width t == Row.fitted q.table.width u) = true →
        t.length ≠ u.length ∨ q.table.width < t.length) := by
  obtain ⟨ts, d, o, hAnchor, hIndex, hType, hOrder⟩ := exists_of_evaluate h
  obtain ⟨result, s', hRun, hRounds⟩ :=
    exists_evaluate hIndex hType hOrder hAnchor (stepAnswers_any q o) s
  rw [hRun] at h
  cases result with
  | error e => cases h
  | ok rows =>
    obtain rfl := Except.ok.inj h
    have hPairwise : rows.Pairwise fun t u => (t == u) = false :=
      hRounds.pairwise hUnion (pairwise_append_kept hUnion .nil ts) rfl
    refine hPairwise.imp fun {t u} hNe => ⟨hNe, fun hSame => ?_⟩
    by_contra hWidths
    obtain ⟨hLength, hWidth⟩ := not_or.1 hWidths
    rw [Row.beq_of_fitted_beq (not_not.1 hLength) (Nat.le_of_not_lt hWidth) hSame] at hNe
    cases hNe

/-- A union over a table of two columns, of which the second may be NULL.  Its last tuple leaves out
the second cell. -/
def partialTuples : RecursiveQuery Unit where
  table :=
    { name := "pairs", kind := .recursive,
      columns := [{ name := "a", type := .int64 },
        { name := "b", type := .int64, nullable := true, position := 1 }],
      indexes := [{ name := "all", table := "pairs", columns := [⟨"a", .ascending⟩], type := .query }] }
  index := "all"
  anchor := .values ⟨2, [[.int64 1, .null], [.float64 ⟨0x3ff0000000000000⟩, .null], [.int64 1]], false⟩
  step s := (fun read => (read.map fun rows => rows.flatMap fun _ => [], s)) <$>
    ScanProgram.scanWorking
  unionAll := false

theorem evaluate_partialTuples : (partialTuples.evaluate ()).result.1
    = .ok { width := 2, rows := [[.int64 1, .null], [.int64 1]] } := by
  have hStep : partialTuples.RowWise fun _ => [] := fun _ => rfl
  exact hStep.evaluate_of_empty (k := 1) rfl rfl rfl rfl () (by decide) rfl

theorem partialTuples_pairwise : partialTuples.unionAll = false ∧
    (partialTuples.evaluate ()).result.1
      = .ok { width := 2, rows := [[.int64 1, .null], [.int64 1]] } ∧
    ([[.int64 1, .null], [.int64 1]] : List Tuple).Pairwise fun t u => (t == u) = false ∧
      ((Row.fitted 2 t == Row.fitted 2 u) = true → t.length ≠ u.length ∨ 2 < t.length) :=
  ⟨rfl, evaluate_partialTuples, evaluate_union_pairwise rfl () evaluate_partialTuples⟩

/-- The two tuples that are kept are the same row. -/
theorem partialTuples_repeat_row : Table.declare "pairs" [.kind .recursive, .column "a" .int64,
      .column "b" .int64, .nullable ["b"], .queryIndex "all" [⟨"a", .ascending⟩]]
        = .ok partialTuples.table ∧
    (partialTuples.evaluate ()).result.1
      = .ok { width := 2, rows := [[.int64 1, .null], [.int64 1]] } ∧
    ¬ ([[.int64 1, .null], [.int64 1]] : List Tuple).Pairwise fun t u =>
      (Row.fitted partialTuples.table.width t == Row.fitted partialTuples.table.width u) = false := by
  refine ⟨rfl, evaluate_partialTuples, fun h => ?_⟩
  have hFirst := (List.pairwise_cons.1 h).1 [.int64 1] List.mem_cons_self
  exact absurd hFirst (by decide)

end RecursiveQuery

end IndexScan
