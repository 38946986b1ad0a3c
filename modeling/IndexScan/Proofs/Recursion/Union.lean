import IndexScan.Proofs.Recursion.RowWise

/-!
# `UNION` against `UNION ALL`

With a row-wise step the working tables of `UNION` are those of `UNION ALL` without the tuples that
are equal to earlier ones (`tables_eq_eraseDups`).  A tuple that is left out derives what its equal
has derived before, so everything it would have led to is left out as well.
-/

namespace IndexScan.RecursiveQuery

variable {σ : Type} {q : RecursiveQuery σ} {g : Tuple → List Tuple} {ts : List Tuple}

section

variable (hg : RespectsEquality q.table.width g)

include hg

/-- Equals of a tuple derive nothing that is new after what the tuple derives. -/
theorem eraseDups_derived (us earlier : List Tuple) :
    ((q.derived g us.eraseDups).removeAll earlier).eraseDups
      = ((q.derived g us).removeAll earlier).eraseDups := by
  have hEqual : ∀ t u : Tuple, (t == u) = true → ∀ v ∈ g (Row.fitted q.table.width t),
      (g (Row.fitted q.table.width u)).contains v = true := fun t u htu v hv => hg.contains htu hv
  rw [Distinct.eraseDups_removeAll, Distinct.eraseDups_removeAll, derived, derived,
    ← Distinct.eraseDups_flatMap hEqual]

/-- A tuple with an equal in an earlier working table derives nothing that is new. -/
theorem derived_removeAll {tables : Nat → List Tuple}
    (hNext : ∀ n, tables (n + 1) = q.derived g (tables n)) (n : Nat) :
    (q.derived g ((tables n).removeAll (produced tables n))).removeAll (produced tables (n + 1))
      = (q.derived g (tables n)).removeAll (produced tables (n + 1)) := by
  refine Distinct.removeAll_flatMap_filter fun t _ ht u hu => ?_
  have hSeen : (produced tables n).contains t = true := by simpa using ht
  obtain ⟨t', ht', hEqual⟩ := List.contains_iff_exists_mem_beq.1 hSeen
  obtain ⟨i, hi, hTable⟩ := mem_produced.1 ht'
  obtain ⟨u', hu', hEqual'⟩ := List.contains_iff_exists_mem_beq.1 (hg.contains hEqual hu)
  have hMem : u' ∈ tables (i + 1) := by
    rw [hNext]
    exact List.mem_flatMap.2 ⟨t', hTable, hu'⟩
  exact List.contains_iff_exists_mem_beq.2 ⟨u', mem_produced.2 ⟨i + 1, by omega, hMem⟩, hEqual'⟩

/-- Round by round, `UNION` has the first occurrences of what `UNION ALL` has. -/
theorem tables_eq_eraseDups (hAll : q.unionAll = true) (n : Nat) :
    produced (tables { q with unionAll := false } g ts) n = (produced (q.tables g ts) n).eraseDups ∧
      tables { q with unionAll := false } g ts n
        = ((q.tables g ts n).removeAll (produced (q.tables g ts) n)).eraseDups := by
  have hKept : ∀ earlier us, q.kept earlier us = us := fun _ _ => by rw [kept, hAll, if_pos rfl]
  have hNext : ∀ n, q.tables g ts (n + 1) = q.derived g (q.tables g ts n) := fun n => by
    rw [tables_succ, hKept]
  induction n with
  | zero =>
    refine ⟨rfl, ?_⟩
    rw [tables_zero, tables_zero, hKept]
    rfl
  | succ n ih =>
    obtain ⟨hProduced, hTable⟩ := ih
    have hProduced' : produced (tables { q with unionAll := false } g ts) (n + 1)
        = (produced (q.tables g ts) (n + 1)).eraseDups := by
      rw [produced_succ, produced_succ, hProduced, hTable, Distinct.eraseDups_append]
    have hSame := Distinct.removeAll_congr
      (Distinct.contains_eraseDups (produced (q.tables g ts) (n + 1)))
    refine ⟨hProduced', ?_⟩
    -- first the equals within the working table can be put back, then the equals of earlier tuples
    calc tables { q with unionAll := false } g ts (n + 1)
      _ = ((q.derived g (tables { q with unionAll := false } g ts n)).removeAll
            (produced (q.tables g ts) (n + 1))).eraseDups := by
        rw [tables_succ, hProduced', kept, if_neg Bool.false_ne_true, hSame]
        rfl
      _ = ((q.derived g ((q.tables g ts n).removeAll (produced (q.tables g ts) n))).removeAll
            (produced (q.tables g ts) (n + 1))).eraseDups := by
        rw [hTable, eraseDups_derived hg]
      _ = ((q.tables g ts (n + 1)).removeAll (produced (q.tables g ts) (n + 1))).eraseDups := by
        rw [derived_removeAll hg hNext, hNext]

end

/-- What `UNION` gives is what `UNION ALL` gives, each tuple where it appears first.  In particular
it is within the limit then. -/
theorem evaluate_union_eq_eraseDups (hStep : q.RowWise g) (hg : RespectsEquality q.table.width g)
    (hAll : q.unionAll = true) (s : σ) {b : Buffer} (h : (q.evaluate s).result.1 = .ok b) :
    (evaluate { q with unionAll := false } s).result.1
      = .ok { width := b.width, rows := b.rows.eraseDups } := by
  obtain ⟨ts, d, o, hAnchor, hIndex, hType, hOrder⟩ := exists_of_evaluate h
  have hStep' : RowWise { q with unionAll := false } g := hStep
  rcases hStep.evaluate_cases hIndex hType hOrder hAnchor s with ⟨k, hLimit, hk, hRun⟩ | ⟨-, hRun⟩
  · obtain rfl := Except.ok.inj (hRun.symm.trans h)
    obtain ⟨hProduced, hTable⟩ := @tables_eq_eraseDups _ _ _ ts hg hAll k
    have hk' : tables { q with unionAll := false } g ts k = [] := by
      rw [hTable, hk]
      rfl
    rw [hStep'.evaluate_of_empty hIndex hType hOrder hAnchor s hLimit hk', hProduced]
  · rw [hRun] at h
    cases h

/-- Two edges to one number, which is written in two types. -/
theorem union_of_equal_numbers : ∃ (q : RecursiveQuery Unit) (g : Tuple → List Tuple) (b : Buffer),
    q.RowWise g ∧ RespectsEquality q.table.width g ∧ q.unionAll = true ∧
    (q.evaluate ()).result.1 = .ok b ∧
    b.rows = [[.int64 1], [.int64 2], [.float64 ⟨0x4000000000000000⟩]] ∧
    (evaluate { q with unionAll := false } ()).result.1
      = .ok { width := 1, rows := [[.int64 1], [.int64 2]] } := by
  let list : List (Value × Value) :=
    [(.int64 1, .int64 2), (.int64 1, .float64 ⟨0x4000000000000000⟩)]
  let t : Table :=
    { name := "nums", columns := [{ name := "n", type := .int64 }],
      indexes := [{ name := "all", table := "nums", columns := [⟨"n", .ascending⟩], type := .query }] }
  let q : RecursiveQuery Unit :=
    { table := t, index := "all", anchor := .values ⟨1, [[.int64 1]], false⟩,
      step := fun s => (fun read => (read.map fun rows => rows.flatMap (Derivation.edges list).ofTuple,
        s)) <$> ScanProgram.scanWorking,
      settings := { recursionLimit := 2 } }
  have hStep : q.RowWise (Derivation.edges list).ofTuple := fun _ => rfl
  have hg := Derivation.respectsEquality_edges 1 list
  have hRun := hStep.evaluate_of_empty (k := 2) rfl rfl rfl rfl () (Nat.le_refl 2) rfl
  exact ⟨q, _, _, hStep, hg, rfl, hRun, rfl, evaluate_union_eq_eraseDups hStep hg rfl () hRun⟩

end IndexScan.RecursiveQuery
