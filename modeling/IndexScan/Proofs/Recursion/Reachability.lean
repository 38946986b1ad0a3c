import Mathlib.Order.Lattice.Nat
import IndexScan.Proofs.Recursion.RowWise

/-!
# Reachability

With `UNION` a row-wise step makes the evaluation a breadth-first search: working table number `n`
holds the tuples at distance `n`, one of each class of equal ones (`distance_eq`).  What is dropped
has an equal in an earlier table, and from equal tuples equal ones are derived, so nothing is lost
with it (`contains_produced`).  Every round but the last finds a tuple, which bounds their number.
-/

namespace IndexScan

/-- The tuples reached in a number of steps.  A step goes from a tuple to what is derived from the
row that it makes. -/
inductive ReachedIn (width : Nat) (g : Tuple → List Tuple) (ts : List Tuple) : Nat → Tuple → Prop
  | start {t : Tuple} (h : t ∈ ts) : ReachedIn width g ts 0 t
  | step {n : Nat} {t u : Tuple} (h : ReachedIn width g ts n t)
      (hStep : u ∈ g (Row.fitted width t)) : ReachedIn width g ts (n + 1) u

/-- The least number of steps in which an equal tuple is reached. -/
noncomputable def distance (width : Nat) (g : Tuple → List Tuple) (ts : List Tuple) (t : Tuple) :
    Nat :=
  sInf {n | ∃ u, ReachedIn width g ts n u ∧ (u == t) = true}

section

variable {tables : Nat → List Tuple}

theorem contains_produced_of_le {m n : Nat} (h : m ≤ n) {t : Tuple}
    (ht : (produced tables m).contains t = true) : (produced tables n).contains t = true := by
  obtain ⟨u, hu, htu⟩ := List.contains_iff_exists_mem_beq.1 ht
  obtain ⟨i, hi, hMem⟩ := mem_produced.1 hu
  exact List.contains_iff_exists_mem_beq.2 ⟨u, mem_produced.2 ⟨i, by omega, hMem⟩, htu⟩

theorem pairwise_produced {R : Tuple → Tuple → Prop} (hWithin : ∀ n, (tables n).Pairwise R)
    (hAcross : ∀ m n, m < n → ∀ t ∈ tables m, ∀ u ∈ tables n, R t u) (n : Nat) :
    (produced tables n).Pairwise R := by
  induction n with
  | zero => exact .nil
  | succ n ih =>
    rw [produced_succ, List.pairwise_append]
    refine ⟨ih, hWithin n, fun t ht u hu => ?_⟩
    obtain ⟨m, hm, ht⟩ := mem_produced.1 ht
    exact hAcross m n hm t ht u hu

theorem le_length_produced {n : Nat} (h : ∀ i < n, tables i ≠ []) :
    n ≤ (produced tables n).length := by
  induction n with
  | zero => exact Nat.zero_le _
  | succ n ih =>
    have hRest := ih fun i hi => h i (by omega)
    have hLast := List.length_pos_iff.2 (h n (by omega))
    rw [produced_succ, List.length_append]
    omega

end

namespace RecursiveQuery

variable {σ : Type} {q : RecursiveQuery σ} {g : Tuple → List Tuple} {ts : List Tuple}

/-! ### The working tables as a search -/

section

variable (hUnion : q.unionAll = false)

include hUnion

theorem reachedIn_of_mem_tables {n : Nat} {t : Tuple} (h : t ∈ q.tables g ts n) :
    ReachedIn q.table.width g ts n t := by
  induction n generalizing t with
  | zero => exact .start (mem_of_mem_kept hUnion h).1
  | succ n ih =>
    rw [tables_succ] at h
    obtain ⟨u, hu, ht⟩ := List.mem_flatMap.1 (mem_of_mem_kept hUnion h).1
    exact .step (ih hu) ht

theorem contains_produced_eq_false {n : Nat} {t : Tuple} (h : t ∈ q.tables g ts n) :
    (produced (q.tables g ts) n).contains t = false := by
  cases n with
  | zero => rfl
  | succ n =>
    rw [tables_succ] at h
    exact (mem_of_mem_kept hUnion h).2

theorem pairwise_produced_tables (n : Nat) :
    (produced (q.tables g ts) n).Pairwise fun t u => (t == u) = false := by
  induction n with
  | zero => exact .nil
  | succ n ih =>
    rw [produced_succ]
    cases n with
    | zero => exact pairwise_append_kept hUnion .nil ts
    | succ n =>
      rw [tables_succ]
      exact pairwise_append_kept hUnion ih _

variable (hg : RespectsEquality q.table.width g)

include hg

/-- A tuple reached in `n` steps has an equal in one of the first `n + 1` working tables. -/
theorem contains_produced {n : Nat} {t : Tuple} (h : ReachedIn q.table.width g ts n t) :
    (produced (q.tables g ts) (n + 1)).contains t = true := by
  induction h with
  | @start t ht =>
    have hKept : ([] ++ q.kept [] ts).contains t = true := contains_kept hUnion ht
    rwa [produced_succ]
  | @step n t u _ hu ih =>
    -- the tuple itself may have been dropped; the step is made from its equal instead
    obtain ⟨t', ht', hEqual⟩ := List.contains_iff_exists_mem_beq.1 ih
    obtain ⟨i, hi, hTable⟩ := mem_produced.1 ht'
    obtain ⟨u', hu', hEqual'⟩ := List.contains_iff_exists_mem_beq.1 (hg.contains hEqual hu)
    have hDerived : u' ∈ q.derived g (q.tables g ts i) := List.mem_flatMap.2 ⟨t', hTable, hu'⟩
    have hNext : (produced (q.tables g ts) (i + 2)).contains u' = true := by
      rw [produced_succ, tables_succ]
      exact contains_kept hUnion hDerived
    rw [List.contains_congr hEqual']
    exact contains_produced_of_le (by omega) hNext

theorem contains_iff_reached {k : Nat} (hk : q.tables g ts k = []) (t : Tuple) :
    (produced (q.tables g ts) k).contains t = true ↔
      ∃ n u, ReachedIn q.table.width g ts n u ∧ (t == u) = true := by
  constructor
  · intro h
    obtain ⟨u, hu, htu⟩ := List.contains_iff_exists_mem_beq.1 h
    obtain ⟨i, -, hTable⟩ := mem_produced.1 hu
    exact ⟨i, u, reachedIn_of_mem_tables hUnion hTable, htu⟩
  · rintro ⟨n, u, hReached, htu⟩
    obtain ⟨u', hu', hEqual⟩ :=
      List.contains_iff_exists_mem_beq.1 (contains_produced hUnion hg hReached)
    obtain ⟨i, -, hTable⟩ := mem_produced.1 hu'
    have hi : i < k := by
      by_contra hi
      rw [tables_eq_nil hk (Nat.le_of_not_lt hi)] at hTable
      cases hTable
    exact List.contains_iff_exists_mem_beq.2
      ⟨u', mem_produced.2 ⟨i, hi, hTable⟩, BEq.trans htu hEqual⟩

theorem distance_eq {n : Nat} {t : Tuple} (h : t ∈ q.tables g ts n) :
    distance q.table.width g ts t = n := by
  have hReached : n ∈ {n | ∃ u, ReachedIn q.table.width g ts n u ∧ (u == t) = true} :=
    ⟨t, reachedIn_of_mem_tables hUnion h, BEq.rfl⟩
  refine Nat.le_antisymm (Nat.sInf_le hReached) ?_
  obtain ⟨u, hu, hut⟩ := Nat.sInf_mem ⟨n, hReached⟩
  by_contra hLess
  have hEarlier : (produced (q.tables g ts) n).contains t = true := by
    rw [← List.contains_congr hut]
    exact contains_produced_of_le (Nat.lt_of_not_le hLess) (contains_produced hUnion hg hu)
  rw [contains_produced_eq_false hUnion h] at hEarlier
  cases hEarlier

theorem pairwise_distance (n : Nat) : (produced (q.tables g ts) n).Pairwise fun t u =>
    distance q.table.width g ts t ≤ distance q.table.width g ts u := by
  refine pairwise_produced (fun n => ?_) (fun m n hm t ht u hu => ?_) n
  · refine List.pairwise_of_forall_mem_list fun t ht u hu => ?_
    rw [distance_eq hUnion hg ht, distance_eq hUnion hg hu]
  · rw [distance_eq hUnion hg ht, distance_eq hUnion hg hu]
    exact Nat.le_of_lt hm

end

/-- `UNION` with a row-wise step gives the tuples that can be reached from the anchor's. -/
theorem evaluate_eq_reachable {name : String} {steps : List Declaration} {d : IndexDef}
    (hTable : Table.declare name steps = .ok q.table) (hIndex : q.table.index? q.index = some d)
    (hType : d.type = .query) (hStep : q.RowWise g) (hg : RespectsEquality q.table.width g)
    (hUnion : q.unionAll = false) (hAnchor : q.anchor.answer = .ok ts) (s : σ) :
    (∀ b, (q.evaluate s).result.1 = .ok b →
      (∀ t, b.rows.contains t = true ↔
        ∃ n u, ReachedIn q.table.width g ts n u ∧ (t == u) = true) ∧
      b.rows.Pairwise (fun t u => (t == u) = false) ∧
      b.rows.Pairwise fun t u =>
        distance q.table.width g ts t ≤ distance q.table.width g ts u) ∧
    ∀ l : List Tuple, l.length ≤ q.settings.recursionLimit →
      (∀ n t, ReachedIn q.table.width g ts n t → l.contains t = true) →
      ∃ b, (q.evaluate s).result.1 = .ok b := by
  obtain ⟨o, hOrder⟩ := Table.exists_order_of_declare hTable hIndex q.settings.nulls
  refine ⟨fun b hb => ?_, fun l hLength hAll => ?_⟩
  · rcases hStep.evaluate_cases hIndex hType hOrder hAnchor s with ⟨k, -, hk, hRun⟩ | ⟨-, hRun⟩
    · obtain rfl := Except.ok.inj (hRun.symm.trans hb)
      exact ⟨contains_iff_reached hUnion hg hk, pairwise_produced_tables hUnion k,
        pairwise_distance hUnion hg k⟩
    · rw [hRun] at hb
      cases hb
  · rcases hStep.evaluate_cases hIndex hType hOrder hAnchor s with ⟨k, -, -, hRun⟩ | ⟨hMore, -⟩
    · exact ⟨_, hRun⟩
    · have hMany : q.settings.recursionLimit + 1
          ≤ (produced (q.tables g ts) (q.settings.recursionLimit + 1)).length :=
        le_length_produced fun i hi => hMore i (Nat.le_of_lt_succ hi)
      have hContained : ∀ t ∈ produced (q.tables g ts) (q.settings.recursionLimit + 1),
          l.contains t = true := by
        intro t ht
        obtain ⟨i, -, hTable⟩ := mem_produced.1 ht
        exact hAll i t (reachedIn_of_mem_tables hUnion hTable)
      have hFew := Distinct.length_le_of_contains (pairwise_produced_tables hUnion _) hContained
      omega

/-- Two numbers that lead to each other, each in another type than the one it was reached from. -/
theorem reachable_in_cycle : ∃ (q : RecursiveQuery Unit) (d : IndexDef) (g : Tuple → List Tuple)
    (b : Buffer),
    Table.declare "nums" [.kind .recursive, .column "n" .float64, .queryIndex "all" [⟨"n", .ascending⟩]]
      = .ok q.table ∧
    q.table.index? q.index = some d ∧ d.type = .query ∧ q.RowWise g ∧
    RespectsEquality q.table.width g ∧ q.unionAll = false ∧
    q.anchor.answer = .ok [[.int64 1]] ∧ q.settings.recursionLimit = 2 ∧
    g [.int64 1] = [[.float64 ⟨0x4000000000000000⟩]] ∧
    g [.float64 ⟨0x4000000000000000⟩] = [[.int32 1]] ∧
    (q.evaluate ()).result.1 = .ok b ∧
    (∀ t, b.rows.contains t = true ↔
      ∃ n u, ReachedIn q.table.width g [[.int64 1]] n u ∧ (t == u) = true) ∧
    b.rows.Pairwise (fun t u => (t == u) = false) ∧
    b.rows.Pairwise fun t u => distance q.table.width g [[.int64 1]] t
      ≤ distance q.table.width g [[.int64 1]] u := by
  let list : List (Value × Value) :=
    [(.int64 1, .float64 ⟨0x4000000000000000⟩), (.int64 2, .int32 1)]
  have hg := Derivation.respectsEquality_edges 1 list
  obtain ⟨hCorrect, hEnds⟩ := @evaluate_eq_reachable Unit
    { table := _, index := "all", anchor := .values ⟨1, [[.int64 1]], false⟩,
      step := fun s => (fun read => (read.map fun rows => rows.flatMap (Derivation.edges list).ofTuple,
        s)) <$> ScanProgram.scanWorking,
      unionAll := false, settings := { recursionLimit := 2 } }
    (Derivation.edges list).ofTuple _ "nums"
    [.kind .recursive, .column "n" .float64, .queryIndex "all" [⟨"n", .ascending⟩]] _ rfl rfl rfl
    (fun _ => rfl) hg rfl rfl ()
  have hClosed : ∀ n t, ReachedIn 1 (Derivation.edges list).ofTuple [[.int64 1]] n t →
      t = [.int64 1] ∨ t = [.float64 ⟨0x4000000000000000⟩] ∨ t = [.int32 1] := by
    intro n t h
    induction h with
    | start ht => exact Or.inl (List.mem_singleton.1 ht)
    | step _ hu ih =>
      rcases ih with rfl | rfl | rfl
      · exact Or.inr (Or.inl (List.mem_singleton.1 hu))
      · exact Or.inr (Or.inr (List.mem_singleton.1 hu))
      · exact Or.inr (Or.inl (List.mem_singleton.1 hu))
  obtain ⟨b, hb⟩ := hEnds [[.int64 1], [.int64 2]] (Nat.le_refl 2) fun n t h => by
    rcases hClosed n t h with rfl | rfl | rfl
    · rfl
    · rfl
    · rfl
  refine ⟨_, _, (Derivation.edges list).ofTuple, b, rfl, rfl, rfl, ?_, ?_, rfl, rfl, rfl, rfl, rfl, hb,
    hCorrect b hb⟩
  · exact fun _ => rfl
  · exact hg

end RecursiveQuery

end IndexScan
