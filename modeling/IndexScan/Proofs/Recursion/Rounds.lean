import IndexScan.Proofs.Recursion.Working
import IndexScan.Proofs.Value.Distinct
import IndexScan.Recursion.RecursiveQuery

/-!
# Rounds of a recursive query

In a round the step is called on the working table, and what is kept of its answer is the next one.
`Rounds` is this as a relation that knows of the step only what it may answer on which tuples.
`iterate` stays in it as long as the index serves the working table (`exists_iterate`); what has been
seen is a set there and the list of all earlier tuples here.
-/

namespace IndexScan

/-- Filling the working table anew puts its reader before the first tuple. -/
theorem ComputedIndex.Serves.setWorking {ix : ComputedIndex} {t : Table} {o : RowOrder}
    {ts ahead : List Tuple} (h : ix.Serves t o ts ahead) (us : List Tuple) :
    (RecursiveQuery.setWorking ix us).Serves t o us us := by
  obtain ⟨b, hSource, hOpen, -⟩ := h.exists_buffer
  have hReplace : b.replace us = { width := b.width, rows := us } := by
    rw [Buffer.replace, hOpen]
    rfl
  simp only [RecursiveQuery.setWorking, modifyWorking, hSource, hReplace]
  exact h.withBuffer (b := { width := b.width, rows := us }) rfl

/-- The tuples of the first `n` working tables. -/
def produced (tables : Nat → List Tuple) (n : Nat) : List Tuple := (List.range n).flatMap tables

theorem produced_succ (tables : Nat → List Tuple) (n : Nat) :
    produced tables (n + 1) = produced tables n ++ tables n := by
  rw [produced, List.range_succ, List.flatMap_append, List.flatMap_singleton]
  rfl

theorem mem_produced {tables : Nat → List Tuple} {n : Nat} {t : Tuple} :
    t ∈ produced tables n ↔ ∃ i < n, t ∈ tables i := by
  simp [produced]

namespace RecursiveQuery

variable {σ : Type} (q : RecursiveQuery σ)

theorem result_readAnchor : q.readAnchor.result = q.anchor.answer := by
  rcases q.anchor.execute_cases with ⟨e, hExecute, hAnswer⟩ | ⟨e, last, hExecute, -, hDelivers,
    hAnswer⟩
  · rw [readAnchor, Traced.result_bind, hExecute, hAnswer]
    rfl
  · rw [readAnchor, Traced.result_bind, hExecute, hAnswer]
    simp only [hDelivers.readAll_eq]
    cases q.anchor.delivery.2 <;> rfl

/-- What is kept of derived tuples, after the earlier ones. -/
def kept (earlier ts : List Tuple) : List Tuple :=
  if q.unionAll then ts else (ts.removeAll earlier).eraseDups

section

variable {q} {earlier us : List Tuple} {t : Tuple} (hUnion : q.unionAll = false)

include hUnion

theorem kept_eq : q.kept earlier us = (us.removeAll earlier).eraseDups := by
  rw [kept, hUnion, if_neg Bool.false_ne_true]

theorem mem_of_mem_kept (h : t ∈ q.kept earlier us) : t ∈ us ∧ earlier.contains t = false := by
  rw [kept_eq hUnion] at h
  exact Distinct.mem_removeAll.1 ((Distinct.eraseDups_sublist _).subset h)

theorem contains_kept (h : t ∈ us) : (earlier ++ q.kept earlier us).contains t = true := by
  rw [List.contains_append, Bool.or_eq_true, kept_eq hUnion, Distinct.contains_eraseDups]
  by_cases hEarlier : earlier.contains t = true
  · exact Or.inl hEarlier
  · have hMem : t ∈ us.removeAll earlier :=
      Distinct.mem_removeAll.2 ⟨h, Bool.eq_false_iff.2 hEarlier⟩
    exact Or.inr (List.contains_iff_exists_mem_beq.2 ⟨t, hMem, BEq.rfl⟩)

theorem pairwise_append_kept (h : earlier.Pairwise fun t u => (t == u) = false) (us : List Tuple) :
    (earlier ++ q.kept earlier us).Pairwise fun t u => (t == u) = false := by
  refine List.pairwise_append.2 ⟨h, ?_, fun t ht u hu => ?_⟩
  · rw [kept_eq hUnion]
    exact Distinct.pairwise_eraseDups _
  · by_contra hEqual
    have hContains : earlier.contains u = true :=
      List.contains_iff_exists_mem_beq.2 ⟨t, ht, BEq.symm (by simpa using hEqual)⟩
    rw [(mem_of_mem_kept hUnion hu).2] at hContains
    cases hContains

end

/-- The set holds the earlier tuples.  With `UNION ALL` it is not used. -/
def Seen.Holds (seen : Seen) (earlier : List Tuple) : Prop :=
  q.unionAll = false → ∀ t, seen.contains t = earlier.contains t

theorem keep_eq {seen : Seen} {earlier : List Tuple} (h : Seen.Holds q seen earlier)
    (ts : List Tuple) : (q.keep ts seen).1 = q.kept earlier ts ∧
      Seen.Holds q (q.keep ts seen).2 (earlier ++ q.kept earlier ts) := by
  cases hUnion : q.unionAll with
  | true =>
    refine ⟨?_, fun hFalse => ?_⟩
    · rw [keep, kept, hUnion, if_pos rfl, if_pos rfl]
    · rw [hUnion] at hFalse
      cases hFalse
  | false =>
    obtain ⟨hFresh, hSeen⟩ := Distinct.unseen_eq (h hUnion) ts
    have hKeep : q.keep ts seen = Distinct.unseen ts seen := by
      rw [keep, hUnion, if_neg Bool.false_ne_true]
    have hKept : q.kept earlier ts = (Distinct.unseen ts seen).1 := by
      rw [kept, hUnion, if_neg Bool.false_ne_true, hFresh]
    rw [hKeep, hKept]
    exact ⟨rfl, fun _ => hSeen⟩

/-! ### Rounds -/

section

variable (Answers : List Tuple → σ → Except Error (List Tuple) → σ → Prop)

/-- What a call of the step on a working table answers, and that it leaves the working table to the
next call. -/
def StepAnswers (o : RowOrder) : Prop :=
  ∀ ix w ahead s, ix.Serves q.table o w ahead → ∃ answer s' ix' ahead',
    ((q.step s).run [] ix).result = ((answer, s'), ix') ∧ ix'.Serves q.table o w ahead' ∧
      Answers w s answer s'

/-- What may come of at most `left` calls from a working table on: its tuples and those after it,
or a failure.  The `earlier` tuples are those before it. -/
inductive Rounds : Nat → List Tuple → List Tuple → σ → Except Error (List Tuple) → σ → Prop
  | fixpoint {left : Nat} {earlier : List Tuple} {s : σ} : Rounds left earlier [] s (.ok []) s
  | exceeded {earlier w : List Tuple} {s : σ} (hw : w ≠ []) :
      Rounds 0 earlier w s (.error q.limitError) s
  | failed {left : Nat} {earlier w : List Tuple} {s s' : σ} {e : Error} (hw : w ≠ [])
      (hCall : Answers w s (.error e) s') : Rounds (left + 1) earlier w s (.error e) s'
  | round {left : Nat} {earlier w ts : List Tuple} {s s₁ s' : σ}
      {result : Except Error (List Tuple)} (hw : w ≠ []) (hCall : Answers w s (.ok ts) s₁)
      (hRest : Rounds left (earlier ++ w) (q.kept (earlier ++ w) ts) s₁ result s') :
      Rounds (left + 1) earlier w s (result.map (w ++ ·)) s'

variable {q Answers} {o : RowOrder}

/-- Whatever a call leaves unread in the working table is gone with the next filling. -/
theorem exists_iterate (hStep : q.StepAnswers Answers o) {left : Nat} {earlier w ahead : List Tuple}
    {seen : Seen} {s : σ} {ix : ComputedIndex} (h : ix.Serves q.table o w ahead)
    (hSeen : Seen.Holds q seen (earlier ++ w)) :
    ∃ rest s' ix', (q.iterate left w seen s ix).result = (rest, s', ix') ∧
      q.Rounds Answers left earlier w s (rest.map (w ++ ·)) s' := by
  induction left generalizing earlier w ahead seen s ix with
  | zero =>
    cases w with
    | nil => exact ⟨.ok [], s, ix, rfl, .fixpoint⟩
    | cons t w => exact ⟨.error q.limitError, s, ix, rfl, .exceeded (List.cons_ne_nil t w)⟩
  | succ left ih =>
    cases w with
    | nil => exact ⟨.ok [], s, ix, rfl, .fixpoint⟩
    | cons t w =>
      have hw := List.cons_ne_nil t w
      obtain ⟨answer, s₁, ix₁, ahead₁, hRun, hServes, hCall⟩ := hStep ix _ _ s h
      rw [iterate, Traced.result_bind, hRun]
      cases answer with
      | error e => exact ⟨.error e, s₁, ix₁, rfl, .failed hw hCall⟩
      | ok ts =>
        obtain ⟨hFresh, hSeen₁⟩ := q.keep_eq hSeen ts
        rw [← hFresh] at hSeen₁
        obtain ⟨rest, s', ix', hIterate, hRounds⟩ :=
          ih (s := s₁) (hServes.setWorking (q.keep ts seen).1) hSeen₁
        refine ⟨rest.map ((q.keep ts seen).1 ++ ·), s', ix', ?_, ?_⟩
        · simp only [Traced.result_bind, hIterate]
          rfl
        · rw [hFresh] at hRounds ⊢
          exact .round hw hCall hRounds

end

/-! ### Evaluation -/

/-- The index that the first call of the step is lent. -/
def firstIndex (o : RowOrder) (rows : List Tuple) : ComputedIndex :=
  { name := q.index, table := q.table, order := o,
    source := .working { evaluator := .buffer { width := q.table.width, rows } } }

variable {q}

theorem evaluate_of_refused {e : Error} (h : q.anchor.answer = .error e) (s : σ) :
    (q.evaluate s).result = (.error e, s) := by
  rw [evaluate, Traced.result_bind, result_readAnchor, h]
  rfl

/-- Without tuples of the anchor or without the index there is no evaluation. -/
theorem exists_of_evaluate {s : σ} {b : Buffer} (h : (q.evaluate s).result.1 = .ok b) :
    ∃ ts d o, q.anchor.answer = .ok ts ∧ q.table.index? q.index = some d ∧ d.type = .query ∧
      RowOrder.ofIndex q.table d q.settings.nulls = .ok o := by
  cases hAnchor : q.anchor.answer with
  | error e =>
    rw [evaluate_of_refused hAnchor] at h
    cases h
  | ok ts =>
    rw [evaluate, Traced.result_bind, result_readAnchor, hAnchor] at h
    simp only at h
    split at h
    · cases h
    · next ix hCreate =>
      obtain ⟨d, o, hIndex⟩ := ComputedIndex.exists_of_create hCreate
      exact ⟨ts, d, o, rfl, hIndex⟩

section

variable {o : RowOrder} {d : IndexDef} {ts : List Tuple}
  (hIndex : q.table.index? q.index = some d) (hType : d.type = .query)
  (hOrder : RowOrder.ofIndex q.table d q.settings.nulls = .ok o)
  (hAnchor : q.anchor.answer = .ok ts)

include hIndex hType hOrder hAnchor

theorem evaluate_of_iterate {s s' : σ} {rest : Except Error (List Tuple)} {ix' : ComputedIndex}
    (hIterate : (q.iterate q.settings.recursionLimit (q.keep ts ∅).1 (q.keep ts ∅).2 s
      (q.firstIndex o (q.keep ts ∅).1)).result = (rest, s', ix')) :
    (q.evaluate s).result = ((rest.map ((q.keep ts ∅).1 ++ ·)).map
      ({ width := q.table.width, rows := · }), s') := by
  rw [firstIndex] at hIterate
  rw [evaluate, Traced.result_bind, result_readAnchor, hAnchor]
  simp only [ComputedIndex.create_eq hIndex hType hOrder, Traced.result_bind, hIterate]
  cases rest <;> rfl

/-- The rounds of an evaluation start with the anchor's tuples. -/
theorem exists_evaluate {Answers : List Tuple → σ → Except Error (List Tuple) → σ → Prop}
    (hStep : q.StepAnswers Answers o) (s : σ) : ∃ result s',
      (q.evaluate s).result = (result.map ({ width := q.table.width, rows := · }), s') ∧
        q.Rounds Answers q.settings.recursionLimit [] (q.kept [] ts) s result s' := by
  have hEmpty : Seen.Holds q ∅ [] := fun _ t => Std.HashSet.contains_empty
  obtain ⟨hSeed, hSeen⟩ := q.keep_eq hEmpty ts
  rw [← hSeed] at hSeen
  have hServes : (q.firstIndex o (q.keep ts ∅).1).Serves q.table o (q.keep ts ∅).1
      (q.keep ts ∅).1 := ComputedIndex.serves_create
  obtain ⟨rest, s', ix', hIterate, hRounds⟩ := exists_iterate hStep hServes hSeen
  exact ⟨rest.map ((q.keep ts ∅).1 ++ ·), s',
    evaluate_of_iterate hIndex hType hOrder hAnchor hIterate, hSeed ▸ hRounds⟩

end

end RecursiveQuery

end IndexScan
