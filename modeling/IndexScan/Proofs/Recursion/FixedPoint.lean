import IndexScan.Proofs.Recursion.Rounds
import IndexScan.Recursion.Member

/-!
# The fixed-point iteration

The step is watched by making it note its calls (`RecursiveQuery.watched`), which does not change
the evaluation.  Every call reads the working table that the call before it has made, nothing but
it, and all of it if it wants to (`Course`); the iteration ends with the first empty working table,
with the first failure or at the limit (`Ends`).
-/

namespace IndexScan

/-- A call of the step: what it does with the index, and its answer. -/
structure Call where
  accesses : Accesses
  answer : Except Error (List Tuple)

/-- The working tables with one more before them. -/
def prepend (w : List Tuple) (tables : Nat → List Tuple) : Nat → List Tuple
  | 0 => w
  | n + 1 => tables n

theorem produced_prepend (w : List Tuple) (tables : Nat → List Tuple) (n : Nat) :
    produced (prepend w tables) (n + 1) = w ++ produced tables n := by
  rw [produced, List.range_succ_eq_map, List.flatMap_cons, List.flatMap_map]
  rfl

namespace RecursiveQuery

variable {σ : Type}

/-- The query whose step notes its calls. -/
def watched (q : RecursiveQuery σ) : RecursiveQuery (σ × List Call) :=
  { table := q.table, index := q.index, anchor := q.anchor, unionAll := q.unionAll,
    settings := q.settings,
    step := fun (s, calls) =>
      (fun ((answer, s), accesses) => (answer, s, calls ++ [⟨accesses, answer⟩])) <$>
        (q.step s).noting }

/-- How an iteration ends that may make `left` calls. -/
inductive Ends (q : RecursiveQuery σ) (left : Nat) (tables : Nat → List Tuple) :
    List Call → Except Error (List Tuple) → Prop
  | fixpoint {calls : List Call} (hAnswers : ∀ c ∈ calls, c.answer.isOk = true)
      (hLimit : calls.length ≤ left) (hEmpty : tables calls.length = []) :
      Ends q left tables calls (.ok (produced tables calls.length))
  | failed {calls : List Call} {accesses : Accesses} {e : Error}
      (hAnswers : ∀ c ∈ calls, c.answer.isOk = true) (hLimit : calls.length < left) :
      Ends q left tables (calls ++ [⟨accesses, .error e⟩]) (.error e)
  | exceeded {calls : List Call} (hAnswers : ∀ c ∈ calls, c.answer.isOk = true)
      (hLimit : calls.length = left) (hMore : tables left ≠ []) :
      Ends q left tables calls (.error q.limitError)

/-- The course of an iteration that starts with working table `tables 0` after the `earlier`
tuples.  Call number `i` reads the working table `tables i`. -/
structure Course (q : RecursiveQuery σ) (o : RowOrder) (left : Nat) (earlier : List Tuple)
    (tables : Nat → List Tuple) (calls : List Call) (result : Except Error (List Tuple)) :
    Prop where
  pending : ∀ i < calls.length, tables i ≠ []
  reads : ∀ (i : Nat) (c : Call), calls[i]? = some c →
    c.accesses.Exact fun lower upper => o.rowsOf q.table.width lower upper (tables i)
  next : ∀ (i : Nat) (c : Call) (ts : List Tuple), calls[i]? = some c → c.answer = .ok ts →
    tables (i + 1) = q.kept (earlier ++ produced tables (i + 1)) ts
  ends : q.Ends left tables calls result

variable {q : RecursiveQuery σ}

/-! ### Watching -/

theorem run_watched (s : σ) (calls : List Call) (ix : ComputedIndex) :
    ∃ accesses answer s' ix', ((q.step s).run [] ix).result = ((answer, s'), ix') ∧
      ((q.step s).noting.run [] ix).result = (((answer, s'), accesses), ix') ∧
      ((q.watched.step (s, calls)).run [] ix).result
        = ((answer, s', calls ++ [⟨accesses, answer⟩]), ix') := by
  refine ⟨_, _, _, _, ScanProgram.result_run_noting .., rfl, ?_⟩
  rw [watched, ScanProgram.result_run_map]
  rfl

theorem iterate_watched (left : Nat) (w : List Tuple) (seen : Seen) (s : σ) (calls : List Call)
    (ix : ComputedIndex) : ∃ rest s' ix' calls',
      (q.iterate left w seen s ix).result = (rest, s', ix') ∧
        (q.watched.iterate left w seen (s, calls) ix).result = (rest, (s', calls'), ix') := by
  induction left generalizing w seen s calls ix with
  | zero => cases w <;> exact ⟨_, s, ix, calls, rfl, rfl⟩
  | succ left ih =>
    cases w with
    | nil => exact ⟨.ok [], s, ix, calls, rfl, rfl⟩
    | cons t w =>
      obtain ⟨accesses, answer, s₁, ix₁, hRun, -, hWatched⟩ := run_watched (q := q) s calls ix
      rw [iterate, iterate, Traced.result_bind, Traced.result_bind, hRun, hWatched]
      cases answer with
      | error e => exact ⟨.error e, s₁, ix₁, _, rfl, rfl⟩
      | ok ts =>
        obtain ⟨rest, s', ix', calls', hRest, hRest'⟩ := ih (q.keep ts seen).1 (q.keep ts seen).2 s₁
          (calls ++ [⟨accesses, .ok ts⟩]) (setWorking ix₁ (q.keep ts seen).1)
        have hKeep : q.watched.keep ts seen = q.keep ts seen := rfl
        refine ⟨rest.map ((q.keep ts seen).1 ++ ·), s', ix', calls', ?_, ?_⟩
        · simp only [Traced.result_bind, hRest]
          rfl
        · simp only [Traced.result_bind, hKeep, hRest']
          rfl

theorem evaluate_watched {o : RowOrder} {d : IndexDef}
    (hIndex : q.table.index? q.index = some d) (hType : d.type = .query)
    (hOrder : RowOrder.ofIndex q.table d q.settings.nulls = .ok o) (s : σ) :
    ∃ outcome s' calls, (q.evaluate s).result = (outcome, s') ∧
      (q.watched.evaluate (s, [])).result = (outcome, (s', calls)) := by
  cases hAnchor : q.anchor.answer with
  | error e =>
    exact ⟨.error e, s, [], evaluate_of_refused hAnchor s,
      evaluate_of_refused (q := q.watched) hAnchor (s, [])⟩
  | ok ts =>
    obtain ⟨rest, s', ix', calls, hIterate, hWatched⟩ := iterate_watched (q := q)
      q.settings.recursionLimit (q.keep ts ∅).1 (q.keep ts ∅).2 s []
      (q.firstIndex o (q.keep ts ∅).1)
    exact ⟨_, s', calls, evaluate_of_iterate hIndex hType hOrder hAnchor hIterate,
      evaluate_of_iterate (q := q.watched) hIndex hType hOrder hAnchor hWatched⟩

/-! ### The course -/

/-- A watched call reads its working table and is noted. -/
def Noted (q : RecursiveQuery σ) (o : RowOrder) (w : List Tuple) (before : σ × List Call)
    (answer : Except Error (List Tuple)) (after : σ × List Call) : Prop :=
  ∃ accesses, after.2 = before.2 ++ [⟨accesses, answer⟩] ∧
    accesses.Exact fun lower upper => o.rowsOf q.table.width lower upper w

theorem stepAnswers_watched (q : RecursiveQuery σ) (o : RowOrder) :
    q.watched.StepAnswers (q.Noted o) o := by
  intro ix w ahead ⟨s, calls⟩ h
  obtain ⟨accesses, answer, s', ix', -, hNoting, hWatched⟩ := run_watched (q := q) s calls ix
  have hNone : ∀ c ∈ ([] : List ComputedCursor), c.feed = .shared :=
    fun _ hc => absurd hc List.not_mem_nil
  obtain ⟨a, log, ix₁, ahead', hRun, hServes, hExact, -⟩ := h.run_noting hNone (q.step s)
  obtain ⟨⟨rfl, rfl⟩, rfl⟩ : (((answer, s') = a) ∧ accesses = log) ∧ ix' = ix₁ := by
    simpa using hNoting.symm.trans hRun
  exact ⟨answer, _, ix', ahead', hWatched, hServes, accesses, rfl, hExact⟩

theorem allAnswered_nil : ∀ c ∈ ([] : List Call), c.answer.isOk = true :=
  fun _ hc => absurd hc List.not_mem_nil

theorem Course.of_nil {o : RowOrder} {left : Nat} {earlier : List Tuple}
    {tables : Nat → List Tuple} {result : Except Error (List Tuple)}
    (h : q.Ends left tables [] result) : q.Course o left earlier tables [] result where
  pending i hi := absurd hi (Nat.not_lt_zero i)
  reads i c hc := by
    rw [List.getElem?_nil] at hc
    cases hc
  next i c ts hc _ := by
    rw [List.getElem?_nil] at hc
    cases hc
  ends := h

theorem Ends.cons {left : Nat} {w : List Tuple} {tables : Nat → List Tuple} {c : Call}
    {calls : List Call} {result : Except Error (List Tuple)} (hc : c.answer.isOk = true)
    (h : q.Ends left tables calls result) :
    q.Ends (left + 1) (prepend w tables) (c :: calls) (result.map (w ++ ·)) := by
  have hAll : ∀ {l : List Call}, (∀ c ∈ l, c.answer.isOk = true) →
      ∀ c' ∈ c :: l, c'.answer.isOk = true := fun h => List.forall_mem_cons.2 ⟨hc, h⟩
  cases h with
  | fixpoint hAnswers hLimit hEmpty =>
    rw [Except.map, ← produced_prepend]
    exact .fixpoint (hAll hAnswers) (Nat.succ_le_succ hLimit) hEmpty
  | failed hAnswers hLimit => exact .failed (hAll hAnswers) (Nat.succ_lt_succ hLimit)
  | exceeded hAnswers hLimit hMore =>
    exact .exceeded (hAll hAnswers) (congrArg Nat.succ hLimit) hMore

theorem Course.cons {o : RowOrder} {left : Nat} {earlier w ts : List Tuple}
    {tables : Nat → List Tuple} {accesses : Accesses} {calls : List Call}
    {result : Except Error (List Tuple)} (hw : w ≠ [])
    (hReads : accesses.Exact fun lower upper => o.rowsOf q.table.width lower upper w)
    (hNext : tables 0 = q.kept (earlier ++ w) ts)
    (h : q.Course o left (earlier ++ w) tables calls result) :
    q.Course o (left + 1) earlier (prepend w tables) (⟨accesses, .ok ts⟩ :: calls)
      (result.map (w ++ ·)) where
  pending i hi := by
    cases i with
    | zero => exact hw
    | succ i => exact h.pending i (Nat.lt_of_succ_lt_succ hi)
  reads i c hc := by
    cases i with
    | zero =>
      obtain rfl := Option.some.inj hc
      exact hReads
    | succ i => exact h.reads i c hc
  next i c us hc hAnswer := by
    cases i with
    | zero =>
      obtain rfl := Option.some.inj hc
      cases hAnswer
      change tables 0 = q.kept (earlier ++ (w ++ [])) ts
      rwa [List.append_nil]
    | succ i =>
      rw [produced_prepend, ← List.append_assoc]
      exact h.next i c us hc hAnswer
  ends := h.ends.cons rfl

theorem Rounds.exists_course {o : RowOrder} {left : Nat} {earlier w : List Tuple}
    {s s' : σ × List Call} {result : Except Error (List Tuple)}
    (h : q.watched.Rounds (q.Noted o) left earlier w s result s') :
    ∃ tables calls, s'.2 = s.2 ++ calls ∧ tables 0 = w ∧
      q.Course o left earlier tables calls result := by
  induction h with
  | fixpoint =>
    exact ⟨fun _ => [], [], (List.append_nil _).symm, rfl,
      .of_nil (.fixpoint allAnswered_nil (Nat.zero_le _) rfl)⟩
  | @exceeded earlier w s hw =>
    exact ⟨fun _ => w, [], (List.append_nil _).symm, rfl,
      .of_nil (.exceeded allAnswered_nil rfl hw)⟩
  | @failed left earlier w s s' e hw hCall =>
    obtain ⟨accesses, hCalls, hExact⟩ := hCall
    refine ⟨fun _ => w, [⟨accesses, .error e⟩], hCalls, rfl, fun _ _ => hw, fun i c hc => ?_,
      fun i c ts hc hAnswer => ?_, ?_⟩
    · obtain rfl := List.mem_singleton.1 (List.mem_of_getElem? hc)
      exact hExact
    · obtain rfl := List.mem_singleton.1 (List.mem_of_getElem? hc)
      cases hAnswer
    · exact .failed allAnswered_nil (Nat.succ_pos left)
  | @round left earlier w ts s s₁ s' result hw hCall _ ih =>
    obtain ⟨accesses, hCalls₁, hExact⟩ := hCall
    obtain ⟨tables, calls, hCalls, hFirst, hCourse⟩ := ih
    refine ⟨prepend w tables, ⟨accesses, .ok ts⟩ :: calls, ?_, rfl,
      Course.cons hw hExact hFirst hCourse⟩
    rw [hCalls, hCalls₁, List.append_assoc]
    rfl

/-- An evaluation follows the fixed-point iteration, whatever the step does. -/
theorem evaluate_follows_rounds {name : String} {steps : List Declaration} {d : IndexDef}
    (hTable : Table.declare name steps = .ok q.table)
    (hIndex : q.table.index? q.index = some d) (hType : d.type = .query) (s : σ) :
    ∃ o calls, RowOrder.ofIndex q.table d q.settings.nulls = .ok o ∧
      (q.watched.evaluate (s, [])).result
        = ((q.evaluate s).result.1, (q.evaluate s).result.2, calls) ∧
      (∀ e, q.anchor.answer = .error e → calls = [] ∧ (q.evaluate s).result.1 = .error e) ∧
      ∀ ts, q.anchor.answer = .ok ts → ∃ tables result, tables 0 = q.kept [] ts ∧
        q.Course o q.settings.recursionLimit [] tables calls result ∧
        (q.evaluate s).result.1 = result.map ({ width := q.table.width, rows := · }) := by
  obtain ⟨o, hOrder⟩ := Table.exists_order_of_declare hTable hIndex q.settings.nulls
  obtain ⟨outcome, s', calls, hEvaluate, hWatched⟩ := evaluate_watched hIndex hType hOrder s
  rw [hEvaluate]
  refine ⟨o, calls, hOrder, hWatched, fun e hAnchor => ?_, fun ts hAnchor => ?_⟩
  · have hRefused := evaluate_of_refused (q := q.watched) hAnchor (s, [])
    rw [hWatched] at hRefused
    cases hRefused
    exact ⟨rfl, rfl⟩
  · obtain ⟨result, s₁, hRun, hRounds⟩ := exists_evaluate (q := q.watched) hIndex hType hOrder
      hAnchor (stepAnswers_watched q o) (s, [])
    rw [hWatched] at hRun
    cases hRun
    obtain ⟨tables, calls', hCalls, hFirst, hCourse⟩ := hRounds.exists_course
    obtain rfl : calls = calls' := hCalls
    exact ⟨tables, result, hFirst, hCourse, rfl⟩

/-- The numbers from 1 to 3, counted by a step that leaves its first scan behind. -/
theorem rounds_of_counting : ∃ (q : RecursiveQuery Member.State) (d : IndexDef) (o : RowOrder)
    (calls : List Call) (tables : Nat → List Tuple) (result : Except Error (List Tuple)),
    Table.declare "nums" [.kind .recursive, .column "n" .int64, .queryIndex "all" [⟨"n", .ascending⟩]]
      = .ok q.table ∧
    q.table.index? q.index = some d ∧ d.type = .query ∧
    q.anchor.answer = .ok [[.int64 1], [.float64 ⟨0x3ff0000000000000⟩]] ∧
    q.step = Member.step ⟨[{ limit := some 1 }, {}], .successor 1 3⟩ ∧
    (q.watched.evaluate ({}, [])).result
      = ((q.evaluate {}).result.1, (q.evaluate {}).result.2, calls) ∧
    tables 0 = [[.int64 1]] ∧ q.Course o 5 [] tables calls result ∧
    (q.evaluate {}).result.1 = result.map ({ width := 1, rows := · }) := by
  obtain ⟨o, calls, -, hWatched, -, hRounds⟩ := @evaluate_follows_rounds _
    { table := _, index := "all",
      anchor := .values ⟨1, [[.int64 1], [.float64 ⟨0x3ff0000000000000⟩]], false⟩,
      step := Member.step ⟨[{ limit := some 1 }, {}], .successor 1 3⟩, unionAll := false,
      settings := { recursionLimit := 5 } }
    "nums" [.kind .recursive, .column "n" .int64, .queryIndex "all" [⟨"n", .ascending⟩]] _ rfl rfl rfl {}
  obtain ⟨tables, result, hFirst, hCourse, hResult⟩ := hRounds _ rfl
  exact ⟨_, _, o, calls, tables, result, rfl, rfl, rfl, rfl, rfl, hWatched, hFirst, hCourse, hResult⟩

end RecursiveQuery

end IndexScan
