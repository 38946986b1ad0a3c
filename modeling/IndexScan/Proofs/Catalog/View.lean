import IndexScan.Catalog.View
import IndexScan.Proofs.Index.Computed
import IndexScan.Proofs.Index.Ledger

/-!
# The text of a view and its query stay together

A view takes up a compilation that succeeds, with the text that was compiled, and one that fails if
it was forced.  What it has taken up last is all that there is to a view: its text is the one that
was compiled, and it reads the query that came of it or reports the failure (`View.Stands`).  Every
other call, a scan included, leaves that alone, in whatever order the calls come.
-/

namespace IndexScan

/-! ### Scans of a plain index -/

namespace ComputedIndex

variable {ix : ComputedIndex}

theorem source_of_plain (h : ix.isRecursive = false) :
    (∃ q, ix.source = .query q) ∨ ∃ message, ix.source = .broken message := by
  rw [isRecursive] at h
  cases hSource : ix.source with
  | query q => exact Or.inl ⟨q, rfl⟩
  | broken message => exact Or.inr ⟨message, rfl⟩
  | working w =>
    rw [hSource] at h
    cases h
  | released w =>
    rw [hSource] at h
    cases h

theorem modifyWorking_of_plain (h : ix.isRecursive = false) (f : WorkingTable → WorkingTable) :
    ix.modifyWorking f = ix := by
  rcases source_of_plain h with ⟨q, hSource⟩ | ⟨message, hSource⟩
  · rw [modifyWorking, hSource]
  · rw [modifyWorking, hSource]

theorem putBack_of_plain (h : ix.isRecursive = false) (c : ComputedCursor) (e : Evaluator) :
    (c.putBack ix e).2 = ix := by
  rw [ComputedCursor.putBack]
  split
  · rfl
  · exact modifyWorking_of_plain h _

/-- A move changes nothing of a plain index but its counters. -/
theorem exists_move_of_plain (h : ix.isRecursive = false) (c : ComputedCursor) (m : Move) :
    ∃ stats, (Index.move ix c m).result.2.2 = { ix with stats } := by
  cases m with
  | previous => exact ⟨ix.stats, rfl⟩
  | next =>
    have hNext : Index.move ix c .next = c.next ix := rfl
    rw [hNext, ComputedCursor.next]
    split
    · exact ⟨ix.stats, rfl⟩
    · split
      · exact ⟨ix.stats, rfl⟩
      · split
        · exact ⟨ix.stats, putBack_of_plain h c _⟩
        · next e' _ =>
          refine ⟨(c.putBack ix e').2.stats.recordRow, ?_⟩
          simp [putBack_of_plain h c e']
        · exact ⟨ix.stats, putBack_of_plain h c _⟩

theorem exists_travel_of_plain (h : ix.isRecursive = false) (c : ComputedCursor) (ms : List Move) :
    ∃ stats, (Index.travel ix c ms).result.2 = { ix with stats } := by
  induction ms generalizing ix c with
  | nil => exact ⟨ix.stats, rfl⟩
  | cons m ms ih =>
    obtain ⟨stats, hMove⟩ := exists_move_of_plain h c m
    have hPlain : ({ ix with stats } : ComputedIndex).isRecursive = false := h
    obtain ⟨stats', hTravel⟩ := ih hPlain (Index.move ix c m).result.2.1
    refine ⟨stats', ?_⟩
    rw [← hMove] at hTravel
    exact hTravel.trans (by rw [hMove])

theorem exists_visit_of_plain (h : ix.isRecursive = false) (lower upper : Option Bound)
    (ms : List Move) : ∃ stats, (Index.visit ix lower upper ms).result = { ix with stats } := by
  rw [Index.visit, Traced.result_bind]
  rcases source_of_plain h with ⟨q, hSource⟩ | ⟨message, hSource⟩
  · rw [result_scan_query hSource]
    cases q.execute.result with
    | error e => exact ⟨ix.stats, rfl⟩
    | ok e =>
      have hPlain : (scan.counted ix).isRecursive = false := h
      exact exists_travel_of_plain hPlain { feed := .owned e, lower, upper } ms
  · rw [result_scan_broken hSource]
    exact ⟨ix.stats, rfl⟩

end ComputedIndex

/-! ### Calls -/

namespace View

/-- A call of a view. -/
inductive Call
  | recompile (c : Compiler) (force : Bool)
  | replaceText (text : String) (c : Compiler)
  | visit (lower upper : Option Bound) (moves : List Move)

/-- The view after a call. -/
def apply (v : View) : Call → View
  | .recompile c force => (v.recompile c force).result.2
  | .replaceText text c => (v.replaceText text c).result.2
  | .visit lower upper moves =>
    { v with index := (Index.visit v.index lower upper moves).result }

def after (v : View) (calls : List Call) : View := calls.foldl apply v

/-- A text, and what came of compiling it. -/
abbrev Compilation := String × Except Error Query

/-- The compilation that a view takes up in a call: one that succeeds, or a forced one. -/
def taken? (v : View) : Call → Option Compilation
  | .recompile c force =>
    match c.compile v.text v.index.table with
    | .ok q => some (v.text, .ok q)
    | .error e => if force then some (v.text, .error e) else none
  | .replaceText text c =>
    match c.compile text v.index.table with
    | .ok q => some (text, .ok q)
    | .error _ => none
  | .visit .. => none

/-- The compilations that a view takes up in calls. -/
def taken (v : View) : List Call → List Compilation
  | [] => []
  | call :: calls => (v.taken? call).toList ++ (v.apply call).taken calls

/-- What a view reads after a compilation. -/
def sourceOf : Except Error Query → TupleSource
  | .ok q => .query q
  | .error e => .broken e.message

/-- The view is what a compilation has made of it. -/
structure Stands (v : View) (x : Compilation) (t : Table) (o : RowOrder) : Prop where
  text : v.text = x.1
  source : v.index.source = sourceOf x.2
  table : v.index.table = t
  order : v.index.order = o

variable {v : View} {x : Compilation} {t : Table} {o : RowOrder}

theorem Stands.isRecursive (h : v.Stands x t o) : v.index.isRecursive = false := by
  rw [ComputedIndex.isRecursive, h.source]
  cases x.2 <;> rfl

section

variable {c : Compiler} {text : String} {q : Query} {e : Error}

theorem recompile_failed (hCompile : c.compile v.text v.index.table = .error e) :
    (v.recompile c false).result = (.error e, v) := by
  simp only [recompile, Compiler.run, Traced.result_bind, Traced.result_pure, hCompile]
  rfl

theorem replaceText_failed (hCompile : c.compile text v.index.table = .error e) :
    (v.replaceText text c).result = (.error e, v) := by
  have hFailed : (recompile { v with text } c false).result = (.error e, { v with text }) :=
    recompile_failed hCompile
  rw [replaceText, Traced.result_bind, hFailed]
  rfl

theorem recompile_ok_of_plain (hPlain : v.index.isRecursive = false) (force : Bool)
    (hCompile : c.compile v.text v.index.table = .ok q) : (v.recompile c force).result
      = (.ok (), { v with index := { v.index with source := .query q } }) := by
  have hNot : ¬ v.index.isRecursive = true := by rw [hPlain]; exact nofun
  simp only [recompile, Compiler.run, Traced.result_bind, Traced.result_pure, hCompile,
    ComputedIndex.setQuery, ComputedIndex.withSource, if_neg hNot]

theorem recompile_forced_of_plain (hPlain : v.index.isRecursive = false)
    (hCompile : c.compile v.text v.index.table = .error e) : (v.recompile c true).result
      = (.error e, { v with index := { v.index with source := .broken e.message } }) := by
  have hNot : ¬ v.index.isRecursive = true := by rw [hPlain]; exact nofun
  simp only [recompile, Compiler.run, Traced.result_bind, Traced.result_pure, hCompile,
    ComputedIndex.invalidate, ComputedIndex.withSource, if_neg hNot, if_true]
  rfl

theorem Stands.recompile_ok (h : v.Stands x t o) (force : Bool)
    (hCompile : c.compile v.text v.index.table = .ok q) : (v.recompile c force).result
      = (.ok (), { v with index := { v.index with source := .query q } }) :=
  recompile_ok_of_plain h.isRecursive force hCompile

theorem Stands.recompile_forced (h : v.Stands x t o)
    (hCompile : c.compile v.text v.index.table = .error e) : (v.recompile c true).result
      = (.error e, { v with index := { v.index with source := .broken e.message } }) :=
  recompile_forced_of_plain h.isRecursive hCompile

theorem Stands.replaceText_ok (h : v.Stands x t o)
    (hCompile : c.compile text v.index.table = .ok q) : (v.replaceText text c).result
      = (.ok (), { text, index := { v.index with source := .query q } }) := by
  have hStands : ({ v with text } : View).Stands (text, x.2) t o :=
    ⟨rfl, h.source, h.table, h.order⟩
  rw [replaceText, Traced.result_bind, hStands.recompile_ok false hCompile]
  rfl

end

/-! ### Histories -/

/-- Every call leaves a view as the last compilation that it has taken up has made it. -/
theorem Stands.apply (h : v.Stands x t o) (call : Call) :
    (v.apply call).Stands ((v.taken? call).getD x) t o := by
  cases call with
  | recompile c force =>
    rw [View.apply, taken?]
    cases hCompile : c.compile v.text v.index.table with
    | ok q =>
      rw [h.recompile_ok force hCompile]
      exact ⟨rfl, rfl, h.table, h.order⟩
    | error e =>
      cases force with
      | true =>
        rw [h.recompile_forced hCompile]
        exact ⟨rfl, rfl, h.table, h.order⟩
      | false =>
        rw [recompile_failed hCompile]
        exact h
  | replaceText text c =>
    rw [View.apply, taken?]
    cases hCompile : c.compile text v.index.table with
    | ok q =>
      rw [h.replaceText_ok hCompile]
      exact ⟨rfl, rfl, h.table, h.order⟩
    | error e =>
      rw [replaceText_failed hCompile]
      exact h
  | visit lower upper ms =>
    obtain ⟨stats, hVisit⟩ := ComputedIndex.exists_visit_of_plain h.isRecursive lower upper ms
    rw [View.apply, hVisit]
    exact ⟨h.text, h.source, h.table, h.order⟩

theorem Stands.after (h : v.Stands x t o) (calls : List Call) :
    (v.after calls).Stands ((v.taken calls).getLast?.getD x) t o := by
  induction calls generalizing v x with
  | nil => exact h
  | cons call calls ih =>
    have hRest := ih (h.apply call)
    rw [taken]
    cases hTaken : v.taken? call with
    | none =>
      rw [hTaken] at hRest
      exact hRest
    | some y =>
      rw [hTaken] at hRest
      rw [Option.toList_some, List.singleton_append, List.getLast?_cons, Option.getD_some]
      exact hRest

theorem stands_of_create {index text : String} {c : Compiler} {settings : Settings} {force : Bool}
    (h : (create t index text c settings force).result = .ok v) :
    ∃ d o, t.index? index = some d ∧ RowOrder.ofIndex t d settings.nulls = .ok o ∧
      v.Stands (text, c.compile text t) t o := by
  have hMade : ((ComputedIndex.create t index (sourceOf (c.compile text t)) settings).map
      fun index => ({ text, index } : View)) = .ok v := by
    simp only [create, Compiler.run, Traced.result_bind, Traced.result_pure] at h
    cases hCompile : c.compile text t with
    | ok q =>
      rw [hCompile] at h
      exact h
    | error e =>
      rw [hCompile] at h
      cases force with
      | true => exact h
      | false => cases h
  cases hIndex : ComputedIndex.create t index (sourceOf (c.compile text t)) settings with
  | error e =>
    rw [hIndex] at hMade
    cases hMade
  | ok ix =>
    rw [hIndex] at hMade
    cases hMade
    obtain ⟨d, o, hFound, hType, hOrder⟩ := ComputedIndex.exists_of_create hIndex
    rw [ComputedIndex.create_eq hFound hType hOrder] at hIndex
    cases hIndex
    exact ⟨d, o, hFound, hOrder, rfl, rfl, rfl, rfl⟩

/-! ### Coherence -/

/-- From now on scans evaluate a query, until another compilation is taken up. -/
def Evaluates (v : View) (t : Table) (o : RowOrder) (q : Query) : Prop :=
  ∀ calls, v.taken calls = [] → (v.after calls).index.query? = some q ∧ ∀ lower upper,
    (Index.rows (v.after calls).index lower upper).result.1
      = q.answer.map (o.rowsOf t.width lower upper)

/-- From now on all scans fail, until a compilation succeeds: with the error given, or with that of
the last forced compilation that has failed since. -/
def Reports (v : View) (t : Table) (e : Error) : Prop :=
  ∀ calls, (∀ y ∈ v.taken calls, y.2.isOk = false) → ∃ e',
    (.error e :: (v.taken calls).map Prod.snd).getLast? = some (.error e') ∧ ∀ lower upper,
    (Index.scan (v.after calls).index lower upper).result
      = (.error (.compilation t.name e'.message), (v.after calls).index)

/-- A view of a table after compilations, of which it has taken up all that succeeded or were
forced. -/
structure Coherent (v : View) (t : Table) (o : RowOrder) (past : List Compilation) : Prop where
  name_eq : v.name = t.name
  /-- The query of a valid view came of the last compilation that succeeded, which was of the
  view's text. -/
  valid : v.isValid = true → ∃ q, v.index.query? = some q ∧
    (past.filter (·.2.isOk)).getLast? = some (v.text, .ok q)
  recompile_failed : ∀ c e, c.compile v.text t = .error e →
    (v.recompile c false).result = (.error e, v)
  replaceText_failed : ∀ text c e, c.compile text t = .error e →
    (v.replaceText text c).result = (.error e, v)
  given_up : ∀ c e, c.compile v.text t = .error e → ∃ v',
    (v.recompile c true).result = (.error e, v') ∧ v'.text = v.text ∧ v'.Reports t e
  recompiled : ∀ c force q, c.compile v.text t = .ok q → ∃ v',
    (v.recompile c force).result = (.ok (), v') ∧ v'.text = v.text ∧ v'.Evaluates t o q
  replaced : ∀ text c q, c.compile text t = .ok q → ∃ v',
    (v.replaceText text c).result = (.ok (), v') ∧ v'.text = text ∧ v'.Evaluates t o q

theorem Stands.evaluates {text : String} {q : Query} (h : v.Stands (text, .ok q) t o) :
    v.Evaluates t o q := by
  intro calls hNone
  have hAfter := h.after calls
  rw [hNone] at hAfter
  have hSource : (v.after calls).index.source = .query q := hAfter.source
  refine ⟨by rw [ComputedIndex.query?, hSource], fun lower upper => ?_⟩
  rw [ComputedIndex.rows_eq hSource, hAfter.order, hAfter.table]

theorem Stands.reports {text : String} {e : Error} (h : v.Stands (text, .error e) t o) :
    v.Reports t e := by
  intro calls hFailed
  have hAfter := h.after calls
  have hLast : ((text, .error e) :: v.taken calls).getLast?
      = some ((v.taken calls).getLast?.getD (text, .error e)) := List.getLast?_cons
  have hNot : ((v.taken calls).getLast?.getD (text, .error e)).2.isOk = false := by
    rcases List.mem_cons.1 (List.mem_of_getLast? hLast) with hFirst | hLater
    · rw [hFirst]
      rfl
    · exact hFailed _ hLater
  cases hOutcome : ((v.taken calls).getLast?.getD (text, .error e)).2 with
  | ok q =>
    rw [hOutcome] at hNot
    cases hNot
  | error e' =>
    refine ⟨e', ?_, fun lower upper => ?_⟩
    · have hMap : (.error e :: (v.taken calls).map Prod.snd)
          = ((text, .error e) :: v.taken calls).map Prod.snd := rfl
      rw [hMap, List.getLast?_map, hLast, Option.map_some, hOutcome]
    · have hSource : (v.after calls).index.source = .broken e'.message := by
        rw [hAfter.source, hOutcome]
        rfl
      rw [ComputedIndex.result_scan_broken hSource, hAfter.table]

theorem Stands.query?_of_isValid (h : v.Stands x t o) (hValid : v.isValid = true) :
    ∃ q, v.index.query? = some q ∧ x.2 = .ok q := by
  rw [isValid, ComputedIndex.isValid, h.source] at hValid
  cases hOutcome : x.2 with
  | error e =>
    rw [hOutcome] at hValid
    cases hValid
  | ok q =>
    refine ⟨q, ?_, rfl⟩
    rw [ComputedIndex.query?, h.source, hOutcome]
    rfl

theorem Stands.coherent (h : v.Stands x t o) {past : List Compilation}
    (hPast : past.getLast? = some x) : v.Coherent t o past where
  name_eq := congrArg Table.name h.table
  valid hValid := by
    obtain ⟨q, hQuery, hOutcome⟩ := h.query?_of_isValid hValid
    obtain ⟨before, rfl⟩ := List.getLast?_eq_some_iff.1 hPast
    refine ⟨q, hQuery, ?_⟩
    rw [List.filter_append, List.filter_cons_of_pos (by rw [hOutcome]; rfl), List.filter_nil,
      List.getLast?_concat, h.text, ← hOutcome]
  recompile_failed c e hCompile := View.recompile_failed (h.table.symm ▸ hCompile)
  replaceText_failed text c e hCompile := View.replaceText_failed (h.table.symm ▸ hCompile)
  given_up c e hCompile := by
    rw [← h.table] at hCompile
    have hStands : ({ v with index := { v.index with source := .broken e.message } } : View).Stands
        (v.text, .error e) t o := ⟨rfl, rfl, h.table, h.order⟩
    exact ⟨_, h.recompile_forced hCompile, rfl, hStands.reports⟩
  recompiled c force q hCompile := by
    rw [← h.table] at hCompile
    have hStands : ({ v with index := { v.index with source := .query q } } : View).Stands
        (v.text, .ok q) t o := ⟨rfl, rfl, h.table, h.order⟩
    exact ⟨_, h.recompile_ok force hCompile, rfl, hStands.evaluates⟩
  replaced text c q hCompile := by
    rw [← h.table] at hCompile
    have hStands : ({ text, index := { v.index with source := .query q } } : View).Stands
        (text, .ok q) t o := ⟨rfl, rfl, h.table, h.order⟩
    exact ⟨_, h.replaceText_ok hCompile, rfl, hStands.evaluates⟩

/-- Whatever is asked of a view, it stays coherent with what has been compiled for it. -/
theorem coherent_of_history {index text : String} {c : Compiler} {settings : Settings}
    {force : Bool} (hCreate : (create t index text c settings force).result = .ok v) :
    ∃ d o, t.index? index = some d ∧ RowOrder.ofIndex t d settings.nulls = .ok o ∧
      ∀ calls, (v.after calls).Coherent t o ((text, c.compile text t) :: v.taken calls) := by
  obtain ⟨d, o, hIndex, hOrder, hStands⟩ := stands_of_create hCreate
  exact ⟨d, o, hIndex, hOrder, fun calls => (hStands.after calls).coherent List.getLast?_cons⟩

def numbersView : Table where
  name := "v"
  kind := .view
  columns := [{ name := "a", type := .int64 }]
  indexes := [{ name := "all", table := "v", columns := [⟨"a", .ascending⟩], type := .query }]

/-- The compiler that knows one text, which lists a number. -/
def knows (text : String) (n : Int64) : Compiler :=
  .ofDefinitions [(text, .ok (.values ⟨1, [[.int64 n]], false⟩))]

/-- A text that does not compile is not taken.  When the old one no longer compiles either, scans
report that, until another text takes its place. -/
theorem coherent_of_given_up_view : ∃ v,
    (create numbersView "all" "one" (knows "one" 1) {} false).result = .ok v ∧
    (∃ v', ((v.after [.replaceText "two" (knows "one" 1)]).recompile (knows "two" 2) true).result
        = (.error (.compilation "v" "unknown query \"one\""), v') ∧ v'.text = "one" ∧
      (Index.scan (v'.after [.visit none none [.next]]).index none none).result.1
        = .error (.compilation "v" "compilation of v failed: unknown query \"one\"")) ∧
    ∃ v', ((v.after [.replaceText "two" (knows "one" 1),
        .recompile (knows "two" 2) true]).replaceText "three" (knows "three" 3)).result
          = (.ok (), v') ∧ v'.text = "three" ∧
      (Index.rows v'.index none none).result.1 = .ok [Row.dummy [.int64 3]] := by
  obtain ⟨d, o, hIndex, hOrder, hCoherent⟩ :=
    @coherent_of_history _ numbersView "all" "one" (knows "one" 1) {} false rfl
  cases hIndex
  cases hOrder
  refine ⟨_, rfl, ?_, ?_⟩
  · obtain ⟨v', hGivenUp, hText, hReports⟩ :=
      (hCoherent [.replaceText "two" (knows "one" 1)]).given_up (knows "two" 2) _ rfl
    obtain ⟨e, hLast, hScan⟩ := hReports [.visit none none [.next]] (fun y hy => nomatch hy)
    cases hLast
    exact ⟨v', hGivenUp, hText, congrArg Prod.fst (hScan none none)⟩
  · obtain ⟨v', hReplaced, hText, hEvaluates⟩ :=
      (hCoherent [.replaceText "two" (knows "one" 1), .recompile (knows "two" 2) true]).replaced
        "three" (knows "three" 3) _ rfl
    exact ⟨v', hReplaced, hText, (hEvaluates [] rfl).2 none none⟩

end View

end IndexScan
