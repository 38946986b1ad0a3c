import IndexScan.Catalog
import IndexScan.Proofs.Catalog.View

/-!
# Commands that a user is denied have no effect

A command on a view of somebody else's schema is refused before anything is compiled
(`AlterView.run_denied`), and any other command on a view that is there does one thing: the view
takes up what came of compiling its text (`AlterView.run_obeyed`).  That changes neither the name a
view stands under nor its schema, so who is denied what stays the same as the commands go on
(`Command.isDenied_run`).  Denied commands can therefore be left out of any session, and no answer
and no view tells the difference (`Session.run_filter`), not even when compilers remember
everything they are asked.
-/

namespace IndexScan

/-! ### Catalogs -/

namespace Catalog

variable (c : Catalog) (name : String) (v : View)

theorem view?_set (other : String) :
    (c.set name v).view? other = if name = other then some v else c.view? other := by
  rw [view?, set, Std.TreeMap.getElem?_insert]
  by_cases h : name = other
  · rw [if_pos h, if_pos (Std.LawfulEqCmp.compare_eq_iff_eq.2 h)]
  · rw [if_neg h, if_neg fun hEq => h (Std.LawfulEqCmp.compare_eq_iff_eq.1 hEq)]
    rfl

end Catalog

/-- The view reads no working table.  There are no other views: `create` makes a view like this, and
it stays one (`View.isPlain_of_history`). -/
def View.IsPlain (v : View) : Prop := v.index.isRecursive = false

/-- The views of the catalog are plain. -/
def Catalog.IsPlain (c : Catalog) : Prop := ∀ name v, c.view? name = some v → v.IsPlain

theorem Catalog.isPlain_empty : ({} : Catalog).IsPlain := by
  intro name v hv
  have hNone : ({} : Catalog).view? name = none := Std.TreeMap.getElem?_emptyc
  rw [hNone] at hv
  cases hv

theorem Catalog.IsPlain.set {c : Catalog} (hc : c.IsPlain) (name : String) {v : View}
    (hv : v.IsPlain) : (c.set name v).IsPlain := by
  intro other w hw
  rw [view?_set] at hw
  by_cases h : name = other
  · rw [if_pos h] at hw
    cases hw
    exact hv
  · rw [if_neg h] at hw
    exact hc other w hw

namespace View

variable {v : View} (compiler : Compiler)

/-- The view after it has taken up what came of a compilation. -/
def taking (v : View) (outcome : Except Error Query) : View :=
  { v with index := { v.index with source := sourceOf outcome } }

theorem isPlain_of_history {t : Table} {index text : String} {c : Compiler} {settings : Settings}
    {force : Bool} (h : (create t index text c settings force).result = .ok v)
    (calls : List Call) : (v.after calls).IsPlain := by
  obtain ⟨d, o, -, -, hStands⟩ := stands_of_create h
  exact (hStands.after calls).isRecursive

theorem isPlain_taking (v : View) (outcome : Except Error Query) : (v.taking outcome).IsPlain := by
  cases outcome <;> rfl

/-- A forced compilation is taken up whatever comes of it. -/
theorem IsPlain.recompile_eq (h : v.IsPlain) : v.recompile compiler true
    = ⟨((compiler.compile v.text v.index.table).map fun _ => (),
        v.taking (compiler.compile v.text v.index.table)), [.compiled]⟩ := by
  refine Traced.ext ?_ ?_
  · cases hCompile : compiler.compile v.text v.index.table with
    | ok q => exact recompile_ok_of_plain h true hCompile
    | error e => exact recompile_forced_of_plain h hCompile
  · rw [recompile, Compiler.run]
    simp only [Traced.events_bind, Traced.events_pure, Traced.result_bind, Traced.result_pure]
    cases compiler.compile v.text v.index.table with
    | ok q => rfl
    | error e => rfl

end View

/-! ### One command -/

namespace AlterView

variable {a : AlterView} {c : Catalog} {u : User} {compiler : Compiler} {v : View}

theorem run_missing (h : c.view? a.view = none) : a.run c u compiler
    = ⟨(if a.ifExists then .ok 0 else .error (.viewNotFound a.view), c), []⟩ := by
  rw [run, h]
  rfl

/-- The owner is checked before anything else is done. -/
theorem run_denied (h : c.view? a.view = some v) (hOwns : u.owns v.schema = false) :
    a.run c u compiler
      = ⟨(.error (.accessDenied s!"user {u.name} does not own schema {v.schema}"), c), []⟩ := by
  have hCheck : u.checkOwner v.schema
      = .error (.accessDenied s!"user {u.name} does not own schema {v.schema}") := by
    rw [User.checkOwner, hOwns]
    rfl
  rw [run, h]
  simp only [hCheck]
  rfl

theorem run_obeyed (h : c.view? a.view = some v) (hOwns : u.owns v.schema = true)
    (hPlain : v.IsPlain) : a.run c u compiler
      = ⟨((compiler.compile v.text v.index.table).map fun _ => 0,
          c.set a.view (v.taking (compiler.compile v.text v.index.table))), [.compiled]⟩ := by
  have hCheck : u.checkOwner v.schema = .ok () := by
    rw [User.checkOwner, if_pos hOwns]
  rw [run, h]
  simp only [hCheck, hPlain.recompile_eq compiler]
  cases compiler.compile v.text v.index.table <;> rfl

end AlterView

/-! ### Sessions -/

/-- A command, who gives it, and the compiler at hand.  What a compiler answers may depend on
whatever is remembered of the texts that have been compiled before. -/
structure Command (μ : Type) extends AlterView where
  user : User
  compiler : μ → Compiler
  remember : μ → String → Table → μ

/-- What there is when a command is given: the catalog, and what the compilers remember. -/
structure Session (μ : Type) where
  catalog : Catalog
  memory : μ

variable {μ : Type}

namespace Command

/-- What came of compiling, and what is seen of it, with the session that is left behind.
Compilers remember what they are asked, and nothing else. -/
def run (x : Command μ) (s : Session μ) : Traced (Except Error Nat) × Session μ :=
  let outcome := x.toAlterView.run s.catalog x.user (x.compiler s.memory)
  let memory :=
    match s.catalog.view? x.view with
    | some v =>
      if .compiled ∈ outcome.events then x.remember s.memory v.text v.index.table else s.memory
    | none => s.memory
  (⟨outcome.result.1, outcome.events⟩, ⟨outcome.result.2, memory⟩)

/-- Whether the command is on a view in a schema that the user neither owns nor administers. -/
def isDenied (x : Command μ) (c : Catalog) : Bool :=
  (c.view? x.view).any fun v => !x.user.owns v.schema

variable {x : Command μ} {s : Session μ}

theorem isDenied_iff {c : Catalog} :
    x.isDenied c = true ↔ ∃ v, c.view? x.view = some v ∧ x.user.owns v.schema = false := by
  rw [isDenied, Option.any_eq_true]
  simp only [Bool.not_eq_true']

theorem run_missing (h : s.catalog.view? x.view = none) :
    x.run s = (⟨if x.ifExists then .ok 0 else .error (.viewNotFound x.view), []⟩, s) := by
  simp only [run, AlterView.run_missing h, h]

theorem run_denied {v : View} (h : s.catalog.view? x.view = some v)
    (hOwns : x.user.owns v.schema = false) : x.run s =
      (⟨.error (.accessDenied s!"user {x.user.name} does not own schema {v.schema}"), []⟩, s) := by
  simp only [run, AlterView.run_denied h hOwns, h]
  rfl

theorem run_obeyed {v : View} (h : s.catalog.view? x.view = some v)
    (hOwns : x.user.owns v.schema = true) (hPlain : v.IsPlain) : x.run s
      = (⟨((x.compiler s.memory).compile v.text v.index.table).map fun _ => 0, [.compiled]⟩,
          ⟨s.catalog.set x.view (v.taking ((x.compiler s.memory).compile v.text v.index.table)),
            x.remember s.memory v.text v.index.table⟩) := by
  simp only [run, AlterView.run_obeyed h hOwns hPlain, h]
  rfl

/-- What a command does that is not denied: the view takes up what comes of compiling its text, if
there is such a view, and everything else stays. -/
structure Obeys (x : Command μ) (s : Session μ) (outcome : Traced (Except Error Nat) × Session μ) :
    Prop where
  ok_iff : outcome.1.result = .ok 0 ↔ (s.catalog.view? x.view = none ∧ x.ifExists = true) ∨
    ∃ v q, s.catalog.view? x.view = some v ∧
      (x.compiler s.memory).compile v.text v.index.table = .ok q
  ok_or_error : outcome.1.result = .ok 0 ∨
    (s.catalog.view? x.view = none ∧ outcome.1.result = .error (.viewNotFound x.view)) ∨
    ∃ v e, s.catalog.view? x.view = some v ∧
      (x.compiler s.memory).compile v.text v.index.table = .error e ∧ outcome.1.result = .error e
  others : ∀ name, name ≠ x.view → outcome.2.catalog.view? name = s.catalog.view? name
  named : outcome.2.catalog.view? x.view = (s.catalog.view? x.view).map fun v =>
    v.taking ((x.compiler s.memory).compile v.text v.index.table)
  missing : s.catalog.view? x.view = none → outcome.2 = s

theorem obeys_of_missing (h : s.catalog.view? x.view = none) : x.Obeys s (x.run s) := by
  rw [run_missing h]
  cases hExists : x.ifExists with
  | true => exact ⟨by simp [h, hExists], Or.inl rfl, fun _ _ => rfl, by simp [h], fun _ => rfl⟩
  | false =>
    exact ⟨by simp [h, hExists], Or.inr (Or.inl ⟨h, rfl⟩), fun _ _ => rfl, by simp [h],
      fun _ => rfl⟩

theorem obeys_of_owned {v : View} (h : s.catalog.view? x.view = some v)
    (hOwns : x.user.owns v.schema = true) (hPlain : v.IsPlain) : x.Obeys s (x.run s) := by
  rw [run_obeyed h hOwns hPlain]
  refine ⟨?_, ?_, fun name hName => ?_, ?_, fun hNone => ?_⟩
  · cases hCompile : (x.compiler s.memory).compile v.text v.index.table <;>
      simp [h, hCompile, Except.map]
  · cases hCompile : (x.compiler s.memory).compile v.text v.index.table with
    | ok q => exact Or.inl rfl
    | error e => exact Or.inr (Or.inr ⟨v, e, h, hCompile, rfl⟩)
  · rw [Catalog.view?_set, if_neg (Ne.symm hName)]
  · rw [Catalog.view?_set, if_pos rfl, h]
    rfl
  · rw [h] at hNone
    cases hNone

theorem obeys_of_not_denied (hPlain : s.catalog.IsPlain)
    (h : x.isDenied s.catalog = false) : x.Obeys s (x.run s) := by
  cases hView : s.catalog.view? x.view with
  | none => exact obeys_of_missing hView
  | some v =>
    rw [isDenied, hView] at h
    exact obeys_of_owned hView (by simpa using h) (hPlain _ v hView)

/-- A command changes nothing, or has a view take something up. -/
theorem run_cases (hPlain : s.catalog.IsPlain) : (x.run s).2 = s ∨ ∃ v memory,
    s.catalog.view? x.view = some v ∧ (x.run s).2
      = ⟨s.catalog.set x.view (v.taking ((x.compiler s.memory).compile v.text v.index.table)),
          memory⟩ := by
  cases hView : s.catalog.view? x.view with
  | none =>
    rw [run_missing hView]
    exact Or.inl rfl
  | some v =>
    cases hOwns : x.user.owns v.schema with
    | false =>
      rw [run_denied hView hOwns]
      exact Or.inl rfl
    | true =>
      rw [run_obeyed hView hOwns (hPlain _ v hView)]
      exact Or.inr ⟨v, _, rfl, rfl⟩

theorem isPlain_run (hPlain : s.catalog.IsPlain) :
    (x.run s).2.catalog.IsPlain := by
  rcases run_cases (x := x) hPlain with hSame | ⟨v, memory, hView, hTaken⟩
  · rw [hSame]
    exact hPlain
  · rw [hTaken]
    exact hPlain.set _ (View.isPlain_taking v _)

/-- Who is denied what does not change. -/
theorem isDenied_run (hPlain : s.catalog.IsPlain) (y : Command μ) :
    y.isDenied (x.run s).2.catalog = y.isDenied s.catalog := by
  rcases run_cases (x := x) hPlain with hSame | ⟨v, memory, hView, hTaken⟩
  · rw [hSame]
  · rw [hTaken, isDenied, isDenied, Catalog.view?_set]
    by_cases hName : x.view = y.view
    · rw [if_pos hName, ← hName, hView]
      rfl
    · rw [if_neg hName]

end Command

namespace Session

/-- The answers to commands given in a row, and the last session. -/
def run (s : Session μ) : List (Command μ) → List (Traced (Except Error Nat)) × Session μ
  | [] => ([], s)
  | x :: xs =>
    let (answer, s) := x.run s
    let (answers, s) := s.run xs
    (answer :: answers, s)

variable {s : Session μ}

theorem run_cons (x : Command μ) (xs : List (Command μ)) : s.run (x :: xs)
    = ((x.run s).1 :: ((x.run s).2.run xs).1, ((x.run s).2.run xs).2) := rfl

theorem isPlain_run (hPlain : s.catalog.IsPlain) (xs : List (Command μ)) :
    (s.run xs).2.catalog.IsPlain := by
  induction xs generalizing s with
  | nil => exact hPlain
  | cons x xs ih => exact ih (Command.isPlain_run hPlain)

theorem isDenied_run (hPlain : s.catalog.IsPlain) (xs : List (Command μ))
    (y : Command μ) : y.isDenied (s.run xs).2.catalog = y.isDenied s.catalog := by
  induction xs generalizing s with
  | nil => rfl
  | cons x xs ih =>
    exact (ih (Command.isPlain_run hPlain)).trans (Command.isDenied_run hPlain y)

/-- The commands that are not denied have the same answers and lead to the same session when the
others are left out. -/
theorem run_filter (hPlain : s.catalog.IsPlain) (xs : List (Command μ)) :
    s.run (xs.filter fun x => !x.isDenied s.catalog)
      = (((xs.zip (s.run xs).1).filter fun p => !p.1.isDenied s.catalog).map Prod.snd,
          (s.run xs).2) := by
  induction xs generalizing s with
  | nil => rfl
  | cons x xs ih =>
    have hRest := ih (Command.isPlain_run (x := x) hPlain)
    simp only [Command.isDenied_run hPlain] at hRest
    rw [run_cons, List.zip_cons_cons]
    cases hDenied : x.isDenied s.catalog with
    | true =>
      obtain ⟨v, hView, hOwns⟩ := Command.isDenied_iff.1 hDenied
      have hSame : (x.run s).2 = s := by rw [Command.run_denied hView hOwns]
      rw [hSame] at hRest ⊢
      rw [List.filter_cons_of_neg (by simp [hDenied]), List.filter_cons_of_neg (by simp [hDenied])]
      exact hRest
    | false =>
      rw [List.filter_cons_of_pos (by simp [hDenied]), List.filter_cons_of_pos (by simp [hDenied]),
        run_cons, hRest]
      rfl

/-- Commands that a user is denied are answered without any effect, and without anything compiled,
so a session is the same without them; any other command is obeyed. -/
theorem run_without_denied (hPlain : s.catalog.IsPlain) :
    (∀ xs : List (Command μ), s.run (xs.filter fun x => !x.isDenied s.catalog)
      = (((xs.zip (s.run xs).1).filter fun p => !p.1.isDenied s.catalog).map Prod.snd,
          (s.run xs).2)) ∧
    ∀ (before : List (Command μ)) (x : Command μ),
      x.isDenied (s.run before).2.catalog = x.isDenied s.catalog ∧
      (∀ v, (s.run before).2.catalog.view? x.view = some v → x.user.owns v.schema = false →
        x.run (s.run before).2
          = (⟨.error (.accessDenied s!"user {x.user.name} does not own schema {v.schema}"), []⟩,
              (s.run before).2)) ∧
      (x.isDenied (s.run before).2.catalog = false →
        x.Obeys (s.run before).2 (x.run (s.run before).2)) :=
  ⟨run_filter hPlain, fun before x => ⟨isDenied_run hPlain before x,
    fun _ hView hOwns => Command.run_denied hView hOwns,
    Command.obeys_of_not_denied (isPlain_run hPlain before)⟩⟩

/-- A view in the schema `PUBLIC`, before anything has been asked of the compilers. -/
def ofView (v : View) : Session ℕ := ⟨({} : Catalog).set "v" v, 0⟩

/-- A command on that view, with a compiler that does not know its text and counts what it is
asked. -/
def recompileFor (user : User) : Command ℕ where
  view := "v"
  user := user
  compiler := fun _ => View.knows "two" 2
  remember := fun asked _ _ => asked + 1

/-- Of three commands only the one of the owner has an effect: it gives the view up. -/
theorem run_for_owner : ∃ v,
    (View.create View.numbersView "all" "one" (View.knows "one" 1) {} false).result = .ok v ∧
    ((ofView v).run [recompileFor { name := "mallory" },
        recompileFor { name := "alice", schemas := ["PUBLIC"] },
        recompileFor { name := "mallory" }]).2
      = ((ofView v).run [recompileFor { name := "alice", schemas := ["PUBLIC"] }]).2 ∧
    (recompileFor { name := "mallory" }).run (ofView v)
      = (⟨.error (.accessDenied "user mallory does not own schema PUBLIC"), []⟩, ofView v) ∧
    ((recompileFor { name := "alice", schemas := ["PUBLIC"] }).run (ofView v)).1.result
      = .error (.compilation "v" "unknown query \"one\"") := by
  have hCreate : ∃ v,
      (View.create View.numbersView "all" "one" (View.knows "one" 1) {} false).result = .ok v ∧
      v.schema = "PUBLIC" ∧ v.text = "one" ∧ v.index.table.name = "v" :=
    ⟨_, rfl, rfl, rfl, rfl⟩
  obtain ⟨v, hCreate, hSchema, hText, hName⟩ := hCreate
  have hMade : v.IsPlain := View.isPlain_of_history hCreate []
  have hPlain : (ofView v).catalog.IsPlain := Catalog.isPlain_empty.set "v" hMade
  have hView : (ofView v).catalog.view? "v" = some v := by
    rw [ofView, Catalog.view?_set, if_pos rfl]
  have hStranger : (recompileFor { name := "mallory" }).isDenied (ofView v).catalog = true :=
    Command.isDenied_iff.2 ⟨v, hView, rfl⟩
  have hOwner : (recompileFor { name := "alice", schemas := ["PUBLIC"] }).isDenied
      (ofView v).catalog = false := by
    rw [Command.isDenied, recompileFor, hView, Option.any_some, hSchema]
    decide
  obtain ⟨hFilter, hEach⟩ := run_without_denied hPlain
  refine ⟨v, hCreate, ?_, ?_, ?_⟩
  · have hAll := hFilter [recompileFor { name := "mallory" },
      recompileFor { name := "alice", schemas := ["PUBLIC"] }, recompileFor { name := "mallory" }]
    rw [List.filter_cons_of_neg (by simp [hStranger]), List.filter_cons_of_pos (by simp [hOwner]),
      List.filter_cons_of_neg (by simp [hStranger])] at hAll
    exact (congrArg Prod.snd hAll).symm
  · have hDenied := (hEach [] (recompileFor { name := "mallory" })).2.1 v hView rfl
    rw [hSchema] at hDenied
    exact hDenied
  · have hObeys := (hEach [] (recompileFor { name := "alice", schemas := ["PUBLIC"] })).2.2 hOwner
    have hCompile : (View.knows "two" 2).compile v.text v.index.table
        = .error (.compilation "v" "unknown query \"one\"") := by
      rw [hText, ← hName]
      rfl
    rcases hObeys.ok_or_error with hOk | ⟨hNone, -⟩ | ⟨w, e, hw, hFailed, hResult⟩
    · rcases hObeys.ok_iff.1 hOk with ⟨hNone, -⟩ | ⟨w, q, hw, hCompiled⟩
      · exact absurd (hNone.symm.trans hView) nofun
      · cases hw.symm.trans hView
        exact absurd (hCompiled.symm.trans hCompile) nofun
    · exact absurd (hNone.symm.trans hView) nofun
    · cases hw.symm.trans hView
      cases hFailed.symm.trans hCompile
      exact hResult

end Session

end IndexScan
