/-! # What an evaluation is seen to do

Queries run outside the engine, and what the engine asks of them can be observed: that a query
is compiled or executed, and that its result is rewound or closed. A traced computation gives
its result together with these events, in the order in which they happen.
-/

namespace IndexScan

inductive Event
  | compiled
  | executed
  | rewound
  | closed
  deriving DecidableEq, Repr

structure Traced (α : Type) where
  result : α
  events : List Event := []

namespace Traced

variable {α β : Type}

instance : Monad Traced where
  pure a := ⟨a, []⟩
  bind x f := ⟨(f x.result).result, x.events ++ (f x.result).events⟩

/-- A computation that only shows an event. -/
def emit (e : Event) : Traced Unit := ⟨(), [e]⟩

theorem ext {x y : Traced α} (hr : x.result = y.result) (he : x.events = y.events) : x = y := by
  cases x
  cases y
  simp_all

@[simp] theorem result_pure (a : α) : (pure a : Traced α).result = a := rfl

@[simp] theorem events_pure (a : α) : (pure a : Traced α).events = [] := rfl

@[simp] theorem result_bind (x : Traced α) (f : α → Traced β) :
    (x >>= f).result = (f x.result).result := rfl

@[simp] theorem events_bind (x : Traced α) (f : α → Traced β) :
    (x >>= f).events = x.events ++ (f x.result).events := rfl

instance : LawfulMonad Traced :=
  LawfulMonad.mk' Traced (fun _ => ext rfl (List.append_nil _)) (fun _ _ => ext rfl rfl)
    (fun _ _ _ => ext rfl (List.append_assoc ..))

end Traced

end IndexScan
