import IndexScan.Proofs.KeyTree.Shape

/-!
# The order of keys and separators

From left to right, keys and separators ascend: two keys or two separators strictly, a key is
below every separator to the right of it and not below any to the left of it.  This is one
statement about the list of pieces of a shape, so the bounds of every subtree are read off from
it by cutting the list.
-/

namespace IndexScan

variable {κ : Type} (cmp : κ → κ → Ordering)

/-- A key or a separator. -/
inductive Mark (κ : Type)
  | key (k : κ)
  | separator (k : κ)

/-- The first mark may stand to the left of the second. -/
def Mark.Before : Mark κ → Mark κ → Prop
  | key k, key l => cmp k l = .lt
  | key k, separator s => cmp k s = .lt
  | separator s, key k => cmp k s ≠ .lt
  | separator s, separator t => cmp s t = .lt

def Mark.value : Mark κ → κ
  | key k => k
  | separator k => k

def Piece.marks : Piece κ → List (Mark κ)
  | page p => p.entries.map fun e => .key e.1
  | separator s => [.separator s]

def marksOf (ps : List (Piece κ)) : List (Mark κ) := ps.flatMap Piece.marks

def Sorted (ps : List (Piece κ)) : Prop := (marksOf ps).Pairwise (Mark.Before cmp)

/-- A key belongs between two lists of pieces. -/
structure Between (before : List (Piece κ)) (key : κ) (after : List (Piece κ)) : Prop where
  before : ∀ m ∈ marksOf before, m.Before cmp (.key key)
  after : ∀ m ∈ marksOf after, Mark.Before cmp (.key key) m

/-- A property of all keys and separators. -/
def Everywhere (P : κ → Prop) (ps : List (Piece κ)) : Prop := ∀ m ∈ marksOf ps, P m.value

variable {cmp}

@[simp] theorem marksOf_append (ps qs : List (Piece κ)) :
    marksOf (ps ++ qs) = marksOf ps ++ marksOf qs := by simp [marksOf]

@[simp] theorem marksOf_page (p : Page κ) (ps : List (Piece κ)) :
    marksOf (.page p :: ps) = p.entries.map (fun e => .key e.1) ++ marksOf ps := rfl

@[simp] theorem marksOf_separator (s : κ) (ps : List (Piece κ)) :
    marksOf (.separator s :: ps) = .separator s :: marksOf ps := rfl

@[simp] theorem everywhere_append (P : κ → Prop) (ps qs : List (Piece κ)) :
    Everywhere P (ps ++ qs) ↔ Everywhere P ps ∧ Everywhere P qs := by
  simp only [Everywhere, marksOf_append, List.forall_mem_append]

@[simp] theorem everywhere_page (P : κ → Prop) (p : Page κ) (ps : List (Piece κ)) :
    Everywhere P (.page p :: ps) ↔ (∀ e ∈ p.entries, P e.1) ∧ Everywhere P ps := by
  simp only [Everywhere, marksOf_page, List.forall_mem_append, List.forall_mem_map, Mark.value]

@[simp] theorem everywhere_separator (P : κ → Prop) (s : κ) (ps : List (Piece κ)) :
    Everywhere P (.separator s :: ps) ↔ P s ∧ Everywhere P ps := by
  simp only [Everywhere, marksOf_separator, List.forall_mem_cons, Mark.value]

@[simp] theorem everywhere_nil (P : κ → Prop) : Everywhere P ([] : List (Piece κ)) := by
  simp [Everywhere, marksOf]

theorem key_mem_marksOf {ps : List (Piece κ)} {e : Entry κ} (h : e ∈ entriesOf ps) :
    Mark.key e.1 ∈ marksOf ps := by
  induction ps with
  | nil => simp at h
  | cons p ps ih =>
    cases p with
    | page p =>
      rw [marksOf_page, List.mem_append]
      rw [entriesOf_page, List.mem_append] at h
      exact h.imp (fun h => List.mem_map_of_mem (f := fun e : Entry κ => Mark.key e.1) h) ih
    | separator s => exact List.mem_cons_of_mem _ (ih h)

theorem Sorted.ascending {ps : List (Piece κ)} (h : Sorted cmp ps) :
    Multimap.Ascending cmp (entriesOf ps) := by
  induction ps with
  | nil => exact List.Pairwise.nil
  | cons p ps ih =>
    cases p with
    | page p =>
      rw [Sorted, marksOf_page, List.pairwise_append] at h
      rw [entriesOf_page]
      refine List.pairwise_append.2 ⟨?_, ih h.2.1, fun e he f hf => ?_⟩
      · exact List.pairwise_map.1 h.1
      · exact h.2.2 _ (List.mem_map_of_mem he) _ (key_mem_marksOf hf)
    | separator s => exact ih (List.pairwise_cons.1 h).2

/-- The entries around a place where a key belongs are on the right sides of the key. -/
theorem Between.entries [Std.OrientedCmp cmp] {before after : List (Piece κ)} {key : κ}
    (h : Between cmp before key after) :
    (∀ e ∈ entriesOf before, cmp e.1 key = .lt) ∧ ∀ e ∈ entriesOf after, cmp e.1 key = .gt :=
  ⟨fun _ he => h.before _ (key_mem_marksOf he),
    fun _ he => Std.OrientedCmp.gt_of_lt (h.after _ (key_mem_marksOf he))⟩

/-! ### Separators close by -/

theorem isLE_of_ne_lt [Std.OrientedCmp cmp] {a b : κ} (h : cmp b a ≠ .lt) : (cmp a b).isLE := by
  have hSwap : cmp a b = (cmp b a).swap := Std.OrientedCmp.eq_swap
  rw [hSwap]
  revert h
  cases cmp b a <;> decide

theorem Mark.Before.key_of_separator [Std.TransCmp cmp] {m : Mark κ} {s key : κ}
    (h : m.Before cmp (.separator s)) (hs : cmp key s ≠ .lt) : m.Before cmp (.key key) := by
  have hle : (cmp s key).isLE := isLE_of_ne_lt hs
  cases m with
  | key k => exact Std.TransCmp.lt_of_lt_of_isLE h hle
  | separator t =>
    have : cmp t key = .lt := Std.TransCmp.lt_of_lt_of_isLE h hle
    simp [Mark.Before, Std.OrientedCmp.gt_of_lt this]

theorem Mark.key_before_of_separator [Std.TransCmp cmp] {m : Mark κ} {s key : κ}
    (h : Mark.Before cmp (.separator s) m) (hs : cmp key s = .lt) :
    Mark.Before cmp (.key key) m := by
  cases m with
  | key k => exact Std.TransCmp.lt_of_lt_of_isLE hs (isLE_of_ne_lt h)
  | separator t => exact Std.TransCmp.lt_trans hs h

/-! ### Changing a leaf -/

/-- A leaf may be replaced by one whose keys ascend and belong where it stands. -/
theorem Sorted.replace {before after : List (Piece κ)} {p q : Page κ}
    (h : Sorted cmp (before ++ .page p :: after)) (hq : Multimap.Ascending cmp q.entries)
    (hBetween : ∀ e ∈ q.entries, (∃ f ∈ p.entries, f.1 = e.1) ∨ Between cmp before e.1 after) :
    Sorted cmp (before ++ .page q :: after) := by
  simp only [Sorted, marksOf_append, marksOf_page, List.pairwise_append, List.mem_append,
    List.mem_map] at h ⊢
  obtain ⟨hBefore, ⟨-, hAfter, hKeys⟩, hAll⟩ := h
  refine ⟨hBefore, ⟨List.pairwise_map.2 hq, hAfter, ?_⟩, ?_⟩
  · rintro _ ⟨e, he, rfl⟩ m hm
    rcases hBetween e he with ⟨f, hf, hfe⟩ | hb
    · exact hKeys _ ⟨f, hf, by rw [hfe]⟩ m hm
    · exact hb.after m hm
  · rintro m hm _ (⟨e, he, rfl⟩ | hn)
    · rcases hBetween e he with ⟨f, hf, hfe⟩ | hb
      · exact hAll m hm _ (Or.inl ⟨f, hf, by rw [hfe]⟩)
      · exact hb.before m hm
    · exact hAll m hm _ (Or.inr hn)

theorem pairwise_insert {α : Type} {R : α → α → Prop} {l r : List α} {x : α}
    (h : (l ++ r).Pairwise R) (hLeft : ∀ m ∈ l, R m x) (hRight : ∀ m ∈ r, R x m) :
    (l ++ x :: r).Pairwise R := by
  obtain ⟨hl, hr, hlr⟩ := List.pairwise_append.1 h
  refine List.pairwise_append.2 ⟨hl, List.pairwise_cons.2 ⟨hRight, hr⟩, fun m hm => ?_⟩
  exact List.forall_mem_cons.2 ⟨hLeft m hm, hlr m hm⟩

/-- A leaf may be cut before any key but the first; the key becomes a separator, which is above
every separator to the left because it is above the first key of the leaf. -/
theorem Sorted.cut [Std.TransCmp cmp] {before after : List (Piece κ)} {id new : NodeId}
    {d e : Entry κ} {l r : Multimap κ}
    (h : Sorted cmp (before ++ .page ⟨id, d :: l ++ e :: r⟩ :: after)) :
    Sorted cmp
      (before ++ .page ⟨id, d :: l⟩ :: .separator e.1 :: .page ⟨new, e :: r⟩ :: after) := by
  have hAll : ((marksOf before ++ (d :: l).map fun f => Mark.key f.1)
      ++ .key e.1 :: (r.map (fun f => Mark.key f.1) ++ marksOf after)).Pairwise
      (Mark.Before cmp) := by
    simpa [Sorted, List.append_assoc] using h
  have hNew := pairwise_insert (x := .separator e.1) hAll ?_ ?_
  · simpa [Sorted, List.append_assoc] using hNew
  · obtain ⟨hInit, -, hKey⟩ := List.pairwise_append.1 hAll
    intro m hm
    have hme := hKey m hm _ List.mem_cons_self
    cases m with
    | key k => exact hme
    | separator t =>
      have ht : Mark.separator t ∈ marksOf before := by simpa using hm
      have htd : cmp d.1 t ≠ .lt :=
        (List.pairwise_append.1 hInit).2.2 _ ht _ (List.mem_cons_self)
      have hde : cmp d.1 e.1 = .lt :=
        hKey _ (List.mem_append_right _ List.mem_cons_self) _ List.mem_cons_self
      exact Std.TransCmp.lt_of_isLE_of_lt (isLE_of_ne_lt htd) hde
  · obtain ⟨-, hTail, -⟩ := List.pairwise_append.1 hAll
    obtain ⟨hHead, -⟩ := List.pairwise_cons.1 hTail
    refine List.forall_mem_cons.2 ⟨by simp [Mark.Before, Std.ReflCmp.compare_self], fun m hm => ?_⟩
    have := hHead m hm
    cases m with
    | key k => simpa [Mark.Before] using Std.OrientedCmp.not_lt_of_lt this
    | separator t => exact this

end IndexScan
