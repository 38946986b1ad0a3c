import IndexScan.Evaluation.Query
import IndexScan.Proofs.Value.Text
import IndexScan.RowOrder

/-!
# What queries and refusals show of values

A query that lists its tuples is written as a list of tuples, so its text shows every cell up to
equality (`ValuesQuery.text_eq_iff`).  A refused key of several cells is shown as one text, in which
the quotes are doubled once more; the blank behind it ends it, so the message shows the cells and
the index (`Error.message_duplicateKey_eq_iff`).  A key of one cell is shown as that cell, which may
be a text like that of a longer key.
-/

namespace IndexScan

open Value

/-! ### Queries -/

theorem ValuesQuery.text_eq (q : ValuesQuery) :
    q.text = String.ofList
      ("VALUES ".toList ++ List.intercalate ", ".toList (q.rows.map tupleChars)) := rfl

/-- Queries have one text if they list equal rows, and not otherwise. -/
theorem ValuesQuery.text_eq_iff {p q : ValuesQuery} (hp : ∀ t ∈ p.rows, ∀ v ∈ t, v.NoFloat)
    (hq : ∀ t ∈ q.rows, ∀ v ∈ t, v.NoFloat) :
    p.text = q.text ↔ List.Forall₂ (List.Forall₂ fun a b => a == b) p.rows q.rows := by
  rw [text_eq, text_eq, String.ofList_inj, List.append_right_inj]
  constructor
  · intro h
    exact (legible_tupleChars.intercalate_inj (fun _ => trivial) hp hq closes_nil closes_nil
      (congrArg (· ++ []) h)).1
  · intro h
    rw [legible_tupleChars.map_congr hp hq h]

/-! ### Refused keys -/

theorem Error.message_duplicateKey (index : String) (key : Value) :
    (duplicateKey index key).message
      = "duplicate key " ++ key.render ++ " in unique index " ++ index := rfl

theorem Error.toList_message_duplicateKey (index : String) (key : Value) :
    (duplicateKey index key).message.toList
      = "duplicate key ".toList ++
        (key.chars ++ ' ' :: ("in unique index ".toList ++ index.toList)) := by
  rw [message_duplicateKey, render, String.toList_append, String.toList_append,
    String.toList_append, String.toList_ofList (l := key.chars), List.append_assoc,
    List.append_assoc]
  rfl

/-- A message shows the key that is refused up to equality, and the index that refuses it. -/
theorem Error.message_duplicateKey_eq_iff {i j : String} {v w : Value} (hv : v.NoFloat)
    (hw : w.NoFloat) :
    (duplicateKey i v).message = (duplicateKey j w).message ↔ i = j ∧ v == w := by
  rw [← String.toList_inj, toList_message_duplicateKey, toList_message_duplicateKey]
  constructor
  · intro h
    obtain ⟨hKey, hRest⟩ := chars_append_inj hv hw (stops_cons _ (by decide) (by decide))
      (stops_cons _ (by decide) (by decide)) (List.append_cancel_left h)
    exact ⟨String.toList_inj.1 (List.append_cancel_left (List.cons.inj hRest).2), hKey⟩
  · rintro ⟨rfl, hKey⟩
    rw [chars_congr hv hw hKey]

theorem keyValue_of_length_ne_one {k : Key} (h : k.length ≠ 1) :
    keyValue k = .text (String.ofList (tupleChars k)) := by
  cases k with
  | nil => rfl
  | cons v k =>
    cases k with
    | nil => exact absurd rfl h
    | cons w k => rfl

/-- A key of one cell can be shown like one of two. -/
example : keyValue [.text "(1, 2)"] = keyValue [.int32 1, .int32 2] := rfl

theorem noFloat_keyValue {k : Key} (h : k.length ≠ 1) : (keyValue k).NoFloat := by
  rw [keyValue_of_length_ne_one h]
  intro hType
  cases hType

theorem keyValue_beq_iff {k l : Key} (hk : ∀ v ∈ k, v.NoFloat) (hl : ∀ v ∈ l, v.NoFloat)
    (hLength : k.length ≠ 1) (hLength' : l.length ≠ 1) :
    keyValue k == keyValue l ↔ List.Forall₂ (fun a b => a == b) k l := by
  rw [keyValue_of_length_ne_one hLength, keyValue_of_length_ne_one hLength', text_beq_iff,
    String.ofList_inj, legible_tupleChars.eq_iff trivial hk hl]

/-- The text of a list of rows without doubles shows how many rows there are, how many cells each
has, and what the cells are up to equality.  A refused key with another number of cells than one
shows the same as one text, and so does the message in which that text is quoted. -/
theorem Value.texts_tell_cells :
    (∀ p q : ValuesQuery, (∀ t ∈ p.rows, ∀ v ∈ t, v.NoFloat) → (∀ t ∈ q.rows, ∀ v ∈ t, v.NoFloat) →
      (p.text = q.text ↔
        List.Forall₂ (List.Forall₂ fun a b : Value => a == b) p.rows q.rows)) ∧
    ∀ k l : Key, (∀ v ∈ k, v.NoFloat) → (∀ v ∈ l, v.NoFloat) → k.length ≠ 1 → l.length ≠ 1 →
      (keyValue k == keyValue l ↔ List.Forall₂ (fun a b : Value => a == b) k l) ∧
      ∀ i j : String,
        ((Error.duplicateKey i (keyValue k)).message = (Error.duplicateKey j (keyValue l)).message ↔
          i = j ∧ List.Forall₂ (fun a b : Value => a == b) k l) := by
  refine ⟨fun p q hp hq => ValuesQuery.text_eq_iff hp hq, fun k l hk hl hLength hLength' => ?_⟩
  have hKeys := keyValue_beq_iff hk hl hLength hLength'
  have hFirst := noFloat_keyValue hLength
  have hSecond := noFloat_keyValue hLength'
  refine ⟨hKeys, fun i j => ?_⟩
  rw [Error.message_duplicateKey_eq_iff hFirst hSecond, hKeys]

/-- A row with a quote, a comma and a parenthesis in a text, before one without cells. -/
def quotedRows (n : Value) : ValuesQuery := { width := 2, rows := [[n, .text "it's, (x"], []] }

/-- Rows with one integer in two widths have one text; two keys that differ in which of their cells
a quote, a comma and a quote belong to have two. -/
theorem Value.texts_tell_cells_of_quotes :
    (quotedRows (int32 7)).text = (quotedRows (int64 7)).text ∧
      List.Forall₂ (List.Forall₂ fun a b : Value => a == b) (quotedRows (int32 7)).rows
        (quotedRows (int64 7)).rows ∧
      (Error.duplicateKey "ix" (keyValue [text "a', 'b", text "c"])).message
        ≠ (Error.duplicateKey "ix" (keyValue [text "a", text "b', 'c"])).message := by
  obtain ⟨hQueries, hKeys⟩ := texts_tell_cells
  have hText : (quotedRows (int32 7)).text = (quotedRows (int64 7)).text :=
    congrArg String.ofList (by decide)
  refine ⟨hText, (hQueries _ _ (by decide) (by decide)).1 hText, fun h => ?_⟩
  obtain ⟨-, hMessages⟩ := hKeys [text "a', 'b", text "c"] [text "a", text "b', 'c"] (by decide)
    (by decide) (by decide) (by decide)
  obtain ⟨-, hCells⟩ := (hMessages "ix" "ix").1 h
  cases hCells with
  | cons hFirst _ => exact absurd hFirst (by decide)

end IndexScan
