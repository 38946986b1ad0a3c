import Mathlib.Data.List.Forall2
import IndexScan.Proofs.Value.Digest
import IndexScan.Value.Text

/-!
# The text of values tells the values

What stands behind a literal goes on neither with a number nor with a text in quotes: it is no digit
and no quote (`Stops`).  So a number ends with its last digit, and a text at the first quote that
stands alone, since a quote inside has its twin behind it.  The first characters of a literal tell
the class of the value (`openingClass?`), hence any text that a literal opens tells the value up to
equality, and where the literal ends (`legible_chars`).

A notation with this property passes it on to what is written one after the other
(`Legible.flatMap_inj`), which is the argument for quotes, for hexadecimal digits and for lists with
commas between their members (`Legible.intercalate_inj`), and so for tuples (`legible_tupleChars`).

Doubles are left out: the text of a large one is its shortest decimal, which is another integer.
-/

namespace IndexScan.Value

/-- A value of another type than double. -/
def NoFloat (v : Value) : Prop := v.type? ≠ some .float64

instance : DecidablePred NoFloat := fun v => inferInstanceAs (Decidable (v.type? ≠ some .float64))

/-- A rest of a text that does not go on with the literal before it. -/
def Stops (rest : List Char) : Prop := ∀ c ∈ rest.head?, c.isDigit = false ∧ c ≠ '\''

theorem stops_cons {c : Char} (rest : List Char) (hDigit : c.isDigit = false) (hQuote : c ≠ '\'') :
    Stops (c :: rest) := by
  intro d hd
  obtain rfl : c = d := Option.some.inj hd
  exact ⟨hDigit, hQuote⟩

variable {r s : List Char}

/-! ### Notations -/

section

variable {α : Type}

/-- A notation for what is in `p`: what is alike is written alike, and what is written is told by
any text that goes on with a rest in `P`, together with that rest. -/
structure Legible (P : List Char → Prop) (p : α → Prop) (Alike : α → α → Prop)
    (f : α → List Char) : Prop where
  congr : ∀ {a b}, p a → p b → Alike a b → f a = f b
  inj : ∀ {a b t u}, p a → p b → P t → P u → f a ++ t = f b ++ u → Alike a b ∧ t = u

/-- A rest that ends what is written one after the other: nothing that is written opens it. -/
structure Ends (P : List Char → Prop) (p : α → Prop) (f : α → List Char) (rest : List Char) :
    Prop where
  fits : P rest
  append_ne : ∀ {a} t, p a → f a ++ t ≠ rest

variable {P : List Char → Prop} {p : α → Prop} {Alike : α → α → Prop} {f : α → List Char}

theorem flatMap_append_fits (hOn : ∀ a t, P (f a ++ t)) {t : List Char} (ht : P t) (l : List α) :
    P (l.flatMap f ++ t) := by
  cases l with
  | nil => exact ht
  | cons a l =>
    rw [List.flatMap_cons, List.append_assoc]
    exact hOn a _

namespace Legible

variable (hf : Legible P p Alike f)

include hf

theorem eq_iff (hNil : P []) {a b : α} (ha : p a) (hb : p b) : f a = f b ↔ Alike a b :=
  ⟨fun h => (hf.inj ha hb hNil hNil (congrArg (· ++ []) h)).1, hf.congr ha hb⟩

theorem behind (w : List Char) : Legible P p Alike fun a => w ++ f a where
  congr ha hb h := congrArg (w ++ ·) (hf.congr ha hb h)
  inj ha hb ht hu h := by
    rw [List.append_assoc, List.append_assoc] at h
    exact hf.inj ha hb ht hu (List.append_cancel_left h)

variable {l m : List α} (hl : ∀ a ∈ l, p a) (hm : ∀ a ∈ m, p a)

include hl hm

theorem map_congr (h : List.Forall₂ Alike l m) : l.map f = m.map f := by
  induction h with
  | nil => rfl
  | cons hab _ ih =>
    obtain ⟨ha, hl⟩ := List.forall_mem_cons.1 hl
    obtain ⟨hb, hm⟩ := List.forall_mem_cons.1 hm
    rw [List.map_cons, List.map_cons, hf.congr ha hb hab, ih hl hm]

/-- What is written one after the other is told with its end. -/
theorem flatMap_inj (hOn : ∀ a t, P (f a ++ t)) (hr : Ends P p f r) (hs : Ends P p f s)
    (h : l.flatMap f ++ r = m.flatMap f ++ s) : List.Forall₂ Alike l m ∧ r = s := by
  -- if only one list goes on, its next member opens with what ends the other
  induction l generalizing m with
  | nil =>
    cases m with
    | nil => exact ⟨.nil, h⟩
    | cons b m =>
      rw [List.flatMap_cons, List.append_assoc] at h
      exact absurd h.symm (hr.append_ne _ (hm b List.mem_cons_self))
  | cons a l ih =>
    cases m with
    | nil =>
      rw [List.flatMap_cons, List.append_assoc] at h
      exact absurd h (hs.append_ne _ (hl a List.mem_cons_self))
    | cons b m =>
      obtain ⟨ha, hl⟩ := List.forall_mem_cons.1 hl
      obtain ⟨hb, hm⟩ := List.forall_mem_cons.1 hm
      rw [List.flatMap_cons, List.flatMap_cons, List.append_assoc, List.append_assoc] at h
      obtain ⟨hab, hTail⟩ := hf.inj ha hb (flatMap_append_fits hOn hr.fits l)
        (flatMap_append_fits hOn hs.fits m) h
      obtain ⟨hMembers, hEnd⟩ := ih hl hm hTail
      exact ⟨.cons hab hMembers, hEnd⟩

end Legible

end

/-! ### Numbers -/

theorem exists_digits (n : Nat) : ∃ c cs, Nat.toDigits 10 n = c :: cs ∧ c.isDigit = true := by
  obtain ⟨c, cs, h⟩ := List.exists_cons_of_ne_nil (Nat.toDigits_ne_nil (b := 10) (n := n))
  refine ⟨c, cs, h, Nat.isDigit_of_mem_toDigits (by decide) (Nat.le_refl 10) (n := n) ?_⟩
  rw [h]
  exact List.mem_cons_self

theorem takeWhile_toDigits_append (hr : Stops r) (n : Nat) :
    (Nat.toDigits 10 n ++ r).takeWhile Char.isDigit = Nat.toDigits 10 n := by
  have hDigits : ∀ c ∈ Nat.toDigits 10 n, c.isDigit = true := fun c hc =>
    Nat.isDigit_of_mem_toDigits (by decide) (Nat.le_refl 10) hc
  have hRest : r.takeWhile Char.isDigit = [] := by
    cases r with
    | nil => rfl
    | cons c r => rw [List.takeWhile_cons, (hr c rfl).1, if_neg Bool.false_ne_true]
  rw [List.takeWhile_append_of_pos hDigits, hRest, List.append_nil]

theorem toDigits_append_inj {m n : Nat} (hr : Stops r) (hs : Stops s)
    (h : Nat.toDigits 10 m ++ r = Nat.toDigits 10 n ++ s) : m = n ∧ r = s := by
  have hDigits : Nat.toDigits 10 m = Nat.toDigits 10 n := by
    rw [← takeWhile_toDigits_append hr m, h, takeWhile_toDigits_append hs n]
  refine ⟨?_, ?_⟩
  · calc
      m = Nat.ofDigitChars 10 (Nat.toDigits 10 m) 0 := Nat.ofDigitChars_ten_toDigits.symm
      _ = Nat.ofDigitChars 10 (Nat.toDigits 10 n) 0 := by rw [hDigits]
      _ = n := Nat.ofDigitChars_ten_toDigits
  · rw [hDigits] at h
    exact List.append_cancel_left h

theorem exists_decimal (n : Int) :
    ∃ c cs, decimal n = c :: cs ∧ (c = '-' ∨ c.isDigit = true) := by
  cases n with
  | ofNat n =>
    obtain ⟨c, cs, h, hDigit⟩ := exists_digits n
    exact ⟨c, cs, h, Or.inr hDigit⟩
  | negSucc n => exact ⟨'-', _, rfl, Or.inl rfl⟩

/-- No number without a sign opens like one with a sign. -/
theorem toDigits_append_ne (n : Nat) (t : List Char) : Nat.toDigits 10 n ++ r ≠ '-' :: t := by
  intro h
  obtain ⟨c, cs, hn, hDigit⟩ := exists_digits n
  rw [hn] at h
  obtain ⟨rfl, -⟩ := List.cons.inj h
  cases hDigit

theorem decimal_append_inj {m n : Int} (hr : Stops r) (hs : Stops s)
    (h : decimal m ++ r = decimal n ++ s) : m = n ∧ r = s := by
  cases m with
  | ofNat m =>
    cases n with
    | ofNat n =>
      obtain ⟨rfl, hRest⟩ := toDigits_append_inj hr hs h
      exact ⟨rfl, hRest⟩
    | negSucc n => exact absurd h (toDigits_append_ne m _)
  | negSucc m =>
    cases n with
    | ofNat n => exact absurd h.symm (toDigits_append_ne n _)
    | negSucc n =>
      obtain ⟨hSucc, hRest⟩ := toDigits_append_inj hr hs (List.cons.inj h).2
      obtain rfl := Nat.succ.inj hSucc
      exact ⟨rfl, hRest⟩

/-! ### Texts and byte strings -/

/-- A character inside a text in quotes. -/
def quotedChar (c : Char) : List Char := if c = '\'' then ['\'', '\''] else [c]

theorem head?_quotedChar_append (c : Char) (t : List Char) :
    (quotedChar c ++ t).head? = some c := by
  rw [quotedChar]
  split
  · next h => rw [h]; rfl
  · rfl

theorem legible_quotedChar : Legible (fun _ => True) (fun _ => True) Eq quotedChar where
  congr _ _ h := congrArg quotedChar h
  inj {c d t u} _ _ _ _ h := by
    have hHead := congrArg List.head? h
    rw [head?_quotedChar_append, head?_quotedChar_append] at hHead
    obtain rfl := Option.some.inj hHead
    exact ⟨rfl, List.append_cancel_left h⟩

/-- The quote that ends a text stands alone, and one inside is followed by its twin. -/
theorem ends_quoted (hr : Stops r) :
    Ends (fun _ => True) (fun _ => True) quotedChar ('\'' :: r) where
  fits := trivial
  append_ne {c} t _ h := by
    have hHead := congrArg List.head? h
    rw [head?_quotedChar_append] at hHead
    obtain rfl := Option.some.inj hHead
    obtain rfl : '\'' :: t = r := (List.cons.inj h).2
    exact (hr '\'' rfl).2 rfl

theorem quoted_append_inj {a b : List Char} (hr : Stops r) (hs : Stops s)
    (h : quoted a ++ '\'' :: r = quoted b ++ '\'' :: s) : a = b ∧ r = s := by
  have hTrue : ∀ cs : List Char, ∀ c ∈ cs, True := fun _ _ _ => trivial
  obtain ⟨hText, hRest⟩ := legible_quotedChar.flatMap_inj (hTrue a) (hTrue b)
    (fun _ _ => trivial) (ends_quoted hr) (ends_quoted hs) h
  rw [List.forall₂_eq_eq_eq] at hText
  exact ⟨hText, (List.cons.inj hRest).2⟩

theorem digitChar_inj : ∀ m < 16, ∀ n < 16, Nat.digitChar m = Nat.digitChar n → m = n := by decide

theorem digitChar_ne_quote : ∀ n < 16, Nat.digitChar n ≠ '\'' := by decide

theorem legible_hexByte : Legible (fun _ => True) (fun _ => True) Eq hexByte where
  congr _ _ h := congrArg hexByte h
  inj {x y t u} _ _ _ _ h := by
    obtain ⟨hByte, hRest⟩ := List.append_inj h rfl
    obtain ⟨hHigh, hTail⟩ := List.cons.inj hByte
    obtain ⟨hLow, -⟩ := List.cons.inj hTail
    have hx := x.toNat_lt
    have hy := y.toNat_lt
    have hDiv := digitChar_inj _ (by omega) _ (by omega) hHigh
    have hMod := digitChar_inj _ (by omega) _ (by omega) hLow
    exact ⟨UInt8.toNat_inj.1 (by omega), hRest⟩

theorem ends_hex (r : List Char) : Ends (fun _ => True) (fun _ => True) hexByte ('\'' :: r) where
  fits := trivial
  append_ne {x} t _ h := by
    have hx := x.toNat_lt
    exact digitChar_ne_quote _ (by omega) (List.cons.inj h).1

theorem hex_append_inj {a b : List UInt8}
    (h : a.flatMap hexByte ++ '\'' :: r = b.flatMap hexByte ++ '\'' :: s) : a = b ∧ r = s := by
  have hTrue : ∀ data : List UInt8, ∀ x ∈ data, True := fun _ _ _ => trivial
  obtain ⟨hData, hRest⟩ := legible_hexByte.flatMap_inj (hTrue a) (hTrue b) (fun _ _ => trivial)
    (ends_hex r) (ends_hex s) h
  rw [List.forall₂_eq_eq_eq] at hData
  exact ⟨hData, (List.cons.inj hRest).2⟩

/-! ### Literals -/

/-- The class of the value whose literal opens a text, if one does. -/
def openingClass? : List Char → Option Nat
  | 'N' :: _ => some 0
  | 'T' :: cs => some (if cs.head? = some 'I' then 4 else 1)
  | 'F' :: _ => some 1
  | '\'' :: _ => some 3
  | 'X' :: _ => some 5
  | c :: _ => if c = '-' ∨ c.isDigit = true then some 2 else none
  | [] => none

theorem openingClass?_decimal_append (n : Int) (t : List Char) :
    openingClass? (decimal n ++ t) = some 2 := by
  obtain ⟨c, cs, hn, hc⟩ := exists_decimal n
  have hNe : ∀ d : Char, ¬ (d = '-' ∨ d.isDigit = true) → c ≠ d := by
    rintro d hd rfl
    exact hd hc
  rw [hn, List.cons_append, openingClass?, if_pos hc]
  -- neither the letters nor the quote are a sign or a digit
  all_goals exact hNe _ (by decide)

theorem openingClass?_chars_append {v : Value} (hv : v.NoFloat) (t : List Char) :
    openingClass? (v.chars ++ t) = some v.classRank := by
  cases v with
  | null => rfl
  | bool b => cases b <;> rfl
  | int32 n => exact openingClass?_decimal_append n.toInt t
  | int64 n => exact openingClass?_decimal_append n.toInt t
  | float64 x => exact absurd rfl hv
  | text s => rfl
  | timestamp t => rfl
  | bytes data => rfl

theorem classRank_eq_of_chars_append {a b : Value} (ha : a.NoFloat) (hb : b.NoFloat)
    (h : a.chars ++ r = b.chars ++ s) : a.classRank = b.classRank := by
  refine Option.some.inj ?_
  rw [← openingClass?_chars_append ha r, h, openingClass?_chars_append hb s]

/-- A value that is an integer of one width or the other. -/
structure IsInt (v : Value) (n : Int64) : Prop where
  number?_eq : v.number? = some (.int n)
  chars_eq : v.chars = decimal n.toInt

theorem exists_isInt {v : Value} (hv : v.NoFloat) (h : v.classRank = 2) : ∃ n, v.IsInt n := by
  cases v with
  | int32 n => exact ⟨n.toInt64, rfl, congrArg decimal n.toInt_toInt64.symm⟩
  | int64 n => exact ⟨n, rfl, rfl⟩
  | float64 x => exact absurd rfl hv
  | _ => cases h

theorem IsInt.beq_iff {a b : Value} {m n : Int64} (ha : a.IsInt m) (hb : b.IsInt n) :
    a == b ↔ m = n := by
  have hCompare : a.compare b = Ord.compare m n := by
    simp [compare, ha.number?_eq, hb.number?_eq, Number.compare]
  rw [beq_iff_compare_eq, hCompare, Std.LawfulEqCmp.compare_eq_iff_eq]

/-- Two values of one class: integers of any widths, or values of one type. -/
inductive Akin : Value → Value → Prop
  | null : Akin null null
  | bool (p q : Bool) : Akin (bool p) (bool q)
  | int {a b : Value} {m n : Int64} (hLeft : a.IsInt m) (hRight : b.IsInt n) : Akin a b
  | text (u v : String) : Akin (text u) (text v)
  | timestamp (t u : Int64) : Akin (timestamp t) (timestamp u)
  | bytes (data data' : List UInt8) : Akin (bytes data) (bytes data')

theorem akin_of_classRank {a b : Value} (ha : a.NoFloat) (hb : b.NoFloat)
    (hClass : a.classRank = b.classRank) : a.Akin b := by
  by_cases hNumber : a.classRank = 2
  · obtain ⟨m, hLeft⟩ := exists_isInt ha hNumber
    obtain ⟨n, hRight⟩ := exists_isInt hb (hClass.symm.trans hNumber)
    exact .int hLeft hRight
  · cases a with
    | null =>
      cases b <;> cases hClass
      exact .null
    | bool p =>
      cases b <;> cases hClass
      exact .bool p _
    | int32 n => exact absurd rfl hNumber
    | int64 n => exact absurd rfl hNumber
    | float64 x => exact absurd rfl hNumber
    | text u =>
      cases b <;> cases hClass
      exact .text u _
    | timestamp t =>
      cases b <;> cases hClass
      exact .timestamp t _
    | bytes data =>
      cases b <;> cases hClass
      exact .bytes data _

theorem chars_text_append (u : String) (t : List Char) :
    (text u).chars ++ t = '\'' :: (quoted u.toList ++ '\'' :: t) :=
  List.append_assoc ('\'' :: quoted u.toList) ['\''] t

theorem chars_timestamp_append (u : Int64) (t : List Char) :
    (timestamp u).chars ++ t = "TIMESTAMP ".toList ++ (decimal u.toInt ++ t) :=
  List.append_assoc "TIMESTAMP ".toList (decimal u.toInt) t

theorem chars_bytes_append (data : List UInt8) (t : List Char) :
    (bytes data).chars ++ t = 'X' :: '\'' :: (data.flatMap hexByte ++ '\'' :: t) :=
  List.append_assoc ('X' :: '\'' :: data.flatMap hexByte) ['\''] t

/-- A literal tells its value up to equality, and where it ends. -/
theorem chars_append_inj {a b : Value} (ha : a.NoFloat) (hb : b.NoFloat) (hr : Stops r)
    (hs : Stops s) (h : a.chars ++ r = b.chars ++ s) : a == b ∧ r = s := by
  cases akin_of_classRank ha hb (classRank_eq_of_chars_append ha hb h) with
  | null => exact ⟨BEq.rfl, List.append_cancel_left h⟩
  | bool p q =>
    cases p <;> cases q
    · exact ⟨BEq.rfl, List.append_cancel_left h⟩
    · exact absurd (List.cons.inj h).1 (by decide)
    · exact absurd (List.cons.inj h).1 (by decide)
    · exact ⟨BEq.rfl, List.append_cancel_left h⟩
  | int hLeft hRight =>
    rw [hLeft.chars_eq, hRight.chars_eq] at h
    obtain ⟨hInt, hRest⟩ := decimal_append_inj hr hs h
    exact ⟨(hLeft.beq_iff hRight).2 (Int64.toInt_inj.1 hInt), hRest⟩
  | text u v =>
    rw [chars_text_append, chars_text_append] at h
    obtain ⟨hText, hRest⟩ := quoted_append_inj hr hs (List.cons.inj h).2
    rw [String.toList_inj.1 hText]
    exact ⟨BEq.rfl, hRest⟩
  | timestamp t u =>
    rw [chars_timestamp_append, chars_timestamp_append] at h
    obtain ⟨hTime, hRest⟩ := decimal_append_inj hr hs (List.append_cancel_left h)
    rw [Int64.toInt_inj.1 hTime]
    exact ⟨BEq.rfl, hRest⟩
  | bytes data data' =>
    rw [chars_bytes_append, chars_bytes_append] at h
    obtain ⟨rfl, hRest⟩ := hex_append_inj (List.cons.inj (List.cons.inj h).2).2
    exact ⟨BEq.rfl, hRest⟩

/-- The shortest decimal of a large double is that of another integer. -/
example : (float64 ⟨0x43B0000000000000⟩).chars = (int64 1152921504606847000).chars ∧
    (float64 ⟨0x43B0000000000000⟩ == int64 1152921504606847000) = false := by decide +kernel

theorem text_beq_iff {u v : String} : text u == text v ↔ u = v := by
  rw [beq_iff_compare_eq, ← digest_eq_iff]
  constructor
  · intro h
    have hUtf8 : utf8 u = utf8 v := by simpa [digest] using h
    exact String.toByteArray_inj.1 (ByteArray.ext (Array.toList_inj.1 hUtf8))
  · rintro rfl
    rfl

theorem chars_congr {a b : Value} (ha : a.NoFloat) (hb : b.NoFloat) (h : a == b) :
    a.chars = b.chars := by
  have hCompare := beq_iff_compare_eq.1 h
  have hDigest := digest_eq_iff.2 hCompare
  cases akin_of_classRank ha hb (classRank_eq_of_compare_eq hCompare) with
  | null => rfl
  | bool p q =>
    cases p <;> cases q
    · rfl
    · cases hDigest
    · cases hDigest
    · rfl
  | int hLeft hRight => rw [hLeft.chars_eq, hRight.chars_eq, (hLeft.beq_iff hRight).1 h]
  | text u v => rw [text_beq_iff.1 h]
  | timestamp t u =>
    have hTime : t = u := by simpa [digest] using hDigest
    rw [hTime]
  | bytes data data' =>
    obtain ⟨-, rfl⟩ : data.length = data'.length ∧ data = data' := by simpa [digest] using hDigest
    rfl

theorem legible_chars : Legible Stops NoFloat (fun a b => a == b) chars where
  congr := chars_congr
  inj := chars_append_inj

/-! ### Lists of literals -/

theorem intercalate_cons {α : Type} (f : α → List Char) (a : α) (l : List α) :
    List.intercalate ", ".toList ((a :: l).map f)
      = f a ++ l.flatMap fun b => ", ".toList ++ f b := by
  induction l generalizing a with
  | nil => rfl
  | cons b l ih =>
    rw [List.map_cons, List.map_cons, List.intercalate_cons_cons, ← List.map_cons, ih,
      List.append_assoc, List.flatMap_cons, List.append_assoc]

section

variable {α : Type} {P : List Char → Prop} {p : α → Prop} {Alike : α → α → Prop}
  {f : α → List Char}

/-- A rest that closes a list: neither a member nor a comma opens it. -/
structure Closes (P : List Char → Prop) (p : α → Prop) (f : α → List Char) (rest : List Char) :
    Prop extends Ends P p f rest where
  comma_ne : ∀ t, ',' :: t ≠ rest

theorem Closes.behind_comma (hr : Closes P p f r) : Ends P p (fun a => ", ".toList ++ f a) r :=
  ⟨hr.fits, fun t _ => hr.comma_ne (' ' :: f _ ++ t)⟩

/-- The first member of a list has no comma before it, each other one has. -/
theorem Legible.intercalate_inj (hf : Legible P p Alike f) (hComma : ∀ t, P (',' :: t))
    {l m : List α} (hl : ∀ a ∈ l, p a) (hm : ∀ a ∈ m, p a) (hr : Closes P p f r)
    (hs : Closes P p f s)
    (h : List.intercalate ", ".toList (l.map f) ++ r
      = List.intercalate ", ".toList (m.map f) ++ s) : List.Forall₂ Alike l m ∧ r = s := by
  have hOn : ∀ a t, P (", ".toList ++ f a ++ t) := fun _ _ => hComma _
  -- the first members stand without a comma, so an empty list is told by what closes it
  cases l with
  | nil =>
    cases m with
    | nil => exact ⟨.nil, h⟩
    | cons b m =>
      rw [intercalate_cons, List.append_assoc] at h
      exact absurd h.symm (hr.append_ne _ (hm b List.mem_cons_self))
  | cons a l =>
    cases m with
    | nil =>
      rw [intercalate_cons, List.append_assoc] at h
      exact absurd h (hs.append_ne _ (hl a List.mem_cons_self))
    | cons b m =>
      obtain ⟨ha, hl⟩ := List.forall_mem_cons.1 hl
      obtain ⟨hb, hm⟩ := List.forall_mem_cons.1 hm
      rw [intercalate_cons, intercalate_cons, List.append_assoc, List.append_assoc] at h
      obtain ⟨hab, hTail⟩ := hf.inj ha hb (flatMap_append_fits hOn hr.fits l)
        (flatMap_append_fits hOn hs.fits m) h
      obtain ⟨hMembers, hEnd⟩ := (hf.behind ", ".toList).flatMap_inj hl hm hOn hr.behind_comma
        hs.behind_comma hTail
      exact ⟨.cons hab hMembers, hEnd⟩

end

/-- No literal opens with a parenthesis. -/
theorem closes_parenthesis (t : List Char) : Closes Stops NoFloat chars (')' :: t) where
  fits := stops_cons t (by decide) (by decide)
  append_ne {v} u hv h := by
    have hClass := openingClass?_chars_append hv u
    rw [h] at hClass
    cases hClass
  comma_ne _ h := absurd (List.cons.inj h).1 (by decide)

theorem tupleChars_append (t : Tuple) (rest : List Char) :
    tupleChars t ++ rest
      = '(' :: (List.intercalate ", ".toList (t.map chars) ++ ')' :: rest) :=
  List.append_assoc ('(' :: List.intercalate ", ".toList (t.map chars)) [')'] rest

theorem legible_tupleChars :
    Legible (fun _ => True) (∀ v ∈ ·, NoFloat v) (List.Forall₂ fun a b => a == b) tupleChars where
  congr ht hu h := by rw [tupleChars, tupleChars, legible_chars.map_congr ht hu h]
  inj {t u r s} ht hu _ _ h := by
    have hComma : ∀ t, Stops (',' :: t) := fun t => stops_cons t (by decide) (by decide)
    rw [tupleChars_append, tupleChars_append] at h
    obtain ⟨hCells, hRest⟩ := legible_chars.intercalate_inj hComma ht hu (closes_parenthesis r)
      (closes_parenthesis s) (List.cons.inj h).2
    exact ⟨hCells, (List.cons.inj hRest).2⟩

/-- Every tuple opens with a parenthesis. -/
theorem closes_nil : Closes (fun _ => True) (∀ v ∈ ·, NoFloat v) tupleChars [] where
  fits := trivial
  append_ne _ _ := List.cons_ne_nil _ _
  comma_ne _ := List.cons_ne_nil _ _

end IndexScan.Value
