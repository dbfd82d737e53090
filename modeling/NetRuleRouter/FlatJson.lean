import NetRuleRouter.Numerals

/-!
# Flat objects in JSON

Objects whose members are numbers and texts, written on one line without
blanks, and a reader of that spelling alone. What is written is read back and
nothing else is read with it, so no spelling starts another one.
-/

set_option autoImplicit false

namespace NetRuleRouter.FlatJson
open TextOps Numerals

inductive Scalar where
  | num (n : ℤ)
  | str (s : Text)
  deriving DecidableEq, Repr

abbrev Member := Text × Scalar

def escapeOf (c : Char) : Option Text :=
  if c = '"' then some ['"']
  else if c = '\\' then some ['\\']
  else if c.toNat = 8 then some ['b']
  else if c.toNat = 9 then some ['t']
  else if c.toNat = 10 then some ['n']
  else if c.toNat = 12 then some ['f']
  else if c.toNat = 13 then some ['r']
  else if c.toNat < 32 then
    some ['u', '0', '0', digitChar (c.toNat / 16), digitChar (c.toNat % 16)]
  else none

def escapeChar (c : Char) : Text :=
  match escapeOf c with
  | some e => '\\' :: e
  | none => [c]

def quote (s : Text) : Text := '"' :: (s.flatMap escapeChar ++ ['"'])

def printInt (n : ℤ) : Text :=
  if n < 0 then '-' :: numeral 10 n.natAbs else numeral 10 n.natAbs

def printScalar : Scalar → Text
  | .num n => printInt n
  | .str s => quote s

def printMember (m : Member) : Text := quote m.1 ++ ':' :: printScalar m.2

def printMembers : List Member → Text
  | [] => ['}']
  | [m] => printMember m ++ ['}']
  | m :: n :: rest => printMember m ++ ',' :: printMembers (n :: rest)

def printObject (members : List Member) : Text := '{' :: printMembers members

def readEscape : Text → Option (Char × Text)
  | 'u' :: '0' :: '0' :: h :: l :: rest =>
    (toDigit 16 h).bind fun a => (toDigit 16 l).map fun b => (Char.ofNat (16 * a + b), rest)
  | 'b' :: rest => some (Char.ofNat 8, rest)
  | 't' :: rest => some (Char.ofNat 9, rest)
  | 'n' :: rest => some (Char.ofNat 10, rest)
  | 'f' :: rest => some (Char.ofNat 12, rest)
  | 'r' :: rest => some (Char.ofNat 13, rest)
  | c :: rest => if c = '"' ∨ c = '\\' then some (c, rest) else none
  | [] => none

def readQuoted : ℕ → Text → Option (Text × Text)
  | fuel + 1, c :: rest =>
    if c = '"' then some ([], rest)
    else if c = '\\' then
      (readEscape rest).bind fun e => (readQuoted fuel e.2).map fun p => (e.1 :: p.1, p.2)
    else (readQuoted fuel rest).map fun p => (c :: p.1, p.2)
  | _, _ => none

def readText (t : Text) : Option (Text × Text) :=
  match t with
  | '"' :: rest => readQuoted rest.length rest
  | _ => none

def readInt (t : Text) : Option (ℤ × Text) :=
  let digits (t : Text) : Option (ℕ × Text) :=
    if t.takeWhile (isDigit 10) = [] then none
    else some (numeralValue 10 (t.takeWhile (isDigit 10)), t.dropWhile (isDigit 10))
  match t with
  | '-' :: rest => (digits rest).map fun p => (-(p.1 : ℤ), p.2)
  | _ => (digits t).map fun p => ((p.1 : ℤ), p.2)

def readScalar (t : Text) : Option (Scalar × Text) :=
  if t.head? = some '"' then (readText t).map fun p => (.str p.1, p.2)
  else (readInt t).map fun p => (.num p.1, p.2)

def readMember (t : Text) : Option (Member × Text) :=
  (readText t).bind fun k =>
    match k.2 with
    | ':' :: rest => (readScalar rest).map fun v => ((k.1, v.1), v.2)
    | _ => none

def readMembers : ℕ → Text → Option (List Member × Text)
  | fuel + 1, t =>
    (readMember t).bind fun m =>
      match m.2 with
      | '}' :: rest => some ([m.1], rest)
      | ',' :: rest => (readMembers fuel rest).map fun p => (m.1 :: p.1, p.2)
      | _ => none
  | 0, _ => none

def readObject (t : Text) : Option (List Member × Text) :=
  match t with
  | '{' :: rest => readMembers rest.length rest
  | _ => none

variable {c : Char} {fuel : ℕ}

theorem escape_of_plain (h : escapeOf c = none) : c ≠ '"' ∧ c ≠ '\\' ∧ 32 ≤ c.toNat := by
  unfold escapeOf at h
  split_ifs at h with h1 h2 h3 h4 h5 h6 h7 h8
  exact ⟨h1, h2, not_lt.mp h8⟩

theorem char_of_toNat {n : ℕ} (h : c.toNat = n) : Char.ofNat n = c := by
  rw [← h, Char.ofNat_toNat]

theorem read_escape {e : Text} (h : escapeOf c = some e) (rest : Text) :
    readEscape (e ++ rest) = some (c, rest) := by
  unfold escapeOf at h
  split_ifs at h with h1 h2 h3 h4 h5 h6 h7 h8 <;> cases h
  · subst h1
    rfl
  · subst h2
    rfl
  · simpa [readEscape] using char_of_toNat h3
  · simpa [readEscape] using char_of_toNat h4
  · simpa [readEscape] using char_of_toNat h5
  · simpa [readEscape] using char_of_toNat h6
  · simpa [readEscape] using char_of_toNat h7
  · have hhigh := to_digit_digit_char 16 (by simp) (c.toNat / 16) (by omega)
    have hlow := to_digit_digit_char 16 (by simp) (c.toNat % 16) (by omega)
    have hsum : 16 * (c.toNat / 16) + c.toNat % 16 = c.toNat := by omega
    simp [readEscape, hhigh, hlow, hsum]

theorem read_quoted (s rest : Text) (hfuel : s.length < fuel) :
    readQuoted fuel (s.flatMap escapeChar ++ '"' :: rest) = some (s, rest) := by
  induction s generalizing fuel with
  | nil =>
    cases fuel with
    | zero => simp at hfuel
    | succ fuel => simp [readQuoted]
  | cons c s ih =>
    cases fuel with
    | zero => simp at hfuel
    | succ fuel =>
      have htail := @ih fuel (by simpa using hfuel)
      rw [List.flatMap_cons, List.append_assoc]
      cases he : escapeOf c with
      | none =>
        obtain ⟨hq, hb, -⟩ := escape_of_plain he
        simp [escapeChar, he, readQuoted, hq, hb, htail]
      | some e =>
        simp [escapeChar, he, readQuoted, read_escape he, htail]

theorem quoted_length (s : Text) : s.length ≤ (s.flatMap escapeChar).length := by
  induction s with
  | nil => simp
  | cons c s ih =>
    rw [List.flatMap_cons, List.length_append, List.length_cons]
    have hpos : 0 < (escapeChar c).length := by
      unfold escapeChar
      split <;> simp
    omega

theorem read_text (s rest : Text) : readText (quote s ++ rest) = some (s, rest) := by
  have hlen := quoted_length s
  simp only [quote, List.cons_append, List.append_assoc, readText, List.nil_append]
  refine read_quoted s rest ?_
  simp only [List.length_append, List.length_cons]
  omega

variable {rest : Text}

theorem numeral_head (n : ℕ) : ∃ c t, numeral 10 n = c :: t ∧ isDigit 10 c = true := by
  obtain ⟨c, t, hnum⟩ := List.exists_cons_of_ne_nil (numeral_ne_nil 10 n)
  exact ⟨c, t, hnum, numeral_digits (by simp) n c (by simp [hnum])⟩

theorem read_int (n : ℤ) (hrest : ∀ c ∈ rest.head?, isDigit 10 c = false) :
    readInt (printInt n ++ rest) = some (n, rest) := by
  have hdig := numeral_digits (by simp : (10 : ℕ) ∈ [10, 16]) n.natAbs
  have hnext : rest.takeWhile (isDigit 10) = [] ∧ rest.dropWhile (isDigit 10) = rest := by
    cases rest with
    | nil => simp
    | cons c rest =>
      have hc : isDigit 10 c = false := hrest c (by simp)
      simp [hc]
  have htake : (numeral 10 n.natAbs ++ rest).takeWhile (isDigit 10) = numeral 10 n.natAbs := by
    rw [List.takeWhile_append_of_pos hdig, hnext.1, List.append_nil]
  have hdrop : (numeral 10 n.natAbs ++ rest).dropWhile (isDigit 10) = rest := by
    rw [List.dropWhile_append_of_pos hdig, hnext.2]
  have hvalue := numeral_value (by simp : (10 : ℕ) ∈ [10, 16]) n.natAbs
  have hne := numeral_ne_nil 10 n.natAbs
  unfold printInt
  split
  · rename_i hneg
    simp only [List.cons_append, readInt, htake, hdrop, hvalue, if_neg hne, Option.map_some]
    rw [show -(n.natAbs : ℤ) = n by omega]
  · rename_i hpos
    unfold readInt
    split
    · rename_i t ht
      obtain ⟨c, cs, hnum, hc⟩ := numeral_head n.natAbs
      rw [hnum, List.cons_append, List.cons.injEq] at ht
      exact absurd (ht.1 ▸ hc) (by decide)
    · simp only [htake, hdrop, hvalue, if_neg hne, Option.map_some]
      rw [show (n.natAbs : ℤ) = n by omega]

theorem read_scalar (v : Scalar) (hrest : ∀ c ∈ rest.head?, isDigit 10 c = false) :
    readScalar (printScalar v ++ rest) = some (v, rest) := by
  cases v with
  | str s =>
    simp only [printScalar, readScalar, read_text, Option.map_some]
    rw [if_pos (by simp [quote])]
  | num n =>
    rw [printScalar, readScalar, read_int n hrest, if_neg]
    · rfl
    · obtain ⟨c, t, hnum, hc⟩ := numeral_head n.natAbs
      have hquote : c ≠ '"' := fun heq => absurd (heq ▸ hc) (by decide)
      unfold printInt
      split
      · simp
      · simpa [hnum] using hquote

theorem read_member (m : Member) (hrest : ∀ c ∈ rest.head?, isDigit 10 c = false) :
    readMember (printMember m ++ rest) = some (m, rest) := by
  rw [readMember, printMember, List.append_assoc, read_text]
  simp only [Option.bind_some, List.cons_append, read_scalar m.2 hrest, Option.map_some]

theorem read_members (members : List Member) (hne : members ≠ []) (rest : Text)
    (hfuel : members.length ≤ fuel) :
    readMembers fuel (printMembers members ++ rest) = some (members, rest) := by
  induction members generalizing fuel with
  | nil => exact absurd rfl hne
  | cons m members ih =>
    cases fuel with
    | zero => simp at hfuel
    | succ fuel =>
      have hbrace : isDigit 10 '}' = false := by decide
      have hcomma : isDigit 10 ',' = false := by decide
      cases members with
      | nil =>
        rw [printMembers, readMembers, List.append_assoc, List.singleton_append,
          read_member m (by simp [hbrace])]
        rfl
      | cons n members =>
        rw [printMembers, readMembers, List.append_assoc, List.cons_append,
          read_member m (by simp [hcomma])]
        simp only [Option.bind_some]
        rw [ih (by simp) (by simpa using hfuel)]
        rfl

theorem members_length (members : List Member) : members.length ≤ (printMembers members).length := by
  induction members with
  | nil => simp [printMembers]
  | cons m members ih =>
    cases members with
    | nil => simp [printMembers]
    | cons n members =>
      simp only [printMembers, List.length_append, List.length_cons] at ih ⊢
      omega

theorem read_object (members : List Member) (hne : members ≠ []) (rest : Text) :
    readObject (printObject members ++ rest) = some (members, rest) := by
  simp only [printObject, List.cons_append, readObject]
  refine read_members members hne rest ?_
  have hlen := members_length members
  rw [List.length_append]
  omega

theorem print_object_inj {a c : List Member} (ha : a ≠ []) (hc : c ≠ []) {s t : Text}
    (h : printObject a ++ s = printObject c ++ t) : a = c ∧ s = t := by
  have hread := read_object a ha s
  rw [h, read_object c hc t] at hread
  simpa [eq_comm] using hread

theorem print_members_concat (members : List Member) (hne : members ≠ []) :
    ∃ front, ∀ m, printMembers (members ++ [m]) = front ++ ',' :: printMember m ++ ['}'] := by
  induction members with
  | nil => exact absurd rfl hne
  | cons n members ih =>
    cases members with
    | nil => exact ⟨printMember n, fun m => by simp [printMembers]⟩
    | cons k members =>
      obtain ⟨front, hfront⟩ := ih (by simp)
      exact ⟨printMember n ++ ',' :: front, fun m => by simpa [printMembers] using hfront m⟩

theorem escape_char_one_line (c : Char) : '\n' ∉ escapeChar c := by
  unfold escapeChar
  cases he : escapeOf c with
  | none =>
    obtain ⟨-, -, hc⟩ := escape_of_plain he
    simp only [List.mem_singleton]
    intro heq
    rw [← heq] at hc
    revert hc
    decide
  | some e =>
    have hdigit : ∀ d < 16, digitChar d ≠ '\n' := by decide
    unfold escapeOf at he
    split_ifs at he with h1 h2 h3 h4 h5 h6 h7 h8
    all_goals cases he
    all_goals simp [Ne.symm (hdigit _ (show c.toNat % 16 < 16 by omega))]
    exact Ne.symm (hdigit _ (by omega))

theorem quote_one_line (s : Text) : '\n' ∉ quote s := by
  simp only [quote, List.mem_cons, List.mem_append, List.mem_flatMap, not_or]
  refine ⟨by decide, ?_, by simp⟩
  intro h
  obtain ⟨c, -, hc⟩ := h
  exact escape_char_one_line c hc

theorem print_int_one_line (n : ℤ) : '\n' ∉ printInt n := by
  have hnum : '\n' ∉ numeral 10 n.natAbs := digit_not_in_numeral (by decide) _
  unfold printInt
  split
  · simp [hnum]
  · exact hnum

theorem print_member_one_line (m : Member) : '\n' ∉ printMember m := by
  simp only [printMember, List.mem_append, List.mem_cons, not_or]
  refine ⟨quote_one_line _, by decide, ?_⟩
  cases m.2 with
  | num n => exact print_int_one_line n
  | str s => exact quote_one_line s

theorem print_object_one_line (members : List Member) : '\n' ∉ printObject members := by
  have hmembers : '\n' ∉ printMembers members := by
    induction members with
    | nil => simp [printMembers]
    | cons m members ih =>
      cases members with
      | nil => simp [printMembers, print_member_one_line]
      | cons n members => simp [printMembers, print_member_one_line, ih]
  simp [printObject, hmembers]

end NetRuleRouter.FlatJson
