import NetRuleRouter.TextOps

/-!
# Numerals in texts

Numbers written in a base up to sixteen and the bounded reader of one: at
most so many digits, below a bound, and with or without leading zeros.
-/

set_option autoImplicit false

namespace NetRuleRouter.Numerals
open TextOps

def digitChar (d : ℕ) : Char := if d < 10 then Char.ofNat (48 + d) else Char.ofNat (87 + d)

def toDigit (radix : ℕ) (c : Char) : Option ℕ :=
  (if 48 ≤ c.toNat && c.toNat ≤ 57 then some (c.toNat - 48)
    else if 97 ≤ c.toNat && c.toNat ≤ 122 then some (c.toNat - 87)
    else if 65 ≤ c.toNat && c.toNat ≤ 90 then some (c.toNat - 55)
    else none).filter (· < radix)

def isDigit (radix : ℕ) (c : Char) : Bool := (toDigit radix c).isSome

def numeralValue (radix : ℕ) (s : Text) : ℕ :=
  s.foldl (fun n c => n * radix + (toDigit radix c).getD 0) 0

def numeral (radix n : ℕ) : Text :=
  if n = 0 then ['0'] else (Nat.digits radix n).reverse.map digitChar

def paddedNumeral (width radix n : ℕ) : Text :=
  List.replicate (width - (numeral radix n).length) '0' ++ numeral radix n

/-- A number of at most `maxDigits` digits and below `bound` at the head of a
text, and what follows it. -/
def readNumber (radix maxDigits : ℕ) (allowZeroPrefix : Bool) (bound : ℕ) (s : Text) :
    Option (ℕ × Text) :=
  let digits := s.takeWhile (isDigit radix)
  if digits = [] || maxDigits < digits.length then none
  else if !allowZeroPrefix && digits.head? == some '0' && 1 < digits.length then none
  else if numeralValue radix digits < bound then
    some (numeralValue radix digits, s.dropWhile (isDigit radix))
  else none

/-- `str::parse` for an unsigned number below `bound`: an optional plus sign and
decimal digits. -/
def parseUnsigned (bound : ℕ) (s : Text) : Option ℕ :=
  let digits := (stripPre ['+'] s).getD s
  if digits = [] || !digits.all (isDigit 10) then none
  else if numeralValue 10 digits < bound then some (numeralValue 10 digits) else none

theorem to_digit_digit_char : ∀ radix ∈ [10, 16], ∀ d < radix,
    toDigit radix (digitChar d) = some d := by
  decide

theorem numeral_ne_nil (radix n : ℕ) : numeral radix n ≠ [] := by
  unfold numeral
  split
  · simp
  · rename_i hn
    simpa using Nat.digits_ne_nil_iff_ne_zero.mpr hn

section
variable {radix : ℕ} (hr : radix ∈ [10, 16])
include hr

theorem radix_one_lt : 1 < radix := by
  simp only [List.mem_cons, List.not_mem_nil, or_false] at hr
  omega

theorem zero_to_digit : toDigit radix '0' = some 0 := by
  simp only [List.mem_cons, List.not_mem_nil, or_false] at hr
  rcases hr with rfl | rfl <;> rfl

theorem numeral_value_digits (ds : List ℕ) (hd : ∀ d ∈ ds, d < radix) :
    numeralValue radix (ds.reverse.map digitChar) = Nat.ofDigits radix ds := by
  induction ds with
  | nil => rfl
  | cons d ds ih =>
    have hi := ih fun e he => hd e (by simp [he])
    unfold numeralValue at hi ⊢
    rw [List.reverse_cons, List.map_append, List.foldl_append, hi]
    simp only [List.map_cons, List.map_nil, List.foldl_cons, List.foldl_nil,
      to_digit_digit_char radix hr d (hd d (by simp)), Option.getD_some, Nat.ofDigits_cons]
    ring

theorem numeral_value (n : ℕ) : numeralValue radix (numeral radix n) = n := by
  unfold numeral
  split
  · rename_i h
    simp only [List.mem_cons, List.not_mem_nil, or_false] at hr
    rcases hr with rfl | rfl <;> subst h <;> decide
  · rw [numeral_value_digits hr _ fun d => Nat.digits_lt_base (radix_one_lt hr),
      Nat.ofDigits_digits]

theorem numeral_digits (n : ℕ) : ∀ c ∈ numeral radix n, isDigit radix c = true := by
  intro c hc
  unfold numeral at hc
  split at hc
  · simp [List.mem_singleton.mp hc, isDigit, zero_to_digit hr]
  · obtain ⟨d, hd, rfl⟩ := List.mem_map.mp hc
    have hlt := Nat.digits_lt_base (radix_one_lt hr) (List.mem_reverse.mp hd)
    simp [isDigit, to_digit_digit_char radix hr d hlt]

theorem padded_digits {width n : ℕ} : ∀ c ∈ paddedNumeral width radix n, isDigit radix c = true := by
  intro c hc
  rw [paddedNumeral, List.mem_append] at hc
  rcases hc with hc | hc
  · simp [List.eq_of_mem_replicate hc, isDigit, zero_to_digit hr]
  · exact numeral_digits hr n c hc

end

theorem digit_not_in_numeral {c : Char} (hc : isDigit 10 c = false) (n : ℕ) :
    c ∉ numeral 10 n := by
  intro hmem
  rw [numeral_digits (by simp) n c hmem] at hc
  cases hc

end NetRuleRouter.Numerals
