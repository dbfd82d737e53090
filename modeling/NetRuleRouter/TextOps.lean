import Mathlib

/-!
# Text as lists of characters

The string operations the rule readers share, on lists of characters:
white space and control classes, trimming, splitting, stripping and the
UTF-8 length. Byte offsets of the implementation always fall on character
boundaries, so a list of characters carries the same information.
-/

set_option autoImplicit false

namespace NetRuleRouter.TextOps

abbrev Text := List Char

instance : LawfulBEq Text := inferInstance

/-- The Unicode `White_Space` property. -/
def isWhitespace (c : Char) : Bool :=
  (9 ≤ c.toNat && c.toNat ≤ 13) || c.toNat == 0x20 || c.toNat == 0x85 || c.toNat == 0xA0 ||
    c.toNat == 0x1680 || (0x2000 ≤ c.toNat && c.toNat ≤ 0x200A) || c.toNat == 0x2028 ||
    c.toNat == 0x2029 || c.toNat == 0x202F || c.toNat == 0x205F || c.toNat == 0x3000

/-- The Unicode general category `Cc`. -/
def isControl (c : Char) : Bool :=
  c.toNat ≤ 0x1F || (0x7F ≤ c.toNat && c.toNat ≤ 0x9F)

def isAscii (c : Char) : Bool := c.toNat < 128

def isAsciiText (s : Text) : Bool := s.all isAscii

def toAsciiLowercase (s : Text) : Text := s.map Char.toLower

def eqIgnoreAsciiCase (s t : Text) : Bool := toAsciiLowercase s == toAsciiLowercase t

def byteLen (s : Text) : ℕ := (s.map Char.utf8Size).sum

def trimStart (s : Text) : Text := s.dropWhile isWhitespace

def trimEnd (s : Text) : Text := s.rdropWhile isWhitespace

def trim (s : Text) : Text := trimEnd (trimStart s)

/-- `split_once`: the text before and after the first separator. -/
def splitOnce (sep : Char) : Text → Option (Text × Text)
  | [] => none
  | c :: s => if c = sep then some ([], s)
      else (splitOnce sep s).map fun p => (c :: p.1, p.2)

/-- `rsplit_once`: the text before and after the last separator. -/
def rsplitOnce (sep : Char) : Text → Option (Text × Text)
  | [] => none
  | c :: s => match rsplitOnce sep s with
    | some p => some (c :: p.1, p.2)
    | none => if c = sep then some ([], s) else none

/-- `strip_prefix`. -/
def stripPre : Text → Text → Option Text
  | [], s => some s
  | _ :: _, [] => none
  | p :: ps, c :: s => if p = c then stripPre ps s else none

/-- `strip_suffix`. -/
def stripSuf (p s : Text) : Option Text :=
  (stripPre p.reverse s.reverse).map List.reverse

def startsWith (p s : Text) : Bool := (stripPre p s).isSome

def endsWith (p s : Text) : Bool := (stripSuf p s).isSome

variable {p s : Text} {r : Text}

theorem strip_pre_some : stripPre p s = some r ↔ s = p ++ r := by
  induction p generalizing s with
  | nil => simp [stripPre, eq_comm]
  | cons a p ih =>
    cases s with
    | nil => simp [stripPre]
    | cons c s =>
      by_cases h : a = c
      · simp [stripPre, h, ih]
      · simp [stripPre, h, Ne.symm h]

theorem strip_suf_some : stripSuf p s = some r ↔ s = r ++ p := by
  simp only [stripSuf, Option.map_eq_some_iff, strip_pre_some]
  constructor
  · rintro ⟨a, ha, rfl⟩
    simpa using congrArg List.reverse ha
  · rintro rfl
    exact ⟨r.reverse, by simp, by simp⟩

theorem starts_with_iff : startsWith p s = true ↔ ∃ r, s = p ++ r := by
  simp [startsWith, Option.isSome_iff_exists, strip_pre_some]

theorem ends_with_iff : endsWith p s = true ↔ ∃ r, s = r ++ p := by
  simp [endsWith, Option.isSome_iff_exists, strip_suf_some]

variable {sep : Char}

theorem split_once_append {a b : Text} (h : sep ∉ a) :
    splitOnce sep (a ++ sep :: b) = some (a, b) := by
  induction a with
  | nil => simp [splitOnce]
  | cons c a ih =>
    simp only [List.mem_cons, not_or] at h
    simp [splitOnce, ih h.2, Ne.symm h.1]

theorem split_once_some {a b : Text} :
    splitOnce sep s = some (a, b) ↔ s = a ++ sep :: b ∧ sep ∉ a := by
  refine ⟨fun hs => ?_, fun ⟨hs, h⟩ => hs ▸ split_once_append h⟩
  induction s generalizing a with
  | nil => cases hs
  | cons c s ih =>
    rw [splitOnce] at hs
    split_ifs at hs with hc
    · cases hs
      exact ⟨by rw [hc]; rfl, by simp⟩
    · obtain ⟨⟨x, y⟩, hxy, hab⟩ := Option.map_eq_some_iff.mp hs
      cases hab
      obtain ⟨rfl, hn⟩ := ih hxy
      exact ⟨rfl, by simp [hn, Ne.symm hc]⟩

theorem rsplit_once_none : rsplitOnce sep s = none ↔ sep ∉ s := by
  induction s with
  | nil => simp [rsplitOnce]
  | cons c s ih =>
    rw [List.mem_cons, not_or, ← ih, rsplitOnce]
    cases rsplitOnce sep s with
    | some p => simp
    | none =>
      by_cases h : c = sep
      · simp [h]
      · simp [h, Ne.symm h]

theorem rsplit_once_append {a b : Text} (h : sep ∉ b) :
    rsplitOnce sep (a ++ sep :: b) = some (a, b) := by
  induction a with
  | nil => simp [rsplitOnce, rsplit_once_none.mpr h]
  | cons c a ih => simp [rsplitOnce, ih]

theorem rsplit_once_some {a b : Text} :
    rsplitOnce sep s = some (a, b) ↔ s = a ++ sep :: b ∧ sep ∉ b := by
  refine ⟨fun hs => ?_, fun ⟨hs, h⟩ => hs ▸ rsplit_once_append h⟩
  induction s generalizing a with
  | nil => cases hs
  | cons c s ih =>
    rw [rsplitOnce] at hs
    cases hr : rsplitOnce sep s with
    | some p =>
      rw [hr] at hs
      cases hs
      obtain ⟨rfl, hn⟩ := ih hr
      exact ⟨rfl, hn⟩
    | none =>
      rw [hr] at hs
      dsimp only at hs
      split_ifs at hs with hc
      cases hs
      exact ⟨by rw [hc]; rfl, rsplit_once_none.mp hr⟩

end NetRuleRouter.TextOps
