import NetRuleRouter.TextOps

/-!
# Lines and spelled-out places of a text

A text is read line by line: a line feed ends a line, a carriage return
before it goes with it, and what follows the last line feed is a line only
when it is not empty. A place of a text is found by the words it spells;
places are counted without overlap, as a search from the left finds them.
-/

set_option autoImplicit false

namespace NetRuleRouter.TextLines
open TextOps

def cutLines : Text → List Text × Text
  | [] => ([], [])
  | c :: t =>
    let cut := cutLines t
    if c = '\n' then ([] :: cut.1, cut.2)
    else match cut.1 with
      | [] => ([], c :: cut.2)
      | line :: rest => ((c :: line) :: rest, cut.2)

def dropReturn (line : Text) : Text := (stripSuf ['\r'] line).getD line

/-- `str::lines`. -/
def lines (t : Text) : List Text :=
  let cut := cutLines t
  cut.1.map dropReturn ++ if cut.2 = [] then [] else [cut.2]

/-- `line.trim().is_empty()`. -/
def isBlank (line : Text) : Bool := trim line == []

def Ended (t : Text) : Prop := (cutLines t).2 = []

variable {line : Text} {x : Char}

theorem is_blank_iff : isBlank line = true ↔ ∀ c ∈ line, isWhitespace c = true := by
  rw [isBlank, beq_iff_eq, trim, trimEnd, List.rdropWhile_eq_nil_iff, trimStart]
  constructor
  · intro h
    -- a kept head would be whitespace by `h` and would have been dropped
    rw [← List.dropWhile_eq_nil_iff]
    by_contra hne
    have hhead := List.head_dropWhile_not isWhitespace hne
    rw [h _ (List.head_mem hne)] at hhead
    cases hhead
  · intro h
    rw [List.dropWhile_eq_nil_iff.mpr h]
    simp

theorem cut_lines_plain (hn : '\n' ∉ line) : cutLines line = ([], line) := by
  induction line with
  | nil => rfl
  | cons c line ih =>
    simp only [List.mem_cons, not_or] at hn
    rw [cutLines, ih hn.2, if_neg (Ne.symm hn.1)]

theorem cut_lines_line (hn : '\n' ∉ line) (t : Text) :
    cutLines (line ++ '\n' :: t) = (line :: (cutLines t).1, (cutLines t).2) := by
  induction line with
  | nil => rw [List.nil_append, cutLines, if_pos rfl]
  | cons c line ih =>
    simp only [List.mem_cons, not_or] at hn
    rw [List.cons_append, cutLines, ih hn.2, if_neg (Ne.symm hn.1)]

theorem cut_lines_append {s : Text} (hs : Ended s) (t : Text) :
    cutLines (s ++ t) = ((cutLines s).1 ++ (cutLines t).1, (cutLines t).2) := by
  induction s with
  | nil => rfl
  | cons c s ih =>
    rw [Ended, cutLines] at hs
    by_cases hc : c = '\n'
    · rw [if_pos hc] at hs
      rw [List.cons_append, cutLines, cutLines, ih hs, if_pos hc, if_pos hc, List.cons_append]
    · rw [if_neg hc] at hs
      cases hcut : (cutLines s).1 with
      | nil => simp [hcut] at hs
      | cons line rest =>
        rw [hcut] at hs
        rw [List.cons_append, cutLines, cutLines, ih hs, if_neg hc, if_neg hc, hcut]
        rfl

theorem lines_append {s : Text} (hs : Ended s) (t : Text) : lines (s ++ t) = lines s ++ lines t := by
  have hnil : (cutLines s).2 = [] := hs
  simp only [lines, cut_lines_append hs, hnil, if_true, List.append_nil, List.map_append,
    List.append_assoc]

theorem ended_nil : Ended [] := rfl

theorem ended_line (hn : '\n' ∉ line) : Ended (line ++ ['\n']) := by
  rw [Ended, cut_lines_line hn]
  rfl

theorem ended_append {s t : Text} (hs : Ended s) (ht : Ended t) : Ended (s ++ t) := by
  rw [Ended, cut_lines_append hs]
  exact ht

theorem lines_plain (hn : '\n' ∉ line) (hne : line ≠ []) : lines line = [line] := by
  simp [lines, cut_lines_plain hn, hne]

theorem lines_nil : lines [] = [] := rfl

theorem cut_lines_chars (t : Text) :
    (∀ l ∈ (cutLines t).1, ∀ c ∈ l, c ∈ t) ∧ ∀ c ∈ (cutLines t).2, c ∈ t := by
  induction t with
  | nil => simp [cutLines]
  | cons a t ih =>
    have hrest {l : Text} (hl : ∀ c ∈ l, c ∈ t) : ∀ c ∈ l, c ∈ a :: t :=
      fun c hc => List.mem_cons_of_mem a (hl c hc)
    rw [cutLines]
    split
    · refine ⟨List.forall_mem_cons.mpr ⟨by simp, fun l hl => hrest (ih.1 l hl)⟩, hrest ih.2⟩
    · cases hcut : (cutLines t).1 with
      | nil => exact ⟨by simp, List.forall_mem_cons.mpr ⟨List.mem_cons_self, hrest ih.2⟩⟩
      | cons line rest =>
        rw [hcut] at ih
        have hlines := List.forall_mem_cons.mp ih.1
        refine ⟨List.forall_mem_cons.mpr ⟨?_, fun l hl => hrest (hlines.2 l hl)⟩, hrest ih.2⟩
        exact List.forall_mem_cons.mpr ⟨List.mem_cons_self, hrest hlines.1⟩

theorem lines_chars {t l : Text} (hl : l ∈ lines t) : ∀ c ∈ l, c ∈ t := by
  obtain ⟨hended, hlast⟩ := cut_lines_chars t
  rw [lines, List.mem_append] at hl
  rcases hl with hl | hl
  · obtain ⟨line, hline, rfl⟩ := List.mem_map.mp hl
    intro c hc
    refine hended line hline c ?_
    unfold dropReturn at hc
    cases hstrip : stripSuf ['\r'] line with
    | none => simpa [hstrip] using hc
    | some r =>
      rw [hstrip] at hc
      rw [strip_suf_some.mp hstrip]
      exact List.mem_append_left _ hc
  · split at hl
    · cases hl
    · rw [List.mem_singleton.mp hl]
      exact hlast

theorem drop_return_of (h : line.getLast? ≠ some '\r') : dropReturn line = line := by
  unfold dropReturn
  cases hs : stripSuf ['\r'] line with
  | none => rfl
  | some rest =>
    rw [strip_suf_some] at hs
    rw [hs] at h
    simp at h

theorem lines_line (hn : '\n' ∉ line) (hr : line.getLast? ≠ some '\r') :
    lines (line ++ ['\n']) = [line] := by
  rw [lines, cut_lines_line hn]
  simp [cutLines, drop_return_of hr]

/-- How often `pat` stands in a text, after passing over `skip` characters; a place found is passed
over as a whole. -/
def occurrencesFrom (pat : Text) : ℕ → Text → ℕ
  | _, [] => 0
  | skip + 1, _ :: t => occurrencesFrom pat skip t
  | 0, c :: t =>
    if pat.isPrefixOf (c :: t) then occurrencesFrom pat (pat.length - 1) t + 1
    else occurrencesFrom pat 0 t

/-- `str::matches(pat).count()`. -/
def occurrences (pat t : Text) : ℕ := occurrencesFrom pat 0 t

/-- `str::replacen(pat, new, 1)`. -/
def replaceFirst (pat new : Text) : Text → Text
  | [] => []
  | c :: t =>
    if pat.isPrefixOf (c :: t) then new ++ (c :: t).drop pat.length
    else c :: replaceFirst pat new t

section
variable {pat new : Text}

theorem replace_first_none {t : Text} (h : occurrences pat t = 0) (rest : Text)
    (hstop : ∀ s, s <:+ t → s ≠ [] → pat.isPrefixOf (s ++ rest) = pat.isPrefixOf s) :
    replaceFirst pat new (t ++ rest) = t ++ replaceFirst pat new rest := by
  induction t with
  | nil => rfl
  | cons c t ih =>
    rw [occurrences, occurrencesFrom] at h
    have hhead := hstop (c :: t) List.suffix_rfl (by simp)
    by_cases hp : pat.isPrefixOf (c :: t) = true
    · simp [hp] at h
    · rw [if_neg hp] at h
      rw [List.cons_append, replaceFirst, ← List.cons_append, hhead, if_neg hp,
        ih h fun s hs => hstop s (hs.trans (List.suffix_cons c t))]
      rfl

theorem prefix_before_separator (hx : x ∉ pat) (s rest : Text) :
    pat.isPrefixOf (s ++ x :: rest) = pat.isPrefixOf s := by
  rw [Bool.eq_iff_iff, List.isPrefixOf_iff_prefix, List.isPrefixOf_iff_prefix]
  constructor
  · intro h
    by_cases hlen : pat.length ≤ s.length
    · exact List.prefix_of_prefix_length_le h (List.prefix_append _ _) hlen
    · exfalso
      have hlonger : s ++ [x] <+: s ++ x :: rest := ⟨rest, by simp⟩
      have hin := List.prefix_of_prefix_length_le hlonger h (by simp; omega)
      exact hx (hin.subset (by simp))
  · intro h
    exact h.trans (List.prefix_append _ _)

theorem occurrences_separator (hx : x ∉ pat) (hne : pat ≠ []) (a b : Text) :
    occurrences pat (a ++ x :: b) = occurrences pat a + occurrences pat b := by
  have hfrom (skip : ℕ) (a : Text) (hskip : skip ≤ a.length) :
      occurrencesFrom pat skip (a ++ x :: b) =
        occurrencesFrom pat skip a + occurrencesFrom pat 0 b := by
    induction a generalizing skip with
    | nil =>
      obtain rfl : skip = 0 := by simpa using hskip
      have hno : pat.isPrefixOf (x :: b) = false := by
        rw [← List.nil_append (x :: b), prefix_before_separator hx]
        cases pat with
        | nil => exact absurd rfl hne
        | cons _ _ => rfl
      simp [occurrencesFrom, hno]
    | cons c a ih =>
      cases skip with
      | succ skip =>
        rw [List.cons_append, occurrencesFrom, occurrencesFrom]
        exact ih skip (by simpa using hskip)
      | zero =>
        rw [List.cons_append, occurrencesFrom, occurrencesFrom, ← List.cons_append,
          prefix_before_separator hx]
        by_cases hp : pat.isPrefixOf (c :: a) = true
        · have hlen := (List.isPrefixOf_iff_prefix.mp hp).length_le
          rw [if_pos hp, if_pos hp, ih _ (by simp at hlen; omega)]
          omega
        · rw [if_neg hp, if_neg hp, ih 0 (by omega)]
  exact hfrom 0 a (by omega)

theorem replace_only_place (hx : x ∉ pat) (hne : pat ≠ []) (a after : Text)
    (honce : occurrences pat (a ++ x :: (pat ++ after)) = 1) :
    replaceFirst pat new (a ++ x :: (pat ++ after)) = a ++ x :: (new ++ after) := by
  have hpre : pat.isPrefixOf (pat ++ after) = true :=
    List.isPrefixOf_iff_prefix.mpr (List.prefix_append _ _)
  have hfirst : occurrences pat (pat ++ after) ≠ 0 ∧
      replaceFirst pat new (pat ++ after) = new ++ after := by
    cases hb : pat ++ after with
    | nil => simp [hne] at hb
    | cons c t =>
      rw [hb] at hpre
      rw [occurrences, occurrencesFrom, replaceFirst, if_pos hpre, if_pos hpre, ← hb,
        List.drop_left]
      exact ⟨by omega, rfl⟩
  have hnone : occurrences pat (a ++ [x]) = 0 := by
    have hsum := occurrences_separator hx hne a (pat ++ after)
    have hself := occurrences_separator hx hne a []
    have hnil : occurrences pat [] = 0 := rfl
    omega
  have hmove := @replace_first_none pat new (a ++ [x]) hnone (pat ++ after) ?_
  · simpa [hfirst.2] using hmove
  · intro s hs hs0
    -- a suffix of the text up to the separator ends in the separator
    obtain ⟨front, hfront⟩ := hs
    obtain ⟨s', rfl⟩ : ∃ s', s = s' ++ [x] := by
      refine ⟨s.dropLast, ?_⟩
      have hlast := congrArg List.getLast? hfront
      rw [List.getLast?_append_of_ne_nil _ hs0, List.getLast?_append] at hlast
      have hx' : s.getLast hs0 = x := by
        simpa [List.getLast?_eq_getLast_of_ne_nil hs0] using hlast
      rw [← hx', List.dropLast_append_getLast hs0]
    rw [List.append_assoc, List.singleton_append, prefix_before_separator hx,
      prefix_before_separator hx]

end

end NetRuleRouter.TextLines
