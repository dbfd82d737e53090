import NetRuleRouter.AuditTrail

/-!
# The exported tail of the trail

An export walks the files newest first, passes over a file it cannot read,
and stops at the first line that no longer fits. What it returns is the
longest tail that fits of the lines it read; it is the tail of the trail just
where no line lies in a file it passed over.
-/

set_option autoImplicit false

namespace NetRuleRouter.RecentLines
open TextOps TextLines Utf8 AuditTrail

/-- What `read_to_string` makes of a file, where some may be refused to the service. -/
def contentsOf (readable : Text → Bool) (f : AuditFile) : Option Text :=
  if readable f.name then decode f.bytes else none

/-- The lines kept, oldest first, and what they cost. -/
abbrev Kept := List Text × ℕ

/-- The lines of a file, newest first; `true` where the walk ends. -/
def walkLines (maxBytes : ℕ) : List Text → Kept → Kept × Bool
  | [], kept => (kept, false)
  | line :: older, kept =>
    if line = [] then walkLines maxBytes older kept
    else if kept.1 ≠ [] ∧ maxBytes < kept.2 + (byteLen line + 1) then (kept, true)
    else walkLines maxBytes older (line :: kept.1, kept.2 + (byteLen line + 1))

def walkFiles (maxBytes : ℕ) : List (Option Text) → Kept → Kept
  | [], kept => kept
  | none :: older, kept => walkFiles maxBytes older kept
  | some contents :: older, kept =>
    match walkLines maxBytes (lines contents).reverse kept with
    | (kept, true) => kept
    | (kept, false) => walkFiles maxBytes older kept

def recentRawLines (dir : Directory) (readable : Text → Bool) (maxBytes : ℕ)
    (machineWide : Bool) : List Text :=
  if maxBytes = 0 ∨ machineWide = false then []
  else (walkFiles maxBytes ((listAuditFiles dir).reverse.map (contentsOf readable)) ([], 0)).1

def latin1 (bytes : Bytes) : Text := bytes.map fun b => Char.ofNat b.toNat

def raw (t : Text) : Text := latin1 (encode t)

def rawLines (f : AuditFile) : List Text := (lines (latin1 f.bytes)).filter (· ≠ [])

theorem raw_append (s t : Text) : raw (s ++ t) = raw s ++ raw t := by
  rw [raw, encode_append, latin1, List.map_append]
  rfl

theorem raw_ascii {c : Char} (h : isAscii c = true) : raw [c] = [c] := by
  have hc : c.toNat < 128 := by simpa [isAscii] using h
  have hbyte : (UInt8.ofNat c.toNat).toNat = c.toNat := by
    rw [UInt8.toNat_ofNat']
    omega
  simp [raw, encode, latin1, encodeChar, hc, hbyte, Char.ofNat_toNat]

theorem raw_char {c d : Char} (hd : d ∈ raw [c]) : d = c ∨ 128 ≤ d.toNat := by
  by_cases hc : c.toNat < 128
  · rw [raw_ascii (by simpa [isAscii] using hc), List.mem_singleton] at hd
    exact .inl hd
  · right
    have hlt := char_lt c
    obtain ⟨b, hb, rfl⟩ := List.mem_map.mp hd
    have hbyte : 128 ≤ b.toNat := by
      simp only [encode, encodeChar, if_neg hc, List.flatMap_cons, List.flatMap_nil,
        List.append_nil] at hb
      split_ifs at hb <;> simp only [List.mem_cons, List.not_mem_nil, or_false] at hb <;>
        rcases hb with rfl | rfl | rfl | rfl <;> rw [UInt8.toNat_ofNat'] <;> omega
    have hb' := b.toNat_lt
    rw [Char.ofNat, dif_pos (.inl (by omega))]
    exact hbyte

theorem raw_length (t : Text) : (raw t).length = byteLen t := by
  have hchar (c : Char) : (encodeChar c).length = c.utf8Size := by
    have hc : c.val.toNat = c.toNat := rfl
    simp only [encodeChar, Char.utf8Size, UInt32.le_iff_toNat_le, hc]
    split_ifs <;> simp_all <;> omega
  rw [raw, latin1, List.length_map, encode, List.length_flatMap, byteLen]
  simp only [hchar]

theorem cut_lines_plain_append {w : Text} (hn : '\n' ∉ w) (s : Text) :
    cutLines (w ++ s) = match (cutLines s).1 with
      | [] => ([], w ++ (cutLines s).2)
      | line :: rest => ((w ++ line) :: rest, (cutLines s).2) := by
  induction w with
  | nil => cases hs : (cutLines s).1 <;> simp [← hs]
  | cons c w ih =>
    simp only [List.mem_cons, not_or] at hn
    rw [List.cons_append, cutLines, ih hn.2, if_neg (Ne.symm hn.1)]
    cases (cutLines s).1 <;> rfl

theorem cut_lines_raw (t : Text) :
    cutLines (raw t) = ((cutLines t).1.map raw, raw (cutLines t).2) := by
  induction t with
  | nil => rfl
  | cons c t ih =>
    rw [← List.singleton_append, raw_append]
    by_cases hc : c = '\n'
    · subst hc
      rw [raw_ascii (by decide), List.singleton_append, List.singleton_append, cutLines, cutLines,
        if_pos rfl, if_pos rfl, ih]
      rfl
    · have hplain : '\n' ∉ raw [c] := fun hin => by
        rcases raw_char hin with h | h
        · exact hc h.symm
        · exact absurd h (by decide)
      rw [cut_lines_plain_append hplain, cut_lines_plain_append (by simpa using Ne.symm hc), ih]
      cases (cutLines t).1 <;> simp [← raw_append]

theorem raw_eq_nil {l : Text} : raw l = [] ↔ l = [] := by
  cases l with
  | nil => exact iff_of_true rfl rfl
  | cons c l => simp [raw, latin1, encode_cons, encode_char_ne_nil]

theorem drop_return_raw (l : Text) : dropReturn (raw l) = raw (dropReturn l) := by
  have hdrop (x : Text) : dropReturn (x ++ ['\r']) = x := by
    rw [dropReturn, strip_suf_some.mpr rfl, Option.getD_some]
  rcases List.eq_nil_or_concat l with rfl | ⟨front, c, rfl⟩
  · rfl
  · rw [List.concat_eq_append, raw_append]
    by_cases hc : c = '\r'
    · rw [hc, raw_ascii (by decide), hdrop, hdrop]
    · have hlast : (raw front ++ raw [c]).getLast? ≠ some '\r' := by
        rw [List.getLast?_append_of_ne_nil _ (mt raw_eq_nil.mp (by simp))]
        intro h
        rcases raw_char (List.mem_of_getLast? h) with h | h
        · exact hc h.symm
        · exact absurd h (by decide)
      rw [drop_return_of hlast, drop_return_of (by simpa using hc), raw_append]

theorem lines_raw (t : Text) : lines (raw t) = (lines t).map raw := by
  simp only [lines, cut_lines_raw, raw_eq_nil, List.map_append, List.map_map]
  congr 1
  · exact List.map_congr_left fun l _ => drop_return_raw l
  · split_ifs <;> rfl

def cost (ls : List Text) : ℕ := (ls.map fun l => l.length + 1).sum

/-- The longest tail that fits, or the last line alone. -/
structure RecentTail (maxBytes : ℕ) (all tail : List Text) : Prop where
  suffix : tail <:+ all
  some_line : all ≠ [] → tail ≠ []
  fits : cost tail ≤ maxBytes ∨ tail.length = 1
  longest : ∀ s, s <:+ all → cost s ≤ maxBytes → s <:+ tail

variable {maxBytes : ℕ} {kept : Kept}

theorem walk_lines_tail (older : List Text) (hcost : kept.2 = cost (kept.1.map raw))
    (hfits : kept.2 ≤ maxBytes ∨ kept.1.length = 1) :
    RecentTail maxBytes (((older.filter (· ≠ [])).reverse ++ kept.1).map raw)
      ((walkLines maxBytes older kept).1.1.map raw) := by
  induction older generalizing kept with
  | nil =>
    rw [hcost] at hfits
    exact ⟨List.suffix_rfl, id, by simpa [walkLines] using hfits, fun s hs _ => hs⟩
  | cons line older ih =>
    rw [walkLines]
    split_ifs with hempty hfull
    · rw [List.filter_cons_of_neg (by simpa using hempty)]
      exact ih hcost hfits
    · rw [List.filter_cons_of_pos (by simpa using hempty), List.reverse_cons, List.append_assoc,
        List.singleton_append, List.map_append]
      refine ⟨(List.suffix_cons _ _).trans (List.suffix_append _ _), fun _ => ?_, ?_,
        fun s hs hs' => ?_⟩
      · simpa using hfull.1
      · rw [List.length_map, ← hcost]
        exact hfits
      · -- a longer tail holds the line that no longer fits
        have hover : maxBytes < cost ((line :: kept.1).map raw) := by
          simpa [cost, raw_length, hcost, add_comm] using hfull.2
        rcases List.suffix_or_suffix_of_suffix hs (List.suffix_append _ _) with h | ⟨front, rfl⟩
        · rcases List.suffix_cons_iff.mp h with rfl | h
          · exact absurd hs' (not_le.mpr hover)
          · exact h
        · simp only [cost, List.map_append, List.sum_append] at hs' hover
          omega
    · rw [List.filter_cons_of_pos (by simpa using hempty), List.reverse_cons, List.append_assoc,
        List.singleton_append]
      refine @ih (line :: kept.1, _) ?_ ?_
      · simp [cost, hcost, raw_length]
        omega
      · by_cases hnil : kept.1 = []
        · exact .inr (by simp [hnil])
        · exact .inl (by simpa [hnil] using hfull)

theorem walk_lines_append (a b : List Text) : walkLines maxBytes (a ++ b) kept =
    match walkLines maxBytes a kept with
    | (kept, true) => (kept, true)
    | (kept, false) => walkLines maxBytes b kept := by
  induction a generalizing kept with
  | nil => rfl
  | cons line a ih =>
    rw [List.cons_append, walkLines, walkLines]
    split_ifs
    · exact ih
    · rfl
    · exact ih

def readLines (contents : Option Text) : List Text := contents.elim [] lines

theorem walk_files_eq (files : List (Option Text)) : walkFiles maxBytes files kept =
    (walkLines maxBytes (files.flatMap fun f => (readLines f).reverse) kept).1 := by
  induction files generalizing kept with
  | nil => rfl
  | cons f files ih =>
    cases f with
    | none => exact ih
    | some contents =>
      rw [walkFiles, List.flatMap_cons, walk_lines_append, readLines, Option.elim_some]
      rcases walkLines maxBytes (lines contents).reverse kept with ⟨kept, _ | _⟩
      · exact ih
      · rfl

theorem raw_lines_read {f : AuditFile} {readable : Text → Bool} :
    (if (contentsOf readable f).isSome then rawLines f else []) =
      ((readLines (contentsOf readable f)).filter (· ≠ [])).map raw := by
  cases h : contentsOf readable f with
  | none => rfl
  | some t =>
    obtain ⟨-, hdecode⟩ : readable f.name = true ∧ decode f.bytes = some t := by
      simpa [contentsOf] using h
    have hraw : latin1 f.bytes = raw t := by rw [raw, decode_some_iff.mp hdecode]
    simp [rawLines, readLines, hraw, lines_raw, List.filter_map, Function.comp_def, raw_eq_nil]

theorem recent_tail_read (dir : Directory) (readable : Text → Bool) (hmax : 0 < maxBytes) :
    RecentTail maxBytes ((listAuditFiles dir).flatMap fun f =>
        if (contentsOf readable f).isSome then rawLines f else [])
      ((recentRawLines dir readable maxBytes true).map raw) := by
  rw [recentRawLines, if_neg (by simpa using hmax.ne'), walk_files_eq]
  have h := @walk_lines_tail maxBytes ([], 0)
    (((listAuditFiles dir).reverse.map (contentsOf readable)).flatMap fun f =>
      (readLines f).reverse) rfl (.inl (Nat.zero_le _))
  simp only [raw_lines_read]
  convert h using 1
  simp [List.reverse_flatMap, List.filter_flatMap, List.map_flatMap, List.flatMap_map]

theorem tail_beside {older other newer tail : List Text}
    (h : RecentTail maxBytes (older ++ newer) tail) (hover : maxBytes < cost newer) :
    RecentTail maxBytes (other ++ newer) tail := by
  have hcost (front : List Text) : cost newer ≤ cost (front ++ newer) := by simp [cost]
  have hnewer : newer ≠ [] := by
    rintro rfl
    exact absurd hover (Nat.not_lt_zero _)
  have hinside : tail <:+ newer := by
    rcases List.suffix_or_suffix_of_suffix h.suffix (List.suffix_append older newer) with
      hin | ⟨front, rfl⟩
    · exact hin
    · -- a tail that holds all the newer lines is one line
      have hone := h.fits.resolve_left (not_le.mpr (hover.trans_le (hcost front)))
      have hlength := List.length_pos_of_ne_nil hnewer
      rw [List.length_append] at hone
      rw [List.eq_nil_of_length_eq_zero (l := front) (by omega)]
      exact List.suffix_rfl
  refine ⟨hinside.trans (List.suffix_append _ _), fun _ => h.some_line (by simp [hnewer]), h.fits,
    fun s hs hfits => ?_⟩
  rcases List.suffix_or_suffix_of_suffix hs (List.suffix_append other newer) with hin | ⟨front, rfl⟩
  · exact h.longest s (hin.trans (List.suffix_append _ _)) hfits
  · exact absurd hfits (not_le.mpr (hover.trans_le (hcost front)))

/-- An export is right where the files that cannot be read hold no line, or lie behind newer lines
that are too many for it already. -/
theorem recent_tail_newer {dir : Directory} {readable : Text → Bool} {older newer : List AuditFile}
    (hmax : 0 < maxBytes) (hdir : listAuditFiles dir = older ++ newer)
    (hread : ∀ f ∈ newer, contentsOf readable f = none → rawLines f = [])
    (hstops : older = [] ∨ maxBytes < cost (newer.flatMap rawLines)) :
    RecentTail maxBytes ((listAuditFiles dir).flatMap rawLines)
      ((recentRawLines dir readable maxBytes true).map raw) := by
  have h := recent_tail_read dir readable hmax
  have hnewer : (newer.flatMap fun f => if (contentsOf readable f).isSome then rawLines f else []) =
      newer.flatMap rawLines := by
    refine List.flatMap_congr fun f hf => ?_
    cases hc : contentsOf readable f with
    | none => simp [hread f hf hc]
    | some t => rfl
  rw [hdir, List.flatMap_append, hnewer] at h
  rw [hdir, List.flatMap_append]
  rcases hstops with rfl | hover
  · exact h
  · exact tail_beside h hover

/-- Every export of a trail is the tail of it just where the files that cannot be read hold no
line; one that fills up before it comes to such a file is right with them too. -/
theorem tail_contiguous_iff (dir : Directory) (readable : Text → Bool) :
    ((∀ maxBytes, 0 < maxBytes → RecentTail maxBytes ((listAuditFiles dir).flatMap rawLines)
      ((recentRawLines dir readable maxBytes true).map raw)) ↔
    ∀ f ∈ listAuditFiles dir, contentsOf readable f = none → rawLines f = []) ∧
    ∀ maxBytes older newer, 0 < maxBytes → listAuditFiles dir = older ++ newer →
      (∀ f ∈ newer, contentsOf readable f = none → rawLines f = []) →
      maxBytes < cost (newer.flatMap rawLines) →
      RecentTail maxBytes ((listAuditFiles dir).flatMap rawLines)
        ((recentRawLines dir readable maxBytes true).map raw) := by
  refine ⟨⟨fun h f hf hnone => ?_, fun h maxBytes hmax =>
    recent_tail_newer hmax (List.nil_append _).symm h (.inl rfl)⟩,
    fun maxBytes older newer hmax hdir hread hover =>
      recent_tail_newer hmax hdir hread (.inr hover)⟩
  let all := (listAuditFiles dir).flatMap rawLines
  have hread := recent_tail_read dir readable (cost all).succ_pos
  have hall := (h _ (cost all).succ_pos).longest all List.suffix_rfl (Nat.le_succ _)
  have hlength := (hall.trans hread.suffix).length_le
  have hle (l : List AuditFile) : (l.flatMap fun f =>
      if (contentsOf readable f).isSome then rawLines f else []).length ≤
      (l.flatMap rawLines).length := by
    simp only [List.length_flatMap]
    refine List.sum_le_sum fun f _ => ?_
    split_ifs <;> simp
  obtain ⟨front, back, hsplit⟩ := List.append_of_mem hf
  have hfront := hle front
  have hback := hle back
  simp only [all, hsplit, List.flatMap_append, List.flatMap_cons, List.length_append, hnone,
    Option.isSome_none, Bool.false_eq_true, if_false, List.length_nil] at hlength
  exact List.length_eq_zero_iff.mp (by omega)

def brokenTrail : Directory :=
  [⟨"nrr_audit_20260101-1.ndjson".toList, [97, 10]⟩, ⟨"nrr_audit_20260101-2.ndjson".toList, [255]⟩,
    ⟨"nrr_audit_20260101-3.ndjson".toList, [98, 10]⟩]

/-- A file with one byte that is no text lies between two that can be read. -/
theorem export_skips_a_file :
    recentRawLines brokenTrail (fun _ => true) 100 true = [['a'], ['b']] ∧
      ¬ RecentTail 100 ((listAuditFiles brokenTrail).flatMap rawLines)
        ((recentRawLines brokenTrail (fun _ => true) 100 true).map raw) := by
  refine ⟨by decide +kernel, fun h => ?_⟩
  have hgap : ¬ ((recentRawLines brokenTrail (fun _ => true) 100 true).map raw <:+
      (listAuditFiles brokenTrail).flatMap rawLines) := by decide +kernel
  exact hgap h.suffix

/-- With one byte left the export ends at the newest line, before it comes to the broken file. -/
theorem short_export_contiguous :
    RecentTail 1 ((listAuditFiles brokenTrail).flatMap rawLines)
      ((recentRawLines brokenTrail (fun _ => true) 1 true).map raw) :=
  (tail_contiguous_iff brokenTrail fun _ => true).2 1 (brokenTrail.take 2) (brokenTrail.drop 2)
    (by decide) (by decide +kernel) (by decide +kernel) (by decide +kernel)

end NetRuleRouter.RecentLines
