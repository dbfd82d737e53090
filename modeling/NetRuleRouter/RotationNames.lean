import NetRuleRouter.AuditTrail

/-!
# Names of rotated files

A new file is named by a date and a number: the date is today's, unless the
newest file already carries a later one, and the number is one past the
highest in use for that date. With dates of eight digits every new name sorts
after all the names before it, whatever the clock says.
-/

set_option autoImplicit false

namespace NetRuleRouter.RotationNames
open TextOps Numerals Sorting AuditTrail

def daysToYmd (days : ℕ) : ℕ × ℕ × ℕ :=
  let z := days + 719468
  let era := z / 146097
  let doe := z % 146097
  let yoe := (doe - doe / 1460 + doe / 36524 - doe / 146096) / 365
  let y := yoe + era * 400
  let doy := doe - (365 * yoe + yoe / 4 - yoe / 100)
  let mp := (5 * doy + 2) / 153
  let d := doy - (153 * mp + 2) / 5 + 1
  let m := if mp < 10 then mp + 3 else mp - 9
  let y := if m ≤ 2 then y + 1 else y
  (y % 2 ^ 32, m % 2 ^ 32, d % 2 ^ 32)

def dateText (ymd : ℕ × ℕ × ℕ) : Text :=
  paddedNumeral 4 10 ymd.1 ++ paddedNumeral 2 10 ymd.2.1 ++ paddedNumeral 2 10 ymd.2.2

def utcDateString (time : ℤ) : Text := dateText (daysToYmd (time.toNat / 86400))

/-- The clock and the offset of the local calendar, in seconds. -/
structure Reading where
  time : ℤ
  offset : ℤ
  deriving DecidableEq, Repr

def localDateString (r : Reading) : Text :=
  let shifted := r.time + r.offset
  utcDateString (if -2 ^ 63 ≤ shifted ∧ shifted < 2 ^ 63 then shifted else r.time)

def rotatedName (pre : Text) (index : ℕ) : Text := pre ++ numeral 10 index ++ auditSuffix

def indexUnder (pre name : Text) : Option ℕ :=
  ((stripSuf auditSuffix name).bind (stripPre pre)).bind (parseUnsigned (2 ^ 32))

def highestIndex (dir : Directory) (pre : Text) : ℕ :=
  (dir.filterMap fun f => indexUnder pre f.name).max?.getD 0

def firstFree (dir : Directory) (pre : Text) : ℕ → ℕ → Option ℕ
  | 0, _ => none
  | fuel + 1, index =>
    if (fileNamed dir (rotatedName pre index)).isSome then
      firstFree dir pre fuel ((index + 1) % 2 ^ 32)
    else some index

def openNextRotation (dir : Directory) (pre : Text) : Option Text :=
  (firstFree dir pre (dir.length + 1) ((highestIndex dir pre + 1) % 2 ^ 32)).map (rotatedName pre)

def isDate (date : Text) : Bool := date.length == 8 && date.all (isDigit 10)

def dateIn (name : Text) : Option Text :=
  ((stripPre auditPrefix name).map (List.take 8)).filter isDate

def newestDate (dir : Directory) : Option Text :=
  (listAuditFiles dir).getLast?.bind fun f => dateIn f.name

def auditPrefixFor (dir : Directory) (r : Reading) : Text :=
  let today := localDateString r
  let date := match newestDate dir with
    | some newest => if compare newest today = .gt then newest else today
    | none => today
  auditPrefix ++ date ++ ['-']

def auditName (date : Text) (index : ℕ) : Text := rotatedName (auditPrefix ++ date ++ ['-']) index

variable {n : ℕ}

theorem parse_unsigned_numeral {bound : ℕ} (h : n < bound) :
    parseUnsigned bound (numeral 10 n) = some n := by
  have hdigits := numeral_digits (show 10 ∈ [10, 16] by simp) n
  have hplus : stripPre ['+'] (numeral 10 n) = none := by
    rw [Option.eq_none_iff_forall_ne_some]
    intro rest hrest
    rw [strip_pre_some] at hrest
    have hp := hdigits '+' (by simp [hrest])
    revert hp
    decide
  have hall : (numeral 10 n).all (isDigit 10) = true := List.all_eq_true.mpr hdigits
  simp [parseUnsigned, hplus, hall, numeral_ne_nil, numeral_value, h]

variable {pre : Text} {date : Text}

theorem index_under_rotated (h : n < 2 ^ 32) : indexUnder pre (rotatedName pre n) = some n := by
  have hsuf : stripSuf auditSuffix (rotatedName pre n) = some (pre ++ numeral 10 n) :=
    strip_suf_some.mpr rfl
  have hpre : stripPre pre (pre ++ numeral 10 n) = some (numeral 10 n) := strip_pre_some.mpr rfl
  rw [indexUnder, hsuf, Option.bind_some, hpre, Option.bind_some, parse_unsigned_numeral h]

theorem audit_name_split (date : Text) (n : ℕ) :
    auditName date n = auditPrefix ++ date ++ '-' :: numeral 10 n ++ '.' :: "ndjson".toList := by
  have hsuffix : auditSuffix = '.' :: "ndjson".toList := rfl
  simp [auditName, rotatedName, hsuffix]

theorem rotation_sort_key_audit (date : Text) (h : n < 2 ^ 32) :
    rotationSortKey (auditName date n) = (auditPrefix ++ date, n) := by
  have hdot : rsplitOnce '.' (auditName date n) =
      some (auditPrefix ++ date ++ '-' :: numeral 10 n, "ndjson".toList) :=
    rsplit_once_some.mpr ⟨audit_name_split date n, by decide⟩
  have hdash : rsplitOnce '-' (auditPrefix ++ date ++ '-' :: numeral 10 n) =
      some (auditPrefix ++ date, numeral 10 n) :=
    rsplit_once_some.mpr ⟨rfl, digit_not_in_numeral (by decide) n⟩
  have hstem : fileStem (auditName date n) = auditPrefix ++ date ++ '-' :: numeral 10 n := by
    rw [fileStem, hdot]
    exact if_neg (by simp)
  rw [rotationSortKey, hstem, hdash]
  simp only [parse_unsigned_numeral h]

theorem audit_name_is_audit (date : Text) (n : ℕ) (bytes : Utf8.Bytes) :
    isAuditFile ⟨auditName date n, bytes⟩ = true := by
  rw [isAuditFile, Bool.and_eq_true, starts_with_iff, ends_with_iff]
  refine ⟨⟨date ++ (['-'] ++ (numeral 10 n ++ auditSuffix)), ?_⟩, ⟨_, rfl⟩⟩
  simp only [auditName, rotatedName, List.append_assoc]

theorem date_length (h : isDate date = true) : date.length = 8 := by
  rw [isDate, Bool.and_eq_true, beq_iff_eq] at h
  exact h.1

theorem date_in_audit_name (h : isDate date = true) (n : ℕ) :
    dateIn (auditName date n) = some date := by
  have hlen := date_length h
  have hpre : stripPre auditPrefix (auditName date n) =
      some (date ++ (['-'] ++ numeral 10 n ++ auditSuffix)) :=
    strip_pre_some.mpr (by simp [auditName, rotatedName])
  rw [dateIn, hpre, Option.map_some, List.take_append_of_le_length hlen.ge,
    List.take_of_length_le hlen.le]
  simp [h]

theorem date_text_digits (ymd : ℕ × ℕ × ℕ) : (dateText ymd).all (isDigit 10) = true := by
  rw [List.all_eq_true]
  intro c hc
  simp only [dateText, List.mem_append] at hc
  rcases hc with (hc | hc) | hc <;> exact padded_digits (by simp) c hc

variable {r : Reading}

theorem local_date_is_date (h : (localDateString r).length = 8) :
    isDate (localDateString r) = true := by
  rw [isDate, Bool.and_eq_true, beq_iff_eq]
  exact ⟨h, date_text_digits _⟩

variable {dir : Directory} {f : AuditFile}

theorem index_le_highest (hf : f ∈ dir) (hn : indexUnder pre f.name = some n) :
    n ≤ highestIndex dir pre := by
  have hmem : n ∈ dir.filterMap fun f => indexUnder pre f.name :=
    List.mem_filterMap.mpr ⟨f, hf, hn⟩
  unfold highestIndex
  cases hmax : (dir.filterMap fun f => indexUnder pre f.name).max? with
  | none =>
    rw [List.max?_eq_none_iff] at hmax
    rw [hmax] at hmem
    cases hmem
  | some m => exact (List.max?_eq_some_iff.mp hmax).2 n hmem

theorem highest_index_bound {k : ℕ} (h : ∀ f ∈ dir, ∀ n, indexUnder pre f.name = some n → n ≤ k) :
    highestIndex dir pre ≤ k := by
  unfold highestIndex
  cases hmax : (dir.filterMap fun f => indexUnder pre f.name).max? with
  | none => exact Nat.zero_le k
  | some m =>
    obtain ⟨f, hf, hm⟩ := List.mem_filterMap.mp (List.max?_eq_some_iff.mp hmax).1
    exact h f hf m hm

theorem file_named_none {name : Text} : fileNamed dir name = none ↔ ∀ f ∈ dir, f.name ≠ name := by
  simp [fileNamed, List.find?_eq_none]

theorem open_next_rotation_eq (h : highestIndex dir pre + 1 < 2 ^ 32) :
    openNextRotation dir pre = some (rotatedName pre (highestIndex dir pre + 1)) := by
  have hfree : fileNamed dir (rotatedName pre (highestIndex dir pre + 1)) = none := by
    rw [file_named_none]
    intro f hf hname
    have hle := index_le_highest hf (hname ▸ index_under_rotated h)
    omega
  rw [openNextRotation, Nat.mod_eq_of_lt h, firstFree, hfree]
  rfl

instance : Std.TransCmp keyOrder :=
  inferInstanceAs (Std.TransCmp (compareLex (compareOn Prod.fst) (compareOn Prod.snd)))

instance : Std.TransCmp fun a b : AuditFile =>
    keyOrder (rotationSortKey a.name) (rotationSortKey b.name) where
  eq_swap := Std.OrientedCmp.eq_swap
  isLE_trans := Std.TransCmp.isLE_trans

theorem compare_append (p s t : Text) : compare (p ++ s) (p ++ t) = compare s t := by
  induction p with
  | nil => rfl
  | cons c p ih =>
    rw [List.compare_eq_compareLex] at ih ⊢
    rw [List.cons_append, List.cons_append, List.compareLex_cons_cons,
      (Std.ReflOrd.compare_self : compare c c = .eq)]
    exact ih

theorem key_order_audit {d e : Text} {m : ℕ} :
    keyOrder (auditPrefix ++ d, m) (auditPrefix ++ e, n) = .lt ↔
      compare d e = .lt ∨ compare d e = .eq ∧ m < n := by
  rw [keyOrder, compareLex, Ordering.then_eq_lt, compareOn, compareOn, compare_append,
    Nat.compare_eq_lt]

/-- The file's name is one the writer gives, with a number up to `bound`. -/
structure Named (bound : ℕ) (f : AuditFile) where
  date : Text
  index : ℕ
  isDate : RotationNames.isDate date = true
  index_le : index ≤ bound
  name_eq : f.name = auditName date index

def FileBefore (f g : AuditFile) : Prop :=
  keyOrder (rotationSortKey f.name) (rotationSortKey g.name) = .lt

/-- The files stand in the order of their names, each name as the writer gives it. -/
structure InNameOrder (files : Directory) : Prop where
  named : ∀ f ∈ files, Nonempty (Named files.length f)
  before : files.Pairwise FileBefore

variable {files : Directory}

theorem list_audit_files_eq (h : InNameOrder files) : listAuditFiles files = files := by
  have hfilter : files.filter isAuditFile = files := by
    rw [List.filter_eq_self]
    intro f hf
    obtain ⟨n⟩ := h.named f hf
    have hf' : f = ⟨auditName n.date n.index, f.bytes⟩ := by rw [← n.name_eq]
    rw [hf']
    exact audit_name_is_audit _ _ _
  rw [listAuditFiles, hfilter, sortChronologically]
  refine sort_by_of_sorted _ files (h.before.imp fun hab => ?_)
  rw [InOrder, hab]
  rfl

theorem names_differ {g : AuditFile} (h : FileBefore f g) : f.name ≠ g.name := by
  intro heq
  rw [FileBefore, heq, keyOrder, compareLex, Ordering.then_eq_lt] at h
  simp [compareOn, Std.ReflCmp.compare_self] at h

theorem names_nodup (h : files.Pairwise FileBefore) : (files.map AuditFile.name).Nodup :=
  List.pairwise_map.mpr (h.imp names_differ)

theorem file_named_eq (h : (files.map AuditFile.name).Nodup) (hf : f ∈ files) :
    fileNamed files f.name = some f := by
  induction files with
  | nil => cases hf
  | cons g files ih =>
    rw [List.map_cons, List.nodup_cons] at h
    rw [fileNamed, List.find?_cons]
    by_cases hg : g.name = f.name
    · rcases List.mem_cons.mp hf with rfl | hf
      · simp
      · exact absurd (hg ▸ List.mem_map_of_mem hf) h.1
    · rcases List.mem_cons.mp hf with rfl | hf
      · exact absurd rfl hg
      · simp only [beq_eq_false_iff_ne.mpr hg]
        exact ih h.2 hf

theorem in_name_order_of_names {changed : Directory} (h : InNameOrder files)
    (hnames : changed.map AuditFile.name = files.map AuditFile.name) : InNameOrder changed where
  named f hf := by
    have hmem : f.name ∈ files.map AuditFile.name := hnames ▸ List.mem_map_of_mem hf
    obtain ⟨g, hg, hname⟩ := List.mem_map.mp hmem
    obtain ⟨n⟩ := h.named g hg
    have hlen : changed.length = files.length := by simpa using congrArg List.length hnames
    exact ⟨⟨n.date, n.index, n.isDate, hlen.symm ▸ n.index_le, hname.symm.trans n.name_eq⟩⟩
  before := by
    have hbefore : (files.map AuditFile.name).Pairwise
        fun a b => keyOrder (rotationSortKey a) (rotationSortKey b) = .lt :=
      List.pairwise_map.mpr h.before
    rw [← hnames, List.pairwise_map] at hbefore
    exact hbefore

theorem last_date_ge (h : InNameOrder files) {last : AuditFile}
    (hlast : files.getLast? = some last) (hf : f ∈ files) (n : Named files.length f)
    (l : Named files.length last) (hbound : files.length < 2 ^ 32) :
    (compare n.date l.date).isLE = true := by
  obtain ⟨front, rfl⟩ := List.getLast?_eq_some_iff.mp hlast
  have hnb := n.index_le
  have hlb := l.index_le
  rcases List.mem_append.mp hf with hf | hf
  · have hlt := (List.pairwise_append.mp h.before).2.2 f hf last (by simp)
    rw [FileBefore, n.name_eq, l.name_eq, rotation_sort_key_audit _ (by omega),
      rotation_sort_key_audit _ (by omega), key_order_audit] at hlt
    rcases hlt with hlt | ⟨heq, -⟩
    · simp [hlt]
    · simp [heq]
  · rw [List.mem_singleton] at hf
    subst hf
    have hname := n.name_eq.symm.trans l.name_eq
    have hkey := congrArg rotationSortKey hname
    rw [rotation_sort_key_audit _ (by omega), rotation_sort_key_audit _ (by omega),
      Prod.mk.injEq, List.append_cancel_left_eq] at hkey
    rw [hkey.1, (Std.ReflOrd.compare_self : compare l.date l.date = .eq)]
    rfl

theorem next_date (h : InNameOrder files) (hr : (localDateString r).length = 8)
    (hbound : files.length < 2 ^ 32) :
    ∃ date, auditPrefixFor files r = auditPrefix ++ date ++ ['-'] ∧ isDate date = true ∧
      ∀ f ∈ files, ∀ n : Named files.length f, (compare n.date date).isLE = true := by
  have htoday := local_date_is_date hr
  rw [auditPrefixFor, newestDate, list_audit_files_eq h]
  cases hlast : files.getLast? with
  | none =>
    rw [List.getLast?_eq_none_iff] at hlast
    exact ⟨localDateString r, rfl, htoday, by simp [hlast]⟩
  | some last =>
    obtain ⟨l⟩ := h.named last (List.mem_of_getLast? hlast)
    have hdate : dateIn last.name = some l.date := by rw [l.name_eq, date_in_audit_name l.isDate]
    have hle (f : AuditFile) (hf : f ∈ files) (n : Named files.length f) :=
      last_date_ge h hlast hf n l hbound
    rw [Option.bind_some, hdate]
    dsimp only
    split
    · exact ⟨l.date, rfl, l.isDate, hle⟩
    · rename_i hgt
      refine ⟨localDateString r, rfl, htoday, fun f hf n => ?_⟩
      exact Std.TransCmp.isLE_trans (hle f hf n) (Ordering.ne_gt_iff_isLE.mp hgt)

theorem index_under_audit {d e : Text} (hd : isDate d = true) (he : isDate e = true) {m : ℕ}
    (hn : n < 2 ^ 32) (h : indexUnder (auditPrefix ++ d ++ ['-']) (auditName e n) = some m) :
    e = d ∧ m = n := by
  obtain ⟨rest, hrest, hm⟩ := Option.bind_eq_some_iff.mp h
  obtain ⟨stem, hstem, hpre⟩ := Option.bind_eq_some_iff.mp hrest
  rw [strip_suf_some] at hstem
  rw [strip_pre_some] at hpre
  rw [auditName, rotatedName, List.append_left_inj, hpre, List.append_assoc, List.append_assoc,
    List.append_assoc, List.append_assoc, List.append_right_inj] at hstem
  obtain ⟨hdate, htail⟩ := List.append_inj hstem ((date_length he).trans (date_length hd).symm)
  rw [List.append_right_inj] at htail
  rw [← htail, parse_unsigned_numeral hn] at hm
  exact ⟨hdate, (Option.some.inj hm).symm⟩

theorem next_name (h : InNameOrder files) (hr : (localDateString r).length = 8)
    (hbound : files.length + 1 < 2 ^ 32) :
    ∃ name, openNextRotation files (auditPrefixFor files r) = some name ∧
      ∀ bytes, InNameOrder (files ++ [⟨name, bytes⟩]) := by
  obtain ⟨date, hpre, hdate, hle⟩ := next_date h hr (by omega)
  rw [hpre]
  have hhigh : highestIndex files (auditPrefix ++ date ++ ['-']) ≤ files.length := by
    refine highest_index_bound fun f hf m hm => ?_
    obtain ⟨n⟩ := h.named f hf
    have hnb := n.index_le
    rw [n.name_eq] at hm
    obtain ⟨-, rfl⟩ := index_under_audit hdate n.isDate (by omega) hm
    exact hnb
  refine ⟨auditName date _, open_next_rotation_eq (by omega), fun bytes => ⟨?_, ?_⟩⟩
  · intro f hf
    rw [List.length_append, List.length_singleton]
    rcases List.mem_append.mp hf with hf | hf
    · obtain ⟨n⟩ := h.named f hf
      exact ⟨⟨n.date, n.index, n.isDate, n.index_le.trans (Nat.le_succ _), n.name_eq⟩⟩
    · rw [List.mem_singleton] at hf
      exact ⟨⟨date, _, hdate, Nat.succ_le_succ hhigh, by rw [hf]⟩⟩
  · rw [List.pairwise_append]
    refine ⟨h.before, List.pairwise_singleton _ _, fun f hf g hg => ?_⟩
    rw [List.mem_singleton] at hg
    obtain ⟨n⟩ := h.named f hf
    have hnb := n.index_le
    rw [FileBefore, hg, n.name_eq, rotation_sort_key_audit _ (by omega),
      rotation_sort_key_audit _ (by omega), key_order_audit]
    -- a file of the same date has an index up to the highest, any other an earlier date
    cases hcmp : compare n.date date with
    | lt => exact Or.inl rfl
    | eq =>
      refine Or.inr ⟨rfl, Nat.lt_succ_of_le (index_le_highest hf ?_)⟩
      rw [n.name_eq, Std.LawfulEqOrd.eq_of_compare hcmp]
      exact index_under_rotated (by omega)
    | gt =>
      have hdates := hle f hf n
      rw [hcmp] at hdates
      cases hdates

end NetRuleRouter.RotationNames
