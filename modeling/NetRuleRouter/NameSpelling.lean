import NetRuleRouter.RuleValues

/-!
# The spelling of a name

A name the readers accept is a host name in lowercase ASCII. The encoding of
international names comes from outside; what is asked of it is what every
encoder of its standard gives.
-/

set_option autoImplicit false

namespace NetRuleRouter.NameSpelling
open TextOps IpText RuleValueKinds RuleValues

/-- The encoder of international names. A star of the text is one of the encoded text. -/
structure Idna where
  toAscii : Text → Option Text
  ascii : ∀ t a, toAscii t = some a → isAsciiText a = true
  lowercase : ∀ t a, toAscii t = some a → toAsciiLowercase a = a
  keepsStars : ∀ t a, toAscii t = some a → '*' ∈ t → '*' ∈ a

def encodedOnly : Idna where
  toAscii t := if isAsciiText t && toAsciiLowercase t == t then some t else none
  ascii t a h := by
    split_ifs at h with ht
    injection h with h
    subst h
    simp_all
  lowercase t a h := by
    split_ifs at h with ht
    injection h with h
    subst h
    simp_all
  keepsStars t a h hs := by
    split_ifs at h with ht
    injection h with h
    rwa [← h]

instance : Inhabited Idna := ⟨encodedOnly⟩

theorem mem_drop_while {α : Type*} {p : α → Bool} {l : List α} {c : α} (hc : p c = false)
    (h : c ∈ l) : c ∈ l.dropWhile p := by
  rw [← List.takeWhile_append_dropWhile (p := p) (l := l), List.mem_append] at h
  refine h.resolve_left fun htake => ?_
  rw [List.mem_takeWhile_imp htake] at hc
  cases hc

theorem mem_rdrop_while {α : Type*} {p : α → Bool} {l : List α} {c : α} (hc : p c = false)
    (h : c ∈ l) : c ∈ l.rdropWhile p := by
  rw [List.rdropWhile, List.mem_reverse]
  exact mem_drop_while hc (List.mem_reverse.mpr h)

variable {s : Text} {c : Char}

theorem mem_trim (hc : isWhitespace c = false) (h : c ∈ s) : c ∈ trim s :=
  mem_rdrop_while hc (mem_drop_while hc h)

theorem mem_split_on (sep : Char) (h : c ∈ s) : c = sep ∨ ∃ l ∈ s.splitOn sep, c ∈ l := by
  rw [← @List.intercalate_splitOn _ s _ _ sep] at h
  generalize s.splitOn sep = ls at h
  induction ls with
  | nil => simp [List.intercalate] at h
  | cons l ls ih =>
    cases ls with
    | nil => exact .inr ⟨l, by simp, by simpa [List.intercalate] using h⟩
    | cons m ls =>
      rw [List.intercalate_cons_cons, List.mem_append, List.mem_append, List.mem_singleton] at h
      rcases h with (hl | hsep) | hrest
      · exact .inr ⟨l, by simp, hl⟩
      · exact .inl hsep
      · rcases ih hrest with heq | ⟨k, hk, hc⟩
        · exact .inl heq
        · exact .inr ⟨k, .tail _ hk, hc⟩

variable {value ruleId : Text} {kind : HostNameKind}

section
variable (toAscii : Text → Option Text)

structure IsHostname (value : Text) : Prop where
  letter : value.any Char.isAlpha = true
  notIpv6 : (parseIpAddr value).any (fun ip => !ip.isIpv4) = false
  short : byteLen value ≤ maxHostnameOctets
  labels : isValidHostname toAscii value = true

theorem reject_ok_iff :
    rejectIfNotAHostname toAscii value ruleId = .ok () ↔ IsHostname toAscii value := by
  unfold rejectIfNotAHostname
  constructor
  · intro h
    split_ifs at h with haddress hname
    simp only [Bool.or_eq_true, Bool.not_eq_true', not_or, Bool.not_eq_false,
      Bool.not_eq_true] at haddress
    simp only [Bool.and_eq_true, decide_eq_true_eq] at hname
    exact ⟨haddress.1, haddress.2, hname.1, hname.2⟩
  · intro h
    simp [h.letter, h.notIpv6, h.short, h.labels]

def withoutDots (value : Text) : Text := (trim value).rdropWhile (· == '.')

def spelling (name : Text) : Option Text :=
  if isAsciiText name then some (toAsciiLowercase name) else toAscii name

theorem normalize_label_ok_iff {n : Text} :
    normalizeDomainLabel toAscii value ruleId = .ok n ↔
      withoutDots value ≠ [] ∧ spelling toAscii (withoutDots value) = some n ∧
        IsHostname toAscii n := by
  have hcheck (m : Text) : (do rejectIfNotAHostname toAscii m ruleId; return m :
      Except ValidationError Text) = .ok n ↔ m = n ∧ IsHostname toAscii n := by
    cases hr : rejectIfNotAHostname toAscii m ruleId with
    | error e =>
      have hnot : ¬ IsHostname toAscii m := fun h => by
        rw [(reject_ok_iff toAscii).mpr h] at hr
        cases hr
      simp only [bind, Except.bind, reduceCtorEq, false_iff, not_and]
      rintro rfl
      exact hnot
    | ok u =>
      have hname := (reject_ok_iff toAscii).mp hr
      simp only [bind, Except.bind, pure, Except.pure, Except.ok.injEq]
      exact ⟨fun h => ⟨h, h ▸ hname⟩, And.left⟩
  unfold normalizeDomainLabel spelling
  simp only [← withoutDots.eq_1]
  by_cases hempty : withoutDots value = []
  · simp [hempty]
  · rw [if_neg hempty, and_iff_right hempty]
    by_cases hascii : isAsciiText (withoutDots value) = true
    · rw [if_pos hascii, if_pos hascii, hcheck, Option.some.injEq]
    · rw [if_neg hascii, if_neg hascii]
      cases ha : toAscii (withoutDots value) with
      | none => simp
      | some ascii => rw [hcheck, Option.some.injEq]

theorem host_name_ok_iff {n : Text} :
    canonicalHostName toAscii kind value ruleId = .ok n ↔
      match kind with
      | .domain => normalizeDomainLabel toAscii value [] = .ok n
      | .zone => zoneBody value ≠ [] ∧ normalizeDomainLabel toAscii (zoneBody value) [] = .ok n := by
  cases kind with
  | domain => rw [canonicalHostName, normalize_label_ok_iff, normalize_label_ok_iff]
  | zone =>
    show canonicalHostName toAscii .zone value ruleId = .ok n ↔
      zoneBody value ≠ [] ∧ normalizeDomainLabel toAscii (zoneBody value) [] = .ok n
    unfold canonicalHostName
    by_cases h : zoneBody value = []
    · simp [h]
    · rw [if_neg h, and_iff_right h, normalize_label_ok_iff, normalize_label_ok_iff]

theorem host_name_rule_id {n : Text}
    (h : canonicalHostName toAscii kind value ruleId = .ok n) (otherId : Text) :
    canonicalHostName toAscii kind value otherId = .ok n :=
  (host_name_ok_iff toAscii).mpr ((host_name_ok_iff toAscii).mp h)

end

structure Spelled (idna : Idna) (n : Text) : Prop where
  host : IsHostname idna.toAscii n
  ascii : isAsciiText n = true
  lowercase : toAsciiLowercase n = n

theorem lowercase_idem (s : Text) : toAsciiLowercase (toAsciiLowercase s) = toAsciiLowercase s := by
  simp [toAsciiLowercase]

theorem ascii_cases {p : Char → Bool} (h : ∀ n < 128, p (Char.ofNat n) = true)
    (hc : isAscii c = true) : p c = true := by
  have hn := h c.toNat (of_decide_eq_true hc)
  rwa [Char.ofNat_toNat] at hn

theorem lowercase_ascii (h : isAsciiText s = true) : isAsciiText (toAsciiLowercase s) = true := by
  unfold isAsciiText toAsciiLowercase at *
  rw [List.all_map, List.all_eq_true]
  intro c hc
  exact ascii_cases (p := isAscii ∘ Char.toLower) (by decide) (List.all_eq_true.mp h c hc)

theorem normalize_label_spelled {idna : Idna} {n : Text}
    (h : normalizeDomainLabel idna.toAscii value ruleId = .ok n) : Spelled idna n := by
  obtain ⟨-, hspelling, hhost⟩ := (normalize_label_ok_iff _).mp h
  unfold spelling at hspelling
  split_ifs at hspelling with hascii
  · injection hspelling with hn
    exact ⟨hhost, hn ▸ lowercase_ascii hascii, by rw [← hn, lowercase_idem]⟩
  · exact ⟨hhost, idna.ascii _ _ hspelling, idna.lowercase _ _ hspelling⟩

def isHostChar (c : Char) : Bool := isAsciiAlphanumeric c || c == '-' || c == '_' || c == '.'

section
variable {idna : Idna} {n : Text} (h : Spelled idna n)
include h

theorem spelled_labels : ∀ l ∈ n.splitOn '.', isValidAsciiDnsLabel l = true := by
  have hlabels := h.host.labels
  rw [isValidHostname, if_pos h.ascii] at hlabels
  exact List.all_eq_true.mp hlabels

theorem spelled_chars : ∀ c ∈ n, isHostChar c = true := by
  intro c hc
  rcases mem_split_on '.' hc with rfl | ⟨l, hl, hcl⟩
  · rfl
  · have hlabel := spelled_labels h l hl
    unfold isValidAsciiDnsLabel at hlabel
    simp only [Bool.and_eq_true, List.all_eq_true] at hlabel
    have := hlabel.2 c hcl
    unfold isHostChar
    rw [this, Bool.true_or]

theorem spelled_no_star : '*' ∉ n := fun hs => by
  have := spelled_chars h _ hs
  revert this
  decide

end

theorem domain_no_star {idna : Idna} {n : Text}
    (h : normalizeDomainLabel idna.toAscii value ruleId = .ok n) : '*' ∉ value := by
  intro hs
  obtain ⟨-, hspelling, -⟩ := (normalize_label_ok_iff _).mp h
  have hkept : '*' ∈ withoutDots value := mem_rdrop_while (by decide) (mem_trim (by decide) hs)
  refine spelled_no_star (normalize_label_spelled h) ?_
  unfold spelling at hspelling
  split_ifs at hspelling with hascii
  · injection hspelling with hn
    rw [← hn, toAsciiLowercase, List.mem_map]
    exact ⟨'*', hkept, by decide⟩
  · exact idna.keepsStars _ _ hspelling hkept

end NetRuleRouter.NameSpelling
