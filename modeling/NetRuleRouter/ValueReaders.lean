import NetRuleRouter.NameSpelling

/-!
# What the value readers accept

One statement for each reader of a rule's value: which values it accepts and
what it reads. The rule a value stands in only names the refusal.
-/

set_option autoImplicit false

namespace NetRuleRouter.ValueReaders
open TextOps IpNetwork IpText AppPaths Canonical RuleValueKinds
open RuleValues

variable {value ruleId : Text} {blocks : List IpBlock}

theorem ip_address_ok_iff {a : IpAddr} :
    canonicalIpAddress value ruleId = .ok a ↔ ∃ addr, parseIpAddr (trim value) = some addr ∧
      canonicalIp addr = a ∧ neverADestination (classify a) = false := by
  unfold canonicalIpAddress
  cases hp : parseIpAddr (trim value) with
  | none => simp
  | some addr =>
    simp only [Option.some.injEq]
    constructor
    · intro h
      split_ifs at h with hnever
      injection h with h
      exact ⟨addr, rfl, h, by simpa [← h] using hnever⟩
    · rintro ⟨_, rfl, rfl, hnever⟩
      simp [hnever]

structure Nameable (blocks : List IpBlock) : Prop where
  narrow : ∀ b ∈ blocks, widerThanRuleAllows b = false
  free : ∀ b ∈ blocks, reservedOverlap b = none

theorem check_networks_ok_iff :
    checkNetworks value blocks ruleId = .ok () ↔ Nameable blocks := by
  unfold checkNetworks
  constructor
  · intro h
    cases hw : blocks.find? widerThanRuleAllows with
    | some wide => simp [hw] at h
    | none =>
      cases hr : blocks.findSome? reservedOverlap with
      | some cls => simp [hw, hr] at h
      | none =>
        exact ⟨fun b hb => by simpa using List.find?_eq_none.mp hw b hb,
          List.findSome?_eq_none_iff.mp hr⟩
  · intro h
    have hw : blocks.find? widerThanRuleAllows = none :=
      List.find?_eq_none.mpr fun b hb => by simp [h.narrow b hb]
    rw [hw, List.findSome?_eq_none_iff.mpr h.free]

theorem check_networks_then {α : Type} {x y : α} :
    (do checkNetworks value blocks ruleId; return x : Except ValidationError α) = .ok y ↔
      x = y ∧ Nameable blocks := by
  cases h : checkNetworks value blocks ruleId with
  | error e =>
    have hnot : ¬ Nameable blocks := fun hn => by
      rw [check_networks_ok_iff.mpr hn] at h
      cases h
    simp [bind, Except.bind, hnot]
  | ok u => simp [bind, Except.bind, pure, Except.pure, check_networks_ok_iff.mp h]

theorem subnet_ok_iff {b : IpBlock} :
    canonicalSubnet value ruleId = .ok b ↔ ∃ written, IpBlock.parse (trim value) = some written ∧
      canonicalBlock written = b ∧ Nameable [b] := by
  unfold canonicalSubnet
  cases hp : IpBlock.parse (trim value) with
  | none => simp
  | some written =>
    simp only [Option.some.injEq, check_networks_then]
    constructor
    · rintro ⟨rfl, hn⟩
      exact ⟨written, rfl, rfl, hn⟩
    · rintro ⟨_, rfl, rfl, hn⟩
      exact ⟨rfl, hn⟩

def TooWide (range : IpRange) : Prop :=
  prefixOfWidth range.first.isIpv4 (widthBits range) < widestRulePrefix range.first.isIpv4

theorem range_ok_iff {r : IpRange} :
    canonicalIpRange value ruleId = .ok r ↔ canonicalBounds value = some r ∧ ¬ TooWide r ∧
      Nameable r.blocks := by
  unfold canonicalIpRange TooWide
  cases hb : canonicalBounds value with
  | none => simp
  | some range =>
    simp only [Option.some.injEq]
    split_ifs with hwide
    · simp only [false_iff, not_and]
      rintro rfl hnot
      exact absurd hwide hnot
    · rw [check_networks_then]
      constructor
      · rintro ⟨rfl, hn⟩
        exact ⟨rfl, hwide, hn⟩
      · rintro ⟨rfl, -, hn⟩
        exact ⟨rfl, hn⟩

structure Holdable (raw : Text) (limit : ℕ) : Prop where
  short : byteLen raw ≤ limit
  plain : raw.any isForbiddenFieldChar = false
  noDeny : misplacedDeny raw = false

variable {raw : Text} {p : CanonicalAppPattern} {limit : ℕ} {glob : Bool}

theorem holdable_iff :
    refuseUnholdableAppValue raw ruleId limit = .ok () ↔ Holdable raw limit := by
  unfold refuseUnholdableAppValue
  constructor
  · intro h
    split_ifs at h with hbad
    simp only [Bool.or_eq_true, decide_eq_true_eq, not_or, not_lt, Bool.not_eq_true] at hbad
    exact ⟨hbad.1.1, hbad.1.2, hbad.2⟩
  · intro h
    simp [h.plain, h.noDeny, Nat.not_lt.mpr h.short]

theorem refuse_then {α : Type} {next : Except ValidationError α} {y : α} :
    (do refuseUnholdableAppValue raw ruleId limit; next) = .ok y ↔
      Holdable raw limit ∧ next = .ok y := by
  cases h : refuseUnholdableAppValue raw ruleId limit with
  | error e =>
    have hnot : ¬ Holdable raw limit := fun hh => by
      rw [holdable_iff.mpr hh] at h
      cases h
    simp [bind, Except.bind, hnot]
  | ok u => simp [bind, Except.bind, holdable_iff.mp h]

def namePattern (raw : Text) (glob : Bool) (naming : ExecutableNaming) : CanonicalAppPattern :=
  if glob then .glob (canonicalGlobProcessPattern raw)
  else .exact (canonicalExactProcessName raw naming).1

theorem name_pattern_ok_iff {naming : ExecutableNaming} :
    canonicalNamePattern raw glob naming ruleId = .ok p ↔ Holdable raw maxRuleValueBytes ∧
      (glob = true → reducesToStar (canonicalGlobProcessPattern raw) = false) ∧
      p = namePattern raw glob naming := by
  unfold canonicalNamePattern namePattern
  rw [refuse_then]
  refine and_congr_right fun _ => ?_
  cases glob with
  | false =>
    simp only [pure, Except.pure, Bool.false_eq_true, if_false, Except.ok.injEq, false_implies,
      true_and]
    exact eq_comm
  | true =>
    simp only [if_true, forall_const]
    split_ifs with hstar
    · simp [hstar]
    · simp only [pure, Except.pure, Except.ok.injEq, hstar, true_and]
      exact eq_comm

theorem app_pattern_ok_iff {platform : HostPlatform} :
    canonicalAppPattern raw glob platform ruleId = .ok p ↔
      if isPathValue raw platform.pathStyle then Holdable raw maxPathValueBytes ∧
        ∃ path, AppPath.parse raw platform.pathStyle = .ok path ∧ p = .path path
      else canonicalNamePattern raw glob platform.executableNaming [] = .ok p := by
  unfold canonicalAppPattern
  split_ifs with hpath
  · rw [refuse_then]
    refine and_congr_right fun _ => ?_
    cases hparse : AppPath.parse raw platform.pathStyle with
    | error e => simp
    | ok path =>
      simp only [pure, Except.pure, Except.ok.injEq, exists_eq_left']
      exact eq_comm
  · rw [name_pattern_ok_iff, name_pattern_ok_iff]

end NetRuleRouter.ValueReaders
