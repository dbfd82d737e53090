import NetRuleRouter.ValueReaders
import NetRuleRouter.WireCodec

/-!
# What becomes of a rule from the wire

A rule that decodes is of known kinds and holds no value beyond every book, so
it is applied: decoding alone decides it.
-/

set_option autoImplicit false

namespace NetRuleRouter.WireReading
open TextOps IpNetwork Canonical RuleValueKinds RuleValues ValueReaders WireCodec

variable {ruleId : Text} {dto : RuleDto} {c : CanonicalRule}

section
variable {toAscii : Text → Option Text} {platform : HostPlatform}

def readOption {ε α β : Type} (f : α → Except ε β) : Option α → Except ε (Option β)
  | none => .ok none
  | some m => (f m).map some

theorem read_option_ok_iff {ε α β : Type} {f : α → Except ε β} {o : Option α} {r : Option β} :
    readOption f o = .ok r ↔ Option.Rel (fun m a => f m = .ok a) o r := by
  cases o with
  | none =>
    rw [readOption, Except.ok.injEq]
    constructor
    · rintro rfl
      exact .none
    · rintro ⟨⟩
      rfl
  | some m =>
    cases hm : f m with
    | error e =>
      simp only [readOption, hm, Except.map, reduceCtorEq, false_iff]
      rintro ⟨ha⟩
      rw [hm] at ha
      cases ha
    | ok a =>
      simp only [readOption, hm, Except.map, Except.ok.injEq]
      constructor
      · rintro rfl
        exact .some hm
      · rintro ⟨ha⟩
        rw [hm] at ha
        rw [Except.ok.inj ha]

theorem rel_some {α β : Type} {r : α → β → Prop} {o : Option α} {b : Option β} {m : α}
    (h : Option.Rel r o b) (hm : o = some m) : ∃ a, b = some a ∧ r m a := by
  subst hm
  cases h with
  | some ha => exact ⟨_, rfl, ha⟩

theorem map_ok_iff {ε α β : Type} {x : Except ε α} {f : α → β} {r : β} :
    x.map f = .ok r ↔ ∃ a, x = .ok a ∧ f a = r := by
  cases x with
  | error e | ok a => simp [Except.map]

theorem bind_ok_iff {ε α β : Type} {x : Except ε α} {k : α → Except ε β} {r : β} :
    (x >>= k) = .ok r ↔ ∃ a, x = .ok a ∧ k a = .ok r := by
  cases x with
  | error e | ok a => simp [bind, Except.bind]

theorem exact_ip_ok_iff {raw : Text} {v6 : Bool} {a : IpAddr} :
    exactIp ruleId raw v6 = .ok a ↔ canonicalIpAddress raw ruleId = .ok a := by
  unfold exactIp
  cases canonicalIpAddress raw ruleId <;> simp

theorem wire_pattern_rule_id {pattern : AppPatternDto} {p : CanonicalAppPattern}
    (h : wireAppPattern pattern platform ruleId = .ok p) (otherId : Text) :
    wireAppPattern pattern platform otherId = .ok p := by
  cases pattern with
  | exact value | glob value => exact name_pattern_ok_iff.mpr (name_pattern_ok_iff.mp h)
  | path value => exact app_pattern_ok_iff.mpr (app_pattern_ok_iff.mp h)
  | unrecognized value => cases h

theorem decode_app_ok_iff {m : AppMatchDto} {a : CanonicalAppMatch} :
    decodeAppMatch ruleId m platform = .ok a ↔
      wireAppPattern m.pattern platform ruleId = .ok a.pattern ∧
        a.includeChildProcesses = m.includeChildProcesses ∧
        a.overrideRequested = m.overrideRequested := by
  obtain ⟨pattern, children, override⟩ := a
  unfold decodeAppMatch
  cases h : wireAppPattern m.pattern platform ruleId with
  | error e => cases e <;> simp
  | ok p =>
    simp only [Except.ok.injEq, CanonicalAppMatch.mk.injEq]
    exact and_congr_right fun _ => and_congr eq_comm eq_comm

def decodedWith (dto : RuleDto) (addressMatch : Option CanonicalAddressMatch)
    (appMatch : Option CanonicalAppMatch) : Except RulesJsonCodecError CanonicalRule :=
  if addressMatch.isNone && appMatch.isNone then .error (.emptyMatch dto.id)
  else match decodeAction dto.action with
    | none => .error (.malformedAction dto.id)
    | some action =>
      .ok ⟨dto.id, dto.enabled, addressMatch, appMatch, dto.comment, action, dto.origin⟩

theorem decoded_with_ok_iff {a : Option CanonicalAddressMatch} {p : Option CanonicalAppMatch} :
    decodedWith dto a p = .ok c ↔ (a.isSome || p.isSome) = true ∧
      ∃ action, decodeAction dto.action = some action ∧
        c = ⟨dto.id, dto.enabled, a, p, dto.comment, action, dto.origin⟩ := by
  have hempty : (a.isNone && p.isNone) = !(a.isSome || p.isSome) := by
    cases a <;> cases p <;> rfl
  unfold decodedWith
  rw [hempty]
  cases hact : decodeAction dto.action with
  | none => cases a.isSome || p.isSome <;> simp
  | some action => cases a.isSome || p.isSome <;> simp [eq_comm]

theorem decode_rule_eq (dto : RuleDto) : decodeRule toAscii dto platform = (do
    let addressMatch ← readOption (decodeAddressMatch toAscii dto.id) dto.addressMatch
    let appMatch ← readOption (decodeAppMatch dto.id · platform) dto.appMatch
    decodedWith dto addressMatch appMatch) := by
  unfold decodeRule
  cases dto.addressMatch <;> cases dto.appMatch <;> rfl

theorem decode_rule_ok_iff :
    decodeRule toAscii dto platform = .ok c ↔
      Option.Rel (fun m a => decodeAddressMatch toAscii dto.id m = .ok a)
        dto.addressMatch c.addressMatch ∧
      Option.Rel (fun m a => decodeAppMatch dto.id m platform = .ok a) dto.appMatch c.appMatch ∧
      decodedWith dto c.addressMatch c.appMatch = .ok c := by
  have hparts {a p} (h : decodedWith dto a p = .ok c) : c.addressMatch = a ∧ c.appMatch = p := by
    obtain ⟨-, _, -, rfl⟩ := decoded_with_ok_iff.mp h
    exact ⟨rfl, rfl⟩
  simp only [decode_rule_eq, bind_ok_iff, read_option_ok_iff]
  constructor
  · rintro ⟨a, ha, p, hp, h⟩
    obtain ⟨rfl, rfl⟩ := hparts h
    exact ⟨ha, hp, h⟩
  · rintro ⟨ha, hp, h⟩
    exact ⟨_, ha, _, hp, h⟩

theorem decoded_recognized (h : decodeRule toAscii dto platform = .ok c) :
    dto.isUnrecognized = false := by
  obtain ⟨haddress, hprogram, hrest⟩ := decode_rule_ok_iff.mp h
  obtain ⟨-, action, haction, -⟩ := decoded_with_ok_iff.mp hrest
  have ha : dto.addressMatch.any AddressMatchDto.isUnrecognized = false := by
    rw [Option.any_eq_false]
    intro m hm
    obtain ⟨a, -, hread⟩ := rel_some haddress hm
    cases m <;> simp [AddressMatchDto.isUnrecognized]
    simp [decodeAddressMatch] at hread
  have hp : (dto.appMatch.any fun m => m.pattern.isUnrecognized) = false := by
    rw [Option.any_eq_false]
    intro m hm
    obtain ⟨a, -, hread⟩ := rel_some hprogram hm
    have hpattern := (decode_app_ok_iff.mp hread).1
    cases hk : m.pattern <;> simp_all [AppPatternDto.isUnrecognized, wireAppPattern]
  have hact : dto.action.isUnrecognized = false := by
    cases hk : dto.action <;> simp_all [WireRuleAction.isUnrecognized, decodeAction]
  simp [RuleDto.isUnrecognized, ha, hp, hact]

theorem decoded_not_refused (h : decodeRule toAscii dto platform = .ok c) :
    refusedOutrightOn dto platform = none := by
  obtain ⟨haddress, hprogram, -⟩ := decode_rule_ok_iff.mp h
  have hip {raw : Text} {v6 : Bool} {a : CanonicalAddressMatch}
      (hread : (exactIp dto.id raw v6).map .exactIp = .ok a) :
      ∃ ip, canonicalIpAddress raw [] = .ok ip := by
    obtain ⟨ip, hip, -⟩ := map_ok_iff.mp hread
    exact ⟨ip, ip_address_ok_iff.mpr (ip_address_ok_iff.mp (exact_ip_ok_iff.mp hip))⟩
  unfold refusedOutrightOn
  rw [Option.or_eq_none_iff]
  constructor
  · rcases hm : dto.addressMatch with _ | m
    · rfl
    · obtain ⟨a, -, hread⟩ := rel_some haddress hm
      cases m with
      | exactIpv4 raw | exactIpv6 raw =>
        obtain ⟨ip, hip⟩ := hip hread
        simp [hip]
      | subnet network =>
        unfold decodeAddressMatch at hread
        cases hs : canonicalSubnet network dto.id with
        | error e => simp [hs] at hread
        | ok b =>
          have hs' : canonicalSubnet network [] = .ok b :=
            subnet_ok_iff.mpr (subnet_ok_iff.mp hs)
          simp [hs']
      | ipRange first last =>
        unfold decodeAddressMatch at hread
        cases hs : canonicalIpRange (first ++ '-' :: last) dto.id with
        | error e => simp [hs] at hread
        | ok r =>
          have hs' : canonicalIpRange (first ++ '-' :: last) [] = .ok r :=
            range_ok_iff.mpr (range_ok_iff.mp hs)
          simp [hs']
      | _ => rfl
  · rw [Option.bind_eq_none_iff]
    intro m hm
    obtain ⟨a, -, hread⟩ := rel_some hprogram hm
    rw [wire_pattern_rule_id (decode_app_ok_iff.mp hread).1 []]

theorem place_rule_applied_iff {w : CanonicalRule} :
    placeRule toAscii platform dto = .ok (.applied w) ↔
      ∃ c, decodeRule toAscii dto platform = .ok c ∧ w = settleVerify c := by
  constructor
  · intro h
    unfold placeRule at h
    split_ifs at h
    · injection h with h
      cases h
    · obtain ⟨c, hc, hw⟩ := map_ok_iff.mp h
      exact ⟨c, hc, (Placement.applied.inj hw).symm⟩
    · injection h with h
      cases h
  · rintro ⟨c, hc, rfl⟩
    simp [placeRule, decoded_recognized hc, decoded_not_refused hc, hc, Except.map]

end

end NetRuleRouter.WireReading
