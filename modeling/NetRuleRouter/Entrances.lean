import NetRuleRouter.RuleNormalization
import NetRuleRouter.WireReading

/-!
# The two entrances to a rule book

A value comes in by a rules file or by the wire. Both read it with the same
readers; the file takes one address written as a network or a range for that
address, and the wire does not.
-/

set_option autoImplicit false

namespace NetRuleRouter.Entrances
open TextOps AppPaths Canonical RuleValueKinds RuleValues NameSpelling ValueReaders RuleNormalization
open WireCodec WireReading

variable {ruleId : Text}

section
variable {toAscii : Text → Option Text} {platform : HostPlatform}

theorem map_error_ok_iff {ε δ α : Type} {x : Except ε α} {f : ε → δ} {r : α} :
    x.mapError f = .ok r ↔ x = .ok r := by
  cases x <;> simp [Except.mapError]

theorem normalize_app_ok_iff {app : AppMatch} {m : CanonicalAppMatch} :
    normalizeAppMatch app platform ruleId = .ok m ↔
      canonicalAppPattern app.pattern.asStr app.pattern.isGlob platform ruleId = .ok m.pattern ∧
        m.includeChildProcesses = app.includeChildProcesses ∧
        m.overrideRequested = app.overrideRequested := by
  obtain ⟨pattern, children, override⟩ := m
  unfold normalizeAppMatch
  rw [map_ok_iff]
  constructor
  · rintro ⟨p, hp, heq⟩
    injection heq with hpattern hchildren hoverride
    exact ⟨hpattern ▸ hp, hchildren.symm, hoverride.symm⟩
  · rintro ⟨hp, rfl, rfl⟩
    exact ⟨pattern, hp, rfl⟩

theorem normalize_rule_eq (rule : Rule) : normalizeRule toAscii rule platform =
    if rule.addressMatch.isNone && rule.appMatch.isNone then
      .error (.blocking (.ruleEmptyMatch rule.id))
    else match misplacedInRule rule platform with
      | some misplaced => .error (.blocking misplaced)
      | none => do
        let addressMatch ← readOption (fun m =>
          normalizeAddressMatch toAscii (asOneAddress m) rule.id) rule.addressMatch
        let appMatch ← readOption (fun a => (normalizeAppMatch a platform rule.id).mapError
          (appRefused a.pattern.asStr)) rule.appMatch
        return ⟨rule.id, rule.enabled, addressMatch, appMatch, trim rule.comment, rule.action,
          rule.origin⟩ := by
  unfold normalizeRule
  cases misplacedInRule rule platform <;> cases rule.addressMatch <;> cases rule.appMatch <;> rfl

theorem normalize_rule_ok_iff {rule : Rule} {c : CanonicalRule} :
    normalizeRule toAscii rule platform = .ok c ↔
      (rule.addressMatch.isSome || rule.appMatch.isSome) = true ∧
      misplacedInRule rule platform = none ∧
      Option.Rel (fun m a => normalizeAddressMatch toAscii (asOneAddress m) rule.id = .ok a)
        rule.addressMatch c.addressMatch ∧
      Option.Rel (fun a m => normalizeAppMatch a platform rule.id = .ok m)
        rule.appMatch c.appMatch ∧
      c = ⟨rule.id, rule.enabled, c.addressMatch, c.appMatch, trim rule.comment, rule.action,
        rule.origin⟩ := by
  have hempty : (rule.addressMatch.isNone && rule.appMatch.isNone) =
      !(rule.addressMatch.isSome || rule.appMatch.isSome) := by
    cases rule.addressMatch <;> cases rule.appMatch <;> rfl
  rw [normalize_rule_eq, hempty]
  cases rule.addressMatch.isSome || rule.appMatch.isSome with
  | false => simp
  | true =>
    cases misplacedInRule rule platform with
    | some misplaced => simp
    | none =>
      simp only [Bool.not_true, Bool.false_eq_true, if_false, bind_ok_iff, read_option_ok_iff,
        map_error_ok_iff, pure, Except.pure, Except.ok.injEq, true_and]
      constructor
      · rintro ⟨a, ha, p, hp, rfl⟩
        exact ⟨ha, hp, rfl⟩
      · rintro ⟨ha, hp, hc⟩
        exact ⟨_, ha, _, hp, hc.symm⟩

end

/-- An address match of a file and of a document. The bounds of a range are one text in a file. -/
inductive SameAddress : AddressMatch → AddressMatchDto → Prop where
  | exactFqdn (value : Text) : SameAddress (.exactFqdn value) (.exactFqdn value)
  | suffixDomain (suffix : Text) : SameAddress (.suffixDomain suffix) (.suffixDomain suffix)
  | anyZoneDomain (base : Text) : SameAddress (.anyZoneDomain base) (.anyZoneDomain base)
  | zone (name : Text) : SameAddress (.zone name) (.zone name)
  | exactIpv4 (address : Text) : SameAddress (.exactIp address) (.exactIpv4 address)
  | exactIpv6 (address : Text) : SameAddress (.exactIp address) (.exactIpv6 address)
  | subnet (network : Text) : SameAddress (.subnet network) (.subnet network)
  | ipRange (first last : Text) :
      SameAddress (.ipRange (first ++ '-' :: last)) (.ipRange first last)

/-- A program's value with a separator is a path in a document, any other a name or a mask. -/
inductive SameProgram (style : PathStyle) : AppMatchPattern → AppPatternDto → Prop where
  | path (p : AppMatchPattern) (h : isPathValue p.asStr style = true) :
      SameProgram style p (.path p.asStr)
  | exact (raw : Text) (h : isPathValue raw style = false) :
      SameProgram style (.exact raw) (.exact raw)
  | glob (raw : Text) (h : isPathValue raw style = false) :
      SameProgram style (.glob raw) (.glob raw)

structure SameRule (platform : HostPlatform) (rule : Rule) (dto : RuleDto) : Prop where
  address : Option.Rel SameAddress rule.addressMatch dto.addressMatch
  program : Option.Rel (fun a m => SameProgram platform.pathStyle a.pattern m.pattern)
    rule.appMatch dto.appMatch
  action : dto.action = encodeAction rule.action

/-- The wire applies the document rule with the matches the file reads. -/
def ReadAlike (toAscii : Text → Option Text) (platform : HostPlatform) (c : CanonicalRule)
    (dto : RuleDto) : Prop :=
  ∃ w, placeRule toAscii platform dto = .ok (.applied w) ∧ w.addressMatch = c.addressMatch ∧
    w.appMatch.map (·.pattern) = c.appMatch.map (·.pattern)

def OneAddress : AddressMatch → Prop
  | .subnet text | .ipRange text => (singleAddressWritten text).isSome = true
  | _ => False

/-- A name said to be exact with a star in it. No file holds one: a starred value is a mask. -/
def StarredName (style : PathStyle) : AppMatchPattern → Prop
  | .exact raw => isPathValue raw style = false ∧ '*' ∈ raw
  | .glob _ => False

theorem settle_verify_matches (c : CanonicalRule) :
    (settleVerify c).addressMatch = c.addressMatch ∧ (settleVerify c).appMatch = c.appMatch := by
  unfold settleVerify
  split_ifs <;> exact ⟨rfl, rfl⟩

variable {m : AddressMatch}

theorem as_one_address_self (h : ¬ OneAddress m) : asOneAddress m = m := by
  cases m with
  | subnet text | ipRange text =>
    have hnone : singleAddressWritten text = none := by simpa [OneAddress] using h
    simp [asOneAddress, hnone]
  | _ => rfl

theorem respelled_of_ok {toAscii : Text → Option Text} {kind : HostNameKind} {raw n : Text}
    (h : canonicalHostName toAscii kind raw ruleId = .ok n) : respelled toAscii kind raw = n := by
  unfold respelled
  rw [host_name_rule_id toAscii h []]

theorem domain_value_name_self {value : Text} (h : '*' ∉ value) :
    domainValueName value = value := by
  have hsuf : stripSuf ['.', '*'] value = none := by
    rw [Option.eq_none_iff_forall_ne_some]
    intro base hbase
    exact h (by rw [strip_suf_some.mp hbase]; simp)
  have hpre : stripPre ['*', '.'] value = none := by
    rw [Option.eq_none_iff_forall_ne_some]
    intro rest hrest
    exact h (by rw [strip_pre_some.mp hrest]; simp)
  simp [domainValueName, hsuf, hpre]

variable {d : AddressMatchDto}

theorem address_read_alike {idna : Idna} {a : CanonicalAddressMatch} (hsame : SameAddress m d)
    (h : normalizeAddressMatch idna.toAscii m ruleId = .ok a) (otherId : Text) :
    decodeAddressMatch idna.toAscii otherId d = .ok a := by
  cases hsame with
  | exactFqdn value | suffixDomain suffix =>
    obtain ⟨n, hn, rfl⟩ := map_ok_iff.mp h
    rw [decodeAddressMatch, respelled_of_ok (map_error_ok_iff.mp hn)]
  | anyZoneDomain base =>
    obtain ⟨n, hn, rfl⟩ := map_ok_iff.mp h
    have hname := map_error_ok_iff.mp hn
    have hstar : '*' ∉ base := domain_no_star ((host_name_ok_iff _).mp hname)
    rw [decodeAddressMatch, domain_value_name_self hstar, respelled_of_ok hname]
  | zone name =>
    obtain ⟨n, hn, rfl⟩ := map_ok_iff.mp h
    rw [decodeAddressMatch, respelled_of_ok (map_error_ok_iff.mp hn)]
  | exactIpv4 address | exactIpv6 address =>
    obtain ⟨ip, hip, rfl⟩ := map_ok_iff.mp h
    have hread := ip_address_ok_iff.mp (map_error_ok_iff.mp hip)
    exact map_ok_iff.mpr ⟨ip, exact_ip_ok_iff.mpr (ip_address_ok_iff.mpr hread), rfl⟩
  | subnet network =>
    obtain ⟨b, hb, rfl⟩ := map_ok_iff.mp h
    have hread := subnet_ok_iff.mp (map_error_ok_iff.mp hb)
    rw [decodeAddressMatch, subnet_ok_iff.mpr hread]
  | ipRange first last =>
    obtain ⟨r, hr, rfl⟩ := map_ok_iff.mp h
    have hread := range_ok_iff.mp (map_error_ok_iff.mp hr)
    rw [decodeAddressMatch, range_ok_iff.mpr hread]

theorem program_read_alike {platform : HostPlatform} {p : AppMatchPattern} {d : AppPatternDto}
    {q : CanonicalAppPattern} (hsame : SameProgram platform.pathStyle p d)
    (hstar : ¬ StarredName platform.pathStyle p)
    (h : canonicalAppPattern p.asStr p.isGlob platform ruleId = .ok q) (otherId : Text) :
    wireAppPattern d platform otherId = .ok q := by
  have hread := app_pattern_ok_iff.mp h
  cases hsame with
  | path p hpath =>
    rw [if_pos hpath] at hread
    exact app_pattern_ok_iff.mpr (by rwa [if_pos hpath])
  | exact raw hname =>
    have hplain : raw.contains '*' = false := by
      simpa [StarredName, hname] using hstar
    rw [AppMatchPattern.asStr, if_neg (by simp [hname])] at hread
    rw [wireAppPattern, hplain]
    exact name_pattern_ok_iff.mpr (name_pattern_ok_iff.mp hread)
  | glob raw hname =>
    rw [AppMatchPattern.asStr, if_neg (by simp [hname])] at hread
    exact name_pattern_ok_iff.mpr (name_pattern_ok_iff.mp hread)

theorem rel_transfer {α β γ : Type} {r : α → β → Prop} {s : α → γ → Prop} {t : γ → β → Prop}
    {o : Option α} {x : Option β} {y : Option γ} (hx : Option.Rel r o x) (hy : Option.Rel s o y)
    (h : ∀ m ∈ o, ∀ a b, r m a → s m b → t b a) : Option.Rel t y x := by
  cases hx with
  | none =>
    cases hy
    exact .none
  | some ha =>
    cases hy with
    | some hb => exact .some (h _ rfl _ _ ha hb)

/-- The program of a document rule with the pattern the file reads. -/
def programWith (m : Option AppMatchDto) (a : Option CanonicalAppMatch) :
    Option CanonicalAppMatch :=
  m.bind fun m => a.map fun a => ⟨a.pattern, m.includeChildProcesses, m.overrideRequested⟩

theorem rel_program_with {r : AppMatchDto → CanonicalAppPattern → Prop} {m : Option AppMatchDto}
    {a : Option CanonicalAppMatch} (h : Option.Rel (fun m a => r m a.pattern) m a) :
    Option.Rel (fun m b => r m b.pattern ∧ b.includeChildProcesses = m.includeChildProcesses ∧
      b.overrideRequested = m.overrideRequested) m (programWith m a) ∧
    (programWith m a).map (·.pattern) = a.map (·.pattern) ∧
    (programWith m a).isSome = a.isSome := by
  cases h with
  | none => exact ⟨.none, rfl, rfl⟩
  | some hr => exact ⟨.some ⟨hr, rfl, rfl⟩, rfl, rfl⟩

theorem rel_is_some {α β : Type} {r : α → β → Prop} {o : Option α} {x : Option β}
    (h : Option.Rel r o x) : o.isSome = x.isSome := by
  cases h <;> rfl

theorem decode_action_encode (action : RuleAction) :
    decodeAction (encodeAction action) = some action := by
  cases action <;> rfl

theorem one_address_apart {idna : Idna} {otherId : Text} {a b : CanonicalAddressMatch}
    (hone : OneAddress m) (hsame : SameAddress m d)
    (hfile : normalizeAddressMatch idna.toAscii (asOneAddress m) ruleId = .ok a)
    (hwire : decodeAddressMatch idna.toAscii otherId d = .ok b) : b ≠ a := by
  have hexact {text : Text} (h : (singleAddressWritten text).isSome = true) (m : AddressMatch)
      (hm : m = .subnet text ∨ m = .ipRange text)
      (hread : normalizeAddressMatch idna.toAscii (asOneAddress m) ruleId = .ok a) :
      ∃ ip, a = .exactIp ip := by
    obtain ⟨ip, hip⟩ := Option.isSome_iff_exists.mp h
    have hturn : asOneAddress m = .exactIp (IpText.ipText ip) := by
      rcases hm with rfl | rfl <;> simp [asOneAddress, hip]
    rw [hturn] at hread
    obtain ⟨address, -, rfl⟩ := map_ok_iff.mp hread
    exact ⟨address, rfl⟩
  cases hsame with
  | subnet network =>
    obtain ⟨ip, rfl⟩ := hexact hone _ (.inl rfl) hfile
    unfold decodeAddressMatch at hwire
    cases hs : canonicalSubnet network otherId with
    | error e => simp [hs] at hwire
    | ok block =>
      simp only [hs, Except.ok.injEq] at hwire
      simp [← hwire]
  | ipRange first last =>
    obtain ⟨ip, rfl⟩ := hexact hone _ (.inr rfl) hfile
    unfold decodeAddressMatch at hwire
    cases hs : canonicalIpRange (first ++ '-' :: last) otherId with
    | error e => simp [hs] at hwire
    | ok range =>
      simp only [hs, Except.ok.injEq] at hwire
      simp [← hwire]
  | _ => exact absurd hone id

theorem starred_name_apart {platform : HostPlatform} {p : AppMatchPattern} {d : AppPatternDto}
    {otherId : Text} {q r : CanonicalAppPattern} (hstar : StarredName platform.pathStyle p)
    (hsame : SameProgram platform.pathStyle p d)
    (hfile : canonicalAppPattern p.asStr p.isGlob platform ruleId = .ok q)
    (hwire : wireAppPattern d platform otherId = .ok r) : r ≠ q := by
  have hread := app_pattern_ok_iff.mp hfile
  cases hsame with
  | path p hpath =>
    cases p with
    | exact raw => simp [AppMatchPattern.asStr, hstar.1] at hpath
    | glob raw => exact absurd hstar id
  | exact raw hname =>
    rw [AppMatchPattern.asStr, if_neg (by simp [hname])] at hread
    have hglob : raw.contains '*' = true := by simpa using hstar.2
    rw [wireAppPattern, hglob] at hwire
    rw [(name_pattern_ok_iff.mp hread).2.2, (name_pattern_ok_iff.mp hwire).2.2]
    simp [namePattern, AppMatchPattern.isGlob]
  | glob raw hname => exact absurd hstar id

/-- A rule the file accepts and a document rule of its kinds and values are read alike exactly
where no one address is written as a network and no exact name holds a star. -/
theorem entrances_agree_iff (idna : Idna) {platform : HostPlatform} {rule : Rule}
    {c : CanonicalRule} {dto : RuleDto}
    (haccepted : normalizeRule idna.toAscii rule platform = .ok c)
    (hsame : SameRule platform rule dto) :
    ReadAlike idna.toAscii platform c dto ↔ (∀ m ∈ rule.addressMatch, ¬ OneAddress m) ∧
      ∀ a ∈ rule.appMatch, ¬ StarredName platform.pathStyle a.pattern := by
  obtain ⟨hsome, -, haddress, hprogram, -⟩ := normalize_rule_ok_iff.mp haccepted
  constructor
  · rintro ⟨w, hw, hwaddress, hwprogram⟩
    obtain ⟨d, hd, rfl⟩ := place_rule_applied_iff.mp hw
    rw [(settle_verify_matches d).1] at hwaddress
    rw [(settle_verify_matches d).2] at hwprogram
    obtain ⟨hdaddress, hdprogram, -⟩ := decode_rule_ok_iff.mp hd
    constructor
    · intro m hm hone
      obtain ⟨a, ha, hfile⟩ := rel_some haddress hm
      obtain ⟨dm, hdm, hkind⟩ := rel_some hsame.address hm
      obtain ⟨b, hb, hwire⟩ := rel_some hdaddress hdm
      refine one_address_apart hone hkind hfile hwire (Option.some.inj ?_)
      rw [← hb, ← ha, hwaddress]
    · intro app happ hstar
      obtain ⟨a, ha, hfile⟩ := rel_some hprogram happ
      obtain ⟨dm, hdm, hkind⟩ := rel_some hsame.program happ
      obtain ⟨b, hb, hwire⟩ := rel_some hdprogram hdm
      refine starred_name_apart hstar hkind (normalize_app_ok_iff.mp hfile).1
        (decode_app_ok_iff.mp hwire).1 (Option.some.inj ?_)
      simpa [ha, hb] using hwprogram
  · rintro ⟨hone, hstar⟩
    have hdaddress : Option.Rel (fun d a => decodeAddressMatch idna.toAscii dto.id d = .ok a)
        dto.addressMatch c.addressMatch := by
      refine rel_transfer haddress hsame.address fun m hm a d hfile hkind => ?_
      rw [as_one_address_self (hone m hm)] at hfile
      exact address_read_alike hkind hfile dto.id
    have hdpattern : Option.Rel (fun d a => wireAppPattern d.pattern platform dto.id =
        .ok a.pattern) dto.appMatch c.appMatch := by
      refine rel_transfer hprogram hsame.program fun app happ a d hfile hkind => ?_
      exact program_read_alike hkind (hstar app happ) (normalize_app_ok_iff.mp hfile).1 dto.id
    obtain ⟨hdprogram, hpattern, hisSome⟩ := rel_program_with
      (r := fun d p => wireAppPattern d.pattern platform dto.id = .ok p) hdpattern
    have hdecode : decodeRule idna.toAscii dto platform = .ok ⟨dto.id, dto.enabled,
        c.addressMatch, programWith dto.appMatch c.appMatch, dto.comment, rule.action,
        dto.origin⟩ := by
      refine decode_rule_ok_iff.mpr ⟨hdaddress, ?_, decoded_with_ok_iff.mpr ⟨?_, rule.action,
        by rw [hsame.action, decode_action_encode], rfl⟩⟩
      · simpa only [decode_app_ok_iff] using hdprogram
      · rw [hisSome, ← rel_is_some haddress, ← rel_is_some hprogram]
        exact hsome
    refine ⟨_, place_rule_applied_iff.mpr ⟨_, hdecode, rfl⟩, ?_, ?_⟩
    · rw [(settle_verify_matches _).1]
    · rw [(settle_verify_matches _).2, hpattern]

def addressLine (m : AddressMatch) : Rule := ⟨"r-0000".toList, true, some m, none, [], .route, none⟩

def addressDocument (m : AddressMatchDto) : RuleDto :=
  ⟨"r-0000".toList, true, some m, none, [], .route, none⟩

theorem same_address_line (h : SameAddress m d) (platform : HostPlatform) :
    SameRule platform (addressLine m) (addressDocument d) :=
  ⟨.some h, .none, rfl⟩

theorem site_read_alike : ∃ c,
    normalizeRule encodedOnly.toAscii (addressLine (.suffixDomain "Example.com.".toList)) .linux =
      .ok c ∧
    ReadAlike encodedOnly.toAscii .linux c
      (addressDocument (.suffixDomain "Example.com.".toList)) := by
  refine ⟨_, rfl, (entrances_agree_iff encodedOnly rfl
    (same_address_line (.suffixDomain _) .linux)).mpr ⟨?_, ?_⟩⟩
  · rintro m ⟨⟩
    exact id
  · rintro a ⟨⟩

/-- A network of one address is an address rule from the file and a network rule from the wire. -/
theorem one_address_two_rules : let line := addressLine (.subnet "192.0.2.7/32".toList)
    let document := addressDocument (.subnet "192.0.2.7/32".toList)
    SameRule .windows line document ∧ ∃ c w,
      normalizeRule encodedOnly.toAscii line .windows = .ok c ∧
      placeRule encodedOnly.toAscii .windows document = .ok (.applied w) ∧
      c.addressMatch = some (.exactIp (.v4 0xC0000207)) ∧ w.addressMatch ≠ c.addressMatch := by
  refine ⟨same_address_line (.subnet _) .windows, _, _, rfl, rfl, by decide, by decide⟩

end NetRuleRouter.Entrances
