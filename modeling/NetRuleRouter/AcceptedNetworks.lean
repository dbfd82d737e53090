import NetRuleRouter.RuleValues
import NetRuleRouter.RangeBlocks

/-!
# No accepted network reaches a reserved address

Single addresses are refused by their class, networks by their overlap with a
table of reserved networks. The table covers every class an address is refused
for, so an accepted network or range holds none of them. What a local segment
exempts is its part inside the networks of a second table, the private ones.
-/

set_option autoImplicit false

namespace NetRuleRouter.AcceptedNetworks
open TextOps IpNetwork IpText BlockGeometry Bisection RangeBlocks RuleValues

section
variable {ip : IpAddr} {block net : IpBlock}

theorem reserved_networks : reserved.map (fun e => IpBlock.parse e.1.toList) =
    [IpBlock.new (.v4 0) 8, IpBlock.new (.v4 0x7f000000) 8, IpBlock.new (.v4 0xe0000000) 4,
      IpBlock.new (.v4 0xffffffff) 32, IpBlock.new (.v6 0) 128, IpBlock.new (.v6 1) 128,
      IpBlock.new (.v6 (0xff <<< 120)) 8] := by
  decide +kernel

def InReserved (ip : IpAddr) : Prop :=
  ∃ e ∈ reserved, ∃ net, IpBlock.parse e.1.toList = some net ∧ net.contains ip = true

theorem in_reserved (addr : IpAddr) (len : ℕ)
    (htable : IpBlock.new addr len ∈ reserved.map fun e => IpBlock.parse e.1.toList)
    (hlen : len ≤ familyBits addr) (hf : ip.isIpv4 = addr.isIpv4)
    (hbits : toBits ip / 2 ^ (familyBits addr - len) =
      toBits addr / 2 ^ (familyBits addr - len)) : InReserved ip := by
  obtain ⟨e, he, hparse⟩ := List.mem_map.mp htable
  obtain ⟨net, hnet⟩ : ∃ net, IpBlock.new addr len = some net := by simp [IpBlock.new, hlen]
  exact ⟨e, he, net, hparse.trans hnet, (new_contains hnet).mpr ⟨hf, hbits⟩⟩

theorem v4_class_reserved (x : BitVec 32)
    (h : classifyV4 x ≠ .routable ∧ classifyV4 x ≠ .linkLocal) : InReserved (.v4 x) := by
  have hlt := x.isLt
  unfold classifyV4 at h
  dsimp only at h
  split_ifs at h with h0 hthis hloop hall hmulti hlink
  · exact in_reserved (.v4 0) 8 (by simp [reserved_networks]) (by decide) rfl (by simp [h0])
  · exact in_reserved (.v4 0) 8 (by simp [reserved_networks]) (by decide) rfl hthis
  · exact in_reserved (.v4 0x7f000000) 8 (by simp [reserved_networks]) (by decide) rfl hloop
  · exact in_reserved (.v4 0xffffffff) 32 (by simp [reserved_networks]) (by decide) rfl
      (by simp [hall])
  · refine in_reserved (.v4 0xe0000000) 4 (by simp [reserved_networks]) (by decide) rfl ?_
    show x.toNat / 2 ^ 28 = 14
    omega
  · simp at h
  · simp at h

theorem v6_class_reserved (x : BitVec 128)
    (h : classifyV6 x ≠ .routable ∧ classifyV6 x ≠ .linkLocal) : InReserved (.v6 x) := by
  have hlt := x.isLt
  unfold classifyV6 at h
  dsimp only at h
  split_ifs at h with h0 h1 hmulti hlink
  · exact in_reserved (.v6 0) 128 (by simp [reserved_networks]) (by decide) rfl (by simp [h0])
  · exact in_reserved (.v6 1) 128 (by simp [reserved_networks]) (by decide) rfl (by simp [h1])
  · refine in_reserved (.v6 (0xff <<< 120)) 8 (by simp [reserved_networks]) (by decide) rfl ?_
    show x.toNat / 2 ^ 120 = 0xff
    omega
  · simp at h
  · simp at h

def RuleMayRoute (ip : IpAddr) : Prop :=
  (classify ip = .routable ∨ classify ip = .linkLocal) ∧ neverADestination (classify ip) = false

theorem reaches_no_reserved (h : reservedOverlap block = none) (hin : block.contains ip = true) :
    RuleMayRoute ip := by
  have hclass : classify ip = .routable ∨ classify ip = .linkLocal := by
    by_contra hnot
    rw [not_or] at hnot
    have hres : InReserved ip := by
      cases ip with
      | v4 x => exact v4_class_reserved x hnot
      | v6 x => exact v6_class_reserved x hnot
    obtain ⟨e, he, net, hparse, hnet⟩ := hres
    have hover : net.overlaps block = true := overlaps_iff.mpr ⟨ip, hnet, hin⟩
    rw [reservedOverlap, Option.map_eq_none_iff, List.find?_eq_none] at h
    exact h e he (by simp [hparse, hover])
  refine ⟨hclass, ?_⟩
  rcases hclass with hc | hc <;> rw [hc] <;> rfl

def IsMapped (b : IpBlock) : Prop :=
  b.isIpv4 = false ∧ 96 ≤ b.prefixLen ∧ isIpv4Mapped (toBits b.network) = true

def mappedForm (x : BitVec 32) : BitVec 128 := BitVec.ofNat 128 (0xffff * 2 ^ 32 + x.toNat)

theorem mapped_quotient {n k : ℕ} (h : isIpv4Mapped n = true) (hk : k ≤ 32) :
    n / 2 ^ k = 2 ^ (32 - k) * 0xffff + n % 2 ^ 32 / 2 ^ k := by
  have hn : n = 2 ^ k * (2 ^ (32 - k) * 0xffff) + n % 2 ^ 32 := by
    rw [← mul_assoc, ← pow_add, Nat.add_sub_of_le hk, ← beq_iff_eq.mp h]
    exact (Nat.div_add_mod n (2 ^ 32)).symm
  conv_lhs => rw [hn]
  exact Nat.mul_add_div (Nat.two_pow_pos k) _ _

theorem canonical_contains (h : IsMapped block) (x : BitVec 128) :
    (canonicalBlock block).contains (canonicalIp (.v6 x)) = true ↔
      block.contains (.v6 x) = true := by
  obtain ⟨hv6, hlen, hmapped⟩ := h
  have hin : block.contains (.v6 x) = true ↔ _ := new_contains (block_new_self block)
  have hfits := block.fits
  cases hn : block.network with
  | v4 n =>
    rw [IpBlock.isIpv4, hn] at hv6
    cases hv6
  | v6 n =>
    rw [hn] at hin hfits hmapped
    change block.prefixLen ≤ 128 at hfits
    change isIpv4Mapped n.toNat = true at hmapped
    obtain ⟨k, hk⟩ : ∃ k, 128 - block.prefixLen = k := ⟨_, rfl⟩
    have hinside : block.contains (.v6 x) = true ↔ x.toNat / 2 ^ k = n.toNat / 2 ^ k :=
      hk ▸ hin.trans (and_iff_right rfl)
    obtain ⟨net, hnet⟩ : ∃ net, IpBlock.new (.v4 (BitVec.ofNat 32 n.toNat))
        (block.prefixLen - 96) = some net :=
      ⟨_, if_pos (show block.prefixLen - 96 ≤ 32 by omega)⟩
    have hcanonical : canonicalBlock block = net := by
      have hfour : canonicalIp block.network = .v4 (BitVec.ofNat 32 n.toNat) :=
        hn ▸ if_pos hmapped
      rw [canonicalBlock, hfour, hnet]
      simp [hv6, hlen, IpAddr.isIpv4]
    rw [hcanonical, new_contains hnet, hinside, canonicalIp]
    by_cases hx : isIpv4Mapped x.toNat = true
    · have hle : k ≤ 32 := by omega
      rw [if_pos hx, mapped_quotient hx hle, mapped_quotient hmapped hle]
      have hbits : 32 - (block.prefixLen - 96) = k := by omega
      simp [familyBits, IpAddr.isIpv4, toBits, hbits]
    · rw [if_neg hx]
      refine ⟨fun h => absurd h.1 Bool.false_ne_true, fun hsame => absurd ?_ hx⟩
      have hdiv := congrArg (· / 2 ^ (32 - k)) hsame
      simp only [Nat.div_div_eq_div_mul, ← pow_add, Nat.add_sub_of_le (by omega : k ≤ 32)] at hdiv
      exact (congrArg (· == 0xFFFF) hdiv).trans hmapped

theorem canonical_mapped_form (x : BitVec 32) : canonicalIp (.v6 (mappedForm x)) = .v4 x := by
  have hx := x.isLt
  have hbits : (mappedForm x).toNat = 0xffff * 2 ^ 32 + x.toNat := by
    rw [mappedForm, BitVec.toNat_ofNat]
    omega
  rw [canonicalIp, hbits, if_pos]
  · congr 1
    apply BitVec.eq_of_toNat_eq
    rw [BitVec.toNat_ofNat]
    omega
  · rw [isIpv4Mapped, beq_iff_eq]
    omega

theorem check_networks_ok {value ruleId : Text} {blocks : List IpBlock}
    (h : checkNetworks value blocks ruleId = .ok ()) :
    ∀ b ∈ blocks, widestRulePrefix b.isIpv4 ≤ b.prefixLen ∧ reservedOverlap b = none := by
  unfold checkNetworks at h
  split at h
  · cases h
  · rename_i hwide
    split at h
    · cases h
    · rename_i hfree
      intro b hb
      have hb' := List.find?_eq_none.mp hwide b hb
      exact ⟨by simpa [widerThanRuleAllows] using hb', List.findSome?_eq_none_iff.mp hfree b hb⟩

def PrivateOrLinkLocal : IpAddr → Prop
  | .v4 x => x.toNat / 2 ^ 24 = 10 ∨ x.toNat / 2 ^ 20 = 0xac1 ∨ x.toNat / 2 ^ 16 = 0xc0a8 ∨
      x.toNat / 2 ^ 22 = 0x191 ∨ x.toNat / 2 ^ 16 = 0xa9fe
  | .v6 x => x.toNat / 2 ^ 121 = 0x7e ∨ x.toNat / 2 ^ 118 = 0x3fa

def exemptBlocks : LocalSegmentExemption → List IpBlock
  | .exempt blocks => blocks
  | .tooWide | .notPrivate => []

def exemptNetworks : List IpBlock :=
  (privateNetworks ++ linkLocalNetworks).filterMap fun text => IpBlock.parse text.toList

theorem exempt_networks : exemptNetworks =
    [IpBlock.new (.v4 0x0a000000) 8, IpBlock.new (.v4 0xac100000) 12,
      IpBlock.new (.v4 0xc0a80000) 16, IpBlock.new (.v4 0x64400000) 10,
      IpBlock.new (.v6 (0xfc <<< 120)) 7, IpBlock.new (.v4 0xa9fe0000) 16,
      IpBlock.new (.v6 (0xfe80 <<< 112)) 10].filterMap id := by
  decide +kernel

theorem in_exempt_networks :
    (∃ net ∈ exemptNetworks, net.contains ip = true) ↔ PrivateOrLinkLocal ip := by
  have hnew (addr : IpAddr) (len : ℕ) (hlen : len ≤ familyBits addr) :
      (∃ net, some net = IpBlock.new addr len ∧ net.contains ip = true) ↔
        ip.isIpv4 = addr.isIpv4 ∧ toBits ip / 2 ^ (familyBits addr - len) =
          toBits addr / 2 ^ (familyBits addr - len) := by
    obtain ⟨net, hnet⟩ : ∃ net, IpBlock.new addr len = some net := by simp [IpBlock.new, hlen]
    simp [hnet, new_contains hnet]
  simp only [exempt_networks, List.mem_filterMap, id, exists_eq_right, List.mem_cons,
    List.not_mem_nil, or_false, or_and_right, exists_or]
  rw [hnew _ _ (by decide), hnew _ _ (by decide), hnew _ _ (by decide), hnew _ _ (by decide),
    hnew _ _ (by decide), hnew _ _ (by decide), hnew _ _ (by decide)]
  cases ip with
  | v4 x | v6 x => simp [PrivateOrLinkLocal, IpAddr.isIpv4, familyBits, toBits]

theorem mem_exemption (h : widerThanRuleAllows block = false) :
    net ∈ exemptBlocks (localSegmentExemption block) ↔
      ∃ n ∈ exemptNetworks, n.isIpv4 = block.isIpv4 ∧
        (if n.covers block then some block else if block.covers n then some n else none) =
          some net := by
  rw [localSegmentExemption, h, if_neg Bool.false_ne_true]
  dsimp only
  rw [← exemptNetworks]
  split_ifs with hnil
  · have hnone := List.filterMap_eq_nil_iff.mp hnil
    simp only [exemptBlocks, List.not_mem_nil, false_iff, not_exists, not_and]
    intro n hn hf
    rw [hnone n (List.mem_filter.mpr ⟨hn, by simpa using hf⟩)]
    simp
  · simp [exemptBlocks, and_assoc]

end

/-- A mapped network and its four-byte form hold the same addresses; blocks overlap exactly
when they share an address, and cover each other as sets of addresses. -/
theorem blocks_as_address_sets :
    (∀ b, IsMapped b →
      (∀ x, (canonicalBlock b).contains (canonicalIp (.v6 x)) = b.contains (.v6 x)) ∧
      ∀ x, (canonicalBlock b).contains (canonicalIp (.v4 x)) = b.contains (.v6 (mappedForm x))) ∧
    ∀ b c : IpBlock,
      (b.overlaps c = true ↔ ∃ ip, b.contains ip = true ∧ c.contains ip = true) ∧
      (b.overlaps c = true ↔ b.covers c = true ∨ c.covers b = true) ∧
      (b.covers c = true ↔ ∀ ip, c.contains ip = true → b.contains ip = true) := by
  refine ⟨fun b hb => ?_, fun b c => ⟨overlaps_iff, ?_, ?_⟩⟩
  · have hsame (x : BitVec 128) :
        (canonicalBlock b).contains (canonicalIp (.v6 x)) = b.contains (.v6 x) :=
      Bool.eq_iff_iff.mpr (canonical_contains hb x)
    refine ⟨hsame, fun x => ?_⟩
    rw [← hsame, canonical_mapped_form]
    rfl
  · rw [IpBlock.overlaps, Bool.or_eq_true]
  · exact ⟨fun h _ => contains_of_covers h, covers_of_inside⟩

/-- `10.0.0.1` is in the four-byte form of `::ffff:10.0.0.0/104`, not in the network itself. -/
theorem mapped_network_not_older_family :
    ∃ b, IpBlock.new (.v6 0xffff0a000000) 104 = some b ∧ IsMapped b ∧
      (canonicalBlock b).contains (canonicalIp (.v4 0x0a000001)) = true ∧
      b.contains (.v4 0x0a000001) = false :=
  ⟨_, rfl, ⟨by decide, by decide, by decide⟩, by decide, by decide⟩

theorem mapped_ten_contains :
    ∃ b, IpBlock.new (.v6 0xffff0a000000) 104 = some b ∧
      (canonicalBlock b).contains (canonicalIp (.v6 0xffff0a000001)) =
        b.contains (.v6 0xffff0a000001) := by
  refine ⟨_, rfl, (blocks_as_address_sets.1 _ ?_).1 _⟩
  exact ⟨by decide, by decide, by decide⟩

/-- What a segment exempts is its part inside private and link-local space. -/
theorem local_segment_exact (segment : IpBlock) (h : localSegmentExemption segment ≠ .tooWide)
    (ip : IpAddr) :
    (∃ b ∈ exemptBlocks (localSegmentExemption segment), b.contains ip = true) ↔
      segment.contains ip = true ∧ PrivateOrLinkLocal ip := by
  have hwide : widerThanRuleAllows segment = false := by
    cases hw : widerThanRuleAllows segment with
    | false => rfl
    | true => exact absurd (if_pos hw) h
  rw [← in_exempt_networks]
  simp only [mem_exemption hwide]
  constructor
  · rintro ⟨b, ⟨n, hn, -, hb⟩, hin⟩
    split_ifs at hb with hcov hcov'
    · obtain rfl := Option.some.inj hb
      exact ⟨hin, n, hn, contains_of_covers hcov hin⟩
    · obtain rfl := Option.some.inj hb
      exact ⟨contains_of_covers hcov' hin, n, hn, hin⟩
  · rintro ⟨hin, n, hn, hnin⟩
    have hf : n.isIpv4 = segment.isIpv4 :=
      ((block_contains_iff _ _).mp hnin).1.symm.trans ((block_contains_iff _ _).mp hin).1
    by_cases hcov : n.covers segment = true
    · exact ⟨segment, ⟨n, hn, hf, by rw [if_pos hcov]⟩, hin⟩
    · have hcov' := (covers_or_covers hnin hin).resolve_left hcov
      exact ⟨n, ⟨n, hn, hf, by rw [if_neg hcov, if_pos hcov']⟩, hnin⟩

theorem wide_lan_exempts_its_private_part :
    ∃ segment, IpBlock.new (.v4 0xc0000000) 8 = some segment ∧
      ∃ b ∈ exemptBlocks (localSegmentExemption segment), b.contains (.v4 0xc0a80001) = true := by
  have hlocal : (IpBlock.new (.v4 0xc0000000) 8).any
      (fun s => localSegmentExemption s != .tooWide) = true := by decide +kernel
  obtain ⟨segment, hsegment, hlocal⟩ := (Option.any_eq_true _ _).mp hlocal
  rw [bne_iff_ne] at hlocal
  refine ⟨segment, hsegment, (local_segment_exact segment hlocal _).mpr ⟨?_, ?_⟩⟩
  · exact (new_contains hsegment).mpr (by decide)
  · exact .inr (.inr (.inl (by decide)))

/-- Every address of an accepted network or range may be routed by a rule, and neither is wider
than a rule may be. -/
theorem accepted_networks_routable :
    (∀ (value ruleId : Text) (block : IpBlock), canonicalSubnet value ruleId = .ok block →
      widestRulePrefix block.isIpv4 ≤ block.prefixLen ∧
        ∀ ip, block.contains ip = true → RuleMayRoute ip) ∧
    ∀ (value ruleId : Text) (range : IpRange), canonicalIpRange value ruleId = .ok range →
      widestRulePrefix range.first.isIpv4 ≤
          prefixOfWidth range.first.isIpv4 (widthBits range) ∧
        (∀ b ∈ range.blocks, widestRulePrefix b.isIpv4 ≤ b.prefixLen) ∧
        ∀ ip, IpRange.contains range ip = true → RuleMayRoute ip := by
  constructor
  · intro value ruleId block h
    unfold canonicalSubnet at h
    split at h
    · cases h
    · rename_i written _
      cases hcheck : checkNetworks (trim value) [canonicalBlock written] ruleId with
      | error e =>
        rw [hcheck] at h
        cases h
      | ok u =>
        rw [hcheck] at h
        obtain rfl : canonicalBlock written = block := Except.ok.inj h
        obtain ⟨hwide, hfree⟩ := check_networks_ok hcheck _ (List.mem_singleton_self _)
        exact ⟨hwide, fun ip hin => reaches_no_reserved hfree hin⟩
  · intro value ruleId range h
    unfold canonicalIpRange at h
    split at h
    · cases h
    · rename_i r _
      dsimp only at h
      split at h
      · cases h
      · rename_i hwidth
        cases hcheck : checkNetworks (trim value) r.blocks ruleId with
        | error e =>
          rw [hcheck] at h
          cases h
        | ok u =>
          rw [hcheck] at h
          obtain rfl : r = range := Except.ok.inj h
          have hblocks := check_networks_ok hcheck
          refine ⟨not_lt.mp hwidth, fun b hb => (hblocks b hb).1, fun ip hin => ?_⟩
          obtain ⟨b, hb, hbin⟩ := (range_contains_iff r).mp hin
          exact reaches_no_reserved (hblocks b hb).2 hbin

theorem written_networks_routable :
    (∃ block, canonicalSubnet "::ffff:10.1.0.0/112".toList "R-0001".toList = .ok block ∧
      ∀ ip, block.contains ip = true → RuleMayRoute ip) ∧
    ∃ range, canonicalIpRange "10.0.0.5-10.0.1.20".toList "R-0002".toList = .ok range ∧
      ∀ ip, IpRange.contains range ip = true → RuleMayRoute ip := by
  have hsubnet : (canonicalSubnet "::ffff:10.1.0.0/112".toList "R-0001".toList).isOk = true := by
    decide +kernel
  have hrange : (canonicalIpRange "10.0.0.5-10.0.1.20".toList "R-0002".toList).isOk = true := by
    decide +kernel
  constructor
  · cases h : canonicalSubnet "::ffff:10.1.0.0/112".toList "R-0001".toList with
    | error e =>
      rw [h] at hsubnet
      cases hsubnet
    | ok block => exact ⟨block, rfl, (accepted_networks_routable.1 _ _ block h).2⟩
  · cases h : canonicalIpRange "10.0.0.5-10.0.1.20".toList "R-0002".toList with
    | error e =>
      rw [h] at hrange
      cases hrange
    | ok range => exact ⟨range, rfl, (accepted_networks_routable.2 _ _ range h).2.2⟩

end NetRuleRouter.AcceptedNetworks
