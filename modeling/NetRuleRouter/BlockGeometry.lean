import NetRuleRouter.LongestPrefix

/-!
# How aligned networks lie in each other

Two networks that share an address nest, the shorter prefix around the
longer. A network of more than one address splits into two halves one bit
longer, and what is left of a network without some holes is found by
splitting down to the holes.
-/

set_option autoImplicit false

namespace NetRuleRouter.BlockGeometry
open Sorting IpNetwork LongestPrefix

section
variable {b c d : IpBlock} {ip : IpAddr}

theorem aligned_gap {k r s : ℕ} (hr : 2 ^ k ∣ r) (hs : 2 ^ k ∣ s) (hlt : r < s) :
    r + 2 ^ k ≤ s := by
  have hle := Nat.le_of_dvd (by omega) (Nat.dvd_sub hs hr)
  omega

theorem host_bits_add (b : IpBlock) : b.prefixLen + b.hostBits = familyBits b.network :=
  Nat.add_sub_of_le b.fits

theorem family_of_contains (h : b.contains ip = true) : familyBits b.network = familyBits ip := by
  simp [familyBits, ((block_contains_iff b ip).mp h).1]

theorem new_contains {addr : IpAddr} {len : ℕ} (h : IpBlock.new addr len = some b) :
    b.contains ip = true ↔ ip.isIpv4 = addr.isIpv4 ∧
      toBits ip / 2 ^ (familyBits addr - len) = toBits addr / 2 ^ (familyBits addr - len) := by
  obtain ⟨haddr, rfl⟩ := block_new_iff.mp h
  rw [block_contains_iff] at haddr ⊢
  obtain ⟨hf, hle, hlt⟩ := haddr
  have hbits : familyBits addr - b.prefixLen = b.hostBits := by
    simp [IpBlock.hostBits, familyBits, hf]
  obtain ⟨q, hq⟩ : 2 ^ b.hostBits ∣ toBits b.network := b.masked
  have hpos := Nat.two_pow_pos b.hostBits
  have hat {y : ℕ} : y / 2 ^ b.hostBits = q ↔
      toBits b.network ≤ y ∧ y < toBits b.network + 2 ^ b.hostBits := by
    rw [Nat.div_eq_iff hpos, hq, mul_comm]
    omega
  rw [hbits, hat.mpr ⟨hle, hlt⟩, hat, hf]

theorem host_bits_le (hfam : b.network.isIpv4 = c.network.isIpv4)
    (hlen : b.prefixLen ≤ c.prefixLen) : c.hostBits ≤ b.hostBits := by
  have hb := host_bits_add b
  have hc := host_bits_add c
  have hf : familyBits b.network = familyBits c.network := by simp [familyBits, hfam]
  omega

theorem contains_network (b : IpBlock) : b.contains b.network = true := by
  rw [block_contains_iff]
  have := Nat.two_pow_pos b.hostBits
  exact ⟨rfl, le_rfl, by omega⟩

theorem covers_iff :
    b.covers c = true ↔ b.prefixLen ≤ c.prefixLen ∧ b.contains c.network = true := by
  simp [IpBlock.covers]

theorem contains_of_covers (h : b.covers c = true) (hc : c.contains ip = true) :
    b.contains ip = true := by
  obtain ⟨hlen, hnet⟩ := covers_iff.mp h
  rw [block_contains_iff] at hnet hc ⊢
  obtain ⟨hfam, hle, hlt⟩ := hnet
  obtain ⟨hfam', hle', hlt'⟩ := hc
  refine ⟨hfam'.trans hfam, hle.trans hle', ?_⟩
  have hbits := host_bits_le hfam.symm hlen
  -- the end of the outer block is aligned to the size of the inner one
  have hend : 2 ^ c.hostBits ∣ toBits b.network + 2 ^ b.hostBits :=
    (dvd_trans (pow_dvd_pow 2 hbits) b.masked).add (pow_dvd_pow 2 hbits)
  have hgap := aligned_gap c.masked hend hlt
  exact lt_of_lt_of_le hlt' hgap

theorem covers_of_contains (hb : b.contains ip = true) (hc : c.contains ip = true)
    (hlen : b.prefixLen ≤ c.prefixLen) : b.covers c = true := by
  rw [covers_iff]
  refine ⟨hlen, ?_⟩
  rw [block_contains_iff] at hb hc ⊢
  obtain ⟨hfam, hle, hlt⟩ := hb
  obtain ⟨hfam', hle', hlt'⟩ := hc
  refine ⟨hfam'.symm.trans hfam, ?_, by omega⟩
  have hbits := host_bits_le (hfam.symm.trans hfam') hlen
  by_contra hout
  have hgap : toBits c.network + 2 ^ c.hostBits ≤ toBits b.network :=
    aligned_gap c.masked (dvd_trans (pow_dvd_pow 2 hbits) b.masked) (Nat.lt_of_not_le hout)
  omega

theorem covers_self (b : IpBlock) : b.covers b = true :=
  covers_of_contains (contains_network b) (contains_network b) le_rfl

theorem covers_trans (hbc : b.covers c = true) (hcd : c.covers d = true) :
    b.covers d = true :=
  covers_of_contains (contains_of_covers hbc (contains_of_covers hcd (contains_network d)))
    (contains_network d) ((covers_iff.mp hbc).1.trans (covers_iff.mp hcd).1)

theorem covers_antisymm (h : b.covers c = true) (h' : c.covers b = true) :
    b = c :=
  same_length_eq (contains_of_covers h (contains_network c)) (contains_network c)
    (le_antisymm (covers_iff.mp h).1 (covers_iff.mp h').1)

theorem covers_strict (h : b.covers c = true) (hne : b ≠ c) : b.prefixLen < c.prefixLen :=
  lt_of_le_of_ne (covers_iff.mp h).1 fun hlen =>
    hne (same_length_eq (covers_iff.mp h).2 (contains_network c) hlen)

theorem covers_or_covers (hb : b.contains ip = true) (hc : c.contains ip = true) :
    b.covers c = true ∨ c.covers b = true := by
  rcases Nat.le_total b.prefixLen c.prefixLen with hlen | hlen
  · exact Or.inl (covers_of_contains hb hc hlen)
  · exact Or.inr (covers_of_contains hc hb hlen)

theorem overlaps_iff :
    b.overlaps c = true ↔ ∃ ip, b.contains ip = true ∧ c.contains ip = true := by
  rw [IpBlock.overlaps, Bool.or_eq_true]
  constructor
  · rintro (h | h)
    · exact ⟨_, (covers_iff.mp h).2, contains_network c⟩
    · exact ⟨_, contains_network b, (covers_iff.mp h).2⟩
  · rintro ⟨ip, hb, hc⟩
    exact covers_or_covers hb hc

theorem exists_longest {blocks : List IpBlock} (h : ∃ b ∈ blocks, b.contains ip = true) :
    ∃ w ∈ blocks, w.contains ip = true ∧
      ∀ b ∈ blocks, b.contains ip = true → b.prefixLen ≤ w.prefixLen := by
  obtain ⟨b, hb, hin⟩ := h
  obtain ⟨w, hw, hmost⟩ := (blocks.filter fun b => b.contains ip).toFinset.exists_max_image
    IpBlock.prefixLen ⟨b, by simp [hb, hin]⟩
  rw [List.mem_toFinset, List.mem_filter] at hw
  exact ⟨w, hw.1, hw.2, fun q hq hqin => hmost q (by simp [hq, hqin])⟩

end

def addrOrder : IpAddr → IpAddr → Ordering :=
  compareLex (compareOn fun ip => !ip.isIpv4) (compareOn toBits)

def addressSet (ips : List IpAddr) : List IpAddr := (sortBy addrOrder ips).dedup

theorem mem_address_set {ips : List IpAddr} {ip : IpAddr} : ip ∈ addressSet ips ↔ ip ∈ ips := by
  simp [addressSet]

theorem last_bits (b : IpBlock) : toBits b.last = toBits b.network + (2 ^ b.hostBits - 1) := by
  have hpos := Nat.two_pow_pos b.hostBits
  obtain ⟨q, hq⟩ : 2 ^ b.hostBits ∣ toBits b.network := b.masked
  have hor : toBits b.network ||| (2 ^ b.hostBits - 1) =
      toBits b.network + (2 ^ b.hostBits - 1) := by
    rw [hq, Nat.two_pow_add_eq_or_of_lt (by omega)]
  have hgap : toBits b.network + 2 ^ b.hostBits ≤ 2 ^ familyBits b.network :=
    aligned_gap b.masked (pow_dvd_pow 2 (Nat.sub_le _ _)) (to_bits_lt b.network)
  rw [IpBlock.last, hor, to_bits_from_bits]
  omega

theorem in_range_iff {b : IpBlock} {ip : IpAddr} :
    (addrOrder b.network ip).isLE = true ∧ (addrOrder ip b.last).isLE = true ↔
      b.contains ip = true := by
  have hlast : b.last.isIpv4 = b.network.isIpv4 := by simp [IpBlock.last]
  have hpos := Nat.two_pow_pos b.hostBits
  have hbelow : compare false true = .lt := rfl
  have habove : compare true false = .gt := rfl
  rw [block_contains_iff]
  simp only [addrOrder, compareLex, compareOn, hlast]
  cases hip : ip.isIpv4 <;> cases hnet : b.network.isIpv4
  · simp [last_bits, Nat.isLE_compare]
    omega
  · simp [hbelow, habove]
  · simp [hbelow, habove]
  · simp [last_bits, Nat.isLE_compare]
    omega

section
variable {b c : IpBlock} {ip a : IpAddr}

theorem max_prefix_len (b : IpBlock) : b.maxPrefixLen = familyBits b.network := rfl

theorem single_iff : b.isSingleAddress = true ↔ b.hostBits = 0 := by
  have := host_bits_add b
  simp only [IpBlock.isSingleAddress, max_prefix_len, beq_iff_eq]
  omega

theorem le_single (hs : b.isSingleAddress = true) (hb : b.contains ip = true)
    (hc : c.contains ip = true) : c.prefixLen ≤ b.prefixLen := by
  have hfits := c.fits
  have hbits := host_bits_add b
  rw [family_of_contains hc] at hfits
  rw [single_iff.mp hs, family_of_contains hb] at hbits
  omega

theorem single_contains (hb : b.isSingleAddress = true) :
    b.contains ip = true ↔ ip = b.network := by
  rw [block_contains_iff, single_iff.mp hb]
  constructor
  · intro h
    exact addr_ext h.1 (by omega)
  · intro h
    subst h
    exact ⟨rfl, le_rfl, by simp⟩

def hostBlock (ip : IpAddr) : Option IpBlock := IpBlock.new ip (familyBits ip)

theorem host_block_some (ip : IpAddr) :
    ∃ b, hostBlock ip = some b ∧ b.network = ip ∧ b.isSingleAddress = true := by
  obtain ⟨b, hb⟩ : ∃ b, hostBlock ip = some b := by
    simp [hostBlock, IpBlock.new]
  obtain ⟨hcontains, hlen⟩ := block_new_iff.mp hb
  have hfam := family_of_contains hcontains
  have hsingle : b.isSingleAddress = true := by
    simp [IpBlock.isSingleAddress, max_prefix_len, hlen, hfam]
  exact ⟨b, hb, ((single_contains hsingle).mp hcontains).symm, hsingle⟩

end

def halves (b : IpBlock) : Option (IpBlock × IpBlock) :=
  if b.isSingleAddress then none
  else do
    let len := b.prefixLen + 1
    let high := fromBits b.network (toBits b.network ||| 2 ^ (b.maxPrefixLen - len))
    let lowHalf ← IpBlock.new b.network len
    let highHalf ← IpBlock.new high len
    pure (lowHalf, highHalf)

section
variable {b low high : IpBlock} {ip : IpAddr}

theorem halves_none : halves b = none ↔ b.isSingleAddress = true := by
  constructor
  · intro h
    by_contra hs
    have hlen : b.prefixLen + 1 ≤ familyBits b.network := by
      have := host_bits_add b
      have : b.hostBits ≠ 0 := fun h0 => hs (single_iff.mpr h0)
      omega
    simp [halves, hs, IpBlock.new, hlen] at h
  · intro hs
    simp [halves, hs]

variable (h : halves b = some (low, high))
include h

theorem halves_at :
    ∃ k, b.hostBits = k + 1 ∧ low.hostBits = k ∧ high.hostBits = k ∧
      low.network.isIpv4 = b.network.isIpv4 ∧ high.network.isIpv4 = b.network.isIpv4 ∧
      toBits low.network = toBits b.network ∧ toBits high.network = toBits b.network + 2 ^ k := by
  have hs : ¬ b.isSingleAddress = true := by
    intro hs
    rw [halves_none.mpr hs] at h
    cases h
  rw [halves, if_neg hs] at h
  obtain ⟨low', hlow, h⟩ := Option.bind_eq_some_iff.mp h
  obtain ⟨high', hhigh, h⟩ := Option.bind_eq_some_iff.mp h
  obtain ⟨rfl, rfl⟩ := Prod.mk.inj (Option.some.inj h)
  obtain ⟨hlowc, hlowl⟩ := block_new_iff.mp hlow
  obtain ⟨hhighc, hhighl⟩ := block_new_iff.mp hhigh
  obtain ⟨k, hk⟩ : ∃ k, b.hostBits = k + 1 :=
    Nat.exists_eq_succ_of_ne_zero fun h0 => hs (single_iff.mpr h0)
  have hadd := host_bits_add b
  -- the upper half starts at the middle of the block
  obtain ⟨q, hq⟩ : 2 ^ (k + 1) ∣ toBits b.network := hk ▸ b.masked
  have hmid : toBits b.network ||| 2 ^ (b.maxPrefixLen - (b.prefixLen + 1)) =
      toBits b.network + 2 ^ k := by
    have hexp : b.maxPrefixLen - (b.prefixLen + 1) = k := by
      rw [max_prefix_len]
      omega
    rw [hexp, hq, Nat.two_pow_add_eq_or_of_lt (Nat.pow_lt_pow_right (by omega) (by omega))]
  have hpow : 2 ^ (k + 1) = 2 ^ k + 2 ^ k := by rw [pow_succ]; omega
  have hmidlt : toBits b.network + 2 ^ k < 2 ^ familyBits b.network := by
    have hgap := aligned_gap ⟨q, hq⟩ (pow_dvd_pow 2 (by omega)) (to_bits_lt b.network)
    have hpos := Nat.two_pow_pos k
    omega
  rw [hmid] at hhighc
  have hhalf {c : IpBlock} {a : IpAddr} (hc : c.contains a = true)
      (hlen : c.prefixLen = b.prefixLen + 1) (hfam : a.isIpv4 = b.network.isIpv4)
      (haligned : 2 ^ k ∣ toBits a) :
      c.hostBits = k ∧ c.network.isIpv4 = b.network.isIpv4 ∧ toBits c.network = toBits a := by
    obtain ⟨hf, hle, hlt⟩ := (block_contains_iff c a).mp hc
    have hcf : c.network.isIpv4 = b.network.isIpv4 := hf.symm.trans hfam
    have hbits : familyBits c.network = familyBits b.network := by simp [familyBits, hcf]
    have hck : c.hostBits = k := by
      have := host_bits_add c
      omega
    refine ⟨hck, hcf, ?_⟩
    rw [hck] at hlt
    have hmasked : 2 ^ k ∣ toBits c.network := hck ▸ c.masked
    by_contra hne
    have hgap := aligned_gap hmasked haligned (by omega)
    omega
  have hdvd : 2 ^ k ∣ toBits b.network := dvd_trans (pow_dvd_pow 2 (Nat.le_succ k)) ⟨q, hq⟩
  obtain ⟨hlk, hlf, hln⟩ := hhalf hlowc hlowl rfl hdvd
  have hhb := to_bits_from_bits b.network _ hmidlt
  obtain ⟨hhk, hhf, hhn⟩ := hhalf hhighc hhighl (by simp) (by
    rw [hhb]
    exact hdvd.add (dvd_refl _))
  exact ⟨k, hk, hlk, hhk, hlf, hhf, hln, hhn.trans hhb⟩

theorem halves_some :
    low.prefixLen = b.prefixLen + 1 ∧ high.prefixLen = b.prefixLen + 1 ∧
      ∀ ip, b.contains ip = true ↔ low.contains ip = true ∨ high.contains ip = true := by
  obtain ⟨k, hk, hlk, hhk, hlf, hhf, hln, hhn⟩ := halves_at h
  have hlen {c : IpBlock} (hf : c.network.isIpv4 = b.network.isIpv4) (hc : c.hostBits = k) :
      c.prefixLen = b.prefixLen + 1 := by
    have hbits : familyBits c.network = familyBits b.network := by simp [familyBits, hf]
    have hcadd := host_bits_add c
    have hbadd := host_bits_add b
    omega
  refine ⟨hlen hlf hlk, hlen hhf hhk, fun ip => ?_⟩
  have hpow : 2 ^ (k + 1) = 2 ^ k + 2 ^ k := by rw [pow_succ]; omega
  rw [block_contains_iff, block_contains_iff, block_contains_iff, hlf, hln, hlk, hhf, hhn, hhk, hk,
    hpow]
  constructor
  · intro hin
    obtain ⟨hf, hle, hlt⟩ := hin
    rcases Nat.lt_or_ge (toBits ip) (toBits b.network + 2 ^ k) with hcase | hcase
    · exact Or.inl ⟨hf, hle, hcase⟩
    · exact Or.inr ⟨hf, hcase, by omega⟩
  · intro hin
    rcases hin with ⟨hf, hle, hlt⟩ | ⟨hf, hle, hlt⟩
    · exact ⟨hf, hle, by omega⟩
    · exact ⟨hf, by omega, by omega⟩

theorem halves_host_bits :
    low.hostBits + 1 = b.hostBits ∧ high.hostBits + 1 = b.hostBits := by
  obtain ⟨k, hk, hlk, hhk, -⟩ := halves_at h
  omega

end

end NetRuleRouter.BlockGeometry
