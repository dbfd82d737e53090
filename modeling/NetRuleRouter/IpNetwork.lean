import NetRuleRouter.TextOps

/-!
# Addresses, networks and address ranges

A network is kept masked, so two networks are equal exactly when they name
the same addresses, and a range is read through its decomposition into
aligned blocks. Address bits are natural numbers below the family's bound;
an address of the other family is never inside a block.
-/

set_option autoImplicit false

namespace NetRuleRouter.IpNetwork

inductive IpAddr where
  | v4 (bits : BitVec 32)
  | v6 (bits : BitVec 128)
  deriving DecidableEq, Repr

def IpAddr.isIpv4 : IpAddr → Bool
  | .v4 _ => true
  | .v6 _ => false

def familyBits (address : IpAddr) : ℕ := if address.isIpv4 then 32 else 128

def toBits : IpAddr → ℕ
  | .v4 bits => bits.toNat
  | .v6 bits => bits.toNat

def fromBits (like : IpAddr) (value : ℕ) : IpAddr :=
  match like with
  | .v4 _ => .v4 (BitVec.ofNat 32 value)
  | .v6 _ => .v6 (BitVec.ofNat 128 value)

theorem to_bits_lt (a : IpAddr) : toBits a < 2 ^ familyBits a := by
  cases a with
  | v4 bits | v6 bits => exact bits.isLt

@[simp] theorem from_bits_is_ipv4 (like : IpAddr) (n : ℕ) :
    (fromBits like n).isIpv4 = like.isIpv4 := by
  cases like <;> rfl

@[simp] theorem from_bits_family (like : IpAddr) (n : ℕ) :
    familyBits (fromBits like n) = familyBits like := by
  cases like <;> rfl

theorem to_bits_from_bits_mod (like : IpAddr) (n : ℕ) :
    toBits (fromBits like n) = n % 2 ^ familyBits like := by
  cases like <;> simp [toBits, fromBits, familyBits, IpAddr.isIpv4]

theorem to_bits_from_bits (like : IpAddr) (n : ℕ) (h : n < 2 ^ familyBits like) :
    toBits (fromBits like n) = n := by
  rw [to_bits_from_bits_mod, Nat.mod_eq_of_lt h]

theorem addr_ext {a b : IpAddr} (hf : a.isIpv4 = b.isIpv4) (hb : toBits a = toBits b) : a = b := by
  cases a <;> cases b <;> simp_all [IpAddr.isIpv4, toBits, BitVec.toNat_inj]

theorem from_bits_to_bits {like a : IpAddr} (hf : a.isIpv4 = like.isIpv4) :
    fromBits like (toBits a) = a := by
  have hb : familyBits like = familyBits a := by simp [familyBits, hf]
  apply addr_ext (by simp [hf])
  exact to_bits_from_bits _ _ (hb ▸ to_bits_lt a)

structure IpBlock where
  network : IpAddr
  prefixLen : ℕ
  fits : prefixLen ≤ familyBits network
  masked : 2 ^ (familyBits network - prefixLen) ∣ toBits network
  deriving DecidableEq

def IpBlock.isIpv4 (b : IpBlock) : Bool := b.network.isIpv4

def IpBlock.hostBits (b : IpBlock) : ℕ := familyBits b.network - b.prefixLen

theorem block_ext {b c : IpBlock} (hn : b.network = c.network) (hp : b.prefixLen = c.prefixLen) :
    b = c := by
  cases b
  cases c
  simp_all

/-- The block of `k` host bits that starts at the aligned address `n`. -/
def blockAt (like : IpAddr) (n k : ℕ) (hk : k ≤ familyBits like) (hn : 2 ^ k ∣ n) : IpBlock where
  network := fromBits like n
  prefixLen := familyBits like - k
  fits := by simp
  masked := by
    rw [from_bits_family, to_bits_from_bits_mod, Nat.sub_sub_self hk]
    exact (Nat.dvd_mod_iff (pow_dvd_pow 2 hk)).mpr hn

/-- Masks `address` to `prefixLen`; refused for a prefix longer than the
family allows. -/
def IpBlock.new (address : IpAddr) (prefixLen : ℕ) : Option IpBlock :=
  if prefixLen ≤ familyBits address then
    some (blockAt address
      (toBits address / 2 ^ (familyBits address - prefixLen) *
        2 ^ (familyBits address - prefixLen))
      (familyBits address - prefixLen) (Nat.sub_le _ _) (Nat.dvd_mul_left _ _))
  else none

def IpBlock.maxPrefixLen (b : IpBlock) : ℕ := if b.isIpv4 then 32 else 128

def IpBlock.isSingleAddress (b : IpBlock) : Bool := b.prefixLen == b.maxPrefixLen

def IpBlock.contains (b : IpBlock) (address : IpAddr) : Bool :=
  address.isIpv4 == b.isIpv4 && IpBlock.new address b.prefixLen == some b

def IpBlock.last (b : IpBlock) : IpAddr :=
  fromBits b.network (toBits b.network ||| (2 ^ b.hostBits - 1))

def IpBlock.covers (b other : IpBlock) : Bool :=
  b.prefixLen ≤ other.prefixLen && b.contains other.network

def IpBlock.overlaps (b other : IpBlock) : Bool := b.covers other || other.covers b

theorem masked_lt (a : IpAddr) (k : ℕ) : toBits a / 2 ^ k * 2 ^ k < 2 ^ familyBits a :=
  lt_of_le_of_lt (Nat.div_mul_le_self _ _) (to_bits_lt a)

theorem block_new_self (b : IpBlock) : IpBlock.new b.network b.prefixLen = some b := by
  rw [IpBlock.new, if_pos b.fits, Option.some.injEq]
  apply block_ext
  · simp only [blockAt]
    rw [Nat.div_mul_cancel b.masked]
    exact from_bits_to_bits rfl
  · exact Nat.sub_sub_self b.fits

theorem block_contains_iff (b : IpBlock) (a : IpAddr) :
    b.contains a = true ↔ a.isIpv4 = b.network.isIpv4 ∧
      toBits b.network ≤ toBits a ∧ toBits a < toBits b.network + 2 ^ b.hostBits := by
  by_cases hf : a.isIpv4 = b.network.isIpv4
  swap
  · simp [IpBlock.contains, IpBlock.isIpv4, hf]
  have hb : familyBits a = familyBits b.network := by simp [familyBits, hf]
  have hfit : b.prefixLen ≤ familyBits a := hb ▸ b.fits
  have hpos : 0 < 2 ^ b.hostBits := Nat.two_pow_pos _
  have key : IpBlock.new a b.prefixLen = some b ↔
      toBits a / 2 ^ b.hostBits * 2 ^ b.hostBits = toBits b.network := by
    have hh : familyBits a - b.prefixLen = b.hostBits := by rw [hb]; rfl
    rw [IpBlock.new, if_pos hfit, Option.some.injEq]
    constructor
    · intro h
      rw [← congrArg (fun c => toBits c.network) h]
      simp only [blockAt, hh]
      rw [to_bits_from_bits _ _ (masked_lt a _)]
    · intro h
      apply block_ext
      · simp only [blockAt, hh, h]
        apply addr_ext (by simp [hf])
        rw [to_bits_from_bits]
        exact hb ▸ to_bits_lt b.network
      · exact Nat.sub_sub_self hfit
  obtain ⟨q, hq⟩ : 2 ^ b.hostBits ∣ toBits b.network := b.masked
  simp only [IpBlock.contains, IpBlock.isIpv4, hf, beq_self_eq_true, Bool.true_and, beq_iff_eq,
    key, true_and, hq]
  rw [mul_comm _ q]
  constructor
  · intro h
    have hd := Nat.div_mul_le_self (toBits a) (2 ^ b.hostBits)
    have hl := Nat.lt_div_mul_add hpos (a := toBits a)
    omega
  · rintro ⟨h1, h2⟩
    congr 1
    apply Nat.div_eq_of_lt_le
    · exact h1
    · rw [Nat.succ_mul]
      exact h2

/-- Host bits of the largest aligned block that starts at `cur` and ends no
later than `last`. -/
def sizeBits (bits cur last : ℕ) : ℕ :=
  min (Nat.findGreatest (fun k => 2 ^ k ∣ cur) bits) (Nat.log2 (last - cur + 1))

theorem size_bits_le (bits cur last : ℕ) : sizeBits bits cur last ≤ bits :=
  (Nat.min_le_left _ _).trans (Nat.findGreatest_le bits)

theorem size_bits_dvd (bits cur last : ℕ) : 2 ^ sizeBits bits cur last ∣ cur := by
  have h : 2 ^ Nat.findGreatest (fun k => 2 ^ k ∣ cur) bits ∣ cur :=
    Nat.findGreatest_spec (P := fun k => 2 ^ k ∣ cur) (Nat.zero_le bits) (by simp)
  exact (pow_dvd_pow 2 (Nat.min_le_left _ _)).trans h

/-- The blocks from `cur` to `last`, ascending. The fuel bounds the number of
addresses left, and every block takes at least one of them. -/
def decomposeFrom (like : IpAddr) (last : ℕ) : ℕ → ℕ → List IpBlock
  | 0, _ => []
  | fuel + 1, cur =>
    blockAt like cur (sizeBits (familyBits like) cur last) (size_bits_le _ _ _) (size_bits_dvd _ _ _)
      :: if last ≤ cur + (2 ^ sizeBits (familyBits like) cur last - 1) then []
         else decomposeFrom like last fuel (cur + 2 ^ sizeBits (familyBits like) cur last)

def decompose (first last : IpAddr) : List IpBlock :=
  decomposeFrom first (toBits last) (toBits last - toBits first + 1) (toBits first)

structure IpRange where
  first : IpAddr
  last : IpAddr
  family : first.isIpv4 = last.isIpv4
  ordered : toBits first ≤ toBits last
  deriving DecidableEq

def IpRange.blocks (r : IpRange) : List IpBlock := decompose r.first r.last

def IpRange.new (first last : IpAddr) : Option IpRange :=
  if h : first.isIpv4 = last.isIpv4 ∧ toBits first ≤ toBits last then
    some ⟨first, last, h.1, h.2⟩
  else none

theorem range_new_self (r : IpRange) : IpRange.new r.first r.last = some r := by
  simp [IpRange.new, r.family, r.ordered]

theorem block_at_contains (like a : IpAddr) (n k : ℕ) (hk : k ≤ familyBits like) (hn : 2 ^ k ∣ n)
    (hlt : n < 2 ^ familyBits like) :
    (blockAt like n k hk hn).contains a = true ↔
      a.isIpv4 = like.isIpv4 ∧ n ≤ toBits a ∧ toBits a < n + 2 ^ k := by
  have hh : (blockAt like n k hk hn).hostBits = k := by
    simp only [IpBlock.hostBits, blockAt, from_bits_family]
    omega
  rw [block_contains_iff, hh]
  simp only [blockAt, from_bits_is_ipv4, to_bits_from_bits like n hlt]

end NetRuleRouter.IpNetwork
