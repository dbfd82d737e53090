import NetRuleRouter.IpNetwork
import Mathlib.Data.Prod.Lex
import NetRuleRouter.Lookups

/-!
# The fake-address pool and its hostnames

A binding is an index into the pool, and both of its addresses are derived
from that index by wrapping addition; the network address, the adapter's own
and the broadcast address are no host's. The allocator keeps two maps, the
ages of the bindings, the indices given back and the first index never dealt.
Every call is a function of the state and of the clock readings it takes.
-/

set_option autoImplicit false

namespace NetRuleRouter.FakeIpAllocator
open TextOps IpNetwork Lookups

def fakeIpGatewayIndex : ℕ := 1

def fakeIpFirstHostIndex : ℕ := 2

structure FakeIpPoolConfig where
  v4Base : BitVec 32
  v4PrefixLen : ℕ
  v6Base : Option (BitVec 128)
  v6PrefixLen : ℕ
  deriving DecidableEq, Repr

def defaultPool : FakeIpPoolConfig where
  v4Base := 0xC6120000#32
  v4PrefixLen := 15
  v6Base := some 0xFC000000000000000000000000000000#128
  v6PrefixLen := 18

namespace FakeIpPoolConfig

def v4AddressCount (c : FakeIpPoolConfig) : ℕ :=
  let hostBits := 32 - c.v4PrefixLen
  if 32 ≤ hostBits then 2 ^ 32 - 1 else 2 ^ hostBits

def capacity (c : FakeIpPoolConfig) : ℕ := c.v4AddressCount - fakeIpFirstHostIndex - 1

def lastHostIndex (c : FakeIpPoolConfig) : ℕ := max (c.v4AddressCount - 2) fakeIpFirstHostIndex

def v4At (c : FakeIpPoolConfig) (index : ℕ) : BitVec 32 := c.v4Base + BitVec.ofNat 32 index

def v6At (c : FakeIpPoolConfig) (index : ℕ) : Option (BitVec 128) :=
  c.v6Base.map fun base => base + BitVec.ofNat 128 index

def gatewayV4 (c : FakeIpPoolConfig) : BitVec 32 := c.v4At fakeIpGatewayIndex

def gatewayV6 (c : FakeIpPoolConfig) : Option (BitVec 128) := c.v6At fakeIpGatewayIndex

def v4Range (c : FakeIpPoolConfig) : BitVec 32 × BitVec 32 :=
  (c.v4Base, c.v4Base + BitVec.ofNat 32 (c.v4AddressCount - 1))

end FakeIpPoolConfig

def prefixMaskV4 (prefixLen : ℕ) : BitVec 32 :=
  if prefixLen = 0 then 0 else BitVec.allOnes 32 <<< min (32 - prefixLen) 31

def prefixMaskV6 (prefixLen : ℕ) : BitVec 128 :=
  if prefixLen = 0 then 0 else BitVec.allOnes 128 <<< min (128 - prefixLen) 127

namespace FakeIpPoolConfig

def contains (c : FakeIpPoolConfig) : IpAddr → Bool
  | .v4 bits => bits &&& prefixMaskV4 c.v4PrefixLen == c.v4Base &&& prefixMaskV4 c.v4PrefixLen
  | .v6 bits =>
    match c.v6Base with
    | some base => bits &&& prefixMaskV6 c.v6PrefixLen == base &&& prefixMaskV6 c.v6PrefixLen
    | none => false

def indexOf (c : FakeIpPoolConfig) (addr : IpAddr) : Option ℕ :=
  if c.contains addr then
    match addr with
    | .v4 bits => some (bits - c.v4Base).toNat
    | .v6 bits => c.v6Base.bind fun base =>
        let offset := (bits - base).toNat
        if offset < 2 ^ 32 then some offset else none
  else none

end FakeIpPoolConfig

def addressesAt (c : FakeIpPoolConfig) (index : ℕ) : List IpAddr :=
  .v4 (c.v4At index) :: ((c.v6At index).map IpAddr.v6).toList

section
variable {i j : ℕ} {a : BitVec 128}

section Indices

variable (c : FakeIpPoolConfig)

theorem address_count_lt : c.v4AddressCount < 2 ^ 32 + 1 := by
  unfold FakeIpPoolConfig.v4AddressCount
  dsimp only
  split
  · omega
  · have := Nat.pow_le_pow_right (n := 2) (by omega) (show 32 - c.v4PrefixLen ≤ 32 by omega)
    omega

theorem last_host_index_lt : c.lastHostIndex < 2 ^ 32 - 1 := by
  have := address_count_lt c
  unfold FakeIpPoolConfig.lastHostIndex fakeIpFirstHostIndex
  omega

theorem four_le_address_count (h : c.v4PrefixLen ≤ 30) : 4 ≤ c.v4AddressCount := by
  unfold FakeIpPoolConfig.v4AddressCount
  dsimp only
  split
  · omega
  · have := Nat.pow_le_pow_right (n := 2) (by omega) (show 2 ≤ 32 - c.v4PrefixLen by omega)
    omega

theorem host_indices_card (h : c.v4PrefixLen ≤ 30) :
    c.lastHostIndex + 1 - fakeIpFirstHostIndex = c.capacity := by
  have := four_le_address_count c h
  unfold FakeIpPoolConfig.lastHostIndex FakeIpPoolConfig.capacity fakeIpFirstHostIndex
  omega

theorem v4_at_inj (hi : i < 2 ^ 32) (hj : j < 2 ^ 32) (h : c.v4At i = c.v4At j) : i = j := by
  have hofs : BitVec.ofNat 32 i = BitVec.ofNat 32 j := by
    simpa [FakeIpPoolConfig.v4At] using h
  have := congrArg BitVec.toNat hofs
  rw [BitVec.toNat_ofNat, BitVec.toNat_ofNat, Nat.mod_eq_of_lt hi, Nat.mod_eq_of_lt hj] at this
  exact this

theorem v6_at_inj (hi : i < 2 ^ 32) (hj : j < 2 ^ 32) (h : c.v6At i = some a)
    (h' : c.v6At j = some a) : i = j := by
  unfold FakeIpPoolConfig.v6At at h h'
  cases hb : c.v6Base with
  | none => simp [hb] at h
  | some base =>
    simp only [hb, Option.map_some, Option.some.injEq] at h h'
    have hofs : BitVec.ofNat 128 i = BitVec.ofNat 128 j := by
      simpa using h.trans h'.symm
    have := congrArg BitVec.toNat hofs
    rw [BitVec.toNat_ofNat, BitVec.toNat_ofNat, Nat.mod_eq_of_lt (by omega),
      Nat.mod_eq_of_lt (by omega)] at this
    exact this

theorem addresses_at_inj (hi : i < 2 ^ 32) (hj : j < 2 ^ 32) {a : IpAddr}
    (ha : a ∈ addressesAt c i) (ha' : a ∈ addressesAt c j) : i = j := by
  simp only [addressesAt, List.mem_cons, Option.mem_toList, Option.map_eq_some_iff] at ha ha'
  rcases ha with rfl | ⟨b, hb, rfl⟩
  · rcases ha' with h | ⟨b, -, h⟩
    · exact v4_at_inj c hi hj (IpAddr.v4.inj h)
    · cases h
  · rcases ha' with h | ⟨b', hb', h⟩
    · cases h
    · cases h
      exact v6_at_inj c hi hj hb hb'

theorem index_of_address (hi : i < 2 ^ 32) {a : IpAddr} (ha : a ∈ addressesAt c i)
    (hc : c.contains a = true) : c.indexOf a = some i := by
  simp only [addressesAt, List.mem_cons, Option.mem_toList, Option.map_eq_some_iff] at ha
  unfold FakeIpPoolConfig.indexOf
  rw [if_pos hc]
  rcases ha with rfl | ⟨b, hb, rfl⟩
  · have hofs : (c.v4At i - c.v4Base).toNat = i := by
      rw [FakeIpPoolConfig.v4At, BitVec.add_comm, BitVec.add_sub_cancel, BitVec.toNat_ofNat,
        Nat.mod_eq_of_lt hi]
    exact congrArg some hofs
  · unfold FakeIpPoolConfig.v6At at hb
    cases hbase : c.v6Base with
    | none => simp [hbase] at hb
    | some base =>
      have hb' : base + BitVec.ofNat 128 i = b := by simpa [hbase] using hb
      have hofs : (b - base).toNat = i := by
        rw [← hb', BitVec.add_comm, BitVec.add_sub_cancel, BitVec.toNat_ofNat,
          Nat.mod_eq_of_lt (by omega)]
      simp only [Option.bind_some, hofs, if_pos hi]

theorem host_index_not_reserved (h2 : fakeIpFirstHostIndex ≤ i) (hlast : i ≤ c.lastHostIndex)
    (hp : c.v4PrefixLen ≤ 30) :
    c.v4At i ≠ c.v4Base ∧ c.v4At i ≠ c.gatewayV4 ∧ c.v4At i ≠ c.v4Range.2 := by
  have hfour := four_le_address_count c hp
  have hcount := address_count_lt c
  have hlt := last_host_index_lt c
  unfold fakeIpFirstHostIndex at h2
  have hlast' : i ≤ c.v4AddressCount - 2 := by
    unfold FakeIpPoolConfig.lastHostIndex fakeIpFirstHostIndex at hlast
    omega
  refine ⟨fun h => ?_, fun h => ?_, fun h => ?_⟩
  · have := v4_at_inj c (i := i) (j := 0) (by omega) (by omega)
      (by rw [h]; simp [FakeIpPoolConfig.v4At])
    omega
  · have := v4_at_inj c (i := i) (j := fakeIpGatewayIndex) (by omega) (by decide) h
    unfold fakeIpGatewayIndex at this
    omega
  · have := v4_at_inj c (i := i) (j := c.v4AddressCount - 1) (by omega) (by omega) h
    omega

theorem host_index_not_reserved_v6 (h2 : fakeIpFirstHostIndex ≤ i) (hlast : i ≤ c.lastHostIndex)
    (ha : c.v6At i = some a) : c.v6Base ≠ some a ∧ c.gatewayV6 ≠ some a := by
  have hlt := last_host_index_lt c
  unfold fakeIpFirstHostIndex at h2
  constructor
  · intro h
    have := v6_at_inj c (i := i) (j := 0) (by omega) (by omega) ha
      (by simp [FakeIpPoolConfig.v6At, h])
    omega
  · intro h
    have := v6_at_inj c (i := i) (j := fakeIpGatewayIndex) (by omega) (by decide) ha h
    unfold fakeIpGatewayIndex at this
    omega

end Indices

end

def normalizeHostname (hostname : Text) : Text :=
  toAsciiLowercase ((trim hostname).rdropWhile (· == '.'))

structure Slot where
  domain : Text
  lastUsed : ℕ
  touched : ℕ
  deriving DecidableEq, Repr

structure FakeIpBinding where
  index : ℕ
  v4 : BitVec 32
  v6 : Option (BitVec 128)
  deriving DecidableEq, Repr

inductive FakeIpError where
  | emptyDomain
  | poolExhausted
  deriving DecidableEq, Repr

inductive BindingChange where
  | bound (domain : Text) (index : ℕ)
  | released (index : ℕ)
  deriving DecidableEq, Repr

structure Allocator where
  config : FakeIpPoolConfig
  byDomain : Map Text ℕ
  byIndex : Map ℕ Slot
  /-- The next index never used. -/
  cursor : ℕ
  /-- Indices given back, the last one first to be used again. -/
  freed : List ℕ
  /-- The use count and the index of every binding. -/
  byAge : Finset (ℕ ×ₗ ℕ)
  minRecycleIdle : ℕ
  tick : ℕ

def u32Max : ℕ := 2 ^ 32 - 1

def u64Max : ℕ := 2 ^ 64 - 1

def recycleMinIdle : ℕ := 10 * 60

def new (config : FakeIpPoolConfig) : Allocator where
  config := config
  byDomain := ∅
  byIndex := ∅
  cursor := fakeIpFirstHostIndex
  freed := []
  byAge := ∅
  minRecycleIdle := recycleMinIdle
  tick := 0

def withMinRecycleIdle (s : Allocator) (idle : ℕ) : Allocator := { s with minRecycleIdle := idle }

def nextTick (s : Allocator) : ℕ := min (s.tick + 1) u64Max

def touch (s : Allocator) (index now : ℕ) : Allocator :=
  match s.byIndex.lookup index with
  | some slot =>
    { s with
      tick := nextTick s
      byIndex := s.byIndex.insert index { slot with lastUsed := nextTick s, touched := now }
      byAge := insert (toLex (nextTick s, index))
        (s.byAge.erase (toLex (slot.lastUsed, index))) }
  | none => { s with tick := nextTick s }

def insertSlot (s : Allocator) (index : ℕ) (domain : Text) (now : ℕ) : Allocator :=
  { s with
    tick := nextTick s
    byIndex := s.byIndex.insert index ⟨domain, nextTick s, now⟩
    byAge := insert (toLex (nextTick s, index)) s.byAge }

def seat (s : Allocator) (key : Text) (index now : ℕ) : Allocator :=
  { insertSlot s index key now with byDomain := s.byDomain.insert key index }

def skipsRow (s : Allocator) (domain : Text) (index : ℕ) : Bool :=
  normalizeHostname domain == [] || decide (index < fakeIpFirstHostIndex) ||
    decide (s.config.lastHostIndex < index) || decide (index ∈ s.byIndex) ||
    decide (normalizeHostname domain ∈ s.byDomain)

def restoreRow (s : Allocator) (domain : Text) (index now : ℕ) : Allocator :=
  if skipsRow s domain index then s else seat s (normalizeHostname domain) index now

def restoreRows (s : Allocator) : List (Text × ℕ × ℕ) → Allocator
  | [] => s
  | (domain, index, now) :: rows => restoreRows (restoreRow s domain index now) rows

def refill (s : Allocator) : Allocator :=
  match greatest s.byIndex.keys with
  | some top =>
    let cursor := max (min (top + 1) u32Max) s.cursor
    { s with
      cursor := cursor
      freed := (List.range' fakeIpFirstHostIndex (cursor - fakeIpFirstHostIndex)).filter
        (· ∉ s.byIndex) }
  | none => s

def restore (s : Allocator) (rows : List (Text × ℕ × ℕ)) : Allocator := refill (restoreRows s rows)

def bindingAt (s : Allocator) (index : ℕ) : FakeIpBinding :=
  ⟨index, s.config.v4At index, s.config.v6At index⟩

def takeIndex (s : Allocator) (now : ℕ) : Allocator × Except FakeIpError ℕ :=
  match s.freed.getLast? with
  | some index => ({ s with freed := s.freed.dropLast }, .ok index)
  | none =>
    if s.cursor ≤ s.config.lastHostIndex ∧ 0 < s.config.capacity then
      ({ s with cursor := min (s.cursor + 1) u32Max }, .ok s.cursor)
    else
      match least s.byAge with
      | none => (s, .error .poolExhausted)
      | some oldest =>
        match s.byIndex.lookup (ofLex oldest).2 with
        | none => ({ s with byAge := s.byAge.erase oldest }, .error .poolExhausted)
        | some slot =>
          -- The elapsed time of a reading before the slot's is zero.
          if now - slot.touched < s.minRecycleIdle then (s, .error .poolExhausted)
          else
            ({ s with
                byAge := s.byAge.erase oldest
                byDomain := s.byDomain.erase slot.domain
                byIndex := s.byIndex.erase (ofLex oldest).2 }, .ok (ofLex oldest).2)

/-- `checked` is the clock when idleness is decided, `now` when the slot is marked. -/
def allocate (s : Allocator) (domain : Text) (checked now : ℕ) :
    Allocator × List BindingChange × Except FakeIpError FakeIpBinding :=
  let key := normalizeHostname domain
  if key = [] then (s, [], .error .emptyDomain)
  else
    match s.byDomain.lookup key with
    | some index => (touch s index now, [], .ok (bindingAt s index))
    | none =>
      match takeIndex s checked with
      | (taken, .error e) => (taken, [], .error e)
      | (taken, .ok index) =>
        (seat taken key index now, [.bound key index], .ok (bindingAt s index))

def bindingForDomain (s : Allocator) (domain : Text) : Option FakeIpBinding :=
  (s.byDomain.lookup (normalizeHostname domain)).map (bindingAt s)

def domainForIp (s : Allocator) (addr : IpAddr) (now : ℕ) : Allocator × Option Text :=
  match s.config.indexOf addr with
  | none => (s, none)
  | some index =>
    (touch s index now, ((touch s index now).byIndex.lookup index).map Slot.domain)

def releaseKey (s : Allocator) (key : Text) : Allocator × List BindingChange × Bool :=
  match s.byDomain.lookup key with
  | some index =>
    let named := { s with byDomain := s.byDomain.erase key }
    let freed :=
      match s.byIndex.lookup index with
      | some slot =>
        { named with
          byIndex := s.byIndex.erase index
          byAge := s.byAge.erase (toLex (slot.lastUsed, index)) }
      | none => named
    ({ freed with freed := s.freed ++ [index] }, [.released index], true)
  | none => (s, [], false)

def release (s : Allocator) (domain : Text) : Allocator × List BindingChange × Bool :=
  releaseKey s (normalizeHostname domain)

def releaseIfUntouched (s : Allocator) (domain : Text) (order : ℕ) :
    Allocator × List BindingChange × Bool :=
  let key := normalizeHostname domain
  let untouched := ((s.byDomain.lookup key).bind s.byIndex.lookup).any (·.lastUsed == order)
  if untouched then release s key else (s, [], false)

def touchAddress (s : Allocator) (addr : IpAddr) (now : ℕ) : Allocator × Bool :=
  match s.config.indexOf addr with
  | none => (s, false)
  | some index => if index ∈ s.byIndex then (touch s index now, true) else (s, false)

def clear (s : Allocator) : Allocator :=
  { s with
    byDomain := ∅, byIndex := ∅, byAge := ∅, freed := [], cursor := fakeIpFirstHostIndex }

inductive Call where
  | allocate (domain : Text) (checked now : ℕ)
  | release (domain : Text)
  | releaseIfUntouched (domain : Text) (order : ℕ)
  | restore (rows : List (Text × ℕ × ℕ))
  | domainForIp (addr : IpAddr) (now : ℕ)
  | touchAddress (addr : IpAddr) (now : ℕ)
  | clear

def step (s : Allocator) : Call → Allocator × List BindingChange
  | .allocate domain checked now =>
    ((allocate s domain checked now).1, (allocate s domain checked now).2.1)
  | .release domain => ((release s domain).1, (release s domain).2.1)
  | .releaseIfUntouched domain order =>
    ((releaseIfUntouched s domain order).1, (releaseIfUntouched s domain order).2.1)
  | .restore rows => (restore s rows, [])
  | .domainForIp addr now => ((domainForIp s addr now).1, [])
  | .touchAddress addr now => ((touchAddress s addr now).1, [])
  | .clear => (clear s, [])

def run (s : Allocator) : List Call → Allocator
  | [] => s
  | c :: calls => run (step s c).1 calls

theorem run_append (s : Allocator) (calls later : List Call) :
    run s (calls ++ later) = run (run s calls) later := by
  induction calls generalizing s with
  | nil => rfl
  | cons c calls ih => exact ih (step s c).1

end NetRuleRouter.FakeIpAllocator
