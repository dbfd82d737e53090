import NetRuleRouter.CarvedNetworks

/-!
# Weighing filters and packing address sets into them

The filter of the highest weight decides. A rule's filters are weighed from
the base of its band by the rule's position and the filter's place in the
rule; some bases lie inside the width the positions may take. A filter can
hold a set of addresses: they are hashed into slots, and each slot is sorted
and cut into chunks of a bounded size.
-/

set_option autoImplicit false

namespace NetRuleRouter.FilterPacking
open TextOps Numerals Sorting IpNetwork Canonical CarvedNetworks

def baseSecondary : ℕ := 0x00100000

def catchallBlockWeight : ℕ := 0x00180000

def appKillswitchBlockBase : ℕ := 0x001C0000

def basePrimary : ℕ := 0x00200000

def dohBlockBase : ℕ := 0x00280000

def baseBlock : ℕ := 0x00700000

def bandWidth : ℕ := 0x00100000

def maxRuleSlot : ℕ := bandWidth / slotsPerRule - 1

def ruleWeight (base pos fanoutIdx : ℕ) : ℕ :=
  base + min pos maxRuleSlot * slotsPerRule + min fanoutIdx (slotsPerRule - 1)

def roleBase : RouteRole → ℕ
  | .primary => basePrimary
  | .secondary => baseSecondary

/-- The positions of a set whose filters stay in the lower half of the band. -/
def halfBandSlots : ℕ := bandWidth / 2 / slotsPerRule

theorem rule_weight_ge (base pos idx : ℕ) : base ≤ ruleWeight base pos idx := by
  unfold ruleWeight
  omega

theorem rule_weight_lt_half_iff (base pos idx : ℕ) :
    ruleWeight base pos idx < base + bandWidth / 2 ↔ pos < halfBandSlots := by
  have hslots : slotsPerRule = 256 := rfl
  have hmax : maxRuleSlot = 4095 := rfl
  have hhalf : bandWidth / 2 = 524288 := rfl
  have hpos : halfBandSlots = 2048 := rfl
  unfold ruleWeight
  rw [hslots, hmax, hhalf, hpos]
  omega

theorem catchall_half : catchallBlockWeight = baseSecondary + bandWidth / 2 := rfl

theorem doh_half : dohBlockBase = basePrimary + bandWidth / 2 := rfl

def slotCount : ℕ := 16

def setMaxConditions : ℕ := 64

def fnvOffset : UInt64 := 0xcbf29ce484222325

def fnvPrime : UInt64 := 0x100000001b3

def fnv1a (bytes : List UInt8) (seed : UInt64) : UInt64 :=
  bytes.foldl (fun hash b => (hash ^^^ b.toUInt64) * fnvPrime) seed

def slotOctets {w : ℕ} (ip : BitVec w) : List UInt8 :=
  (List.range (w / 8)).reverse.map fun i => UInt8.ofNat (ip.toNat / 2 ^ (8 * i))

def slotOf {w : ℕ} (ip : BitVec w) : ℕ := (fnv1a (slotOctets ip) fnvOffset).toNat % slotCount

structure SlotChunk (w : ℕ) where
  slot : ℕ
  part : ℕ
  members : List (BitVec w)
  digest : UInt64
  deriving DecidableEq

def SlotChunk.idSeg {w : ℕ} (c : SlotChunk w) : Text :=
  "set-s".toList ++ paddedNumeral 2 10 c.slot ++ "-p".toList ++ paddedNumeral 2 10 c.part ++
    '-' :: paddedNumeral 16 16 c.digest.toNat

/-- Cuts a list into parts of `size`, the last one shorter; the fuel bounds the parts. -/
def partsOf {α : Type*} (size : ℕ) : ℕ → List α → List (List α)
  | 0, _ => []
  | _, [] => []
  | fuel + 1, x :: xs => (x :: xs).take size :: partsOf size fuel ((x :: xs).drop size)

def chunksOf {α : Type*} (size : ℕ) (xs : List α) : List (List α) := partsOf size xs.length xs

/-- The chunks of one slot; the number of a part is kept in sixteen bits. -/
def slotChunks {w : ℕ} (ips : List (BitVec w)) (slot : ℕ) : List (SlotChunk w) :=
  let members := (sortBy (compareOn BitVec.toNat) (ips.filter fun ip => slotOf ip == slot)).dedup
  (chunksOf setMaxConditions members).zipIdx.map fun e =>
    ⟨slot, e.2 % 2 ^ 16, e.1, fnv1a (e.1.flatMap slotOctets) fnvOffset⟩

def pack {w : ℕ} (ips : List (BitVec w)) : List (SlotChunk w) :=
  (List.range slotCount).flatMap (slotChunks ips)

inductive FamilyChunk where
  | v4 (chunk : SlotChunk 32)
  | v6 (chunk : SlotChunk 128)
  deriving DecidableEq

def FamilyChunk.idSeg : FamilyChunk → Text
  | .v4 chunk => chunk.idSeg
  | .v6 chunk => "v6-".toList ++ chunk.idSeg

def v4Bits : IpAddr → Option (BitVec 32)
  | .v4 bits => some bits
  | .v6 _ => none

def v6Bits : IpAddr → Option (BitVec 128)
  | .v4 _ => none
  | .v6 bits => some bits

def packBoth (ips : List IpAddr) : List FamilyChunk :=
  (pack (ips.filterMap v4Bits)).map .v4 ++ (pack (ips.filterMap v6Bits)).map .v6

end NetRuleRouter.FilterPacking
