import NetRuleRouter.CarvedNetworks
import NetRuleRouter.RoutedNetworks

/-!
# The networks Fail-Closed holds

Of the additional link's networks those no other one covers may be held. Inside
them the main link's named addresses and networks and the never-blocked
networks are cut out, a main network around the narrower additional ones and
the pinned addresses. A held address is then one whose narrowest network is
the additional link's.
-/

set_option autoImplicit false

namespace NetRuleRouter.FailClosedHolds
open Sorting IpNetwork IpText LongestPrefix BlockGeometry Bisection CarvedNetworks
open NetworkRoutes

def networkHoldMax : ℕ := 0xF000

def networkCutOutMax : ℕ := 0x10000

structure NetworkHoldInput where
  additionalNetworks : List IpBlock
  mainNetworks : List IpBlock
  /-- Every address a main-link rule names. -/
  mainAddresses : List IpAddr
  /-- Additional-link addresses a main cut-out must not reopen. -/
  pinned : List IpAddr
  neverBlock : List IpBlock

structure NetworkHolds where
  held : List IpBlock
  cutOuts : List IpBlock
  tooWide : List IpBlock
  spared : List IpBlock
  overCap : List IpBlock
  deriving DecidableEq

def canonicalSet (blocks : List IpBlock) : List IpBlock := blockSet (blocks.map canonicalBlock)

def singleAddress (ip : IpAddr) : Option IpBlock := hostBlock (canonicalIp ip)

def sweep (last : Option IpBlock) : List IpBlock → List IpBlock
  | [] => []
  | block :: rest =>
    if last.any fun kept => kept.covers block then sweep last rest
    else block :: sweep (some block) rest

def withoutCovered (blocks : List IpBlock) : List IpBlock := sweep none (blockSet blocks)

/-- `block` without `holes`. The fuel bounds the splits left, one for each host bit. -/
def subtractFrom (fuel : ℕ) (block : IpBlock) (holes : List IpBlock) : List IpBlock :=
  if holes.any fun hole => hole.covers block then []
  else if holes.any fun hole => block.covers hole then
    match fuel, halves block with
    | fuel + 1, some (low, high) => subtractFrom fuel low holes ++ subtractFrom fuel high holes
    | _, _ => []
  else [block]

def subtract (block : IpBlock) (holes : List IpBlock) : List IpBlock :=
  subtractFrom block.hostBits block holes

namespace NetworkHoldInput

variable (input : NetworkHoldInput)

def keptOpen : List IpBlock := canonicalSet input.neverBlock

def main : List IpBlock := canonicalSet input.mainNetworks

def spares (net : IpBlock) : Bool :=
  (reservedOverlap net).isSome || touchesLinkLocal net || input.main.contains net ||
    input.keptOpen.any fun keep => keep.covers net

def eligible : List IpBlock :=
  (canonicalSet input.additionalNetworks).filter fun net =>
    !widerThanFailClosed net && !input.spares net

def additionalItems : List IpBlock := input.eligible ++ input.pinned.filterMap singleAddress

def maximal : List IpBlock :=
  input.eligible.filter fun net =>
    !input.eligible.any fun other => other != net && other.covers net

def mainSingles : List IpBlock := sortBy blockOrder (input.mainAddresses.filterMap singleAddress)

/-- A main network without the narrower items of the additional link inside it. -/
def reopened (net : IpBlock) : List IpBlock :=
  subtract net (input.additionalItems.filter fun item =>
    net.prefixLen < item.prefixLen && net.covers item)

def cutsIn (hold : IpBlock) : List IpBlock :=
  withoutCovered
    (input.keptOpen.filter (fun keep => hold.covers keep) ++
      (input.mainSingles.dropWhile fun a => (addrOrder a.network hold.network).isLT).takeWhile
        (fun a => (addrOrder a.network hold.last).isLE) ++
      (input.main.filter fun net => hold.covers net).flatMap input.reopened)

end NetworkHoldInput

/-- Each hold with its cut-outs, unless one of the caps would be passed. -/
def armHolds (cuts : IpBlock → List IpBlock) : List IpBlock → NetworkHolds → NetworkHolds
  | [], out => out
  | hold :: rest, out =>
    if networkHoldMax ≤ out.held.length ∨
        networkCutOutMax < out.cutOuts.length + (cuts hold).length then
      armHolds cuts rest { out with overCap := out.overCap ++ [hold] }
    else
      armHolds cuts rest
        { out with held := out.held ++ [hold], cutOuts := out.cutOuts ++ cuts hold }

def NetworkHolds.compute (input : NetworkHoldInput) : NetworkHolds :=
  let additional := canonicalSet input.additionalNetworks
  let armed := armHolds input.cutsIn input.maximal
    { held := []
      cutOuts := []
      tooWide := additional.filter widerThanFailClosed
      spared := additional.filter fun net => !widerThanFailClosed net && input.spares net
      overCap := [] }
  { armed with cutOuts := sortBy blockOrder armed.cutOuts }

def Covered (blocks : List IpBlock) (ip : IpAddr) : Prop := ∃ b ∈ blocks, b.contains ip = true

theorem covered_append {xs ys : List IpBlock} {ip : IpAddr} :
    Covered (xs ++ ys) ip ↔ Covered xs ip ∨ Covered ys ip := by
  simp only [Covered, List.mem_append, or_and_right, exists_or]

theorem sweep_covered (blocks : List IpBlock) (last : Option IpBlock) (ip : IpAddr) :
    (Covered (sweep last blocks) ip ∨ Covered last.toList ip) ↔
      (Covered blocks ip ∨ Covered last.toList ip) := by
  induction blocks generalizing last with
  | nil => rfl
  | cons block rest ih =>
    have hcons : Covered (block :: rest) ip ↔ block.contains ip = true ∨ Covered rest ip := by
      simp [Covered]
    rw [sweep, hcons]
    split
    · rename_i hcov
      obtain ⟨kept, rfl, hkept⟩ : ∃ kept, last = some kept ∧ kept.covers block = true := by
        cases last <;> simp_all
      have hin : block.contains ip = true → Covered (some kept).toList ip := by
        intro hb
        exact ⟨kept, by simp, contains_of_covers hkept hb⟩
      rw [ih]
      tauto
    · have hrest := ih (some block)
      have hsome : Covered (some block).toList ip ↔ block.contains ip = true := by
        simp [Covered]
      have hout : Covered (block :: sweep (some block) rest) ip ↔
          block.contains ip = true ∨ Covered (sweep (some block) rest) ip := by
        simp [Covered]
      rw [hsome] at hrest
      rw [hout, or_comm.trans (hrest.trans or_comm)]

theorem mem_block_set {blocks : List IpBlock} {b : IpBlock} : b ∈ blockSet blocks ↔ b ∈ blocks := by
  simp [blockSet]

theorem without_covered_covered (blocks : List IpBlock) (ip : IpAddr) :
    Covered (withoutCovered blocks) ip ↔ Covered blocks ip := by
  have h := sweep_covered (blockSet blocks) none ip
  have hset : Covered (blockSet blocks) ip ↔ Covered blocks ip := by
    simp only [Covered, mem_block_set]
  rw [hset] at h
  simpa [Covered, withoutCovered] using h

theorem subtract_from_cuts {holes : List IpBlock} {fuel : ℕ} {block : IpBlock}
    (hfuel : block.hostBits ≤ fuel) :
    Bisected (InSome holes) true block (subtractFrom fuel block holes) := by
  fun_induction subtractFrom fuel block holes with
  | case1 fuel block hcov =>
    obtain ⟨hole, hin, hcov⟩ := List.any_eq_true.mp hcov
    exact cut_gone hin hcov
  | case2 block hcov hinside fuel low high hh ihlow ihhigh =>
    obtain ⟨hole, hin, hcovers⟩ := List.any_eq_true.mp hinside
    obtain ⟨hlbits, hhbits⟩ := halves_host_bits hh
    exact .split (cut_meets hin hcovers) hh (ihlow (by omega)) (ihhigh (by omega))
  | case3 fuel block hcov hinside hstuck =>
    obtain ⟨k, low, high, rfl, hh⟩ := cut_fuel hfuel (by simpa using hcov)
      (List.any_eq_true.mp hinside)
    exact (hstuck k low high rfl hh).elim
  | case4 fuel block hcov hinside =>
    exact cut_whole true (by simpa using hcov) (by simpa using hinside)

theorem subtract_leaves (block : IpBlock) (holes : List IpBlock) :
    Leaves block holes (subtract block holes) :=
  leaves_iff.mpr (bisected_exact (subtract_from_cuts le_rfl) rfl)

section
variable {input : NetworkHoldInput} {ip : IpAddr} {net : IpBlock}

theorem single_address_contains {a : IpAddr} {b : IpBlock} (h : singleAddress a = some b) :
    b.isSingleAddress = true ∧ (b.contains ip = true ↔ ip = canonicalIp a) := by
  obtain ⟨b', hb', hnet, hs⟩ := host_block_some (canonicalIp a)
  obtain rfl := Option.some.inj (hb'.symm.trans h)
  refine ⟨hs, ?_⟩
  rw [single_contains hs, hnet]

theorem exists_single_address (a : IpAddr) : ∃ b, singleAddress a = some b :=
  let ⟨b, hb, _, _⟩ := host_block_some (canonicalIp a)
  ⟨b, hb⟩

theorem eligible_apart (h : net ∈ input.eligible) :
    net ∉ input.main ∧ ∀ keep ∈ input.keptOpen, keep.covers net = false := by
  simp only [NetworkHoldInput.eligible, NetworkHoldInput.spares, List.mem_filter, Bool.and_eq_true,
    Bool.not_eq_true', Bool.or_eq_false_iff, List.any_eq_false] at h
  obtain ⟨-, -, ⟨⟨-, -⟩, hmain⟩, hkeep⟩ := h
  exact ⟨by simpa using hmain, by simpa using hkeep⟩

theorem mem_maximal :
    net ∈ input.maximal ↔ net ∈ input.eligible ∧
      ∀ other ∈ input.eligible, other.covers net = true → other = net := by
  simp only [NetworkHoldInput.maximal, List.mem_filter, Bool.not_eq_true', List.any_eq_false,
    Bool.and_eq_true, bne_iff_ne, not_and, Bool.not_eq_true]
  refine and_congr_right fun _ => forall₂_congr fun other _ => ?_
  constructor
  · intro h hc
    by_contra hne
    rw [h hne] at hc
    cases hc
  · intro h hne
    rw [Bool.eq_false_iff]
    exact fun hc => hne (h hc)

theorem maximal_covers : Covered input.maximal ip ↔ Covered input.eligible ip := by
  constructor
  · rintro ⟨b, hb, hc⟩
    exact ⟨b, (mem_maximal.mp hb).1, hc⟩
  · rintro ⟨b, hb, hc⟩
    have hex : ∃ n, ∃ b ∈ input.eligible, b.contains ip = true ∧ b.prefixLen = n :=
      ⟨_, b, hb, hc, rfl⟩
    classical
    obtain ⟨w, hw, hwc, hlen⟩ := Nat.find_spec hex
    refine ⟨w, mem_maximal.mpr ⟨hw, fun other ho hcov => ?_⟩, hwc⟩
    have hoc := contains_of_covers hcov hwc
    have hmin := Nat.find_min' hex ⟨other, ho, hoc, rfl⟩
    exact covers_antisymm hcov (covers_of_contains hwc hoc (by omega))

theorem maximal_unique {b c : IpBlock} (hb : b ∈ input.maximal) (hc : c ∈ input.maximal)
    (hbi : b.contains ip = true) (hci : c.contains ip = true) : b = c := by
  obtain ⟨hbe, hbm⟩ := mem_maximal.mp hb
  obtain ⟨hce, hcm⟩ := mem_maximal.mp hc
  rcases covers_or_covers hbi hci with h | h
  · exact hcm b hbe h
  · exact (hbm c hce h).symm

theorem maximal_nodup : input.maximal.Nodup := by
  unfold NetworkHoldInput.maximal NetworkHoldInput.eligible canonicalSet blockSet
  exact ((List.nodup_dedup _).filter _).filter _

end

end NetRuleRouter.FailClosedHolds
