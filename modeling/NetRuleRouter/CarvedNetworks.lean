import NetRuleRouter.Bisection
import NetRuleRouter.Arbiter

/-!
# What the filters of a network rule cover

A filter on a network covers every address inside it, so the narrower claims
of the other link are carved out of the network before its filters are made.
The narrower claims are indexed once: addresses that rules hold against any
network, by the link that steers them, and the route networks of each link.
-/

set_option autoImplicit false

namespace NetRuleRouter.CarvedNetworks
open TextOps IpNetwork
open HostMatching (zoneRanksAsSuffix)
open Canonical FqdnCache LongestPrefix Arbiter BlockGeometry Bisection

def slotsPerRule : ℕ := 256

def networkPieceCap : ℕ := slotsPerRule

/-- Appends `block` without `holes` to `out` as aligned blocks; `false` once `out` would grow past
the cap. The fuel bounds the splits left, one for each host bit. -/
def carveFrom (cap fuel : ℕ) (block : IpBlock) (holes out : List IpBlock) : Bool × List IpBlock :=
  if holes.any fun hole => hole.covers block then (true, out)
  else
    let inside := holes.filter fun hole => block.covers hole
    if inside.isEmpty then (out.length + 1 ≤ cap, out ++ [block])
    else match fuel, halves block with
      | fuel + 1, some (low, high) =>
        let carved := carveFrom cap fuel low inside out
        if carved.1 then carveFrom cap fuel high inside carved.2 else carved
      | _, _ => (true, out)

def carve (block : IpBlock) (holes out : List IpBlock) (cap : ℕ) : Bool × List IpBlock :=
  carveFrom cap block.hostBits block holes out

section
variable {block : IpBlock} {holes out : List IpBlock} {cap : ℕ}

def Leaves (block : IpBlock) (holes pieces : List IpBlock) : Prop :=
  ∀ ip, (∃ p ∈ pieces, p.contains ip = true) ↔
    block.contains ip = true ∧ ∀ hole ∈ holes, hole.contains ip = false

theorem leaves_iff {pieces : List IpBlock} :
    Leaves block holes pieces ↔ ∀ ip, (∃ p ∈ pieces, p.contains ip = true) ↔
      block.contains ip = true ∧ ¬ InSome holes ip := by
  simp [Leaves, InSome]

theorem carve_from_cuts {fuel : ℕ} (hfuel : block.hostBits ≤ fuel) :
    ∃ new, (carveFrom cap fuel block holes out).2 = out ++ new ∧
      Bisected (InSome holes) (carveFrom cap fuel block holes out).1 block new ∧
      ((carveFrom cap fuel block holes out).1 = false → cap < out.length + new.length) := by
  fun_induction carveFrom cap fuel block holes out with
  | case1 fuel block holes out hcov =>
    obtain ⟨hole, hin, hcov⟩ := List.any_eq_true.mp hcov
    exact ⟨[], by simp, cut_gone hin hcov, by simp⟩
  | case2 fuel block holes out hcov inside hempty =>
    exact ⟨[block], rfl, cut_whole _ (by simpa using hcov) (by simpa [inside] using hempty),
      by simp⟩
  | case3 block holes out hcov inside hsome fuel low high hh carved hfits ihlow ihhigh =>
    obtain ⟨hlbits, hhbits⟩ := halves_host_bits hh
    obtain ⟨newLow, hmid, hlow, -⟩ := ihlow (by omega)
    obtain ⟨newHigh, hend, hhigh, hcap⟩ := ihhigh (by omega)
    have hmid' : carved.2 = out ++ newLow := hmid
    have hlow' : Bisected (InSome inside) true low newLow := hfits ▸ hlow
    have hjoin := cut_join (by simpa using hcov) (by simpa [inside] using hsome) hh hlow' hhigh
    rw [Bool.true_and] at hjoin
    refine ⟨newLow ++ newHigh, by rw [hend, hmid', List.append_assoc], hjoin, fun hfull => ?_⟩
    have hlong := hcap hfull
    rw [hmid'] at hlong
    simpa [Nat.add_assoc] using hlong
  | case4 block holes out hcov inside hsome fuel low high hh carved hfull ih =>
    obtain ⟨newLow, hmid, hlow, hcap⟩ := ih (by have := halves_host_bits hh; omega)
    have hjoin := cut_join (by simpa using hcov) (by simpa [inside] using hsome) hh hlow
      (.stop high)
    rw [Bool.and_false, List.append_nil] at hjoin
    exact ⟨newLow, hmid, (Bool.eq_false_iff.mpr hfull : carved.1 = false) ▸ hjoin, hcap⟩
  | case5 fuel block holes out hcov inside hsome hstuck =>
    -- a hole inside leaves room to split, and the fuel counts the host bits
    obtain ⟨k, low, high, rfl, hh⟩ := cut_fuel hfuel (by simpa using hcov)
      (by simpa [inside] using hsome)
    exact (hstuck k low high rfl hh).elim

theorem carve_spec (h : (carve block holes out cap).1 = true) :
    ∃ new, (carve block holes out cap).2 = out ++ new ∧ Leaves block holes new := by
  obtain ⟨new, hnew, hcut, -⟩ := @carve_from_cuts block holes out cap _ le_rfl
  exact ⟨new, hnew, leaves_iff.mpr (bisected_exact hcut h)⟩

end

structure NetworkCarving where
  mainAddresses : List IpAddr
  additionalAddresses : List IpAddr
  mainNetworks : List IpBlock
  additionalNetworks : List IpBlock

structure NetworkPieces where
  pieces : List IpBlock
  overCap : Option ℕ

/-- A route rule for destinations alone that enforcement carries. -/
def carriedRoute (support : RuleShapeSupport) (r : CanonicalRule) : Bool :=
  r.enabled && r.action == .route && r.appMatch.isNone && (ruleVerdict r support).isSupported

def blocksOf (r : CanonicalRule) : List IpBlock :=
  (r.addressMatch.bind CanonicalAddressMatch.ipBlocks).getD []

def routeNetworks (set : CanonicalRuleSet) (support : RuleShapeSupport) : List IpBlock :=
  (set.rules.filter (carriedRoute support)).flatMap blocksOf

def hasNetworkBlock (book : CanonicalRuleBook) (support : RuleShapeSupport) : Bool :=
  book.allRules.any fun r => r.enabled && r.action == .block && isNetwork r &&
    (ruleVerdict r support).isSupported

def beatingAddresses (cache : FqdnCacheSnapshot) (order : ZoneVsIpOrder) (r : CanonicalRule) :
    List IpAddr :=
  let ofHosts (names : List Text) : List IpAddr :=
    names.flatMap fun host => cappedForHost cache host .both
  match r.addressMatch with
  | some (.exactIp ip) => [ip]
  | some (.exactFqdn host) => ofHosts [host]
  | some (.suffixDomain suffix) =>
    ofHosts (cache.hostnamesForSuffixDomain suffix suffixFanoutBackstop)
  | some (.zone zone) =>
    if order = .zoneFirst ∨ zoneRanksAsSuffix zone = true then
      ofHosts (cache.hostnamesUnderSuffix zone suffixFanoutBackstop)
    else []
  | _ => []

def networkBeatingClaims (set : CanonicalRuleSet) (cache : FqdnCacheSnapshot)
    (order : ZoneVsIpOrder) (support : RuleShapeSupport) : List IpAddr :=
  addressSet ((set.rules.filter (carriedRoute support)).flatMap (beatingAddresses cache order))

def NetworkCarving.index (book : CanonicalRuleBook) (cache : FqdnCacheSnapshot)
    (ownership : AddressOwnership) (order : ZoneVsIpOrder) (support : RuleShapeSupport)
    (denylist : List (BitVec 32)) : NetworkCarving :=
  let mainNetworks := routeNetworks book.primary support
  let additionalNetworks := routeNetworks book.secondary support
  if mainNetworks.isEmpty && additionalNetworks.isEmpty && !hasNetworkBlock book support then
    ⟨[], [], [], []⟩
  else
    { mainAddresses := (networkBeatingClaims book.primary cache order support).filter fun ip =>
        ownership.ownerOf ip == some .main
      additionalAddresses :=
        (networkBeatingClaims book.secondary cache order support).filter fun ip =>
          ownership.ownerOf ip == some .additional && !denied denylist ip
      mainNetworks := mainNetworks
      additionalNetworks := additionalNetworks }

def addressesIn (set : List IpAddr) (block : IpBlock) : List IpBlock :=
  (set.filter fun ip => (addrOrder block.network ip).isLE && (addrOrder ip block.last).isLE).filterMap
    hostBlock

/-- The narrower claims inside `block` its rule must leave alone. The main link wins a tie between
two route networks, and a Block leaves out every route. -/
def NetworkCarving.holes (c : NetworkCarving) (block : IpBlock) (link : Link)
    (action : RuleAction) : List IpBlock :=
  let narrower (tieCarves : Bool) (other : IpBlock) : Bool :=
    block.covers other && (block.prefixLen < other.prefixLen || tieCarves && other == block)
  match action, link with
  | .block, _ =>
    addressesIn c.mainAddresses block ++ addressesIn c.additionalAddresses block ++
      (c.mainNetworks ++ c.additionalNetworks).filter (narrower false)
  | _, .main =>
    addressesIn c.additionalAddresses block ++ c.additionalNetworks.filter (narrower false)
  | _, .additional =>
    addressesIn c.mainAddresses block ++ c.mainNetworks.filter (narrower true)

def carveAll (holes : IpBlock → List IpBlock) (cap : ℕ) : List IpBlock → List IpBlock → NetworkPieces
  | [], pieces => ⟨pieces, none⟩
  | block :: rest, pieces =>
    let carved := carve block (holes block) pieces cap
    if carved.1 then carveAll holes cap rest carved.2 else ⟨[], some carved.2.length⟩

def NetworkCarving.pieces (c : NetworkCarving) (blocks : List IpBlock) (link : Link)
    (action : RuleAction) (families : FamilyScope) : NetworkPieces :=
  carveAll (fun block => c.holes block link action) networkPieceCap
    (blocks.filter fun b => families.admits b.network) []

theorem addresses_in_contains {set : List IpAddr} {block : IpBlock} {ip : IpAddr} :
    (∃ hole ∈ addressesIn set block, hole.contains ip = true) ↔
      ip ∈ set ∧ block.contains ip = true := by
  simp only [addressesIn, List.mem_filterMap, List.mem_filter, Bool.and_eq_true, in_range_iff]
  constructor
  · intro h
    obtain ⟨hole, ⟨a, ⟨ha, hin⟩, hhole⟩, hc⟩ := h
    obtain ⟨b, hb, rfl, hs⟩ := host_block_some a
    obtain rfl := Option.some.inj (hb.symm.trans hhole)
    obtain rfl := (single_contains hs).mp hc
    exact ⟨ha, hin⟩
  · intro h
    obtain ⟨b, hb, hnet, hs⟩ := host_block_some ip
    exact ⟨b, ⟨ip, h, hb⟩, (single_contains hs).mpr hnet.symm⟩

section
variable {holes : IpBlock → List IpBlock} {cap : ℕ}

theorem carve_all_spec (blocks pieces : List IpBlock)
    (h : (carveAll holes cap blocks pieces).overCap = none) :
    ∃ new, (carveAll holes cap blocks pieces).pieces = pieces ++ new ∧ ∀ ip,
      (∃ p ∈ new, p.contains ip = true) ↔
        ∃ b ∈ blocks, b.contains ip = true ∧ ∀ hole ∈ holes b, hole.contains ip = false := by
  induction blocks generalizing pieces with
  | nil => exact ⟨[], by simp [carveAll], by simp⟩
  | cons block rest ih =>
    rw [carveAll] at h ⊢
    cases hfits : (carve block (holes block) pieces cap).1 with
    | false => simp [hfits] at h
    | true =>
      simp only [hfits, if_true] at h ⊢
      obtain ⟨first, hmid, hfirst⟩ := carve_spec hfits
      obtain ⟨others, hend, hothers⟩ := ih _ h
      refine ⟨first ++ others, by rw [hend, hmid, List.append_assoc], fun ip => ?_⟩
      simp only [List.mem_append, or_and_right, exists_or, List.exists_mem_cons_iff, ← hothers ip,
        ← hfirst ip]

end

section
variable {c : NetworkCarving} {blocks : List IpBlock} {link : Link} {action : RuleAction}
  {families : FamilyScope}

theorem pieces_cover (h : (c.pieces blocks link action families).overCap = none) (ip : IpAddr) :
    (∃ p ∈ (c.pieces blocks link action families).pieces, p.contains ip = true) ↔
      ∃ b ∈ blocks, families.admits b.network = true ∧ b.contains ip = true ∧
        ∀ hole ∈ c.holes b link action, hole.contains ip = false := by
  obtain ⟨new, hnew, hspec⟩ := carve_all_spec _ _ h
  rw [show (c.pieces blocks link action families).pieces = new from hnew, hspec ip]
  simp only [List.mem_filter, and_assoc]

theorem over_cap_covers_nothing (h : (c.pieces blocks link action families).overCap ≠ none) :
    (c.pieces blocks link action families).pieces = [] := by
  have hall (bs pieces : List IpBlock)
      (hne : (carveAll (fun b => c.holes b link action) networkPieceCap bs pieces).overCap ≠ none) :
      (carveAll (fun b => c.holes b link action) networkPieceCap bs pieces).pieces = [] := by
    induction bs generalizing pieces with
    | nil => exact absurd rfl hne
    | cons b bs ih =>
      rw [carveAll] at hne ⊢
      split
      · rename_i hfits
        rw [if_pos hfits] at hne
        exact ih _ hne
      · rfl
  exact hall _ _ h

end

end NetRuleRouter.CarvedNetworks
