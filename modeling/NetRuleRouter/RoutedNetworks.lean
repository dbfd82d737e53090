import NetRuleRouter.NetworkRoutes

/-!
# Planned network routes follow the longest prefix

Every block of a rule is split and pruned on its own. Together the pieces
realise the longest prefix over both links: at an address the narrowest
claimed network leaves a piece on its own link, and every piece of the other
link there is wider than that network.
-/

set_option autoImplicit false

namespace NetRuleRouter.RoutedNetworks
open TextOps Sorting IpNetwork Canonical LongestPrefix Arbiter FqdnCache HostClaims
open OwnerTiers BlockGeometry SteeringClaims NetworkRoutes
open RuleMatching (RouteBehaviorMode)

section
variable {main additional : List IpBlock} {link : Link} {net outer : IpBlock}

def sideOf (main additional : List IpBlock) : Link → List IpBlock
  | .main => main
  | .additional => additional

theorem side_claimed (h : net ∈ sideOf main additional link) : net ∈ main ∨ net ∈ additional := by
  cases link with
  | main => exact Or.inl h
  | additional => exact Or.inr h

theorem claim_has {c : NetworkClaim} (h : (NetworkClaims.new main additional).claim net = some c) :
    c.has link = true ↔ net ∈ sideOf main additional link := by
  obtain ⟨-, rfl⟩ := (claim_iff main additional).mp h
  cases link with
  | main | additional => simp [NetworkClaim.has, sideOf]

theorem claim_exists (h : net ∈ main ∨ net ∈ additional) :
    ∃ c, (NetworkClaims.new main additional).claim net = some c :=
  ⟨_, (claim_iff main additional).mpr ⟨h, rfl⟩⟩

theorem mem_link_networks :
    net ∈ linkNetworks (NetworkClaims.new main additional) link ↔
      net ∈ sideOf main additional link := by
  rw [linkNetworks, List.mem_filter, mem_sorted, Option.any_eq_true]
  constructor
  · intro h
    obtain ⟨-, c, hc, hhas⟩ := h
    exact (claim_has hc).mp hhas
  · intro h
    obtain ⟨c, hc⟩ := claim_exists (side_claimed h)
    exact ⟨side_claimed h, c, hc, (claim_has hc).mpr h⟩

theorem block_order_network {a b : IpBlock} (h : InOrder blockOrder a b) :
    (addrOrder a.network b.network).isLE = true := by
  have hthen (x y z : Ordering) (h : (x.then (y.then z)).isLE = true) :
      (x.then y).isLE = true := by
    revert h
    cases x <;> cases y <;> cases z <;> decide
  exact hthen _ _ _ h

theorem networks_sorted :
    Sorted blockOrder (NetworkClaims.new main additional).sorted := by
  have : Std.TransCmp blockOrder := by unfold blockOrder; infer_instance
  exact sort_by_sorted _ _

instance : Std.TransCmp addrOrder := by unfold addrOrder; infer_instance

theorem not_before_iff {a b : IpAddr} :
    (addrOrder a b).isLT = false ↔ (addrOrder b a).isLE = true := by
  rw [@Std.OrientedCmp.eq_swap _ addrOrder _ a b]
  cases addrOrder b a <;> decide

theorem mem_block_slice {l : List IpBlock} (h : Sorted blockOrder l) :
    net ∈ (l.dropWhile fun n => (addrOrder n.network outer.network).isLT).takeWhile
        (fun n => (addrOrder n.network outer.last).isLE) ↔
      net ∈ l ∧ outer.contains net.network = true := by
  rw [mem_slice blockOrder h]
  · rw [not_before_iff, in_range_iff]
  · intro a b hab hb
    have hle := block_order_network hab
    rw [Ordering.isLT_iff_eq_lt] at hb ⊢
    exact Std.TransCmp.lt_of_isLE_of_lt hle hb
  · intro a b hab hb
    exact Std.TransCmp.isLE_trans (block_order_network hab) hb

theorem mem_networks_inside {winner : Link} :
    (net, winner) ∈ networksInside (NetworkClaims.new main additional) outer ↔
      (net ∈ main ∨ net ∈ additional) ∧ outer.prefixLen < net.prefixLen ∧
        outer.covers net = true ∧ winner = if net ∈ main then .main else .additional := by
  rw [networksInside, List.mem_filterMap]
  simp only [List.mem_filter, Bool.and_eq_true, decide_eq_true_eq, Option.map_eq_some_iff,
    Prod.mk.injEq]
  constructor
  · intro h
    obtain ⟨n, ⟨hn, hlen, hcov⟩, c, hc, rfl, rfl⟩ := h
    obtain ⟨hmem, rfl⟩ := (claim_iff main additional).mp hc
    refine ⟨hmem, hlen, hcov, ?_⟩
    simp [NetworkClaim.winner]
  · intro h
    obtain ⟨hmem, hlen, hcov, rfl⟩ := h
    obtain ⟨c, hc⟩ := claim_exists hmem
    have hin := contains_of_covers hcov (contains_network net)
    have hslice := (mem_block_slice networks_sorted).mpr
      ⟨(mem_sorted main additional).mpr hmem, hin⟩
    refine ⟨net, ⟨hslice, hlen, hcov⟩, c, hc, rfl, ?_⟩
    obtain ⟨-, rfl⟩ := (claim_iff main additional).mp hc
    simp [NetworkClaim.winner]

end

section
variable {block p : IpBlock} {competitors : List IpBlock} {ip : IpAddr}

theorem mem_halves_of {c : IpBlock} (h : p ∈ halvesOf c) :
    p.prefixLen = c.prefixLen + 1 ∧ c.covers p = true := by
  unfold halvesOf at h
  split at h
  · rename_i low high hhalves
    obtain ⟨hlow, hhigh, hboth⟩ := halves_some hhalves
    have hin : c.contains p.network = true ∧ p.prefixLen = c.prefixLen + 1 := by
      rw [List.mem_cons, List.mem_singleton] at h
      rcases h with rfl | rfl
      · exact ⟨(hboth _).mpr (Or.inl (contains_network p)), hlow⟩
      · exact ⟨(hboth _).mpr (Or.inr (contains_network p)), hhigh⟩
    exact ⟨hin.2, covers_of_contains hin.1 (contains_network p) (by omega)⟩
  · simp at h

theorem half_at {c : IpBlock} (hs : c.isSingleAddress = false) (hc : c.contains ip = true) :
    ∃ p ∈ halvesOf c, p.contains ip = true := by
  unfold halvesOf
  cases hhalves : halves c with
  | none => simp [halves_none.mp hhalves] at hs
  | some e =>
    obtain ⟨low, high⟩ := e
    rcases ((halves_some hhalves).2.2 ip).mp hc with hlow | hhigh
    · exact ⟨low, by simp, hlow⟩
    · exact ⟨high, by simp, hhigh⟩

theorem mem_split_against :
    p ∈ splitAgainst block competitors ↔
      p = block ∧ block ∉ competitors ∨
        ∃ c ∈ competitors, block.covers c = true ∧ p ∈ halvesOf c := by
  have hwhole : (competitors.filter fun c => block.covers c).contains block = true ↔
      block ∈ competitors := by
    simp [covers_self]
  simp only [splitAgainst, blockSet, List.mem_dedup, mem_sort_by, List.mem_append,
    List.mem_flatMap, List.mem_filter, and_assoc, hwhole]
  rw [or_comm]
  refine or_congr_left ?_
  split
  · rename_i hin
    simp [hin]
  · rename_i hout
    simp [hout]

theorem split_inside (h : p ∈ splitAgainst block competitors) : block.covers p = true := by
  rcases mem_split_against.mp h with ⟨rfl, -⟩ | ⟨c, -, hc, hp⟩
  · exact covers_self p
  · exact covers_trans hc (mem_halves_of hp).2

section
variable (hin : block.contains ip = true)
variable (hhost : block ∈ competitors → block.isSingleAddress = false)
include hin hhost

theorem split_at : ∃ p ∈ splitAgainst block competitors, p.contains ip = true := by
  by_cases hcomp : block ∈ competitors
  · obtain ⟨p, hp, hpin⟩ := half_at (hhost hcomp) hin
    exact ⟨p, mem_split_against.mpr (Or.inr ⟨block, hcomp, covers_self block, hp⟩), hpin⟩
  · exact ⟨block, mem_split_against.mpr (Or.inl ⟨rfl, hcomp⟩), hin⟩

theorem split_over {c : IpBlock} (hc : c ∈ competitors) (hcin : c.contains ip = true)
    (hs : c.isSingleAddress = false) :
    ∃ p ∈ splitAgainst block competitors, p.contains ip = true ∧ c.prefixLen < p.prefixLen := by
  by_cases hcov : block.covers c = true
  · obtain ⟨p, hp, hpin⟩ := half_at hs hcin
    refine ⟨p, mem_split_against.mpr (Or.inr ⟨c, hc, hcov, hp⟩), hpin, ?_⟩
    have hlen := (mem_halves_of hp).1
    omega
  · -- a competitor that is not inside the block is wider, and any piece passes it
    obtain ⟨p, hp, hpin⟩ := split_at hin hhost
    have hlt := not_le.mp fun hle => hcov (covers_of_contains hin hcin hle)
    exact ⟨p, hp, hpin, lt_of_lt_of_le hlt (covers_iff.mp (split_inside hp)).1⟩

end

end

section
variable {main additional : List IpBlock} {link : Link} {block p : IpBlock}
variable {competitors : List IpBlock} {facts : NetworkRouteFacts} {ruleId : Text}

/-- A piece of a block on a link: the main link keeps a block of both, and the piece is inside no
narrower network of the other link. -/
structure PieceOf (main additional : List IpBlock) (competitors : List IpBlock) (link : Link)
    (block p : IpBlock) : Prop where
  own : link = .additional → block ∉ main
  split : p ∈ splitAgainst block competitors
  kept : ∀ net, net ∈ main ∨ net ∈ additional → block.prefixLen < net.prefixLen →
    block.covers net = true → link ≠ (if net ∈ main then .main else .additional) →
      net.covers p = false

theorem mem_pieces_for (hlocal : facts.localNetworks = []) (hservers : facts.tunnelServers = []) :
    p ∈ (piecesFor ruleId block link competitors (NetworkClaims.new main additional) facts).1 ↔
      PieceOf main additional competitors link block p := by
  have hholes : serversInside link block facts.tunnelServers = [] := by
    cases link with
    | main => rfl
    | additional => simp [serversInside, hservers]
  have hclaimed : (link == .additional &&
      (linkNetworks (NetworkClaims.new main additional) .main).contains block) = true ↔
        link = .additional ∧ block ∈ main := by
    rw [Bool.and_eq_true, beq_iff_eq, List.contains_eq_mem, decide_eq_true_eq, mem_link_networks]
    exact Iff.rfl
  unfold piecesFor
  by_cases hown : link = .additional ∧ block ∈ main
  · rw [if_pos (hclaimed.mpr hown)]
    refine iff_of_false (by simp) fun h => h.own hown.1 hown.2
  · rw [if_neg (mt hclaimed.mp hown)]
    simp only [hholes, hlocal, List.foldl_nil, List.find?_nil, Option.isNone_none,
      List.filter_true, List.mem_filter, Bool.not_eq_true', List.any_eq_false, List.mem_map,
      Prod.exists, exists_and_right, exists_eq_right, mem_networks_inside, bne_iff_ne,
      Bool.not_eq_true]
    constructor
    · intro h
      refine ⟨fun hl hm => hown ⟨hl, hm⟩, h.1, fun net hn hlen hcov hne => ?_⟩
      exact h.2 net ⟨_, ⟨hn, hlen, hcov, rfl⟩, hne.symm⟩
    · intro h
      refine ⟨h.split, fun net hnet => ?_⟩
      obtain ⟨winner, ⟨hn, hlen, hcov, rfl⟩, hne⟩ := hnet
      exact h.kept net hn hlen hcov hne.symm

end

section
variable {main additional : List IpBlock} {link : Link} {net p : IpBlock} {ip : IpAddr}
variable {competitors : Link → List IpBlock}

def Planned (main additional : List IpBlock) (competitors : Link → List IpBlock) (link : Link)
    (p : IpBlock) : Prop :=
  ∃ block ∈ sideOf main additional link, PieceOf main additional (competitors link) link block p

/-- The narrowest claimed network at an address, on the link that wins it. -/
structure Narrowest (main additional : List IpBlock) (ip : IpAddr) (link : Link) (net : IpBlock) :
    Prop where
  named : net ∈ sideOf main additional link
  first : link = .additional → net ∉ main
  holds : net.contains ip = true
  longest : ∀ other, other ∈ main ∨ other ∈ additional → other.contains ip = true →
    other.prefixLen ≤ net.prefixLen

variable (hw : Narrowest main additional ip link net)
include hw

theorem narrowest_kept (hp : p ∈ splitAgainst net (competitors link)) (hin : p.contains ip = true) :
    Planned main additional competitors link p := by
  refine ⟨net, hw.named, hw.first, hp, fun other ho hlen _ _ => ?_⟩
  by_contra hcov
  have hoc := contains_of_covers (Bool.not_eq_false _ ▸ hcov) hin
  exact absurd (hw.longest other ho hoc) (not_le.mpr hlen)

theorem piece_at_narrowest (hhost : net ∈ competitors link → net.isSingleAddress = false) :
    ∃ p, Planned main additional competitors link p ∧ p.contains ip = true ∧
      net.prefixLen ≤ p.prefixLen := by
  obtain ⟨p, hp, hin⟩ := split_at hw.holds hhost
  exact ⟨p, narrowest_kept hw hp hin, hin, (covers_iff.mp (split_inside hp)).1⟩

theorem piece_over_competitor
    (hhost : net ∈ competitors link → net.isSingleAddress = false) {c : IpBlock}
    (hc : c ∈ competitors link) (hin : c.contains ip = true) (hs : c.isSingleAddress = false) :
    ∃ p, Planned main additional competitors link p ∧ p.contains ip = true ∧
      c.prefixLen < p.prefixLen := by
  obtain ⟨p, hp, hpin, hlen⟩ := split_over hw.holds hhost hc hin hs
  exact ⟨p, narrowest_kept hw hp hpin, hpin, hlen⟩

theorem other_piece_wider {other : Link}
    (hp : Planned main additional competitors other p) (hin : p.contains ip = true)
    (hne : other ≠ link) : p.prefixLen < net.prefixLen := by
  obtain ⟨block, hblock, hpiece⟩ := hp
  have hbin := contains_of_covers (split_inside hpiece.split) hin
  have hble := hw.longest block (side_claimed hblock) hbin
  have hlt : block.prefixLen < net.prefixLen := by
    refine lt_of_le_of_ne hble fun heq => ?_
    obtain rfl := same_length_eq hbin hw.holds heq
    obtain rfl := eq_other_link hne
    cases link with
    | main => exact hpiece.own rfl hw.named
    | additional => exact hw.first rfl hblock
  have hwins : other ≠ (if net ∈ main then Link.main else .additional) := by
    cases link with
    | main => simpa [show net ∈ main from hw.named] using hne
    | additional => simpa [hw.first rfl] using hne
  have hout := hpiece.kept net (side_claimed hw.named) hlt
    (covers_of_contains hbin hw.holds hlt.le) hwins
  by_contra hlen
  have hcov := covers_of_contains hw.holds hin (not_lt.mp hlen)
  rw [hout] at hcov
  cases hcov

omit hw

theorem winner_narrowest (h : ∃ net, (net ∈ main ∨ net ∈ additional) ∧ net.contains ip = true) :
    ∃ link net, (NetworkClaims.new main additional).winner ip = some link ∧
      Narrowest main additional ip link net := by
  obtain ⟨net, hn, hc⟩ := h
  obtain ⟨⟨net, c⟩, hl⟩ := longest_exists main additional hc hn
  obtain ⟨hin, hmem, -, hmost⟩ := longest_some main additional hl
  refine ⟨_, net, winner_of_longest main additional hl, ?_⟩
  by_cases hm : net ∈ main
  · rw [if_pos hm]
    exact ⟨hm, by simp, hin, hmost⟩
  · rw [if_neg hm]
    exact ⟨hmem.resolve_left hm, fun _ => hm, hin, hmost⟩

end

def bookNetworks (b : CanonicalRuleBook) (support : RuleShapeSupport) (link : Link) :
    List IpBlock :=
  (routeRules (b.setFor (roleOf link))).flatMap (networksOf support)

section
variable {b : CanonicalRuleBook} {support : RuleShapeSupport} {link : Link} {p : IpBlock}
variable {mode : RouteBehaviorMode} {o : AddressOwnership} {facts : NetworkRouteFacts}
variable {catchAlls : List (BitVec 32 × ℕ)} {networks : List (Link × IpBlock)}
variable {e : Link × IpBlock}

theorem mem_rule_blocks {s : CanonicalRuleSet} {net : IpBlock} :
    (∃ rule ∈ networkRules s support, net ∈ rule.2) ↔
      net ∈ (routeRules s).flatMap (networksOf support) := by
  simp only [networkRules, List.mem_filterMap, List.mem_flatMap, mem_route_rules, networksOf]
  constructor
  · intro h
    obtain ⟨rule, ⟨r, hr, hrule⟩, hnet⟩ := h
    split at hrule
    · simp at hrule
    · rename_i hkeep
      simp only [Bool.or_eq_true, Bool.not_eq_true', beq_iff_eq, not_or, Bool.not_eq_false,
        Option.isSome_iff_ne_none, ne_eq, not_not] at hkeep
      obtain ⟨⟨⟨he, ha⟩, hn⟩, hs⟩ := hkeep
      obtain ⟨blocks, hblocks, rfl⟩ := Option.map_eq_some_iff.mp hrule
      refine ⟨r, ⟨hr, he, hn, ha⟩, ?_⟩
      rw [if_pos hs, hblocks]
      exact hnet
  · intro h
    obtain ⟨r, ⟨hr, he, hn, ha⟩, hnet⟩ := h
    split at hnet
    · rename_i hs
      cases hblocks : r.addressMatch.bind CanonicalAddressMatch.ipBlocks with
      | none => simp [hblocks] at hnet
      | some blocks =>
        refine ⟨(r, blocks), ⟨r, hr, ?_⟩, by simpa [hblocks] using hnet⟩
        simp [he, ha, hn, hs, hblocks]
    · simp at hnet

theorem mem_push_pieces {pieces : List IpBlock} :
    e ∈ pushPieces link networks pieces ↔ e ∈ networks ∨ e.1 = link ∧ e.2 ∈ pieces := by
  induction pieces generalizing networks with
  | nil => simp [pushPieces]
  | cons p pieces ih =>
    have hstep : e ∈ (if (link, p) ∈ networks then networks else networks ++ [(link, p)]) ↔
        e ∈ networks ∨ e = (link, p) := by
      split
      · rename_i hin
        exact (or_iff_left_of_imp fun he => he ▸ hin).symm
      · simp
    rw [pushPieces, List.foldl_cons, ← pushPieces, ih, hstep, List.mem_cons, or_assoc, and_or_left]
    refine or_congr_right (or_congr_left ?_)
    rw [Prod.ext_iff]

theorem mem_pushed {parts : List (List IpBlock × List RouteCodegenDiagnostic)} :
    e ∈ parts.foldl (fun out part => pushPieces link out part.1) networks ↔
      e ∈ networks ∨ e.1 = link ∧ ∃ part ∈ parts, e.2 ∈ part.1 := by
  induction parts generalizing networks with
  | nil => simp
  | cons part parts ih =>
    rw [List.foldl_cons, ih, mem_push_pieces, or_assoc, List.exists_mem_cons_iff, and_or_left]

/-- No rule asks for more routes than one rule may install. -/
def WithinCap (mode : RouteBehaviorMode) (b : CanonicalRuleBook) (o : AddressOwnership)
    (facts : NetworkRouteFacts) (catchAlls : List (BitVec 32 × ℕ)) (support : RuleShapeSupport) :
    Prop :=
  ∀ link, ∀ rule ∈ networkRules (b.setFor (roleOf link)) support,
    (rule.2.flatMap fun block => (piecesFor rule.1.id block link
      (competitorsOf mode true facts catchAlls link) o.networks facts).1).length ≤
        maxRoutesPerRule

theorem mem_plan (hcap : WithinCap mode b o facts catchAlls support) :
    (link, p) ∈ (planNetworkRoutes mode b true o facts catchAlls support).networks ↔
      ∃ rule ∈ networkRules (b.setFor (roleOf link)) support, ∃ block ∈ rule.2,
        p ∈ (piecesFor rule.1.id block link (competitorsOf mode true facts catchAlls link)
          o.networks facts).1 := by
  have hrule (link : Link) (rule : CanonicalRule × List IpBlock)
      (hmem : rule ∈ networkRules (b.setFor (roleOf link)) support) :
      p ∈ (rulePieces link (competitorsOf mode true facts catchAlls link) o.networks facts
          rule).1 ↔
        ∃ block ∈ rule.2, p ∈ (piecesFor rule.1.id block link
          (competitorsOf mode true facts catchAlls link) o.networks facts).1 := by
    have hle := hcap link rule hmem
    simp only [rulePieces, List.flatMap_map]
    rw [if_neg (not_lt.mpr hle), List.mem_flatMap]
  simp only [planNetworkRoutes, if_true, mem_pushed, List.not_mem_nil, false_or, List.mem_map]
  cases link with
  | main =>
    simp only [true_and, reduceCtorEq, false_and, or_false, exists_exists_and_eq_and]
    exact exists_congr fun rule => and_congr_right fun hmem => hrule .main rule hmem
  | additional =>
    simp only [true_and, reduceCtorEq, false_and, false_or, exists_exists_and_eq_and]
    exact exists_congr fun rule => and_congr_right fun hmem => hrule .additional rule hmem

theorem plan_iff_planned (ho : o.networks = networksOfBook b support)
    (hlocal : facts.localNetworks = []) (hservers : facts.tunnelServers = [])
    (hcap : WithinCap mode b o facts catchAlls support) :
    (link, p) ∈ (planNetworkRoutes mode b true o facts catchAlls support).networks ↔
      Planned (bookNetworks b support .main) (bookNetworks b support .additional)
        (competitorsOf mode true facts catchAlls) link p := by
  have hside : sideOf (bookNetworks b support .main) (bookNetworks b support .additional) link =
      bookNetworks b support link := by
    cases link <;> rfl
  have hnets : o.networks =
      NetworkClaims.new (bookNetworks b support .main) (bookNetworks b support .additional) := ho
  simp only [mem_plan hcap, hnets, mem_pieces_for hlocal hservers, Planned, hside]
  constructor
  · intro h
    obtain ⟨rule, hrule, block, hblock, hpiece⟩ := h
    exact ⟨block, mem_rule_blocks.mp ⟨rule, hrule, hblock⟩, hpiece⟩
  · intro h
    obtain ⟨block, hblock, hpiece⟩ := h
    obtain ⟨rule, hrule, hblock⟩ := mem_rule_blocks.mpr hblock
    exact ⟨rule, hrule, block, hblock, hpiece⟩

end

section
variable {mode : RouteBehaviorMode} {facts : NetworkRouteFacts}
variable {catchAlls : List (BitVec 32 × ℕ)} {c : IpBlock}

theorem v4_block_wide {set : List (BitVec 32 × ℕ)} (hset : ∀ e ∈ set, e.2 < 32)
    (h : c ∈ v4Blocks set) : c.isSingleAddress = false := by
  obtain ⟨e, he, hnew⟩ := List.mem_filterMap.mp h
  obtain ⟨hin, hlen⟩ := block_new_iff.mp hnew
  have hbits : familyBits c.network = 32 := family_of_contains hin
  have := hset e he
  simp only [IpBlock.isSingleAddress, max_prefix_len, beq_eq_false_iff_ne, ne_eq]
  omega

theorem host_competitor {link : Link} (h : c ∈ competitorsOf mode true facts catchAlls link)
    (hs : c.isSingleAddress = true) : link = .main ∧ c ∈ facts.tunnelRoutes := by
  cases link with
  | main =>
    rw [competitorsOf, List.mem_append] at h
    refine ⟨rfl, h.resolve_right fun hover => ?_⟩
    split at hover
    · simp at hover
    · rw [v4_block_wide (by decide) hover] at hs
      cases hs
  | additional =>
    rw [competitorsOf] at h
    split at h
    · have hwide : ∀ e ∈ counterOverlayFor catchAlls, e.2 < 32 := by
        intro e he
        simp only [counterOverlayFor, List.mem_dedup, mem_sort_by, List.mem_flatMap,
          List.mem_filter, List.mem_cons, List.not_mem_nil, or_false] at he
        obtain ⟨d, ⟨-, hd⟩, hhalf⟩ := he
        have hshort : d.2 ≤ 12 := of_decide_eq_true hd
        rcases hhalf with rfl | rfl
        · exact Nat.lt_of_le_of_lt (Nat.succ_le_succ hshort) (by decide)
        · exact Nat.lt_of_le_of_lt (Nat.succ_le_succ hshort) (by decide)
      rw [v4_block_wide hwide h] at hs
      cases hs
    · simp at h

theorem narrowest_splits {main additional : List IpBlock} {ip : IpAddr} {link : Link} {net : IpBlock}
    (hw : Narrowest main additional ip link net)
    (hhost : link = .main → ∀ host ∈ facts.tunnelRoutes, host.isSingleAddress = true →
      host.contains ip = true → host ∉ main)
    (hcomp : net ∈ competitorsOf mode true facts catchAlls link) : net.isSingleAddress = false := by
  by_contra hs
  obtain ⟨rfl, htunnel⟩ := host_competitor hcomp (by simpa using hs)
  exact hhost rfl net htunnel (by simpa using hs) hw.holds hw.named

end

def LongestAt (networks : List (Link × IpBlock)) (ip : IpAddr) (e : Link × IpBlock) : Prop :=
  e ∈ networks ∧ e.2.contains ip = true ∧
    ∀ other ∈ networks, other.2.contains ip = true → other.2.prefixLen ≤ e.2.prefixLen

/-- Planned network routes send every address of a network to the link whose network wins it, and
past every competitor there. An address whose own route the tunnel installed, named as a network of
one address by the main link, is left to the tunnel. -/
theorem planned_routes_follow_winner (mode : RouteBehaviorMode) (b : CanonicalRuleBook)
    (cache : FqdnCacheSnapshot) (settings : OwnershipSettings) (support : RuleShapeSupport)
    (observations : AppObservationLookup) (facts : NetworkRouteFacts)
    (catchAlls : List (BitVec 32 × ℕ)) (ip : IpAddr)
    (hlocal : facts.localNetworks = []) (hservers : facts.tunnelServers = [])
    (hcap : WithinCap mode b (resolveFor b cache settings support observations).toAddressOwnership
      facts catchAlls support)
    (hin : ∃ link, ∃ net ∈ bookNetworks b support link, net.contains ip = true)
    (hhost : ∀ host ∈ facts.tunnelRoutes, host.isSingleAddress = true → host.contains ip = true →
      host ∉ bookNetworks b support .main) :
    let o := resolveFor b cache settings support observations
    let plan := planNetworkRoutes mode b true o.toAddressOwnership facts catchAlls support
    ∃ link, o.networks.winner ip = some link ∧ (∃ e ∈ plan.networks, e.2.contains ip = true) ∧
      ∀ e, LongestAt plan.networks ip e → e.1 = link ∧
        (link = .main → ∀ c ∈ competitorsOf mode true facts catchAlls .main,
          c.contains ip = true → c.isSingleAddress = false → c.prefixLen < e.2.prefixLen) := by
  intro o plan
  have hplan (link : Link) (p : IpBlock) : (link, p) ∈ plan.networks ↔
      Planned (bookNetworks b support .main) (bookNetworks b support .additional)
        (competitorsOf mode true facts catchAlls) link p :=
    plan_iff_planned rfl hlocal hservers hcap
  have hclaimed : ∃ net, (net ∈ bookNetworks b support .main ∨
      net ∈ bookNetworks b support .additional) ∧ net.contains ip = true := by
    obtain ⟨link, net, hnet, hc⟩ := hin
    cases link with
    | main => exact ⟨net, Or.inl hnet, hc⟩
    | additional => exact ⟨net, Or.inr hnet, hc⟩
  obtain ⟨link, net, hwin, hw⟩ := winner_narrowest hclaimed
  have hkept : net ∈ competitorsOf mode true facts catchAlls link → net.isSingleAddress = false :=
    narrowest_splits hw fun _ => hhost
  obtain ⟨p, hp, hpin, hplen⟩ := piece_at_narrowest hw hkept
  refine ⟨link, hwin, ⟨(link, p), (hplan link p).mpr hp, hpin⟩, fun e he => ?_⟩
  obtain ⟨hmem, hein, hmost⟩ := he
  have hlink : e.1 = link := by
    by_contra hne
    have hwider := other_piece_wider hw ((hplan e.1 e.2).mp hmem) hein hne
    have hlong := hmost (link, p) ((hplan link p).mpr hp) hpin
    simp only at hlong
    omega
  refine ⟨hlink, fun hmain c hc hcin hcs => ?_⟩
  subst hmain
  obtain ⟨q, hq, hqin, hqlen⟩ := piece_over_competitor hw hkept hc hcin hcs
  have hlong := hmost (.main, q) ((hplan .main q).mpr hq) hqin
  simp only at hlong
  omega

def hostTunnel : NetworkRouteFacts := ⟨[⟨.v4 0x0A000001, 32, by decide, by decide⟩], [], [], [], []⟩

def noPrograms : AppObservationLookup := ⟨fun _ => [], fun _ => [], fun _ _ => false⟩

def addressesFirst : OwnershipSettings := ⟨.exactIpFirst, false⟩

def nestedNetworks (inner : IpBlock) : CanonicalRuleBook :=
  bookOf [addressRule "R-1" true (.subnet inner) .route]
    [addressRule "R-2" true (.subnet tenNet) .route]

theorem inner_network_routed :
    let b := nestedNetworks ⟨.v4 0x0A000000, 24, by decide, by decide⟩
    let o := resolveFor b noNames addressesFirst everyShape noPrograms
    ∀ e, LongestAt (planNetworkRoutes .preferPrimary b true o.toAddressOwnership hostTunnel []
      everyShape).networks (.v4 0x0A000001) e → e.1 = .main := by
  intro b o e he
  obtain ⟨link, hwin, -, hall⟩ := planned_routes_follow_winner .preferPrimary b noNames
    addressesFirst everyShape noPrograms hostTunnel [] (.v4 0x0A000001) rfl rfl
    (by intro link; cases link <;> decide +kernel)
    ⟨.main, by decide +kernel⟩ (by decide +kernel)
  obtain rfl : link = .main := by
    have hmain : (resolveFor b noNames addressesFirst everyShape noPrograms).networks.winner
        (.v4 0x0A000001) = some .main := by decide +kernel
    exact (Option.some.inj (hmain.symm.trans hwin)).symm
  exact (hall e he).1

/-- A route of the tunnel for the one address a main network names keeps the address from the main
link, and the wider network of the other link carries it. -/
theorem tunnel_host_route_kept :
    let b := nestedNetworks ⟨.v4 0x0A000001, 32, by decide, by decide⟩
    let o := resolveFor b noNames addressesFirst everyShape noPrograms
    o.networks.winner (.v4 0x0A000001) = some .main ∧
      LongestAt (planNetworkRoutes .preferPrimary b true o.toAddressOwnership hostTunnel []
        everyShape).networks (.v4 0x0A000001)
          (.additional, ⟨.v4 0x0A000000, 8, by decide, by decide⟩) := by
  unfold LongestAt
  decide +kernel

end NetRuleRouter.RoutedNetworks
