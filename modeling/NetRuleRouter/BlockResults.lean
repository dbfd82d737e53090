import NetRuleRouter.FailClosedHolds
import NetRuleRouter.LoweredPlan

/-!
# What the block algorithms compute

The planners of routes, filters and holds work on aligned blocks: splitting a
block past its competitors, subtracting holes, and looking up the networks and
addresses around or inside a block. Each is compared with the set of addresses
it stands for.
-/

set_option autoImplicit false

namespace NetRuleRouter.BlockResults
open Sorting IpNetwork LongestPrefix BlockGeometry Bisection Arbiter NetworkRoutes RoutedNetworks
open CarvedNetworks FailClosedHolds LoweredPlan Canonical

def LongestOf (blocks : List IpBlock) (ip : IpAddr) (p : IpBlock) : Prop :=
  p ∈ blocks ∧ p.contains ip = true ∧
    ∀ q ∈ blocks, q.contains ip = true → q.prefixLen ≤ p.prefixLen

section
variable {pieces competitors : List IpBlock} {block : IpBlock} {ip : IpAddr}

theorem longest_past (hsome : ∃ p ∈ pieces, p.contains ip = true)
    (hpast : ∀ c ∈ competitors, c.contains ip = true →
      ∃ p ∈ pieces, p.contains ip = true ∧ c.prefixLen < p.prefixLen) :
    ∃ p, LongestOf pieces ip p ∧
      ∀ c ∈ competitors, c.contains ip = true → c.prefixLen < p.prefixLen := by
  obtain ⟨w, hw⟩ := exists_longest hsome
  refine ⟨w, hw, fun c hc hin => ?_⟩
  obtain ⟨p, hp, hpin, hlt⟩ := hpast c hc hin
  exact lt_of_lt_of_le hlt (hw.2.2 p hp hpin)

theorem split_past (hin : block.contains ip = true)
    (hhost : ∀ c ∈ competitors, c.isSingleAddress = true → c.contains ip = false) :
    ∃ p, LongestOf (splitAgainst block competitors) ip p ∧
      ∀ c ∈ competitors, c.contains ip = true → c.prefixLen < p.prefixLen := by
  have hwide {c : IpBlock} (hc : c ∈ competitors) (hcin : c.contains ip = true) :
      c.isSingleAddress = false := by
    rw [Bool.eq_false_iff]
    intro hs
    rw [hhost c hc hs] at hcin
    cases hcin
  have hown (hc : block ∈ competitors) : block.isSingleAddress = false := hwide hc hin
  exact longest_past (split_at hin hown) fun c hc hcin =>
    split_over hin hown hc hcin (hwide hc hcin)

end

section
variable {x : BitVec 32} {n : ℕ} {b p : IpBlock} {catchAlls : List (BitVec 32 × ℕ)}

theorem masked_bits (hn : n ≤ 32) :
    (x &&& prefixMask n).toNat = x.toNat / 2 ^ (32 - n) * 2 ^ (32 - n) := by
  rcases Nat.eq_zero_or_pos n with rfl | hpos
  · have hlt := x.isLt
    simp [prefixMask, Nat.div_eq_of_lt hlt]
  · have hmask : x &&& prefixMask n = (x >>> (32 - n)) <<< (32 - n) := by
      ext i hi
      by_cases hlow : i < 32 - n
      · simp [prefixMask, hpos.ne', hlow]
      · simp [prefixMask, hpos.ne', hlow, hi, Nat.add_sub_cancel' (Nat.le_of_not_lt hlow),
          -BitVec.reduceAllOnes]
    rw [hmask, BitVec.toNat_shiftLeft, BitVec.toNat_ushiftRight, Nat.shiftRight_eq_div_pow,
      Nat.shiftLeft_eq, Nat.mod_eq_of_lt]
    exact lt_of_le_of_lt (Nat.div_mul_le_self _ _) x.isLt

theorem overlay_halves (hn : n < 32) (hb : IpBlock.new (.v4 x) n = some b) :
    halvesOf b = v4Blocks [(x &&& prefixMask n, n + 1),
      ((x &&& prefixMask n) ||| 1#32 <<< (31 - n), n + 1)] := by
  have hlen : b.prefixLen = n := (block_new_iff.mp hb).2
  have hnet : b.network = .v4 (x &&& prefixMask n) := by
    have hfit : n ≤ familyBits (.v4 x) := hn.le
    rw [IpBlock.new, if_pos hfit] at hb
    rw [← Option.some.inj hb]
    refine congrArg IpAddr.v4 (BitVec.eq_of_toNat_eq ?_)
    rw [masked_bits hn.le, BitVec.toNat_ofNat, Nat.mod_eq_of_lt]
    · rfl
    · exact masked_lt (.v4 x) _
  have hsingle : ¬ b.isSingleAddress = true := by
    simp [IpBlock.isSingleAddress, IpBlock.maxPrefixLen, IpBlock.isIpv4, hnet, IpAddr.isIpv4, hlen]
    omega
  have hhigh : fromBits b.network
      (toBits b.network ||| 2 ^ (b.maxPrefixLen - (b.prefixLen + 1))) =
        .v4 ((x &&& prefixMask n) ||| 1#32 <<< (31 - n)) := by
    have hexp : b.maxPrefixLen - (b.prefixLen + 1) = 31 - n := by
      simp [IpBlock.maxPrefixLen, IpBlock.isIpv4, hnet, IpAddr.isIpv4, hlen]
    rw [hexp, hnet]
    refine congrArg IpAddr.v4 (BitVec.eq_of_toNat_eq ?_)
    have hlt : 2 ^ (31 - n) < 2 ^ 32 := Nat.pow_lt_pow_right (by omega) (by omega)
    have hhalf : (1#32 <<< (31 - n)).toNat = 2 ^ (31 - n) := by
      rw [BitVec.toNat_shiftLeft, Nat.shiftLeft_eq]
      simpa using Nat.mod_eq_of_lt hlt
    rw [BitVec.toNat_or, BitVec.toNat_ofNat, hhalf, toBits,
      Nat.mod_eq_of_lt (Nat.or_lt_two_pow (x &&& prefixMask n).isLt hlt)]
  have hfit : n + 1 ≤ familyBits (.v4 x) := hn
  have hnew (y : BitVec 32) : ∃ c, IpBlock.new (.v4 y) (n + 1) = some c := by
    simp [IpBlock.new, show n + 1 ≤ familyBits (.v4 y) from hn]
  obtain ⟨low, hlow⟩ := hnew (x &&& prefixMask n)
  obtain ⟨high, hhigh'⟩ := hnew ((x &&& prefixMask n) ||| 1#32 <<< (31 - n))
  rw [halvesOf, halves, if_neg hsingle]
  simp only [hhigh]
  simp [hlen, hnet, hlow, hhigh', v4Blocks]

theorem mem_overlay (hwide : ∀ e ∈ catchAlls, e.2 ≤ tunnelCatchAllMaxPrefix) :
    p ∈ v4Blocks (counterOverlayFor catchAlls) ↔ ∃ c ∈ v4Blocks catchAlls, p ∈ halvesOf c := by
  have hlist (set : List (BitVec 32 × ℕ)) :
      p ∈ v4Blocks set ↔ ∃ e ∈ set, p ∈ v4Blocks [e] := by
    simp [v4Blocks]
  have hnew {e : BitVec 32 × ℕ} (he : e ∈ catchAlls) :
      ∃ c, IpBlock.new (.v4 e.1) e.2 = some c ∧ halvesOf c = v4Blocks
        [(e.1 &&& prefixMask e.2, e.2 + 1),
          ((e.1 &&& prefixMask e.2) ||| 1#32 <<< (31 - e.2), e.2 + 1)] := by
    have hshort : e.2 < 32 := lt_of_le_of_lt (hwide e he) (by decide)
    obtain ⟨c, hc⟩ : ∃ c, IpBlock.new (.v4 e.1) e.2 = some c := by
      simp [IpBlock.new, show e.2 ≤ familyBits (.v4 e.1) from hshort.le]
    exact ⟨c, hc, overlay_halves hshort hc⟩
  constructor
  · intro h
    obtain ⟨r, hr, hp⟩ := (hlist _).mp h
    simp only [counterOverlayFor, List.mem_dedup, mem_sort_by, List.mem_flatMap,
      List.mem_filter] at hr
    obtain ⟨e, ⟨he, -⟩, hr⟩ := hr
    obtain ⟨c, hc, hhalves⟩ := hnew he
    refine ⟨c, List.mem_filterMap.mpr ⟨e, he, hc⟩, ?_⟩
    rw [hhalves]
    exact (hlist _).mpr ⟨r, hr, hp⟩
  · intro h
    obtain ⟨c, hmem, hp⟩ := h
    obtain ⟨e, he, hc⟩ := List.mem_filterMap.mp hmem
    obtain ⟨c', hc', hhalves⟩ := hnew he
    obtain rfl := Option.some.inj (hc.symm.trans hc')
    rw [hhalves] at hp
    obtain ⟨r, hr, hp⟩ := (hlist _).mp hp
    refine (hlist _).mpr ⟨r, ?_, hp⟩
    simp only [counterOverlayFor, List.mem_dedup, mem_sort_by, List.mem_flatMap,
      List.mem_filter]
    exact ⟨e, ⟨he, decide_eq_true (hwide e he)⟩, hr⟩

end

/-- The pieces of a block stay inside it and pass every competitor but a single address, and the
overlay of a tunnel's catch-alls covers what they cover and passes them everywhere. -/
theorem routes_pass_their_competitors :
    (∀ (block : IpBlock) (competitors : List IpBlock),
      (∀ p ∈ splitAgainst block competitors, ∀ ip, p.contains ip = true → block.contains ip = true) ∧
      ∀ ip, block.contains ip = true →
        (∀ c ∈ competitors, c.isSingleAddress = true → c.contains ip = false) →
        ∃ p, LongestOf (splitAgainst block competitors) ip p ∧
          ∀ c ∈ competitors, c.contains ip = true → c.prefixLen < p.prefixLen) ∧
    ∀ catchAlls : List (BitVec 32 × ℕ), (∀ e ∈ catchAlls, e.2 ≤ tunnelCatchAllMaxPrefix) →
      ∀ ip, (InSome (v4Blocks (counterOverlayFor catchAlls)) ip ↔ InSome (v4Blocks catchAlls) ip) ∧
        (InSome (v4Blocks catchAlls) ip →
          ∃ r, LongestOf (v4Blocks (counterOverlayFor catchAlls)) ip r ∧
            ∀ c ∈ v4Blocks catchAlls, c.contains ip = true → c.prefixLen < r.prefixLen) := by
  refine ⟨fun block competitors => ⟨fun p hp ip => contains_of_covers (split_inside hp),
    fun ip hin hhost => split_past hin hhost⟩, fun catchAlls hwide ip => ?_⟩
  have hhalf {c : IpBlock} (hc : c ∈ v4Blocks catchAlls) (hin : c.contains ip = true) :
      ∃ p ∈ v4Blocks (counterOverlayFor catchAlls),
        p.contains ip = true ∧ c.prefixLen < p.prefixLen := by
    have hs := v4_block_wide (fun e he => lt_of_le_of_lt (hwide e he) (by decide)) hc
    obtain ⟨p, hp, hpin⟩ := half_at hs hin
    have hlen := (mem_halves_of hp).1
    exact ⟨p, (mem_overlay hwide).mpr ⟨c, hc, hp⟩, hpin, by omega⟩
  have hsome : InSome (v4Blocks catchAlls) ip →
      ∃ p ∈ v4Blocks (counterOverlayFor catchAlls), p.contains ip = true := by
    intro h
    obtain ⟨c, hc, hin⟩ := h
    obtain ⟨p, hp, hpin, -⟩ := hhalf hc hin
    exact ⟨p, hp, hpin⟩
  refine ⟨⟨fun h => ?_, hsome⟩, fun h => longest_past (hsome h) fun c hc hin => hhalf hc hin⟩
  obtain ⟨p, hp, hin⟩ := h
  obtain ⟨c, hc, hhalves⟩ := (mem_overlay hwide).mp hp
  exact ⟨c, hc, contains_of_covers (mem_halves_of hhalves).2 hin⟩

theorem ten_passes_inner_ten :
    (∃ p, LongestOf (splitAgainst tenNet [tenNet, innerNet]) (.v4 0x0A010203) p ∧
      16 < p.prefixLen) ∧
    ∃ r, LongestOf (v4Blocks (counterOverlayFor [(0, 1), (0x80000000, 1)])) (.v4 0x08080808) r ∧
      1 < r.prefixLen := by
  constructor
  · obtain ⟨p, hp, hpast⟩ := (routes_pass_their_competitors.1 tenNet [tenNet, innerNet]).2
      (.v4 0x0A010203) (by decide) (by decide)
    exact ⟨p, hp, hpast innerNet (by simp) (by decide)⟩
  · obtain ⟨c, hc, hlen, hin⟩ : ∃ c ∈ v4Blocks [(0, 1), (0x80000000, 1)],
        c.prefixLen = 1 ∧ c.contains (.v4 0x08080808) = true := by decide
    obtain ⟨r, hr, hpast⟩ := (routes_pass_their_competitors.2 [(0, 1), (0x80000000, 1)] (by decide)
      (.v4 0x08080808)).2 ⟨c, hc, hin⟩
    exact ⟨r, hr, hlen ▸ hpast c hc hin⟩

section
variable {block hole current : IpBlock} {holes out pieces : List IpBlock} {cap : ℕ}

theorem half_covers {low high : IpBlock} (hh : halves current = some (low, high))
    (hcov : current.covers hole = true) (hne : current ≠ hole) :
    low.covers hole = true ∨ high.covers hole = true := by
  obtain ⟨hlow, hhigh, hboth⟩ := halves_some hh
  have hnet := contains_of_covers hcov (contains_network hole)
  have hlen : current.prefixLen + 1 ≤ hole.prefixLen := covers_strict hcov hne
  rcases (hboth hole.network).mp hnet with hin | hin
  · exact Or.inl (covers_iff.mpr ⟨hlow ▸ hlen, hin⟩)
  · exact Or.inr (covers_iff.mpr ⟨hhigh ▸ hlen, hin⟩)

theorem siblings_leave {fuel : ℕ} (hfuel : current.hostBits < fuel)
    (hcov : current.covers hole = true) (ip : IpAddr) :
    (∃ p ∈ siblings hole fuel current, p.contains ip = true) ↔
      current.contains ip = true ∧ hole.contains ip = false := by
  induction fuel generalizing current with
  | zero => omega
  | succ fuel ih =>
    rw [siblings]
    by_cases heq : current = hole
    · subst heq
      simp
    have hno : ∀ h ∈ [hole], h.covers current = false := by
      simp only [List.mem_singleton, forall_eq, Bool.eq_false_iff]
      exact fun hback => heq (covers_antisymm hcov hback)
    obtain ⟨low, high, hh⟩ := cut_halves hno (List.mem_singleton_self hole) hcov
    obtain ⟨hlbits, hhbits⟩ := halves_host_bits hh
    have hboth := (halves_some hh).2.2 ip
    -- the half beside the hole is kept whole
    have hbeside (hin : low.contains ip = true) (hin' : high.contains ip = true) : False := by
      rw [ends_before_disjoint (halves_ordered hh) hin] at hin'
      cases hin'
    simp only [if_neg heq, hh]
    by_cases hlow : low.covers hole = true
    · rw [if_pos hlow, List.exists_mem_cons_iff, ih (by omega) hlow, hboth]
      have hhole : hole.contains ip = true → low.contains ip = true := contains_of_covers hlow
      cases hc : hole.contains ip with
      | true => simpa [hhole hc] using fun hin => hbeside (hhole hc) hin
      | false => simp [or_comm]
    · have hhigh := (half_covers hh hcov heq).resolve_left hlow
      rw [if_neg hlow, List.exists_mem_cons_iff, ih (by omega) hhigh, hboth]
      have hhole : hole.contains ip = true → high.contains ip = true := contains_of_covers hhigh
      cases hc : hole.contains ip with
      | true => simpa [hhole hc] using fun hin => hbeside hin (hhole hc)
      | false => simp

theorem without_leaves (block hole : IpBlock) : Leaves block [hole] (without block hole) := by
  have hone (pieces : List IpBlock) (h : ∀ ip, (∃ p ∈ pieces, p.contains ip = true) ↔
      block.contains ip = true ∧ hole.contains ip = false) : Leaves block [hole] pieces := by
    simpa [Leaves] using h
  unfold without
  split
  · rename_i hapart
    simp only [IpBlock.overlaps, Bool.not_eq_true', Bool.or_eq_false_iff] at hapart
    refine hone _ fun ip => ?_
    simpa using fun hin => outside_of_no_cover hapart.2 hapart.1 hin
  · rename_i hover
    simp only [IpBlock.overlaps, Bool.not_eq_true', Bool.not_eq_false, Bool.or_eq_true] at hover
    split
    · rename_i hcov
      refine hone _ fun ip => ?_
      simpa using fun hin => contains_of_covers hcov hin
    · rename_i hcov
      exact hone _ (siblings_leave (Nat.lt_succ_self _) (hover.resolve_right hcov))

end

/-- Carving and subtracting leave, in address order, exactly the addresses outside the holes, and
so does going around one hole; carving gives up only where the cap cannot hold any list of blocks
that covers them. -/
theorem subtraction_exact (block : IpBlock) (holes : List IpBlock) :
    (∀ (out : List IpBlock) (cap : ℕ), (carve block holes out cap).1 = true →
      ∃ new, (carve block holes out cap).2 = out ++ new ∧ new.Pairwise EndsBefore ∧
        Leaves block holes new) ∧
    ((subtract block holes).Pairwise EndsBefore ∧ Leaves block holes (subtract block holes)) ∧
    (∀ hole : IpBlock, Leaves block [hole] (without block hole)) ∧
    ∀ (out : List IpBlock) (cap : ℕ), (carve block holes out cap).1 = false →
      ∀ pieces : List IpBlock, Leaves block holes pieces → cap < out.length + pieces.length := by
  refine ⟨fun out cap h => ?_, ⟨bisected_ordered (subtract_from_cuts le_rfl),
    subtract_leaves block holes⟩, without_leaves block, fun out cap h pieces hpieces => ?_⟩
  · obtain ⟨new, hnew, hcut, -⟩ := @carve_from_cuts block holes out cap _ le_rfl
    exact ⟨new, hnew, bisected_ordered hcut, leaves_iff.mpr (bisected_exact hcut h)⟩
  · obtain ⟨new, -, hcut, hcap⟩ := @carve_from_cuts block holes out cap _ le_rfl
    have hfew := widest_fewest (bisected_ordered hcut) (bisected_widest hcut) (bisected_inside hcut)
      (leaves_iff.mp hpieces)
    have := hcap h
    omega

/-- Eight blocks are left of 10.0.0.0/8 without 10.1.0.0/16, and no list of seven covers them. -/
theorem ten_without_inner_ten :
    (∃ new, (carve tenNet [innerNet] [] 8).2 = [] ++ new ∧ new.Pairwise EndsBefore ∧
      Leaves tenNet [innerNet] new) ∧
    ∀ pieces, Leaves tenNet [innerNet] pieces → 7 < pieces.length := by
  have hexact := subtraction_exact tenNet [innerNet]
  refine ⟨hexact.1 [] 8 (by decide +kernel), fun pieces h => ?_⟩
  simpa using hexact.2.2.2 [] 7 (by decide +kernel) pieces h

section
variable {main additional : List IpBlock} {o : AddressOwnership} {n : IpBlock} {net : IpBlock}

theorem in_order_strict {α : Type} {order : α → α → Ordering} {l : List α}
    (heq : ∀ a b, order a b = .eq → a = b) (hsorted : Sorted order l) (hnodup : l.Nodup) :
    l.Pairwise fun a b => order a b = .lt := by
  refine (hsorted.and hnodup).imp fun {a b} h => ?_
  have hne : order a b ≠ .eq := fun h' => h.2 (heq a b h')
  have hle := h.1
  unfold InOrder at hle
  cases hcmp : order a b <;> simp_all

theorem addr_order_eq (a b : IpAddr) (h : addrOrder a b = .eq) : a = b := by
  simp only [addrOrder, compareLex, compareOn, Ordering.then_eq_eq, compare_eq_iff_eq] at h
  exact addr_ext (by simpa using h.1) h.2

theorem block_order_eq (a b : IpBlock) (h : blockOrder a b = .eq) : a = b := by
  simp only [blockOrder, compareLex, compareOn, Ordering.then_eq_eq, compare_eq_iff_eq] at h
  exact block_ext (addr_ext (by simpa [IpBlock.isIpv4] using h.1) h.2.1) h.2.2

theorem networks_inside_ascending :
    ((networksInside (NetworkClaims.new main additional) n).map Prod.fst).Pairwise
      fun a b => blockOrder a b = .lt := by
  have hstrict : (NetworkClaims.new main additional).sorted.Pairwise
      fun a b => blockOrder a b = .lt :=
    in_order_strict block_order_eq networks_sorted
      ((sort_by_perm _ _).nodup_iff.mpr (List.nodup_dedup _))
  have hkept (l : List IpBlock) : ((l.filterMap fun net =>
      ((NetworkClaims.new main additional).claim net).map fun c => (net, c.winner)).map
        Prod.fst).Sublist l := by
    induction l with
    | nil => exact List.Sublist.slnil
    | cons net l ih =>
      rw [List.filterMap_cons]
      cases (NetworkClaims.new main additional).claim net with
      | none => exact ih.cons net
      | some c => exact ih.cons_cons net
  exact hstrict.sublist ((hkept _).trans (List.filter_sublist.trans
    ((List.takeWhile_sublist _).trans (List.dropWhile_sublist _))))

theorem explicit_inside_ascending :
    (explicitInside o n).Pairwise fun a b => addrOrder a b = .lt := by
  refine (in_order_strict addr_order_eq ?_ (List.nodup_dedup _)).sublist
    ((List.takeWhile_sublist _).trans (List.dropWhile_sublist _))
  exact (sort_by_sorted addrOrder _).sublist (List.dedup_sublist _)

theorem winner_main {c : NetworkClaim}
    (hc : c = ⟨net ∈ main, net ∈ additional⟩) : c.winner = .main ↔ net ∈ main := by
  subst hc
  simp [NetworkClaim.winner]

theorem link_eq {link link' : Link} (h : link = .main ↔ link' = .main) : link = link' := by
  cases link <;> cases link' <;> simp_all

theorem narrowest_iff {ip : IpAddr} {link : Link} :
    (NetworkClaims.new main additional).narrowest ip = some (net, link) ↔
      (net ∈ main ∨ net ∈ additional) ∧ net.contains ip = true ∧
        (∀ other, other ∈ main ∨ other ∈ additional → other.contains ip = true → other ≠ net →
          other.prefixLen < net.prefixLen) ∧ (link = .main ↔ net ∈ main) := by
  constructor
  · intro h
    obtain ⟨e, hl, he⟩ := Option.map_eq_some_iff.mp h
    obtain ⟨rfl, rfl⟩ := Prod.mk.inj he
    obtain ⟨hin, hclaimed, hc, hmost⟩ := longest_some main additional hl
    refine ⟨hclaimed, hin, fun other ho hoin hne => ?_, winner_main hc⟩
    exact lt_of_le_of_ne (hmost other ho hoin) fun hlen => hne (same_length_eq hoin hin hlen)
  · intro h
    obtain ⟨hclaimed, hin, hmost, hlink⟩ := h
    obtain ⟨e, hl⟩ := longest_exists main additional hin hclaimed
    obtain ⟨hein, heclaimed, hc, hlongest⟩ := longest_some main additional hl
    have hnet : e.1 = net := by
      by_contra hne
      exact absurd (hmost e.1 heclaimed hein hne) (not_lt.mpr (hlongest net hclaimed hin))
    have hwinner : e.2.winner = link := by
      refine link_eq ((winner_main hc).trans ?_)
      rw [hnet, hlink]
    rw [NetworkClaims.narrowest, hl, ← hnet, ← hwinner]
    rfl

end

/-- The narrowest network at an address is the one claimed network of greatest prefix length there,
and the interior queries list exactly the claimed networks and the taken addresses inside a
network, in address order. -/
theorem network_lookup_exact (main additional : List IpBlock) (o : AddressOwnership) :
    (∀ ip, ((NetworkClaims.new main additional).narrowest ip = none ↔
        ∀ net, net ∈ main ∨ net ∈ additional → net.contains ip = false) ∧
      ∀ net link, (NetworkClaims.new main additional).narrowest ip = some (net, link) ↔
        (net ∈ main ∨ net ∈ additional) ∧ net.contains ip = true ∧
          (∀ other, other ∈ main ∨ other ∈ additional → other.contains ip = true → other ≠ net →
            other.prefixLen < net.prefixLen) ∧ (link = .main ↔ net ∈ main)) ∧
    ∀ n : IpBlock,
      (∀ net link, (net, link) ∈ networksInside (NetworkClaims.new main additional) n ↔
        (net ∈ main ∨ net ∈ additional) ∧ n.covers net = true ∧ net ≠ n ∧
          (link = .main ↔ net ∈ main)) ∧
      ((networksInside (NetworkClaims.new main additional) n).map Prod.fst).Pairwise
        (fun a b => blockOrder a b = .lt) ∧
      (∀ ip, ip ∈ explicitInside o n ↔
        (ip ∈ o.routeRank.map Prod.fst ∨ ip ∈ o.appTaken.map Prod.fst) ∧ n.contains ip = true) ∧
      (explicitInside o n).Pairwise fun a b => addrOrder a b = .lt := by
  refine ⟨fun ip => ⟨⟨fun h => longest_none main additional (Option.map_eq_none_iff.mp h),
      fun h => ?_⟩, fun net link => narrowest_iff⟩,
    fun n => ⟨fun net link => ?_, networks_inside_ascending, fun ip => mem_explicit_inside,
      explicit_inside_ascending⟩⟩
  · cases hl : (NetworkClaims.new main additional).longest ip with
    | none => rw [NetworkClaims.narrowest, hl, Option.map_none]
    | some e =>
      obtain ⟨hin, hclaimed, -⟩ := longest_some main additional hl
      rw [h e.1 hclaimed] at hin
      cases hin
  · rw [mem_networks_inside]
    refine and_congr_right fun _ => ?_
    have hstrict : n.prefixLen < net.prefixLen ∧ n.covers net = true ↔
        n.covers net = true ∧ net ≠ n := by
      constructor
      · rintro ⟨hlt, hcov⟩
        exact ⟨hcov, fun heq => by simp [heq] at hlt⟩
      · rintro ⟨hcov, hne⟩
        exact ⟨covers_strict hcov hne.symm, hcov⟩
    rw [← and_assoc, hstrict, and_assoc]
    refine and_congr_right fun _ => and_congr_right fun _ => ?_
    constructor
    · rintro rfl
      simp
    · intro h
      exact link_eq (h.trans (by simp))

def oneTaken : AddressOwnership :=
  ⟨[], [], [], .new [tenNet] [innerNet], [], [], [(.v4 0x0A010203, .main)], .zoneFirst⟩

theorem inner_ten_narrowest :
    (NetworkClaims.new [tenNet] [innerNet]).narrowest (.v4 0x0A010203) =
      some (innerNet, .additional) ∧
    (innerNet, .additional) ∈ networksInside (.new [tenNet] [innerNet]) tenNet ∧
    .v4 0x0A010203 ∈ explicitInside oneTaken tenNet := by
  obtain ⟨hlookup, hinside⟩ := network_lookup_exact [tenNet] [innerNet] oneTaken
  refine ⟨((hlookup _).2 innerNet .additional).mpr
    ⟨by simp, by decide, fun other hother _ hne => ?_, by decide⟩,
    ((hinside tenNet).1 _ _).mpr ⟨by simp, by decide, by decide, by decide⟩,
    ((hinside tenNet).2.2.1 _).mpr ⟨.inr (by simp [oneTaken]), by decide⟩⟩
  have hten : other = tenNet := by simpa [hne] using hother
  rw [hten]
  decide

end NetRuleRouter.BlockResults
