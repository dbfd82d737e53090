import NetRuleRouter.BlockGeometry

/-!
# Cutting a block by bisection

Subtracting holes from a block halves it until a part is free of holes or
inside one. The parts come out in address order, and none can be widened
without reaching an address that was to be left out, so no list of blocks that
covers the same addresses is shorter.
-/

set_option autoImplicit false

namespace NetRuleRouter.Bisection
open IpNetwork BlockGeometry

def EndsBefore (b c : IpBlock) : Prop :=
  ∀ x y, b.contains x = true → c.contains y = true → addrOrder x y = .lt

def Widest (within : IpAddr → Prop) (b : IpBlock) : Prop :=
  ∀ q : IpBlock, q.covers b = true → (∀ ip, q.contains ip = true → within ip) → q = b

section
variable {b c low high : IpBlock} {x y : IpAddr}

theorem addr_before (hf : x.isIpv4 = y.isIpv4) : addrOrder x y = .lt ↔ toBits x < toBits y := by
  simp [addrOrder, compareLex, compareOn, hf, Nat.compare_eq_lt]

theorem ends_before_disjoint (h : EndsBefore b c) (hb : b.contains x = true) :
    c.contains x = false := by
  rw [Bool.eq_false_iff]
  intro hc
  have hlt := (addr_before rfl).mp (h x x hb hc)
  omega

theorem contains_last (c : IpBlock) : c.contains c.last = true := by
  have hpos := Nat.two_pow_pos c.hostBits
  rw [block_contains_iff, last_bits]
  exact ⟨by simp [IpBlock.last], by omega, by omega⟩

theorem covers_of_inside (h : ∀ ip, c.contains ip = true → b.contains ip = true) :
    b.covers c = true := by
  have hnet := h _ (contains_network c)
  obtain ⟨hf, hle, -⟩ := (block_contains_iff b _).mp hnet
  obtain ⟨-, -, hlt⟩ := (block_contains_iff b _).mp (h _ (contains_last c))
  have hbits : c.hostBits ≤ b.hostBits := by
    rw [last_bits] at hlt
    exact (Nat.pow_le_pow_iff_right (by omega)).mp (show 2 ^ c.hostBits ≤ 2 ^ b.hostBits by omega)
  have hfam : familyBits c.network = familyBits b.network := by simp [familyBits, hf]
  have hbadd := host_bits_add b
  have hcadd := host_bits_add c
  exact covers_of_contains hnet (contains_network c) (by omega)

theorem halves_ordered (h : halves b = some (low, high)) : EndsBefore low high := by
  obtain ⟨k, -, hlk, -, hlf, hhf, hln, hhn⟩ := halves_at h
  intro x y hx hy
  rw [block_contains_iff] at hx hy
  rw [addr_before (by rw [hx.1, hy.1, hlf, hhf])]
  rw [hlk] at hx
  omega

end

theorem widest_fewest {within : IpAddr → Prop} {blocks pieces : List IpBlock}
    (hordered : blocks.Pairwise EndsBefore) (hwidest : ∀ b ∈ blocks, Widest within b)
    (hinside : ∀ b ∈ blocks, ∀ ip, b.contains ip = true → within ip)
    (hpieces : ∀ ip, (∃ p ∈ pieces, p.contains ip = true) ↔ within ip) :
    blocks.length ≤ pieces.length := by
  have hpick : ∀ b ∈ blocks, ∃ p ∈ pieces, b.covers p = true := by
    intro b hb
    obtain ⟨p, hp, hin⟩ := (hpieces b.network).mpr (hinside b hb _ (contains_network b))
    refine ⟨p, hp, ?_⟩
    rcases covers_or_covers (contains_network b) hin with hcov | hcov
    · exact hcov
    · -- a wider piece would stay within the addresses
      have heq := hwidest b hb p hcov fun ip hip => (hpieces ip).mp ⟨p, hp, hip⟩
      rw [heq]
      exact covers_self b
  have : Nonempty IpBlock := ⟨blockAt (.v4 0) 0 0 (by simp) (by simp)⟩
  choose! pick hmem hcov using hpick
  have hnodup : (blocks.map pick).Nodup := by
    refine List.pairwise_map.mpr (hordered.imp_of_mem fun {b c} hb hc hbc heq => ?_)
    have hin := contains_of_covers (hcov b hb) (contains_network (pick b))
    have hout := ends_before_disjoint hbc hin
    rw [heq, contains_of_covers (hcov c hc) (contains_network (pick c))] at hout
    cases hout
  have hsub := hnodup.subperm (List.forall_mem_map.mpr hmem)
  simpa using hsub.length_le

/-- The parts of a block that are left without the addresses of `hole`; the walk may stop early
when it need not be complete. -/
inductive Bisected (hole : IpAddr → Prop) : Bool → IpBlock → List IpBlock → Prop
  | stop (b : IpBlock) : Bisected hole false b []
  | gone (b : IpBlock) (h : ∀ ip, b.contains ip = true → hole ip) : Bisected hole true b []
  | whole (b : IpBlock) (full : Bool) (h : ∀ ip, b.contains ip = true → ¬ hole ip) :
      Bisected hole full b [b]
  | split {b low high : IpBlock} {fullLow fullHigh : Bool} {xs ys : List IpBlock}
      (hmeets : ∃ ip, b.contains ip = true ∧ hole ip) (hh : halves b = some (low, high))
      (hlow : Bisected hole fullLow low xs) (hhigh : Bisected hole fullHigh high ys) :
      Bisected hole (fullLow && fullHigh) b (xs ++ ys)

section
variable {hole : IpAddr → Prop} {full : Bool} {b : IpBlock} {pieces : List IpBlock}
variable (h : Bisected hole full b pieces)
include h

theorem bisected_congr {hole' : IpAddr → Prop}
    (hsame : ∀ ip, b.contains ip = true → (hole ip ↔ hole' ip)) : Bisected hole' full b pieces := by
  induction h with
  | stop => exact .stop _
  | gone b hgone => exact .gone b fun ip hip => (hsame ip hip).mp (hgone ip hip)
  | whole b full hfree => exact .whole b full fun ip hip => mt (hsame ip hip).mpr (hfree ip hip)
  | split hmeets hh hlow hhigh ihlow ihhigh =>
    obtain ⟨ip, hip, hhole⟩ := hmeets
    have hboth := (halves_some hh).2.2
    exact .split ⟨ip, hip, (hsame ip hip).mp hhole⟩ hh
      (ihlow fun ip hip => hsame ip ((hboth ip).mpr (Or.inl hip)))
      (ihhigh fun ip hip => hsame ip ((hboth ip).mpr (Or.inr hip)))

theorem bisected_inside :
    ∀ p ∈ pieces, ∀ ip, p.contains ip = true → b.contains ip = true ∧ ¬ hole ip := by
  induction h with
  | stop | gone => simp
  | whole b full hfree => simpa using fun ip hip => ⟨hip, hfree ip hip⟩
  | split hmeets hh hlow hhigh ihlow ihhigh =>
    intro p hp ip hip
    have hboth := (halves_some hh).2.2 ip
    rcases List.mem_append.mp hp with hp | hp
    · exact ⟨hboth.mpr (Or.inl (ihlow p hp ip hip).1), (ihlow p hp ip hip).2⟩
    · exact ⟨hboth.mpr (Or.inr (ihhigh p hp ip hip).1), (ihhigh p hp ip hip).2⟩

theorem bisected_exact (hfull : full = true) (ip : IpAddr) :
    (∃ p ∈ pieces, p.contains ip = true) ↔ b.contains ip = true ∧ ¬ hole ip := by
  refine ⟨fun ⟨p, hp, hip⟩ => bisected_inside h p hp ip hip, fun hin => ?_⟩
  induction h with
  | stop => cases hfull
  | gone b hgone => exact absurd (hgone ip hin.1) hin.2
  | whole b full hfree => exact ⟨b, by simp, hin.1⟩
  | split hmeets hh hlow hhigh ihlow ihhigh =>
    rw [Bool.and_eq_true] at hfull
    rcases ((halves_some hh).2.2 ip).mp hin.1 with hip | hip
    · obtain ⟨p, hp, hpip⟩ := ihlow hfull.1 ⟨hip, hin.2⟩
      exact ⟨p, List.mem_append_left _ hp, hpip⟩
    · obtain ⟨p, hp, hpip⟩ := ihhigh hfull.2 ⟨hip, hin.2⟩
      exact ⟨p, List.mem_append_right _ hp, hpip⟩

theorem bisected_ordered : pieces.Pairwise EndsBefore := by
  induction h with
  | stop | gone => exact List.Pairwise.nil
  | whole b full hfree => exact List.pairwise_singleton _ _
  | split hmeets hh hlow hhigh ihlow ihhigh =>
    refine List.pairwise_append.mpr ⟨ihlow, ihhigh, fun p hp q hq x y hx hy => ?_⟩
    exact halves_ordered hh x y (bisected_inside hlow p hp x hx).1
      (bisected_inside hhigh q hq y hy).1

theorem bisected_widest :
    ∀ p ∈ pieces, Widest (fun ip => b.contains ip = true ∧ ¬ hole ip) p := by
  induction h with
  | stop | gone => simp
  | whole b full hfree =>
    intro p hp q hq hwithin
    obtain rfl := List.mem_singleton.mp hp
    exact covers_antisymm hq (covers_of_inside fun ip hip => (hwithin ip hip).1)
  | @split b low high fullLow fullHigh xs ys hmeets hh hlow hhigh ihlow ihhigh =>
    obtain ⟨meet, hmeet, hhole⟩ := hmeets
    have hlift {half p : IpBlock} (hlen : half.prefixLen = b.prefixLen + 1)
        (hhalf : ∀ ip, half.contains ip = true → b.contains ip = true)
        (hin : ∀ ip, p.contains ip = true → half.contains ip = true)
        (hw : Widest (fun ip => half.contains ip = true ∧ ¬ hole ip) p) :
        Widest (fun ip => b.contains ip = true ∧ ¬ hole ip) p := by
      intro q hq hwithin
      refine hw q hq fun ip hip => ⟨?_, (hwithin ip hip).2⟩
      have hqp := contains_of_covers hq (contains_network p)
      have hhp := hin _ (contains_network p)
      rcases Nat.lt_or_ge q.prefixLen half.prefixLen with hlt | hge
      · -- as wide as the block it would reach the hole
        have hcov := covers_of_contains hqp (hhalf _ hhp) (by omega)
        exact absurd hhole (hwithin meet (contains_of_covers hcov hmeet)).2
      · exact contains_of_covers (covers_of_contains hhp hqp hge) hip
    obtain ⟨hlowlen, hhighlen, hboth⟩ := halves_some hh
    intro p hp
    rcases List.mem_append.mp hp with hp | hp
    · exact hlift hlowlen (fun ip hip => (hboth ip).mpr (Or.inl hip))
        (fun ip hip => (bisected_inside hlow p hp ip hip).1) (ihlow p hp)
    · exact hlift hhighlen (fun ip hip => (hboth ip).mpr (Or.inr hip))
        (fun ip hip => (bisected_inside hhigh p hp ip hip).1) (ihhigh p hp)

end

def InSome (blocks : List IpBlock) (ip : IpAddr) : Prop := ∃ b ∈ blocks, b.contains ip = true

section
variable {block hole : IpBlock} {holes : List IpBlock} {ip : IpAddr}

theorem outside_of_no_cover (hno : hole.covers block = false) (hnot : block.covers hole = false)
    (hip : block.contains ip = true) : hole.contains ip = false := by
  rw [Bool.eq_false_iff]
  intro hc
  rcases covers_or_covers hip hc with h | h
  · rw [hnot] at h
    cases h
  · rw [hno] at h
    cases h

theorem cut_gone (hin : hole ∈ holes) (hcov : hole.covers block = true) :
    Bisected (InSome holes) true block [] :=
  .gone block fun _ hip => ⟨hole, hin, contains_of_covers hcov hip⟩

theorem cut_whole (full : Bool) (hno : ∀ hole ∈ holes, hole.covers block = false)
    (hinside : ∀ hole ∈ holes, block.covers hole = false) :
    Bisected (InSome holes) full block [block] := by
  refine .whole block full fun ip hip hhole => ?_
  obtain ⟨hole, hin, hc⟩ := hhole
  rw [outside_of_no_cover (hno hole hin) (hinside hole hin) hip] at hc
  cases hc

theorem cut_meets (hin : hole ∈ holes) (hcov : block.covers hole = true) :
    ∃ ip, block.contains ip = true ∧ InSome holes ip :=
  ⟨hole.network, contains_of_covers hcov (contains_network hole), hole, hin, contains_network hole⟩

variable (hno : ∀ hole ∈ holes, hole.covers block = false)
include hno

theorem cut_inside (hip : block.contains ip = true) :
    InSome (holes.filter fun hole => block.covers hole) ip ↔ InSome holes ip := by
  constructor
  · intro h
    obtain ⟨hole, hin, hc⟩ := h
    exact ⟨hole, (List.mem_filter.mp hin).1, hc⟩
  · intro h
    obtain ⟨hole, hin, hc⟩ := h
    refine ⟨hole, List.mem_filter.mpr ⟨hin, ?_⟩, hc⟩
    by_contra hcov
    rw [outside_of_no_cover (hno hole hin) (Bool.eq_false_iff.mpr hcov) hip] at hc
    cases hc

theorem cut_join {low high : IpBlock} {fullLow fullHigh : Bool} {xs ys : List IpBlock}
    (hsome : ∃ hole ∈ holes, block.covers hole = true) (hh : halves block = some (low, high))
    (hlow : Bisected (InSome (holes.filter fun hole => block.covers hole)) fullLow low xs)
    (hhigh : Bisected (InSome (holes.filter fun hole => block.covers hole)) fullHigh high ys) :
    Bisected (InSome holes) (fullLow && fullHigh) block (xs ++ ys) := by
  obtain ⟨hole, hin, hcov⟩ := hsome
  have hboth := (halves_some hh).2.2
  exact .split (cut_meets hin hcov) hh
    (bisected_congr hlow fun ip hip => cut_inside hno ((hboth ip).mpr (Or.inl hip)))
    (bisected_congr hhigh fun ip hip => cut_inside hno ((hboth ip).mpr (Or.inr hip)))

theorem cut_halves (hin : hole ∈ holes)
    (hcov : block.covers hole = true) : ∃ low high, halves block = some (low, high) := by
  cases hh : halves block with
  | some lh => exact ⟨lh.1, lh.2, rfl⟩
  | none =>
    have hs := halves_none.mp hh
    have hback := covers_of_inside fun ip hip =>
      (single_contains hs).mp hip ▸ (single_contains hs).mp
        (contains_of_covers hcov (contains_network hole)) ▸ contains_network hole
    rw [hno hole hin] at hback
    cases hback

omit hno

theorem cut_fuel {fuel : ℕ} (hfuel : block.hostBits ≤ fuel)
    (hno : ∀ hole ∈ holes, hole.covers block = false)
    (hsome : ∃ hole ∈ holes, block.covers hole = true) :
    ∃ k low high, fuel = k + 1 ∧ halves block = some (low, high) := by
  obtain ⟨hole, hin, hcov⟩ := hsome
  obtain ⟨low, high, hh⟩ := cut_halves hno hin hcov
  have := halves_host_bits hh
  exact ⟨fuel - 1, low, high, by omega, hh⟩

end

end NetRuleRouter.Bisection
