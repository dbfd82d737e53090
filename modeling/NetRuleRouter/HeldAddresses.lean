import NetRuleRouter.FailClosedHolds

/-!
# The addresses Fail-Closed holds

Inside its one hold an address is open when a never-blocked network or a main
rule names it, or when some main network around it has no narrower item of the
additional link inside. The longest network around it decides this, except for
a pinned address that is a whole main network: its pin does not keep it held.
-/

set_option autoImplicit false

namespace NetRuleRouter.HeldAddresses
open Sorting IpNetwork IpText LongestPrefix BlockGeometry RoutedNetworks FailClosedHolds

section
variable {input : NetworkHoldInput} {ip : IpAddr} {hold : IpBlock}

theorem main_slice_covered (hold : IpBlock) :
    Covered ((input.mainSingles.dropWhile fun a =>
        (addrOrder a.network hold.network).isLT).takeWhile
          fun a => (addrOrder a.network hold.last).isLE) ip ↔
      hold.contains ip = true ∧ ∃ a ∈ input.mainAddresses, canonicalIp a = ip := by
  have : Std.TransCmp blockOrder := by unfold blockOrder; infer_instance
  have hsorted : Sorted blockOrder input.mainSingles := sort_by_sorted _ _
  have hmem {b : IpBlock} : b ∈ input.mainSingles ↔
      ∃ a ∈ input.mainAddresses, singleAddress a = some b := by
    simp only [NetworkHoldInput.mainSingles, mem_sort_by, List.mem_filterMap]
  simp only [Covered, mem_block_slice hsorted, hmem]
  constructor
  · rintro ⟨b, ⟨⟨a, ha, hb⟩, hin⟩, hc⟩
    obtain ⟨hs, -⟩ := @single_address_contains ip a b hb
    rw [(single_contains hs).mp hc]
    have hnet := (@single_address_contains b.network a b hb).2.mp (contains_network b)
    exact ⟨hin, a, ha, hnet.symm⟩
  · rintro ⟨hin, a, ha, rfl⟩
    obtain ⟨b, hb⟩ := exists_single_address a
    have hc := (@single_address_contains (canonicalIp a) a b hb).2.mpr rfl
    have hnet := (single_contains (@single_address_contains (canonicalIp a) a b hb).1).mp hc
    exact ⟨b, ⟨⟨a, ha, hb⟩, hnet ▸ hin⟩, hc⟩

theorem shorter_than_single {b net : IpBlock} (hb : b.isSingleAddress = true)
    (hc : b.contains ip = true) (hn : net.contains ip = true) :
    net.prefixLen < b.prefixLen ↔ net.isSingleAddress = false := by
  have hfam : familyBits b.network = familyBits net.network :=
    (family_of_contains hc).trans (family_of_contains hn).symm
  have hb0 := single_iff.mp hb
  have hbadd := host_bits_add b
  have hnadd := host_bits_add net
  rw [Bool.eq_false_iff, Ne, single_iff]
  omega

theorem narrower_item {net : IpBlock} (hn : net.contains ip = true) :
    (∃ item ∈ input.additionalItems.filter fun item =>
        net.prefixLen < item.prefixLen && net.covers item, item.contains ip = true) ↔
      (∃ b ∈ input.eligible, b.contains ip = true ∧ net.prefixLen < b.prefixLen) ∨
        (ip ∈ input.pinned.map canonicalIp ∧ net.isSingleAddress = false) := by
  simp only [NetworkHoldInput.additionalItems, List.mem_filter, List.mem_append,
    List.mem_filterMap, Bool.and_eq_true, decide_eq_true_eq, List.mem_map]
  constructor
  · rintro ⟨b, ⟨hb | ⟨a, ha, hb⟩, hlen, -⟩, hc⟩
    · exact .inl ⟨b, hb, hc, hlen⟩
    · obtain ⟨hs, hsingle⟩ := @single_address_contains ip a b hb
      exact .inr ⟨⟨a, ha, (hsingle.mp hc).symm⟩, (shorter_than_single hs hc hn).mp hlen⟩
  · rintro (⟨b, hb, hc, hlen⟩ | ⟨⟨a, ha, rfl⟩, hs⟩)
    · exact ⟨b, ⟨.inl hb, hlen, covers_of_contains hn hc hlen.le⟩, hc⟩
    · obtain ⟨b, hb⟩ := exists_single_address a
      obtain ⟨hone, hsingle⟩ := @single_address_contains (canonicalIp a) a b hb
      have hc := hsingle.mpr rfl
      have hlen := (shorter_than_single hone hc hn).mpr hs
      exact ⟨b, ⟨.inr ⟨a, ha, hb⟩, hlen, covers_of_contains hn hc hlen.le⟩, hc⟩

theorem cuts_inside (h : Covered (input.cutsIn hold) ip) :
    hold.contains ip = true := by
  unfold NetworkHoldInput.cutsIn at h
  rw [without_covered_covered, covered_append, covered_append, main_slice_covered] at h
  rcases h with (⟨b, hb, hc⟩ | ⟨hin, -⟩) | ⟨p, hp, hc⟩
  · exact contains_of_covers (List.mem_filter.mp hb).2 hc
  · exact hin
  · obtain ⟨net, hnet, hp⟩ := List.mem_flatMap.mp hp
    have hn := ((subtract_leaves net _ ip).mp ⟨p, hp, hc⟩).1
    exact contains_of_covers (List.mem_filter.mp hnet).2 hn

/-- No main network around the address is cut out of its hold. -/
def Unopened (input : NetworkHoldInput) (ip : IpAddr) : Prop :=
  ∀ net ∈ input.main, net.contains ip = true →
    (∃ b ∈ input.eligible, b.contains ip = true ∧ net.prefixLen < b.prefixLen) ∨
      (ip ∈ input.pinned.map canonicalIp ∧ net.isSingleAddress = false)

theorem reopened_cover (hh : hold ∈ input.eligible) (hip : hold.contains ip = true) :
    Covered ((input.main.filter fun net => hold.covers net).flatMap input.reopened) ip ↔
      ¬ Unopened input ip := by
  simp only [Covered, List.mem_flatMap, List.mem_filter]
  constructor
  · rintro ⟨p, ⟨net, ⟨hnet, -⟩, hp⟩, hc⟩ hun
    obtain ⟨hn, hholes⟩ := (subtract_leaves net _ ip).mp ⟨p, hp, hc⟩
    obtain ⟨item, hitem, hin⟩ := (narrower_item hn).mpr (hun net hnet hn)
    rw [hholes item hitem] at hin
    cases hin
  · intro hopen
    simp only [Unopened, not_forall] at hopen
    obtain ⟨net, hnet, hn, hno⟩ := hopen
    have hlen : hold.prefixLen ≤ net.prefixLen :=
      not_lt.mp fun hlt => hno (.inl ⟨hold, hh, hip, hlt⟩)
    obtain ⟨p, hp, hc⟩ := (subtract_leaves net _ ip).mpr ⟨hn, fun item hitem =>
      Bool.eq_false_iff.mpr fun hin => hno ((narrower_item hn).mp ⟨item, hitem, hin⟩)⟩
    exact ⟨p, ⟨net, ⟨hnet, covers_of_contains hip hn hlen⟩, hp⟩, hc⟩

theorem cuts_cover (hh : hold ∈ input.eligible) (hip : hold.contains ip = true) :
    Covered (input.cutsIn hold) ip ↔
      Covered input.keptOpen ip ∨ (∃ a ∈ input.mainAddresses, canonicalIp a = ip) ∨
        ¬ Unopened input ip := by
  have hkept : Covered (input.keptOpen.filter fun keep => hold.covers keep) ip ↔
      Covered input.keptOpen ip := by
    simp only [Covered, List.mem_filter]
    constructor
    · rintro ⟨b, ⟨hb, -⟩, hc⟩
      exact ⟨b, hb, hc⟩
    · rintro ⟨b, hb, hc⟩
      refine ⟨b, ⟨hb, ?_⟩, hc⟩
      rcases covers_or_covers hip hc with h | h
      · exact h
      · rw [(eligible_apart hh).2 b hb] at h
        cases h
  unfold NetworkHoldInput.cutsIn
  rw [without_covered_covered, covered_append, covered_append, hkept, reopened_cover hh hip,
    main_slice_covered]
  simp only [hip, true_and, or_assoc]

end

theorem arm_holds_all {cuts : IpBlock → List IpBlock} (holds : List IpBlock) (out : NetworkHolds)
    (h : (armHolds cuts holds out).overCap = []) :
    (armHolds cuts holds out).held = out.held ++ holds ∧
      (armHolds cuts holds out).cutOuts = out.cutOuts ++ holds.flatMap cuts := by
  have hgrow : ∀ (holds : List IpBlock) (out : NetworkHolds),
      out.overCap <+: (armHolds cuts holds out).overCap := by
    intro holds
    induction holds with
    | nil => exact fun out => List.prefix_rfl
    | cons hold rest ih =>
      intro out
      rw [armHolds]
      split
      · exact (List.prefix_append out.overCap [hold]).trans
          (ih { out with overCap := out.overCap ++ [hold] })
      · exact ih { out with held := out.held ++ [hold], cutOuts := out.cutOuts ++ cuts hold }
  induction holds generalizing out with
  | nil => simp [armHolds]
  | cons hold rest ih =>
    rw [armHolds] at h ⊢
    split
    · rename_i hcap
      rw [if_pos hcap] at h
      have := hgrow rest { out with overCap := out.overCap ++ [hold] }
      rw [h, List.prefix_nil] at this
      simp at this
    · rename_i hcap
      rw [if_neg hcap] at h
      obtain ⟨hheld, hcuts⟩ := ih _ h
      rw [hheld, hcuts]
      simp

def holds (out : NetworkHolds) (ip : IpAddr) : Prop :=
  Covered out.held ip ∧ ¬ Covered out.cutOuts ip

section
variable {input : NetworkHoldInput} {ip : IpAddr}

theorem compute_holds_iff (h : (NetworkHolds.compute input).overCap = []) :
    holds (NetworkHolds.compute input) ip ↔
      ∃ hold ∈ input.maximal, hold.contains ip = true ∧ ¬ Covered (input.cutsIn hold) ip := by
  obtain ⟨hheld, hcuts⟩ := arm_holds_all input.maximal _ h
  have hheld' : (NetworkHolds.compute input).held = input.maximal := hheld
  have hcuts' : Covered (NetworkHolds.compute input).cutOuts ip ↔
      ∃ hold ∈ input.maximal, Covered (input.cutsIn hold) ip := by
    unfold NetworkHolds.compute
    simp only [Covered, mem_sort_by, hcuts, List.nil_append, List.mem_flatMap]
    constructor
    · rintro ⟨b, ⟨hold, hm, hb⟩, hc⟩
      exact ⟨hold, hm, b, hb, hc⟩
    · rintro ⟨hold, hm, b, hb, hc⟩
      exact ⟨b, ⟨hold, hm, hb⟩, hc⟩
  unfold holds
  rw [hheld', hcuts']
  constructor
  · rintro ⟨⟨hold, hm, hin⟩, hopen⟩
    exact ⟨hold, hm, hin, fun hc => hopen ⟨hold, hm, hc⟩⟩
  · rintro ⟨hold, hm, hin, hopen⟩
    refine ⟨⟨hold, hm, hin⟩, ?_⟩
    rintro ⟨other, ho, hc⟩
    -- cut-outs lie in their own hold, and only one hold is around the address
    exact hopen (maximal_unique hm ho hin (cuts_inside hc) ▸ hc)

/-- The longest network around the address, of both links, is the additional link's. -/
def AdditionalLongest (input : NetworkHoldInput) (ip : IpAddr) : Prop :=
  ∃ net ∈ input.eligible, net.contains ip = true ∧
    ∀ other ∈ input.eligible ++ input.main, other.contains ip = true →
      other.prefixLen ≤ net.prefixLen

structure ToHold (input : NetworkHoldInput) (ip : IpAddr) : Prop where
  additional : Covered input.eligible ip
  kept : ¬ Covered input.keptOpen ip
  unnamed : ∀ a ∈ input.mainAddresses, canonicalIp a ≠ ip
  owned : AdditionalLongest input ip ∨ ip ∈ input.pinned.map canonicalIp

/-- A pinned address that is all of a main network. -/
structure PinReopened (input : NetworkHoldInput) (ip : IpAddr) : Prop where
  additional : Covered input.eligible ip
  kept : ¬ Covered input.keptOpen ip
  unnamed : ∀ a ∈ input.mainAddresses, canonicalIp a ≠ ip
  pinned : ip ∈ input.pinned.map canonicalIp
  alone : ∃ net ∈ input.main, net.contains ip = true ∧ net.isSingleAddress = true

theorem holds_iff_unopened (h : (NetworkHolds.compute input).overCap = []) :
    holds (NetworkHolds.compute input) ip ↔
      Covered input.eligible ip ∧ ¬ Covered input.keptOpen ip ∧
        (∀ a ∈ input.mainAddresses, canonicalIp a ≠ ip) ∧ Unopened input ip := by
  rw [compute_holds_iff h, ← maximal_covers]
  constructor
  · rintro ⟨hold, hm, hin, hopen⟩
    rw [cuts_cover (mem_maximal.mp hm).1 hin] at hopen
    push Not at hopen
    exact ⟨⟨hold, hm, hin⟩, hopen⟩
  · rintro ⟨⟨hold, hm, hin⟩, hrest⟩
    refine ⟨hold, hm, hin, ?_⟩
    rw [cuts_cover (mem_maximal.mp hm).1 hin]
    push Not
    exact hrest

theorem unopened_iff_owned (hcov : Covered input.eligible ip) :
    Unopened input ip ↔
      (AdditionalLongest input ip ∨ ip ∈ input.pinned.map canonicalIp) ∧
        ¬ (ip ∈ input.pinned.map canonicalIp ∧
          ∃ net ∈ input.main, net.contains ip = true ∧ net.isSingleAddress = true) := by
  constructor
  · intro hun
    constructor
    · by_cases hpin : ip ∈ input.pinned.map canonicalIp
      · exact .inr hpin
      · left
        obtain ⟨w, hw, hwc, hlong⟩ := exists_longest hcov
        refine ⟨w, hw, hwc, fun other ho hoc => ?_⟩
        rcases List.mem_append.mp ho with he | hmain
        · exact hlong other he hoc
        · rcases hun other hmain hoc with ⟨b, hb, hbc, hlen⟩ | ⟨hp, -⟩
          · exact hlen.le.trans (hlong b hb hbc)
          · exact absurd hp hpin
    · rintro ⟨-, net, hnet, hn, hs⟩
      rcases hun net hnet hn with ⟨b, -, hbc, hlen⟩ | ⟨-, hmany⟩
      · exact absurd (le_single hs hn hbc) (not_le.mpr hlen)
      · rw [hs] at hmany
        cases hmany
  · rintro ⟨howned, hpin⟩ net hnet hn
    rcases howned with ⟨w, hw, hwc, hlong⟩ | hp
    · left
      refine ⟨w, hw, hwc, lt_of_le_of_ne (hlong net (List.mem_append_right _ hnet) hn) fun heq => ?_⟩
      exact (eligible_apart hw).1 (same_length_eq hn hwc heq ▸ hnet)
    · right
      refine ⟨hp, ?_⟩
      rw [Bool.eq_false_iff]
      exact fun hs => hpin ⟨hp, net, hnet, hn, hs⟩

/-- With no cap reached, an address is held exactly when it is to be, unless it is a pinned
address that is all of a main network: that one is reopened. No two held networks share an
address. -/
theorem fail_closed_holds_iff (input : NetworkHoldInput)
    (h : (NetworkHolds.compute input).overCap = []) :
    (∀ ip, (holds (NetworkHolds.compute input) ip ↔ ToHold input ip) ↔
        ¬ PinReopened input ip) ∧
      (NetworkHolds.compute input).held.Pairwise fun b c =>
        ∀ ip, ¬ (b.contains ip = true ∧ c.contains ip = true) := by
  constructor
  · intro ip
    rw [holds_iff_unopened h]
    constructor
    · intro hiff hpin
      have hto : ToHold input ip := ⟨hpin.additional, hpin.kept, hpin.unnamed, .inr hpin.pinned⟩
      have hun := (hiff.mpr hto).2.2.2
      exact ((unopened_iff_owned hpin.additional).mp hun).2 ⟨hpin.pinned, hpin.alone⟩
    · intro hpin
      constructor
      · rintro ⟨hcov, hkept, hunnamed, hun⟩
        exact ⟨hcov, hkept, hunnamed, ((unopened_iff_owned hcov).mp hun).1⟩
      · rintro ⟨hcov, hkept, hunnamed, howned⟩
        refine ⟨hcov, hkept, hunnamed, (unopened_iff_owned hcov).mpr ⟨howned, ?_⟩⟩
        rintro ⟨hp, halone⟩
        exact hpin ⟨hcov, hkept, hunnamed, hp, halone⟩
  · have hheld : (NetworkHolds.compute input).held = input.maximal := (arm_holds_all _ _ h).1
    rw [hheld]
    refine maximal_nodup.imp_of_mem fun {b c} hb hc hne ip => ?_
    rintro ⟨hbi, hci⟩
    exact hne (maximal_unique hb hc hbi hci)

def pinnedInput : NetworkHoldInput where
  additionalNetworks := (IpBlock.new (.v4 0x08080000#32) 16).toList
  mainNetworks := (IpBlock.new (.v4 0x08080808#32) 32).toList
  mainAddresses := []
  pinned := [.v4 0x08080808#32]
  neverBlock := []

theorem fail_closed_holds_iff_pinned :
    (NetworkHolds.compute pinnedInput).overCap = [] ∧
      (NetworkHolds.compute pinnedInput).held.Pairwise fun b c =>
        ∀ ip, ¬ (b.contains ip = true ∧ c.contains ip = true) :=
  ⟨by decide +kernel, (fail_closed_holds_iff pinnedInput (by decide +kernel)).2⟩

/-- The pinned address is to be held, and is open. -/
theorem pinned_address_reopened :
    (NetworkHolds.compute pinnedInput).overCap = [] ∧
      ToHold pinnedInput (.v4 0x08080808#32) ∧
      ¬ holds (NetworkHolds.compute pinnedInput) (.v4 0x08080808#32) := by
  refine ⟨by decide +kernel, ⟨?_, ?_, by simp [pinnedInput], .inr (by decide)⟩, ?_⟩
  · unfold Covered
    decide +kernel
  · unfold Covered
    decide +kernel
  · unfold holds Covered
    decide +kernel

end

end NetRuleRouter.HeldAddresses
