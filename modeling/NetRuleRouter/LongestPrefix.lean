import NetRuleRouter.Sorting
import NetRuleRouter.IpNetwork

/-!
# Networks by longest prefix

Aligned networks nest or are disjoint, so the claimed networks that hold an
address are its masks at the prefix lengths in use. A probe walks the
lengths, longest first, and the first claimed mask decides.
-/

set_option autoImplicit false

namespace NetRuleRouter.LongestPrefix
open Sorting IpNetwork

inductive Link where
  | main
  | additional
  deriving DecidableEq, Repr

def otherLink : Link → Link
  | .main => .additional
  | .additional => .main

theorem eq_other_link {l link : Link} (h : l ≠ link) : l = otherLink link := by
  cases l <;> cases link <;> simp_all [otherLink]

structure NetworkClaim where
  main : Bool
  additional : Bool
  deriving DecidableEq, Repr

def NetworkClaim.has (c : NetworkClaim) : Link → Bool
  | .main => c.main
  | .additional => c.additional

def NetworkClaim.winner (c : NetworkClaim) : Link := if c.main then .main else .additional

def blockOrder : IpBlock → IpBlock → Ordering :=
  compareLex (compareOn fun b => !b.isIpv4) <|
  compareLex (compareOn fun b => toBits b.network) (compareOn IpBlock.prefixLen)

structure NetworkClaims where
  main : List IpBlock
  additional : List IpBlock
  v4Lens : List ℕ
  v6Lens : List ℕ
  sorted : List IpBlock

def lensOf (sorted : List IpBlock) (v4 : Bool) : List ℕ :=
  (sortBy (fun a b => compare b a)
    ((sorted.filter fun net => net.isIpv4 == v4).map IpBlock.prefixLen)).dedup

def NetworkClaims.new (main additional : List IpBlock) : NetworkClaims :=
  let sorted := sortBy blockOrder (main ++ additional).dedup
  ⟨main, additional, lensOf sorted true, lensOf sorted false, sorted⟩

namespace NetworkClaims

def isEmpty (n : NetworkClaims) : Bool := n.sorted.isEmpty

def claim (n : NetworkClaims) (net : IpBlock) : Option NetworkClaim :=
  if net ∈ n.main ∨ net ∈ n.additional then some ⟨net ∈ n.main, net ∈ n.additional⟩ else none

def holding (n : NetworkClaims) (ip : IpAddr) : List (IpBlock × NetworkClaim) :=
  (if ip.isIpv4 then n.v4Lens else n.v6Lens).filterMap fun len =>
    (IpBlock.new ip len).bind fun net => (n.claim net).map fun c => (net, c)

def longest (n : NetworkClaims) (ip : IpAddr) : Option (IpBlock × NetworkClaim) :=
  (n.holding ip).head?

def narrowest (n : NetworkClaims) (ip : IpAddr) : Option (IpBlock × Link) :=
  (n.longest ip).map fun e => (e.1, e.2.winner)

def winner (n : NetworkClaims) (ip : IpAddr) : Option Link := (n.narrowest ip).map Prod.snd

def names (n : NetworkClaims) (ip : IpAddr) (link : Link) : Bool :=
  (n.holding ip).any fun e => e.2.has link

end NetworkClaims

variable {ip : IpAddr} {len : ℕ} {net : IpBlock}

theorem block_new_iff :
    IpBlock.new ip len = some net ↔ net.contains ip = true ∧ net.prefixLen = len := by
  have hparts (h : IpBlock.new ip len = some net) :
      net.isIpv4 = ip.isIpv4 ∧ net.prefixLen = len := by
    unfold IpBlock.new at h
    split at h
    · rename_i hle
      cases h
      exact ⟨by simp [IpBlock.isIpv4, blockAt], by simp [blockAt]; omega⟩
    · simp at h
  constructor
  · intro h
    obtain ⟨hf, hl⟩ := hparts h
    simp [IpBlock.contains, hf, hl, h]
  · intro h
    obtain ⟨hc, rfl⟩ := h
    simp only [IpBlock.contains, Bool.and_eq_true, beq_iff_eq] at hc
    exact hc.2

variable {c : NetworkClaim}

section
variable (main additional : List IpBlock)

theorem lens_sorted (sorted : List IpBlock) (v4 : Bool) :
    (lensOf sorted v4).Pairwise fun a b => b ≤ a := by
  have : Std.TransCmp fun a b : ℕ => compare b a := Std.TransCmp.opposite
  have hsort := sort_by_sorted (fun a b : ℕ => compare b a)
    ((sorted.filter fun net => net.isIpv4 == v4).map IpBlock.prefixLen)
  refine (hsort.imp ?_).sublist (List.dedup_sublist _)
  intro a b h
  exact Nat.isLE_compare.mp h

theorem mem_lens {sorted : List IpBlock} {v4 : Bool} :
    len ∈ lensOf sorted v4 ↔ ∃ net ∈ sorted, net.isIpv4 = v4 ∧ net.prefixLen = len := by
  simp [lensOf, and_assoc]

theorem claim_iff :
    (NetworkClaims.new main additional).claim net = some c ↔
      (net ∈ main ∨ net ∈ additional) ∧ c = ⟨net ∈ main, net ∈ additional⟩ := by
  unfold NetworkClaims.claim
  rw [Option.ite_none_right_eq_some, Option.some.injEq]
  exact and_congr_right fun _ => eq_comm

theorem mem_sorted :
    net ∈ (NetworkClaims.new main additional).sorted ↔ net ∈ main ∨ net ∈ additional := by
  simp [NetworkClaims.new]

theorem probe_iff :
    ((IpBlock.new ip len).bind fun net =>
        ((NetworkClaims.new main additional).claim net).map fun c => (net, c)) = some (net, c) ↔
      net.contains ip = true ∧ net.prefixLen = len ∧ (net ∈ main ∨ net ∈ additional) ∧
        c = ⟨net ∈ main, net ∈ additional⟩ := by
  simp only [Option.bind_eq_some_iff, block_new_iff, Option.map_eq_some_iff, Prod.mk.injEq]
  constructor
  · intro h
    obtain ⟨net', ⟨hc, hl⟩, c', hclaim, rfl, rfl⟩ := h
    exact ⟨hc, hl, (claim_iff main additional).mp hclaim⟩
  · intro h
    obtain ⟨hc, hl, hclaim⟩ := h
    exact ⟨net, ⟨hc, hl⟩, c, (claim_iff main additional).mpr hclaim, rfl, rfl⟩

theorem lens_of_holding (hc : net.contains ip = true) (hn : net ∈ main ∨ net ∈ additional) :
    net.prefixLen ∈ if ip.isIpv4 then (NetworkClaims.new main additional).v4Lens
      else (NetworkClaims.new main additional).v6Lens := by
  have hf : net.isIpv4 = ip.isIpv4 := by
    simp only [IpBlock.contains, Bool.and_eq_true, beq_iff_eq] at hc
    exact hc.1.symm
  have hmem (v4 : Bool) (h : net.isIpv4 = v4) :
      net.prefixLen ∈ lensOf (NetworkClaims.new main additional).sorted v4 :=
    mem_lens.mpr ⟨net, (mem_sorted main additional).mpr hn, h, rfl⟩
  split
  · rename_i hv
    exact hmem true (hf.trans hv)
  · rename_i hv
    exact hmem false (hf.trans (Bool.eq_false_iff.mpr hv))

theorem longest_none (h : (NetworkClaims.new main additional).longest ip = none) :
    ∀ net, net ∈ main ∨ net ∈ additional → net.contains ip = false := by
  intro net hn
  apply Bool.eq_false_iff.mpr
  intro hc
  rw [NetworkClaims.longest, NetworkClaims.holding, List.head?_filterMap,
    List.findSome?_eq_none_iff] at h
  have hprobe := (probe_iff main additional).mpr ⟨hc, rfl, hn, rfl⟩
  simp [h _ (lens_of_holding main additional hc hn)] at hprobe

theorem longest_some (h : (NetworkClaims.new main additional).longest ip = some (net, c)) :
    net.contains ip = true ∧ (net ∈ main ∨ net ∈ additional) ∧
      c = ⟨net ∈ main, net ∈ additional⟩ ∧
      ∀ other, other ∈ main ∨ other ∈ additional → other.contains ip = true →
        other.prefixLen ≤ net.prefixLen := by
  rw [NetworkClaims.longest, NetworkClaims.holding, List.head?_filterMap,
    List.findSome?_eq_some_iff] at h
  obtain ⟨before, len, after, hlens, hprobe, hnone⟩ := h
  obtain ⟨hc, hl, hn, hclaim⟩ := (probe_iff main additional).mp hprobe
  refine ⟨hc, hn, hclaim, fun other ho hoc => ?_⟩
  have hmem := lens_of_holding main additional hoc ho
  have hsorted : (before ++ len :: after).Pairwise fun a b => b ≤ a := by
    rw [← hlens]
    split
    · exact lens_sorted _ true
    · exact lens_sorted _ false
  rw [hlens, List.mem_append, List.mem_cons] at hmem
  rcases hmem with hmem | heq | hmem
  · have hother := (probe_iff main additional).mpr ⟨hoc, rfl, ho, rfl⟩
    simp [hnone _ hmem] at hother
  · omega
  · have hafter := (List.pairwise_append.mp hsorted).2.1
    rw [hl]
    exact List.rel_of_pairwise_cons hafter hmem

theorem same_length_eq {a b : IpBlock} (ha : a.contains ip = true) (hb : b.contains ip = true)
    (h : a.prefixLen = b.prefixLen) : a = b := by
  have hna := block_new_iff.mpr ⟨ha, rfl⟩
  have hnb := block_new_iff.mpr ⟨hb, h.symm⟩
  exact Option.some.inj (hna.symm.trans hnb)

theorem longest_exists (hc : net.contains ip = true) (hn : net ∈ main ∨ net ∈ additional) :
    ∃ e, (NetworkClaims.new main additional).longest ip = some e := by
  apply Option.ne_none_iff_exists'.mp
  intro hnone
  simp [longest_none main additional hnone net hn] at hc

theorem winner_of_longest (h : (NetworkClaims.new main additional).longest ip = some (net, c)) :
    (NetworkClaims.new main additional).winner ip =
      some (if net ∈ main then .main else .additional) := by
  obtain ⟨-, -, rfl, -⟩ := longest_some main additional h
  simp [NetworkClaims.winner, NetworkClaims.narrowest, h, NetworkClaim.winner]

end

end NetRuleRouter.LongestPrefix
