import NetRuleRouter.BlockGeometry
import NetRuleRouter.FirstMatch
import NetRuleRouter.Numerals

/-!
# Rules of the output chain, and folding them into sets

Every verdict is terminal, so a chain answers with its first rule that matches.
Rules that differ only in their destination become one rule over a set of
blocks. A rule joins the last such set unless a rule of another verdict that
shares an address with it has been placed in that set or after it.
-/

set_option autoImplicit false

namespace NetRuleRouter.NftMerge
open TextOps Numerals Sorting IpNetwork LongestPrefix BlockGeometry FirstMatch

inductive DropKind where
  | pin
  | failClosed
  | blockAll
  | ipv6Cut
  | dnsLockdown
  | rule
  | relayPool
  | other
  deriving DecidableEq, Repr

structure DropTag where
  kind : DropKind
  system : Bool
  deriving DecidableEq, Repr

inductive NftVerdict where
  | accept
  | drop
  | dropReported (tag : DropTag)
  deriving DecidableEq, Repr

def NftVerdict.isDrop : NftVerdict → Bool
  | .accept => false
  | .drop => true
  | .dropReported _ => true

inductive NftMatch where
  | dstV4 (net : BitVec 32) (prefixLen : ℕ)
  | dstV6 (net : BitVec 128) (prefixLen : ℕ)
  | dstSetV4 (blocks : List IpBlock)
  | dstSetV6 (blocks : List IpBlock)
  | protocol (number : UInt8)
  | dstPort (port : UInt16)
  | outInterface (device : Text)
  | skUid (uid : UInt32)
  | skUidSet (ranges : List (UInt32 × UInt32))
  | mark (value : UInt32)
  | ctReply
  | routeIpsec
  deriving DecidableEq

structure NftRule where
  conditions : List NftMatch
  verdict : NftVerdict
  comment : Text
  deriving DecidableEq

structure NftRuleset where
  table : Text
  chain : Text
  rules : List NftRule
  forward : List NftRule
  deriving DecidableEq

structure Packet where
  skUid : Option UInt32
  mark : UInt32
  dst : IpAddr
  protocol : UInt8
  dstPort : Option UInt16
  outInterface : Text
  routeIpsec : Bool
  ctReply : Bool
  deriving DecidableEq

/-- `daddr & mask == net & mask`. -/
def underPrefix (net : IpAddr) (prefixLen : ℕ) (dst : IpAddr) : Bool :=
  dst.isIpv4 == net.isIpv4 &&
    decide (toBits dst / 2 ^ (familyBits net - prefixLen) =
      toBits net / 2 ^ (familyBits net - prefixLen))

def NftMatch.holds (p : Packet) : NftMatch → Bool
  | .dstV4 net prefixLen => underPrefix (.v4 net) prefixLen p.dst
  | .dstV6 net prefixLen => underPrefix (.v6 net) prefixLen p.dst
  | .dstSetV4 blocks => blocks.any (·.contains p.dst)
  | .dstSetV6 blocks => blocks.any (·.contains p.dst)
  | .protocol number => p.protocol == number
  | .dstPort port => p.dstPort == some port
  | .outInterface device => p.outInterface == device
  | .skUid uid => p.skUid == some uid
  | .skUidSet ranges =>
    p.skUid.any fun uid => ranges.any fun r => decide (r.1 ≤ uid ∧ uid ≤ r.2)
  | .mark value => p.mark == value
  | .ctReply => p.ctReply
  | .routeIpsec => p.routeIpsec

def NftRule.applies (r : NftRule) (p : Packet) : Bool := r.conditions.all (·.holds p)

def firstVerdict (rules : List NftRule) (p : Packet) : Option NftVerdict :=
  decision NftRule.applies NftRule.verdict rules p

theorem under_prefix_iff {net dst : IpAddr} {prefixLen : ℕ} {b : IpBlock}
    (hb : IpBlock.new net prefixLen = some b) :
    underPrefix net prefixLen dst = true ↔ b.contains dst = true := by
  rw [new_contains hb]
  simp [underPrefix]

def destination : NftMatch → Option (Option IpBlock)
  | .dstV4 net prefixLen => some (IpBlock.new (.v4 net) prefixLen)
  | .dstV6 net prefixLen => some (IpBlock.new (.v6 net) prefixLen)
  | .dstSetV4 _ => some none
  | .dstSetV6 _ => some none
  | _ => none

def findDst (found : Option (ℕ × IpBlock)) : ℕ → List NftMatch → Option (ℕ × IpBlock)
  | _, [] => found
  | i, m :: rest =>
    match destination m with
    | none => findDst found (i + 1) rest
    | some none => none
    | some (some block) =>
      if found.isSome then none else findDst (some (i, block)) (i + 1) rest

structure Foldable where
  dst : IpBlock
  dstAt : ℕ
  rest : List NftMatch

def Foldable.of (rule : NftRule) : Option Foldable :=
  (findDst none 0 rule.conditions).map fun found =>
    { dst := found.2, dstAt := found.1, rest := rule.conditions.eraseIdx found.1 }

/-- Blocks in the order of their prefix lengths, each unless it was there or a network among
those kept covers it. -/
def keepUncovered (seen networks kept : List IpBlock) : List IpBlock → List IpBlock
  | [] => kept
  | block :: rest =>
    if block ∈ seen ∨ networks.any (·.covers block) = true then
      keepUncovered (block :: seen) networks kept rest
    else
      keepUncovered (block :: seen)
        (if block.isSingleAddress then networks else networks ++ [block]) (kept ++ [block]) rest

def shortestFirst : IpBlock → IpBlock → Ordering :=
  compareLex (compareOn IpBlock.prefixLen) blockOrder

def withoutCovered (dsts : List IpBlock) : List IpBlock :=
  sortBy blockOrder (keepUncovered [] [] [] (sortBy shortestFirst dsts))

def single (block : IpBlock) : NftMatch :=
  match block.network with
  | .v4 net => .dstV4 net block.prefixLen
  | .v6 net => .dstV6 net block.prefixLen

structure Group where
  band : Text
  rest : List NftMatch
  dstAt : ℕ
  isIpv4 : Bool
  verdict : NftVerdict
  dsts : List IpBlock
  firstComment : Text

def Group.sameSet (g : Group) (f : Foldable) (verdict : NftVerdict) (band : Text) : Prop :=
  g.verdict = verdict ∧ g.band = band ∧ g.dstAt = f.dstAt ∧ g.isIpv4 = f.dst.isIpv4 ∧
    g.rest = f.rest

instance (g : Group) (f : Foldable) (verdict : NftVerdict) (band : Text) :
    Decidable (g.sameSet f verdict band) := inferInstanceAs (Decidable (_ ∧ _))

def Group.dst (g : Group) : NftMatch :=
  match withoutCovered g.dsts with
  | [one] => single one
  | dsts => if g.isIpv4 then .dstSetV4 dsts else .dstSetV6 dsts

def Group.intoRule (g : Group) : NftRule where
  conditions := g.rest.insertIdx g.dstAt g.dst
  verdict := g.verdict
  comment :=
    if 1 < g.dsts.length then g.firstComment ++ " +".toList ++ numeral 10 (g.dsts.length - 1)
    else g.firstComment

structure Run where
  groups : List Group := []
  hosts : List (IpAddr × NftVerdict × ℕ) := []
  networks : List (IpBlock × NftVerdict × ℕ) := []

def rposition {α : Type} (p : α → Bool) (l : List α) : Option ℕ :=
  ((l.zipIdx.filter fun e => p e.1).getLast?).map Prod.snd

def bandOf (comment : Text) : Text := comment.takeWhile (· != '#')

def Run.latestConflict (run : Run) (dst : IpBlock) (verdict : NftVerdict) : Option ℕ :=
  let fromNetworks := run.networks.filter fun e => e.2.1 != verdict && e.1.overlaps dst
  let fromHosts :=
    if dst.isSingleAddress then
      run.hosts.filter fun e => e.1 == dst.network && e.2.1 != verdict
    else run.hosts.filter fun e => dst.contains e.1 && e.2.1 != verdict
  (fromNetworks.map (·.2.2) ++ fromHosts.map (·.2.2)).max?

def Run.target (run : Run) (f : Foldable) (verdict : NftVerdict) (band : Text) : Option ℕ :=
  (rposition (fun g => decide (Group.sameSet g f verdict band)) run.groups).filter fun i =>
    (run.latestConflict f.dst verdict).all fun after => decide (after < i)

def Run.join (run : Run) (f : Foldable) (rule : NftRule) : ℕ × List Group :=
  match run.target f rule.verdict (bandOf rule.comment) with
  | some i => (i, run.groups.modify i fun g => { g with dsts := g.dsts ++ [f.dst] })
  | none =>
    (run.groups.length, run.groups ++ [{
      band := bandOf rule.comment
      rest := f.rest
      dstAt := f.dstAt
      isIpv4 := f.dst.isIpv4
      verdict := rule.verdict
      dsts := [f.dst]
      firstComment := rule.comment }])

def Run.place (run : Run) (f : Foldable) (rule : NftRule) : Run :=
  let joined := run.join f rule
  if f.dst.isSingleAddress then
    { run with
      groups := joined.2
      hosts := run.hosts ++ [(f.dst.network, rule.verdict, joined.1)] }
  else
    { run with
      groups := joined.2
      networks := run.networks ++ [(f.dst, rule.verdict, joined.1)] }

def Run.finish (run : Run) : List NftRule := run.groups.map Group.intoRule

def foldFrom (out : List NftRule) (run : Run) : List NftRule → List NftRule
  | [] => out ++ run.finish
  | rule :: rules =>
    match Foldable.of rule with
    | some f => foldFrom out (run.place f rule) rules
    -- it may decide any packet, so nothing moves past it
    | none => foldFrom (out ++ run.finish ++ [rule]) {} rules

def foldIntoSets (rules : List NftRule) : List NftRule := foldFrom [] {} rules

variable {b : IpBlock} {rule : NftRule} {f : Foldable}

theorem destination_holds {m : NftMatch} (h : destination m = some (some b)) (p : Packet) :
    m.holds p = b.contains p.dst := by
  cases m with
  | dstV4 net prefixLen | dstV6 net prefixLen =>
    exact Bool.eq_iff_iff.mpr (under_prefix_iff (Option.some.inj h))
  | _ => cases h

theorem find_dst_some {found : Option (ℕ × IpBlock)} {i j : ℕ} {conditions : List NftMatch}
    (h : findDst found i conditions = some (j, b)) :
    found = some (j, b) ∨
      ∃ front m back, conditions = front ++ m :: back ∧ j = i + front.length ∧
        destination m = some (some b) := by
  induction conditions generalizing found i with
  | nil => exact .inl h
  | cons m rest ih =>
    rw [findDst] at h
    have hlater : ∀ {found'}, findDst found' (i + 1) rest = some (j, b) →
        found' = some (j, b) ∨ ∃ front m' back, m :: rest = front ++ m' :: back ∧
          j = i + front.length ∧ destination m' = some (some b) := by
      intro found' h'
      rcases ih h' with hfound | ⟨front, m', back, rfl, hj, hm⟩
      · exact .inl hfound
      · exact .inr ⟨m :: front, m', back, rfl, by simp only [List.length_cons]; omega, hm⟩
    cases hdst : destination m with
    | none =>
      rw [hdst] at h
      exact hlater h
    | some d =>
      rw [hdst] at h
      cases d with
      | none => cases h
      | some block =>
        dsimp only at h
        split at h
        · cases h
        · rcases hlater h with hfound | hrest
          · cases hfound
            exact .inr ⟨[], m, rest, rfl, by simp, hdst⟩
          · exact .inr hrest

theorem foldable_of_some (h : Foldable.of rule = some f) :
    ∃ front m back, rule.conditions = front ++ m :: back ∧ front.length = f.dstAt ∧
      f.rest = front ++ back ∧ destination m = some (some f.dst) := by
  obtain ⟨⟨j, b⟩, hfind, rfl⟩ := Option.map_eq_some_iff.mp h
  rcases find_dst_some hfind with hnone | ⟨front, m, back, hconditions, hj, hm⟩
  · cases hnone
  · refine ⟨front, m, back, hconditions, by simp [hj], ?_, hm⟩
    rw [hconditions, hj, Nat.zero_add]
    exact List.eraseIdx_append_of_length_le le_rfl _ |>.trans (by simp)

theorem foldable_applies (h : Foldable.of rule = some f) (p : Packet) :
    rule.applies p = (f.rest.all (·.holds p) && f.dst.contains p.dst) := by
  obtain ⟨front, m, back, hconditions, -, hrest, hm⟩ := foldable_of_some h
  rw [NftRule.applies, hconditions, hrest, List.all_append, List.all_append, List.all_cons,
    destination_holds hm]
  cases front.all (·.holds p) <;> cases back.all (·.holds p) <;> simp

def Covered (blocks : List IpBlock) (ip : IpAddr) : Prop := ∃ b ∈ blocks, b.contains ip = true

def Apart (b c : IpBlock) : Prop := ∀ ip, ¬ (b.contains ip = true ∧ c.contains ip = true)

variable {c : IpBlock}

theorem apart_symm (h : Apart b c) : Apart c b := fun ip hip => h ip hip.symm

section
variable {seen networks kept rest : List IpBlock}

/-- What the sweep has kept so far: blocks apart from each other, that cover all seen. -/
structure Swept (seen networks kept : List IpBlock) : Prop where
  wide : networks = kept.filter fun b => !b.isSingleAddress
  known : ∀ b ∈ kept, b ∈ seen
  covers : ∀ b ∈ seen, ∃ c ∈ kept, c.covers b = true
  apart : kept.Pairwise Apart

variable (h : Swept seen networks kept)
include h

theorem swept_apart (hc : c ∈ kept) (hlen : c.prefixLen ≤ b.prefixLen) (hb : b ∉ seen)
    (hnet : networks.any (·.covers b) = false) : Apart c b := by
  rintro ip ⟨hcip, hbip⟩
  have hcovers := covers_of_contains hcip hbip hlen
  cases hsingle : c.isSingleAddress with
  | false =>
    rw [h.wide, List.any_eq_false] at hnet
    exact hnet c (List.mem_filter.mpr ⟨hc, by simp [hsingle]⟩) hcovers
  | true =>
    have heq := same_length_eq hcip hbip (le_antisymm hlen (le_single hsingle hcip hbip))
    exact hb (heq ▸ h.known c hc)

theorem swept_skip
    (hskip : b ∈ seen ∨ networks.any (·.covers b) = true) : Swept (b :: seen) networks kept := by
  refine ⟨h.wide, fun c hc => List.mem_cons_of_mem _ (h.known c hc),
    List.forall_mem_cons.mpr ⟨?_, h.covers⟩, h.apart⟩
  rcases hskip with hseen | hnet
  · exact h.covers b hseen
  · obtain ⟨c, hc, hcovers⟩ := List.any_eq_true.mp hnet
    rw [h.wide] at hc
    exact ⟨c, List.mem_of_mem_filter hc, hcovers⟩

theorem swept_keep (hshort : ∀ c ∈ kept, c.prefixLen ≤ b.prefixLen)
    (hb : b ∉ seen) (hnet : networks.any (·.covers b) = false) :
    Swept (b :: seen) (if b.isSingleAddress then networks else networks ++ [b]) (kept ++ [b]) := by
  refine ⟨?_, fun c hc => ?_, List.forall_mem_cons.mpr ⟨⟨b, by simp, covers_self b⟩, ?_⟩, ?_⟩
  · rw [h.wide, List.filter_append, List.filter_singleton]
    cases b.isSingleAddress <;> simp
  · rcases List.mem_append.mp hc with hc | hc
    · exact List.mem_cons_of_mem _ (h.known c hc)
    · simp [List.mem_singleton.mp hc]
  · intro d hd
    obtain ⟨c, hc, hcovers⟩ := h.covers d hd
    exact ⟨c, by simp [hc], hcovers⟩
  · refine List.pairwise_append.mpr ⟨h.apart, List.pairwise_singleton _ _, fun c hc d hd => ?_⟩
    rw [List.mem_singleton.mp hd]
    exact swept_apart h hc (hshort c hc) hb hnet

theorem keep_uncovered_swept (hrest : rest.Pairwise fun b c => b.prefixLen ≤ c.prefixLen)
    (hshort : ∀ b ∈ kept, ∀ c ∈ rest, b.prefixLen ≤ c.prefixLen) :
    ∃ swept networks', (∀ b, b ∈ swept ↔ b ∈ seen ∨ b ∈ rest) ∧
      Swept swept networks' (keepUncovered seen networks kept rest) := by
  induction rest generalizing seen networks kept with
  | nil => exact ⟨seen, networks, by simp, h⟩
  | cons block rest ih =>
    obtain ⟨hhead, htail⟩ := List.pairwise_cons.mp hrest
    have hlater : ∀ b ∈ kept, ∀ c ∈ rest, b.prefixLen ≤ c.prefixLen := fun b hb c hc =>
      hshort b hb c (by simp [hc])
    have hmem (b : IpBlock) : b ∈ block :: seen ∨ b ∈ rest ↔ b ∈ seen ∨ b ∈ block :: rest := by
      simp only [List.mem_cons]
      tauto
    simp only [← hmem]
    rw [keepUncovered]
    split
    · rename_i hskip
      exact ih (swept_skip h hskip) htail hlater
    · rename_i hkeep
      rw [not_or, Bool.not_eq_true] at hkeep
      refine ih (swept_keep h (fun c hc => hshort c hc block (by simp)) hkeep.1 hkeep.2) htail ?_
      intro b hb c hc
      rcases List.mem_append.mp hb with hb | hb
      · exact hlater b hb c hc
      · rw [List.mem_singleton.mp hb]
        exact hhead c hc

end

instance : Std.TransCmp blockOrder := by
  unfold blockOrder
  infer_instance

instance : Std.TransCmp shortestFirst := by
  unfold shortestFirst
  infer_instance

theorem shortest_first_le (h : InOrder shortestFirst b c) : b.prefixLen ≤ c.prefixLen := by
  by_contra hlt
  have hgt : compare b.prefixLen c.prefixLen = .gt := Nat.compare_eq_gt.mpr (by omega)
  rw [InOrder, shortestFirst, compareLex, compareOn, hgt] at h
  cases h

theorem without_covered_spec (dsts : List IpBlock) :
    (withoutCovered dsts).Pairwise Apart ∧ (∀ b ∈ withoutCovered dsts, b ∈ dsts) ∧
      ∀ ip, Covered (withoutCovered dsts) ip ↔ Covered dsts ip := by
  have hsorted : (sortBy shortestFirst dsts).Pairwise fun b c => b.prefixLen ≤ c.prefixLen :=
    (sort_by_sorted shortestFirst dsts).imp shortest_first_le
  have hnothing : Swept [] [] [] := ⟨rfl, by simp, by simp, .nil⟩
  obtain ⟨swept, _, hsame, hswept⟩ := keep_uncovered_swept hnothing hsorted (by simp)
  simp only [List.not_mem_nil, false_or, mem_sort_by] at hsame
  have hmem : ∀ b, b ∈ withoutCovered dsts ↔
      b ∈ keepUncovered [] [] [] (sortBy shortestFirst dsts) := fun b => mem_sort_by blockOrder _ b
  have hinside : ∀ b ∈ withoutCovered dsts, b ∈ dsts := fun b hb =>
    (hsame b).mp (hswept.known b ((hmem b).mp hb))
  refine ⟨?_, hinside, fun ip => ⟨?_, ?_⟩⟩
  · exact (sort_by_perm blockOrder _).symm.pairwise hswept.apart apart_symm
  · rintro ⟨b, hb, hip⟩
    exact ⟨b, hinside b hb, hip⟩
  · rintro ⟨b, hb, hip⟩
    obtain ⟨c, hc, hcovers⟩ := hswept.covers b ((hsame b).mpr hb)
    exact ⟨c, (hmem c).mpr hc, contains_of_covers hcovers hip⟩

end NetRuleRouter.NftMerge
