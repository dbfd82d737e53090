import NetRuleRouter.Grouping
import NetRuleRouter.PlacedRules

/-!
# Folding keeps every verdict

A group matches where one of the rules placed in it does, and rules that could
answer a packet differently keep their order. So the folded chain answers as
the chain it was folded from, and its sets hold disjoint blocks of one family
that name what was folded.
-/

set_option autoImplicit false

namespace NetRuleRouter.FoldedSets
open IpNetwork BlockGeometry FirstMatch NftMerge PlacedRules

def blocksOf : NftMatch → List IpBlock
  | .dstV4 net prefixLen => (IpBlock.new (.v4 net) prefixLen).toList
  | .dstV6 net prefixLen => (IpBlock.new (.v6 net) prefixLen).toList
  | .dstSetV4 blocks => blocks
  | .dstSetV6 blocks => blocks
  | _ => []

theorem single_destination (b : IpBlock) : destination (single b) = some (some b) := by
  have hself := block_new_self b
  unfold single
  split
  · rename_i net hnet
    rw [hnet] at hself
    rw [destination, hself]
  · rename_i net hnet
    rw [hnet] at hself
    rw [destination, hself]

theorem blocks_of_destination {m : NftMatch} {b : IpBlock} (h : destination m = some (some b)) :
    blocksOf m = [b] := by
  cases m with
  | dstV4 net prefixLen | dstV6 net prefixLen =>
    rw [blocksOf, Option.some.inj h]
    rfl
  | _ => cases h

theorem group_dst_spec (g : NftMerge.Group) :
    blocksOf g.dst = withoutCovered g.dsts ∧
      ∀ p, g.dst.holds p = true ↔ Covered g.dsts p.dst := by
  have hcovered := (without_covered_spec g.dsts).2.2
  unfold NftMerge.Group.dst
  split
  · rename_i one hone
    have hone' := single_destination one
    refine ⟨by rw [blocks_of_destination hone', hone], fun p => ?_⟩
    rw [destination_holds hone', ← hcovered, hone]
    simp [Covered]
  · rename_i dsts _
    split
    · refine ⟨rfl, fun p => ?_⟩
      rw [← hcovered, NftMatch.holds, List.any_eq_true]
      rfl
    · refine ⟨rfl, fun p => ?_⟩
      rw [← hcovered, NftMatch.holds, List.any_eq_true]
      rfl

theorem insert_between {α : Type} (front back : List α) (a : α) :
    (front ++ back).insertIdx front.length a = front ++ a :: back := by
  induction front with
  | nil => rfl
  | cons b front ih => exact congrArg (b :: ·) ih

variable {g : NftMerge.Group} {k : ℕ} {r : NftRule}

theorem into_rule_conditions {front back : List NftMatch} (hfront : front.length = g.dstAt)
    (hrest : g.rest = front ++ back) : g.intoRule.conditions = front ++ g.dst :: back := by
  rw [NftMerge.Group.intoRule, hrest, ← hfront]
  exact insert_between front back g.dst

theorem into_rule_applies {front back : List NftMatch} (hfront : front.length = g.dstAt)
    (hrest : g.rest = front ++ back) (p : Packet) :
    g.intoRule.applies p = true ↔ g.rest.all (·.holds p) = true ∧ Covered g.dsts p.dst := by
  rw [NftRule.applies, into_rule_conditions hfront hrest, hrest, List.all_append, List.all_append,
    List.all_cons, ← (group_dst_spec g).2 p]
  simp only [Bool.and_eq_true]
  tauto

section Groups

variable {run : Run} {placed : List (NftRule × ℕ)}

def members (placed : List (NftRule × ℕ)) (k : ℕ) : List NftRule :=
  (placed.filter (·.2 == k)).map Prod.fst

theorem mem_members : r ∈ members placed k ↔ (r, k) ∈ placed := by
  simp [members]

theorem member_shape (h : Placed run placed) (hg : run.groups[k]? = some g)
    (hr : r ∈ members placed k) :
    ∃ f, Foldable.of r = some f ∧ g.sameSet f r.verdict (bandOf r.comment) := by
  obtain ⟨f, g', hf, hg', hsame⟩ := h.joined (r, k) (mem_members.mp hr)
  rw [hg, Option.some.injEq] at hg'
  exact ⟨f, hf, hg' ▸ hsame⟩

theorem group_covered (h : Placed run placed) (hg : run.groups[k]? = some g) (ip : IpAddr) :
    Covered g.dsts ip ↔
      ∃ r ∈ members placed k, ∃ f, Foldable.of r = some f ∧ f.dst.contains ip = true := by
  rw [h.dsts k g hg, Covered]
  simp only [List.mem_filterMap, List.mem_filter, beq_iff_eq, Option.map_eq_some_iff]
  constructor
  · rintro ⟨b, ⟨q, ⟨hq, hqk⟩, f, hf, rfl⟩, hip⟩
    subst hqk
    exact ⟨q.1, mem_members.mpr hq, f, hf, hip⟩
  · rintro ⟨r, hr, f, hf, hip⟩
    exact ⟨f.dst, ⟨(r, k), ⟨mem_members.mp hr, rfl⟩, f, hf, rfl⟩, hip⟩

theorem group_shape (h : Placed run placed) (hg : run.groups[k]? = some g) :
    ∃ front back, front.length = g.dstAt ∧ g.rest = front ++ back := by
  obtain ⟨q, hq, rfl⟩ := h.filled k (List.getElem?_eq_some_iff.mp hg).1
  obtain ⟨f, hf, hsame⟩ := member_shape h hg (mem_members.mpr hq)
  obtain ⟨front, m, back, -, hfront, hrest, -⟩ := foldable_of_some hf
  exact ⟨front, back, hfront.trans hsame.2.2.1.symm, hsame.2.2.2.2.trans hrest⟩

theorem finish_getElem (hr : run.finish[k]? = some r) :
    ∃ g, run.groups[k]? = some g ∧ g.intoRule = r := by
  rw [Run.finish, List.getElem?_map, Option.map_eq_some_iff] at hr
  exact hr

theorem run_gathers (h : Placed run placed) :
    Gathers NftRule.applies NftRule.verdict NftRule.applies NftRule.verdict placed
      run.finish := by
  refine ⟨fun k out hout p => ?_, fun q hq => ?_, ?_⟩
  · obtain ⟨g, hg, rfl⟩ := finish_getElem hout
    obtain ⟨front, back, hfront, hrest⟩ := group_shape h hg
    rw [into_rule_applies hfront hrest, group_covered h hg]
    constructor
    · rintro ⟨hall, r, hr, f, hf, hip⟩
      obtain ⟨f', hf', hsame⟩ := member_shape h hg hr
      cases hf.symm.trans hf'
      refine ⟨(r, k), mem_members.mp hr, rfl, ?_⟩
      rw [foldable_applies hf, ← hsame.2.2.2.2, hall, hip]
      rfl
    · rintro ⟨q, hq, rfl, happlies⟩
      have hr := mem_members.mpr hq
      obtain ⟨f, hf, hsame⟩ := member_shape h hg hr
      rw [foldable_applies hf, Bool.and_eq_true, ← hsame.2.2.2.2] at happlies
      exact ⟨happlies.1, q.1, hr, f, hf, happlies.2⟩
  · obtain ⟨f, g, -, hg, hsame⟩ := h.joined q hq
    refine ⟨g.intoRule, ?_, hsame.1⟩
    rw [Run.finish, List.getElem?_map, hg]
    rfl
  · refine (List.pairwise_iff_forall_sublist.mpr fun {q r} hsub hne hshared => ?_)
    have hq : q ∈ placed := hsub.subset (by simp)
    have hr : r ∈ placed := hsub.subset (by simp)
    obtain ⟨p, hqp, hrp⟩ := hshared
    obtain ⟨f, -, hf, -, -⟩ := h.joined q hq
    obtain ⟨f', -, hf', -, -⟩ := h.joined r hr
    rw [foldable_applies hf, Bool.and_eq_true] at hqp
    rw [foldable_applies hf', Bool.and_eq_true] at hrp
    exact List.pairwise_iff_forall_sublist.mp h.order hsub hne f f' hf hf'
      (overlaps_iff.mpr ⟨_, hqp.2, hrp.2⟩)

end Groups

/-- The rule the members are folded into: they differ from it, and from each other, in their
destination alone, and its destination names disjoint blocks of one family that hold exactly the
members' addresses. A rule that names no single block stays as it is. -/
def FoldedInto (rules : List NftRule) (out : NftRule) : Prop :=
  (Foldable.of out = none ∧ rules = [out]) ∨
    ∃ front dst back isIpv4, out.conditions = front ++ dst :: back ∧ rules ≠ [] ∧
      (∀ r ∈ rules, r.verdict = out.verdict ∧ ∃ m, r.conditions = front ++ m :: back) ∧
      (blocksOf dst).Pairwise Apart ∧ (∀ b ∈ blocksOf dst, b.isIpv4 = isIpv4) ∧
      ∀ ip, Covered (blocksOf dst) ip ↔
        ∃ r ∈ rules, ∃ f, Foldable.of r = some f ∧ f.dst.contains ip = true

variable {run : Run} {placed : List (NftRule × ℕ)}

theorem group_folded (h : Placed run placed)
    (hg : run.groups[k]? = some g) : FoldedInto (members placed k) g.intoRule := by
  obtain ⟨front, back, hfront, hrest⟩ := group_shape h hg
  obtain ⟨hapart, hinside, hcovered⟩ := without_covered_spec g.dsts
  have hblocks := (group_dst_spec g).1
  refine .inr ⟨front, g.dst, back, g.isIpv4, into_rule_conditions hfront hrest, ?_, ?_, ?_, ?_, ?_⟩
  · obtain ⟨q, hq, rfl⟩ := h.filled k (List.getElem?_eq_some_iff.mp hg).1
    exact List.ne_nil_of_mem (mem_members.mpr hq)
  · intro r hr
    obtain ⟨f, hf, hsame⟩ := member_shape h hg hr
    refine ⟨hsame.1.symm, ?_⟩
    obtain ⟨front', m, back', hconditions, hfront', hrest', -⟩ := foldable_of_some hf
    have hparts : front ++ back = front' ++ back' :=
      hrest.symm.trans (hsame.2.2.2.2.trans hrest')
    obtain ⟨rfl, rfl⟩ := List.append_inj hparts
      (hfront.trans (hsame.2.2.1.trans hfront'.symm))
    exact ⟨m, hconditions⟩
  · rw [hblocks]
    exact hapart
  · intro b hb
    rw [hblocks] at hb
    have hdst := hinside b hb
    rw [h.dsts k g hg] at hdst
    obtain ⟨q, hq, hqb⟩ := List.mem_filterMap.mp hdst
    obtain ⟨f, hf, rfl⟩ := Option.map_eq_some_iff.mp hqb
    obtain ⟨hplaced, hqk⟩ := List.mem_filter.mp hq
    rw [beq_iff_eq] at hqk
    subst hqk
    obtain ⟨f', hf', hsame⟩ := member_shape h hg (mem_members.mpr hplaced)
    cases hf.symm.trans hf'
    exact hsame.2.2.2.1.symm
  · intro ip
    rw [hblocks, hcovered, group_covered h hg]

theorem run_parts (h : Placed run placed) :
    ∃ parts : List (List NftRule), parts.flatten.Perm (placed.map Prod.fst) ∧
      List.Forall₂ FoldedInto parts run.finish := by
  refine ⟨(List.range run.groups.length).map (members placed), ?_, ?_⟩
  · have hperm := Grouping.groups_perm Prod.snd (@List.nodup_range run.groups.length) fun q hq => by
      obtain ⟨f, g, -, hg, -⟩ := h.joined q hq
      exact List.mem_range.mpr (List.getElem?_eq_some_iff.mp hg).1
    have hmap := hperm.map Prod.fst
    rw [List.map_flatMap] at hmap
    rw [← List.flatMap_def]
    exact hmap
  · refine List.forall₂_iff_get.mpr ⟨by simp [Run.finish], fun k hk hk' => ?_⟩
    have hlt : k < run.groups.length := by simpa using hk
    simp only [List.get_eq_getElem, List.getElem_map, List.getElem_range, Run.finish]
    exact group_folded h (List.getElem?_eq_getElem hlt)

theorem fold_from_spec (h : Placed run placed) (rules out : List NftRule) :
    (∀ p, firstVerdict (foldFrom out run rules) p =
      firstVerdict (out ++ placed.map Prod.fst ++ rules) p) ∧
    ∀ before parts, parts.flatten.Perm before → List.Forall₂ FoldedInto parts out →
      ∃ all, all.flatten.Perm (before ++ placed.map Prod.fst ++ rules) ∧
        List.Forall₂ FoldedInto all (foldFrom out run rules) := by
  -- a finished run answers and folds like the rules in it
  have hfinish {run : Run} {placed : List (NftRule × ℕ)} (h : Placed run placed)
      (out rest : List NftRule) :
      (∀ p, firstVerdict (out ++ run.finish ++ rest) p =
        firstVerdict (out ++ placed.map Prod.fst ++ rest) p) ∧
      ∀ before parts, parts.flatten.Perm before → List.Forall₂ FoldedInto parts out →
        ∃ all, all.flatten.Perm (before ++ placed.map Prod.fst) ∧
          List.Forall₂ FoldedInto all (out ++ run.finish) := by
    constructor
    · intro p
      have hrun : decision NftRule.applies NftRule.verdict run.finish p =
          decision NftRule.applies NftRule.verdict (placed.map Prod.fst) p :=
        decision_gathered (run_gathers h) p
      simp only [firstVerdict, decision_append, hrun]
    · intro before parts hbefore hparts
      obtain ⟨own, hown, hfolded⟩ := run_parts h
      refine ⟨parts ++ own, ?_, List.rel_append hparts hfolded⟩
      rw [List.flatten_append]
      exact hbefore.append hown
  induction rules generalizing run placed out with
  | nil =>
    have hdone := hfinish h out []
    simp only [List.append_nil] at hdone ⊢
    exact hdone
  | cons rule rules ih =>
    rw [foldFrom]
    cases hf : Foldable.of rule with
    | some f =>
      have hnext := ih (placed_place h hf) out
      simp only [List.map_append, List.map_cons, List.map_nil, List.append_assoc,
        List.singleton_append] at hnext ⊢
      exact hnext
    | none =>
      obtain ⟨hverdicts, hfolds⟩ := ih placed_nothing (out ++ run.finish ++ [rule])
      obtain ⟨hrun, hrunFolds⟩ := hfinish h out (rule :: rules)
      constructor
      · intro p
        have hstep := hverdicts p
        simp only [List.map_nil, List.append_nil, List.append_assoc, List.singleton_append]
          at hstep hrun ⊢
        rw [hstep, hrun p]
      · intro before parts hbefore hparts
        obtain ⟨own, hown, hfolded⟩ := hrunFolds before parts hbefore hparts
        obtain ⟨all, hall, hallFolded⟩ := hfolds (before ++ placed.map Prod.fst ++ [rule])
          (own ++ [[rule]]) (by simpa using hown.append_right [rule])
          (List.rel_append hfolded (.cons (.inl ⟨hf, rfl⟩) .nil))
        exact ⟨all, by simpa using hall, hallFolded⟩

/-- The folded chain answers every packet as the chain did, report and all. Its rules are put
together from parts of the chain, each part folded over disjoint blocks of one family that name
the part's destinations. -/
theorem folding_keeps_verdicts (rules : List NftRule) :
    (∀ p, firstVerdict (foldIntoSets rules) p = firstVerdict rules p) ∧
      ∃ parts : List (List NftRule), parts.flatten.Perm rules ∧
        List.Forall₂ FoldedInto parts (foldIntoSets rules) := by
  obtain ⟨hverdicts, hfolds⟩ := fold_from_spec placed_nothing rules []
  exact ⟨hverdicts, hfolds [] [] .nil .nil⟩

end NetRuleRouter.FoldedSets
