import NetRuleRouter.NftMerge

/-!
# Where the rules of a run go

Every rule of a run is placed in a group of rules like it. Two rules of
different verdicts that share an address keep their order: the later one joins
or opens a group behind the earlier one's, whichever of the host map and the
network list remembers it.
-/

set_option autoImplicit false

namespace NetRuleRouter.PlacedRules
open IpNetwork BlockGeometry NftMerge

structure Placed (run : Run) (placed : List (NftRule × ℕ)) : Prop where
  joined : ∀ q ∈ placed, ∃ f g, Foldable.of q.1 = some f ∧ run.groups[q.2]? = some g ∧
    g.sameSet f q.1.verdict (bandOf q.1.comment)
  dsts : ∀ k g, run.groups[k]? = some g →
    g.dsts = (placed.filter (·.2 == k)).filterMap fun q => (Foldable.of q.1).map (·.dst)
  filled : ∀ k < run.groups.length, ∃ q ∈ placed, q.2 = k
  hosts : ∀ q ∈ placed, ∀ f, Foldable.of q.1 = some f → f.dst.isSingleAddress = true →
    (f.dst.network, q.1.verdict, q.2) ∈ run.hosts
  networks : ∀ q ∈ placed, ∀ f, Foldable.of q.1 = some f → f.dst.isSingleAddress = false →
    (f.dst, q.1.verdict, q.2) ∈ run.networks
  bounded : (∀ e ∈ run.hosts, e.2.2 < run.groups.length) ∧
    ∀ e ∈ run.networks, e.2.2 < run.groups.length
  order : placed.Pairwise fun q r => q.1.verdict ≠ r.1.verdict → ∀ f g, Foldable.of q.1 = some f →
    Foldable.of r.1 = some g → f.dst.overlaps g.dst = true → q.2 < r.2

theorem placed_nothing : Placed {} [] :=
  ⟨by simp, by simp, by simp, by simp, by simp, by simp, .nil⟩

theorem overlaps_host {b c : IpBlock} (h : b.overlaps c = true) (hb : b.isSingleAddress = true) :
    if c.isSingleAddress then b.network = c.network else c.contains b.network = true := by
  have hcontains : c.contains b.network = true := by
    obtain ⟨ip, hip, hcip⟩ := overlaps_iff.mp h
    rwa [(single_contains hb).mp hip] at hcip
  split
  · rename_i hc
    exact (single_contains hc).mp hcontains
  · exact hcontains

variable {run : Run} {placed : List (NftRule × ℕ)} {verdict : NftVerdict} {dst : IpBlock}

theorem latest_conflict_le (h : Placed run placed) {q : NftRule × ℕ} (hq : q ∈ placed)
    {f : Foldable} (hf : Foldable.of q.1 = some f)
    (hverdict : q.1.verdict ≠ verdict) (hoverlaps : f.dst.overlaps dst = true) :
    ∃ after, run.latestConflict dst verdict = some after ∧ q.2 ≤ after := by
  have hmem : ∃ l, run.latestConflict dst verdict = List.max? l ∧ q.2 ∈ l := by
    refine ⟨_, rfl, ?_⟩
    rw [List.mem_append, List.mem_map, List.mem_map]
    cases hsingle : f.dst.isSingleAddress with
    | false =>
      refine .inl ⟨(f.dst, q.1.verdict, q.2), ?_, rfl⟩
      exact List.mem_filter.mpr ⟨h.networks q hq f hf hsingle, by simp [hverdict, hoverlaps]⟩
    | true =>
      have hhost := h.hosts q hq f hf hsingle
      have hshared := overlaps_host hoverlaps hsingle
      refine .inr ⟨(f.dst.network, q.1.verdict, q.2), ?_, rfl⟩
      split at hshared
      · rename_i hdst
        rw [if_pos hdst]
        exact List.mem_filter.mpr ⟨hhost, by simp [hverdict, hshared]⟩
      · rename_i hdst
        rw [if_neg hdst]
        exact List.mem_filter.mpr ⟨hhost, by simp [hverdict, hshared]⟩
  obtain ⟨l, hl, hql⟩ := hmem
  obtain ⟨after, hafter⟩ : ∃ after, l.max? = some after :=
    Option.isSome_iff_exists.mp (List.isSome_max?_of_mem hql)
  exact ⟨after, hl.trans hafter, (List.max?_eq_some_iff.mp hafter).2 _ hql⟩

theorem latest_conflict_lt (h : Placed run placed)
    {after : ℕ} (hafter : run.latestConflict dst verdict = some after) :
    after < run.groups.length := by
  have hmem := (List.max?_eq_some_iff.mp hafter).1
  rcases List.mem_append.mp hmem with hmem | hmem
  · obtain ⟨e, he, rfl⟩ := List.mem_map.mp hmem
    exact h.bounded.2 e (List.mem_filter.mp he).1
  · obtain ⟨e, he, rfl⟩ := List.mem_map.mp hmem
    split at he
    · exact h.bounded.1 e (List.mem_filter.mp he).1
    · exact h.bounded.1 e (List.mem_filter.mp he).1

theorem rposition_some {α : Type} {p : α → Bool} {l : List α} {i : ℕ}
    (h : rposition p l = some i) : ∃ a, l[i]? = some a ∧ p a = true := by
  obtain ⟨⟨a, j⟩, hlast, rfl⟩ := Option.map_eq_some_iff.mp h
  obtain ⟨hmem, hp⟩ := List.mem_filter.mp (List.mem_of_getLast? hlast)
  exact ⟨a, List.mem_zipIdx_iff_getElem?.mp hmem, hp⟩

/-- What joining a rule leaves of a run's groups: the rule stands in the group `place`, behind
every group it conflicts with. -/
structure Joins (run : Run) (f : Foldable) (rule : NftRule) (place : ℕ)
    (groups : List NftMerge.Group) : Prop where
  lands : ∃ g, groups[place]? = some g ∧ g.sameSet f rule.verdict (bandOf rule.comment) ∧
    g.dsts = ((run.groups[place]?.map (·.dsts)).getD []) ++ [f.dst]
  others : ∀ k, k ≠ place → groups[k]? = run.groups[k]?
  keeps : ∀ (k : ℕ) (g : NftMerge.Group), run.groups[k]? = some g → ∀ f' v b, g.sameSet f' v b →
    ∃ g' : NftMerge.Group, groups[k]? = some g' ∧ g'.sameSet f' v b
  grows : run.groups.length ≤ groups.length
  added : ∀ k < groups.length, k < run.groups.length ∨ k = place
  behind : ∀ after, run.latestConflict f.dst rule.verdict = some after → after < place

variable {f : Foldable} {rule : NftRule}

theorem joins_new {g : NftMerge.Group} (h : Placed run placed)
    (hsame : g.sameSet f rule.verdict (bandOf rule.comment)) (hdsts : g.dsts = [f.dst]) :
    Joins run f rule run.groups.length (run.groups ++ [g]) where
  lands := ⟨g, List.getElem?_concat_length, hsame, by simp [hdsts]⟩
  others k hk := by
    rcases lt_or_ge k run.groups.length with hlt | hge
    · rw [List.getElem?_append_left hlt]
    · rw [List.getElem?_eq_none (by simp; omega), List.getElem?_eq_none hge]
  keeps k g' hg' f' v b hsame' := by
    have hlt := (List.getElem?_eq_some_iff.mp hg').1
    exact ⟨g', by rw [List.getElem?_append_left hlt, hg'], hsame'⟩
  grows := by simp
  added k hk := by
    simp only [List.length_append, List.length_singleton] at hk
    omega
  behind _ hafter := latest_conflict_lt h hafter

theorem joins_old {i : ℕ} (htarget : run.target f rule.verdict (bandOf rule.comment) = some i) :
    Joins run f rule i (run.groups.modify i fun g => { g with dsts := g.dsts ++ [f.dst] }) := by
  obtain ⟨hpos, hafter⟩ := Option.filter_eq_some_iff.mp htarget
  obtain ⟨g, hg, hsame⟩ := rposition_some hpos
  exact {
    lands := ⟨{ g with dsts := g.dsts ++ [f.dst] }, by rw [List.getElem?_modify_eq, hg]; rfl,
      of_decide_eq_true hsame, by simp [hg]⟩
    others := fun k hk => List.getElem?_modify_ne _ _ (Ne.symm hk)
    keeps := by
      intro k g' hg' f' v b hsame'
      rw [List.getElem?_modify, hg']
      split
      · exact ⟨_, rfl, hsame'⟩
      · exact ⟨_, rfl, hsame'⟩
    grows := by simp
    added := fun k hk => .inl (by simpa using hk)
    behind := by
      intro after hlatest
      rw [hlatest] at hafter
      simpa using hafter }

theorem join_joins (h : Placed run placed) :
    Joins run f rule (run.join f rule).1 (run.join f rule).2 := by
  unfold Run.join
  split
  · exact joins_old ‹_›
  · exact joins_new h ⟨rfl, rfl, rfl, rfl, rfl⟩ rfl

theorem place_groups : (run.place f rule).groups = (run.join f rule).2 := by
  unfold Run.place
  split <;> rfl

theorem place_hosts : (run.place f rule).hosts = run.hosts ++
    if f.dst.isSingleAddress then [(f.dst.network, rule.verdict, (run.join f rule).1)] else [] := by
  unfold Run.place
  split <;> simp

theorem place_networks : (run.place f rule).networks = run.networks ++
    if f.dst.isSingleAddress then [] else [(f.dst, rule.verdict, (run.join f rule).1)] := by
  unfold Run.place
  split <;> simp

section
variable {place : ℕ} {groups : List NftMerge.Group}

theorem joined_append (h : Placed run placed) (hjoin : Joins run f rule place groups)
    (hf : Foldable.of rule = some f) : ∀ q ∈ placed ++ [(rule, place)], ∃ f g,
      Foldable.of q.1 = some f ∧ groups[q.2]? = some g ∧
        g.sameSet f q.1.verdict (bandOf q.1.comment) := by
  refine List.forall_mem_append.mpr ⟨fun q hq => ?_, List.forall_mem_singleton.mpr ?_⟩
  · obtain ⟨f', g, hf', hg, hsame⟩ := h.joined q hq
    obtain ⟨g', hg', hsame'⟩ := hjoin.keeps q.2 g hg f' _ _ hsame
    exact ⟨f', g', hf', hg', hsame'⟩
  · obtain ⟨g, hg, hsame, -⟩ := hjoin.lands
    exact ⟨f, g, hf, hg, hsame⟩

theorem group_dsts (h : Placed run placed) (k : ℕ) :
    ((run.groups[k]?.map (·.dsts)).getD []) =
      (placed.filter (·.2 == k)).filterMap fun q => (Foldable.of q.1).map (·.dst) := by
  cases hrun : run.groups[k]? with
  | some old => exact h.dsts _ old hrun
  | none =>
    have hnone : placed.filter (·.2 == k) = [] := by
      refine List.filter_eq_nil_iff.mpr fun q hq heq => ?_
      obtain ⟨-, g, -, hg, -⟩ := h.joined q hq
      rw [beq_iff_eq.mp heq, hrun] at hg
      cases hg
    rw [hnone]
    rfl

theorem dsts_append (h : Placed run placed) (hjoin : Joins run f rule place groups)
    (hf : Foldable.of rule = some f) (k : ℕ) (g : NftMerge.Group) (hg : groups[k]? = some g) :
    g.dsts = ((placed ++ [(rule, place)]).filter (·.2 == k)).filterMap
      fun q => (Foldable.of q.1).map (·.dst) := by
  rw [List.filter_append, List.filterMap_append]
  by_cases hk : k = place
  · subst hk
    obtain ⟨g', hg', -, hdsts⟩ := hjoin.lands
    cases hg.symm.trans hg'
    rw [hdsts, group_dsts h]
    simp [hf]
  · rw [hjoin.others k hk] at hg
    rw [h.dsts k g hg]
    simp [Ne.symm hk]

theorem order_append (h : Placed run placed) (hjoin : Joins run f rule place groups)
    (hf : Foldable.of rule = some f) :
    (placed ++ [(rule, place)]).Pairwise fun q r => q.1.verdict ≠ r.1.verdict → ∀ f g,
      Foldable.of q.1 = some f → Foldable.of r.1 = some g → f.dst.overlaps g.dst = true →
        q.2 < r.2 := by
  refine List.pairwise_append.mpr ⟨h.order, List.pairwise_singleton _ _, ?_⟩
  intro q hq r hr hne f' g hf' hg hoverlaps
  rw [List.mem_singleton] at hr
  subst hr
  cases hf.symm.trans hg
  obtain ⟨after, hlatest, hle⟩ := latest_conflict_le h hq hf' hne hoverlaps
  exact hle.trans_lt (hjoin.behind after hlatest)

end

theorem bounded_append {α : Type} {entries : List (α × NftVerdict × ℕ)} {new : α} {single : Prop}
    [Decidable single] {n m place : ℕ} (h : ∀ e ∈ entries, e.2.2 < n) (hle : n ≤ m)
    (hplace : place < m) :
    ∀ e ∈ entries ++ if single then [(new, rule.verdict, place)] else [], e.2.2 < m := by
  refine List.forall_mem_append.mpr ⟨fun e he => (h e he).trans_le hle, ?_⟩
  split
  · simpa using hplace
  · simp

theorem placed_place (h : Placed run placed) (hf : Foldable.of rule = some f) :
    Placed (run.place f rule) (placed ++ [(rule, (run.join f rule).1)]) := by
  have hjoin : Joins run f rule _ _ := join_joins h
  have hplace : (run.join f rule).1 < (run.join f rule).2.length := by
    obtain ⟨g, hg, -⟩ := hjoin.lands
    exact (List.getElem?_eq_some_iff.mp hg).1
  rw [← place_groups] at hjoin hplace
  refine ⟨joined_append h hjoin hf, dsts_append h hjoin hf, ?_, ?_, ?_, ⟨?_, ?_⟩,
    order_append h hjoin hf⟩
  · intro k hk
    rcases hjoin.added k hk with hlt | rfl
    · obtain ⟨q, hq, hqk⟩ := h.filled k hlt
      exact ⟨q, by simp [hq], hqk⟩
    · exact ⟨(rule, _), by simp, rfl⟩
  · rw [place_hosts]
    refine List.forall_mem_append.mpr ⟨fun q hq f' hf' hsingle =>
      List.mem_append_left _ (h.hosts q hq f' hf' hsingle), ?_⟩
    simp +contextual [hf]
  · rw [place_networks]
    refine List.forall_mem_append.mpr ⟨fun q hq f' hf' hsingle =>
      List.mem_append_left _ (h.networks q hq f' hf' hsingle), ?_⟩
    simp +contextual [hf]
  · rw [place_hosts]
    exact bounded_append h.bounded.1 hjoin.grows hplace
  · rw [place_networks, ← ite_not]
    exact bounded_append h.bounded.2 hjoin.grows hplace

end NetRuleRouter.PlacedRules
