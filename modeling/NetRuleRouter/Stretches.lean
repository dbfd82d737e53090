import Mathlib.Data.List.Chain

/-!
# Filters that keep a stretch

What a filter keeps of a chain is a chain again when it is one stretch of it.
Where each member of a chain can follow one member only, it is one only then.
-/

set_option autoImplicit false

namespace NetRuleRouter.Stretches

variable {α : Type*} {keep : α → Bool} {l : List α}

/-- Once a member goes, the later ones go too. -/
def FrontKept (keep : α → Bool) (l : List α) : Prop :=
  ∀ g h, [g, h].Sublist l → keep h = true → keep g = true

/-- No member goes between two that stay. -/
def MiddleKept (keep : α → Bool) (l : List α) : Prop :=
  ∀ f g h, [f, g, h].Sublist l → keep f = true → keep h = true → keep g = true

theorem front_filter (h : FrontKept keep l) : l.filter keep <+: l := by
  induction l with
  | nil => exact List.nil_prefix
  | cons g l ih =>
    cases hg : keep g with
    | true =>
      rw [List.filter_cons_of_pos hg, List.prefix_cons_inj]
      exact ih fun x y hxy => h x y (hxy.cons g)
    | false =>
      have hnone : (g :: l).filter keep = [] := by
        refine List.filter_eq_nil_iff.mpr fun y hy hkeep => ?_
        rcases List.mem_cons.mp hy with rfl | hy
        · simp [hg] at hkeep
        · exact absurd (h g y ((List.singleton_sublist.mpr hy).cons_cons g) hkeep) (by simp [hg])
      rw [hnone]
      exact List.nil_prefix

theorem middle_filter (h : MiddleKept keep l) : l.filter keep <:+: l := by
  induction l with
  | nil => exact List.infix_rfl
  | cons f l ih =>
    cases hf : keep f with
    | true =>
      rw [List.filter_cons_of_pos hf]
      refine ((List.prefix_cons_inj f).mpr (front_filter fun g x hgx hx => ?_)).isInfix
      exact h f g x (hgx.cons_cons f) hf hx
    | false =>
      rw [List.filter_cons_of_neg (by simp [hf])]
      exact List.infix_cons (ih fun g x y hgxy => h g x y (hgxy.cons f))

section
variable {β : Type*} {key first : α → β} {f : α}

/-- Each member names the key of the one before it. -/
abbrev Linked (key first : α → β) (l : List α) : Prop := l.IsChain fun f g => first g = key f

theorem linked_before (h : Linked key first (f :: l)) {g : α} (hg : g ∈ l) :
    ∃ z ∈ f :: l, first g = key z := by
  induction l generalizing f with
  | nil => cases hg
  | cons x l ih =>
    obtain ⟨hfx, h⟩ := List.isChain_cons_cons.mp h
    rcases List.mem_cons.mp hg with rfl | hg
    · exact ⟨f, List.mem_cons_self, hfx⟩
    · obtain ⟨z, hz, hgz⟩ := ih h hg
      exact ⟨z, List.mem_cons_of_mem f hz, hgz⟩

theorem none_kept_after {a : α} (ha : key a ∉ (f :: l).map key) (h : Linked key first (f :: l))
    (hkept : Linked key first (a :: l.filter keep)) : ∀ g ∈ l, keep g = false := by
  induction l generalizing f with
  | nil => simp
  | cons g l ih =>
    obtain ⟨hfg, h⟩ := List.isChain_cons_cons.mp h
    rw [List.map_cons, List.mem_cons, not_or] at ha
    cases hg : keep g with
    | true =>
      rw [List.filter_cons_of_pos hg] at hkept
      exact absurd ((List.isChain_cons_cons.mp hkept).1.symm.trans hfg) ha.1
    | false =>
      rw [List.filter_cons_of_neg (by simp [hg])] at hkept
      exact List.forall_mem_cons.mpr ⟨hg, ih ha.2 h hkept⟩

theorem front_kept_of_linked (hnodup : ((f :: l).map key).Nodup)
    (h : Linked key first (f :: l)) (hkept : Linked key first (f :: l.filter keep)) :
    FrontKept keep l := by
  induction l generalizing f with
  | nil => simp [FrontKept]
  | cons g l ih =>
    obtain ⟨-, h⟩ := List.isChain_cons_cons.mp h
    obtain ⟨hf, hnodup⟩ := List.nodup_cons.mp hnodup
    intro x y hxy hy
    cases hg : keep g with
    | true =>
      rw [List.filter_cons_of_pos hg] at hkept
      rcases List.sublist_cons_iff.mp hxy with hxy | ⟨r, hr, -⟩
      · exact ih hnodup h hkept.tail x y hxy hy
      · rw [(List.cons.inj hr).1]
        exact hg
    | false =>
      rw [List.filter_cons_of_neg (by simp [hg])] at hkept
      have hmem : y ∈ l := List.singleton_sublist.mp hxy.tail
      rw [none_kept_after hf h hkept y hmem] at hy
      cases hy

theorem middle_kept_of_linked (hnodup : (l.map key).Nodup) (h : Linked key first l)
    (hkept : Linked key first (l.filter keep)) : MiddleKept keep l := by
  induction l with
  | nil => simp [MiddleKept]
  | cons f l ih =>
    intro x y z hxyz hx hz
    cases hf : keep f with
    | true =>
      rw [List.filter_cons_of_pos hf] at hkept
      exact front_kept_of_linked hnodup h hkept y z hxyz.tail hz
    | false =>
      rw [List.filter_cons_of_neg (by simp [hf])] at hkept
      rcases List.sublist_cons_iff.mp hxyz with hxyz | ⟨r, hr, -⟩
      · exact ih hnodup.of_cons h.tail hkept x y z hxyz hx hz
      · rw [(List.cons.inj hr).1, hf] at hx
        cases hx

end

end NetRuleRouter.Stretches
