import NetRuleRouter.Sorting

/-!
# Grouping a list by a key

The groups of a list, taken key by key, are the list again in another order.
Sorting puts them back: a sorted list is fixed by its classes of members that
compare equal.
-/

set_option autoImplicit false

namespace NetRuleRouter.Grouping
open Sorting

section
variable {α κ : Type*} [DecidableEq κ] (key : α → κ)

theorem groups_perm_filter (keys : List κ) (hk : keys.Nodup) (l : List α) :
    (keys.flatMap fun k => l.filter fun a => key a == k).Perm
      (l.filter fun a => decide (key a ∈ keys)) := by
  induction keys with
  | nil => simp
  | cons k ks ih =>
    obtain ⟨hnot, hks⟩ := List.nodup_cons.mp hk
    have hsplit := List.filter_append_perm (fun a => key a == k)
      (l.filter fun a => decide (key a ∈ k :: ks))
    have hhead : (l.filter fun a => decide (key a ∈ k :: ks)).filter (fun a => key a == k) =
        l.filter fun a => key a == k := by
      rw [List.filter_filter]
      refine List.filter_congr fun a _ => ?_
      by_cases h : key a = k <;> simp [h]
    have htail : (l.filter fun a => decide (key a ∈ k :: ks)).filter (fun a => !(key a == k)) =
        l.filter fun a => decide (key a ∈ ks) := by
      rw [List.filter_filter]
      refine List.filter_congr fun a _ => ?_
      by_cases h : key a = k
      · simp [h, hnot]
      · simp [h]
    rw [hhead, htail] at hsplit
    rw [List.flatMap_cons]
    exact ((ih hks).append_left _).trans hsplit

theorem groups_perm {keys : List κ} (hk : keys.Nodup) {l : List α} (hall : ∀ a ∈ l, key a ∈ keys) :
    (keys.flatMap fun k => l.filter fun a => key a == k).Perm l := by
  have hfilter : (l.filter fun a => decide (key a ∈ keys)) = l :=
    List.filter_eq_self.mpr fun a ha => by simpa using hall a ha
  have hperm := groups_perm_filter key keys hk l
  rwa [hfilter] at hperm

end

section
variable {α : Type*} {cmp : α → α → Ordering} [Std.TransCmp cmp]

def classOf (cmp : α → α → Ordering) (a : α) (l : List α) : List α :=
  l.filter fun b => cmp a b == .eq

theorem class_sorted (a : α) (l : List α) : Sorted cmp (classOf cmp a l) := by
  refine List.Pairwise.imp_of_mem (R := fun _ _ => True) ?_ (List.pairwise_of_forall (by simp))
  intro b c hb hc _
  have hab : cmp a b = .eq := by simpa [classOf] using (List.mem_filter.mp hb).2
  have hac : cmp a c = .eq := by simpa [classOf] using (List.mem_filter.mp hc).2
  have hba : cmp b a = .eq := Std.OrientedCmp.eq_symm hab
  have hbc : cmp b c = .eq := Std.TransCmp.eq_trans hba hac
  simp [InOrder, hbc]

theorem class_sort_by (a : α) (l : List α) : classOf cmp a (sortBy cmp l) = classOf cmp a l := by
  rw [classOf, ← sort_by_filter]
  exact sort_by_of_sorted _ _ (class_sorted a l)

theorem sorted_ext {l m : List α} (hl : Sorted cmp l) (hm : Sorted cmp m) (hperm : l.Perm m)
    (hclass : ∀ a ∈ m, classOf cmp a l = classOf cmp a m) : l = m := by
  induction l generalizing m with
  | nil => exact (List.nil_perm.mp hperm).symm
  | cons b l ih =>
    cases m with
    | nil => exact absurd hperm.length_eq (by simp)
    | cons c m =>
      have hcl : c ∈ b :: l := hperm.symm.subset (by simp)
      have hbm : b ∈ c :: m := hperm.subset (by simp)
      have hbc := sorted_head cmp hl rfl hcl
      have hcb := sorted_head cmp hm rfl hbm
      have heq : cmp b c = .eq := Std.OrientedCmp.isLE_antisymm hbc hcb
      have hself : cmp b b = .eq := Std.ReflCmp.compare_self
      have hb := hclass b hbm
      simp only [classOf, List.filter_cons, hself, heq, beq_self_eq_true, if_true,
        List.cons.injEq] at hb
      obtain ⟨rfl, -⟩ := hb
      refine congrArg _ (ih hl.of_cons hm.of_cons (List.perm_cons b |>.mp hperm) fun a ha => ?_)
      have ha := hclass a (List.mem_cons_of_mem _ ha)
      simp only [classOf, List.filter_cons] at ha
      split at ha
      · exact (List.cons.inj ha).2
      · exact ha

theorem sort_by_eq {l m : List α} (hm : Sorted cmp m) (hperm : l.Perm m)
    (hclass : ∀ a ∈ m, classOf cmp a l = classOf cmp a m) : sortBy cmp l = m :=
  sorted_ext (sort_by_sorted cmp l) hm ((sort_by_perm cmp l).trans hperm) fun a ha => by
    rw [class_sort_by, hclass a ha]

variable {κ : Type*} [DecidableEq κ] {key : α → κ}

omit [Std.TransCmp cmp] in
theorem class_of_group {l : List α} {a : α} (hkey : ∀ b ∈ l, cmp a b = .eq → key b = key a) (k : κ) :
    classOf cmp a (l.filter fun b => key b == k) = if key a = k then classOf cmp a l else [] := by
  rw [classOf, List.filter_filter]
  by_cases h : key a = k
  · rw [if_pos h, classOf]
    refine List.filter_congr fun b hb => ?_
    by_cases hab : cmp a b = .eq
    · simp [hab, hkey b hb hab, h]
    · simp [hab]
  · rw [if_neg h]
    refine List.filter_eq_nil_iff.mpr fun b hb => ?_
    by_cases hab : cmp a b = .eq
    · simp [hkey b hb hab, h]
    · simp [hab]

omit [Std.TransCmp cmp] in
theorem class_of_groups {keys : List κ} (hk : keys.Nodup) {l : List α} {a : α}
    (hkey : ∀ b ∈ l, cmp a b = .eq → key b = key a) :
    classOf cmp a (keys.flatMap fun k => l.filter fun b => key b == k) =
      if key a ∈ keys then classOf cmp a l else [] := by
  induction keys with
  | nil => rfl
  | cons k ks ih =>
    obtain ⟨hnot, hks⟩ := List.nodup_cons.mp hk
    have hcons : classOf cmp a ((k :: ks).flatMap fun k => l.filter fun b => key b == k) =
        classOf cmp a (l.filter fun b => key b == k) ++
          classOf cmp a (ks.flatMap fun k => l.filter fun b => key b == k) := by
      rw [List.flatMap_cons, classOf, List.filter_append]
      rfl
    rw [hcons, class_of_group hkey, ih hks]
    by_cases h : key a = k
    · simp [h, hnot]
    · simp [h]

theorem sort_groups {keys : List κ} (hk : keys.Nodup) {l : List α} (hl : Sorted cmp l)
    (hall : ∀ a ∈ l, key a ∈ keys) (hkey : ∀ a ∈ l, ∀ b ∈ l, cmp a b = .eq → key b = key a) :
    sortBy cmp (keys.flatMap fun k => l.filter fun a => key a == k) = l := by
  refine sort_by_eq hl (groups_perm key hk hall) fun a ha => ?_
  rw [class_of_groups hk (hkey a ha), if_pos (hall a ha)]

end

end NetRuleRouter.Grouping
