import Mathlib

/-!
# Sorting by a comparison

A stable sort by a three-way comparison, with what callers need of it: the
result is a permutation in order, sorting again changes nothing, the head is a
least element, and what came in another order differs among ties only. A
contest picks the head; when the entrants come in rounds, the first round that
has any decides.
-/

set_option autoImplicit false

namespace NetRuleRouter.Sorting

variable {α : Type*} (cmp : α → α → Ordering)

def InOrder (a b : α) : Prop := (cmp a b).isLE = true

instance (a b : α) : Decidable (InOrder cmp a b) := inferInstanceAs (Decidable (_ = _))

def sortBy (l : List α) : List α := l.insertionSort (InOrder cmp)

def Sorted (l : List α) : Prop := l.Pairwise (InOrder cmp)

theorem sort_by_perm (l : List α) : (sortBy cmp l).Perm l := List.perm_insertionSort _ l

@[simp] theorem mem_sort_by (l : List α) (a : α) : a ∈ sortBy cmp l ↔ a ∈ l :=
  (sort_by_perm cmp l).mem_iff

theorem sort_by_of_sorted (l : List α) (h : Sorted cmp l) : sortBy cmp l = l :=
  List.Pairwise.insertionSort_eq h

variable [Std.TransCmp cmp]

instance : Std.Total (InOrder cmp) where
  total a b := by
    unfold InOrder
    rcases h : cmp a b with _ | _ | _
    · exact Or.inl rfl
    · exact Or.inl rfl
    · exact Or.inr (by rw [@Std.OrientedCmp.eq_swap _ cmp _ b a, h]; rfl)

instance : IsTrans α (InOrder cmp) where
  trans _ _ _ := Std.TransCmp.isLE_trans

theorem sort_by_sorted (l : List α) : Sorted cmp (sortBy cmp l) := List.pairwise_insertionSort _ l

variable {l : List α} {a : α} {l' : List α}

theorem sorted_head (h : Sorted cmp l) {b : α} (ha : l.head? = some a) (hb : b ∈ l) :
    InOrder cmp a b := by
  cases l with
  | nil => simp at ha
  | cons c l =>
    simp only [List.head?_cons, Option.some.injEq] at ha
    subst ha
    rcases List.mem_cons.mp hb with rfl | hb
    · exact (Std.Total.total b b).elim id id
    · exact List.rel_of_pairwise_cons h hb

theorem sort_by_head (ha : (sortBy cmp l).head? = some a) : a ∈ l ∧ ∀ b ∈ l, InOrder cmp a b :=
  ⟨(mem_sort_by cmp l a).mp (List.mem_of_head? ha),
    fun b hb => sorted_head cmp (sort_by_sorted cmp l) ha ((mem_sort_by cmp l b).mpr hb)⟩

theorem in_order_antisymm {b : α} (h : InOrder cmp a b) (h' : InOrder cmp b a) : cmp a b = .eq :=
  Std.OrientedCmp.isLE_antisymm h h'

theorem sorted_perm_ties (h : Sorted cmp l) (h' : Sorted cmp l') (hp : l.Perm l') :
    List.Forall₂ (fun a b => cmp a b = .eq) l l' := by
  -- a member is known to the comparison by how it compares with everything
  have hkey {a b : α} (hab : cmp a = cmp b) : cmp a b = .eq := by
    rw [hab]
    exact Std.ReflCmp.compare_self
  let keyOrder (k k' : α → Ordering) : Prop := ∃ a b, cmp a = k ∧ cmp b = k' ∧ InOrder cmp a b
  have hlift (m : List α) (hm : Sorted cmp m) : (m.map cmp).Pairwise keyOrder :=
    List.pairwise_map.mpr (hm.imp fun hab => ⟨_, _, rfl, rfl, hab⟩)
  have heq : l.map cmp = l'.map cmp := by
    refine List.Perm.eq_of_pairwise ?_ (hlift l h) (hlift l' h') (hp.map cmp)
    rintro k k' - - ⟨a, b, rfl, rfl, hab⟩ ⟨b', a', hb, ha, hba⟩
    have hback : InOrder cmp b a := by
      unfold InOrder at hba ⊢
      rwa [hb, Std.TransCmp.congr_right (hkey ha)] at hba
    funext c
    exact Std.TransCmp.congr_left (in_order_antisymm cmp hab hback)
  have hties : List.Forall₂ (fun a b => cmp a = cmp b) l l' := by
    rw [← List.forall₂_eq_eq_eq] at heq
    simpa using heq
  exact hties.imp fun a b hab => hkey hab

theorem sort_by_perm_map {β : Type*} {f : α → β} (hp : l.Perm l')
    (hf : ∀ a ∈ l, ∀ b ∈ l, cmp a b = .eq → f a = f b) :
    (sortBy cmp l).map f = (sortBy cmp l').map f := by
  have hmem {a : α} (ha : a ∈ sortBy cmp l) : a ∈ l := (mem_sort_by cmp l a).mp ha
  have hmem' {a : α} (ha : a ∈ sortBy cmp l') : a ∈ l :=
    hp.mem_iff.mpr ((mem_sort_by cmp l' a).mp ha)
  have hsorts : (sortBy cmp l).Perm (sortBy cmp l') :=
    (sort_by_perm cmp l).trans (hp.trans (sort_by_perm cmp l').symm)
  have hties := sorted_perm_ties cmp (sort_by_sorted cmp l) (sort_by_sorted cmp l') hsorts
  generalize sortBy cmp l = m at hties hmem
  generalize sortBy cmp l' = m' at hties hmem'
  induction hties with
  | nil => rfl
  | @cons a b m m' hab _ ih =>
    rw [List.map_cons, List.map_cons, ih (fun h => hmem (.tail a h)) fun h => hmem' (.tail b h),
      hf a (hmem (.head m)) b (hmem' (.head m')) hab]

omit [Std.TransCmp cmp] in
/-- Between two bounds that close downwards, a sorted list has a slice with its members there. -/
theorem mem_slice (h : Sorted cmp l) {p q : α → Bool}
    (hp : ∀ a b, InOrder cmp a b → p b = true → p a = true)
    (hq : ∀ a b, InOrder cmp a b → q b = true → q a = true) :
    a ∈ (l.dropWhile p).takeWhile q ↔ a ∈ l ∧ p a = false ∧ q a = true := by
  have htake (l : List α) (h : Sorted cmp l) : a ∈ l.takeWhile q ↔ a ∈ l ∧ q a = true := by
    induction l with
    | nil => simp
    | cons b l ih =>
      have hrest := ih (List.Pairwise.of_cons h)
      cases hb : q b with
      | true =>
        rw [List.takeWhile_cons_of_pos hb, List.mem_cons, List.mem_cons, hrest, or_and_right]
        refine or_congr_left (and_iff_left_of_imp fun hab => ?_).symm
        rwa [hab]
      | false =>
        rw [List.takeWhile_cons_of_neg (by simp [hb])]
        refine iff_of_false (by simp) fun ha => ?_
        rcases List.mem_cons.mp ha.1 with rfl | hmem
        · simp [ha.2] at hb
        · simp [hq b a (List.rel_of_pairwise_cons h hmem) ha.2] at hb
  induction l with
  | nil => simp
  | cons b l ih =>
    have hrest := ih (List.Pairwise.of_cons h)
    cases hb : p b with
    | true =>
      rw [List.dropWhile_cons_of_pos hb, List.mem_cons, or_and_right]
      exact hrest.trans (or_iff_right fun ⟨hab, ha, _⟩ => by simp [hab, hb] at ha).symm
    | false =>
      rw [List.dropWhile_cons_of_neg (by simp [hb]), htake _ h]
      refine and_congr_right fun hmem => (and_iff_right ?_).symm
      rcases List.mem_cons.mp hmem with rfl | hmem
      · exact hb
      · by_contra ha
        simp [hp b a (List.rel_of_pairwise_cons h hmem) (by simpa using ha)] at hb

section
variable {β : Type*} {cmp' : β → β → Ordering} {f : α → Option β}

theorem insert_filter_map (hf : ∀ a b, ∀ x ∈ f a, ∀ y ∈ f b, cmp' x y = cmp a b)
    (h : Sorted cmp l) (a : α) :
    (l.orderedInsert (InOrder cmp) a).filterMap f =
      match f a with
      | none => l.filterMap f
      | some x => (l.filterMap f).orderedInsert (InOrder cmp') x := by
  have hle {b c : α} {x y : β} (hx : f b = some x) (hy : f c = some y) :
      InOrder cmp' x y ↔ InOrder cmp b c := by rw [InOrder, InOrder, hf b c x hx y hy]
  cases ha : f a with
  | none =>
    rw [List.orderedInsert_eq_take_drop, List.filterMap_append, List.filterMap_cons_none ha,
      ← List.filterMap_append, List.takeWhile_append_dropWhile]
  | some x =>
    dsimp only
    induction l with
    | nil => simp [ha]
    | cons b l ih =>
      rw [List.orderedInsert_cons]
      split
      · rename_i hab
        -- everything that is kept comes no earlier than `a`
        rw [List.filterMap_cons_some ha]
        cases hkept : (b :: l).filterMap f with
        | nil => rfl
        | cons y ys =>
          have hmem : y ∈ (b :: l).filterMap f := by simp [hkept]
          obtain ⟨c, hc, hy⟩ := List.mem_filterMap.mp hmem
          have hbc : InOrder cmp b c := sorted_head cmp h rfl hc
          rw [List.orderedInsert_cons, if_pos ((hle ha hy).mpr (Std.TransCmp.isLE_trans hab hbc))]
      · rename_i hab
        cases hb : f b with
        | none => rw [List.filterMap_cons_none hb, List.filterMap_cons_none hb, ih h.of_cons]
        | some y =>
          rw [List.filterMap_cons_some hb, List.filterMap_cons_some hb, List.orderedInsert_cons,
            if_neg (fun hxy => hab ((hle ha hb).mp hxy)), ih h.of_cons]

theorem sort_by_filter_map (hf : ∀ a b, ∀ x ∈ f a, ∀ y ∈ f b, cmp' x y = cmp a b) (l : List α) :
    sortBy cmp' (l.filterMap f) = (sortBy cmp l).filterMap f := by
  induction l with
  | nil => rfl
  | cons a l ih =>
    have hinsert := insert_filter_map cmp hf (sort_by_sorted cmp l) a
    have hcons : sortBy cmp (a :: l) = (sortBy cmp l).orderedInsert (InOrder cmp) a := rfl
    rw [hcons, hinsert]
    cases ha : f a with
    | none =>
      rw [List.filterMap_cons_none ha]
      exact ih
    | some x =>
      rw [List.filterMap_cons_some ha]
      exact congrArg (List.orderedInsert (InOrder cmp') x) ih

theorem sort_by_filter (p : α → Bool) (l : List α) :
    sortBy cmp (l.filter p) = (sortBy cmp l).filter p := by
  rw [← List.filterMap_eq_filter]
  refine sort_by_filter_map cmp (fun a b x hx y hy => ?_) l
  rw [(Option.guard_eq_some_iff.mp hx).1, (Option.guard_eq_some_iff.mp hy).1]

theorem sort_by_stable {κ : Type*} [DecidableEq κ] [Ord κ] [Std.TransOrd κ] (key : α → κ) (k : κ)
    (l : List α) :
    (sortBy (compareOn key) l).filter (fun a => key a = k) = l.filter fun a => key a = k := by
  rw [← sort_by_filter]
  refine sort_by_of_sorted _ _ (List.pairwise_of_forall_mem_list fun a ha b hb => ?_)
  have hab : key a = key b := by
    rw [of_decide_eq_true (List.mem_filter.mp ha).2, of_decide_eq_true (List.mem_filter.mp hb).2]
  simp [InOrder, compareOn, hab]

end

def best (l : List α) : Option α := (sortBy cmp l).head?

def Leads (l : List α) (a : α) : Prop := a ∈ l ∧ ∀ b ∈ l, InOrder cmp a b

def Covers (l m : List α) : Prop := ∀ a ∈ l, ∃ b ∈ m, InOrder cmp b a

def firstBest (rounds : List (List α)) : Option α := rounds.findSome? (best cmp)

omit [Std.TransCmp cmp] in
theorem best_eq_none : best cmp l = none ↔ l = [] := by
  rw [best, List.head?_eq_none_iff]
  constructor
  · intro h
    exact List.perm_nil.mp (h ▸ (sort_by_perm cmp l).symm)
  · intro h
    rw [h]
    rfl

omit [Std.TransCmp cmp] in
theorem first_best_none {rounds : List (List α)} :
    firstBest cmp rounds = none ↔ ∀ l ∈ rounds, l = [] := by
  simp only [firstBest, List.findSome?_eq_none_iff, best_eq_none]

theorem best_leads {a : α} (h : best cmp l = some a) : Leads cmp l a :=
  sort_by_head cmp h

theorem leads_eq_of_covers {m : List α} (hlm : Covers cmp l m) (hml : Covers cmp m l) {a b : α}
    (ha : Leads cmp l a) (hb : Leads cmp m b) : cmp a b = .eq := by
  have hab : InOrder cmp a b := by
    obtain ⟨c, hc, hcb⟩ := hml b hb.1
    exact Std.TransCmp.isLE_trans (ha.2 c hc) hcb
  have hba : InOrder cmp b a := by
    obtain ⟨c, hc, hca⟩ := hlm a ha.1
    exact Std.TransCmp.isLE_trans (hb.2 c hc) hca
  exact Std.OrientedCmp.isLE_antisymm hab hba

section
variable {β : Type*} {tie : α → α → Ordering} {cmp : β → β → Ordering} [Std.TransCmp tie]
  [Std.TransCmp cmp] {f : α → Option β} {y : β}

theorem sort_by_append_filter_map {t : List α} (hl : Sorted tie l) (ht : ∀ a ∈ t, f a = none) :
    (sortBy tie (l ++ t)).filterMap f = l.filterMap f := by
  have hkept (m : List α) : (m.filter fun a => (f a).isSome).filterMap f = m.filterMap f := by
    rw [List.filterMap_filter]
    refine List.filterMap_congr fun a _ => ?_
    cases f a <;> rfl
  have hnone : t.filter (fun a => (f a).isSome) = [] :=
    List.filter_eq_nil_iff.mpr fun a ha => by simp [ht a ha]
  rw [← hkept, ← sort_by_filter, List.filter_append, hnone, List.append_nil, sort_by_filter,
    sort_by_of_sorted _ _ hl, hkept]

/-- Of the entrants that tie for the lead, the first to come wins. -/
theorem best_filter_map (hl : Sorted tie l) (hy : best cmp (l.filterMap f) = some y) :
    ∃ a ∈ l, f a = some y ∧
      ∀ b ∈ l, ∀ z ∈ f b, ((cmp y z).then (tie a b)).isLE = true := by
  have hties : ((l.filterMap f).filter fun z => cmp y z = .eq).head? = some y := by
    rw [← sort_by_of_sorted cmp ((l.filterMap f).filter _), sort_by_filter]
    · obtain ⟨rest, hrest⟩ := List.head?_eq_some_iff.mp hy
      rw [hrest, List.filter_cons_of_pos (by simp [Std.ReflCmp.compare_self])]
      rfl
    · refine List.pairwise_of_forall_mem_list fun a ha b hb => ?_
      have hya := of_decide_eq_true (List.mem_filter.mp ha).2
      have hyb := of_decide_eq_true (List.mem_filter.mp hb).2
      rw [InOrder, ← Std.TransCmp.congr_left hya, hyb]
      rfl
  rw [List.filter_filterMap, List.head?_filterMap, List.findSome?_eq_some_iff] at hties
  obtain ⟨before, a, after, rfl, ha, hnone⟩ := hties
  refine ⟨a, by simp, (Option.filter_eq_some_iff.mp ha).1, fun b hb z hz => ?_⟩
  have hlead : InOrder cmp y z := (best_leads cmp hy).2 z (List.mem_filterMap.mpr ⟨b, hb, hz⟩)
  cases hyz : cmp y z with
  | lt => rfl
  | gt => simp [InOrder, hyz] at hlead
  | eq =>
    have hlate : b ∈ a :: after := (List.mem_append.mp hb).resolve_left fun hb => by
      simpa [hyz] using Option.filter_eq_none_iff.mp (hnone b hb) z hz
    exact sorted_head tie (List.pairwise_append.mp hl).2.1 rfl hlate

end

end NetRuleRouter.Sorting
