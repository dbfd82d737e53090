import NetRuleRouter.Canonical

/-!
# What the canonical order tells apart

The sort texts of addresses carry the whole address, so two rules that
compare equal agree in everything the canonical bytes carry.
-/

set_option autoImplicit false

namespace NetRuleRouter.CanonicalOrder
open TextOps Numerals IpNetwork Canonical AppPaths

theorem numeral_value_zeros (radix k : ℕ) (s : Text) (h0 : toDigit radix '0' = some 0) :
    numeralValue radix (List.replicate k '0' ++ s) = numeralValue radix s := by
  induction k with
  | zero => rfl
  | succ k ih =>
    rw [← ih]
    simp [numeralValue, List.replicate_succ, h0]

theorem padded_numeral_inj {radix width n m : ℕ} (hr : radix ∈ [10, 16])
    (h : paddedNumeral width radix n = paddedNumeral width radix m) : n = m := by
  have h0 := zero_to_digit hr
  have hv := congrArg (numeralValue radix) h
  rw [paddedNumeral, paddedNumeral, numeral_value_zeros _ _ _ h0, numeral_value_zeros _ _ _ h0,
    numeral_value hr, numeral_value hr] at hv
  exact hv

theorem ip_sort_key_inj {a b : IpAddr} (h : ipSortKey a = ipSortKey b) : a = b := by
  -- the text of a sixteen-byte address starts with a letter no decimal digit is
  have hcross (x : BitVec 32) (y : BitVec 128) : ipSortKey (.v4 x) ≠ ipSortKey (.v6 y) := by
    intro he
    have hv : 'v' ∈ ipSortKey (.v4 x) := by rw [he]; simp [ipSortKey]
    exact absurd (padded_digits (by simp) 'v' hv) (by decide)
  cases a with
  | v4 x =>
    cases b with
    | v4 y => rw [BitVec.eq_of_toNat_eq (padded_numeral_inj (by simp) h)]
    | v6 y => exact absurd h (hcross x y)
  | v6 x =>
    cases b with
    | v4 y => exact absurd h.symm (hcross y x)
    | v6 y =>
      have hp := List.append_cancel_left h
      rw [BitVec.eq_of_toNat_eq (padded_numeral_inj (by simp) hp)]

theorem split_once_inj {c : Char} {a b a' b' : Text} (ha : c ∉ a) (ha' : c ∉ a')
    (h : a ++ c :: b = a' ++ c :: b') : a = a' ∧ b = b' := by
  have h1 : splitOnce c (a ++ c :: b) = some (a, b) := split_once_some.mpr ⟨rfl, ha⟩
  have h2 : splitOnce c (a ++ c :: b) = some (a', b') := split_once_some.mpr ⟨h, ha'⟩
  rw [h1] at h2
  exact Prod.mk.inj (Option.some.inj h2)

theorem ip_sort_key_chars (a : IpAddr) : '/' ∉ ipSortKey a ∧ '-' ∉ ipSortKey a := by
  have hnot (c : Char) (hd : isDigit 10 c = false) (hx : isDigit 16 c = false)
      (hv : c ∉ "v6:".toList) : c ∉ ipSortKey a := by
    intro hc
    cases a with
    | v4 x => exact absurd (padded_digits (by simp) c hc) (by simp [hd])
    | v6 y =>
      rcases List.mem_append.mp hc with hc | hc
      · exact hv hc
      · exact absurd (padded_digits (by simp) c hc) (by simp [hx])
  exact ⟨hnot '/' (by decide) (by decide) (by decide), hnot '-' (by decide) (by decide) (by decide)⟩

theorem block_sort_key_inj {b c : IpBlock} (h : CanonicalAddressMatch.sortKeyStr (.subnet b) =
      CanonicalAddressMatch.sortKeyStr (.subnet c)) : b = c := by
  obtain ⟨hn, hp⟩ := split_once_inj (ip_sort_key_chars _).1 (ip_sort_key_chars _).1 h
  exact block_ext (ip_sort_key_inj hn) (padded_numeral_inj (by simp) hp)

theorem range_sort_key_inj {r q : IpRange} (h : CanonicalAddressMatch.sortKeyStr (.ipRange r) =
      CanonicalAddressMatch.sortKeyStr (.ipRange q)) : r = q := by
  obtain ⟨hf, hl⟩ := split_once_inj (ip_sort_key_chars _).2 (ip_sort_key_chars _).2 h
  have hnew := range_new_self r
  rw [ip_sort_key_inj hf, ip_sort_key_inj hl, range_new_self q] at hnew
  exact (Option.some.inj hnew).symm

variable {a b : CanonicalRule}

theorem address_of_sort (hg : a.sortGroup = b.sortGroup) (hv : a.sortValue = b.sortValue) :
    a.addressMatch = b.addressMatch := by
  unfold CanonicalRule.sortGroup at hg
  unfold CanonicalRule.sortValue at hv
  rcases ha : a.addressMatch with _ | (l | l | l | l | i | x | r) <;>
    rcases hb : b.addressMatch with _ | (l' | l' | l' | l' | i' | x' | r') <;>
    rw [ha, hb] at hg hv <;> try (solve | simp at hg)
  · obtain rfl : l = l' := hv
    rfl
  · obtain rfl : l = l' := hv
    rfl
  · obtain rfl : l = l' := hv
    rfl
  · obtain rfl : l = l' := hv
    rfl
  · rw [ip_sort_key_inj hv]
  · rw [block_sort_key_inj hv]
  · rw [range_sort_key_inj hv]

def pathOf (r : CanonicalRule) : Option AppPath :=
  match r.appMatch with
  | some ⟨.path p, _, _⟩ => some p
  | _ => none

/-- No two different program paths of a list share one spelling, as on one platform. -/
def PathsBySpelling (rules : List CanonicalRule) : Prop :=
  ∀ a ∈ rules, ∀ b ∈ rules, ∀ p ∈ pathOf a, ∀ q ∈ pathOf b, p.text = q.text → p = q

theorem app_of_tie (hk : a.appKind = b.appKind) (ht : a.appText = b.appText)
    (hc : a.appChildren = b.appChildren) (ho : a.appOverride = b.appOverride)
    (hpath : ∀ p ∈ pathOf a, ∀ q ∈ pathOf b, p.text = q.text → p = q) :
    a.appMatch = b.appMatch := by
  unfold CanonicalRule.appKind at hk
  unfold CanonicalRule.appText at ht
  unfold CanonicalRule.appChildren at hc
  unfold CanonicalRule.appOverride at ho
  unfold pathOf at hpath
  rcases ha : a.appMatch with _ | ⟨x | x | x, ac, ao⟩ <;>
    rcases hb : b.appMatch with _ | ⟨y | y | y, bc, bo⟩ <;>
    rw [ha, hb] at hk ht hc ho <;> try (solve | simp at hk)
  · obtain rfl : x = y := ht
    obtain rfl : ac = bc := hc
    obtain rfl : ao = bo := ho
    rfl
  · obtain rfl : x = y := ht
    obtain rfl : ac = bc := hc
    obtain rfl : ao = bo := ho
    rfl
  · rw [ha, hb] at hpath
    obtain rfl : x = y := hpath x rfl y rfl ht
    obtain rfl : ac = bc := hc
    obtain rfl : ao = bo := ho
    rfl

theorem sort_rank_inj {x y : RuleAction} (h : x.sortRank = y.sortRank) : x = y := by
  cases x <;> cases y <;> first | rfl | exact absurd h (by decide)

def originText (r : CanonicalRule) : Option (Text × Text × Text) :=
  r.origin.map fun o => (o.reason.asSlug, o.anchor, o.added)

theorem origin_of_tie (hi : a.origin.isSome = b.origin.isSome) (hs : a.originSlug = b.originSlug)
    (ha : a.originAnchor = b.originAnchor) (hd : a.originAdded = b.originAdded) :
    originText a = originText b := by
  unfold CanonicalRule.originSlug at hs
  unfold CanonicalRule.originAnchor at ha
  unfold CanonicalRule.originAdded at hd
  unfold originText
  cases hoa : a.origin with
  | none =>
    cases hob : b.origin with
    | none => rfl
    | some q => simp [hoa, hob] at hi
  | some o =>
    cases hob : b.origin with
    | none => simp [hoa, hob] at hi
    | some q =>
      rw [hoa, hob] at hs ha hd
      exact congrArg some (Prod.ext hs (Prod.ext ha hd))

structure SameBytes (a b : CanonicalRule) : Prop where
  id : a.id = b.id
  enabled : a.enabled = b.enabled
  addressMatch : a.addressMatch = b.addressMatch
  appKind : a.appKind = b.appKind
  appText : a.appText = b.appText
  appChildren : a.appChildren = b.appChildren
  appOverride : a.appOverride = b.appOverride
  comment : a.comment = b.comment
  action : a.action = b.action
  origin : originText a = originText b

theorem compare_text {s t : Text} : compare s t = .eq ↔ s = t := Std.compare_eq_iff_eq

theorem canonical_order_eq (h : canonicalOrder a b = .eq) : SameBytes a b := by
  simp only [canonicalOrder, tieBreak, compareLex_eq_eq, compareOn, compare_eq_iff_eq,
    compare_text] at h
  obtain ⟨hg, hv, hk, ht, hc, ho, ha, he, hi, hm, hs, hslug, hanchor, hadded⟩ := h
  exact ⟨hi, he, address_of_sort hg hv, hk, ht, hc, ho, hm, sort_rank_inj ha,
    origin_of_tie hs hslug hanchor hadded⟩

end NetRuleRouter.CanonicalOrder
