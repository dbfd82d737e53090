import NetRuleRouter.RuleMatching

/-!
# The census of claims on a name

The census scores how specifically a set claims a host by the bytes of the
name that covers it; the engine counts labels. The names that cover one host
are ordered the same way by both.
-/

set_option autoImplicit false

namespace NetRuleRouter.Census
open TextOps HostMatching Canonical RuleMatching

inductive MatchSpecificity where
  | zone (labelLen : ℕ)
  | suffixDomain (labelLen : ℕ) (withoutApex : Bool)
  | exactFqdn
  deriving DecidableEq, Repr

def MatchSpecificity.key : MatchSpecificity → ℕ ×ₗ ℕ ×ₗ ℕ
  | .zone labelLen => toLex (0, toLex (labelLen, 0))
  | .suffixDomain labelLen withoutApex => toLex (1, toLex (labelLen, withoutApex.toNat))
  | .exactFqdn => toLex (2, toLex (0, 0))

theorem key_injective : Function.Injective MatchSpecificity.key := by
  intro a b h
  cases a with
  | zone l => cases b <;> simp_all [MatchSpecificity.key]
  | suffixDomain l w =>
    cases b with
    | suffixDomain l' w' => cases w <;> cases w' <;> simp_all [MatchSpecificity.key]
    | zone l' | exactFqdn => simp [MatchSpecificity.key] at h
  | exactFqdn => cases b <;> simp_all [MatchSpecificity.key]

instance : LinearOrder MatchSpecificity := LinearOrder.lift' MatchSpecificity.key key_injective

def claimInSet (hostname : Text) (rule : CanonicalRule) (set : CanonicalRuleSet)
    (book : CanonicalRuleBook) : Option MatchSpecificity :=
  match rule.addressMatch with
  | some (.exactFqdn name) => if name = hostname then some .exactFqdn else none
  | some (.suffixDomain label) =>
    if matchSuffixDomain hostname label then some (.suffixDomain (byteLen label) false) else none
  | some (.anyZoneDomain base) =>
    ((matchAnyZoneDomain hostname base).filter fun named => !book.namesSuffixOutright named).map
      fun named => .suffixDomain (byteLen named) false
  | some (.zone label) =>
    if matchZone hostname label then
      some (if zoneRanksAsSuffix label then
          .suffixDomain (byteLen label) (!set.holdsSuffix label rule.appMatch)
        else .zone (byteLen label))
    else none
  | _ => none

def matchSpecificity (hostname : Text) (set : CanonicalRuleSet) (book : CanonicalRuleBook) :
    Option MatchSpecificity :=
  ((set.rules.filter CanonicalRule.enabled).filterMap fun rule =>
    claimInSet hostname rule set book).max?

theorem label_count_below {l : Text} (p : Text) (hl : l ≠ []) :
    labelCount l < labelCount (p ++ '.' :: l) := by
  have hp : 0 < (p.splitOn '.').length := List.length_pos_of_ne_nil (List.splitOn_ne_nil _ _)
  rw [labelCount, labelCount, if_neg hl, if_neg (by simp), List.splitOn_append_cons_self,
    List.length_append]
  omega

theorem byte_len_below (p l : Text) : byteLen l < byteLen (p ++ '.' :: l) := by
  have hdot : Char.utf8Size '.' = 1 := by decide
  simp only [byteLen, List.map_append, List.map_cons, List.sum_append, List.sum_cons, hdot]
  omega

theorem covering_names {h l l' : Text} (hl : matchSuffixDomain h l = true)
    (hl' : matchSuffixDomain h l' = true) :
    l = l' ∨ (∃ p, l = p ++ '.' :: l') ∨ ∃ p, l' = p ++ '.' :: l := by
  have hsuffix {l : Text} (hl : matchSuffixDomain h l = true) : '.' :: l <:+ '.' :: h := by
    obtain ⟨-, rfl | ⟨p, -, rfl⟩⟩ := match_suffix_iff.mp hl
    · exact List.suffix_rfl
    · exact ⟨'.' :: p, rfl⟩
  have hbelow {l l' : Text} (h : '.' :: l <:+ '.' :: l') : l = l' ∨ ∃ p, l' = p ++ '.' :: l := by
    rcases List.suffix_cons_iff.mp h with heq | ⟨p, hp⟩
    · exact Or.inl (List.cons.inj heq).2
    · exact Or.inr ⟨p, hp.symm⟩
  rcases List.suffix_or_suffix_of_suffix (hsuffix hl) (hsuffix hl') with hl | hl
  · exact (hbelow hl).imp_right Or.inr
  · exact (hbelow hl).imp Eq.symm Or.inl

theorem lengths_agree {h l l' : Text} (hl : matchSuffixDomain h l = true)
    (hl' : matchSuffixDomain h l' = true) :
    (byteLen l < byteLen l' ↔ labelCount l < labelCount l') ∧
      (byteLen l = byteLen l' ↔ labelCount l = labelCount l') := by
  have hne := (match_suffix_iff.mp hl).1
  have hne' := (match_suffix_iff.mp hl').1
  obtain rfl | ⟨p, rfl⟩ | ⟨p, rfl⟩ := covering_names hl hl'
  · simp
  · have hb := byte_len_below p l'
    have hc := label_count_below p hne'
    omega
  · have hb := byte_len_below p l
    have hc := label_count_below p hne
    omega

theorem single_zone_unique {h z z' : Text} (hz : matchZone h z = true) (hz' : matchZone h z' = true)
    (hd : zoneRanksAsSuffix z = false) (hd' : zoneRanksAsSuffix z' = false) : z = z' := by
  obtain rfl | ⟨p, rfl⟩ | ⟨p, rfl⟩ := covering_names (match_zone_suffix hz) (match_zone_suffix hz')
  · rfl
  · simp [zoneRanksAsSuffix] at hd
  · simp [zoneRanksAsSuffix] at hd'

/-- The census score `m` of what competes in `tier` as `p`. -/
inductive Reads (h : Text) : MatchClass → MatchClass × ℕ → MatchSpecificity → Prop
  | exactFqdn : Reads h .exactFqdn (.exactFqdn, labelCount h) .exactFqdn
  | suffixDomain (label : Text) (hm : matchSuffixDomain h label = true) :
      Reads h .suffixDomain (.suffixDomain, labelCount label) (.suffixDomain (byteLen label) false)
  | siteZone (label : Text) (hm : matchSuffixDomain h label = true) :
      Reads h .suffixDomain (.zone, labelCount label) (.suffixDomain (byteLen label) true)
  | zone (label : Text) (hm : matchZone h label = true) (hd : zoneRanksAsSuffix label = false) :
      Reads h .zone (.zone, labelCount label) (.zone (byteLen label))

def tierWeight : MatchClass → ℕ
  | .exactFqdn => 2
  | .suffixDomain => 1
  | _ => 0

/-- The engine's order of name claims, up to action, route and id. -/
def place (tier : MatchClass) (p : MatchClass × ℕ) : ℕ ×ₗ ℕ ×ₗ ℕ :=
  toLex (tierWeight tier, toLex (p.2, 1 - apexRank p.1))

section
variable {h : Text} {t t' : MatchClass} {p p' : MatchClass × ℕ} {m m' : MatchSpecificity}

theorem place_lt_of_lt (hr : Reads h t p m) (hr' : Reads h t' p' m') (hlt : m < m') :
    place t p < place t' p' := by
  have hkey : m.key < m'.key := hlt
  cases hr with
  | exactFqdn =>
    cases hr' <;> simp [MatchSpecificity.key, Prod.Lex.toLex_lt_toLex] at hkey
  | suffixDomain label hm | siteZone label hm =>
    cases hr' with
    | exactFqdn => simp [place, tierWeight, Prod.Lex.toLex_lt_toLex]
    | suffixDomain label' hm' | siteZone label' hm' =>
      have hlen := lengths_agree hm hm'
      simp_all [MatchSpecificity.key, place, tierWeight, apexRank, Prod.Lex.toLex_lt_toLex]
    | zone label' hm' hd' => simp [MatchSpecificity.key, Prod.Lex.toLex_lt_toLex] at hkey
  | zone label hm hd =>
    cases hr' with
    | exactFqdn | suffixDomain label' hm' | siteZone label' hm' =>
      simp [place, tierWeight, Prod.Lex.toLex_lt_toLex]
    | zone label' hm' hd' =>
      obtain rfl := single_zone_unique hm hm' hd hd'
      exact absurd hkey (lt_irrefl _)

theorem same_of_eq (hr : Reads h t p m) (hr' : Reads h t' p' m) :
    t = t' ∧ p.2 = p'.2 ∧ apexRank p.1 = apexRank p'.1 := by
  generalize hm : m = m' at hr'
  cases hr with
  | exactFqdn => cases hr' <;> simp_all
  | suffixDomain label hcov | siteZone label hcov =>
    cases hr' with
    | suffixDomain label' hcov' | siteZone label' hcov' =>
      have hlen := lengths_agree hcov hcov'
      simp_all
    | _ => simp at hm
  | zone label hcov hd =>
    cases hr' with
    | zone label' hcov' hd' =>
      obtain rfl := single_zone_unique hcov hcov' hd hd'
      exact ⟨rfl, rfl, rfl⟩
    | _ => simp at hm

theorem le_iff_place (hr : Reads h t p m) (hr' : Reads h t' p' m') :
    m ≤ m' ↔ place t p ≤ place t' p' := by
  have heq (hm : m = m') : place t p = place t' p' := by
    subst hm
    obtain ⟨rfl, hc, ha⟩ := same_of_eq hr hr'
    rw [place, place, hc, ha]
  rcases lt_trichotomy m m' with hlt | hm | hlt
  · exact iff_of_true hlt.le (place_lt_of_lt hr hr' hlt).le
  · exact iff_of_true hm.le (heq hm).le
  · exact iff_of_false hlt.not_ge (place_lt_of_lt hr' hr hlt).not_ge

end

end NetRuleRouter.Census
