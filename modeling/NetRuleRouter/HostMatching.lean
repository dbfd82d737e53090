import NetRuleRouter.TextOps

/-!
# Host names against zones, suffixes and sites

The name comparisons every tier of the engine and the address arbiter share.
A suffix rule covers its apex and every name below it, a zone rule the names
below it only, and a rule for a site in any zone stands, at a host, for the
suffix rule that spells the zone of that host.
-/

set_option autoImplicit false

namespace NetRuleRouter.HostMatching
open TextOps

/-- `hostname` ends with a dot and `zoneName`, and something precedes them. -/
def matchZone (hostname zoneName : Text) : Bool :=
  zoneName ≠ [] && hostname ≠ [] && zoneName.length + 1 < hostname.length &&
    hostname.drop (hostname.length - zoneName.length - 1) == '.' :: zoneName

def zoneRanksAsSuffix (zoneName : Text) : Bool := zoneName.contains '.'

def matchSuffixDomain (hostname label : Text) : Bool :=
  label ≠ [] && hostname ≠ [] && (hostname == label || matchZone hostname label)

def countrySecondLevels : List Text :=
  ["ac", "co", "com", "edu", "go", "gob", "gov", "ltd", "mil", "ne", "net", "nom", "or", "org",
    "plc", "sch"].map String.toList

def otherTwoLabelZones : List Text := ["msk.ru", "spb.ru"].map String.toList

def lastLabel (name : Text) : Text := ((rsplitOnce '.' name).map Prod.snd).getD name

/-- The zone a rule for a site in any zone reads at `hostname`. -/
def siteZone (hostname : Text) : Option Text :=
  match rsplitOnce '.' hostname with
  | none => none
  | some (rest, tld) =>
    if tld = [] then none
    else
      let sld := lastLabel rest
      let twoLabels := sld ++ '.' :: tld
      let countryPattern := byteLen tld == 2 && tld.all Char.isAlpha &&
        countrySecondLevels.any (eqIgnoreAsciiCase · sld)
      let listed := otherTwoLabelZones.any (eqIgnoreAsciiCase · twoLabels)
      if !(countryPattern || listed) then some tld
      else if twoLabels.length < hostname.length then some twoLabels
      else none

/-- The name with its zone that a rule `base.*` stands for at `hostname`. -/
def matchAnyZoneDomain (hostname base : Text) : Option Text :=
  if base = [] then none
  else (siteZone hostname).bind fun zone =>
    if hostname.length < zone.length + 1 then none
    else
      let siteEnd := hostname.length - (zone.length + 1)
      if matchSuffixDomain (hostname.take siteEnd) base then
        some (hostname.drop (siteEnd - base.length))
      else none

def labelCount (label : Text) : ℕ := if label = [] then 0 else (label.splitOn '.').length

theorem match_zone_iff {h z : Text} :
    matchZone h z = true ↔ z ≠ [] ∧ ∃ p, p ≠ [] ∧ h = p ++ '.' :: z := by
  simp only [matchZone, Bool.and_eq_true, decide_eq_true_eq, beq_iff_eq]
  constructor
  · rintro ⟨⟨⟨hz, -⟩, hlen⟩, hd⟩
    refine ⟨hz, h.take (h.length - z.length - 1), ?_, ?_⟩
    · intro hn
      have := congrArg List.length hn
      simp only [List.length_take, List.length_nil] at this
      omega
    · rw [← hd, List.take_append_drop]
  · rintro ⟨hz, p, hp, rfl⟩
    have hpos := List.length_pos_of_ne_nil hp
    refine ⟨⟨⟨hz, by simp⟩, by simp; omega⟩, ?_⟩
    rw [List.drop_left']
    simp
    omega

theorem match_suffix_iff {h l : Text} :
    matchSuffixDomain h l = true ↔ l ≠ [] ∧ (h = l ∨ ∃ p, p ≠ [] ∧ h = p ++ '.' :: l) := by
  simp only [matchSuffixDomain, Bool.and_eq_true, Bool.or_eq_true, decide_eq_true_eq, beq_iff_eq,
    match_zone_iff]
  constructor
  · rintro ⟨⟨hl, -⟩, h | ⟨-, h⟩⟩
    · exact ⟨hl, Or.inl h⟩
    · exact ⟨hl, Or.inr h⟩
  · rintro ⟨hl, rfl | ⟨p, hp, rfl⟩⟩
    · exact ⟨⟨hl, hl⟩, Or.inl rfl⟩
    · exact ⟨⟨hl, by simp⟩, Or.inr ⟨hl, p, hp, rfl⟩⟩

theorem match_zone_suffix {h z : Text} (hz : matchZone h z = true) :
    matchSuffixDomain h z = true := by
  obtain ⟨hne, p, hp, he⟩ := match_zone_iff.mp hz
  exact match_suffix_iff.mpr ⟨hne, Or.inr ⟨p, hp, he⟩⟩

theorem last_label_append (p rest : Text) :
    lastLabel (p ++ '.' :: rest) = lastLabel rest := by
  unfold lastLabel
  cases hr : rsplitOnce '.' rest with
  | none =>
    have hdot := rsplit_once_none.mp hr
    rw [rsplit_once_some.mpr ⟨rfl, hdot⟩]
    rfl
  | some ab =>
    obtain ⟨hrest, hdot⟩ := rsplit_once_some.mp hr
    have hsplit : p ++ '.' :: rest = (p ++ '.' :: ab.1) ++ '.' :: ab.2 := by
      simp [hrest]
    rw [rsplit_once_some.mpr ⟨hsplit, hdot⟩]
    rfl

theorem last_label_split (rest : Text) :
    rest = lastLabel rest ∨ ∃ q, rest = q ++ '.' :: lastLabel rest := by
  unfold lastLabel
  cases hr : rsplitOnce '.' rest with
  | none => exact Or.inl rfl
  | some ab => exact Or.inr ⟨ab.1, (rsplit_once_some.mp hr).1⟩

theorem site_zone_some {h zone : Text} (hz : siteZone h = some zone) :
    ∃ site, h = site ++ '.' :: zone := by
  unfold siteZone at hz
  split at hz
  · simp at hz
  next rest tld hr =>
    have hsplit := (rsplit_once_some.mp hr).1
    dsimp only at hz
    split at hz
    · simp at hz
    · split at hz
      · cases hz
        exact ⟨rest, hsplit⟩
      · split at hz
        next hlen =>
          cases hz
          rcases last_label_split rest with heq | ⟨q, hq⟩
          · rw [← heq, ← hsplit] at hlen
            omega
          · refine ⟨q, ?_⟩
            calc h = rest ++ '.' :: tld := hsplit
              _ = (q ++ '.' :: lastLabel rest) ++ '.' :: tld := by rw [← hq]
              _ = q ++ '.' :: (lastLabel rest ++ '.' :: tld) := by simp
        · simp at hz

theorem site_zone_below {n zone : Text} (p : Text) (hz : siteZone n = some zone) :
    siteZone (p ++ '.' :: n) = some zone := by
  unfold siteZone at hz
  split at hz
  · simp at hz
  next rest tld hr =>
    obtain ⟨hsplit, hdot⟩ := rsplit_once_some.mp hr
    have hbelow : rsplitOnce '.' (p ++ '.' :: n) = some (p ++ '.' :: rest, tld) :=
      rsplit_once_some.mpr ⟨by simp [hsplit], hdot⟩
    unfold siteZone
    rw [hbelow]
    dsimp only at hz ⊢
    rw [last_label_append]
    split at hz
    · simp at hz
    next htld =>
      rw [if_neg htld]
      split at hz
      next hplain =>
        rw [if_pos hplain]
        exact hz
      next hpattern =>
        rw [if_neg hpattern]
        split at hz
        next hlen =>
          rw [if_pos (by simp only [List.length_append, List.length_cons] at hlen ⊢; omega)]
          exact hz
        · simp at hz

theorem match_any_zone_iff {h base n : Text} :
    matchAnyZoneDomain h base = some n ↔ base ≠ [] ∧ ∃ zone, siteZone h = some zone ∧
      n = base ++ '.' :: zone ∧ matchSuffixDomain h n = true := by
  unfold matchAnyZoneDomain
  by_cases hb : base = []
  · simp [hb]
  rw [if_neg hb]
  cases hz : siteZone h with
  | none => simp
  | some zone =>
    obtain ⟨site, rfl⟩ := site_zone_some hz
    have hlen : ¬ (site ++ '.' :: zone).length < zone.length + 1 := by
      simp only [List.length_append, List.length_cons]
      omega
    have hend : (site ++ '.' :: zone).length - (zone.length + 1) = site.length := by simp
    have hdrop (p : Text) : (p ++ base ++ '.' :: zone).drop ((p ++ base).length - base.length) =
        base ++ '.' :: zone := by
      rw [List.append_assoc, List.drop_left']
      simp
    simp only [Option.bind_some, if_neg hlen, hend, List.take_left, Option.some.injEq,
      exists_eq_left', ne_eq, hb, not_false_eq_true, true_and]
    rw [Option.ite_none_right_eq_some, Option.some.injEq, match_suffix_iff, match_suffix_iff]
    constructor
    · intro hm
      obtain ⟨⟨-, hsite⟩, hn⟩ := hm
      rcases hsite with rfl | ⟨p, hp, rfl⟩
      · have hn' := (hdrop []).symm.trans (by simpa using hn)
        exact ⟨hn'.symm, by simp [← hn'], Or.inl hn'⟩
      · have hn' := (hdrop (p ++ ['.'])).symm.trans (by simpa using hn)
        exact ⟨hn'.symm, by simp [← hn'], Or.inr ⟨p, hp, by simp [← hn']⟩⟩
    · intro hm
      obtain ⟨rfl, -, hsite⟩ := hm
      rcases hsite with heq | ⟨p, hp, heq⟩
      · have hs : site = base := List.append_cancel_right heq
        subst hs
        exact ⟨⟨hb, Or.inl rfl⟩, by simp⟩
      · have hs : site = p ++ '.' :: base :=
          (List.append_left_inj ('.' :: zone)).mp (by simpa using heq)
        subst hs
        exact ⟨⟨hb, Or.inr ⟨p, hp, rfl⟩⟩, by simpa using hdrop (p ++ ['.'])⟩

theorem match_any_zone_of_suffix {h base zone : Text} (hb : base ≠ [])
    (hz : siteZone (base ++ '.' :: zone) = some zone)
    (hm : matchSuffixDomain h (base ++ '.' :: zone) = true) :
    matchAnyZoneDomain h base = some (base ++ '.' :: zone) := by
  refine match_any_zone_iff.mpr ⟨hb, zone, ?_, rfl, hm⟩
  obtain ⟨-, rfl | ⟨p, -, rfl⟩⟩ := match_suffix_iff.mp hm
  · exact hz
  · exact site_zone_below p hz

def hasEmptyLabel (name : Text) : Bool := (name.splitOn '.').any List.isEmpty

theorem has_empty_label_append (p q : Text) :
    hasEmptyLabel (p ++ '.' :: q) = (hasEmptyLabel p || hasEmptyLabel q) := by
  rw [hasEmptyLabel, List.splitOn_append_cons_self, List.any_append]
  rfl

theorem suffix_no_empty_label {h l : Text} (hh : hasEmptyLabel h = false)
    (hm : matchSuffixDomain h l = true) : hasEmptyLabel l = false := by
  obtain ⟨-, rfl | ⟨p, -, rfl⟩⟩ := match_suffix_iff.mp hm
  · exact hh
  · rw [has_empty_label_append, Bool.or_eq_false_iff] at hh
    exact hh.2

theorem no_suffix_with_leading_dot {h zone : Text} (hh : hasEmptyLabel h = false) :
    matchSuffixDomain h ('.' :: zone) = false := by
  apply Bool.eq_false_iff.mpr
  intro hm
  have hdot := suffix_no_empty_label hh hm
  rw [show '.' :: zone = [] ++ '.' :: zone from rfl, has_empty_label_append] at hdot
  simp [hasEmptyLabel] at hdot

end NetRuleRouter.HostMatching
