import NetRuleRouter.Sorting
import NetRuleRouter.IpNetwork
import NetRuleRouter.Quotas
import NetRuleRouter.HostMatching
import NetRuleRouter.StrongestTable

/-!
# The name cache as enforcement reads it

A snapshot answers which addresses a host has, and which hosts lie under a
name. These pass a window that keeps one site from taking every place: names
of one site, however many, push at most one site's share of the others out.
When no window overflows, the answer is every cached host under the name.
-/

set_option autoImplicit false

namespace NetRuleRouter.FqdnCache
open TextOps Sorting IpNetwork HostMatching StrongestTable Quotas

def canonicalizeHostname (input : Text) : Text :=
  toAsciiLowercase ((trim input).rdropWhile (· == '.'))

def siteShareDivisor : ℕ := 16

/-- The label right below `suffix`, with it; the name itself when it is not under it. -/
def siteOf (host suffix : Text) : Text :=
  let host := toAsciiLowercase (host.rdropWhile (· == '.'))
  match (stripSuf suffix host).bind (stripSuf ['.']) with
  | none => host
  | some rest => lastLabel rest ++ '.' :: suffix

/-- Names taken, names that wait, and the site of every name taken. -/
structure Window where
  held : List Text
  out : List Text
  waiting : List Text

def offer (suffix : Text) (cap limit : ℕ) (w : Window) (host : Text) : Window :=
  let site := siteOf host suffix
  if w.held.count site < cap then { w with held := site :: w.held, out := w.out ++ [host] }
  else if w.waiting.length < limit then { w with waiting := w.waiting ++ [host] }
  else w

def fillWindow (suffix : Text) (cap limit : ℕ) : List Text → Window → Window
  | [], w => w
  | host :: rest, w =>
    if w.out.length = limit then w
    else fillWindow suffix cap limit rest (offer suffix cap limit w host)

def fairSuffixWindow (ordered : List Text) (suffix : Text) (limit : ℕ) : List Text :=
  if limit = 0 then []
  else
    let w := fillWindow (canonicalizeHostname suffix) (max (limit / siteShareDivisor) 1) limit
      ordered ⟨[], [], []⟩
    w.out ++ w.waiting.take (limit - w.out.length)

section
variable (suffix : Text) (cap limit : ℕ) (rest : List Text) (w : Window)

/-- The names taken are the first of every site, as many as fit. -/
theorem fill_out (h : w.out.length ≤ limit) :
    (fillWindow suffix cap limit rest w).out =
      (w.out ++ taken (siteOf · suffix) cap w.held rest).take limit := by
  induction rest generalizing w with
  | nil => rw [fillWindow, taken, List.append_nil, List.take_of_length_le h]
  | cons host rest ih =>
    rw [fillWindow]
    split_ifs with hfull
    · rw [List.take_append_of_le_length (by omega), List.take_of_length_le h]
    · by_cases hroom : w.held.count (siteOf host suffix) < cap
      · rw [offer, if_pos hroom, taken, if_pos hroom, ih _ (by simp; omega), List.append_assoc]
        rfl
      · rw [offer, if_neg hroom, taken, if_neg hroom]
        split_ifs
        · exact ih _ h
        · exact ih w h

theorem fill_length (h : w.out.length ≤ limit) :
    min limit ((fillWindow suffix cap limit rest w).out.length +
      (fillWindow suffix cap limit rest w).waiting.length) =
        min limit (w.out.length + w.waiting.length + rest.length) := by
  induction rest generalizing w with
  | nil => rfl
  | cons host rest ih =>
    rw [fillWindow, List.length_cons]
    split_ifs with hfull
    · omega
    · rw [offer]
      split_ifs
      · rw [ih _ (by simp; omega)]
        simp only [List.length_append, List.length_singleton]
        omega
      · rw [ih { w with waiting := w.waiting ++ [host] } h]
        simp only [List.length_append, List.length_singleton]
        omega
      · rw [ih w h]
        omega

theorem fill_subperm :
    ((fillWindow suffix cap limit rest w).out ++
      (fillWindow suffix cap limit rest w).waiting).Subperm (w.out ++ w.waiting ++ rest) := by
  induction rest generalizing w with
  | nil => rw [fillWindow, List.append_nil]
  | cons host rest ih =>
    rw [fillWindow]
    split_ifs
    · exact (List.sublist_append_left _ _).subperm
    · refine (ih _).trans ?_
      rw [List.append_cons (w.out ++ w.waiting)]
      refine (List.subperm_append_right rest).mpr ?_
      rw [offer]
      split_ifs
      · rw [List.append_assoc, List.append_assoc]
        exact (List.perm_append_comm.append_left w.out).subperm
      · rw [← List.append_assoc]
      · exact (List.sublist_append_left _ _).subperm

end

variable {host : Text}

section
variable (hosts : List Text) (suffix : Text) (limit : ℕ)

def siteShare (limit : ℕ) : ℕ := max (limit / siteShareDivisor) 1

def firstOfSites (hosts : List Text) (suffix : Text) (limit : ℕ) : List Text :=
  taken (siteOf · (canonicalizeHostname suffix)) (siteShare limit) [] hosts

theorem window_parts : ∃ waiting, fairSuffixWindow hosts suffix limit =
    (firstOfSites hosts suffix limit).take limit ++
      waiting.take (limit - ((firstOfSites hosts suffix limit).take limit).length) ∧
    min limit (((firstOfSites hosts suffix limit).take limit).length + waiting.length) =
      min limit hosts.length ∧
    ((firstOfSites hosts suffix limit).take limit ++ waiting).Subperm hosts := by
  unfold fairSuffixWindow
  split_ifs with hzero
  · subst hzero
    exact ⟨hosts, by simp, by simp, List.Subperm.refl hosts⟩
  · have hout := fill_out (canonicalizeHostname suffix) (siteShare limit) limit hosts ⟨[], [], []⟩
      (Nat.zero_le _)
    have hlength := fill_length (canonicalizeHostname suffix) (siteShare limit) limit hosts
      ⟨[], [], []⟩ (Nat.zero_le _)
    have hsub := fill_subperm (canonicalizeHostname suffix) (siteShare limit) limit hosts
      ⟨[], [], []⟩
    rw [List.nil_append, ← firstOfSites] at hout
    rw [hout] at hlength hsub
    refine ⟨_, ?_, by simpa using hlength, hsub⟩
    dsimp only
    rw [← siteShare, hout]

theorem window_length : (fairSuffixWindow hosts suffix limit).length = min limit hosts.length := by
  obtain ⟨waiting, heq, hlength, -⟩ := window_parts hosts suffix limit
  have hroom := List.length_take_le limit (firstOfSites hosts suffix limit)
  rw [heq, ← hlength, List.length_append, List.length_take (l := waiting)]
  omega

theorem window_subperm : (fairSuffixWindow hosts suffix limit).Subperm hosts := by
  obtain ⟨waiting, heq, -, hsub⟩ := window_parts hosts suffix limit
  rw [heq]
  exact ((List.take_sublist _ waiting).append_left _).subperm.trans hsub

variable {hosts limit}

theorem fair_suffix_window_all (h : hosts.length ≤ limit) :
    (fairSuffixWindow hosts suffix limit).Perm hosts := by
  refine (window_subperm hosts suffix limit).perm_of_length_le ?_
  rw [window_length, min_eq_right h]

theorem mem_window_of_first (h : host ∈ firstOfSites hosts suffix limit) :
    host ∈ fairSuffixWindow hosts suffix limit ↔
      host ∈ (firstOfSites hosts suffix limit).take limit := by
  obtain ⟨waiting, heq, -⟩ := window_parts hosts suffix limit
  rw [heq, List.mem_append]
  refine or_iff_left_of_imp fun hwait => ?_
  rcases le_total (firstOfSites hosts suffix limit).length limit with hall | hcut
  · rwa [List.take_of_length_le hall]
  · simp [List.length_take_of_le hcut] at hwait

end

/-- However many names of one site come in, they push no more than one site's share of the first
names of the other sites out of the window. -/
theorem one_site_cannot_crowd_out (suffix : Text) (limit : ℕ) {hosts : List Text}
    (hnodup : hosts.Nodup) :
    let site := fun host => siteOf host (canonicalizeHostname suffix)
    let window := fairSuffixWindow hosts suffix limit
    window.length = min limit hosts.length ∧ window.Nodup ∧ (∀ host ∈ window, host ∈ hosts) ∧
      ∀ s more, Inserted site s hosts more →
        (hosts.filter fun host => site host ≠ s ∧
          (hosts.takeWhile (· ≠ host)).countP (site · == site host) < siteShare limit ∧
            host ∈ window ∧ host ∉ fairSuffixWindow more suffix limit).length ≤ siteShare limit := by
  intro site window
  have hsub := window_subperm hosts suffix limit
  have hdistinct : window.Nodup := by
    obtain ⟨l, hperm, hl⟩ := hsub
    exact hperm.nodup_iff.mp (hl.nodup hnodup)
  refine ⟨window_length hosts suffix limit, hdistinct, hsub.subset, fun s more hmore => ?_⟩
  have hothers : (firstOfSites hosts suffix limit).filter (site · != s) =
      (firstOfSites more suffix limit).filter (site · != s) := taken_others hmore fun _ _ => rfl
  have hfew : (firstOfSites more suffix limit).countP (site · == s) ≤ siteShare limit :=
    taken_of_kind
  refine missing_le hothers (by simpa [bne] using hfew) (hnodup.filter _) (n := limit) ?_
  intro host hhost
  simp only [List.mem_filter, decide_eq_true_eq] at hhost
  obtain ⟨hin, hother, hearly, hwindow, hlost⟩ := hhost
  have hfirst : host ∈ firstOfSites hosts suffix limit :=
    taken_of_early hin (by simpa using hearly)
  refine ⟨by simpa using hother, (mem_window_of_first suffix hfirst).mp hwindow, fun hkept => ?_⟩
  exact hlost ((mem_window_of_first suffix (List.mem_of_mem_take hkept)).mpr hkept)

/-- Of the one place, the name there first loses it to a page's own site. -/
theorem one_name_pushed_out :
    let site := fun host => siteOf host "ru".toList
    let hosts := ["a.ru".toList]
    (hosts.filter fun host => site host ≠ "x.ru".toList ∧
      (hosts.takeWhile (· ≠ host)).countP (site · == site host) < siteShare 1 ∧
        host ∈ fairSuffixWindow hosts "ru".toList 1 ∧
        host ∉ fairSuffixWindow ["1.x.ru".toList, "a.ru".toList] "ru".toList 1).length ≤ 1 :=
  (one_site_cannot_crowd_out "ru".toList 1 (by decide)).2.2.2 "x.ru".toList _
    (.put (by decide) (.keep _ .nil))

def reversedLabels (host : Text) : Text := ['.'].intercalate (host.splitOn '.').reverse

theorem label_no_dot (s : Text) : ∀ l ∈ s.splitOn '.', '.' ∉ l := by
  induction s with
  | nil => simp
  | cons c s ih =>
    rw [List.splitOn_cons_eq_if_modifyHead]
    split
    · simpa using ih
    · rename_i hc
      cases hs : s.splitOn '.' with
      | nil => simp
      | cons l ls =>
        rw [hs] at ih
        simp only [List.mem_cons, forall_eq_or_imp] at ih
        simp only [List.modifyHead_cons, List.mem_cons, forall_eq_or_imp, not_or]
        exact ⟨⟨fun hdot => hc (by simp [← hdot]), ih.1⟩, ih.2⟩

theorem intercalate_append {ls ms : List Text} (hl : ls ≠ []) (hm : ms ≠ []) :
    ['.'].intercalate (ls ++ ms) = ['.'].intercalate ls ++ '.' :: ['.'].intercalate ms := by
  induction ls with
  | nil => exact (hl rfl).elim
  | cons l ls ih =>
    by_cases hls : ls = []
    · subst hls
      rw [List.singleton_append, List.intercalate_cons_of_ne_nil hm]
      simp
    · rw [List.cons_append, List.intercalate_cons_of_ne_nil (by simp [hls]),
        List.intercalate_cons_of_ne_nil hls, ih hls]
      simp

theorem reversed_labels_append (p q : Text) :
    reversedLabels (p ++ '.' :: q) = reversedLabels q ++ '.' :: reversedLabels p := by
  rw [reversedLabels, List.splitOn_append_cons_self, List.reverse_append,
    intercalate_append (by simp) (by simp)]
  rfl

theorem reversed_labels_involutive (s : Text) : reversedLabels (reversedLabels s) = s := by
  rw [reversedLabels, reversedLabels, List.splitOn_intercalate, List.reverse_reverse,
    List.intercalate_splitOn]
  · intro l hl
    exact label_no_dot s l (List.mem_reverse.mp hl)
  · simp

theorem reversed_labels_prefix (suffix host : Text) :
    startsWith (reversedLabels suffix ++ ['.']) (reversedLabels host) = true ↔
      ∃ p, host = p ++ '.' :: suffix := by
  rw [starts_with_iff]
  constructor
  · intro h
    obtain ⟨t, ht⟩ := h
    refine ⟨reversedLabels t, ?_⟩
    calc host = reversedLabels (reversedLabels host) := (reversed_labels_involutive host).symm
      _ = reversedLabels (reversedLabels suffix ++ '.' :: t) := by rw [ht]; simp
      _ = reversedLabels t ++ '.' :: suffix := by
        rw [reversed_labels_append, reversed_labels_involutive]
  · intro h
    obtain ⟨p, rfl⟩ := h
    exact ⟨reversedLabels p, by simp [reversed_labels_append]⟩

def suffixFanoutBackstop : ℕ := 4096

def perHostnameIpCap : ℕ := 64

structure FqdnCacheSnapshot where
  byHostname : Table Text (List IpAddr)
  hostnamesByRecency : List Text
  listed : ∀ e ∈ byHostname, e.2 ≠ [] → e.1 ∈ hostnamesByRecency

def noNames : FqdnCacheSnapshot := ⟨[], [], by simp⟩

namespace FqdnCacheSnapshot

def ipsForHostname (c : FqdnCacheSnapshot) (hostname : Text) : List IpAddr :=
  (valueAt c.byHostname hostname).getD []

/-- The hosts strictly under `suffix`, in recency order. -/
def under (c : FqdnCacheSnapshot) (suffix : Text) : List Text :=
  c.hostnamesByRecency.filter fun host =>
    startsWith (reversedLabels suffix ++ ['.']) (reversedLabels (toAsciiLowercase host))

def hostnamesUnderSuffix (c : FqdnCacheSnapshot) (suffix : Text) (limit : ℕ) : List Text :=
  let normalised := canonicalizeHostname suffix
  if limit = 0 ∨ suffix = [] ∨ normalised = [] then []
  else sortBy compare (fairSuffixWindow (c.under normalised) normalised limit)

def hostnamesForSuffixDomain (c : FqdnCacheSnapshot) (label : Text) (limit : ℕ) : List Text :=
  let hosts := c.hostnamesUnderSuffix label limit
  let apex := canonicalizeHostname label
  if limit = 0 then []
  else if apex = [] ∨ apex ∈ hosts ∨ c.ipsForHostname apex = [] then hosts
  else sortBy compare ((if limit ≤ hosts.length then hosts.dropLast else hosts) ++ [apex])

end FqdnCacheSnapshot

theorem listed_of_ip {c : FqdnCacheSnapshot} {h : Text} (hne : c.ipsForHostname h ≠ []) :
    h ∈ c.hostnamesByRecency := by
  unfold FqdnCacheSnapshot.ipsForHostname at hne
  cases hg : valueAt c.byHostname h with
  | none => simp [hg] at hne
  | some ips =>
    rw [hg] at hne
    exact c.listed _ (value_at_mem hg) hne

/-- A name in the spelling the cache looks names up by. -/
def CanonicalName (name : Text) : Prop := canonicalizeHostname name = name

section
variable {c : FqdnCacheSnapshot} {label h : Text}

theorem mem_under (hlow : toAsciiLowercase h = h) (hwf : hasEmptyLabel h = false) :
    h ∈ c.under label ↔ h ∈ c.hostnamesByRecency ∧ ∃ p, p ≠ [] ∧ h = p ++ '.' :: label := by
  rw [FqdnCacheSnapshot.under, List.mem_filter, hlow, reversed_labels_prefix]
  refine and_congr_right fun _ => exists_congr fun p => ?_
  constructor
  · intro heq
    refine ⟨?_, heq⟩
    intro hp
    subst hp
    rw [heq, has_empty_label_append] at hwf
    simp [hasEmptyLabel] at hwf
  · exact fun heq => heq.2

variable (hcanon : CanonicalName label) (hcap : (c.under label).length < suffixFanoutBackstop)
include hcanon hcap

theorem hostnames_under_suffix_all :
    (c.hostnamesUnderSuffix label suffixFanoutBackstop).length < suffixFanoutBackstop ∧
      ∀ x, x ∈ c.hostnamesUnderSuffix label suffixFanoutBackstop ↔
        label ≠ [] ∧ x ∈ c.under label := by
  unfold FqdnCacheSnapshot.hostnamesUnderSuffix
  rw [hcanon]
  dsimp only
  by_cases hl : label = []
  · simp [hl, suffixFanoutBackstop]
  · have hall := fair_suffix_window_all label hcap.le
    rw [if_neg (by simp [hl, suffixFanoutBackstop])]
    refine ⟨?_, fun x => by simp [hall.mem_iff, hl]⟩
    rw [(sort_by_perm compare _).length_eq, hall.length_eq]
    exact hcap

theorem mem_hostnames_under_suffix (hlow : toAsciiLowercase h = h)
    (hwf : hasEmptyLabel h = false) (hip : c.ipsForHostname h ≠ []) :
    h ∈ c.hostnamesUnderSuffix label suffixFanoutBackstop ↔ matchZone h label = true := by
  rw [(hostnames_under_suffix_all hcanon hcap).2, mem_under hlow hwf, match_zone_iff]
  simp [listed_of_ip hip]

theorem mem_hostnames_for_suffix_domain (hlow : toAsciiLowercase h = h)
    (hwf : hasEmptyLabel h = false) (hip : c.ipsForHostname h ≠ []) :
    h ∈ c.hostnamesForSuffixDomain label suffixFanoutBackstop ↔
      matchSuffixDomain h label = true := by
  have hunder := mem_hostnames_under_suffix hcanon hcap hlow hwf hip
  have hroom := (hostnames_under_suffix_all hcanon hcap).1
  have hsplit : matchSuffixDomain h label = true ↔
      label ≠ [] ∧ (h = label ∨ matchZone h label = true) := by
    rw [match_suffix_iff, match_zone_iff]
    tauto
  unfold FqdnCacheSnapshot.hostnamesForSuffixDomain
  rw [hcanon, hsplit]
  dsimp only
  rw [if_neg (by simp [suffixFanoutBackstop])]
  by_cases hfew : label = [] ∨ label ∈ c.hostnamesUnderSuffix label suffixFanoutBackstop ∨
      c.ipsForHostname label = []
  · rw [if_pos hfew, hunder]
    constructor
    · intro hz
      exact ⟨(match_zone_iff.mp hz).1, Or.inr hz⟩
    · intro hm
      obtain ⟨hne, rfl | hz⟩ := hm
      · rcases hfew with hnil | hmem | hnone
        · exact (hne hnil).elim
        · exact hunder.mp hmem
        · exact (hip hnone).elim
      · exact hz
  · rw [if_neg hfew, if_neg (by omega), mem_sort_by, List.mem_append, List.mem_singleton, hunder]
    simp only [not_or] at hfew
    tauto

end

def denied (denylist : List (BitVec 32)) : IpAddr → Bool
  | .v4 bits => denylist.contains bits
  | .v6 _ => false

def denylistFilteredCache (cache : FqdnCacheSnapshot) (denylist : List (BitVec 32)) :
    FqdnCacheSnapshot where
  byHostname := cache.byHostname.map fun e => (e.1, e.2.filter fun ip => !denied denylist ip)
  hostnamesByRecency := cache.hostnamesByRecency
  listed := by
    intro e he hne
    obtain ⟨e', he', rfl⟩ := List.mem_map.mp he
    refine cache.listed e' he' fun hnil => hne ?_
    simp [hnil]

theorem filtered_by_nothing (cache : FqdnCacheSnapshot) : denylistFilteredCache cache [] = cache := by
  have hkeep : (fun e : Text × List IpAddr => (e.1, e.2.filter fun ip => !denied [] ip)) = id := by
    funext e
    have hall : e.2.filter (fun ip => !denied [] ip) = e.2 :=
      List.filter_eq_self.mpr fun ip _ => by cases ip <;> rfl
    rw [hall]
    rfl
  obtain ⟨table, names, listed⟩ := cache
  simp only [denylistFilteredCache, FqdnCacheSnapshot.mk.injEq, and_true]
  rw [hkeep, List.map_id]

inductive FamilyScope where
  | v4Only
  | both
  deriving DecidableEq, Repr

def FamilyScope.admits (scope : FamilyScope) (ip : IpAddr) : Bool :=
  scope == .both || ip.isIpv4

def cappedForHost (c : FqdnCacheSnapshot) (host : Text) (families : FamilyScope) : List IpAddr :=
  let all := c.ipsForHostname host
  let v4 := (all.filter IpAddr.isIpv4).take perHostnameIpCap
  let v6 := (all.filter fun ip => !ip.isIpv4 && families.admits ip).take perHostnameIpCap
  sortBy (compareOn toBits) v4 ++ sortBy (compareOn toBits) v6

theorem capped_subset {c : FqdnCacheSnapshot} {families : FamilyScope} {ip : IpAddr}
    (h : ip ∈ cappedForHost c host families) : ip ∈ c.ipsForHostname host := by
  simp only [cappedForHost, List.mem_append, mem_sort_by] at h
  rcases h with h | h
  · exact (List.mem_filter.mp (List.mem_of_mem_take h)).1
  · exact (List.mem_filter.mp (List.mem_of_mem_take h)).1

theorem mem_capped_for_host {c : FqdnCacheSnapshot} (ip : IpAddr)
    (h4 : ((c.ipsForHostname host).filter IpAddr.isIpv4).length ≤ perHostnameIpCap)
    (h6 : ((c.ipsForHostname host).filter fun ip => !ip.isIpv4).length ≤ perHostnameIpCap) :
    ip ∈ cappedForHost c host .both ↔ ip ∈ c.ipsForHostname host := by
  refine ⟨capped_subset, fun h => ?_⟩
  have hboth : (fun ip : IpAddr => !ip.isIpv4 && FamilyScope.both.admits ip) =
      fun ip => !ip.isIpv4 := by
    funext ip
    simp [FamilyScope.admits]
  simp only [cappedForHost, List.mem_append, mem_sort_by, hboth, List.take_of_length_le h4,
    List.take_of_length_le h6, List.mem_filter]
  cases hv : ip.isIpv4 with
  | true => exact Or.inl ⟨h, rfl⟩
  | false => exact Or.inr ⟨h, rfl⟩

end NetRuleRouter.FqdnCache
