import NetRuleRouter.BindingRuns

/-!
# A fake address in use keeps its hostname

A binding used at some time is recycled only by an allocation that reads the
clock at least the minimum idle time later. What is recycled is the binding
whose last use is the earliest in the history of uses, as long as the use
counter has not reached its last value.
-/

set_option autoImplicit false

namespace NetRuleRouter.BindingRecency
open TextOps IpNetwork Lookups FakeIpAllocator BindingInvariant BindingRuns

def UsesAt (s : Allocator) (h : Text) (t : ℕ) : Call → Prop
  | .allocate domain checked now =>
    normalizeHostname domain = h ∧ now = t ∧ ∃ b, (allocate s domain checked now).2.2 = .ok b
  | .domainForIp addr now => now = t ∧ (domainForIp s addr now).2 = some h
  | .touchAddress addr now =>
    now = t ∧ (touchAddress s addr now).2 = true ∧
      (s.config.indexOf addr).bind (fun i => (s.byIndex.lookup i).map Slot.domain) = some h
  | _ => False

def Keeps (s : Allocator) (index : ℕ) (h : Text) (t : ℕ) : Prop :=
  ∃ slot, s.byIndex.lookup index = some slot ∧ slot.domain = h ∧ t ≤ slot.touched

variable {s : Allocator} {index t : ℕ} {h : Text} {now : ℕ}

theorem keeps_touch (hk : Keeps s index h t) (i : ℕ) (hnow : t ≤ now) :
    Keeps (touch s i now) index h t := by
  obtain ⟨slot, hs, hd, ht⟩ := hk
  cases hi : s.byIndex.lookup i with
  | none =>
    rw [touch_absent now hi]
    exact ⟨slot, hs, hd, ht⟩
  | some slot' =>
    rw [touch_bound now hi]
    by_cases hii : index = i
    · subst hii
      cases Option.some.inj (hi.symm.trans hs)
      exact ⟨_, Finmap.lookup_insert s.byIndex, hd, hnow⟩
    · exact ⟨slot, by simpa [hii] using hs, hd, ht⟩

variable {i : ℕ}

theorem keeps_seat (hk : Keeps s index h t) (hi : s.byIndex.lookup i = none) (key : Text)
    (now : ℕ) : Keeps (seat s key i now) index h t := by
  obtain ⟨slot, hs, hd, ht⟩ := hk
  have hii : index ≠ i := by
    rintro rfl
    rw [hi] at hs
    cases hs
  exact ⟨slot, by simpa [seat, insertSlot, hii] using hs, hd, ht⟩

variable {checked : ℕ} {s' : Allocator} {changes : List BindingChange} {c : Call} {used : List ℕ}
variable {taken : Allocator}

theorem keeps_takes (hk : Keeps s index h t) (ht : Takes s checked taken i)
    (hafter : t ≤ checked) (hsoon : checked < t + s.minRecycleIdle) : Keeps taken index h t := by
  obtain ⟨slot, hs, hd, hle⟩ := hk
  cases ht with
  | reused rest i hf | fresh hf hlast => exact ⟨slot, hs, hd, hle⟩
  | recycled slot' i hi hidle hleast =>
    have hii : index ≠ i := by
      rintro rfl
      cases Option.some.inj (hi.symm.trans hs)
      omega
    exact ⟨slot, by simpa [unseat, hii] using hs, hd, hle⟩

theorem keeps_restore (hk : Keeps s index h t) (rows : List (Text × ℕ × ℕ)) :
    Keeps (restore s rows) index h t := by
  have hrows : Keeps (restoreRows s rows) index h t :=
    restore_rows_induction (P := fun s _ => Keeps s index h t) []
      (fun _ _ key i now hk _ _ hi _ => keeps_seat hk hi key now) hk rows
  unfold restore refill
  split
  · exact hrows
  · exact hrows

theorem keeps_moves (hs : Sound s) (hm : Moves s c s' changes used) (hk : Keeps s index h t)
    (hafter : ∀ r ∈ readings c, t ≤ r) (hsoon : ∀ r ∈ readings c, r < t + s.minRecycleIdle)
    (hclear : c ≠ .clear) (hrelease : asksRelease c ≠ some h) : Keeps s' index h t := by
  cases hm with
  | stays c => exact hk
  | touched c i now hnow => exact keeps_touch hk i (hafter now hnow)
  | seated domain checked now taken i hnew ht =>
    have hc : checked ∈ readings (.allocate domain checked now) := by simp [readings]
    exact keeps_seat (keeps_takes hk ht (hafter checked hc) (hsoon checked hc))
      (takes_dealt hs ht).2.2.1 _ now
  | gaveBack c slot' i hi hask =>
    obtain ⟨slot, hslot, hd, hle⟩ := hk
    have hii : index ≠ i := by
      rintro rfl
      cases Option.some.inj (hi.symm.trans hslot)
      exact hrelease (hask.trans (congrArg some hd))
    exact ⟨slot, by simpa [giveBack, unseat, hii] using hslot, hd, hle⟩
  | restored rows => exact keeps_restore hk rows
  | cleared => exact absurd rfl hclear

theorem keeps_run (hs : Sound s) (hk : Keeps s index h t) {calls : List Call}
    (hafter : ∀ r ∈ calls.flatMap readings, t ≤ r)
    (hsoon : ∀ r ∈ calls.flatMap readings, r < t + s.minRecycleIdle)
    (hquiet : ∀ c ∈ calls, c ≠ .clear ∧ asksRelease c ≠ some h) :
    Keeps (run s calls) index h t := by
  induction calls generalizing s with
  | nil => exact hk
  | cons c calls ih =>
    have hidle : (step s c).1.minRecycleIdle = s.minRecycleIdle :=
      congrArg Prod.snd (settings_step hs c)
    have hone : Keeps (step s c).1 index h t :=
      keeps_moves hs (step_moves hs c) hk (fun r hr => hafter r (by simp [hr])) (fun r hr => hsoon r (by simp [hr]))
        (hquiet c (by simp)).1 (hquiet c (by simp)).2
    refine ih (sound_step hs c) hone (fun r hr => hafter r ?_) (fun r hr => ?_)
      fun c' hc' => hquiet c' (by simp [hc'])
    · rw [List.flatMap_cons]
      exact List.mem_append_right _ hr
    · rw [hidle]
      refine hsoon r ?_
      rw [List.flatMap_cons]
      exact List.mem_append_right _ hr

theorem touch_keeps {slot : Slot} (hi : s.byIndex.lookup i = some slot) (now : ℕ) :
    Keeps (touch s i now) i slot.domain now := by
  rw [touch_bound now hi]
  exact ⟨_, Finmap.lookup_insert s.byIndex, rfl, le_rfl⟩

theorem uses_keeps (hs : Sound s) (hu : UsesAt s h t c) :
    ∃ index, Keeps (step s c).1 index h t := by
  cases c with
  | allocate domain checked now =>
    obtain ⟨rfl, rfl, b, hb⟩ := hu
    rcases allocate_cases hs domain checked now with
      ⟨e, he⟩ | ⟨i, hi, he⟩ | ⟨taken, i, -, -, he⟩
    · rw [he] at hb
      cases hb
    · obtain ⟨slot, hslot, hd⟩ := (hs.linked.paired _ i).mp hi
      refine ⟨i, ?_⟩
      rw [← hd]
      simpa [step, he] using touch_keeps hslot now
    · refine ⟨i, ⟨normalizeHostname domain, nextTick taken, now⟩, ?_, rfl, le_rfl⟩
      simp [step, he, seat, insertSlot]
  | domainForIp addr now =>
    obtain ⟨rfl, hd⟩ := hu
    unfold domainForIp at hd
    cases hi : s.config.indexOf addr with
    | none => simp [hi] at hd
    | some i =>
      simp only [hi] at hd
      cases hslot : s.byIndex.lookup i with
      | none =>
        rw [touch_absent now hslot] at hd
        simp [hslot] at hd
      | some slot =>
        rw [touch_bound now hslot] at hd
        simp only [Finmap.lookup_insert, Option.map_some, Option.some.injEq] at hd
        refine ⟨i, ?_⟩
        rw [← hd]
        simpa [step, domainForIp, hi] using touch_keeps hslot now
  | touchAddress addr now =>
    obtain ⟨rfl, ht, hd⟩ := hu
    obtain ⟨i, hi, hslot'⟩ := Option.bind_eq_some_iff.mp hd
    obtain ⟨slot, hslot, rfl⟩ := Option.map_eq_some_iff.mp hslot'
    have hm : i ∈ s.byIndex := Finmap.mem_iff.mpr ⟨slot, hslot⟩
    refine ⟨i, ?_⟩
    simpa [step, touchAddress, hi, hm] using touch_keeps hslot now
  | release domain | releaseIfUntouched domain order | restore rows | clear => exact hu.elim

theorem keeps_answers (hs : Sound s) (hk : Keeps s index h t) {a : IpAddr}
    (ha : a ∈ addressesAt s.config index) (hc : s.config.contains a = true) (now : ℕ) :
    (domainForIp s a now).2 = some h := by
  obtain ⟨slot, hslot, hd, -⟩ := hk
  have hheld : s.byDomain.lookup h = some index := (hs.linked.paired h index).mpr ⟨slot, hslot, hd⟩
  have hi := index_of_address s.config (bound_index_lt hs hheld).2.2 ha hc
  simp [domainForIp, hi, touch_bound now hslot, hd]

/-- The place of the last use of `i` in a history, counted from one, and zero for none. -/
def lastUse (history : List ℕ) (i : ℕ) : ℕ := history.length - history.reverse.idxOf i

theorem last_use_append (history : List ℕ) (i j : ℕ) :
    lastUse (history ++ [j]) i = if i = j then history.length + 1 else lastUse history i := by
  unfold lastUse
  rw [List.reverse_append, List.reverse_singleton, List.singleton_append, List.idxOf_cons,
    List.length_append]
  by_cases h : i = j
  · subst h
    simp
  · have hne : (j == i) = false := by simpa using Ne.symm h
    simp [h, hne]

theorem last_use_le (history : List ℕ) (i : ℕ) : lastUse history i ≤ history.length :=
  Nat.sub_le _ _

theorem last_use_inj {history : List ℕ} {j : ℕ} (hi : 0 < lastUse history i)
    (h : lastUse history i = lastUse history j) : i = j := by
  induction history using List.reverseRecOn with
  | nil => simp [lastUse] at hi
  | append_singleton history k ih =>
    have hle := last_use_le history
    rw [last_use_append] at hi
    rw [last_use_append, last_use_append] at h
    by_cases hik : i = k <;> by_cases hjk : j = k
    · rw [hik, hjk]
    · rw [if_pos hik, if_neg hjk] at h
      have := hle j
      omega
    · rw [if_neg hik, if_pos hjk] at h
      have := hle i
      omega
    · rw [if_neg hik] at hi h
      rw [if_neg hjk] at h
      exact ih hi h

def history (s : Allocator) : List Call → List ℕ
  | [] => []
  | c :: calls => uses s c ++ history (step s c).1 calls

structure Counted (s : Allocator) (past : List ℕ) : Prop where
  tick : s.tick = min past.length u64Max
  last : past.length ≤ u64Max → ∀ i slot, s.byIndex.lookup i = some slot →
    0 < slot.lastUsed ∧ slot.lastUsed = lastUse past i

variable {past : List ℕ}

theorem Counted.restrict (h : Counted s past) (ht : s'.tick = s.tick)
    (hsub : ∀ i slot, s'.byIndex.lookup i = some slot → s.byIndex.lookup i = some slot) :
    Counted s' past where
  tick := ht.trans h.tick
  last := fun hlen i slot hi => h.last hlen i slot (hsub i slot hi)

theorem next_tick_counted (h : Counted s past) (i : ℕ) :
    nextTick s = min (past ++ [i]).length u64Max := by
  unfold nextTick
  rw [h.tick, List.length_append, List.length_singleton]
  omega

theorem counted_touch (h : Counted s past) (i now : ℕ) : Counted (touch s i now) (past ++ [i]) := by
  have htick := next_tick_counted h i
  have hlen : (past ++ [i]).length = past.length + 1 := by simp
  cases hi : s.byIndex.lookup i with
  | none =>
    rw [touch_absent now hi]
    refine ⟨htick, fun hle j slot hj => ?_⟩
    have hne : j ≠ i := by
      rintro rfl
      rw [show s.byIndex.lookup j = some slot from hj] at hi
      cases hi
    rw [last_use_append, if_neg hne]
    exact h.last (by omega) j slot hj
  | some slot =>
    rw [touch_bound now hi]
    refine ⟨htick, fun hle j slot' hj => ?_⟩
    rw [last_use_append]
    by_cases hji : j = i
    · subst hji
      rw [Finmap.lookup_insert] at hj
      cases hj
      rw [if_pos rfl]
      change 0 < nextTick s ∧ nextTick s = _
      omega
    · rw [if_neg hji]
      exact h.last (by omega) j slot' (by simpa [hji] using hj)

theorem counted_seat (h : Counted s past) (key : Text) (i now : ℕ) :
    Counted (seat s key i now) (past ++ [i]) := by
  have htick := next_tick_counted h i
  have hlen : (past ++ [i]).length = past.length + 1 := by simp
  refine ⟨htick, fun hle j slot hj => ?_⟩
  rw [last_use_append]
  simp only [seat, insertSlot, lookup_insert] at hj
  by_cases hji : j = i
  · rw [if_pos hji] at hj
    cases hj
    rw [if_pos hji]
    change 0 < nextTick s ∧ nextTick s = _
    omega
  · rw [if_neg hji] at hj ⊢
    exact h.last (by omega) j slot hj

theorem counted_unseat (h : Counted s past) (slot : Slot) (i : ℕ) :
    Counted (unseat s slot i) past := by
  refine h.restrict rfl ?_
  intro j slot' hj
  simp only [unseat, lookup_erase] at hj
  split at hj
  · cases hj
  · exact hj

theorem counted_takes (h : Counted s past) (ht : Takes s checked taken i) :
    Counted taken past := by
  cases ht with
  | reused rest i hf | fresh hf hlast => exact h.restrict rfl fun _ _ hj => hj
  | recycled slot i hi hidle hleast => exact counted_unseat h slot i

theorem counted_restore (h : Counted s past) (rows : List (Text × ℕ × ℕ)) :
    Counted (restore s rows) (past ++ restoreUses s rows) := by
  have hrows : Counted (restoreRows s rows) (past ++ restoreUses s rows) :=
    restore_rows_induction (P := Counted) past
      (fun _ _ key i now h _ _ _ _ => counted_seat h key i now) h rows
  unfold restore refill
  split
  · exact hrows.restrict rfl fun _ _ hj => hj
  · exact hrows

theorem counted_moves
    (hm : Moves s c s' changes used) (h : Counted s past) : Counted s' (past ++ used) := by
  cases hm with
  | stays c => simpa using h
  | touched c i now hnow => exact counted_touch h i now
  | seated domain checked now taken i hnew ht => exact counted_seat (counted_takes h ht) _ i now
  | gaveBack c slot i hi hask =>
    rw [List.append_nil]
    exact (counted_unseat h slot i).restrict rfl fun _ _ hj => hj
  | restored rows => exact counted_restore h rows
  | cleared =>
    refine ⟨by simpa [clear] using h.tick, fun _ i slot hi => ?_⟩
    simp [clear] at hi

theorem counted_run (hs : Sound s) (h : Counted s past) (calls : List Call) :
    Counted (run s calls) (past ++ history s calls) := by
  induction calls generalizing s past with
  | nil => simpa [history, run] using h
  | cons c calls ih =>
    have := ih (sound_step hs c) (counted_moves (step_moves hs c) h)
    simpa [history, run, List.append_assoc] using this

theorem recycled_least_used (hs : Sound s) (h : Counted s past) (hlen : past.length ≤ u64Max)
    {domain : Text} {b : FakeIpBinding} (hnew : s.byDomain.lookup (normalizeHostname domain) = none)
    (hb : (allocate s domain checked now).2.2 = .ok b) (hm : b.index ∈ s.byIndex) {j : ℕ}
    (hj : j ∈ s.byIndex) (hne : j ≠ b.index) : lastUse past b.index < lastUse past j := by
  obtain ⟨slotj, hslotj⟩ := Finmap.mem_iff.mp hj
  rcases allocate_cases hs domain checked now with
    ⟨e, he⟩ | ⟨i, hi, -⟩ | ⟨taken, i, -, ht, he⟩
  · rw [he] at hb
    cases hb
  · rw [hnew] at hi
    cases hi
  · rw [he] at hb
    cases hb
    change i ∈ s.byIndex at hm
    change j ≠ i at hne
    change lastUse past i < _
    cases ht with
    | reused rest i hf =>
      have hfree := ((hs.dealt.free i).mp (by simp [hf])).1
      exact absurd hm (Finmap.lookup_eq_none.mp hfree)
    | fresh hf hlast =>
      obtain ⟨slot, hslot⟩ := Finmap.mem_iff.mp hm
      exact absurd (hs.dealt.bound _ slot hslot).2 (lt_irrefl _)
    | recycled slot i hslot hidle hleast =>
      have hage := ((least_some_iff _ _).mp hleast).2 (toLex (slotj.lastUsed, j))
        ((hs.linked.ages _ _).mpr ⟨slotj, hslotj, rfl⟩)
      have hle : slot.lastUsed ≤ slotj.lastUsed := by
        rcases Prod.Lex.toLex_le_toLex.mp hage with hlt | ⟨heq, -⟩
        · exact hlt.le
        · exact heq.le
      obtain ⟨hpos, hlast⟩ := h.last hlen i slot hslot
      obtain ⟨-, hlastj⟩ := h.last hlen j slotj hslotj
      rw [hlast] at hpos hle
      rw [hlastj] at hle
      refine lt_of_le_of_ne hle fun heq => hne ?_
      exact (last_use_inj hpos heq).symm

/-- An address of a hostname that was allocated or touched, and that lies in the pool's ranges,
is answered with that hostname by every later call before the idle time is over, if the clock
does not go back and the hostname is neither released nor dropped with all others. While the
use counter has not run out, a binding is given to another name only if every other binding
was used after it. -/
theorem address_in_use_kept (config : FakeIpPoolConfig) (idle : ℕ) :
    let start := withMinRecycleIdle (new config) idle
    (∀ before use after h t, UsesAt (run start before) h t use →
        (t :: after.flatMap readings).Pairwise (· ≤ ·) →
        (∀ r ∈ after.flatMap readings, r < t + idle) →
        (∀ c ∈ after, c ≠ .clear ∧ asksRelease c ≠ some h) →
        ∃ i, (run start (before ++ [use])).byDomain.lookup h = some i ∧
          ∀ a ∈ addressesAt config i, config.contains a = true →
            ∀ now, (domainForIp (run start (before ++ use :: after)) a now).2 = some h) ∧
      ∀ calls domain checked now b, (history start calls).length < 2 ^ 64 →
        (run start calls).byDomain.lookup (normalizeHostname domain) = none →
        (allocate (run start calls) domain checked now).2.2 = .ok b →
        b.index ∈ (run start calls).byIndex →
        ∀ j ∈ (run start calls).byIndex, j ≠ b.index →
          lastUse (history start calls) b.index < lastUse (history start calls) j := by
  intro start
  have hstart : Sound start := sound_new config idle
  constructor
  · intro before use after h t huse hclock hsoon hquiet
    have hbefore := sound_run hstart before
    have hused : Sound (step (run start before) use).1 := sound_step hbefore use
    have hset : settings (step (run start before) use).1 = (config, idle) :=
      (settings_step hbefore use).trans (settings_run hstart before)
    obtain ⟨i, hk⟩ := uses_keeps hbefore huse
    have hkept : Keeps (run (step (run start before) use).1 after) i h t := by
      refine keeps_run hused hk (List.pairwise_cons.mp hclock).1 ?_ hquiet
      rw [show (step (run start before) use).1.minRecycleIdle = idle from congrArg Prod.snd hset]
      exact hsoon
    have hconf : (run (step (run start before) use).1 after).config = config :=
      congrArg Prod.fst ((settings_run hused after).trans hset)
    have hrun : run start (before ++ use :: after) =
        run (step (run start before) use).1 after := run_append start before (use :: after)
    refine ⟨i, ?_, ?_⟩
    · obtain ⟨slot, hslot, hd, -⟩ := hk
      rw [run_append]
      exact (hused.linked.paired h i).mpr ⟨slot, hslot, hd⟩
    · intro a ha hc now
      rw [hrun]
      exact keeps_answers (sound_run hused after) hkept (hconf ▸ ha) (hconf ▸ hc) now
  · intro calls domain checked now b hlen hnew hb hm j hj hne
    have hcount : Counted (run start calls) (history start calls) := by
      have hzero : Counted start [] :=
        ⟨by simp [start, withMinRecycleIdle, new],
          fun _ i slot hi => by simp [start, withMinRecycleIdle, new] at hi⟩
      simpa using counted_run hstart hzero calls
    exact recycled_least_used (sound_run hstart calls) hcount (by unfold u64Max; omega) hnew hb hm
      hj hne

def fullPool : Allocator :=
  run (withMinRecycleIdle (new ⟨0xC6120000#32, 29, none, 0⟩) 600)
    [.allocate ['a'] 0 0, .allocate ['b'] 1 1, .allocate ['c'] 2 2, .allocate ['d'] 3 3,
      .allocate ['e'] 4 4]

/-- The first name's address while the second is allocated, and the first name recycled for a
sixth. -/
theorem address_in_use_kept_small :
    (domainForIp (run (withMinRecycleIdle (new ⟨0xC6120000#32, 29, none, 0⟩) 600)
        [.allocate ['a'] 0 0, .allocate ['b'] 5 5]) (.v4 0xC6120002#32) 9).2 = some ['a'] ∧
      (allocate fullPool ['f'] 700 700).2.2 = .ok ⟨2, 0xC6120002#32, none⟩ ∧
      lastUse [2, 3, 4, 5, 6] 2 < lastUse [2, 3, 4, 5, 6] 3 := by
  have hkept := address_in_use_kept ⟨0xC6120000#32, 29, none, 0⟩ 600
  refine ⟨?_, by decide, ?_⟩
  · obtain ⟨i, hi, ha⟩ := hkept.1 [] (.allocate ['a'] 0 0) [.allocate ['b'] 5 5] ['a'] 0
      ⟨by decide, rfl, _, rfl⟩ (by decide) (by decide) (by simp [asksRelease])
    have h2 : i = 2 := Option.some.inj (hi.symm.trans (by decide))
    subst h2
    exact ha _ (by decide) (by decide) 9
  · exact hkept.2
      [.allocate ['a'] 0 0, .allocate ['b'] 1 1, .allocate ['c'] 2 2, .allocate ['d'] 3 3,
        .allocate ['e'] 4 4] ['f'] 700 700 ⟨2, 0xC6120002#32, none⟩ (by decide) (by decide)
      (by decide) (by decide) 3 (by decide) (by decide)

/-- A pool whose IPv6 range is a single address hands out addresses outside it, and does not
answer for them. -/
theorem narrow_v6_not_answered :
    let pool : FakeIpPoolConfig := ⟨0xC6120000#32, 15, some 0#128, 128⟩
    let s := run (new pool) [.allocate "a.example".toList 0 0]
    bindingForDomain s "a.example".toList = some ⟨2, 0xC6120002#32, some 2#128⟩ ∧
      (domainForIp s (.v6 2#128) 0).2 = none := by
  decide

end NetRuleRouter.BindingRecency
