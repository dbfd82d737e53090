import NetRuleRouter.BindingInvariant

/-!
# Runs of the fake-address allocator

Stored bindings are seated one by one and the cursor and the free indices are
then counted again; every other call marks, seats or removes one binding. So
the invariant holds after every sequence of calls, and with it the hostnames
hold distinct addresses that are never one of the pool's own.
-/

set_option autoImplicit false

namespace NetRuleRouter.BindingRuns
open TextOps IpNetwork Lookups FakeIpAllocator BindingInvariant

theorem restore_row_cases (s : Allocator) (domain : Text) (index now : ℕ) :
    (skipsRow s domain index = true ∧ restoreRow s domain index now = s) ∨
      (skipsRow s domain index = false ∧ fakeIpFirstHostIndex ≤ index ∧
        index ≤ s.config.lastHostIndex ∧ s.byIndex.lookup index = none ∧
        s.byDomain.lookup (normalizeHostname domain) = none ∧
        restoreRow s domain index now = seat s (normalizeHostname domain) index now) := by
  unfold restoreRow
  cases hskip : skipsRow s domain index with
  | true => exact .inl ⟨rfl, rfl⟩
  | false =>
    simp only [skipsRow, Bool.or_eq_false_iff, beq_eq_false_iff_ne, decide_eq_false_iff_not,
      not_lt] at hskip
    obtain ⟨⟨⟨⟨-, hlo⟩, hhi⟩, hi⟩, hk⟩ := hskip
    exact .inr ⟨rfl, hlo, hhi, Finmap.lookup_eq_none.mpr hi, Finmap.lookup_eq_none.mpr hk, rfl⟩

def restoreUses (s : Allocator) : List (Text × ℕ × ℕ) → List ℕ
  | [] => []
  | (domain, index, now) :: rows =>
    (if skipsRow s domain index then [] else [index]) ++
      restoreUses (restoreRow s domain index now) rows

variable {s : Allocator} {domain : Text}

/-- What holds at the start and stays as a row is seated holds once the rows are in. -/
theorem restore_rows_induction {P : Allocator → List ℕ → Prop}
    (past : List ℕ) (hseat : ∀ s past key index now, P s past → fakeIpFirstHostIndex ≤ index →
      index ≤ s.config.lastHostIndex → s.byIndex.lookup index = none →
      s.byDomain.lookup key = none → P (seat s key index now) (past ++ [index]))
    (h : P s past) (rows : List (Text × ℕ × ℕ)) :
    P (restoreRows s rows) (past ++ restoreUses s rows) := by
  induction rows generalizing s past with
  | nil => simpa [restoreRows, restoreUses] using h
  | cons row rows ih =>
    obtain ⟨domain, index, now⟩ := row
    simp only [restoreRows, restoreUses, ← List.append_assoc]
    refine ih _ ?_
    rcases restore_row_cases s domain index now with ⟨hskip, hs⟩ | ⟨hskip, hlo, hhi, hi, hk, hs⟩
    · rw [hs, hskip]
      simpa using h
    · rw [hs, hskip]
      exact hseat s past _ index now h hlo hhi hi hk

/-- What stays as rows are seated: the maps agree, and every index is a host's. -/
structure Refillable (s : Allocator) : Prop where
  linked : Linked s
  hosts : ∀ i slot, s.byIndex.lookup i = some slot →
    fakeIpFirstHostIndex ≤ i ∧ i ≤ s.config.lastHostIndex
  low : fakeIpFirstHostIndex ≤ s.cursor
  high : s.cursor ≤ s.config.lastHostIndex + 1

theorem refillable_of_sound (h : Sound s) : Refillable s where
  linked := h.linked
  hosts := by
    intro i slot hi
    have := h.dealt.bound i slot hi
    have := h.dealt.high
    omega
  low := h.dealt.low
  high := h.dealt.high

theorem refillable_restore_rows (h : Refillable s) (rows : List (Text × ℕ × ℕ)) :
    Refillable (restoreRows s rows) := by
  refine restore_rows_induction (P := fun s _ => Refillable s) [] ?_ h rows
  intro s _ key index now h hlo hhi hi hk
  refine ⟨linked_seat h.linked now hk hi, ?_, h.low, h.high⟩
  intro i slot hslot
  simp only [seat, insertSlot, lookup_insert] at hslot
  by_cases hii : i = index
  · subst hii
    exact ⟨hlo, hhi⟩
  · exact h.hosts i slot (by simpa [hii] using hslot)

theorem restore_rows_empty (rows : List (Text × ℕ × ℕ)) (h : (restoreRows s rows).byIndex = ∅) :
    restoreRows s rows = s := by
  have hor : restoreRows s rows = s ∨ ∃ i, i ∈ (restoreRows s rows).byIndex := by
    refine restore_rows_induction (P := fun s' _ => s' = s ∨ ∃ i, i ∈ s'.byIndex) [] ?_
      (.inl rfl) rows
    intro s' _ key index now _ _ _ _ _
    exact .inr ⟨index, Finmap.mem_insert.mpr (.inl rfl)⟩
  rcases hor with hs | ⟨i, hi⟩
  · exact hs
  · rw [h] at hi
    exact absurd hi Finmap.notMem_empty

theorem sound_refill (h : Refillable s) (hne : s.byIndex ≠ ∅) : Sound (refill s) := by
  unfold refill
  cases ht : greatest s.byIndex.keys with
  | none =>
    have hempty := (greatest_none_iff _).mp ht
    refine absurd (Finmap.ext_lookup fun i => ?_) hne
    have hi : i ∉ s.byIndex := by
      rw [← Finmap.mem_keys, hempty]
      exact Finset.notMem_empty i
    rw [Finmap.lookup_eq_none.mpr hi, Finmap.lookup_empty]
  | some top =>
    obtain ⟨hmem, htop⟩ := (greatest_some_iff _ _).mp ht
    obtain ⟨slot, hslot⟩ := Finmap.mem_iff.mp (Finmap.mem_keys.mp hmem)
    have hhost := h.hosts top slot hslot
    have hlt := last_host_index_lt s.config
    have hlow := h.low
    have hhigh := h.high
    have hcap : min (top + 1) u32Max = top + 1 := by
      unfold u32Max
      omega
    dsimp only
    rw [hcap]
    refine ⟨⟨h.linked.paired, h.linked.ages⟩, ⟨?_, ?_, ?_, ?_, ?_⟩⟩
    · exact List.Nodup.filter _ List.nodup_range'
    · intro i
      simp only [List.mem_filter, List.mem_range'_1, decide_eq_true_eq, Finmap.lookup_eq_none,
        Set.mem_empty_iff_false, not_false_eq_true, true_and]
      constructor
      · rintro ⟨⟨hlo, hhi⟩, hi⟩
        exact ⟨hi, hlo, by omega⟩
      · rintro ⟨hi, hlo, hhi⟩
        exact ⟨⟨hlo, by omega⟩, hi⟩
    · intro i slot' hs
      have hle := htop i (Finmap.mem_keys.mpr (Finmap.mem_iff.mpr ⟨slot', hs⟩))
      have hlo := h.hosts i slot' hs
      exact ⟨hlo.1, by simp only [lt_max_iff]; omega⟩
    · change fakeIpFirstHostIndex ≤ max (top + 1) s.cursor
      omega
    · change max (top + 1) s.cursor ≤ s.config.lastHostIndex + 1
      omega

theorem sound_restore (h : Sound s) (rows : List (Text × ℕ × ℕ)) : Sound (restore s rows) := by
  unfold restore
  by_cases hempty : (restoreRows s rows).byIndex = ∅
  · have hsame := restore_rows_empty rows hempty
    rw [hsame] at hempty ⊢
    unfold refill
    simpa [hempty, greatest] using h
  · exact sound_refill (refillable_restore_rows (refillable_of_sound h) rows) hempty

theorem settings_restore_rows (s : Allocator) (rows : List (Text × ℕ × ℕ)) :
    settings (restoreRows s rows) = settings s :=
  restore_rows_induction (P := fun s' _ => settings s' = settings s) []
    (fun _ _ _ _ _ h _ _ _ _ => h) rfl rows

theorem settings_refill (s : Allocator) : settings (refill s) = settings s := by
  unfold refill
  split <;> rfl

theorem allocate_cases (h : Sound s) (domain : Text) (checked now : ℕ) :
    (∃ e, allocate s domain checked now = (s, [], .error e)) ∨
      (∃ index, s.byDomain.lookup (normalizeHostname domain) = some index ∧
        allocate s domain checked now = (touch s index now, [], .ok (bindingAt s index))) ∨
      ∃ taken index, s.byDomain.lookup (normalizeHostname domain) = none ∧
        Takes s checked taken index ∧
        allocate s domain checked now = (seat taken (normalizeHostname domain) index now,
          [.bound (normalizeHostname domain) index], .ok (bindingAt s index)) := by
  unfold allocate
  dsimp only
  by_cases hempty : normalizeHostname domain = []
  · rw [if_pos hempty]
    exact .inl ⟨_, rfl⟩
  · rw [if_neg hempty]
    cases hk : s.byDomain.lookup (normalizeHostname domain) with
    | some index => exact .inr (.inl ⟨index, rfl, rfl⟩)
    | none =>
      rcases take_index_cases h checked with ⟨taken, index, he, ht⟩ | he
      · rw [he]
        exact .inr (.inr ⟨taken, index, rfl, ht, rfl⟩)
      · rw [he]
        exact .inl ⟨_, rfl⟩

def readings : Call → List ℕ
  | .allocate _ checked now => [checked, now]
  | .restore rows => rows.map fun row => row.2.2
  | .domainForIp _ now => [now]
  | .touchAddress _ now => [now]
  | _ => []

def asksRelease : Call → Option Text
  | .release domain => some (normalizeHostname domain)
  | .releaseIfUntouched domain _ => some (normalizeHostname (normalizeHostname domain))
  | _ => none

def uses (s : Allocator) : Call → List ℕ
  | .allocate domain checked now =>
    match (allocate s domain checked now).2.2 with
    | .ok b => [b.index]
    | .error _ => []
  | .restore rows => restoreUses s rows
  | .domainForIp addr _ => (s.config.indexOf addr).toList
  | .touchAddress addr now =>
    if (touchAddress s addr now).2 then (s.config.indexOf addr).toList else []
  | _ => []

/-- What a call can do: the state it leaves, what it reports and the indices it marks used. -/
inductive Moves (s : Allocator) : Call → Allocator → List BindingChange → List ℕ → Prop
  | stays (c : Call) : Moves s c s [] []
  | touched (c : Call) (index now : ℕ) (hnow : now ∈ readings c) :
      Moves s c (touch s index now) [] [index]
  | seated (domain : Text) (checked now : ℕ) (taken : Allocator) (index : ℕ)
      (hk : s.byDomain.lookup (normalizeHostname domain) = none)
      (ht : Takes s checked taken index) :
      Moves s (.allocate domain checked now) (seat taken (normalizeHostname domain) index now)
        [.bound (normalizeHostname domain) index] [index]
  | gaveBack (c : Call) (slot : Slot) (index : ℕ) (hi : s.byIndex.lookup index = some slot)
      (hask : asksRelease c = some slot.domain) :
      Moves s c (giveBack s slot index) [.released index] []
  | restored (rows : List (Text × ℕ × ℕ)) :
      Moves s (.restore rows) (restore s rows) [] (restoreUses s rows)
  | cleared : Moves s .clear (clear s) [] []

theorem release_moves (h : Linked s) {c : Call}
    (hask : asksRelease c = some (normalizeHostname domain)) :
    Moves s c (release s domain).1 (release s domain).2.1 [] := by
  unfold release
  rcases release_key_cases h (normalizeHostname domain) with ⟨-, he⟩ | ⟨slot, index, hi, hd, he⟩
  · rw [he]
    exact .stays c
  · rw [he]
    exact .gaveBack c slot index hi (hask.trans (congrArg some hd.symm))

theorem step_moves (h : Sound s) (c : Call) : Moves s c (step s c).1 (step s c).2 (uses s c) := by
  cases c with
  | allocate domain checked now =>
    rcases allocate_cases h domain checked now with
      ⟨e, he⟩ | ⟨index, -, he⟩ | ⟨taken, index, hk, ht, he⟩
    · simpa [step, uses, he] using Moves.stays _
    · simpa [step, uses, he, bindingAt] using Moves.touched _ index now (by simp [readings])
    · simpa [step, uses, he, bindingAt] using Moves.seated domain checked now taken index hk ht
  | release domain => exact release_moves h.linked rfl
  | releaseIfUntouched domain order =>
    rcases release_if_untouched_cases s domain order with he | he
    · simpa [step, uses, he] using Moves.stays _
    · simpa [step, uses, he] using release_moves h.linked rfl
  | restore rows => exact .restored rows
  | domainForIp addr now =>
    cases hi : s.config.indexOf addr with
    | none => simpa [step, uses, domainForIp, hi] using Moves.stays _
    | some index =>
      simpa [step, uses, domainForIp, hi] using Moves.touched _ index now (by simp [readings])
  | touchAddress addr now =>
    cases hi : s.config.indexOf addr with
    | none => simpa [step, uses, touchAddress, hi] using Moves.stays _
    | some index =>
      by_cases hm : index ∈ s.byIndex
      · simpa [step, uses, touchAddress, hi, hm] using
          Moves.touched _ index now (by simp [readings])
      · simpa [step, uses, touchAddress, hi, hm] using Moves.stays _
  | clear => exact .cleared

variable {s' : Allocator} {c : Call} {changes : List BindingChange} {used : List ℕ}

theorem sound_moves (h : Sound s) (hm : Moves s c s' changes used) : Sound s' := by
  cases hm with
  | stays c => exact h
  | touched c index now hnow => exact sound_touch h index now
  | seated domain checked now taken index hk ht => exact sound_seat h ht hk now
  | gaveBack c slot index hi hask => exact sound_give_back h hi
  | restored rows => exact sound_restore h rows
  | cleared => exact sound_clear s

theorem sound_step (h : Sound s) (c : Call) : Sound (step s c).1 :=
  sound_moves h (step_moves h c)

theorem sound_run (h : Sound s) (calls : List Call) : Sound (run s calls) := by
  induction calls generalizing s with
  | nil => exact h
  | cons c calls ih => exact ih (sound_step h c)

theorem settings_moves (hm : Moves s c s' changes used) : settings s' = settings s := by
  cases hm with
  | stays c => rfl
  | touched c index now hnow => exact settings_touch s index now
  | seated domain checked now taken index hk ht => exact (settings_takes ht :)
  | gaveBack c slot index hi hask => rfl
  | restored rows => exact (settings_refill _).trans (settings_restore_rows s rows)
  | cleared => rfl

theorem settings_step (h : Sound s) (c : Call) : settings (step s c).1 = settings s :=
  settings_moves (step_moves h c)

theorem settings_run (h : Sound s) (calls : List Call) : settings (run s calls) = settings s := by
  induction calls generalizing s with
  | nil => rfl
  | cons c calls ih => exact (ih (sound_step h c)).trans (settings_step h c)

theorem bound_index_lt (h : Sound s) {d : Text} {i : ℕ} (hd : s.byDomain.lookup d = some i) :
    fakeIpFirstHostIndex ≤ i ∧ i ≤ s.config.lastHostIndex ∧ i < 2 ^ 32 := by
  obtain ⟨slot, hi, -⟩ := (h.linked.paired d i).mp hd
  have hb := h.dealt.bound i slot hi
  have hh := h.dealt.high
  have hl := last_host_index_lt s.config
  omega

theorem addresses_held_once (h : Sound s) {d d' : Text} {i i' : ℕ} {a : IpAddr}
    (hd : s.byDomain.lookup d = some i) (hd' : s.byDomain.lookup d' = some i')
    (ha : a ∈ addressesAt s.config i) (ha' : a ∈ addressesAt s.config i') : d = d' := by
  have hii := addresses_at_inj s.config (bound_index_lt h hd).2.2 (bound_index_lt h hd').2.2 ha ha'
  exact h.linked.paired.injective hd (hii ▸ hd')

theorem bindings_le_capacity (h : Sound s) (hp : s.config.v4PrefixLen ≤ 30) :
    s.byDomain.keys.card ≤ s.config.capacity := by
  have hle : s.byDomain.keys.card ≤
      (Finset.Ico fakeIpFirstHostIndex (s.config.lastHostIndex + 1)).card := by
    refine h.linked.paired.card_le ?_
    intro i hi
    obtain ⟨slot, hs⟩ := Finmap.mem_iff.mp (Finmap.mem_keys.mp hi)
    have hb := h.dealt.bound i slot hs
    have hh := h.dealt.high
    rw [Finset.mem_Ico]
    omega
  rwa [Nat.card_Ico, host_indices_card s.config hp] at hle

theorem allocate_holds (h : Sound s) {checked now : ℕ} {b : FakeIpBinding}
    (hb : (allocate s domain checked now).2.2 = .ok b) :
    (allocate s domain checked now).1.byDomain.lookup (normalizeHostname domain) = some b.index ∧
      b = bindingAt s b.index := by
  rcases allocate_cases h domain checked now with
    ⟨e, he⟩ | ⟨index, hk, he⟩ | ⟨taken, index, -, -, he⟩
  · rw [he] at hb
    cases hb
  · rw [he] at hb ⊢
    cases hb
    have hsame : (touch s index now).byDomain = s.byDomain := by
      unfold touch
      split <;> rfl
    rw [hsame]
    exact ⟨hk, rfl⟩
  · rw [he] at hb ⊢
    cases hb
    exact ⟨by simp [seat, bindingAt], rfl⟩

/-- From a new allocator on, after every sequence of calls, the map by name and the map by
index are inverse, every bound index is a host's, the free ones are distinct and unbound,
bound and free together are those below the cursor, the ages are one for each binding, and
the bindings fit the pool; so no address is two hostnames', and an allocation never answers
with the network's, the adapter's or the broadcast address. -/
theorem fake_ip_map_bijective (config : FakeIpPoolConfig) (hp : config.v4PrefixLen ≤ 30)
    (idle : ℕ) (calls : List Call) :
    let s := run (withMinRecycleIdle (new config) idle) calls
    (∀ d i, s.byDomain.lookup d = some i ↔
        ∃ slot, s.byIndex.lookup i = some slot ∧ slot.domain = d) ∧
      (∀ i ∈ s.byIndex, fakeIpFirstHostIndex ≤ i ∧ i ≤ config.lastHostIndex) ∧
      s.freed.Nodup ∧ (∀ i ∈ s.freed, i ∉ s.byIndex) ∧
      (∀ i, i ∈ s.byIndex ∨ i ∈ s.freed ↔ fakeIpFirstHostIndex ≤ i ∧ i < s.cursor) ∧
      (∀ a i, toLex (a, i) ∈ s.byAge ↔
        ∃ slot, s.byIndex.lookup i = some slot ∧ slot.lastUsed = a) ∧
      s.byDomain.keys.card ≤ config.capacity ∧
      (∀ d d' i i' a, s.byDomain.lookup d = some i → s.byDomain.lookup d' = some i' →
        a ∈ addressesAt config i → a ∈ addressesAt config i' → d = d') ∧
      ∀ domain checked now b, (allocate s domain checked now).2.2 = .ok b →
        (b.v4 ≠ config.v4Base ∧ b.v4 ≠ config.gatewayV4 ∧ b.v4 ≠ config.v4Range.2) ∧
          ∀ a, b.v6 = some a → config.v6Base ≠ some a ∧ config.gatewayV6 ≠ some a := by
  intro s
  have h : Sound s := sound_run (sound_new config idle) calls
  have hc : s.config = config := congrArg Prod.fst (settings_run (sound_new config idle) calls)
  refine ⟨h.linked.paired, ?_, h.dealt.distinct, ?_, ?_, h.linked.ages, ?_, ?_, ?_⟩
  · intro i hi
    obtain ⟨slot, hs⟩ := Finmap.mem_iff.mp hi
    have hb := h.dealt.bound i slot hs
    have hh := h.dealt.high
    rw [hc] at hh
    omega
  · intro i hi
    exact Finmap.lookup_eq_none.mp ((h.dealt.free i).mp hi).1
  · intro i
    have hfree := h.dealt.free i
    cases hs : s.byIndex.lookup i with
    | none =>
      have hm : i ∉ s.byIndex := Finmap.lookup_eq_none.mp hs
      simp [hm, hfree, hs]
    | some slot =>
      have hm : i ∈ s.byIndex := Finmap.mem_iff.mpr ⟨slot, hs⟩
      simp [hm, h.dealt.bound i slot hs]
  · exact hc ▸ bindings_le_capacity h (hc ▸ hp)
  · intro d d' i i' a hd hd' ha ha'
    exact addresses_held_once h hd hd' (hc ▸ ha) (hc ▸ ha')
  · intro domain checked now b hb
    obtain ⟨hk, hbind⟩ := allocate_holds h hb
    have hs' : Sound (allocate s domain checked now).1 :=
      sound_step h (.allocate domain checked now)
    have hconf : (allocate s domain checked now).1.config = config :=
      (congrArg Prod.fst (settings_step h (.allocate domain checked now))).trans hc
    have hat := bound_index_lt hs' hk
    rw [hconf] at hat
    have hv4 : b.v4 = config.v4At b.index := by
      rw [hbind, ← hc]
      rfl
    have hv6 : b.v6 = config.v6At b.index := by
      rw [hbind, ← hc]
      rfl
    constructor
    · rw [hv4]
      exact host_index_not_reserved config hat.1 hat.2.1 hp
    · intro a ha
      exact host_index_not_reserved_v6 config hat.1 hat.2.1 (hv6 ▸ ha)

theorem fake_ip_map_bijective_default :
    defaultPool.v4PrefixLen ≤ 30 ∧
      (run (withMinRecycleIdle (new defaultPool) 0)
        [.allocate "a.example".toList 0 0]).byDomain.keys.card ≤ defaultPool.capacity :=
  ⟨by decide, (fake_ip_map_bijective defaultPool (by decide) 0 _).2.2.2.2.2.2.1⟩

end NetRuleRouter.BindingRuns
