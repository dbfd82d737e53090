import NetRuleRouter.FakeIpAllocator

/-!
# The fake-address map stays a bijection

The maps by name and by index hold the same pairs, the ages are those of the
bindings, and every index below the cursor is either bound or free. Each
operation is cut into the three things it can do to a binding, marking it
used, seating it and removing it, and the invariant is carried through these.
-/

set_option autoImplicit false

namespace NetRuleRouter.BindingInvariant
open TextOps Lookups FakeIpAllocator

/-- The two maps and the ages speak of the same bindings. -/
structure Linked (s : Allocator) : Prop where
  paired : Paired Slot.domain s.byDomain s.byIndex
  ages : ∀ a i, toLex (a, i) ∈ s.byAge ↔ ∃ slot, s.byIndex.lookup i = some slot ∧ slot.lastUsed = a

/-- The indices bound, free and never dealt, once those of `out` are set aside. -/
structure Dealt (s : Allocator) (out : Set ℕ) : Prop where
  distinct : s.freed.Nodup
  free : ∀ i, i ∈ s.freed ↔ s.byIndex.lookup i = none ∧ i ∉ out ∧
    fakeIpFirstHostIndex ≤ i ∧ i < s.cursor
  bound : ∀ i slot, s.byIndex.lookup i = some slot → fakeIpFirstHostIndex ≤ i ∧ i < s.cursor
  low : fakeIpFirstHostIndex ≤ s.cursor
  high : s.cursor ≤ s.config.lastHostIndex + 1

structure Sound (s : Allocator) : Prop where
  linked : Linked s
  dealt : Dealt s ∅

variable {s : Allocator}

theorem linked_empty (hd : s.byDomain = ∅) (hi : s.byIndex = ∅) (ha : s.byAge = ∅) : Linked s where
  paired := by
    intro d i
    simp [hd, hi]
  ages := by
    intro a i
    simp [hi, ha]

theorem dealt_start (hi : s.byIndex = ∅) (hf : s.freed = [])
    (hc : s.cursor = fakeIpFirstHostIndex) : Dealt s ∅ where
  distinct := by simp [hf]
  free := by
    intro i
    simp only [hf, hc, List.not_mem_nil, false_iff]
    omega
  bound := by
    intro i slot h
    simp [hi] at h
  low := by omega
  high := by
    unfold FakeIpPoolConfig.lastHostIndex
    omega

theorem sound_new (config : FakeIpPoolConfig) (idle : ℕ) :
    Sound (withMinRecycleIdle (new config) idle) :=
  ⟨linked_empty rfl rfl rfl, dealt_start rfl rfl rfl⟩

theorem sound_clear (s : Allocator) : Sound (clear s) :=
  ⟨linked_empty rfl rfl rfl, dealt_start rfl rfl rfl⟩

variable {index : ℕ}

theorem touch_absent (now : ℕ) (h : s.byIndex.lookup index = none) :
    touch s index now = { s with tick := nextTick s } := by
  unfold touch
  rw [h]

variable {slot : Slot}

theorem touch_bound (now : ℕ) (h : s.byIndex.lookup index = some slot) :
    touch s index now =
      { s with
        tick := nextTick s
        byIndex := s.byIndex.insert index { slot with lastUsed := nextTick s, touched := now }
        byAge := insert (toLex (nextTick s, index))
          (s.byAge.erase (toLex (slot.lastUsed, index))) } := by
  unfold touch
  rw [h]

def settings (s : Allocator) : FakeIpPoolConfig × ℕ := (s.config, s.minRecycleIdle)

theorem settings_touch (s : Allocator) (index now : ℕ) :
    settings (touch s index now) = settings s := by
  unfold touch
  split <;> rfl

theorem linked_touch (h : Linked s) (index now : ℕ) : Linked (touch s index now) := by
  cases hi : s.byIndex.lookup index with
  | none =>
    rw [touch_absent now hi]
    exact ⟨h.paired, h.ages⟩
  | some slot =>
    rw [touch_bound now hi]
    constructor
    · exact h.paired.update hi rfl
    · intro a i
      have hage := h.ages a i
      simp only [Finset.mem_insert, Finset.mem_erase, hage, lookup_insert]
      by_cases hii : i = index
      · subst hii
        simp only [hi, if_true, Option.some.injEq, exists_eq_left', EmbeddingLike.apply_eq_iff_eq,
          Prod.mk.injEq, and_true]
        grind
      · simp [hii]

theorem dealt_touch {out : Set ℕ} (h : Dealt s out) (index now : ℕ) :
    Dealt (touch s index now) out := by
  cases hi : s.byIndex.lookup index with
  | none =>
    rw [touch_absent now hi]
    exact ⟨h.distinct, h.free, h.bound, h.low, h.high⟩
  | some slot =>
    rw [touch_bound now hi]
    refine ⟨h.distinct, ?_, ?_, h.low, h.high⟩
    · intro i
      have hfree := h.free i
      simp only [lookup_insert]
      by_cases hii : i = index
      · subst hii
        simpa [hi] using hfree
      · simpa [hii] using hfree
    · intro i slot' hs
      rw [lookup_insert] at hs
      by_cases hii : i = index
      · exact h.bound i slot (hii ▸ hi)
      · exact h.bound i slot' (by simpa [hii] using hs)

theorem sound_touch (h : Sound s) (index now : ℕ) : Sound (touch s index now) :=
  ⟨linked_touch h.linked index now, dealt_touch h.dealt index now⟩

variable {key : Text}

theorem linked_seat (h : Linked s) (now : ℕ) (hk : s.byDomain.lookup key = none)
    (hi : s.byIndex.lookup index = none) :
    Linked (seat s key index now) where
  paired := Paired.insert h.paired (c := ⟨key, nextTick s, now⟩) hk hi
  ages := by
    intro a i
    have hage := h.ages a i
    simp only [seat, insertSlot, Finset.mem_insert, hage, lookup_insert,
      EmbeddingLike.apply_eq_iff_eq, Prod.mk.injEq]
    by_cases hii : i = index
    · subst hii
      simp [hi, eq_comm]
    · simp [hii]

theorem dealt_seat (h : Dealt s {index}) (key : Text) (now : ℕ)
    (hl : fakeIpFirstHostIndex ≤ index) (hu : index < s.cursor) :
    Dealt (seat s key index now) ∅ where
  distinct := h.distinct
  free := by
    intro i
    have hfree := h.free i
    simp only [seat, insertSlot, lookup_insert]
    by_cases hii : i = index
    · simp_all
    · simpa [hii] using hfree
  bound := by
    intro i slot hs
    simp only [seat, insertSlot, lookup_insert] at hs
    by_cases hii : i = index
    · subst hii
      exact ⟨hl, hu⟩
    · exact h.bound i slot (by simpa [hii] using hs)
  low := h.low
  high := h.high

def unseat (s : Allocator) (slot : Slot) (index : ℕ) : Allocator :=
  { s with
    byAge := s.byAge.erase (toLex (slot.lastUsed, index))
    byDomain := s.byDomain.erase slot.domain
    byIndex := s.byIndex.erase index }

theorem linked_unseat (h : Linked s) (hi : s.byIndex.lookup index = some slot) :
    Linked (unseat s slot index) where
  paired := h.paired.erase hi
  ages := by
    intro a i
    have hage := h.ages a i
    simp only [unseat, Finset.mem_erase, hage, lookup_erase, ne_eq,
      EmbeddingLike.apply_eq_iff_eq, Prod.mk.injEq]
    by_cases hii : i = index
    · subst hii
      simp [hi, eq_comm]
    · simp [hii]

theorem dealt_unseat (h : Dealt s ∅) (hi : s.byIndex.lookup index = some slot) :
    Dealt (unseat s slot index) {index} where
  distinct := h.distinct
  free := by
    intro i
    have hfree := h.free i
    simp only [unseat, lookup_erase]
    by_cases hii : i = index
    · subst hii
      simpa [hi] using hfree
    · simpa [hii] using hfree
  bound := by
    intro i slot' hs
    simp only [unseat, lookup_erase] at hs
    by_cases hii : i = index
    · simp [hii] at hs
    · exact h.bound i slot' (by simpa [hii] using hs)
  low := h.low
  high := h.high

/-- How an index is taken, and the state it is taken from. -/
inductive Takes (s : Allocator) (checked : ℕ) : Allocator → ℕ → Prop
  | reused (rest : List ℕ) (index : ℕ) (h : s.freed = rest ++ [index]) :
      Takes s checked { s with freed := rest } index
  | fresh (hfreed : s.freed = []) (hlast : s.cursor ≤ s.config.lastHostIndex) :
      Takes s checked { s with cursor := s.cursor + 1 } s.cursor
  | recycled (slot : Slot) (index : ℕ) (hi : s.byIndex.lookup index = some slot)
      (hidle : s.minRecycleIdle ≤ checked - slot.touched)
      (hleast : least s.byAge = some (toLex (slot.lastUsed, index))) :
      Takes s checked (unseat s slot index) index

theorem take_index_cases (h : Sound s) (checked : ℕ) :
    (∃ taken index, takeIndex s checked = (taken, .ok index) ∧ Takes s checked taken index) ∨
      takeIndex s checked = (s, .error .poolExhausted) := by
  unfold takeIndex
  cases hf : s.freed.getLast? with
  | some index =>
    left
    refine ⟨_, index, rfl, .reused _ index ?_⟩
    rw [List.dropLast_append_getLast? index hf]
  | none =>
    have hnil : s.freed = [] := List.getLast?_eq_none_iff.mp hf
    dsimp only
    by_cases hc : s.cursor ≤ s.config.lastHostIndex ∧ 0 < s.config.capacity
    · left
      have hu : min (s.cursor + 1) u32Max = s.cursor + 1 := by
        have := last_host_index_lt s.config
        unfold u32Max
        omega
      rw [if_pos hc, hu]
      exact ⟨_, _, rfl, .fresh hnil hc.1⟩
    · rw [if_neg hc]
      cases ho : least s.byAge with
      | none => exact .inr rfl
      | some oldest =>
        obtain ⟨hmem, -⟩ := (least_some_iff _ _).mp ho
        obtain ⟨slot, hs, hu⟩ := (h.linked.ages (ofLex oldest).1 (ofLex oldest).2).mp hmem
        have heq : oldest = toLex (slot.lastUsed, (ofLex oldest).2) := by
          rw [hu]
          rfl
        simp only [hs]
        by_cases hidle : checked - slot.touched < s.minRecycleIdle
        · rw [if_pos hidle]
          exact .inr rfl
        · rw [if_neg hidle]
          left
          refine ⟨unseat s slot (ofLex oldest).2, _, ?_,
            .recycled slot (ofLex oldest).2 hs (by omega) (by rw [← heq]; exact ho)⟩
          rw [unseat, ← heq]

variable {taken : Allocator} {checked : ℕ}

theorem takes_dealt (h : Sound s) (ht : Takes s checked taken index) :
    Linked taken ∧ Dealt taken {index} ∧ taken.byIndex.lookup index = none ∧
      fakeIpFirstHostIndex ≤ index ∧ index < taken.cursor := by
  have hl := h.linked
  have hd := h.dealt
  cases ht with
  | reused rest index hf =>
    have hdist := hd.distinct
    rw [hf, List.nodup_append] at hdist
    obtain ⟨hrest, -, hne⟩ := hdist
    have hat := (hd.free index).mp (by simp [hf])
    refine ⟨⟨hl.paired, hl.ages⟩, ⟨hrest, ?_, hd.bound, hd.low, hd.high⟩, hat.1, hat.2.2⟩
    intro i
    have hfree := hd.free i
    rw [hf, List.mem_append, List.mem_singleton] at hfree
    by_cases hii : i = index
    · have : i ∉ rest := fun hi => hne i hi index (by simp) hii
      simp [hii, hii ▸ this]
    · simpa [hii] using hfree
  | fresh hf hlast =>
    have hnone : s.byIndex.lookup s.cursor = none := by
      cases hs : s.byIndex.lookup s.cursor with
      | none => rfl
      | some slot => exact absurd (hd.bound _ _ hs).2 (lt_irrefl _)
    refine ⟨⟨hl.paired, hl.ages⟩, ⟨hd.distinct, ?_, ?_, ?_, ?_⟩, hnone, hd.low, Nat.lt_succ_self _⟩
    · intro i
      have hfree := hd.free i
      simp only [Set.mem_empty_iff_false, not_false_eq_true, true_and] at hfree
      simp only [hfree, Set.mem_singleton_iff]
      constructor
      · rintro ⟨hi, hlo, hhi⟩
        exact ⟨hi, by omega, hlo, by omega⟩
      · rintro ⟨hi, hne, hlo, hhi⟩
        exact ⟨hi, hlo, by omega⟩
    · intro i slot hs
      have := hd.bound i slot hs
      exact ⟨this.1, by simpa using Nat.lt_succ_of_lt this.2⟩
    · exact Nat.le_succ_of_le hd.low
    · exact Nat.succ_le_succ hlast
  | recycled slot index hi hidle hleast =>
    have hat := hd.bound index slot hi
    refine ⟨linked_unseat hl hi, dealt_unseat hd hi, ?_, hat⟩
    simp [unseat]

theorem takes_unnamed (ht : Takes s checked taken index) (hk : s.byDomain.lookup key = none) :
    taken.byDomain.lookup key = none := by
  cases ht with
  | reused rest index hf | fresh hf hlast => exact hk
  | recycled slot index hi hidle hleast =>
    rw [unseat, lookup_erase, hk]
    exact ite_self none

theorem settings_takes (ht : Takes s checked taken index) : settings taken = settings s := by
  cases ht <;> rfl

theorem sound_seat (h : Sound s) (ht : Takes s checked taken index)
    (hk : s.byDomain.lookup key = none) (now : ℕ) : Sound (seat taken key index now) := by
  obtain ⟨hlinked, hdealt, hnone, hlo, hhi⟩ := takes_dealt h ht
  exact ⟨linked_seat hlinked now (takes_unnamed ht hk) hnone, dealt_seat hdealt key now hlo hhi⟩

def giveBack (s : Allocator) (slot : Slot) (index : ℕ) : Allocator :=
  { unseat s slot index with freed := s.freed ++ [index] }

theorem sound_give_back (h : Sound s) (hi : s.byIndex.lookup index = some slot) :
    Sound (giveBack s slot index) := by
  have hl := linked_unseat h.linked hi
  have hd := dealt_unseat h.dealt hi
  have hat := h.dealt.bound index slot hi
  have hfresh : index ∉ s.freed := by
    intro hm
    have hnone := ((h.dealt.free index).mp hm).1
    rw [hi] at hnone
    cases hnone
  refine ⟨⟨hl.paired, hl.ages⟩, ⟨?_, ?_, hd.bound, hd.low, hd.high⟩⟩
  · change (s.freed ++ [index]).Nodup
    rw [List.nodup_append]
    refine ⟨h.dealt.distinct, by simp, ?_⟩
    rintro i hm j hj rfl
    rw [List.mem_singleton] at hj
    exact hfresh (hj ▸ hm)
  · intro i
    have hfree := hd.free i
    change i ∈ s.freed ++ [index] ↔ _
    change i ∈ s.freed ↔ _ at hfree
    rw [List.mem_append, List.mem_singleton, hfree]
    by_cases hii : i = index
    · subst hii
      simp [giveBack, unseat, hat]
    · simp [hii, giveBack]

theorem release_key_cases (h : Linked s) (key : Text) :
    (s.byDomain.lookup key = none ∧ releaseKey s key = (s, [], false)) ∨
      ∃ slot index, s.byIndex.lookup index = some slot ∧ slot.domain = key ∧
        releaseKey s key = (giveBack s slot index, [.released index], true) := by
  unfold releaseKey
  cases hk : s.byDomain.lookup key with
  | none => exact .inl ⟨rfl, rfl⟩
  | some index =>
    obtain ⟨slot, hi, rfl⟩ := (h.paired key index).mp hk
    right
    refine ⟨slot, index, hi, rfl, ?_⟩
    simp only [hi]
    rfl

theorem release_if_untouched_cases (s : Allocator) (domain : Text) (order : ℕ) :
    releaseIfUntouched s domain order = (s, [], false) ∨
      releaseIfUntouched s domain order = release s (normalizeHostname domain) := by
  unfold releaseIfUntouched
  dsimp only
  split
  · exact .inr rfl
  · exact .inl rfl

end NetRuleRouter.BindingInvariant
