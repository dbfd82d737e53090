import Mathlib.Tactic
import Mathlib.Data.Finmap
import Mathlib.Data.Finset.Max
import Mathlib.Combinatorics.Enumerative.DoubleCounting

/-!
# Finite maps read through their lookups

A map is known by what it answers at each key. Insertion and removal are
stated as what they answer at every key, and the ends of a finite ordered set
as the elements they are. Two maps are paired when each answers with the key
of the other.
-/

set_option autoImplicit false

namespace NetRuleRouter.Lookups

abbrev Map (α β : Type) := Finmap fun _ : α => β

section Maps

variable {α β γ : Type} [DecidableEq α]

@[grind =] theorem lookup_insert (m : Map α β) (a a' : α) (b : β) :
    (m.insert a b).lookup a' = if a' = a then some b else m.lookup a' := by
  by_cases h : a' = a
  · subst h
    simp
  · rw [if_neg h, Finmap.lookup_insert_of_ne m h]

@[grind =] theorem lookup_erase (m : Map α β) (a a' : α) :
    (m.erase a).lookup a' = if a' = a then none else m.lookup a' := by
  by_cases h : a' = a
  · subst h
    simp
  · rw [if_neg h, Finmap.lookup_erase_ne h]

variable [DecidableEq β]

/-- `forth` and `back` hold the same pairs, where a value of `back` names its key by `key`. -/
def Paired (key : γ → α) (forth : Map α β) (back : Map β γ) : Prop :=
  ∀ a b, forth.lookup a = some b ↔ ∃ c, back.lookup b = some c ∧ key c = a

variable {key : γ → α} {forth : Map α β} {back : Map β γ} {b : β} (h : Paired key forth back)
include h

theorem Paired.injective {a a' : α}
    (ha : forth.lookup a = some b) (ha' : forth.lookup a' = some b) : a = a' := by
  obtain ⟨c, hc, rfl⟩ := (h a b).mp ha
  obtain ⟨c', hc', rfl⟩ := (h a' b).mp ha'
  rw [Option.some.inj (hc.symm.trans hc')]

theorem Paired.update {c c' : γ} (hb : back.lookup b = some c) (hk : key c' = key c) :
    Paired key forth (back.insert b c') := by
  intro a b'
  rw [h a b', lookup_insert]
  by_cases hbb : b' = b
  · subst hbb
    simp [hb, hk]
  · rw [if_neg hbb]

theorem Paired.insert {c : γ} (ha : forth.lookup (key c) = none) (hb : back.lookup b = none) :
    Paired key (forth.insert (key c) b) (back.insert b c) := by
  intro a b'
  have hab := h a b'
  rw [lookup_insert, lookup_insert]
  by_cases hbb : b' = b
  · subst hbb
    rw [if_pos rfl]
    by_cases haa : a = key c
    · simp [haa]
    · have hnone : forth.lookup a ≠ some b' := by
        rw [Ne, hab, hb]
        simp
      rw [if_neg haa]
      simp [hnone, Ne.symm haa]
  · rw [if_neg hbb]
    by_cases haa : a = key c
    · subst haa
      rw [if_pos rfl, ← hab, ha]
      simp [Ne.symm hbb]
    · rw [if_neg haa, hab]

theorem Paired.erase {c : γ} (hb : back.lookup b = some c) :
    Paired key (forth.erase (key c)) (back.erase b) := by
  intro a b'
  have hab := h a b'
  have hkey := (h (key c) b).mpr ⟨c, hb, rfl⟩
  rw [lookup_erase, lookup_erase]
  by_cases haa : a = key c
  · subst haa
    rw [if_pos rfl]
    by_cases hbb : b' = b
    · simp [hbb]
    · rw [if_neg hbb, ← hab, hkey]
      simp [Ne.symm hbb]
  · rw [if_neg haa]
    by_cases hbb : b' = b
    · subst hbb
      rw [if_pos rfl, hab, hb]
      simp [Ne.symm haa]
    · rw [if_neg hbb, hab]

theorem Paired.mem_keys {a : α} (ha : a ∈ forth.keys) :
    ∃ b, b ∈ back.keys ∧ forth.lookup a = some b := by
  obtain ⟨b, hb⟩ := Finmap.mem_iff.mp (Finmap.mem_keys.mp ha)
  obtain ⟨c, hc, -⟩ := (h a b).mp hb
  exact ⟨b, Finmap.mem_keys.mpr (Finmap.mem_iff.mpr ⟨c, hc⟩), hb⟩

theorem Paired.card_le {s : Finset β} (hs : ∀ b ∈ back.keys, b ∈ s) : forth.keys.card ≤ s.card := by
  refine Finset.card_le_card_of_forall_subsingleton (fun a b => forth.lookup a = some b) ?_ ?_
  · intro a ha
    obtain ⟨b, hb, hab⟩ := h.mem_keys ha
    exact ⟨b, hs b hb, hab⟩
  · intro b _ a ha a' ha'
    exact h.injective ha.2 ha'.2

end Maps

section Ends

variable {α : Type} [LinearOrder α]

def least (s : Finset α) : Option α := if h : s.Nonempty then some (s.min' h) else none

def greatest (s : Finset α) : Option α := if h : s.Nonempty then some (s.max' h) else none

theorem least_some_iff (s : Finset α) (a : α) :
    least s = some a ↔ a ∈ s ∧ ∀ b ∈ s, a ≤ b := by
  unfold least
  split
  · rename_i h
    rw [Option.some.injEq]
    constructor
    · rintro rfl
      exact ⟨s.min'_mem h, fun b hb => s.min'_le b hb⟩
    · rintro ⟨ha, hle⟩
      exact le_antisymm (s.min'_le a ha) (hle _ (s.min'_mem h))
  · rename_i h
    rw [Finset.not_nonempty_iff_eq_empty] at h
    simp [h]

theorem greatest_some_iff (s : Finset α) (a : α) :
    greatest s = some a ↔ a ∈ s ∧ ∀ b ∈ s, b ≤ a :=
  @least_some_iff αᵒᵈ _ s a

theorem greatest_none_iff (s : Finset α) : greatest s = none ↔ s = ∅ := by
  unfold greatest
  split
  · rename_i h
    simpa using h.ne_empty
  · rename_i h
    simpa [Finset.not_nonempty_iff_eq_empty] using h

end Ends

end NetRuleRouter.Lookups
