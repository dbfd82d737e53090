import Mathlib.Tactic

/-!
# Spellings that can be told apart

A spelling is unambiguous when no two values can be spelled alike whatever
follows them. Pairs, lists between separators and values with fixed words
around them are spelled unambiguously when their parts are.
-/

set_option autoImplicit false

namespace NetRuleRouter.Spellings

variable {α β γ : Type}

def Unambiguous (spell : α → List β) : Prop :=
  ∀ a b s t, spell a ++ s = spell b ++ t → a = b ∧ s = t

variable {f : α → List β} {g : γ → List β} (hf : Unambiguous f)
include hf

theorem Unambiguous.injective : Function.Injective f := by
  intro a b h
  exact (hf a b [] [] (by rw [h])).1

theorem Unambiguous.comap {e : γ → α} (he : Function.Injective e) :
    Unambiguous fun c => f (e c) := by
  intro a b s t h
  obtain ⟨hab, hst⟩ := hf _ _ s t h
  exact ⟨he hab, hst⟩

theorem Unambiguous.pair (hg : Unambiguous g) :
    Unambiguous fun p : α × γ => f p.1 ++ g p.2 := by
  rintro ⟨a, c⟩ ⟨b, d⟩ s t h
  simp only [List.append_assoc] at h
  obtain ⟨rfl, hrest⟩ := hf _ _ _ _ h
  obtain ⟨rfl, hst⟩ := hg _ _ _ _ hrest
  exact ⟨rfl, hst⟩

theorem Unambiguous.after (word : List β) :
    Unambiguous fun a => word ++ f a := by
  intro a b s t h
  simp only [List.append_assoc, List.append_cancel_left_eq] at h
  exact hf a b s t h

theorem Unambiguous.before (word : List β) :
    Unambiguous fun a => f a ++ word := by
  intro a b s t h
  simp only [List.append_assoc] at h
  obtain ⟨hab, hst⟩ := hf _ _ _ _ h
  exact ⟨hab, List.append_cancel_left hst⟩

def spellRest (f : α → List β) (sep stop : β) : List α → List β
  | [] => [stop]
  | a :: as => sep :: (f a ++ spellRest f sep stop as)

def spellItems (f : α → List β) (sep stop : β) : List α → List β
  | [] => [stop]
  | a :: as => f a ++ spellRest f sep stop as

theorem Unambiguous.rest {sep stop : β} (hne : sep ≠ stop) :
    Unambiguous (spellRest f sep stop) := by
  intro as
  induction as with
  | nil =>
    intro bs s t h
    cases bs with
    | nil => simpa [spellRest] using h
    | cons b bs => simp [spellRest, Ne.symm hne] at h
  | cons a as ih =>
    intro bs s t h
    cases bs with
    | nil => simp [spellRest, hne] at h
    | cons b bs =>
      simp only [spellRest, List.cons_append, List.append_assoc, List.cons.injEq, true_and] at h
      obtain ⟨rfl, hrest⟩ := hf _ _ _ _ h
      obtain ⟨rfl, hst⟩ := ih bs s t hrest
      exact ⟨rfl, hst⟩

theorem Unambiguous.items {sep stop : β} (hne : sep ≠ stop)
    (hstop : ∀ a, ∃ c rest, f a = c :: rest ∧ c ≠ stop) : Unambiguous (spellItems f sep stop) := by
  intro as bs s t h
  cases as with
  | nil =>
    cases bs with
    | nil => simpa [spellItems] using h
    | cons b bs =>
      obtain ⟨c, rest, hfb, hc⟩ := hstop b
      simp [spellItems, hfb, Ne.symm hc] at h
  | cons a as =>
    cases bs with
    | nil =>
      obtain ⟨c, rest, hfa, hc⟩ := hstop a
      simp [spellItems, hfa, hc] at h
    | cons b bs =>
      simp only [spellItems, List.append_assoc] at h
      obtain ⟨rfl, hrest⟩ := hf _ _ _ _ h
      obtain ⟨rfl, hst⟩ := hf.rest hne _ _ _ _ hrest
      exact ⟨rfl, hst⟩

omit hf

theorem item_sublist {as : List α} {a : α} (h : a ∈ as) (sep stop : β) :
    (f a).length ≤ (spellItems f sep stop as).length := by
  have hrest : ∀ as : List α, a ∈ as → (f a).length ≤ (spellRest f sep stop as).length := by
    intro as
    induction as with
    | nil => nofun
    | cons b as ih =>
      intro h
      simp only [spellRest, List.length_cons, List.length_append]
      rcases List.mem_cons.mp h with rfl | h
      · omega
      · have := ih h
        omega
  cases as with
  | nil => cases h
  | cons b as =>
    simp only [spellItems, List.length_append]
    rcases List.mem_cons.mp h with rfl | h
    · omega
    · have := hrest as h
      omega

end NetRuleRouter.Spellings
