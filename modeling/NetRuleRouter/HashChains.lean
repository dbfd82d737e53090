import Mathlib

/-!
# Hash chains

A chain is a list of links, each with a body and a hash that covers the body
and the hash before it. Where the hash does not collide on what the chains
hash, the last hash fixes everything before it: of two chains that end in one
hash, one ends the other.
-/

set_option autoImplicit false

namespace NetRuleRouter.HashChains

variable {H B : Type*}

structure Link (H B : Type*) where
  hash : H
  body : B

def tail : H → List (Link H B) → H
  | prev, [] => prev
  | _, l :: links => tail l.hash links

def inputs : H → List (Link H B) → List (H × B)
  | _, [] => []
  | prev, l :: links => (prev, l.body) :: inputs l.hash links

variable (hash : H → B → H)

def Chained : H → List (Link H B) → Prop
  | _, [] => True
  | prev, l :: links => l.hash = hash prev l.body ∧ Chained l.hash links

theorem tail_append (prev : H) (a c : List (Link H B)) :
    tail prev (a ++ c) = tail (tail prev a) c := by
  induction a generalizing prev with
  | nil => rfl
  | cons l a ih => exact ih l.hash

theorem tail_concat (prev : H) (a : List (Link H B)) (l : Link H B) :
    tail prev (a ++ [l]) = l.hash := by
  rw [tail_append]
  rfl

theorem inputs_append (prev : H) (a c : List (Link H B)) :
    inputs prev (a ++ c) = inputs prev a ++ inputs (tail prev a) c := by
  induction a generalizing prev with
  | nil => rfl
  | cons l a ih => simp [inputs, tail, ih]

variable {hash}

theorem chained_append {prev : H} {a c : List (Link H B)} :
    Chained hash prev (a ++ c) ↔ Chained hash prev a ∧ Chained hash (tail prev a) c := by
  induction a generalizing prev with
  | nil => simp [Chained, tail]
  | cons l a ih => simp only [List.cons_append, Chained, tail, ih, and_assoc]

theorem same_tail_ends (a : List (Link H B)) {p q : H} {c : List (Link H B)}
    (ha : Chained hash p a) (hc : Chained hash q c) (htail : tail p a = tail q c)
    (hinj : Set.InjOn (fun x : H × B => hash x.1 x.2) {x | x ∈ inputs p a ∨ x ∈ inputs q c}) :
    (∃ x, c = x ++ a ∧ tail q x = p) ∨ ∃ x, a = x ++ c ∧ tail p x = q := by
  induction a using List.reverseRecOn generalizing c with
  | nil => exact Or.inl ⟨c, by simp, htail.symm⟩
  | append_singleton a l ih =>
    rcases List.eq_nil_or_concat c with rfl | ⟨c, m, rfl⟩
    · exact Or.inr ⟨a ++ [l], by simp, htail⟩
    · rw [List.concat_eq_append] at hc htail hinj ⊢
      obtain ⟨hfront, hl, -⟩ := chained_append.mp ha
      obtain ⟨hfront', hm, -⟩ := chained_append.mp hc
      rw [tail_concat, tail_concat] at htail
      -- the two last links are hashed from one input
      have hsame : (tail p a, l.body) = (tail q c, m.body) := by
        refine hinj (Or.inl ?_) (Or.inr ?_) (hl.symm.trans (htail.trans hm))
        · simp [inputs_append, inputs]
        · simp [inputs_append, inputs]
      obtain ⟨hprev, hbody⟩ := Prod.mk.inj hsame
      have hlm : l = m := by
        cases l
        cases m
        simp_all
      subst hlm
      have hsub : {x | x ∈ inputs p a ∨ x ∈ inputs q c} ⊆
          {x | x ∈ inputs p (a ++ [l]) ∨ x ∈ inputs q (c ++ [l])} := by
        intro x hx
        rcases hx with hx | hx
        · exact Or.inl (by simp [inputs_append, hx])
        · exact Or.inr (by simp [inputs_append, hx])
      rcases ih hfront hfront' hprev (hinj.mono hsub) with ⟨x, rfl, hx⟩ | ⟨x, rfl, hx⟩
      · exact Or.inl ⟨x, by simp, hx⟩
      · exact Or.inr ⟨x, by simp, hx⟩

end NetRuleRouter.HashChains
