import Mathlib

/-!
# Tables that keep the strongest entry of each key

A table holds at most one value per key and a new value replaces the held
one only when it is greater. However the entries come in, what a key ends up
with is the greatest value ever entered for it.
-/

set_option autoImplicit false

namespace NetRuleRouter.StrongestTable

variable {κ α : Type*} [DecidableEq κ]

abbrev Table (κ α : Type*) := List (κ × α)

def valueAt : Table κ α → κ → Option α
  | [], _ => none
  | (j, b) :: t, k => if j = k then some b else valueAt t k

variable {t : Table κ α} {k : κ} {a : α}

theorem value_at_mem (h : valueAt t k = some a) : (k, a) ∈ t := by
  induction t with
  | nil => simp [valueAt] at h
  | cons e t ih =>
    obtain ⟨j, b⟩ := e
    rw [valueAt] at h
    by_cases hj : j = k
    · rw [if_pos hj, Option.some.injEq] at h
      simp [hj, h]
    · rw [if_neg hj] at h
      exact List.mem_cons_of_mem _ (ih h)

theorem mem_keys : k ∈ t.map Prod.fst ↔ (valueAt t k).isSome = true := by
  induction t with
  | nil => simp [valueAt]
  | cons e t ih =>
    obtain ⟨j, b⟩ := e
    rw [List.map_cons, List.mem_cons, ih, valueAt]
    by_cases hj : j = k
    · simp [hj]
    · simp [hj, Ne.symm hj]

theorem value_at_of_mem (hkeys : (t.map Prod.fst).Nodup) (h : (k, a) ∈ t) :
    valueAt t k = some a := by
  induction t with
  | nil => simp at h
  | cons e t ih =>
    obtain ⟨j, b⟩ := e
    rw [List.map_cons, List.nodup_cons] at hkeys
    rw [valueAt]
    rcases List.mem_cons.mp h with heq | hmem
    · simp [(Prod.mk.inj heq).1, (Prod.mk.inj heq).2]
    · rw [if_neg, ih hkeys.2 hmem]
      intro hj
      exact hkeys.1 (List.mem_map.mpr ⟨(k, a), hmem, hj.symm⟩)

variable [LinearOrder α] {s : Set α} {o : Option α}

def raise : Table κ α → κ → α → Table κ α
  | [], k, a => [(k, a)]
  | (j, b) :: t, k, a => if j = k then (j, max b a) :: t else (j, b) :: raise t k a

def raiseAll (entries : List (κ × α)) : Table κ α :=
  entries.foldl (fun t e => raise t e.1 e.2) []

def Strongest (s : Set α) : Option α → Prop
  | none => s = ∅
  | some a => IsGreatest s a

omit [DecidableEq κ] in
theorem strongest_unique {p : Option α} (ho : Strongest s o) (hp : Strongest s p) : o = p := by
  cases o with
  | none =>
    cases p with
    | none => rfl
    | some b => exact absurd hp.1 (by rw [show s = ∅ from ho]; simp)
  | some a =>
    cases p with
    | none => exact absurd ho.1 (by rw [show s = ∅ from hp]; simp)
    | some b => rw [IsGreatest.unique ho hp]

omit [DecidableEq κ] in
theorem strongest_ge (h : Strongest s o) {a : α} (ha : a ∈ s) :
    ∃ b, o = some b ∧ a ≤ b := by
  cases o with
  | none => exact absurd ha (by rw [show s = ∅ from h]; simp)
  | some b => exact ⟨b, rfl, h.2 ha⟩

theorem strongest_insert (ho : Strongest s o) (a : α) :
    Strongest (insert a s) (some ((o.map (max · a)).getD a)) := by
  cases o with
  | none =>
    rw [show s = ∅ from ho]
    exact ⟨by simp, by simp [upperBounds]⟩
  | some b =>
    rw [Option.map_some, Option.getD_some, max_comm]
    exact IsGreatest.insert a ho

theorem value_at_raise (t : Table κ α) (k : κ) (a : α) (j : κ) :
    valueAt (raise t k a) j =
      if k = j then some (((valueAt t k).map (max · a)).getD a) else valueAt t j := by
  induction t with
  | nil => simp [raise, valueAt]
  | cons e t ih =>
    obtain ⟨i, b⟩ := e
    by_cases hik : i = k
    · subst hik
      by_cases hij : i = j
      · simp [raise, valueAt, hij]
      · simp [raise, valueAt, hij]
    · by_cases hij : i = j
      · subst hij
        simp [raise, valueAt, hik, Ne.symm hik]
      · simp [raise, valueAt, hik, hij, ih]

theorem raise_all_strongest (entries : List (κ × α)) (k : κ) :
    Strongest {a | (k, a) ∈ entries} (valueAt (raiseAll entries) k) := by
  have hstep (t : Table κ α) (s : Set α) (h : Strongest s (valueAt t k)) :
      Strongest (s ∪ {a | (k, a) ∈ entries})
        (valueAt (entries.foldl (fun t e => raise t e.1 e.2) t) k) := by
    induction entries generalizing t s with
    | nil => simpa using h
    | cons e entries ih =>
      obtain ⟨j, b⟩ := e
      by_cases hjk : j = k
      · subst hjk
        have hraise : Strongest (insert b s) (valueAt (raise t j b) j) := by
          rw [value_at_raise, if_pos rfl]
          exact strongest_insert h b
        have hset : s ∪ {a | (j, a) ∈ (j, b) :: entries} =
            insert b s ∪ {a | (j, a) ∈ entries} := by
          ext a
          simp only [Set.mem_union, Set.mem_ofPred_eq, List.mem_cons, Prod.mk.injEq, true_and,
            Set.mem_insert_iff]
          tauto
        rw [hset]
        exact ih _ _ hraise
      · have hraise : Strongest s (valueAt (raise t j b) k) := by
          rw [value_at_raise, if_neg hjk]
          exact h
        have hset : {a | (k, a) ∈ (j, b) :: entries} = {a | (k, a) ∈ entries} := by
          ext a
          simp [Ne.symm hjk]
        rw [hset]
        exact ih _ _ hraise
  simpa [raiseAll] using hstep [] ∅ rfl

theorem raise_keys (t : Table κ α) (k : κ) (a : α) :
    (raise t k a).map Prod.fst =
      if k ∈ t.map Prod.fst then t.map Prod.fst else t.map Prod.fst ++ [k] := by
  induction t with
  | nil => simp [raise]
  | cons e t ih =>
    obtain ⟨j, b⟩ := e
    rw [raise]
    by_cases hj : j = k
    · simp [hj]
    · rw [if_neg hj, List.map_cons, ih, List.map_cons]
      by_cases hk : k ∈ t.map Prod.fst
      · rw [if_pos hk, if_pos (List.mem_cons_of_mem _ hk)]
      · rw [if_neg hk, if_neg (List.not_mem_cons_of_ne_of_not_mem (Ne.symm hj) hk),
          List.cons_append]

theorem raise_all_nodup (entries : List (κ × α)) : ((raiseAll entries).map Prod.fst).Nodup := by
  have hrun (t : Table κ α) (h : (t.map Prod.fst).Nodup) :
      ((entries.foldl (fun t e => raise t e.1 e.2) t).map Prod.fst).Nodup := by
    induction entries generalizing t with
    | nil => exact h
    | cons e entries ih =>
      apply ih
      rw [raise_keys]
      split
      · exact h
      · rename_i hnew
        rw [List.nodup_append]
        refine ⟨h, by simp, fun a ha c hc hac => hnew ?_⟩
        rwa [← List.mem_singleton.mp hc, ← hac]
  exact hrun [] (by simp)

theorem mem_raise_all {entries : List (κ × α)} :
    (k, a) ∈ raiseAll entries ↔ valueAt (raiseAll entries) k = some a :=
  ⟨value_at_of_mem (raise_all_nodup entries), value_at_mem⟩

end NetRuleRouter.StrongestTable
