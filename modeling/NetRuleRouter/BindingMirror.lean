import NetRuleRouter.BindingRuns

/-!
# The copy an observer keeps of the bindings

The allocator reports each change of the map to a registered observer, which
replays it onto its own copy. The copy follows the map through every call that
reports what it does. Dropping every binding reports nothing, so the copy
keeps them.
-/

set_option autoImplicit false

namespace NetRuleRouter.BindingMirror
open TextOps Lookups FakeIpAllocator BindingInvariant BindingRuns

def applyChange (m : Text → Option ℕ) : BindingChange → Text → Option ℕ
  | .bound domain index => fun d =>
      if d = domain then some index else if m d = some index then none else m d
  | .released index => fun d => if m d = some index then none else m d

def replay (m : Text → Option ℕ) (changes : List BindingChange) : Text → Option ℕ :=
  changes.foldl applyChange m

def reports (s : Allocator) : List Call → List BindingChange
  | [] => []
  | c :: calls => (step s c).2 ++ reports (step s c).1 calls

def held (s : Allocator) (d : Text) : Option ℕ := s.byDomain.lookup d

theorem reports_append (s : Allocator) (calls later : List Call) :
    reports s (calls ++ later) = reports s calls ++ reports (run s calls) later := by
  induction calls generalizing s with
  | nil => rfl
  | cons c calls ih => simp only [List.cons_append, reports, ih, List.append_assoc, run]

theorem replay_append (m : Text → Option ℕ) (changes later : List BindingChange) :
    replay m (changes ++ later) = replay (replay m changes) later :=
  List.foldl_append

theorem held_touch (s : Allocator) (index now : ℕ) : held (touch s index now) = held s := by
  funext d
  unfold touch
  split <;> rfl

variable {s : Allocator} {index : ℕ} {slot : Slot}

theorem held_iff_domain (h : Linked s) (hi : s.byIndex.lookup index = some slot) (d : Text) :
    held s d = some index ↔ d = slot.domain := by
  rw [held, h.paired d index, hi]
  simp [eq_comm]

theorem held_takes {taken : Allocator} {checked : ℕ} (h : Sound s)
    (ht : Takes s checked taken index) (d : Text) :
    held taken d = if held s d = some index then none else held s d := by
  have hfree (hnone : s.byIndex.lookup index = none) : held s d ≠ some index := by
    rw [held, Ne, h.linked.paired d index]
    rintro ⟨slot, hs, -⟩
    rw [hnone] at hs
    cases hs
  obtain ⟨-, -, hnone, -, -⟩ := takes_dealt h ht
  cases ht with
  | reused rest index hf =>
    rw [if_neg (hfree hnone)]
    rfl
  | fresh hf hlast =>
    rw [if_neg (hfree hnone)]
    rfl
  | recycled slot index hi hidle hleast =>
    rw [held, unseat, lookup_erase]
    simp only [held_iff_domain h.linked hi]
    rfl

theorem held_give_back (h : Linked s) (hi : s.byIndex.lookup index = some slot) :
    held (giveBack s slot index) = applyChange (held s) (.released index) := by
  funext d
  rw [held, giveBack, unseat, lookup_erase, applyChange]
  simp only [held_iff_domain h hi]
  rfl

theorem moves_mirrored {s' : Allocator} {c : Call} {changes : List BindingChange} {used : List ℕ}
    (h : Sound s) (hm : Moves s c s' changes used) (hclear : c ≠ .clear)
    (hrestore : ∀ rows, c ≠ .restore rows) : held s' = replay (held s) changes := by
  cases hm with
  | stays c => rfl
  | touched c index now hnow => exact held_touch s index now
  | seated domain checked now taken index hk ht =>
    funext d
    have htaken := held_takes h ht d
    simp only [replay, List.foldl_cons, List.foldl_nil, applyChange]
    by_cases hd : d = normalizeHostname domain
    · subst hd
      simp [held, seat]
    · rw [if_neg hd, ← htaken]
      simp [held, seat, hd, insertSlot]
  | gaveBack c slot index hi hask => exact held_give_back h.linked hi
  | restored rows => exact absurd rfl (hrestore rows)
  | cleared => exact absurd rfl hclear

def Mirrored (s : Allocator) (calls : List Call) : Prop :=
  ∀ done, done <+: calls → replay (held s) (reports s done) = held (run s done)

def ClearsNothing (s : Allocator) (calls : List Call) : Prop :=
  ∀ done, done ++ [.clear] <+: calls → ∀ d, held (run s done) d = none

theorem mirrored_of_clears_nothing (h : Sound s) {calls : List Call}
    (hrestore : ∀ rows, .restore rows ∉ calls) (hclear : ClearsNothing s calls) :
    Mirrored s calls := by
  intro done
  induction done using List.reverseRecOn with
  | nil => exact fun _ => rfl
  | append_singleton done c ih =>
    intro hpre
    have hdone : done <+: calls := (List.prefix_append done [c]).trans hpre
    have hc : c ∈ calls := hpre.subset (by simp)
    rw [reports_append, replay_append, ih hdone, run_append]
    simp only [reports, List.append_nil, run]
    by_cases hcc : c = .clear
    · subst hcc
      funext d
      exact hclear done hpre d
    · have hdone := sound_run h done
      refine (moves_mirrored hdone (step_moves hdone c) hcc ?_).symm
      rintro rows rfl
      exact hrestore rows hc

/-- Registered at any moment of an allocator's life, the observer's copy stays the map through
a sequence of calls without a restore exactly when no call drops bindings all at once. -/
theorem mirror_faithful_iff (config : FakeIpPoolConfig) (idle : ℕ) (before calls : List Call)
    (hrestore : ∀ rows, .restore rows ∉ calls) :
    let s := run (withMinRecycleIdle (new config) idle) before
    Mirrored s calls ↔ ClearsNothing s calls := by
  intro s
  have h : Sound s := sound_run (sound_new config idle) before
  constructor
  · intro hm done hpre d
    have hdone := hm done ((List.prefix_append done [.clear]).trans hpre)
    have hafter := hm (done ++ [.clear]) hpre
    rw [reports_append, replay_append, hdone, run_append] at hafter
    exact congrFun hafter d
  · exact mirrored_of_clears_nothing h hrestore

/-- One name allocated and released again. -/
theorem mirror_faithful_iff_released :
    Mirrored (run (withMinRecycleIdle (new defaultPool) 0) [])
      [.allocate "a.example".toList 0 0, .release "a.example".toList] :=
  (mirror_faithful_iff defaultPool 0 [] _ (by simp)).mpr (by
    intro done hpre
    have : Call.clear ∈ [Call.allocate "a.example".toList 0 0, .release "a.example".toList] :=
      hpre.subset (by simp)
    simp at this)

/-- A name allocated and then dropped with all others stays in the copy. -/
theorem clear_not_mirrored :
    replay (held (new defaultPool))
        (reports (new defaultPool) [.allocate "a.example".toList 0 0, .clear])
        "a.example".toList = some 2 ∧
      held (run (new defaultPool) [.allocate "a.example".toList 0 0, .clear])
        "a.example".toList = none := by
  decide

end NetRuleRouter.BindingMirror
