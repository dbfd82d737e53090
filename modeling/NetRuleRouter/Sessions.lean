import Mathlib.Tactic

/-!
# Sessions with a store, and runs of a machine

A session reads a store and changes it by statements, each of which commits
at once unless it is part of a transaction. It leaves the list of its commits,
each under a label, so that what is left of it when it is cut short is one of
the stores on that list.

A run of a machine whose steps all meet a condition keeps what every such step
keeps.
-/

set_option autoImplicit false

namespace NetRuleRouter.Sessions

def final {σ ε : Type} (s : σ) (commits : List (ε × σ)) : σ :=
  (commits.getLast?.map Prod.snd).getD s

section Final
variable {σ ε : Type}

@[simp] theorem final_nil (s : σ) : final s ([] : List (ε × σ)) = s := rfl

@[simp] theorem final_cons (s : σ) (c : ε × σ) (cs : List (ε × σ)) :
    final s (c :: cs) = final c.2 cs := by
  cases cs with
  | nil => rfl
  | cons d ds =>
    rw [final, List.getLast?_cons_cons, final]
    cases h : (d :: ds).getLast? with
    | none => simp at h
    | some e => rfl

@[simp] theorem final_append (s : σ) (cs ds : List (ε × σ)) :
    final s (cs ++ ds) = final (final s cs) ds := by
  induction cs generalizing s with
  | nil => rfl
  | cons c cs ih => rw [List.cons_append, final_cons, final_cons, ih]

end Final

structure Ran (σ ε κ β : Type) where
  answer : Except κ β
  commits : List (ε × σ)

structure Session (σ ε κ β : Type) where
  run : σ → Ran σ ε κ β

namespace Session
variable {σ ε κ β γ : Type} {f : β → Session σ ε κ γ} {cs : List (ε × σ)}

def answering (r : Except κ β) : Session σ ε κ β := ⟨fun _ => ⟨r, []⟩⟩

protected def bind (x : Session σ ε κ β) (f : β → Session σ ε κ γ) : Session σ ε κ γ where
  run s :=
    match (x.run s).answer with
    | .error e => ⟨.error e, (x.run s).commits⟩
    | .ok b =>
      let rest := (f b).run (final s (x.run s).commits)
      ⟨rest.answer, (x.run s).commits ++ rest.commits⟩

instance : Monad (Session σ ε κ) where
  pure b := answering (.ok b)
  bind := Session.bind

def fail (e : κ) : Session σ ε κ β := answering (.error e)

def read (f : σ → Except κ β) : Session σ ε κ β := ⟨fun s => ⟨f s, []⟩⟩

def execute (f : σ → Except κ (β × Option (ε × σ))) : Session σ ε κ β where
  run s :=
    match f s with
    | .error e => ⟨.error e, []⟩
    | .ok (b, commit) => ⟨.ok b, commit.toList⟩

def transaction (label : ε) (x : Session σ ε κ β) : Session σ ε κ β where
  run s :=
    match (x.run s).answer with
    | .error e => ⟨.error e, []⟩
    | .ok b => ⟨.ok b, [(label, final s (x.run s).commits)]⟩

def attempt (x : Session σ ε κ β) : Session σ ε κ (Except κ β) where
  run s := ⟨.ok (x.run s).answer, (x.run s).commits⟩

def mapError {κ' : Type} (f : κ → κ') (x : Session σ ε κ β) : Session σ ε κ' β where
  run s := ⟨(x.run s).answer.mapError f, (x.run s).commits⟩

def within {τ : Type} (get : τ → σ) (put : τ → σ → τ) (x : Session σ ε κ β) :
    Session τ ε κ β where
  run t := ⟨(x.run (get t)).answer, (x.run (get t)).commits.map fun c => (c.1, put t c.2)⟩

def after (x : Session σ ε κ β) (s : σ) : σ := final s (x.run s).commits

@[simp] theorem read_run (f : σ → Except κ β) (s : σ) :
    (read f : Session σ ε κ β).run s = ⟨f s, []⟩ := rfl

theorem bind_ok {x : Session σ ε κ β} {s : σ} {b : β} (h : x.run s = ⟨.ok b, cs⟩) :
    (x >>= f).run s = ⟨((f b).run (final s cs)).answer, cs ++ ((f b).run (final s cs)).commits⟩ := by
  change (Session.bind x f).run s = _
  simp only [Session.bind, h]

theorem bind_error {x : Session σ ε κ β} {s : σ} {e : κ}
    (h : x.run s = ⟨.error e, cs⟩) : (x >>= f).run s = ⟨.error e, cs⟩ := by
  change (Session.bind x f).run s = _
  simp only [Session.bind, h]

theorem read_ok {f : σ → Except κ β} {g : β → Session σ ε κ γ} {s : σ} {b : β}
    (h : f s = .ok b) : (read f >>= g).run s = (g b).run s := by
  have hread : (read f : Session σ ε κ β).run s = ⟨.ok b, []⟩ := by rw [read_run, h]
  rw [bind_ok hread]
  rfl

/-- From a store meeting `pre` every commit meets `good`, and the answer and the store left
meet `post`. -/
def Keeps (good : ε → σ → Prop) (pre : σ → Prop) (x : Session σ ε κ β)
    (post : Except κ β → σ → Prop) : Prop :=
  ∀ s, pre s → post (x.run s).answer (x.after s) ∧ ∀ c ∈ (x.run s).commits, good c.1 c.2

variable {good : ε → σ → Prop} {pre : σ → Prop} {x : Session σ ε κ β}
  {post : Except κ β → σ → Prop} {r : Except κ β} {label : ε}

theorem Keeps.weaken {pre' : σ → Prop} {post' : Except κ β → σ → Prop}
    (h : Keeps good pre x post) (hpre : ∀ s, pre' s → pre s)
    (hpost : ∀ r s, post r s → post' r s) : Keeps good pre' x post' := by
  intro s hs
  obtain ⟨hend, hcommits⟩ := h s (hpre s hs)
  exact ⟨hpost _ _ hend, hcommits⟩

theorem Keeps.assume {φ : Prop} (hφ : ∀ s, pre s → φ) (h : φ → Keeps good pre x post) :
    Keeps good pre x post := fun s hs => h (hφ s hs) s hs

theorem keeps_answering (h : ∀ s, pre s → post r s) :
    Keeps good pre (answering r) post := by
  intro s hs
  exact ⟨h s hs, by simp [answering]⟩

theorem keeps_read {f : σ → Except κ β} (h : ∀ s, pre s → post (f s) s) :
    Keeps good pre (read f) post := by
  intro s hs
  exact ⟨h s hs, by simp⟩

theorem keeps_bind {post' : Except κ γ → σ → Prop}
    (hx : Keeps good pre x post) (herror : ∀ e s, post (.error e) s → post' (.error e) s)
    (hf : ∀ b, Keeps good (post (.ok b)) (f b) post') : Keeps good pre (x >>= f) post' := by
  intro s hs
  obtain ⟨hend, hcommits⟩ := hx s hs
  rcases h : x.run s with ⟨_ | b, cs⟩
  · rename_i e
    simp only [after, h] at hend hcommits
    rw [after, bind_error h]
    exact ⟨herror _ _ hend, hcommits⟩
  · simp only [after, h] at hend hcommits
    obtain ⟨hend', hcommits'⟩ := hf b _ hend
    rw [after, bind_ok h, final_append]
    refine ⟨hend', fun c hc => ?_⟩
    rcases List.mem_append.mp hc with hc | hc
    · exact hcommits c hc
    · exact hcommits' c hc

theorem keeps_execute {f : σ → Except κ (β × Option (ε × σ))}
    (herror : ∀ s e, pre s → f s = .error e → post (.error e) s)
    (hsame : ∀ s b, pre s → f s = .ok (b, none) → post (.ok b) s)
    (hcommit : ∀ s b l t, pre s → f s = .ok (b, some (l, t)) → post (.ok b) t ∧ good l t) :
    Keeps good pre (execute f) post := by
  intro s hs
  rcases h : f s with e | ⟨b, _ | ⟨l, t⟩⟩
  · have hrun : (execute f).run s = ⟨.error e, []⟩ := by simp only [execute, h]
    rw [after, hrun]
    exact ⟨herror s e hs h, by simp⟩
  · have hrun : (execute f).run s = ⟨.ok b, []⟩ := by simp only [execute, h, Option.toList_none]
    rw [after, hrun]
    exact ⟨hsame s b hs h, by simp⟩
  · have hrun : (execute f).run s = ⟨.ok b, [(l, t)]⟩ := by simp only [execute, h, Option.toList_some]
    rw [after, hrun]
    obtain ⟨hpost, hgood⟩ := hcommit s b l t hs h
    exact ⟨hpost, by simpa using hgood⟩

theorem keeps_transaction
    (hx : Keeps (fun _ _ => True) pre x fun r s => ∀ b, r = .ok b → post (.ok b) s)
    (herror : ∀ s e, pre s → post (.error e) s)
    (hgood : ∀ s b, post (.ok b) s → good label s) :
    Keeps good pre (transaction label x) post := by
  intro s hs
  obtain ⟨hend, -⟩ := hx s hs
  rcases h : x.run s with ⟨e | b, cs⟩
  · have hrun : (transaction label x).run s = ⟨.error e, []⟩ := by simp only [transaction, h]
    rw [after, hrun]
    exact ⟨herror s e hs, by simp⟩
  · have hrun : (transaction label x).run s = ⟨.ok b, [(label, final s cs)]⟩ := by
      simp only [transaction, h]
    rw [after, h] at hend
    have hpost := hend b rfl
    rw [after, hrun]
    exact ⟨hpost, by simpa using hgood _ b hpost⟩

theorem keeps_map_error {κ' : Type} {f : κ → κ'} {post' : Except κ' β → σ → Prop}
    (hx : Keeps good pre x post) (h : ∀ r s, post r s → post' (r.mapError f) s) :
    Keeps good pre (mapError f x) post' := by
  intro s hs
  obtain ⟨hend, hcommits⟩ := hx s hs
  exact ⟨h _ _ hend, hcommits⟩

section Within
variable {τ : Type} {get : τ → σ} {put : τ → σ → τ} (hget : ∀ t s, get (put t s) = s)
include hget

theorem get_final (t : τ) (cs : List (ε × σ)) :
    get (final t (cs.map fun c => (c.1, put t c.2))) = final (get t) cs := by
  induction cs using List.reverseRecOn with
  | nil => rfl
  | append_singleton cs c _ =>
    rw [List.map_append, List.map_singleton, final_append, final_append, final_cons, final_cons,
      final_nil, final_nil, hget]

theorem get_after (x : Session σ ε κ β) (t : τ) :
    get ((within get put x).after t) = x.after (get t) := get_final hget t _

theorem keeps_within (hx : Keeps good pre x post) :
    Keeps (fun l t => good l (get t)) (fun t => pre (get t)) (within get put x)
      fun r t => post r (get t) := by
  intro t ht
  obtain ⟨hend, hcommits⟩ := hx (get t) ht
  refine ⟨?_, fun c hc => ?_⟩
  · beta_reduce
    rw [get_after hget]
    exact hend
  · obtain ⟨d, hd, rfl⟩ := List.mem_map.mp hc
    dsimp only
    rw [hget]
    exact hcommits d hd

end Within

theorem keeps_attempt {post' : Except κ (Except κ β) → σ → Prop} (hx : Keeps good pre x post)
    (h : ∀ r s, post r s → post' (.ok r) s) : Keeps good pre (attempt x) post' := by
  intro s hs
  obtain ⟨hend, hcommits⟩ := hx s hs
  exact ⟨h _ _ hend, hcommits⟩

section Watching
variable {ν : Type} {step : ν → σ → ε → σ → ν → Prop}

/-- A watcher in state `n` follows every commit and ends in state `m`. -/
inductive Walks (step : ν → σ → ε → σ → ν → Prop) : ν → σ → List (ε × σ) → ν → Prop where
  | nil {n : ν} {s : σ} : Walks step n s [] n
  | cons {n n' m : ν} {s t : σ} {l : ε} {cs : List (ε × σ)} :
      step n s l t n' → Walks step n' t cs m → Walks step n s ((l, t) :: cs) m

theorem Walks.append {n n' m : ν} {s : σ} {ds : List (ε × σ)} (h : Walks step n s cs n')
    (h' : Walks step n' (final s cs) ds m) : Walks step n s (cs ++ ds) m := by
  induction h with
  | nil => exact h'
  | cons hstep _ ih =>
    rw [final_cons] at h'
    exact Walks.cons hstep (ih h')

theorem Walks.take {n m : ν} {s : σ} (h : Walks step n s cs m) (k : ℕ) :
    ∃ n', Walks step n s (cs.take k) n' := by
  induction h generalizing k with
  | nil => exact ⟨_, by simpa using Walks.nil⟩
  | cons hstep _ ih =>
    cases k with
    | zero => exact ⟨_, Walks.nil⟩
    | succ k =>
      obtain ⟨n', hn⟩ := ih k
      exact ⟨n', Walks.cons hstep hn⟩

/-- The watcher can follow the session from any store, and stands where `post` says. -/
def Tracks (step : ν → σ → ε → σ → ν → Prop) (n : ν) (x : Session σ ε κ β)
    (post : Except κ β → ν → Prop) : Prop :=
  ∀ s, ∃ m, Walks step n s (x.run s).commits m ∧ post (x.run s).answer m

variable {n : ν} {seen : Except κ β → ν → Prop}

theorem tracks_answering (h : seen r n) : Tracks step n (answering r) seen :=
  fun _ => ⟨n, Walks.nil, h⟩

theorem tracks_read {f : σ → Except κ β} (h : ∀ s, seen (f s) n) : Tracks step n (read f) seen :=
  fun s => ⟨n, Walks.nil, h s⟩

theorem tracks_bind {seen' : Except κ γ → ν → Prop}
    (hx : Tracks step n x seen) (herror : ∀ e m, seen (.error e) m → seen' (.error e) m)
    (hf : ∀ b m, seen (.ok b) m → Tracks step m (f b) seen') : Tracks step n (x >>= f) seen' := by
  intro s
  obtain ⟨m, hwalk, hseen⟩ := hx s
  rcases h : x.run s with ⟨e | b, cs⟩
  · simp only [h] at hwalk hseen
    rw [bind_error h]
    exact ⟨m, hwalk, herror e m hseen⟩
  · simp only [h] at hwalk hseen
    obtain ⟨m', hwalk', hseen'⟩ := hf b m hseen (final s cs)
    rw [bind_ok h]
    exact ⟨m', hwalk.append hwalk', hseen'⟩

theorem tracks_execute {f : σ → Except κ (β × Option (ε × σ))}
    (herror : ∀ s e, f s = .error e → seen (.error e) n)
    (hsame : ∀ s b, f s = .ok (b, none) → seen (.ok b) n)
    (hcommit : ∀ s b l t, f s = .ok (b, some (l, t)) → ∃ m, step n s l t m ∧ seen (.ok b) m) :
    Tracks step n (execute f) seen := by
  intro s
  rcases h : f s with e | ⟨b, _ | ⟨l, t⟩⟩
  · have hrun : (execute f).run s = ⟨.error e, []⟩ := by simp only [execute, h]
    rw [hrun]
    exact ⟨n, Walks.nil, herror s e h⟩
  · have hrun : (execute f).run s = ⟨.ok b, []⟩ := by simp only [execute, h, Option.toList_none]
    rw [hrun]
    exact ⟨n, Walks.nil, hsame s b h⟩
  · have hrun : (execute f).run s = ⟨.ok b, [(l, t)]⟩ := by simp only [execute, h, Option.toList_some]
    obtain ⟨m, hstep, hseen⟩ := hcommit s b l t h
    rw [hrun]
    exact ⟨m, Walks.cons hstep Walks.nil, hseen⟩

theorem tracks_transaction (herror : ∀ e, seen (.error e) n)
    (hcommit : ∀ s b, (x.run s).answer = .ok b → ∃ m, step n s label (x.after s) m ∧ seen (.ok b) m) :
    Tracks step n (transaction label x) seen := by
  intro s
  rcases h : x.run s with ⟨e | b, cs⟩
  · have hrun : (transaction label x).run s = ⟨.error e, []⟩ := by simp only [transaction, h]
    rw [hrun]
    exact ⟨n, Walks.nil, herror e⟩
  · have hrun : (transaction label x).run s = ⟨.ok b, [(label, x.after s)]⟩ := by
      simp only [transaction, after, h]
    obtain ⟨m, hstep, hseen⟩ := hcommit s b (by rw [h])
    rw [hrun]
    exact ⟨m, Walks.cons hstep Walks.nil, hseen⟩

theorem tracks_map_error {κ' : Type} {f : κ → κ'} {seen' : Except κ' β → ν → Prop}
    (hx : Tracks step n x seen) (h : ∀ r m, seen r m → seen' (r.mapError f) m) :
    Tracks step n (mapError f x) seen' := by
  intro s
  obtain ⟨m, hwalk, hseen⟩ := hx s
  exact ⟨m, hwalk, h _ m hseen⟩

theorem tracks_attempt {seen' : Except κ (Except κ β) → ν → Prop} (hx : Tracks step n x seen)
    (h : ∀ r m, seen r m → seen' (.ok r) m) : Tracks step n (attempt x) seen' := by
  intro s
  obtain ⟨m, hwalk, hseen⟩ := hx s
  exact ⟨m, hwalk, h _ m hseen⟩

section Within
variable {τ : Type} {get : τ → σ} {put : τ → σ → τ} (hget : ∀ t s, get (put t s) = s)
include hget

theorem walks_within {m : ν} {s : σ} (h : Walks step n s cs m) (t u : τ)
    (hu : get u = s) : Walks (fun n t l t' m => step n (get t) l (get t') m) n u
      (cs.map fun c => (c.1, put t c.2)) m := by
  induction h generalizing u with
  | nil => exact Walks.nil
  | @cons n n' m s s' l cs hstep _ ih =>
    refine Walks.cons ?_ (ih (put t s') (hget t s'))
    rw [hu, hget]
    exact hstep

theorem tracks_within (hx : Tracks step n x seen) :
    Tracks (fun n t l t' m => step n (get t) l (get t') m) n (within get put x) seen := by
  intro t
  obtain ⟨m, hwalk, hseen⟩ := hx (get t)
  exact ⟨m, walks_within hget hwalk t t rfl, hseen⟩

end Within

end Watching

end Session

end NetRuleRouter.Sessions

namespace NetRuleRouter.Runs

variable {σ α : Type}

/-- What a run from `start` whose steps all meet the condition arrives at. -/
inductive Reached (step : σ → α → Option σ) (Allowed : σ → α → Prop) (start : σ) : σ → Prop where
  | rest : Reached step Allowed start start
  | next {s t : σ} {a : α} : Reached step Allowed start s → Allowed s a → step s a = some t →
      Reached step Allowed start t

variable {step : σ → α → Option σ} {Allowed : σ → α → Prop} {start s : σ}

theorem Reached.keeps {Inv : σ → Prop} (h : Reached step Allowed start s) (hstart : Inv start)
    (hstep : ∀ s a t, Inv s → Allowed s a → step s a = some t → Inv t) : Inv s := by
  induction h with
  | rest => exact hstart
  | next _ hallowed ht ih => exact hstep _ _ _ ih hallowed ht

def runActions (step : σ → α → Option σ) (s : σ) (actions : List α) : Option σ :=
  actions.foldlM step s

theorem Reached.of_run (h : Reached step Allowed start s) {actions : List α} {t : σ}
    (hallowed : ∀ s, ∀ a ∈ actions, Allowed s a) (ht : runActions step s actions = some t) :
    Reached step Allowed start t := by
  induction actions generalizing s with
  | nil =>
    cases ht
    exact h
  | cons a actions ih =>
    rw [runActions, List.foldlM_cons] at ht
    obtain ⟨u, hu, ht⟩ := Option.bind_eq_some_iff.mp ht
    exact ih (h.next (hallowed s a (by simp)) hu) (fun s b hb => hallowed s b (by simp [hb])) ht

end NetRuleRouter.Runs
