import NetRuleRouter.Sessions

/-!
# Programs that share a store

A program holds the store's lock for one session at a time; between sessions
it asks its surroundings for what it cannot know, and other programs may change
everything. Several programs run in one process, which may be lost at any
commit; what then stands in the store stays, and every program is gone.
-/

set_option autoImplicit false

namespace NetRuleRouter.LockedPrograms
open Sessions Runs

/-- A section under the lock is known by the commits it makes from a store; what the program
does next may depend on all it read there. -/
inductive Program (σ ε Q : Type) (A : Q → Type) (κ α : Type) : Type where
  | done (r : Except κ α)
  | ask (q : Q) (next : A q → Program σ ε Q A κ α)
  | locked (commits : σ → List (ε × σ)) (next : σ → Program σ ε Q A κ α)

namespace Program
variable {σ ε Q : Type} {A : Q → Type} {κ α β : Type} {f : α → Program σ ε Q A κ β}
variable {x : Session σ ε κ α}

protected def bind : Program σ ε Q A κ α → (α → Program σ ε Q A κ β) → Program σ ε Q A κ β
  | done (.ok a), f => f a
  | done (.error e), _ => done (.error e)
  | ask q next, f => ask q fun a => (next a).bind f
  | locked commits next, f => locked commits fun s => (next s).bind f

instance : Monad (Program σ ε Q A κ) where
  pure a := done (.ok a)
  bind := Program.bind

def fail (e : κ) : Program σ ε Q A κ α := done (.error e)

def query (q : Q) : Program σ ε Q A κ (A q) := ask q fun a => done (.ok a)

def attempt : Program σ ε Q A κ α → Program σ ε Q A κ (Except κ α)
  | done r => done (.ok r)
  | ask q next => ask q fun a => (next a).attempt
  | locked commits next => locked commits fun s => (next s).attempt

def session (x : Session σ ε κ α) : Program σ ε Q A κ α :=
  locked (fun s => (x.run s).commits) fun s => done (x.run s).answer

def forEach (f : α → Program σ ε Q A κ β) : List α → Program σ ε Q A κ (List β)
  | [] => pure []
  | a :: rest => do
    let b ← f a
    let bs ← forEach f rest
    pure (b :: bs)

/-- Every session, from a store meeting `inv`, leaves one meeting it, by commits that are
`good`. -/
def Keeps (inv : σ → Prop) (good : ε → σ → Prop) : Program σ ε Q A κ α → Prop
  | done _ => True
  | ask _ next => ∀ a, (next a).Keeps inv good
  | locked commits next =>
    (∀ s, inv s → inv (final s (commits s)) ∧ ∀ c ∈ commits s, good c.1 c.2) ∧
      ∀ s, (next s).Keeps inv good

section Keeping
variable {inv : σ → Prop} {good : ε → σ → Prop} {p : Program σ ε Q A κ α}

theorem keeps_bind (hp : p.Keeps inv good)
    (hf : ∀ a, (f a).Keeps inv good) : (p >>= f).Keeps inv good := by
  induction p with
  | done r =>
    cases r with
    | error e => trivial
    | ok a => exact hf a
  | ask q next ih => exact fun a => ih a (hp a)
  | locked commits next ih => exact ⟨hp.1, fun s => ih s (hp.2 s)⟩

theorem keeps_query (q : Q) : (query q : Program σ ε Q A κ (A q)).Keeps inv good :=
  fun _ => trivial

theorem keeps_attempt (hp : p.Keeps inv good) : p.attempt.Keeps inv good := by
  induction p with
  | done r => trivial
  | ask q next ih => exact fun a => ih a (hp a)
  | locked commits next ih => exact ⟨hp.1, fun s => ih s (hp.2 s)⟩

theorem keeps_session (h : x.Keeps good inv fun _ s => inv s) :
    (session x : Program σ ε Q A κ α).Keeps inv good :=
  ⟨h, fun _ => trivial⟩

end Keeping

section Watching
variable {ν : Type} {step : ν → σ → ε → σ → ν → Prop}

def Tracks (step : ν → σ → ε → σ → ν → Prop) :
    ν → Program σ ε Q A κ α → (Except κ α → ν → Prop) → Prop
  | n, done r, post => post r n
  | n, ask _ next, post => ∀ a, Tracks step n (next a) post
  | n, locked commits next, post =>
    ∀ s, ∃ m, Session.Walks step n s (commits s) m ∧ Tracks step m (next s) post

variable {n : ν} {p : Program σ ε Q A κ α} {post : Except κ α → ν → Prop}

theorem tracks_bind {post' : Except κ β → ν → Prop}
    (hp : Tracks step n p post) (herror : ∀ e m, post (.error e) m → post' (.error e) m)
    (hf : ∀ a m, post (.ok a) m → Tracks step m (f a) post') : Tracks step n (p >>= f) post' := by
  induction p generalizing n with
  | done r =>
    cases r with
    | error e => exact herror e n hp
    | ok a => exact hf a n hp
  | ask q next ih => exact fun a => ih a (hp a)
  | locked commits next ih =>
    intro s
    obtain ⟨m, hwalk, hnext⟩ := hp s
    exact ⟨m, hwalk, ih s hnext⟩

theorem Tracks.weaken {post' : Except κ α → ν → Prop} (hp : Tracks step n p post)
    (h : ∀ r m, post r m → post' r m) : Tracks step n p post' := by
  induction p generalizing n with
  | done r => exact h r n hp
  | ask q next ih => exact fun a => ih a (hp a)
  | locked commits next ih =>
    intro s
    obtain ⟨m, hwalk, hnext⟩ := hp s
    exact ⟨m, hwalk, ih s hnext⟩

theorem tracks_attempt {post' : Except κ (Except κ α) → ν → Prop} (hp : Tracks step n p post)
    (h : ∀ r m, post r m → post' (.ok r) m) : Tracks step n p.attempt post' := by
  induction p generalizing n with
  | done r => exact h r n hp
  | ask q next ih => exact fun a => ih a (hp a)
  | locked commits next ih =>
    intro s
    obtain ⟨m, hwalk, hnext⟩ := hp s
    exact ⟨m, hwalk, ih s hnext⟩

theorem tracks_session (hx : x.Tracks step n post) :
    Tracks step n (session x : Program σ ε Q A κ α) post := hx

end Watching

end Program

section Pool
variable {σ ε Q : Type} {A : Q → Type} {κ γ : Type}

/-- The store, the calls made so far, what is left of each, and the commits of them all with
the newest first. -/
structure Pool (σ ε Q : Type) (A : Q → Type) (κ : Type) where
  store : σ
  started : ℕ
  calls : ℕ → Option (Program σ ε Q A κ Unit)
  trace : List (ℕ × ε)

inductive Act (Q : Type) (A : Q → Type) (γ : Type) where
  | start (call : γ)
  | answer (i : ℕ) (a : (q : Q) → A q)
  | run (i : ℕ)
  /-- The process is lost when a session has made its first `n` commits. -/
  | lose (i n : ℕ)
  /-- The process is lost between sessions. -/
  | stop

def fresh (s : σ) : Pool σ ε Q A κ := ⟨s, 0, fun _ => none, []⟩

def noted (i : ℕ) (commits : List (ε × σ)) (trace : List (ℕ × ε)) : List (ℕ × ε) :=
  commits.foldl (fun trace c => (i, c.1) :: trace) trace

theorem noted_eq (i : ℕ) (commits : List (ε × σ)) (trace : List (ℕ × ε)) :
    noted i commits trace = (commits.map fun c => (i, c.1)).reverse ++ trace := by
  induction commits generalizing trace with
  | nil => rfl
  | cons c cs ih =>
    rw [noted, List.foldl_cons]
    exact (ih _).trans (by simp)

variable (programs : γ → Program σ ε Q A κ Unit) (restart : σ → σ)

def step (p : Pool σ ε Q A κ) : Act Q A γ → Option (Pool σ ε Q A κ)
  | .start call =>
    some { p with started := p.started + 1,
                  calls := Function.update p.calls p.started (some (programs call)) }
  | .answer i a =>
    match p.calls i with
    | some (.ask q next) => some { p with calls := Function.update p.calls i (some (next (a q))) }
    | _ => none
  | .run i =>
    match p.calls i with
    | some (.locked commits next) =>
      some { p with store := final p.store (commits p.store)
                    calls := Function.update p.calls i (some (next p.store))
                    trace := noted i (commits p.store) p.trace }
    | _ => none
  | .lose i n =>
    match p.calls i with
    | some (.locked commits _) =>
      let done := (commits p.store).take n
      some { p with store := restart (final p.store done)
                    calls := fun _ => none
                    trace := noted i done p.trace }
    | _ => none
  | .stop => some { p with store := restart p.store, calls := fun _ => none }

def lostAfter (p : Pool σ ε Q A κ) : Act Q A γ → Option ε
  | .lose i n =>
    match p.calls i with
    | some (.locked commits _) => ((commits p.store).take n).getLast?.map Prod.fst
    | _ => none
  | _ => none

variable {programs restart} {cut : ε → Prop} {a : Act Q A γ}

inductive Stepped (programs : γ → Program σ ε Q A κ Unit) (restart : σ → σ)
    (p : Pool σ ε Q A κ) : Act Q A γ → Pool σ ε Q A κ → Prop
  | start (call : γ) : Stepped programs restart p (.start call) { p with
      started := p.started + 1
      calls := Function.update p.calls p.started (some (programs call)) }
  | answer {i : ℕ} {f : (q : Q) → A q} {q : Q} {next : A q → Program σ ε Q A κ Unit}
      (hcall : p.calls i = some (.ask q next)) : Stepped programs restart p (.answer i f)
      { p with calls := Function.update p.calls i (some (next (f q))) }
  | run {i : ℕ} {commits : σ → List (ε × σ)} {next : σ → Program σ ε Q A κ Unit}
      (hcall : p.calls i = some (.locked commits next)) : Stepped programs restart p (.run i)
      { p with
        store := final p.store (commits p.store)
        calls := Function.update p.calls i (some (next p.store))
        trace := noted i (commits p.store) p.trace }
  | lose {i n : ℕ} {commits : σ → List (ε × σ)} {next : σ → Program σ ε Q A κ Unit}
      (hcall : p.calls i = some (.locked commits next)) : Stepped programs restart p (.lose i n)
      { p with
        store := restart (final p.store ((commits p.store).take n))
        calls := fun _ => none
        trace := noted i ((commits p.store).take n) p.trace }
  | stop : Stepped programs restart p .stop
      { p with store := restart p.store, calls := fun _ => none }

theorem step_stepped {p p' : Pool σ ε Q A κ}
    (h : step programs restart p a = some p') : Stepped programs restart p a p' := by
  unfold step at h
  split at h
  · cases h
    exact .start _
  · split at h
    · rename_i hcall
      cases h
      exact .answer hcall
    · cases h
  · split at h
    · rename_i hcall
      cases h
      exact .run hcall
    · cases h
  · split at h
    · rename_i hcall
      cases h
      exact .lose hcall
    · cases h
  · cases h
    exact .stop

theorem put_call {P : ℕ → Program σ ε Q A κ Unit → Prop}
    {calls : ℕ → Option (Program σ ε Q A κ Unit)} {i : ℕ} {r : Program σ ε Q A κ Unit}
    (hr : P i r) (hcalls : ∀ j q, j ≠ i → calls j = some q → P j q) (j : ℕ)
    (q : Program σ ε Q A κ Unit) (hq : Function.update calls i (some r) j = some q) : P j q := by
  by_cases hij : j = i
  · subst hij
    rw [Function.update_self] at hq
    cases hq
    exact hr
  · rw [Function.update_of_ne hij] at hq
    exact hcalls j q hij hq

variable {inv : σ → Prop} {good : ε → σ → Prop} {s : σ} {p p' : Pool σ ε Q A κ}

theorem cut_keeps {commits : List (ε × σ)} (hs : inv s) (hcommits : ∀ c ∈ commits, good c.1 c.2)
    (hgood : ∀ l s, good l s → cut l → inv s)
    (hcut : ∀ l, commits.getLast?.map Prod.fst = some l → cut l) : inv (final s commits) := by
  induction commits using List.reverseRecOn with
  | nil => exact hs
  | append_singleton cs c _ =>
    rw [final_append, final_cons, final_nil]
    exact hgood c.1 c.2 (hcommits c (by simp)) (hcut c.1 (by simp))

structure KeptPool (inv : σ → Prop) (good : ε → σ → Prop) (p : Pool σ ε Q A κ) : Prop where
  store : inv p.store
  calls : ∀ i q, p.calls i = some q → q.Keeps inv good

theorem kept_step (hprograms : ∀ call, (programs call).Keeps inv good)
    (hrestart : ∀ s, inv s → inv (restart s)) (hgood : ∀ l s, good l s → cut l → inv s)
    (h : KeptPool inv good p) (hcut : ∀ l, lostAfter p a = some l → cut l)
    (hp : step programs restart p a = some p') : KeptPool inv good p' := by
  have hput (i : ℕ) (r : Program σ ε Q A κ Unit) (hr : r.Keeps inv good) :=
    @put_call σ ε Q A κ (fun _ q => q.Keeps inv good) p.calls i r hr fun j q _ => h.calls j q
  cases step_stepped hp with
  | start call => exact ⟨h.store, hput _ _ (hprograms call)⟩
  | answer hcall => exact ⟨h.store, hput _ _ (h.calls _ _ hcall _)⟩
  | run hcall =>
    obtain ⟨hsection, hnext⟩ := h.calls _ _ hcall
    exact ⟨(hsection _ h.store).1, hput _ _ (hnext p.store)⟩
  | lose hcall =>
    obtain ⟨hsection, -⟩ := h.calls _ _ hcall
    refine ⟨hrestart _ (cut_keeps h.store (fun c hc => ?_) hgood fun l hl => hcut l ?_), nofun⟩
    · exact (hsection _ h.store).2 c (List.mem_of_mem_take hc)
    · simpa only [lostAfter, hcall] using hl
  | stop => exact ⟨hrestart _ h.store, nofun⟩

theorem pool_keeps (hprograms : ∀ call, (programs call).Keeps inv good)
    (hrestart : ∀ s, inv s → inv (restart s)) (hgood : ∀ l s, good l s → cut l → inv s) (hs : inv s)
    (h : Reached (step programs restart) (fun p a => ∀ l, lostAfter p a = some l → cut l)
      (fresh s) p) : inv p.store := by
  have hstart : KeptPool inv good (fresh s : Pool σ ε Q A κ) := ⟨hs, nofun⟩
  exact (h.keeps hstart fun _ _ _ hkept hcut hp =>
    kept_step hprograms hrestart hgood hkept hcut hp).store

section Watching
variable {ν : Type} {n : ν} {watch : ν → σ → ε → σ → ν → Prop}
  {T : List (ℕ × ε) → σ → (ℕ → ν) → Prop}

theorem noted_walks (hcommit : ∀ tr s g i l t m, T tr s g → watch (g i) s l t m →
      T ((i, l) :: tr) t (Function.update g i m))
    {i : ℕ} {m : ν} {s : σ} {cs : List (ε × σ)} (h : Session.Walks watch n s cs m)
    {tr : List (ℕ × ε)} {g : ℕ → ν} (hg : g i = n) (hT : T tr s g) :
    T (noted i cs tr) (final s cs) (Function.update g i m) := by
  induction h generalizing tr g with
  | nil =>
    subst hg
    rw [Function.update_eq_self]
    exact hT
  | @cons n n' m s t l cs hstep _ ih =>
    subst hg
    have hnext := ih (Function.update_self i n' g) (hcommit tr s g i l t n' hT hstep)
    rw [Function.update_idem] at hnext
    rw [final_cons]
    exact hnext

/-- Every call still running has a watcher that can follow it, and no other watcher has moved. -/
structure Watched (watch : ν → σ → ε → σ → ν → Prop) (n : ν) (p : Pool σ ε Q A κ) (g : ℕ → ν) :
    Prop where
  idle : ∀ i, p.started ≤ i → g i = n
  running : ∀ i q, p.calls i = some q →
    i < p.started ∧ Program.Tracks watch (g i) q fun _ _ => True

theorem Watched.idle_update {p : Pool σ ε Q A κ} {g : ℕ → ν} (h : Watched watch n p g)
    {i : ℕ} (hi : i < p.started) (m : ν) (j : ℕ) (hj : p.started ≤ j) :
    Function.update g i m j = n := by
  rw [Function.update_of_ne (by omega)]
  exact h.idle j hj

section Steps
variable (hprograms : ∀ call, Program.Tracks watch n (programs call) fun _ _ => True)
  (hcommit : ∀ tr s g i l t m, T tr s g → watch (g i) s l t m →
    T ((i, l) :: tr) t (Function.update g i m))
  (hrestart : ∀ tr s g, T tr s g → T tr (restart s) g)
include hprograms hcommit hrestart

theorem watched_step {p p' : Pool σ ε Q A κ} {g : ℕ → ν}
    (hT : T p.trace p.store g) (hg : Watched watch n p g)
    (hp : step programs restart p a = some p') :
    ∃ g', T p'.trace p'.store g' ∧ Watched watch n p' g' := by
  cases step_stepped hp with
  | start call =>
    refine ⟨g, hT, fun i hi => hg.idle i (by dsimp only at hi; omega), fun i q hq => ?_⟩
    refine put_call (P := fun i q => i < p.started + 1 ∧ Program.Tracks watch (g i) q _)
      ⟨by omega, ?_⟩ (fun j q _ hq => ?_) i q hq
    · rw [hg.idle _ le_rfl]
      exact hprograms call
    · obtain ⟨hlt, htracks⟩ := hg.running j q hq
      exact ⟨by omega, htracks⟩
  | answer hcall =>
    obtain ⟨hlt, htracks⟩ := hg.running _ _ hcall
    exact ⟨g, hT, hg.idle, put_call ⟨hlt, htracks _⟩ fun j q _ => hg.running j q⟩
  | @run i _ _ hcall =>
    obtain ⟨hlt, htracks⟩ := hg.running i _ hcall
    obtain ⟨m, hwalk, hnext⟩ := htracks p.store
    refine ⟨Function.update g i m, noted_walks hcommit hwalk rfl hT, hg.idle_update hlt m,
      put_call ⟨hlt, ?_⟩ fun j q hij hq => ?_⟩
    · rw [Function.update_self]
      exact hnext
    · rw [Function.update_of_ne hij]
      exact hg.running j q hq
  | @lose i k _ _ hcall =>
    obtain ⟨hlt, htracks⟩ := hg.running i _ hcall
    obtain ⟨m, hwalk, -⟩ := htracks p.store
    obtain ⟨m', hwalk'⟩ := hwalk.take k
    exact ⟨Function.update g i m', hrestart _ _ _ (noted_walks hcommit hwalk' rfl hT),
      hg.idle_update hlt m', nofun⟩
  | stop => exact ⟨g, hrestart _ _ _ hT, hg.idle, nofun⟩

theorem pool_tracks {Allowed : Pool σ ε Q A κ → Act Q A γ → Prop} {s : σ} {p : Pool σ ε Q A κ}
    (hs : T [] s fun _ => n) (h : Reached (step programs restart) Allowed (fresh s) p) :
    ∃ g, T p.trace p.store g ∧ Watched watch n p g := by
  induction h with
  | rest => exact ⟨fun _ => n, hs, fun _ _ => rfl, nofun⟩
  | next _ _ hp ih =>
    obtain ⟨g, hT, hg⟩ := ih
    exact watched_step hprograms hcommit hrestart hT hg hp

end Steps

end Watching

end Pool

end NetRuleRouter.LockedPrograms
