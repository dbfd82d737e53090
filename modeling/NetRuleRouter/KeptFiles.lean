import NetRuleRouter.RestartLinks
import NetRuleRouter.Stretches

/-!
# Keeping some of the files

The files a verifier accepts are accepted again when some of them are gone,
as long as those with events that stay from the restart that counts on are
consecutive, and the restart still links onto what stays before it, or goes
and leaves files that are accepted by themselves. Where the last hashes of the
files differ, everything else is noticed.
-/

set_option autoImplicit false

namespace NetRuleRouter.KeptFiles
open TextOps AuditTrail TrailLinks RestartLinks Stretches

variable {α : Type*} {link : α → FileLink} {keep : α → Bool} {f : α} {fs : List α}
  {q : Question}

def eventful (link : α → FileLink) (fs : List α) : List α :=
  fs.filter fun f => (link f).tailHash.isSome

theorem eventful_filter : eventful link (fs.filter keep) = (eventful link fs).filter keep :=
  List.filter_comm ..

theorem of_kept {P : α → Prop} (h : ∀ f ∈ fs, P f) : ∀ f ∈ fs.filter keep, P f :=
  fun f hf => h f (List.mem_of_mem_filter hf)

abbrev Follows (link : α → FileLink) (fs : List α) : Prop :=
  Stretches.Linked (fun f => (link f).tailHash) (fun f => (link f).firstPrev) fs

theorem follows_cons : Follows link (f :: fs) ↔
    (∀ g ∈ fs.head?, (link g).firstPrev = (link f).tailHash) ∧ Follows link fs :=
  List.isChain_cons

theorem whole_ok_iff (hsound : ∀ f ∈ fs, LinkSound (link f)) (tail : Option Text) :
    WholeOk q tail (fs.map link) ↔ (∀ f ∈ fs, q.segment (link f).whole) ∧
      (∀ t ∈ tail, ∀ f ∈ (eventful link fs).head?, (link f).firstPrev = some t) ∧
      Follows link (eventful link fs) := by
  induction fs generalizing tail with
  | nil => simp [WholeOk, eventful]
  | cons f fs ih =>
    obtain ⟨hf, hrest⟩ := List.forall_mem_cons.mp hsound
    have hfirst := hf.first
    rw [List.map_cons, WholeOk, ih hrest, List.forall_mem_cons]
    cases ht : (link f).tailHash with
    | none =>
      rw [ht, Option.isSome_none, Option.isSome_eq_false_iff, Option.isNone_iff_eq_none] at hfirst
      have hsame : eventful link (f :: fs) = eventful link fs := by simp [eventful, ht]
      rw [hsame, hfirst, Option.none_or]
      simp [and_assoc]
    | some t =>
      rw [ht, Option.isSome_some, Option.isSome_iff_exists] at hfirst
      obtain ⟨p, hp⟩ := hfirst
      have hcons : eventful link (f :: fs) = f :: eventful link fs := by simp [eventful, ht]
      rw [hcons, follows_cons, hp, ht]
      cases tail with
      | none => simp [hp, and_assoc]
      | some x =>
        simp [hp, eq_comm (a := p)]
        tauto

theorem whole_ok_after (hsound : ∀ f ∈ fs, LinkSound (link f))
    (hf : (link f).tailHash.isSome = true) :
    WholeOk q (link f).tailHash (fs.map link) ↔ (∀ f ∈ fs, q.segment (link f).whole) ∧
      Follows link (f :: eventful link fs) := by
  obtain ⟨t, ht⟩ := Option.isSome_iff_exists.mp hf
  rw [whole_ok_iff hsound, follows_cons, ht]
  simp

theorem no_restart_after {before links : List FileLink} (hsound : ∀ l ∈ links, LinkSound l)
    (h : WholeOk q (lastTail before) links) (hnone : NoneUsable before links) :
    ∀ l ∈ links, l.restart = none := by
  induction links generalizing before with
  | nil => simp
  | cons l links ih =>
    have hrest := ih (fun x hx => hsound x (by simp [hx]))
      (by rw [last_tail_concat]; exact h.2.2) (fun a x b hsplit => by
        simpa using hnone (l :: a) x b (by rw [hsplit]; rfl))
    refine List.forall_mem_cons.mpr ⟨?_, hrest⟩
    cases hr : l.restart with
    | none => rfl
    | some r =>
      have hnot := hnone [] l links rfl
      rw [List.append_nil, usableRestart, hr] at hnot
      cases hp : r.seamPrev with
      | none => simp [hp] at hnot
      | some p =>
        have hseam := h.1
        rw [(hsound l (by simp)).seam r hr p hp, Option.all_some] at hseam
        simp only [hp] at hnot
        rw [hseam] at hnot
        cases hnot

theorem last_tail_eq : lastTail (fs.map link) =
    (eventful link fs).getLast?.bind fun f => (link f).tailHash := by
  rw [← List.head?_reverse, eventful, ← List.filter_reverse, lastTail, ← List.map_reverse]
  induction fs.reverse with
  | nil => rfl
  | cons f fs ih => cases ht : (link f).tailHash <;> simp_all

variable {links a b : List FileLink} {l : FileLink} {tail : Option Text}

theorem last_tail_append (a b : List FileLink) :
    lastTail (a ++ b) = (lastTail b).or (lastTail a) := by
  rw [lastTail, List.reverse_append, List.findSome?_append]
  rfl

theorem whole_ok_append :
    WholeOk q tail (a ++ b) ↔ WholeOk q tail a ∧ WholeOk q ((lastTail a).or tail) b := by
  induction a generalizing tail with
  | nil => simp [WholeOk, lastTail]
  | cons l a ih =>
    have htail : lastTail (l :: a) = (lastTail a).or l.tailHash := by
      rw [← List.singleton_append, last_tail_append]
      cases hl : l.tailHash <;> simp [lastTail, hl]
    rw [List.cons_append, WholeOk, WholeOk, ih, htail, Option.or_assoc, and_assoc, and_assoc]

theorem counted_ok_concat (hsound : ∀ x ∈ links, LinkSound x)
    (hl : usableRestart links l = false) :
    CountedOk q (links ++ [l]) ↔ CountedOk q links ∧ WholeOk q (lastTail links) [l] := by
  have hafter {before after : List FileLink} {x : FileLink} {r : RestartLink}
      (hx : LinkSound x) (hr : x.restart = some r) :
      lastTail (before ++ x :: after) = (lastTail after).or x.tailHash := by
    obtain ⟨t, ht⟩ := Option.isSome_iff_exists.mp (hx.restart (by rw [hr]; rfl))
    rw [List.append_cons, last_tail_append, last_tail_concat, ht]
    rfl
  constructor
  · rintro (⟨hnone, hwhole⟩ | ⟨before, x, after, r, hsplit, hx, hnone, hr, hseg, hwhole⟩)
    · rw [whole_ok_append, Option.or_none] at hwhole
      exact ⟨Or.inl ⟨(none_usable_concat.mp hnone).1, hwhole.1⟩, hwhole.2⟩
    · rcases List.eq_nil_or_concat after with rfl | ⟨after, y, rfl⟩
      · obtain ⟨rfl, hsame⟩ := List.append_inj' hsplit rfl
        cases hsame
        rw [hl] at hx
        cases hx
      · have hsame : links ++ [l] = (before ++ x :: after) ++ [y] := by simpa using hsplit
        obtain ⟨rfl, hy⟩ := List.append_inj' hsame rfl
        cases hy
        rw [List.concat_eq_append] at hnone hwhole
        rw [whole_ok_append] at hwhole
        refine ⟨Or.inr ⟨before, x, after, r, rfl, hx, (none_usable_concat.mp hnone).1, hr, hseg,
          hwhole.1⟩, ?_⟩
        rw [hafter (hsound x (by simp)) hr]
        exact hwhole.2
  · rintro ⟨⟨hnone, hwhole⟩ | ⟨before, x, after, r, rfl, hx, hnone, hr, hseg, hwhole⟩, hlast⟩
    · refine Or.inl ⟨none_usable_concat.mpr ⟨hnone, hl⟩, whole_ok_append.mpr ⟨hwhole, ?_⟩⟩
      rwa [Option.or_none]
    · refine Or.inr ⟨before, x, after ++ [l], r, by simp, hx, none_usable_concat.mpr ⟨hnone, ?_⟩,
        hr, hseg, whole_ok_append.mpr ⟨hwhole, ?_⟩⟩
      · simpa using hl
      · rwa [hafter (hsound x (by simp)) hr] at hlast

theorem counted_ok_append (hsound : ∀ x ∈ a ++ b, LinkSound x) (hb : ∀ x ∈ b, x.restart = none) :
    CountedOk q (a ++ b) ↔ CountedOk q a ∧ WholeOk q (lastTail a) b := by
  induction b using List.reverseRecOn with
  | nil => simp [WholeOk]
  | append_singleton b l ih =>
    have hl : usableRestart (a ++ b) l = false := by rw [usableRestart, hb l (by simp)]
    rw [← List.append_assoc] at hsound
    have hfront : ∀ x ∈ a ++ b, LinkSound x := fun x hx => hsound x (List.mem_append_left _ hx)
    rw [← List.append_assoc, counted_ok_concat hfront hl, ih hfront fun x hx => hb x (by simp [hx]),
      last_tail_append, whole_ok_append, and_assoc]

/-- A file whose restart would count, behind others: it counts, or its seam breaks. -/
theorem counted_ok_restart {r : RestartLink} (hsound : ∀ x ∈ links ++ [l], LinkSound x)
    (hr : l.restart = some r) (hseg : q.segment r.after) :
    CountedOk q (links ++ [l]) ↔ usableRestart links l = true := by
  constructor
  · intro h
    by_contra hnot
    rw [Bool.not_eq_true] at hnot
    have hseam := ((counted_ok_concat (fun x hx => hsound x (by simp [hx])) hnot).mp h).2.1
    rw [usableRestart, hr] at hnot
    cases hp : r.seamPrev with
    | none => simp [hp] at hnot
    | some p =>
      rw [(hsound l (by simp)).seam r hr p hp, Option.all_some] at hseam
      simp [hp, hseam] at hnot
  · exact fun h => Or.inr ⟨links, l, [], r, rfl, h, by simp [NoneUsable], hr, hseg, trivial⟩

/-- What may go of some files: between two that stay from the restart that counts on, none. Where
the restart goes, files with events stay on one side of it only, and those before it are accepted by
themselves; where it stays and opens its file, the one before it stays or all do go. -/
structure Spared (q : Question) (link : α → FileLink) (keep : α → Bool) (fs : List α) : Prop where
  middle : MiddleKept keep (eventful link (fs.drop ((lastUsableRestart (fs.map link)).getD 0)))
  gone : ∀ s ∈ lastUsableRestart (fs.map link), ∀ f ∈ fs[s]?, keep f = false →
    (∀ x ∈ eventful link (fs.take s), ∀ y ∈ eventful link (fs.drop (s + 1)),
      keep x = true → keep y = false) ∧ CountedOk q (((fs.take s).filter keep).map link)
  opens : ∀ s ∈ lastUsableRestart (fs.map link), ∀ f ∈ fs[s]?, keep f = true →
    ∀ r ∈ (link f).restart, r.seamPrev.isSome = true →
      ∀ xs g, eventful link (fs.take s) = xs ++ [g] → keep g = false → ∀ x ∈ xs, keep x = false

theorem spared_unrestarted (h : lastUsableRestart (fs.map link) = none) :
    Spared q link keep fs ↔ MiddleKept keep (eventful link fs) := by
  constructor
  · intro hspared
    simpa [h] using hspared.middle
  · exact fun hmiddle => ⟨by simpa [h] using hmiddle, by simp [h], by simp [h]⟩

section
variable {before after : List α} {r : RestartLink}

theorem spared_restarted (h : lastUsableRestart ((before ++ f :: after).map link) =
      some before.length) (hr : (link f).restart = some r) (hf : (link f).tailHash.isSome = true) :
    Spared q link keep (before ++ f :: after) ↔ MiddleKept keep (f :: eventful link after) ∧
      (keep f = false → (∀ x ∈ eventful link before, ∀ y ∈ eventful link after,
        keep x = true → keep y = false) ∧ CountedOk q ((before.filter keep).map link)) ∧
      (keep f = true → r.seamPrev.isSome = true →
        ∀ xs g, eventful link before = xs ++ [g] → keep g = false → ∀ x ∈ xs, keep x = false) := by
  have hcons : eventful link (f :: after) = f :: eventful link after := by simp [eventful, hf]
  have hdrop : (before ++ f :: after).drop (before.length + 1) = after := by
    rw [List.append_cons, List.drop_left' (by simp)]
  have hread : eventful link ((before ++ f :: after).drop
      ((lastUsableRestart ((before ++ f :: after).map link)).getD 0)) = f :: eventful link after := by
    rw [h, Option.getD_some, List.drop_left, hcons]
  constructor
  · intro hspared
    refine ⟨?_, fun hgone => ?_, fun hkept hseam => ?_⟩
    · exact hread ▸ hspared.middle
    · simpa [hdrop] using hspared.gone _ h f (by simp) hgone
    · simpa using hspared.opens _ h f (by simp) hkept r hr hseam
  · rintro ⟨hmiddle, hgone, hopens⟩
    refine ⟨hread.symm ▸ hmiddle, fun s hs g hg => ?_, fun s hs g hg => ?_⟩
    all_goals
      obtain rfl : before.length = s := Option.some.inj (h.symm.trans hs)
      obtain rfl : f = g := by simpa using hg
    · simpa [hdrop] using hgone
    · intro hkept r' hr' hseam
      obtain rfl : r = r' := Option.some.inj (hr.symm.trans hr')
      simpa using hopens hkept hseam

theorem usable_kept (hl : usableRestart (before.map link) (link f) = true)
    (hr : (link f).restart = some r) (hopens : r.seamPrev.isSome = true →
      ∀ xs g, eventful link before = xs ++ [g] → keep g = false → ∀ x ∈ xs, keep x = false) :
    usableRestart ((before.filter keep).map link) (link f) = true := by
  rw [usableRestart, hr] at hl ⊢
  cases hp : r.seamPrev with
  | none => simp [hp]
  | some p =>
    simp only [hp] at hl ⊢
    rw [last_tail_eq] at hl ⊢
    rw [eventful_filter]
    cases hlast : (eventful link before).getLast? with
    | none => simp [List.getLast?_eq_none_iff.mp hlast]
    | some g =>
      obtain ⟨xs, hsplit⟩ := List.getLast?_eq_some_iff.mp hlast
      rw [hsplit] at hl ⊢
      cases hg : keep g with
      | true => simpa [List.filter_append, hg] using hl
      | false =>
        have hgone : xs.filter keep = [] := List.filter_eq_nil_iff.mpr fun x hx => by
          simp [hopens (by simp [hp]) xs g hsplit hg x hx]
        simp [List.filter_append, hg, hgone]

theorem opens_of_usable (hnodup : ((eventful link before).map fun f => (link f).tailHash).Nodup)
    (hl : usableRestart (before.map link) (link f) = true)
    (hr : (link f).restart = some r) (hseam : r.seamPrev.isSome = true)
    (hkept : usableRestart ((before.filter keep).map link) (link f) = true) {xs : List α} {g : α}
    (hsplit : eventful link before = xs ++ [g]) (hg : keep g = false) :
    ∀ x ∈ xs, keep x = false := by
  obtain ⟨p, hp⟩ := Option.isSome_iff_exists.mp hseam
  have hleft : (xs ++ [g]).filter keep = xs.filter keep := by simp [List.filter_append, hg]
  rw [usableRestart, hr] at hl hkept
  simp only [hp, last_tail_eq, eventful_filter, hsplit, hleft] at hl hkept
  cases hlast : (xs.filter keep).getLast? with
  | none =>
    intro x hx
    simpa using List.filter_eq_nil_iff.mp (List.getLast?_eq_none_iff.mp hlast) x hx
  | some y =>
    -- the last one left has the hash the restart names, and so has the one that went
    have hy : y ∈ xs := List.mem_of_mem_filter (List.mem_of_getLast? hlast)
    have htail (x) (hx : x ∈ xs ++ [g]) : ∃ t, (link x).tailHash = some t :=
      Option.isSome_iff_exists.mp (List.mem_filter.mp (hsplit ▸ hx :)).2
    obtain ⟨t, ht⟩ := htail y (by simp [hy])
    obtain ⟨u, hu⟩ := htail g (by simp)
    have htp : t = p := by simpa [hlast, ht] using hkept
    have hup : u = p := by simpa [hu] using hl
    rw [hsplit, List.map_append, List.nodup_append] at hnodup
    exact absurd (by rw [ht, hu, htp, hup])
      (hnodup.2.2 _ (List.mem_map_of_mem hy) (link g).tailHash (by simp))

theorem counted_kept (hsound : ∀ g ∈ before ++ f :: after, LinkSound (link g))
    (hr : (link f).restart = some r) (hseg : q.segment r.after)
    (hno : ∀ g ∈ after, (link g).restart = none) (hf : keep f = true) :
    CountedOk q (((before ++ f :: after).filter keep).map link) ↔
      usableRestart ((before.filter keep).map link) (link f) = true ∧
        WholeOk q (link f).tailHash ((after.filter keep).map link) := by
  obtain ⟨t, ht⟩ := Option.isSome_iff_exists.mp
    ((hsound f (by simp)).restart (by rw [hr]; rfl))
  rw [List.filter_append, List.filter_cons_of_pos hf, List.append_cons, List.map_append,
    List.map_append, List.map_singleton, counted_ok_append _ (List.forall_mem_map.mpr
      fun g hg => hno g (List.mem_of_mem_filter hg)), last_tail_concat, ht, Option.some_or,
    counted_ok_restart _ hr hseg]
  all_goals
    intro l hl
    obtain ⟨g, hg, rfl⟩ : ∃ g ∈ before ++ f :: after, link g = l := by
      simp only [List.mem_append, List.mem_map, List.mem_filter, List.mem_singleton] at hl ⊢
      grind
    exact hsound g hg

theorem counted_gone (hsound : ∀ g ∈ before ++ f :: after, LinkSound (link g))
    (hno : ∀ g ∈ after, (link g).restart = none) (hf : keep f = false) :
    CountedOk q (((before ++ f :: after).filter keep).map link) ↔
      CountedOk q ((before.filter keep).map link) ∧
        WholeOk q (lastTail ((before.filter keep).map link)) ((after.filter keep).map link) := by
  rw [List.filter_append, List.filter_cons_of_neg (by simp [hf]), List.map_append,
    counted_ok_append _ (List.forall_mem_map.mpr (of_kept hno))]
  rw [← List.map_append, ← List.filter_append]
  refine List.forall_mem_map.mpr fun g hg => hsound g ?_
  have := List.mem_of_mem_filter hg
  grind

/-- With the restart gone, the first file left after it would have to name both the last one left
before it and its own neighbour. -/
theorem sides_of_seam (hfollows : Follows link (f :: eventful link after))
    (hapart : ∀ a ∈ (eventful link before).map fun f => (link f).tailHash,
      ∀ b ∈ (f :: eventful link after).map fun f => (link f).tailHash, a ≠ b)
    (hseam : ∀ t ∈ lastTail ((before.filter keep).map link),
      ∀ g ∈ ((eventful link after).filter keep).head?, (link g).firstPrev = some t) :
    ∀ x ∈ eventful link before, ∀ y ∈ eventful link after, keep x = true → keep y = false := by
  intro x hx y hy hxk
  by_contra hyk
  have hy := List.mem_filter.mpr ⟨hy, by simpa using hyk⟩
  have hx := List.mem_filter.mpr ⟨hx, hxk⟩
  have hlast := List.getLast?_eq_getLast_of_ne_nil (List.ne_nil_of_mem hx)
  have hhead := List.head?_eq_some_head (List.ne_nil_of_mem hy)
  have hbefore := List.mem_filter.mp (List.getLast_mem (List.ne_nil_of_mem hx))
  have hafter := List.mem_filter.mp (List.head_mem (List.ne_nil_of_mem hy))
  obtain ⟨t, ht⟩ := Option.isSome_iff_exists.mp (List.mem_filter.mp hbefore.1).2
  have hnames := hseam t (by rw [last_tail_eq, eventful_filter, hlast]; exact ht) _ hhead
  obtain ⟨z, hz, hprev⟩ := linked_before hfollows hafter.1
  exact hapart _ (List.mem_map_of_mem hbefore.1) _ (List.mem_map_of_mem hz)
    (ht.trans (hnames.symm.trans hprev))

end

/-- Accepted files hold no restart that counts and no other one either, or the last that counts with
none after it. -/
theorem counted_split (hsound : ∀ f ∈ fs, LinkSound (link f)) (h : CountedOk q (fs.map link)) :
    lastUsableRestart (fs.map link) = none ∧ (∀ f ∈ fs, (link f).restart = none) ∧
        WholeOk q none (fs.map link) ∨
      ∃ before f after r, fs = before ++ f :: after ∧
        lastUsableRestart (fs.map link) = some before.length ∧ (link f).restart = some r ∧
        q.segment r.after ∧ usableRestart (before.map link) (link f) = true ∧
        (∀ g ∈ after, (link g).restart = none) ∧
        WholeOk q (link f).tailHash (after.map link) := by
  rcases h with ⟨hnone, hwhole⟩ | ⟨before, l, after, r, hsplit, hl, hafter, hr, hcount, hwhole⟩
  · have hno := @no_restart_after _ [] _ (List.forall_mem_map.mpr hsound) hwhole hnone
    exact Or.inl ⟨last_usable_none.mpr hnone, List.forall_mem_map.mp hno, hwhole⟩
  · have hstart := last_usable_some hl hafter
    rw [← hsplit] at hstart
    obtain ⟨before, rest, rfl, rfl, hrest⟩ := List.map_eq_append_iff.mp hsplit
    obtain ⟨f, after, rfl, rfl, rfl⟩ := List.map_eq_cons_iff.mp hrest
    have hsoundAfter : ∀ g ∈ after, LinkSound (link g) := fun g hg => hsound g (by simp [hg])
    obtain ⟨t, ht⟩ := Option.isSome_iff_exists.mp
      ((hsound f (by simp)).restart (by rw [hr]; rfl))
    have hno := no_restart_after (List.forall_mem_map.mpr hsoundAfter) (by
      rw [last_tail_concat, ht, Option.some_or, ← ht]
      exact hwhole) hafter
    refine Or.inr ⟨before, f, after, r, rfl, ?_, hr, hcount, hl, List.forall_mem_map.mp hno, hwhole⟩
    rw [hstart, List.length_map]

theorem counted_ok_spared (hsound : ∀ f ∈ fs, LinkSound (link f)) (h : CountedOk q (fs.map link))
    (hspared : Spared q link keep fs) : CountedOk q ((fs.filter keep).map link) := by
  rcases counted_split hsound h with ⟨hstart, hno, hwhole⟩ |
    ⟨before, f, after, r, rfl, hstart, hr, hseg, hl, hno, hwhole⟩
  · obtain ⟨hcounts, -, hfollows⟩ := (whole_ok_iff hsound none).mp hwhole
    refine Or.inl ⟨none_usable_of_no_restart (List.forall_mem_map.mpr (of_kept hno)),
      (whole_ok_iff (of_kept hsound) none).mpr ⟨of_kept hcounts, by simp, ?_⟩⟩
    rw [eventful_filter]
    exact hfollows.infix (middle_filter ((spared_unrestarted hstart).mp hspared))
  · have hf := (hsound f (by simp)).restart (by rw [hr]; rfl)
    have hsoundAfter : ∀ g ∈ after, LinkSound (link g) := fun g hg => hsound g (by simp [hg])
    obtain ⟨hcounts, hfollows⟩ := (whole_ok_after hsoundAfter hf).mp hwhole
    obtain ⟨hmiddle, hgone, hopens⟩ := (spared_restarted hstart hr hf).mp hspared
    cases hk : keep f with
    | true =>
      refine (counted_kept hsound hr hseg hno hk).mpr ⟨usable_kept hl hr (hopens hk), ?_⟩
      refine (whole_ok_after (of_kept hsoundAfter) hf).mpr ⟨of_kept hcounts, ?_⟩
      rw [eventful_filter, ← List.filter_cons_of_pos hk]
      exact hfollows.infix (middle_filter hmiddle)
    | false =>
      obtain ⟨hsides, hbefore⟩ := hgone hk
      refine (counted_gone hsound hno hk).mpr ⟨hbefore, ?_⟩
      refine (whole_ok_iff (of_kept hsoundAfter) _).mpr ⟨of_kept hcounts, ?_, ?_⟩
      · intro t ht y hy
        -- a file with events on either side would have stayed
        rw [last_tail_eq, eventful_filter, Option.mem_def, Option.bind_eq_some_iff] at ht
        rw [eventful_filter] at hy
        obtain ⟨x, hx, -⟩ := ht
        have hx := List.mem_filter.mp (List.mem_of_getLast? hx)
        have hy := List.mem_filter.mp (List.mem_of_head? hy)
        simp [hsides x hx.1 y hy.1 hx.2] at hy
      · rw [eventful_filter]
        have hrest : MiddleKept keep (eventful link after) := fun x g y hxgy =>
          hmiddle x g y (hxgy.cons f)
        exact hfollows.tail.infix (middle_filter hrest)

theorem spared_of_counted (hsound : ∀ f ∈ fs, LinkSound (link f))
    (hnodup : ((eventful link fs).map fun f => (link f).tailHash).Nodup)
    (h : CountedOk q (fs.map link)) (hkept : CountedOk q ((fs.filter keep).map link)) :
    Spared q link keep fs := by
  rcases counted_split hsound h with ⟨hstart, hno, hwhole⟩ |
    ⟨before, f, after, r, rfl, hstart, hr, hseg, hl, hno, hwhole⟩
  · have hleft : WholeOk q none ((fs.filter keep).map link) := by
      have hnone : ∀ l ∈ (fs.filter keep).map link, l.restart = none :=
        List.forall_mem_map.mpr (of_kept hno)
      simpa [lastTail] using ((@counted_ok_append q [] _ (List.forall_mem_map.mpr
        (of_kept hsound)) hnone).mp hkept).2
    have hfollows := ((whole_ok_iff hsound none).mp hwhole).2.2
    have hleft := ((whole_ok_iff (of_kept hsound) none).mp hleft).2.2
    rw [eventful_filter] at hleft
    exact (spared_unrestarted hstart).mpr (middle_kept_of_linked hnodup hfollows hleft)
  · have hf := (hsound f (by simp)).restart (by rw [hr]; rfl)
    have hsoundAfter : ∀ g ∈ after, LinkSound (link g) := fun g hg => hsound g (by simp [hg])
    obtain ⟨-, hfollows⟩ := (whole_ok_after hsoundAfter hf).mp hwhole
    have hsplit : eventful link (before ++ f :: after) =
        eventful link before ++ f :: eventful link after := by simp [eventful, hf]
    rw [hsplit, List.map_append, List.nodup_append] at hnodup
    obtain ⟨hbefore, hrest, hapart⟩ := hnodup
    refine (spared_restarted hstart hr hf).mpr ?_
    cases hk : keep f with
    | true =>
      obtain ⟨husable, hleft⟩ := (counted_kept hsound hr hseg hno hk).mp hkept
      refine ⟨?_, by simp, fun _ hseam xs g hxs hg => opens_of_usable hbefore hl hr hseam husable
        hxs hg⟩
      have hleft := ((whole_ok_after (of_kept hsoundAfter) hf).mp hleft).2
      rw [eventful_filter, ← List.filter_cons_of_pos hk] at hleft
      exact middle_kept_of_linked hrest hfollows hleft
    | false =>
      obtain ⟨hcounted, hleft⟩ := (counted_gone hsound hno hk).mp hkept
      obtain ⟨-, hseam, hleft⟩ := (whole_ok_iff (of_kept hsoundAfter) _).mp hleft
      rw [eventful_filter] at hseam hleft
      have hmiddle := middle_kept_of_linked hrest.of_cons hfollows.tail hleft
      refine ⟨fun x g y hxgy hx hy => ?_, fun _ =>
        ⟨sides_of_seam hfollows hapart hseam, hcounted⟩, by simp⟩
      rcases List.sublist_cons_iff.mp hxgy with hxgy | ⟨l, hl, -⟩
      · exact hmiddle x g y hxgy hx hy
      · rw [(List.cons.inj hl).1, hk] at hx
        cases hx

end NetRuleRouter.KeptFiles
