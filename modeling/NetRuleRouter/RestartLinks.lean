import NetRuleRouter.TrailLinks

/-!
# What the verifier counts from a restart on

The last sealed restart that links onto the event before it is where the
count of breaks starts over: its file counts from the restart on and every
later file as a whole. A file after it holds no restart that would count.
-/

set_option autoImplicit false

namespace NetRuleRouter.RestartLinks
open TextOps TextLines AuditEvents AuditTrail TrailLinks

variable {C : AuditCodec}

/-- A break of the hashes is counted. -/
def SegmentSound (s : Segment) : Prop := s.breaks.count = 0 → s.firstHashBreak = none

theorem record_sound {s : Segment} (h : SegmentSound s) (found : Option AuditChainBreak) :
    SegmentSound (s.record found) := by
  cases found with
  | none => exact h
  | some b =>
    have hcount : (s.record (some b)).breaks.count = s.breaks.count + 1 := by
      simp only [Segment.record]
      split <;> rfl
    intro hzero
    omega

structure LinkSound (link : FileLink) : Prop where
  first : link.firstPrev.isSome = link.tailHash.isSome
  restart : link.restart.isSome = true → link.tailHash.isSome = true
  seam : ∀ r ∈ link.restart, ∀ p ∈ r.seamPrev, link.firstPrev = some p
  whole : SegmentSound link.whole
  after : ∀ r ∈ link.restart, SegmentSound r.after

variable {key : Option AuditRestartKey} {link : FileLink}

theorem verify_event_sound {fileName canonical : Text} (h : LinkSound link)
    (lineNo : ℕ) (event : AuditEvent) :
    LinkSound (verifyEvent C fileName key link lineNo event canonical) := by
  refine ⟨?_, fun _ => rfl, ?_, record_sound h.whole _, ?_⟩
  · simp [verifyEvent]
  · intro r hr p hp
    simp only [verifyEvent] at hr ⊢
    split at hr
    · rename_i hsealed
      cases hr
      dsimp only at hp
      split at hp
      · rename_i hnone
        rw [Option.isNone_iff_eq_none] at hnone
        have hfirst : link.firstPrev = none := by
          have hboth := h.first
          rw [hnone, Option.isSome_none, Option.isSome_eq_false_iff] at hboth
          exact Option.isNone_iff_eq_none.mp hboth
        cases hp
        simp [hfirst, hnone]
      · cases hp
    · obtain ⟨r', hr', rfl⟩ := Option.map_eq_some_iff.mp hr
      rw [h.seam r' hr' p hp]
      rfl
  · intro r hr
    simp only [verifyEvent] at hr
    split at hr
    · cases hr
      exact fun _ => rfl
    · obtain ⟨r', hr', rfl⟩ := Option.map_eq_some_iff.mp hr
      exact record_sound (h.after r' hr') _

theorem verify_line_sound {fileName : Text} (h : LinkSound link)
    (entry : Text × ℕ) : LinkSound (verifyLine C fileName key link entry) := by
  unfold verifyLine
  split
  · exact h
  · split
    · refine ⟨h.first, ?_, ?_, record_sound h.whole _, ?_⟩
      · simpa using h.restart
      · intro r hr p hp
        obtain ⟨r', hr', rfl⟩ := Option.map_eq_some_iff.mp hr
        exact h.seam r' hr' p hp
      · intro r hr
        obtain ⟨r', hr', rfl⟩ := Option.map_eq_some_iff.mp hr
        exact record_sound (h.after r' hr') _
    · exact verify_event_sound h _ _

theorem file_link_sound (fileName : Text) (content : Option Text) (key : Option AuditRestartKey) :
    LinkSound (verifyFileLink C fileName content key) := by
  have hempty : LinkSound {} := ⟨rfl, by simp, by simp, fun _ => rfl, by simp⟩
  cases content with
  | none =>
    refine ⟨rfl, by simp [verifyFileLink], by simp [verifyFileLink], ?_, by simp [verifyFileLink]⟩
    exact record_sound (fun _ => rfl) _
  | some text =>
    rw [verifyFileLink]
    generalize (lines text).zipIdx = entries
    suffices h : ∀ link, LinkSound link →
        LinkSound (entries.foldl (verifyLine C fileName key) link) from h {} hempty
    induction entries with
    | nil => exact fun _ h => h
    | cons e entries ih => exact fun link h => ih _ (verify_line_sound h e)

variable {q : Question} {s : ℕ}

theorem walk_before {n : ℕ} {links : List (Text × FileLink)} (h : n + links.length ≤ s) (w : Walk) :
    (links.zipIdx n).foldl (walkFile C (some s)) w = w := by
  induction links generalizing n w with
  | nil => rfl
  | cons l links ih =>
    rw [List.length_cons] at h
    have hstep : walkFile C (some s) w (l, n) = w := by
      unfold walkFile
      exact if_pos (by simp only [Option.any_some, decide_eq_true_eq]; omega)
    rw [List.zipIdx_cons, List.foldl_cons, hstep]
    exact ih (by omega) w

theorem walk_from {before after : List (Text × FileLink)} {l : Text × FileLink} {r : RestartLink}
    (hr : l.2.restart = some r) :
    q.walk (((before ++ l :: after).zipIdx).foldl (walkFile C (some before.length)) {}) ↔
      q.segment r.after ∧ WholeOk q l.2.tailHash (after.map Prod.snd) := by
  have hstep : walkFile C (some before.length) {} (l, before.length) =
      Walk.addSegment C {} r.after l.2.tailHash := by
    unfold walkFile
    rw [if_neg (by simp), hr]
    exact if_pos rfl
  have hskip : (before.zipIdx).foldl (walkFile C (some before.length)) {} = {} :=
    walk_before (by omega) {}
  rw [List.zipIdx_append, List.foldl_append, hskip, Nat.zero_add, List.zipIdx_cons,
    List.foldl_cons, hstep, walk_after (by simp), add_segment_walk, and_iff_right walk_new]
  simp [Walk.addSegment]

def NoneUsable (before links : List FileLink) : Prop :=
  ∀ a l b, links = a ++ l :: b → usableRestart (before ++ a) l = false

variable {links before after : List FileLink} {l : FileLink} {anchor : Option AuditChainAnchor}

theorem none_usable_concat : NoneUsable before (links ++ [l]) ↔
    NoneUsable before links ∧ usableRestart (before ++ links) l = false := by
  refine ⟨fun h => ⟨fun a x b hsplit => ?_, h links l [] rfl⟩, fun h a x b hsplit => ?_⟩
  · exact h a x (b ++ [l]) (by rw [hsplit]; simp)
  · rcases List.eq_nil_or_concat b with rfl | ⟨b, y, rfl⟩
    · obtain ⟨rfl, hx⟩ := List.append_inj' hsplit rfl
      cases hx
      exact h.2
    · have hsame : links ++ [l] = (a ++ x :: b) ++ [y] := by simpa using hsplit
      exact h.1 a x b (List.append_inj' hsame rfl).1

theorem not_none_usable (h : NoneUsable [] links) (hsplit : links = before ++ l :: after)
    (hl : usableRestart before l = true) : False := by
  have hnot := h before l after hsplit
  rw [List.nil_append, hl] at hnot
  cases hnot

theorem last_usable_concat (links : List FileLink) (l : FileLink) :
    lastUsableRestart (links ++ [l]) =
      if usableRestart links l then some links.length else lastUsableRestart links := by
  have hrest : ((List.range links.length).reverse.find? fun i =>
      ((links ++ [l])[i]?).any (usableRestart ((links ++ [l]).take i))) =
        lastUsableRestart links := by
    refine List.find?_congr fun i hi => ?_
    have hlt : i < links.length := by simpa using hi
    rw [List.getElem?_append_left hlt, List.take_append_of_le_length hlt.le]
  rw [lastUsableRestart, List.length_append, List.length_singleton, List.range_succ,
    List.reverse_append, List.reverse_singleton, List.singleton_append, List.find?_cons, hrest]
  cases hl : usableRestart links l <;> simp [hl]

theorem last_usable_none : lastUsableRestart links = none ↔ NoneUsable [] links := by
  induction links using List.reverseRecOn with
  | nil => simp [NoneUsable, lastUsableRestart]
  | append_singleton links l ih =>
    rw [last_usable_concat, none_usable_concat, ← ih, List.nil_append]
    cases usableRestart links l <;> simp

theorem last_usable_some (hl : usableRestart before l = true)
    (hafter : NoneUsable (before ++ [l]) after) :
    lastUsableRestart (before ++ l :: after) = some before.length := by
  induction after using List.reverseRecOn with
  | nil => rw [last_usable_concat, if_pos hl]
  | append_singleton after x ih =>
    obtain ⟨hrest, hx⟩ := none_usable_concat.mp hafter
    rw [← List.cons_append, ← List.append_assoc, last_usable_concat, if_neg, ih hrest]
    simpa using hx

theorem last_usable_split (h : lastUsableRestart links = some s) :
    ∃ before l after, links = before ++ l :: after ∧ before.length = s ∧
      usableRestart before l = true ∧ NoneUsable (before ++ [l]) after := by
  induction links using List.reverseRecOn with
  | nil => cases h
  | append_singleton links x ih =>
    rw [last_usable_concat] at h
    split at h
    · rename_i hx
      exact ⟨links, x, [], rfl, Option.some.inj h, hx, by simp [NoneUsable]⟩
    · rename_i hx
      obtain ⟨before, l, after, rfl, hlen, hl, hafter⟩ := ih h
      refine ⟨before, l, after ++ [x], by simp, hlen, hl, none_usable_concat.mpr ⟨hafter, ?_⟩⟩
      simpa using hx

theorem none_usable_of_no_restart (h : ∀ l ∈ links, l.restart = none) :
    NoneUsable before links := by
  intro a l b hsplit
  rw [usableRestart, h l (by simp [hsplit])]

theorem last_tail_concat (before : List FileLink) (l : FileLink) :
    lastTail (before ++ [l]) = l.tailHash.or (lastTail before) := by
  rw [lastTail, List.reverse_append, List.reverse_singleton, List.singleton_append,
    List.findSome?_cons]
  cases l.tailHash <;> rfl

theorem restart_of_usable {l : FileLink} (h : usableRestart before l = true) :
    ∃ r, l.restart = some r := by
  unfold usableRestart at h
  cases hr : l.restart with
  | none => simp [hr] at h
  | some r => exact ⟨r, rfl⟩

def CountedOk (q : Question) (links : List FileLink) : Prop :=
  NoneUsable [] links ∧ WholeOk q none links ∨
    ∃ before l after r, links = before ++ l :: after ∧ usableRestart before l = true ∧
      NoneUsable (before ++ [l]) after ∧ l.restart = some r ∧ q.segment r.after ∧
      WholeOk q l.tailHash after

theorem counted_ok_iff {links : List (Text × FileLink)} :
    q.walk ((links.zipIdx).foldl (walkFile C (lastUsableRestart (links.map Prod.snd))) {}) ↔
      CountedOk q (links.map Prod.snd) := by
  cases hstart : lastUsableRestart (links.map Prod.snd) with
  | none =>
    have hnone := last_usable_none.mp hstart
    rw [walk_after (by simp), and_iff_right walk_new]
    constructor
    · intro h
      exact Or.inl ⟨hnone, h⟩
    · rintro (h | ⟨before, l, after, r, hsplit, hl, -⟩)
      · exact h.2
      · exact (not_none_usable hnone hsplit hl).elim
  | some s =>
    obtain ⟨before, l, after, hsplit, rfl, hl, hafter⟩ := last_usable_split hstart
    obtain ⟨before, rest, rfl, rfl, hrest⟩ := List.map_eq_append_iff.mp hsplit
    obtain ⟨l, after, rfl, rfl, rfl⟩ := List.map_eq_cons_iff.mp hrest
    obtain ⟨r, hr⟩ := restart_of_usable hl
    rw [List.length_map, walk_from hr]
    constructor
    · intro h
      exact Or.inr ⟨_, _, _, r, hsplit, hl, hafter, hr, h.1, h.2⟩
    · rintro (h | ⟨before', l', after', r', hsplit', hl', hafter', hr', hcount, hwhole⟩)
      · exact (not_none_usable h.1 hsplit hl).elim
      · have hsame := last_usable_some hl' hafter'
        rw [← hsplit', hstart] at hsame
        rw [hsplit] at hsplit'
        obtain ⟨-, htail⟩ := List.append_inj hsplit' (Option.some.inj hsame)
        obtain ⟨rfl, rfl⟩ := List.cons.inj htail
        rw [hr] at hr'
        cases hr'
        exact ⟨hcount, hwhole⟩

theorem verify_count (dir : Directory) (anchor : Option AuditChainAnchor)
    (key : Option AuditRestartKey) :
    (verify C dir anchor key).breakCount = 0 ↔
      CountedOk .breaks ((linksOf C dir key).map Prod.snd) ∧
        (checkTail C dir anchor).isTruncated = false := by
  rw [← counted_ok_iff (C := C)]
  exact (verdict_walk dir anchor key).2

theorem whole_ok_sound {tail : Option Text} (hsound : ∀ l ∈ links, LinkSound l)
    (h : WholeOk .breaks tail links) : WholeOk .hashes tail links := by
  induction links generalizing tail with
  | nil => trivial
  | cons l links ih =>
    obtain ⟨hl, hrest⟩ := List.forall_mem_cons.mp hsound
    exact ⟨h.1, hl.whole h.2.1, ih hrest h.2.2⟩

theorem counted_ok_sound (hsound : ∀ l ∈ links, LinkSound l) (h : CountedOk .breaks links) :
    CountedOk .hashes links := by
  rcases h with h | ⟨before, l, after, r, rfl, hl, hafter, hr, hcount, hwhole⟩
  · exact Or.inl ⟨h.1, whole_ok_sound hsound h.2⟩
  · refine Or.inr ⟨before, l, after, r, rfl, hl, hafter, hr, ?_, ?_⟩
    · exact (hsound l (by simp)).after r hr hcount
    · exact whole_ok_sound (fun x hx => hsound x (by simp [hx])) hwhole

theorem links_sound (key : Option AuditRestartKey) (files : Directory) :
    ∀ f ∈ files, LinkSound (fileLink C key f) := fun _ _ => file_link_sound _ _ _

theorem chain_ok_of_count {dir : Directory}
    (h : (verify C dir anchor key).breakCount = 0) : (verify C dir anchor key).chainOk = true := by
  obtain ⟨hcounted, htrunc⟩ := (verify_count dir anchor key).mp h
  have hlinks : ∀ l ∈ (linksOf C dir key).map Prod.snd, LinkSound l := by
    rw [links_eq]
    exact List.forall_mem_map.mpr (links_sound key _)
  exact (verdict_walk dir anchor key).1.mpr
    ⟨counted_ok_iff.mpr (counted_ok_sound hlinks hcounted), htrunc⟩

theorem verify_restarted {dir : Directory} :
    (verify C dir anchor key).restarted =
      (lastUsableRestart ((linksOf C dir key).map Prod.snd)).isSome := rfl

end NetRuleRouter.RestartLinks
