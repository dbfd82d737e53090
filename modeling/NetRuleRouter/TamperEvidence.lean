import NetRuleRouter.TrailLinks
import NetRuleRouter.AuditJson

/-!
# The audit chain is tamper-evident

The hash of a line covers the line itself or a rendering of its event, as the
line's own text decides. Either way the covered text still reads as the event
but for its hash, so a hash and the text it covers fix the event, and two
trails that end in one hash tell one history as far back as both go.
-/

set_option autoImplicit false

namespace NetRuleRouter.TamperEvidence
open TextOps TextLines Utf8 AuditEvents AuditTrail TrailLinks AuditJson
open HashChains (Chained)

variable (C : AuditCodec)

def readEvents (dir : Directory) : List AuditEvent :=
  (listAuditFiles dir).flatMap fun f => (decode f.bytes).elim [] (eventsOfText C)

def hashedFrom : Option Text → List Covered → List Text
  | _, [] => []
  | tail, e :: events =>
    (tail.getD (claimedPrev e.1) ++ e.2) :: hashedFrom (some e.1.eventHash) events

def hashedTexts (dir : Directory) : List Text :=
  (listAuditFiles dir).flatMap fun f => hashedFrom none (fileEvents C f)

/-- The first event follows nothing or a hash of 64 hexadecimal digits. -/
def FirstPlausible (dir : Directory) : Prop :=
  ∀ e ∈ (readEvents C dir).head?, ∀ p ∈ e.prevHash, p.length = 64 ∧ isHexText p = true

variable {C} {events : List Covered} {prev : Text} {files : Directory} {e : AuditEvent}

theorem covered_reads {line : Text} {covered : Text}
    (h : parseEvent C line = some (e, covered)) (hhex : isHexText e.eventHash = true) :
    ∃ hash, C.parse covered = some { e with eventHash := hash } := by
  rw [parseEvent, Option.map_eq_some_iff] at h
  obtain ⟨e', hparse, heq⟩ := h
  obtain ⟨rfl, rfl⟩ := Prod.mk.inj heq
  split
  · rename_i honce
    exact C.parse_emptied line e' hparse hhex honce.2
  · exact ⟨[], C.parse_render _⟩

theorem same_event {line line' : Text} {e' : AuditEvent} {covered : Text}
    (h : parseEvent C line = some (e, covered)) (h' : parseEvent C line' = some (e', covered))
    (hhash : e.eventHash = e'.eventHash) (hhex : isHexText e.eventHash = true) : e = e' := by
  obtain ⟨hash, hread⟩ := covered_reads h hhex
  obtain ⟨hash', hread'⟩ := covered_reads h' (hhash ▸ hhex)
  rw [hread, Option.some.injEq] at hread'
  cases e
  cases e'
  simp_all

/-- An event as it stands on some line, with a hash. -/
def Read (C : AuditCodec) (e : Covered) : Prop :=
  (∃ line, parseEvent C line = some e) ∧ isHexText e.1.eventHash = true

theorem same_links_same_events {a b : List Covered} (ha : ∀ e ∈ a, Read C e)
    (hb : ∀ e ∈ b, Read C e) (h : a.map chainLink = b.map chainLink) :
    a.map Prod.fst = b.map Prod.fst := by
  induction a generalizing b with
  | nil =>
    obtain rfl : b = [] := by simpa using h.symm
    rfl
  | cons e a ih =>
    cases b with
    | nil => simp at h
    | cons e' b =>
      rw [List.map_cons, List.map_cons, List.cons.injEq] at h
      obtain ⟨⟨line, hline⟩, hhex⟩ := ha e (by simp)
      obtain ⟨⟨line', hline'⟩, -⟩ := hb e' (by simp)
      obtain ⟨hhash, hbody⟩ := HashChains.Link.mk.inj h.1
      have hcovered : parseEvent C line' = some (e'.1, e.2) := by rw [hline', hbody]
      have hsame : e.1 = e'.1 := same_event hline hcovered hhash hhex
      rw [List.map_cons, List.map_cons, hsame,
        ih (fun x hx => ha x (by simp [hx])) (fun x hx => hb x (by simp [hx])) h.2]

theorem events_read (dir : Directory) :
    readEvents C dir = (trailEvents C (listAuditFiles dir)).map Prod.fst := by
  have hlines (ls : List Text) :
      (ls.filter fun l => !isBlank l).filterMap C.parse = (parsedLines C ls).map Prod.fst := by
    rw [parsedLines, List.map_filterMap]
    refine List.filterMap_congr fun l _ => ?_
    simp [parseEvent, Option.map_map, Function.comp_def]
  rw [readEvents, trailEvents, List.map_flatMap]
  refine List.flatMap_congr fun f _ => ?_
  unfold fileEvents fileLines
  cases decode f.bytes with
  | none => rfl
  | some text => exact hlines (lines text)

theorem chained_hex (h : Chained (computeChainHash C) prev (events.map chainLink)) :
    ∀ e ∈ events, isHexText e.1.eventHash = true ∧ e.1.eventHash.length = 64 := by
  induction events generalizing prev with
  | nil => simp
  | cons e events ih =>
    obtain ⟨hhash, hrest⟩ := chained_cons.mp h
    intro d hd
    rcases List.mem_cons.mp hd with rfl | hd
    · rw [hhash]
      exact ⟨C.sha256_hex _, C.sha256_length _⟩
    · exact ih hrest d hd

theorem trail_events_read
    (h : Chained (computeChainHash C) prev ((trailEvents C files).map chainLink)) :
    ∀ e ∈ trailEvents C files, Read C e := by
  intro e he
  refine ⟨?_, (chained_hex h e he).1⟩
  obtain ⟨f, -, hf⟩ := List.mem_flatMap.mp he
  obtain ⟨line, -, hline⟩ := List.mem_filterMap.mp hf
  exact ⟨line, hline⟩

theorem hashed_from_inputs (tail : Option Text) (events : List Covered) :
    hashedFrom tail events =
      (HashChains.inputs (chainStart tail events) (events.map chainLink)).map
        fun x => x.1 ++ x.2 := by
  induction events generalizing tail with
  | nil => rfl
  | cons e events ih =>
    rw [hashedFrom, ih]
    rfl

theorem hashed_trail {tail : Option Text} (h : Linked C tail files) :
    files.flatMap (fun f => hashedFrom none (fileEvents C f)) =
      (HashChains.inputs (chainStart tail (trailEvents C files))
        ((trailEvents C files).map chainLink)).map fun x => x.1 ++ x.2 := by
  induction files generalizing tail with
  | nil => rfl
  | cons f files ih =>
    obtain ⟨hseam, -, hrest⟩ := h
    have hevents : trailEvents C (f :: files) = fileEvents C f ++ trailEvents C files := rfl
    rw [List.flatMap_cons, ih hrest, hevents, List.map_append, HashChains.inputs_append,
      List.map_append, hashed_from_inputs]
    cases hev : fileEvents C f with
    | nil => simp [HashChains.inputs, HashChains.tail, tailOf]
    | cons e events =>
      rw [hev] at hseam
      have hseam : tail.all (· == claimedPrev e.1) = true := by simpa using hseam
      -- the next file starts from the last event of this one
      rw [List.cons_append, chain_start_seam hseam,
        tail_chain_start tail (List.cons_ne_nil e events) _ (trailEvents C files)]
      rfl

theorem inputs_prev_length (hprev : prev.length = 64)
    (h : Chained (computeChainHash C) prev (events.map chainLink)) :
    ∀ x ∈ HashChains.inputs prev (events.map chainLink), x.1.length = 64 := by
  induction events generalizing prev with
  | nil => simp [HashChains.inputs]
  | cons e events ih =>
    obtain ⟨hhash, hrest⟩ := chained_cons.mp h
    intro x hx
    rcases List.mem_cons.mp hx with rfl | hx
    · exact hprev
    · exact ih ((chained_hex h e (by simp)).2) hrest x hx

theorem verified_chain {dir : Directory} {anchor : Option AuditChainAnchor}
    (hcount : (verify C dir anchor none).breakCount = 0) (hfirst : FirstPlausible C dir) :
    ∃ prev, Chained (computeChainHash C) prev
        ((trailEvents C (listAuditFiles dir)).map chainLink) ∧
      ∀ x ∈ HashChains.inputs prev ((trailEvents C (listAuditFiles dir)).map chainLink),
        x.1.length = 64 ∧ x.1 ++ x.2 ∈ hashedTexts C dir := by
  have hlinked := ((verify_spec dir anchor none (no_key_unsealed _)).2.mp hcount).1
  have hchained := linked_chained hlinked
  refine ⟨_, hchained, fun x hx => ⟨?_, ?_⟩⟩
  · refine inputs_prev_length ?_ hchained x hx
    rw [FirstPlausible, events_read] at hfirst
    cases hev : trailEvents C (listAuditFiles dir) with
    | nil => rfl
    | cons e events =>
      rw [hev] at hfirst
      change (claimedPrev e.1).length = 64
      rw [claimedPrev]
      cases hp : e.1.prevHash with
      | none => rfl
      | some p => exact (hfirst e.1 rfl p hp).1
  · rw [hashedTexts, hashed_trail hlinked]
    exact List.mem_map.mpr ⟨x, hx, rfl⟩

theorem chain_tail_last (h : (events.map Prod.fst).getLast? = some e) :
    HashChains.tail prev (events.map chainLink) = e.eventHash := by
  rcases List.eq_nil_or_concat events with rfl | ⟨front, l, rfl⟩
  · simp at h
  · rw [List.concat_eq_append, List.map_append, List.map_singleton] at h ⊢
    rw [HashChains.tail_concat]
    simp only [List.getLast?_concat, Option.some.injEq] at h
    rw [← h]
    rfl

theorem suffix_of_links {a b : List Covered} (ha : ∀ e ∈ a, Read C e) (hb : ∀ e ∈ b, Read C e)
    {x : List (HashChains.Link Text Text)} (h : b.map chainLink = x ++ a.map chainLink) :
    a.map Prod.fst <:+ b.map Prod.fst := by
  obtain ⟨front, back, rfl, -, hback⟩ := List.map_eq_append_iff.mp h
  have hsame := same_links_same_events ha (fun e he => hb e (by simp [he])) hback.symm
  exact ⟨front.map Prod.fst, by rw [hsame, List.map_append]⟩

variable (C)

/-- The audit chain is tamper-evident: of two directories that verify without a break and end in
one hash, one tells the end of the other's history. -/
theorem audit_tamper_evident (dir dir' : Directory) (anchor anchor' : Option AuditChainAnchor)
    (hcount : (verify C dir anchor none).breakCount = 0)
    (hcount' : (verify C dir' anchor' none).breakCount = 0)
    (hfirst : FirstPlausible C dir) (hfirst' : FirstPlausible C dir') (e e' : AuditEvent)
    (hlast : (readEvents C dir).getLast? = some e)
    (hlast' : (readEvents C dir').getLast? = some e') (hsame : e.eventHash = e'.eventHash)
    (hcollision : Set.InjOn C.sha256 {t | t ∈ hashedTexts C dir ∨ t ∈ hashedTexts C dir'}) :
    readEvents C dir <:+ readEvents C dir' ∨ readEvents C dir' <:+ readEvents C dir := by
  obtain ⟨prev, hchain, hinputs⟩ := verified_chain hcount hfirst
  obtain ⟨prev', hchain', hinputs'⟩ := verified_chain hcount' hfirst'
  have hread := trail_events_read hchain
  have hread' := trail_events_read hchain'
  rw [events_read] at hlast hlast' ⊢
  rw [events_read]
  have htail := (@chain_tail_last _ prev _ hlast).trans
    (hsame.trans (@chain_tail_last _ prev' _ hlast').symm)
  have hinj : Set.InjOn (fun x : Text × Text => computeChainHash C x.1 x.2)
      {x | x ∈ HashChains.inputs prev ((trailEvents C (listAuditFiles dir)).map chainLink) ∨
        x ∈ HashChains.inputs prev' ((trailEvents C (listAuditFiles dir')).map chainLink)} := by
    have hboth {x : Text × Text}
        (hx : x ∈ HashChains.inputs prev ((trailEvents C (listAuditFiles dir)).map chainLink) ∨
          x ∈ HashChains.inputs prev' ((trailEvents C (listAuditFiles dir')).map chainLink)) :
        x.1.length = 64 ∧ (x.1 ++ x.2 ∈ hashedTexts C dir ∨ x.1 ++ x.2 ∈ hashedTexts C dir') := by
      rcases hx with hx | hx
      · exact ⟨(hinputs x hx).1, Or.inl (hinputs x hx).2⟩
      · exact ⟨(hinputs' x hx).1, Or.inr (hinputs' x hx).2⟩
    intro x hx y hy hxy
    obtain ⟨hlen, hmem⟩ := hboth hx
    obtain ⟨hlen', hmem'⟩ := hboth hy
    have htext := hcollision hmem hmem' hxy
    obtain ⟨hprev, hbody⟩ := List.append_inj htext (hlen.trans hlen'.symm)
    exact Prod.ext hprev hbody
  rcases HashChains.same_tail_ends _ hchain hchain' htail hinj with ⟨x, hx, -⟩ | ⟨x, hx, -⟩
  · exact Or.inl (suffix_of_links hread hread' hx)
  · exact Or.inr (suffix_of_links hread' hread hx)

def sampleTrail : Directory :=
  [⟨"nrr_audit_20260830-1.ndjson".toList,
    encode (sampleLine 1 1 auditChainGenesis ++ sampleLine 2 2 firstHash)⟩]

def sampleEnd : Directory :=
  [⟨"nrr_audit_20260830-1.ndjson".toList, encode (sampleLine 2 2 firstHash)⟩]

theorem sample_end_evident :
    readEvents sampleCodec sampleTrail <:+ readEvents sampleCodec sampleEnd ∨
      readEvents sampleCodec sampleEnd <:+ readEvents sampleCodec sampleTrail := by
  have hfirst (dir : Directory) (h : (readEvents sampleCodec dir).head?.all (fun e =>
      e.prevHash.all fun p => decide (p.length = 64) && isHexText p) = true) :
      FirstPlausible sampleCodec dir := by
    intro e he p hp
    rw [Option.mem_def] at he hp
    rw [he, Option.all_some, hp, Option.all_some, Bool.and_eq_true, decide_eq_true_eq] at h
    exact h
  have hchecks : (verify sampleCodec sampleTrail none none).breakCount = 0 ∧
      (verify sampleCodec sampleEnd none none).breakCount = 0 ∧
      (readEvents sampleCodec sampleTrail).head?.all (fun e =>
        e.prevHash.all fun p => decide (p.length = 64) && isHexText p) = true ∧
      (readEvents sampleCodec sampleEnd).head?.all (fun e =>
        e.prevHash.all fun p => decide (p.length = 64) && isHexText p) = true ∧
      (readEvents sampleCodec sampleTrail).getLast? =
        some (buildEvent sampleCodec (sampleInput 2) 2 firstHash) ∧
      (readEvents sampleCodec sampleEnd).getLast? =
        some (buildEvent sampleCodec (sampleInput 2) 2 firstHash) ∧
      ∀ a ∈ hashedTexts sampleCodec sampleTrail ++ hashedTexts sampleCodec sampleEnd,
        ∀ b ∈ hashedTexts sampleCodec sampleTrail ++ hashedTexts sampleCodec sampleEnd,
          sampleCodec.sha256 a = sampleCodec.sha256 b → a = b := by
    decide +kernel
  obtain ⟨hcount, hcount', hhead, hhead', hlast, hlast', hdistinct⟩ := hchecks
  refine audit_tamper_evident sampleCodec sampleTrail sampleEnd none none hcount hcount'
    (hfirst _ hhead) (hfirst _ hhead') _ _ hlast hlast' rfl ?_
  intro a ha b hb hab
  exact hdistinct a (List.mem_append.mpr ha) b (List.mem_append.mpr hb) hab

end NetRuleRouter.TamperEvidence
