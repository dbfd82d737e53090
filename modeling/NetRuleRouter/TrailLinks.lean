import NetRuleRouter.AuditTrail
import NetRuleRouter.HashChains

/-!
# What the verifier accepts

A file is accepted where every line that is not blank is an event and each
event's hash covers the hash before it; a directory where also each file's
first event claims the last event before it. Without a sealed restart in
sight these are the only questions the verdict answers.
-/

set_option autoImplicit false

namespace NetRuleRouter.TrailLinks
open TextOps TextLines Utf8 AuditEvents AuditTrail
open HashChains (Chained)

variable (C : AuditCodec)

abbrev Covered := AuditEvent × Text

def chainLink (e : Covered) : HashChains.Link Text Text := ⟨e.1.eventHash, e.2⟩

def parsedLines (ls : List Text) : List Covered :=
  (ls.filter fun l => !isBlank l).filterMap (parseEvent C)

def AllParsed (ls : List Text) : Prop :=
  ∀ l ∈ ls, isBlank l = false → (parseEvent C l).isSome = true

/-- What the first of some events is checked against: the tail before it, or what it claims. -/
def chainStart (tail : Option Text) (events : List Covered) : Text :=
  tail.getD ((events.head?.map fun e => claimedPrev e.1).getD auditChainGenesis)

def tailOf (tail : Option Text) (events : List Covered) : Option Text :=
  (events.getLast?.map fun e => e.1.eventHash).or tail

variable {C} {ls : List Text} {l : Text} {event : AuditEvent} {expected : Text} {lineNo : ℕ}

theorem parsed_lines_cons (l : Text) (ls : List Text) :
    parsedLines C (l :: ls) =
      (if isBlank l then none else parseEvent C l).toList ++ parsedLines C ls := by
  unfold parsedLines
  cases hb : isBlank l with
  | true => simp [hb]
  | false =>
    cases hp : parseEvent C l with
    | none | some e => simp [hb, hp]

theorem parsed_lines_append (a b : List Text) :
    parsedLines C (a ++ b) = parsedLines C a ++ parsedLines C b := by
  simp [parsedLines]

theorem tail_of_cons (tail : Option Text) (e : Covered) (events : List Covered) :
    tailOf tail (e :: events) = tailOf (some e.1.eventHash) events := by
  unfold tailOf
  cases events with
  | nil => rfl
  | cons d events => simp [List.getLast?_eq_getLast_of_ne_nil]

theorem tail_of_append (tail : Option Text) (a b : List Covered) :
    tailOf tail (a ++ b) = tailOf (tailOf tail a) b := by
  induction a generalizing tail with
  | nil => simp [tailOf]
  | cons e a ih => rw [List.cons_append, tail_of_cons, ih, tail_of_cons]

theorem chained_cons {prev : Text} {e : Covered} {events : List Covered} :
    Chained (computeChainHash C) prev ((e :: events).map chainLink) ↔
      e.1.eventHash = computeChainHash C prev e.2 ∧
        Chained (computeChainHash C) e.1.eventHash (events.map chainLink) := Iff.rfl

section
variable {fileName : Text} {key : Option AuditRestartKey}

def Unsealed (C : AuditCodec) (key : Option AuditRestartKey) (events : List Covered) : Prop :=
  ∀ e ∈ events, isSealedRestart C e.1 key = false

/-- What is asked of a stretch of the chain: that no hash breaks, or that nothing does. -/
inductive Question where
  | hashes
  | breaks

def Question.segment : Question → Segment → Prop
  | .hashes, s => s.firstHashBreak = none
  | .breaks, s => s.breaks.count = 0

/-- What is asked of lines besides their hashes. -/
def Question.parsed (C : AuditCodec) : Question → List Text → Prop
  | .hashes, _ => True
  | .breaks, ls => AllParsed C ls

theorem parsed_cons (q : Question) (h : isBlank l = false → (parseEvent C l).isSome = true) :
    q.parsed C (l :: ls) ↔ q.parsed C ls := by
  cases q with
  | hashes => exact Iff.rfl
  | breaks => exact List.forall_mem_cons.trans (and_iff_right h)

theorem record_mismatch (q : Question) (s : Segment) (found : Option AuditChainBreak)
    (hkind : ∀ b ∈ found, b.kind = .hashMismatch) :
    q.segment (s.record found) ↔ q.segment s ∧ found = none := by
  cases found with
  | none => cases q <;> simp [Question.segment, Segment.record]
  | some b =>
    have hb := hkind b rfl
    cases q <;> simp [Question.segment, Segment.record, hb, AuditChainBreakKind.breaksHashes,
      BreakLog.push]

theorem mismatch_none :
    mismatchOf fileName lineNo event expected = none ↔ event.eventHash = expected := by
  unfold mismatchOf
  split
  · rename_i h
    simp [h]
  · rename_i h
    simp [Ne.symm h]

theorem mismatch_kind :
    ∀ b ∈ mismatchOf fileName lineNo event expected, b.kind = .hashMismatch := by
  unfold mismatchOf
  split
  · simp
  · simp

structure Scanned (C : AuditCodec) (key : Option AuditRestartKey) (ls : List Text)
    (link done : FileLink) : Prop where
  tail : done.tailHash = tailOf link.tailHash (parsedLines C ls)
  first : done.firstPrev =
    link.firstPrev.or ((parsedLines C ls).head?.map fun e => claimedPrev e.1)
  whole (q : Question) : q.segment done.whole ↔ q.segment link.whole ∧ q.parsed C ls ∧
    Chained (computeChainHash C) (chainStart link.tailHash (parsedLines C ls))
      ((parsedLines C ls).map chainLink)
  restart : Unsealed C key (parsedLines C ls) → link.restart = none → done.restart = none

theorem scanned_nil (link : FileLink) : Scanned C key [] link link where
  tail := by simp [parsedLines, tailOf]
  first := by simp [parsedLines]
  whole q := by cases q <;> simp [parsedLines, Chained, Question.parsed, AllParsed]
  restart _ h := h

theorem scanned_skip {link done : FileLink} (hb : isBlank l = true)
    (h : Scanned C key ls link done) : Scanned C key (l :: ls) link done := by
  have hparsed : parsedLines C (l :: ls) = parsedLines C ls := by simp [parsed_lines_cons, hb]
  refine ⟨hparsed ▸ h.tail, hparsed ▸ h.first, fun q => ?_, hparsed ▸ h.restart⟩
  rw [parsed_cons q (by simp [hb]), hparsed]
  exact h.whole q

variable {link mid done : FileLink} {n : ℕ} (hb : isBlank l = false)
  (hmid : mid = verifyLine C fileName key link (l, n)) (h : Scanned C key ls mid done)
include hb hmid h

theorem scanned_corrupt (hp : parseEvent C l = none) : Scanned C key (l :: ls) link done := by
  have hparsed : parsedLines C (l :: ls) = parsedLines C ls := by simp [parsed_lines_cons, hb, hp]
  have hall : ¬AllParsed C (l :: ls) := by simp [AllParsed, hb, hp]
  simp only [verifyLine, hb, hp, Bool.false_eq_true, if_false] at hmid
  have htail : mid.tailHash = link.tailHash := by rw [hmid]
  have hfirst : mid.firstPrev = link.firstPrev := by rw [hmid]
  have hhash : mid.whole.firstHashBreak = link.whole.firstHashBreak := by
    rw [hmid]
    rfl
  have hcount : mid.whole.breaks.count ≠ 0 := by
    rw [hmid]
    simp [Segment.record, corruptLineBreak, AuditChainBreakKind.breaksHashes, BreakLog.push]
  refine ⟨?_, ?_, fun q => ?_, ?_⟩
  · rw [h.tail, htail, hparsed]
  · rw [h.first, hfirst, hparsed]
  · rw [h.whole, htail, hparsed]
    cases q with
    | hashes => simp only [Question.segment, Question.parsed, hhash]
    | breaks => simp [Question.segment, Question.parsed, hcount, hall]
  · intro hsealed hnone
    refine h.restart (hparsed ▸ hsealed) ?_
    rw [hmid]
    simp [hnone]

theorem scanned_event {e : Covered} (hp : parseEvent C l = some e) :
    Scanned C key (l :: ls) link done := by
  have hparsed : parsedLines C (l :: ls) = e :: parsedLines C ls := by
    simp [parsed_lines_cons, hb, hp]
  simp only [verifyLine, hb, hp, Bool.false_eq_true, if_false] at hmid
  have htail : mid.tailHash = some e.1.eventHash := by
    rw [hmid]
    rfl
  have hfirst : mid.firstPrev = link.firstPrev.or (some (claimedPrev e.1)) := by
    rw [hmid]
    rfl
  have hstart : chainStart link.tailHash (e :: parsedLines C ls) =
      link.tailHash.getD (claimedPrev e.1) := rfl
  have hnext : chainStart mid.tailHash (parsedLines C ls) = e.1.eventHash := by
    rw [htail]
    rfl
  have hwhole : mid.whole = link.whole.record (mismatchOf fileName (n + 1) e.1
      (computeChainHash C (link.tailHash.getD (claimedPrev e.1)) e.2)) := by
    rw [hmid]
    rfl
  refine ⟨?_, ?_, fun q => ?_, ?_⟩
  · rw [h.tail, htail, hparsed, tail_of_cons]
  · rw [h.first, hfirst, hparsed, List.head?_cons, Option.map_some]
    cases link.firstPrev <;> simp
  · rw [h.whole, parsed_cons q (by simp [hp]), hparsed, hstart, chained_cons, hnext, hwhole,
      record_mismatch q _ _ mismatch_kind, mismatch_none, and_assoc]
    refine and_congr_right fun _ => ?_
    rw [and_left_comm]
  · intro hsealed hnone
    rw [hparsed] at hsealed
    refine h.restart (fun d hd => hsealed d (by simp [hd])) ?_
    rw [hmid, verifyEvent]
    simp [hsealed e (by simp), hnone]

omit hb hmid h

theorem scanned_fold (ls : List Text) (n : ℕ) (link : FileLink) :
    Scanned C key ls link ((ls.zipIdx n).foldl (verifyLine C fileName key) link) := by
  induction ls generalizing n link with
  | nil => exact scanned_nil link
  | cons l ls ih =>
    rw [List.zipIdx_cons, List.foldl_cons]
    cases hb : isBlank l with
    | true =>
      have hkeep : verifyLine C fileName key link (l, n) = link := by simp [verifyLine, hb]
      rw [hkeep]
      exact scanned_skip hb (ih (n + 1) link)
    | false =>
      cases hp : parseEvent C l with
      | none => exact scanned_corrupt hb rfl (ih (n + 1) _) hp
      | some e => exact scanned_event hb rfl (ih (n + 1) _) hp

end

variable (C)

def fileLines (f : AuditFile) : List Text := (decode f.bytes).elim [] lines

def fileEvents (f : AuditFile) : List Covered := parsedLines C (fileLines f)

def trailEvents (files : Directory) : List Covered := files.flatMap (fileEvents C)

/-- Each file is a chain from what its first event claims, and that is the last event before
it. -/
def Linked : Option Text → Directory → Prop
  | _, [] => True
  | tail, f :: files =>
    ((fileEvents C f).head?.map fun e => claimedPrev e.1).all (fun p => tail.all (· == p)) = true ∧
      Chained (computeChainHash C) (chainStart none (fileEvents C f))
        ((fileEvents C f).map chainLink) ∧
      Linked (tailOf tail (fileEvents C f)) files

def Clean (f : AuditFile) : Prop := (decode f.bytes).isSome = true ∧ AllParsed C (fileLines f)

variable {C} {tail : Option Text}

/-- What is asked of a file besides its hashes. -/
def Question.clean (C : AuditCodec) : Question → AuditFile → Prop
  | .hashes, _ => True
  | .breaks, f => Clean C f

def fileLink (C : AuditCodec) (key : Option AuditRestartKey) (f : AuditFile) : FileLink :=
  verifyFileLink C f.name (decode f.bytes) key

theorem file_link_spec (f : AuditFile) (key : Option AuditRestartKey) :
    (fileLink C key f).tailHash = tailOf none (fileEvents C f) ∧
      (fileLink C key f).firstPrev = (fileEvents C f).head?.map (fun e => claimedPrev e.1) ∧
      (∀ q : Question, q.segment (fileLink C key f).whole ↔ q.clean C f ∧
        Chained (computeChainHash C) (chainStart none (fileEvents C f))
          ((fileEvents C f).map chainLink)) ∧
      (Unsealed C key (fileEvents C f) → (fileLink C key f).restart = none) := by
  unfold fileLink fileEvents fileLines
  cases hd : decode f.bytes with
  | none =>
    refine ⟨rfl, rfl, fun q => ?_, fun _ => rfl⟩
    cases q with
    | hashes => exact iff_of_true rfl ⟨trivial, trivial⟩
    | breaks =>
      refine iff_of_false ?_ (by simp [Question.clean, Clean, hd])
      simp [Question.segment, verifyFileLink, Segment.record, unreadableBreak,
        AuditChainBreakKind.breaksHashes, BreakLog.push]
  | some text =>
    have h := @scanned_fold C f.name key (lines text) 0 {}
    refine ⟨h.tail, h.first.trans (by simp), fun q => (h.whole q).trans ?_,
      fun hs => h.restart hs rfl⟩
    cases q <;> simp [Question.segment, Question.parsed, Question.clean, Clean, fileLines, hd]

def Question.walk : Question → Walk → Prop
  | .hashes, w => w.firstHashBreak = none
  | .breaks, w => w.breaks.count = 0

/-- The answer for some files, and for the places between them and the hash before them. -/
def WholeOk (q : Question) : Option Text → List FileLink → Prop
  | _, [] => True
  | tail, l :: links =>
    l.firstPrev.all (fun p => tail.all (· == p)) = true ∧ q.segment l.whole ∧
      WholeOk q (l.tailHash.or tail) links

theorem seam_none {name : Text} {link : FileLink} :
    seamBreak tail name link = none ↔
      link.firstPrev.all (fun p => tail.all (· == p)) = true := by
  unfold seamBreak
  cases tail with
  | none => cases link.firstPrev <;> simp
  | some t =>
    cases link.firstPrev with
    | none | some p => simp

theorem absorb_count (log other : BreakLog) :
    (log.absorb C other).count = log.count + other.count := by
  unfold BreakLog.absorb
  split
  · rename_i h
    simp [h]
  · rfl

theorem seam_push_count (w : BreakLog) (seam : Option AuditChainBreak) :
    ((seam.map w.push).getD w).count = 0 ↔ w.count = 0 ∧ seam = none := by
  cases seam with
  | none => simp
  | some b => simp [BreakLog.push]

theorem tail_of_or (tail : Option Text) (events : List Covered) :
    tailOf tail events = (tailOf none events).or tail := by
  simp [tailOf]

variable {q : Question}

theorem walk_new : q.walk {} := by
  cases q <;> rfl

theorem add_segment_walk (w : Walk) (s : Segment) (tail : Option Text) :
    q.walk (Walk.addSegment C w s tail) ↔ q.walk w ∧ q.segment s := by
  cases q with
  | hashes => exact Option.or_eq_none_iff
  | breaks => simp [Question.walk, Question.segment, Walk.addSegment, absorb_count]

theorem add_whole_walk (w : Walk) (name : Text) (l : FileLink) :
    q.walk (Walk.addWhole C w name l) ↔ q.walk w ∧
      l.firstPrev.all (fun p => w.prevTail.all (· == p)) = true ∧ q.segment l.whole := by
  rw [Walk.addWhole, add_segment_walk, ← and_assoc, ← @seam_none _ name]
  refine and_congr_left fun _ => ?_
  cases q with
  | hashes => exact Option.or_eq_none_iff
  | breaks => exact seam_push_count _ _

theorem walk_after {start : Option ℕ} {links : List (Text × FileLink)} {n : ℕ}
    (hn : ∀ s ∈ start, s < n) (w : Walk) :
    q.walk ((links.zipIdx n).foldl (walkFile C start) w) ↔
      q.walk w ∧ WholeOk q w.prevTail (links.map Prod.snd) := by
  induction links generalizing n w with
  | nil => simp [WholeOk]
  | cons l links ih =>
    have hstep : walkFile C start w (l, n) = Walk.addWhole C w l.1 l.2 := by
      unfold walkFile
      cases start with
      | none => cases l.2.restart <;> rfl
      | some s =>
        have hlt := hn s rfl
        have hskip : (some s).any (n < ·) = false := by
          simp only [Option.any_some, decide_eq_false_iff_not]
          omega
        rw [hskip, if_neg Bool.false_ne_true]
        cases l.2.restart with
        | none => rfl
        | some r => exact if_neg (by omega)
    rw [List.zipIdx_cons, List.foldl_cons, hstep,
      ih (fun s hs => Nat.lt_succ_of_lt (hn s hs)), add_whole_walk, List.map_cons, WholeOk,
      and_assoc, and_assoc]
    rfl

theorem whole_linked (key : Option AuditRestartKey) (tail : Option Text) (files : Directory) :
    WholeOk q tail (files.map (fileLink C key)) ↔
      Linked C tail files ∧ ∀ f ∈ files, q.clean C f := by
  induction files generalizing tail with
  | nil => simp [WholeOk, Linked]
  | cons f files ih =>
    obtain ⟨htail, hfirst, hwhole, -⟩ := @file_link_spec C f key
    rw [List.map_cons, WholeOk, ih, hwhole, hfirst, htail, ← tail_of_or, List.forall_mem_cons,
      Linked]
    tauto

theorem no_usable_restart {links : List FileLink} (h : ∀ l ∈ links, l.restart = none) :
    lastUsableRestart links = none := by
  unfold lastUsableRestart
  rw [List.find?_eq_none]
  intro index _
  cases hl : links[index]? with
  | none => simp
  | some l => simp [usableRestart, h l (List.mem_of_getElem? hl)]

theorem links_eq (dir : Directory) (key : Option AuditRestartKey) :
    (linksOf C dir key).map Prod.snd = (listAuditFiles dir).map (fileLink C key) := by
  rw [linksOf, List.map_map]
  rfl

/-- The verdict asks the walk, and whether the anchored end is missing. -/
theorem verdict_walk (dir : Directory) (anchor : Option AuditChainAnchor)
    (key : Option AuditRestartKey) :
    let links := linksOf C dir key
    let w := (links.zipIdx).foldl (walkFile C (lastUsableRestart (links.map Prod.snd))) {}
    ((verify C dir anchor key).chainOk = true ↔
        Question.hashes.walk w ∧ (checkTail C dir anchor).isTruncated = false) ∧
      ((verify C dir anchor key).breakCount = 0 ↔
        Question.breaks.walk w ∧ (checkTail C dir anchor).isTruncated = false) := by
  unfold verify verdictOf
  dsimp only
  refine ⟨?_, ?_⟩
  · rw [Bool.and_eq_true, Option.isNone_iff_eq_none, Bool.not_eq_true']
    exact Iff.rfl
  · cases anchor with
    | none => simp [Question.walk, checkTail, AuditTailIntegrity.isTruncated]
    | some a =>
      cases htrunc : (checkTail C dir (some a)).isTruncated with
      | true => simp [BreakLog.push]
      | false => simp [Question.walk]

theorem verify_spec (dir : Directory) (anchor : Option AuditChainAnchor)
    (key : Option AuditRestartKey) (hsealed : Unsealed C key (trailEvents C (listAuditFiles dir))) :
    ((verify C dir anchor key).chainOk = true ↔
        Linked C none (listAuditFiles dir) ∧ (checkTail C dir anchor).isTruncated = false) ∧
      ((verify C dir anchor key).breakCount = 0 ↔
        Linked C none (listAuditFiles dir) ∧ (∀ f ∈ listAuditFiles dir, Clean C f) ∧
          (checkTail C dir anchor).isTruncated = false) := by
  have hstart : lastUsableRestart ((linksOf C dir key).map Prod.snd) = none := by
    rw [links_eq]
    refine no_usable_restart (List.forall_mem_map.mpr fun f hf => ?_)
    exact (file_link_spec f key).2.2.2 fun e he => hsealed e (List.mem_flatMap.mpr ⟨f, hf, he⟩)
  have hwalk (q : Question) : q.walk (((linksOf C dir key).zipIdx).foldl (walkFile C none) {}) ↔
      Linked C none (listAuditFiles dir) ∧ ∀ f ∈ listAuditFiles dir, q.clean C f := by
    rw [walk_after (by simp), links_eq, and_iff_right walk_new]
    exact whole_linked key none _
  obtain ⟨hhashes, hcount⟩ := @verdict_walk C dir anchor key
  rw [hstart, hwalk] at hhashes hcount
  refine ⟨hhashes.trans ?_, hcount.trans and_assoc⟩
  simp [Question.clean]

theorem no_key_unsealed (events : List Covered) : Unsealed C none events := by
  intro e _
  rfl

theorem chain_start_seam {e : Covered} {events : List Covered}
    (hseam : tail.all (· == claimedPrev e.1) = true) :
    chainStart tail (e :: events) = claimedPrev e.1 := by
  cases tail with
  | none => rfl
  | some t => exact beq_iff_eq.mp hseam

theorem tail_chain_start (tail : Option Text) {events : List Covered} (hne : events ≠ [])
    (prev : Text) (rest : List Covered) :
    HashChains.tail prev (events.map chainLink) = chainStart (tailOf tail events) rest := by
  rcases List.eq_nil_or_concat events with hnil | ⟨front, l, rfl⟩
  · exact absurd hnil hne
  · rw [List.concat_eq_append, List.map_append, List.map_singleton, HashChains.tail_concat]
    simp [tailOf, chainStart, chainLink]

theorem linked_chained {files : Directory} (h : Linked C tail files) :
    Chained (computeChainHash C) (chainStart tail (trailEvents C files))
      ((trailEvents C files).map chainLink) := by
  induction files generalizing tail with
  | nil => exact trivial
  | cons f files ih =>
    obtain ⟨hseam, hfile, hrest⟩ := h
    have hnext := ih hrest
    rw [trailEvents, List.flatMap_cons, List.map_append, HashChains.chained_append]
    cases hev : fileEvents C f with
    | nil =>
      rw [hev] at hnext
      simpa [Chained, HashChains.tail, tailOf, trailEvents] using hnext
    | cons e events =>
      rw [hev] at hseam hfile hnext
      rw [List.cons_append, chain_start_seam (by simpa using hseam)]
      refine ⟨hfile, ?_⟩
      rw [tail_chain_start tail (List.cons_ne_nil e events)]
      exact hnext

end NetRuleRouter.TrailLinks
