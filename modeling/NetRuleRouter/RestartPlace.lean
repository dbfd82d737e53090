import NetRuleRouter.FlatJson
import NetRuleRouter.CommittedLines
import NetRuleRouter.RestartLinks

/-!
# Restarting the chain, and the place a restart goes to

An administrator who was shown the breaks can restart the chain: the writer
links a sealed event onto the last event on disk. The event counts and is the
last thing the verifier sees when its file is still where it was created,
holds whole lines up to the writer's offset and white space past it, and every
file listed after it is blank.
-/

set_option autoImplicit false

namespace NetRuleRouter.RestartPlace
open TextOps TextLines Utf8 Sorting AuditEvents AuditTrail RotationNames TrailLinks AuditWriter
open CommittedLines RestartLinks Numerals FlatJson

structure AuditChainRestartRequest where
  eventId : Text
  createdAt : Int64
  actorIdHash : Option Text
  deriving DecidableEq, Repr

inductive AuditChainRestartError where
  | intact
  | changedSinceShown
  | write
  deriving DecidableEq, Repr

def firstBreakJson (b : AuditChainBreak) : Text :=
  "\x7b\"file\":".toList ++ quote b.fileName ++ ",\"kind\":".toList ++ quote b.kind.slug ++
    ",\"line\":".toList ++ numeral 10 b.line ++ ",\"seq\":".toList ++
    (b.seq.elim "null".toList fun s => numeral 10 s.toNat) ++ ['}']

def restartPayload (verdict : AuditChainVerification) (shownDigest head : Text) : Text :=
  "\x7b\"breaks\":".toList ++ numeral 10 verdict.breakCount ++ ",\"breaks_digest\":".toList ++
    quote shownDigest ++ ",\"first_break\":".toList ++
    (verdict.breaks.head?.elim "null".toList firstBreakJson) ++ ",\"head\":".toList ++ quote head ++
    ['}']

def restartInput (request : AuditChainRestartRequest) (verdict : AuditChainVerification)
    (shownDigest head : Text) : AuditEventInput where
  eventId := request.eventId
  kind := .auditChainRestarted
  createdAt := request.createdAt
  actorKind := .user
  actorIdHash := request.actorIdHash
  revisionId := none
  riskLevel := none
  result := .success
  reasonCode := "integrity.audit_chain_restarted".toList
  payloadSummaryJson := some (restartPayload verdict shownDigest head)

structure Restarted where
  writer : Writer
  files : Directory
  anchor : Option AuditChainAnchor
  result : Except AuditChainRestartError AuditChainVerification

variable (C : AuditCodec)

def owned (holdsLock : Bool) (w : Writer) (dir : Directory) (anchor : Option AuditChainAnchor) :
    Writer :=
  if holdsLock then w else w.resumed C dir anchor

def commitRestart (w : Writer) (dir : Directory) (anchor : Option AuditChainAnchor)
    (key : AuditRestartKey) (input : AuditEventInput) (verdict : AuditChainVerification)
    (outcome : LineOutcome) (saved : Bool) : Restarted :=
  match w.current with
  | none => ⟨w, dir, anchor, .error .write⟩
  | some file =>
    let event := buildSealedEvent C input w.nextSeq w.prevHash key
    let done := w.commitEvent C file event dir anchor outcome saved
    ⟨done.writer, done.files, done.anchor,
      if done.location.isSome then .ok verdict else .error .write⟩

def restartInner (holdsLock : Bool) (w : Writer) (dir : Directory)
    (anchor : Option AuditChainAnchor) (key : AuditRestartKey) (shownDigest : Text)
    (request : AuditChainRestartRequest) (r : Reading) (outcome : LineOutcome) (saved : Bool) :
    Restarted :=
  let w := owned C holdsLock w dir anchor
  let verdict := verify C dir anchor (some key)
  match verdict.breaksDigest with
  | none => ⟨w, dir, anchor, .error .intact⟩
  | some digest =>
    if digest ≠ shownDigest then ⟨w, dir, anchor, .error .changedSinceShown⟩
    else
      let head := (resumeChainState C dir).1
      let w := { w with prevHash := head }
      match w.ensureOpen dir r with
      | none => ⟨{ w with current := none }, dir, anchor, .error .write⟩
      | some (w, files) =>
        commitRestart C w files anchor key (restartInput request verdict shownDigest head) verdict
          outcome saved

variable {C : AuditCodec} {e : AuditEvent} {key : Option AuditRestartKey} {ls : List Text}

def Blank (g : AuditFile) : Prop := ∃ v, g.bytes = encode v ∧ isBlank v = true

theorem blank_lines {v : Text} (h : isBlank v = true) : ∀ l ∈ lines v, isBlank l = true := by
  intro l hl
  rw [is_blank_iff] at h ⊢
  exact fun c hc => h c (lines_chars hl c hc)

theorem scan_blank {fileName : Text} (h : ∀ l ∈ ls, isBlank l = true) (n : ℕ) (link : FileLink) :
    (ls.zipIdx n).foldl (verifyLine C fileName key) link = link := by
  induction ls generalizing n with
  | nil => rfl
  | cons l ls ih =>
    have hskip : verifyLine C fileName key link (l, n) = link := by
      rw [verifyLine, h l (by simp)]
      rfl
    rw [List.zipIdx_cons, List.foldl_cons, hskip]
    exact ih (fun x hx => h x (by simp [hx])) (n + 1)

theorem blank_link {g : AuditFile} (h : Blank g) (key : Option AuditRestartKey) :
    verifyFileLink C g.name (decode g.bytes) key = {} := by
  obtain ⟨v, hv, hblank⟩ := h
  rw [hv, decode_encode, verifyFileLink]
  exact scan_blank (blank_lines hblank) 0 {}

theorem parsed_blank (h : ∀ l ∈ ls, isBlank l = true) : parsedLines C ls = [] := by
  rw [parsedLines, List.filter_eq_nil_iff.mpr (by simpa using h), List.filterMap_nil]

theorem blank_events {g : AuditFile} (h : Blank g) : fileEvents C g = [] := by
  obtain ⟨v, hv, hblank⟩ := h
  rw [fileEvents, fileLines, hv, decode_encode]
  exact parsed_blank (blank_lines hblank)

theorem blank_files_events {files : Directory} (h : ∀ g ∈ files, Blank g) :
    trailEvents C files = [] := by
  rw [trailEvents, List.flatMap_eq_nil_iff]
  exact fun g hg => blank_events (h g hg)

/-- The file the writer holds is where it was created; it has whole lines up to the writer's offset
and plain white space past it, and the files listed after it are blank. -/
structure FitsAt (files before later : Directory) (f : AuditFile) (t u : Text) (file : OpenFile) :
    Prop where
  listed : listAuditFiles files = before ++ f :: later
  path : file.path = f.name
  place : file.place = some f.name
  bytes : f.bytes = encode (t ++ u)
  ended : Ended t
  offset : (encode t).length = file.offset
  white : ∀ c ∈ u, isAscii c = true ∧ isWhitespace c = true
  blank : ∀ g ∈ later, Blank g

def Fits (files : Directory) (file : OpenFile) : Prop :=
  ∃ before later f t u, FitsAt files before later f t u file

/-- The held file fits, or every file that does not sort before the next name is blank. -/
def RestartFits (w : Writer) (dir : Directory) (r : Reading) : Prop :=
  if w.needsOpen then
    ∀ name ∈ openNextRotation dir (auditPrefixFor dir r), ∀ g ∈ dir, isAuditFile g = true →
      keyOrder (rotationSortKey g.name) (rotationSortKey name) ≠ .lt → Blank g
  else ∀ file ∈ w.current, Fits dir file

section
variable {files before later : Directory} {f : AuditFile} {t u : Text} {file : OpenFile}

theorem white_blank (hu : ∀ c ∈ u, isAscii c = true ∧ isWhitespace c = true) (k : ℕ) :
    isBlank (u.drop k) = true :=
  is_blank_iff.mpr fun c hc => (hu c (List.mem_of_mem_drop hc)).2

variable (h : FitsAt files before later f t u file)
include h

theorem fits_events :
    fileEvents C f = parsedLines C (lines t) := by
  have hu : isBlank u = true := white_blank h.white 0
  rw [fileEvents, fileLines, h.bytes, decode_encode, Option.elim_some, lines_append h.ended,
    parsed_lines_append, parsed_blank (blank_lines hu), List.append_nil]

theorem fits_trail :
    trailEvents C (listAuditFiles files) = trailEvents C before ++ parsedLines C (lines t) := by
  rw [h.listed, trailEvents, List.flatMap_append, List.flatMap_cons, fits_events h,
    ← trailEvents, ← trailEvents, blank_files_events h.blank, List.append_nil]

theorem fits_written (line : Text)
    (hne : encode line ≠ []) : writeBytes file.offset (encode line) f.bytes =
      encode (t ++ (line ++ u.drop (encode line).length)) := by
  have hascii := encode_drop_ascii (fun c hc => (h.white c hc).1) (encode line).length
  rw [writeBytes, if_neg hne, h.bytes, ← h.offset, encode_append, encode_append, encode_append,
    ← hascii]
  simp [List.drop_append]

omit h

theorem list_change (place : Option Text) (change : Bytes → Bytes) (dir : Directory) :
    listAuditFiles (changeFile place change dir) =
      (listAuditFiles dir).map fun f =>
        if some f.name = place then { f with bytes := change f.bytes } else f := by
  have hname (f : AuditFile) :
      (if some f.name = place then { f with bytes := change f.bytes } else f).name = f.name := by
    split <;> rfl
  have haudit (f : AuditFile) :
      isAuditFile (if some f.name = place then { f with bytes := change f.bytes } else f) =
        isAuditFile f := by rw [isAuditFile, isAuditFile, hname]
  rw [listAuditFiles, listAuditFiles, sortChronologically, sortChronologically, changeFile,
    List.filter_map]
  simp only [Function.comp_def, haudit]
  rw [← List.filterMap_eq_map]
  refine sort_by_filter_map _ (fun a b x hx y hy => ?_) _
  cases hx
  cases hy
  rw [hname, hname]

theorem listed_names {files : Directory} (h : (files.map AuditFile.name).Nodup) :
    ((listAuditFiles files).map AuditFile.name).Nodup := by
  have hfilter : ((files.filter isAuditFile).map AuditFile.name).Nodup :=
    h.sublist (List.filter_sublist.map _)
  exact ((sort_by_perm _ _).map _).nodup_iff.mpr hfilter

theorem change_others {place : Text} {change : Bytes → Bytes} {fs : Directory}
    (h : place ∉ fs.map AuditFile.name) :
    (fs.map fun f => if some f.name = some place then { f with bytes := change f.bytes } else f) =
      fs := by
  conv_rhs => rw [← List.map_id fs]
  refine List.map_congr_left fun g hg => if_neg fun heq => h ?_
  rw [← Option.some.inj heq]
  exact List.mem_map_of_mem hg

theorem change_listed (h : FitsAt files before later f t u file)
    (hnames : (files.map AuditFile.name).Nodup) (change : Bytes → Bytes) :
    listAuditFiles (changeFile file.place change files) =
      before ++ { f with bytes := change f.bytes } :: later := by
  have hlisted := listed_names hnames
  rw [h.listed, List.map_append, List.map_cons, List.nodup_middle, List.nodup_cons,
    List.mem_append, not_or] at hlisted
  rw [list_change, h.listed, h.place, List.map_append, List.map_cons, if_pos rfl,
    change_others hlisted.1.1, change_others hlisted.1.2]

theorem change_named (h : FitsAt files before later f t u file)
    (hnames : (files.map AuditFile.name).Nodup) (change : Bytes → Bytes) :
    fileNamed (changeFile file.place change files) f.name =
      some { f with bytes := change f.bytes } := by
  have hmem : f ∈ files := by
    have hlisted : f ∈ listAuditFiles files := by simp [h.listed]
    exact (List.mem_filter.mp ((mem_sort_by _ _ _).mp hlisted)).1
  have hname (g : AuditFile) :
      (if some g.name = some f.name then { g with bytes := change g.bytes } else g).name = g.name := by
    split <;> rfl
  have hfound := file_named_eq hnames hmem
  rw [h.place, fileNamed, changeFile, List.find?_map]
  simp only [Function.comp_def, hname]
  rw [← fileNamed, hfound, Option.map_some, if_pos rfl]

theorem link_with_line {name : Text}
    (hhex : isHexText e.eventHash = true) (ht : Ended t) {v : Text} (hv : isBlank v = true) :
    verifyFileLink C name (some (t ++ (C.render e ++ ['\n'] ++ v))) key =
      verifyEvent C name key (verifyFileLink C name (some t) key) ((lines t).length + 1) e
        (C.render { e with eventHash := [] }) := by
  have hone := C.render_one_line e
  have hline : lines (C.render e ++ ['\n']) = [C.render e] :=
    lines_line hone (by rw [render_last hhex]; decide)
  have hlines : lines (t ++ (C.render e ++ ['\n'] ++ v)) =
      lines t ++ C.render e :: lines v := by
    rw [lines_append ht, lines_append (ended_line hone), hline]
    rfl
  have hevent (link : FileLink) : verifyLine C name key link (C.render e, (lines t).length) =
      verifyEvent C name key link ((lines t).length + 1) e (C.render { e with eventHash := [] }) := by
    rw [verifyLine, render_not_blank hhex, parse_event_render hhex]
    rfl
  rw [verifyFileLink, hlines, List.zipIdx_append, List.foldl_append, Nat.zero_add,
    List.zipIdx_cons, List.foldl_cons, scan_blank (blank_lines hv), hevent]
  rfl

theorem restart_link {name canonical head : Text} {key : AuditRestartKey} {link : FileLink}
    (n : ℕ) (hclaims : claimedPrev e = head)
    (hhash : e.eventHash = computeChainHash C head canonical)
    (hsealed : isSealedRestart C e (some key) = true) (hprev : ∀ p ∈ link.tailHash, p = head) :
    let done := verifyEvent C name (some key) link n e canonical
    done.restart = some ⟨if link.tailHash.isNone then some head else none, { events := 1 }⟩ ∧
      done.tailHash = some e.eventHash := by
  have hchain : link.tailHash.getD head = head := by
    cases htail : link.tailHash with
    | none => rfl
    | some p => exact hprev p htail
  have hnone : mismatchOf name n e (computeChainHash C head canonical) = none :=
    mismatch_none.mpr hhash
  refine ⟨?_, rfl⟩
  simp [verifyEvent, hclaims, hchain, hnone, hsealed, Segment.record]

theorem last_tail_trail (fs : Directory) (key : Option AuditRestartKey) :
    lastTail (fs.map (fileLink C key)) =
      tailOf none (trailEvents C fs) := by
  induction fs using List.reverseRecOn with
  | nil => rfl
  | append_singleton fs g ih =>
    rw [List.map_append, List.map_singleton, last_tail_concat, ih, (file_link_spec g key).1,
      trail_events_concat, tail_of_append, tail_of_or (tailOf none (trailEvents C fs))]

theorem whole_ok_blank (tail : Option Text) (fs : Directory) :
    WholeOk .breaks tail (fs.map fun _ => ({} : FileLink)) := by
  induction fs with
  | nil => trivial
  | cons g fs ih => exact ⟨rfl, rfl, ih⟩

variable (h : FitsAt files before later f t u file)
include h

theorem fits_last (key : Option AuditRestartKey)
    {head : Text} (hhead : head = lastHash (trailEvents C (listAuditFiles files))) :
    (∀ p ∈ (verifyFileLink C f.name (some t) key).tailHash, p = head) ∧
      ((verifyFileLink C f.name (some t) key).tailHash = none →
        (tailOf none (trailEvents C before)).all (· == head) = true) := by
  have hspec := (@file_link_spec C ⟨f.name, encode t⟩ key).1
  rw [fileLink, decode_encode] at hspec
  have hevents : fileEvents C ⟨f.name, encode t⟩ = parsedLines C (lines t) := by
    rw [fileEvents, fileLines, decode_encode]
    rfl
  rw [hspec, hevents, hhead, fits_trail h, lastHash, tail_of_append,
    tail_of_or (tailOf none (trailEvents C before))]
  cases tailOf none (parsedLines C (lines t)) with
  | none => cases tailOf none (trailEvents C before) <;> simp
  | some q => simp

theorem written_text (e : AuditEvent) :
    decode (writeBytes file.offset (lineOf C e) f.bytes) =
      some (t ++ (C.render e ++ ['\n'] ++ u.drop (lineOf C e).length)) := by
  have hline : encode (C.render e ++ ['\n']) ≠ [] := by
    rw [encode_append]
    exact List.append_ne_nil_of_right_ne_nil _ (by decide)
  rw [decode_some_iff]
  exact fits_written h _ hline

theorem written_event (hhex : isHexText e.eventHash = true) :
    (e, C.render { e with eventHash := [] }) ∈
      fileEvents C { f with bytes := writeBytes file.offset (lineOf C e) f.bytes } := by
  rw [fileEvents, fileLines, written_text h, Option.elim_some, lines_append h.ended,
    lines_append (ended_line (C.render_one_line e)), parsed_lines_append, parsed_lines_append,
    parsed_whole hhex (Or.inr rfl)]
  simp

theorem written_counts (hnames : (files.map AuditFile.name).Nodup) {key : AuditRestartKey}
    (hhex : isHexText e.eventHash = true)
    (hclaims : claimedPrev e = lastHash (trailEvents C (listAuditFiles files)))
    (hhash : e.eventHash =
      computeChainHash C (claimedPrev e) (C.render { e with eventHash := [] }))
    (hsealed : isSealedRestart C e (some key) = true) :
    let dir := changeFile file.place (writeBytes file.offset (lineOf C e)) files
    let v := verify C dir (some ⟨file.path, e.seq, e.eventHash⟩) (some key)
    v.restarted = true ∧ v.chainOk = true ∧ v.breakCount = 0 := by
  intro dir v
  have hparts := fits_last h (some key) hclaims
  have htext := written_text (C := C) h e
  have hv : isBlank (u.drop (lineOf C e).length) = true := white_blank h.white _
  obtain ⟨hrestart, htail⟩ := @restart_link C e f.name (C.render { e with eventHash := [] })
    (claimedPrev e) key (verifyFileLink C f.name (some t) (some key)) ((lines t).length + 1) rfl
    hhash hsealed hparts.1
  have hlinks : (linksOf C dir (some key)).map Prod.snd =
      before.map (fileLink C (some key)) ++
        verifyEvent C f.name (some key) (verifyFileLink C f.name (some t) (some key))
          ((lines t).length + 1) e (C.render { e with eventHash := [] }) ::
        later.map fun _ => ({} : FileLink) := by
    have hlater : later.map (fileLink C (some key)) = later.map fun _ => ({} : FileLink) :=
      List.map_congr_left fun g hg => blank_link (h.blank g hg) _
    rw [links_eq, change_listed h hnames, List.map_append, List.map_cons, ← hlater,
      ← link_with_line hhex h.ended hv, ← htext]
    rfl
  have husable : usableRestart (before.map (fileLink C (some key)))
      (verifyEvent C f.name (some key) (verifyFileLink C f.name (some t) (some key))
        ((lines t).length + 1) e (C.render { e with eventHash := [] })) = true := by
    rw [usableRestart, hrestart]
    cases hnone : (verifyFileLink C f.name (some t) (some key)).tailHash with
    | some p => simp
    | none => simpa [last_tail_trail] using hparts.2 hnone
  have hlater : ∀ l ∈ later.map fun _ => ({} : FileLink), l.restart = none := by simp
  have hcount : v.breakCount = 0 := by
    rw [verify_count, hlinks]
    refine ⟨Or.inr ⟨_, _, _, _, rfl, husable, none_usable_of_no_restart hlater, hrestart, rfl,
      whole_ok_blank _ _⟩, ?_⟩
    have hfile : fileNamed dir file.path =
        some { f with bytes := writeBytes file.offset (lineOf C e) f.bytes } := by
      rw [h.path]
      exact change_named h hnames _
    rw [anchored_intact hfile (written_event h hhex) rfl rfl]
    rfl
  refine ⟨?_, chain_ok_of_count hcount, hcount⟩
  rw [verify_restarted, hlinks, last_usable_some husable (none_usable_of_no_restart hlater)]
  rfl

end

end NetRuleRouter.RestartPlace
