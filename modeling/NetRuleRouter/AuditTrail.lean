import NetRuleRouter.AuditEvents
import NetRuleRouter.Sorting

/-!
# The audit trail and its verifier

The trail is a directory of files, read in the order of their dates and
rotation numbers. Each file is checked on its own and each file's first event
against the last event before it; the tail is compared with an anchor kept
outside the files, and a sealed restart that links onto the event before it
is where the check starts over.
-/

set_option autoImplicit false

namespace NetRuleRouter.AuditTrail
open TextOps Numerals TextLines Utf8 Sorting AuditEvents

structure AuditFile where
  name : Text
  bytes : Bytes
  deriving DecidableEq, Repr

abbrev Directory := List AuditFile

def auditPrefix : Text := "nrr_audit_".toList

def auditSuffix : Text := ".ndjson".toList

def isAuditFile (f : AuditFile) : Bool := startsWith auditPrefix f.name && endsWith auditSuffix f.name

def fileStem (name : Text) : Text :=
  match rsplitOnce '.' name with
  | some (stem, _) => if stem = [] then name else stem
  | none => name

def rotationSortKey (name : Text) : Text × ℕ :=
  let stem := fileStem name
  match rsplitOnce '-' stem with
  | some (head, index) =>
    match parseUnsigned (2 ^ 32) index with
    | some n => (head, n)
    | none => (stem, 0)
  | none => (stem, 0)

def keyOrder : Text × ℕ → Text × ℕ → Ordering :=
  compareLex (compareOn Prod.fst) (compareOn Prod.snd)

def sortChronologically (files : Directory) : Directory :=
  sortBy (fun a b => keyOrder (rotationSortKey a.name) (rotationSortKey b.name)) files

def listAuditFiles (dir : Directory) : Directory := sortChronologically (dir.filter isAuditFile)

def fileNamed (dir : Directory) (name : Text) : Option AuditFile := dir.find? (·.name == name)

def readToString (dir : Directory) (name : Text) : Option Text :=
  (fileNamed dir name).bind fun f => decode f.bytes

inductive AuditChainBreakKind where
  | hashMismatch
  | seam
  | corruptLine
  | unreadableFile
  | tailTruncated
  deriving DecidableEq, Repr

def AuditChainBreakKind.slug : AuditChainBreakKind → Text
  | .hashMismatch => "hash-mismatch".toList
  | .seam => "seam".toList
  | .corruptLine => "corrupt-line".toList
  | .unreadableFile => "unreadable-file".toList
  | .tailTruncated => "tail-truncated".toList

def AuditChainBreakKind.breaksHashes : AuditChainBreakKind → Bool
  | .hashMismatch | .seam => true
  | _ => false

structure AuditChainBreak where
  kind : AuditChainBreakKind
  fileName : Text
  line : ℕ
  seq : Option UInt64
  expectedHash : Option Text
  actualHash : Option Text
  deriving DecidableEq, Repr

def listedBreaks : ℕ := 32

def AuditChainBreak.record (b : AuditChainBreak) : Text :=
  b.kind.slug ++ '|' :: b.fileName ++ '|' :: numeral 10 b.line ++
    '|' :: (b.seq.map fun s => numeral 10 s.toNat).getD [] ++ '|' :: b.expectedHash.getD [] ++
    '|' :: b.actualHash.getD [] ++ ['\n']

structure BreakLog where
  listed : List AuditChainBreak := []
  count : ℕ := 0
  fed : Text := []
  deriving DecidableEq, Repr

variable (C : AuditCodec)

def BreakLog.push (log : BreakLog) (found : AuditChainBreak) : BreakLog where
  listed := if log.listed.length < listedBreaks then log.listed ++ [found] else log.listed
  count := log.count + 1
  fed := log.fed ++ found.record

def BreakLog.fingerprint (log : BreakLog) : Text := C.sha256 log.fed

def BreakLog.absorb (log other : BreakLog) : BreakLog :=
  if other.count = 0 then log
  else
    { listed := log.listed ++ other.listed.take (listedBreaks - log.listed.length)
      count := log.count + other.count
      fed := log.fed ++ numeral 10 other.count ++ ':' :: other.fingerprint C ++ ['\n'] }

structure Segment where
  events : ℕ := 0
  corrupt : ℕ := 0
  breaks : BreakLog := {}
  firstHashBreak : Option AuditChainBreak := none
  deriving DecidableEq, Repr

def Segment.record (s : Segment) : Option AuditChainBreak → Segment
  | none => { s with events := s.events + 1 }
  | some found =>
    if found.kind.breaksHashes then
      { s with
        breaks := s.breaks.push found
        firstHashBreak := s.firstHashBreak.or (some found) }
    else { s with corrupt := s.corrupt + 1, breaks := s.breaks.push found }

structure RestartLink where
  /-- Set when the restart is the file's first event. -/
  seamPrev : Option Text
  after : Segment
  deriving DecidableEq, Repr

structure FileLink where
  /-- What the file's first event claims to follow. -/
  firstPrev : Option Text := none
  firstAt : ℕ × UInt64 := (0, 0)
  /-- The stored hash of the last event, verified or not. -/
  tailHash : Option Text := none
  whole : Segment := {}
  /-- From the file's last sealed restart on. -/
  restart : Option RestartLink := none
  deriving DecidableEq, Repr

def corruptLineBreak (fileName : Text) (line : ℕ) (raw : Text) : AuditChainBreak :=
  ⟨.corruptLine, fileName, line, none, none, some (C.sha256 raw)⟩

def unreadableBreak (fileName : Text) : AuditChainBreak :=
  ⟨.unreadableFile, fileName, 0, none, none, none⟩

def mismatchOf (fileName : Text) (lineNo : ℕ) (event : AuditEvent) (expected : Text) :
    Option AuditChainBreak :=
  if expected = event.eventHash then none
  else some ⟨.hashMismatch, fileName, lineNo, some event.seq, some expected, some event.eventHash⟩

/-- One event of a file; the last event's stored hash is what the next one is checked against. -/
def verifyEvent (fileName : Text) (key : Option AuditRestartKey) (link : FileLink) (lineNo : ℕ)
    (event : AuditEvent) (canonical : Text) : FileLink :=
  let claimed := claimedPrev event
  let chainPrev := link.tailHash.getD claimed
  let found := mismatchOf fileName lineNo event (computeChainHash C chainPrev canonical)
  { firstPrev := link.firstPrev.or (some claimed)
    firstAt := if link.tailHash.isNone then (lineNo, event.seq) else link.firstAt
    tailHash := some event.eventHash
    whole := link.whole.record found
    restart :=
      if found.isNone && claimed == chainPrev && isSealedRestart C event key then
        some ⟨if link.tailHash.isNone then some chainPrev else none, Segment.record {} none⟩
      else link.restart.map fun r => { r with after := r.after.record found } }

def verifyLine (fileName : Text) (key : Option AuditRestartKey) (link : FileLink)
    (entry : Text × ℕ) : FileLink :=
  if isBlank entry.1 then link
  else match parseEvent C entry.1 with
    | none =>
      let found := corruptLineBreak C fileName (entry.2 + 1) entry.1
      { link with
        whole := link.whole.record (some found)
        restart := link.restart.map fun r => { r with after := r.after.record (some found) } }
    | some (event, canonical) =>
      verifyEvent C fileName key link (entry.2 + 1) event canonical

def verifyFileLink (fileName : Text) (content : Option Text) (key : Option AuditRestartKey) :
    FileLink :=
  match content with
  | none => { whole := Segment.record {} (some (unreadableBreak fileName)) }
  | some text => (lines text).zipIdx.foldl (verifyLine C fileName key) {}

structure AuditChainAnchor where
  fileName : Text
  seq : UInt64
  eventHash : Text
  deriving DecidableEq, Repr

inductive AuditTailIntegrity where
  | unknown
  | intact
  | truncated (anchorSeq : UInt64) (foundSeq : Option UInt64)
  deriving DecidableEq, Repr

def AuditTailIntegrity.isTruncated : AuditTailIntegrity → Bool
  | .truncated _ _ => true
  | _ => false

def eventsOfText (text : Text) : List AuditEvent :=
  ((lines text).filter fun l => !isBlank l).filterMap C.parse

def checkTail (dir : Directory) (anchor : Option AuditChainAnchor) : AuditTailIntegrity :=
  match anchor with
  | none => .unknown
  | some anchor =>
    match readToString dir anchor.fileName with
    | none => .truncated anchor.seq none
    | some content =>
      let events := eventsOfText C content
      if events.any fun e => e.seq == anchor.seq && e.eventHash == anchor.eventHash then .intact
      else .truncated anchor.seq (events.map AuditEvent.seq).max?

structure AuditChainVerification where
  chainOk : Bool
  eventsVerified : ℕ
  mismatchAtSeq : Option UInt64
  expectedHash : Option Text
  actualHash : Option Text
  corruptLines : ℕ
  tailTruncated : Bool
  breaks : List AuditChainBreak
  breakCount : ℕ
  breaksDigest : Option Text
  restarted : Bool
  deriving DecidableEq, Repr

def lastTail (links : List FileLink) : Option Text := links.reverse.findSome? FileLink.tailHash

/-- The restart of a file counts when it links onto the event before it, or when nothing is left
before it. -/
def usableRestart (before : List FileLink) (link : FileLink) : Bool :=
  match link.restart with
  | none => false
  | some r =>
    match r.seamPrev with
    | none => true
    | some claimed => (lastTail before).all (· == claimed)

def lastUsableRestart (links : List FileLink) : Option ℕ :=
  (List.range links.length).reverse.find? fun index =>
    (links[index]?).any (usableRestart (links.take index))

structure Walk where
  events : ℕ := 0
  corrupt : ℕ := 0
  breaks : BreakLog := {}
  firstHashBreak : Option AuditChainBreak := none
  prevTail : Option Text := none

def seamBreak (prevTail : Option Text) (name : Text) (link : FileLink) : Option AuditChainBreak :=
  match prevTail, link.firstPrev with
  | some tail, some first =>
    if tail = first then none
    else some ⟨.seam, name, link.firstAt.1, some link.firstAt.2, some tail, some first⟩
  | _, _ => none

def Walk.addSegment (w : Walk) (segment : Segment) (tailHash : Option Text) : Walk where
  events := w.events + segment.events
  corrupt := w.corrupt + segment.corrupt
  breaks := w.breaks.absorb C segment.breaks
  firstHashBreak := w.firstHashBreak.or segment.firstHashBreak
  prevTail := tailHash.or w.prevTail

def Walk.addWhole (w : Walk) (name : Text) (link : FileLink) : Walk :=
  let seam := seamBreak w.prevTail name link
  Walk.addSegment C
    { w with
      breaks := (seam.map w.breaks.push).getD w.breaks
      firstHashBreak := w.firstHashBreak.or seam } link.whole link.tailHash

def walkFile (start : Option ℕ) (w : Walk) (entry : (Text × FileLink) × ℕ) : Walk :=
  if start.any (entry.2 < ·) then w
  else match entry.1.2.restart, start with
    | some restart, some s =>
      if s = entry.2 then Walk.addSegment C w restart.after entry.1.2.tailHash
      else Walk.addWhole C w entry.1.1 entry.1.2
    | _, _ => Walk.addWhole C w entry.1.1 entry.1.2

def linksOf (dir : Directory) (key : Option AuditRestartKey) : List (Text × FileLink) :=
  (listAuditFiles dir).map fun f => (f.name, verifyFileLink C f.name (decode f.bytes) key)

def truncatedBreak (anchor : AuditChainAnchor) : AuditChainBreak :=
  ⟨.tailTruncated, anchor.fileName, 0, some anchor.seq, some anchor.eventHash, none⟩

def verdictOf (links : List (Text × FileLink)) (anchor : Option AuditChainAnchor)
    (tail : AuditTailIntegrity) : AuditChainVerification :=
  let start := lastUsableRestart (links.map Prod.snd)
  let w := links.zipIdx.foldl (walkFile C start) {}
  let truncated := tail.isTruncated
  let breaks := match anchor with
    | some a => if truncated then w.breaks.push (truncatedBreak a) else w.breaks
    | none => w.breaks
  { chainOk := w.firstHashBreak.isNone && !truncated
    eventsVerified := w.events
    mismatchAtSeq := w.firstHashBreak.bind AuditChainBreak.seq
    expectedHash := w.firstHashBreak.bind AuditChainBreak.expectedHash
    actualHash := w.firstHashBreak.bind AuditChainBreak.actualHash
    corruptLines := w.corrupt
    tailTruncated := truncated
    breaks := breaks.listed
    breakCount := breaks.count
    breaksDigest := if 0 < breaks.count then some (breaks.fingerprint C) else none
    restarted := start.isSome }

def verify (dir : Directory) (anchor : Option AuditChainAnchor) (key : Option AuditRestartKey) :
    AuditChainVerification :=
  verdictOf C (linksOf C dir key) anchor (checkTail C dir anchor)

end NetRuleRouter.AuditTrail
