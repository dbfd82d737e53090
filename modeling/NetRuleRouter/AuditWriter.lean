import NetRuleRouter.RotationNames

/-!
# The audit writer

A writer appends one line per event to the file it holds and rotates to a new
file when that one is full or had to be given up. Of the writers that share a
directory and an anchor, whoever takes the lock resumes the chain from what is
on disk. Writing a line, making it durable and taking it back can each fail,
and the process can be lost between any two of them.
-/

set_option autoImplicit false

namespace NetRuleRouter.AuditWriter
open TextOps TextLines Utf8 AuditEvents AuditTrail RotationNames

def writeBytes (offset : ℕ) (data old : Bytes) : Bytes :=
  if data = [] then old
  else old.take offset ++ List.replicate (offset - old.length) 0 ++ data ++
    old.drop (offset + data.length)

def setLen (len : ℕ) (old : Bytes) : Bytes := old.take len ++ List.replicate (len - old.length) 0

def changeFile (place : Option Text) (change : Bytes → Bytes) (dir : Directory) : Directory :=
  dir.map fun f => if some f.name = place then { f with bytes := change f.bytes } else f

/-- A file opened for writing. It was created at `path`; its place is where the directory holds it
now, and it has none once it was unlinked. -/
structure OpenFile where
  path : Text
  place : Option Text
  offset : ℕ
  deriving DecidableEq, Repr

structure Writer where
  maxFileSizeBytes : ℕ
  current : Option OpenFile := none
  currentSize : ℕ := 0
  prevHash : Text := auditChainGenesis
  nextSeq : UInt64 := 1
  deriving DecidableEq, Repr

structure AuditEventLocation where
  fileName : Text
  seq : UInt64
  deriving DecidableEq, Repr

variable (C : AuditCodec)

def lastEventHashInFile (f : AuditFile) : Option Text :=
  (decode f.bytes).bind fun content =>
    ((lines content).reverse.filter fun l => !isBlank l).findSome? fun line =>
      (C.parse line).map AuditEvent.eventHash

def resumeChainState (dir : Directory) : Text × UInt64 :=
  (((listAuditFiles dir).reverse.findSome? (lastEventHashInFile C)).getD auditChainGenesis, 1)

def resumeAnchored (dir : Directory) (anchor : Option AuditChainAnchor) : Text × UInt64 :=
  match anchor with
  | none => resumeChainState C dir
  | some stored =>
    if (checkTail C dir (some stored)).isTruncated then
      (stored.eventHash, (resumeChainState C dir).2)
    else resumeChainState C dir

def Writer.resumed (w : Writer) (dir : Directory) (anchor : Option AuditChainAnchor) : Writer :=
  let head := resumeAnchored C dir anchor
  { w with prevHash := head.1, nextSeq := head.2, current := none }

def Writer.needsOpen (w : Writer) : Bool :=
  match w.current with
  | none => true
  | some _ => w.maxFileSizeBytes ≤ w.currentSize

def Writer.rotate (w : Writer) (dir : Directory) (r : Reading) : Option (Writer × Directory) :=
  (openNextRotation dir (auditPrefixFor dir r)).map fun name =>
    ({ w with current := some ⟨name, some name, 0⟩, currentSize := 0, nextSeq := 1 },
      dir ++ [⟨name, []⟩])

def Writer.ensureOpen (w : Writer) (dir : Directory) (r : Reading) : Option (Writer × Directory) :=
  if w.needsOpen then w.rotate dir r else some (w, dir)

/-- How the calls of one commit went: the line became durable, or some of it was left when a call
failed, and then the file was cut back to its length before and the offset set back, or not. -/
inductive LineOutcome where
  | durable
  | failed (left : Bytes) (truncated sought : Bool)
  deriving DecidableEq, Repr

def lineOf (event : AuditEvent) : Bytes := encode (C.render event ++ ['\n'])

def commitLine (file : OpenFile) (start : ℕ) (line : Bytes) (dir : Directory) :
    LineOutcome → Directory × OpenFile × Option Bool
  | .durable =>
    (changeFile file.place (writeBytes file.offset line) dir,
      { file with offset := file.offset + line.length }, none)
  | .failed left truncated sought =>
    let written := changeFile file.place (writeBytes file.offset left) dir
    let cut := if truncated then changeFile file.place (setLen start) written else written
    (cut, { file with offset := if truncated && sought then start else file.offset + left.length },
      some (truncated && sought))

structure Committed where
  writer : Writer
  files : Directory
  anchor : Option AuditChainAnchor
  location : Option AuditEventLocation

def Writer.commitEvent (w : Writer) (file : OpenFile) (event : AuditEvent) (dir : Directory)
    (anchor : Option AuditChainAnchor) (outcome : LineOutcome) (saved : Bool) : Committed :=
  let line := lineOf C event
  match commitLine file w.currentSize line dir outcome with
  | (files, file, none) =>
    { writer :=
        { w with
          current := some file
          currentSize := w.currentSize + line.length
          prevHash := event.eventHash
          nextSeq := w.nextSeq + 1 }
      files := files
      anchor := if saved then some ⟨file.path, event.seq, event.eventHash⟩ else anchor
      location := some ⟨file.path, event.seq⟩ }
  | (files, file, some rolledBack) =>
    { writer := { w with current := if rolledBack then some file else none }
      files := files
      anchor := anchor
      location := none }

/-- The directory, the anchor store, the writers that are open and the one that holds the lock. -/
structure System where
  files : Directory := []
  anchor : Option AuditChainAnchor := none
  writers : ℕ → Option Writer := fun _ => none
  owner : Option ℕ := none

def System.release (s : System) (id : ℕ) : System :=
  { s with
    writers := Function.update s.writers id none
    owner := if s.owner = some id then none else s.owner }

/-- How an append went once the lock was held: the next file could not be created, the line was
committed or not, or the process was lost with some of the line written. -/
inductive AppendOutcome where
  | unopened
  | line (outcome : LineOutcome) (saved : Bool)
  | lost (left : Bytes)
  deriving DecidableEq, Repr

inductive Action where
  | opened (id : ℕ) (maxFileSizeBytes : ℕ)
  | dropped (id : ℕ)
  | append (id : ℕ) (input : AuditEventInput) (r : Reading) (outcome : AppendOutcome)

def AppendOutcome.left : AppendOutcome → Bytes
  | .line (.failed left _ _) _ => left
  | .lost left => left
  | _ => []

def System.owned (s : System) (id : ℕ) (w : Writer) : Writer :=
  if s.owner = some id then w else w.resumed C s.files s.anchor

/-- The line has a file to go to. What is left of it has to be the beginning of it. -/
def System.appendOpened (s : System) (id : ℕ) (input : AuditEventInput) (w : Writer)
    (dir : Directory) (outcome : AppendOutcome) : Option System :=
  let event := buildEvent C input w.nextSeq w.prevHash
  match w.current with
  | none => none
  | some file =>
    if !outcome.left.isPrefixOf (lineOf C event) then none
    else match outcome with
      | .unopened => none
      | .line o saved =>
        let done := w.commitEvent C file event dir s.anchor o saved
        some
          { files := done.files
            anchor := done.anchor
            writers := Function.update s.writers id (some done.writer)
            owner := some id }
      | .lost left =>
        some
          ({ s with files := changeFile file.place (writeBytes file.offset left) dir }.release id)

def System.appendOwned (s : System) (id : ℕ) (input : AuditEventInput) (r : Reading) (w : Writer)
    (outcome : AppendOutcome) : Option System :=
  match outcome with
  | .unopened =>
    if w.needsOpen then
      some
        { s with
          writers := Function.update s.writers id (some { w with current := none })
          owner := some id }
    else none
  | outcome =>
    (w.ensureOpen s.files r).bind fun opened =>
      s.appendOpened C id input opened.1 opened.2 outcome

/-- One step of the system; `none` where the step cannot happen. An append without the lock fails
and changes nothing. -/
def System.step (s : System) : Action → Option System
  | .opened id size =>
    if (s.writers id).isSome then none
    else some { s with writers := Function.update s.writers id (some { maxFileSizeBytes := size }) }
  | .dropped id => if (s.writers id).isSome then some (s.release id) else none
  | .append id input r outcome =>
    (s.writers id).bind fun w =>
      if s.owner.any (· != id) then some s
      else s.appendOwned C id input r (s.owned C id w) outcome

inductive System.Reached (Allowed : System → Action → Prop) : System → Prop
  | start : Reached Allowed {}
  | step {s t : System} {a : Action} : Reached Allowed s → Allowed s a → s.step C a = some t →
      Reached Allowed t

def System.run (allowed : System → Action → Bool) (s : System) : List Action → Option System
  | [] => some s
  | a :: actions =>
    if allowed s a then (s.step C a).bind fun t => System.run allowed t actions else none

variable {C}

theorem run_reached {Allowed : System → Action → Prop} {allowed : System → Action → Bool}
    (hallowed : ∀ s a, allowed s a = true → Allowed s a) {s t : System} {actions : List Action}
    (hs : s.Reached C Allowed) (hrun : s.run C allowed actions = some t) :
    t.Reached C Allowed := by
  induction actions generalizing s with
  | nil =>
    cases hrun
    exact hs
  | cons a actions ih =>
    rw [System.run] at hrun
    split at hrun
    · rename_i ha
      obtain ⟨next, hstep, hrest⟩ := Option.bind_eq_some_iff.mp hrun
      exact ih (hs.step (hallowed s a ha) hstep) hrest
    · cases hrun

end NetRuleRouter.AuditWriter
