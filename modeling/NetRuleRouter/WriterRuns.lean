import NetRuleRouter.AuditJson
import NetRuleRouter.CommittedLines

/-!
# Runs of audit writers

Over any run of writers that share a directory and an anchor, the files stand
in the order of their names, their events form one chain, and the writer that
holds the lock knows the last hash there. So the verifier finds nothing, as
long as a commit that could not be taken back left nothing that reads as an
event, no part of a character was left, and dates have eight digits.
-/

set_option autoImplicit false

namespace NetRuleRouter.WriterRuns
open TextOps TextLines Utf8 AuditEvents AuditTrail RotationNames TrailLinks AuditWriter
open CommittedLines AuditJson

variable {C : AuditCodec}

def OnDisk (C : AuditCodec) (files : Directory) (a : AuditChainAnchor) : Prop :=
  ∃ f ∈ files, f.name = a.fileName ∧
    ∃ e ∈ fileEvents C f, e.1.seq = a.seq ∧ e.1.eventHash = a.eventHash

structure Trail (C : AuditCodec) (files : Directory) (anchor : Option AuditChainAnchor) :
    Prop where
  order : InNameOrder files
  follows : Follows C auditChainGenesis (trailEvents C files)
  unsealed : ∀ e ∈ trailEvents C files, e.1.sealText = none
  anchored : ∀ a ∈ anchor, OnDisk C files a

variable {files : Directory}

theorem on_disk_found {a : AuditChainAnchor} (h : files.Pairwise FileBefore)
    (ha : OnDisk C files a) : checkTail C files (some a) = .intact := by
  obtain ⟨f, hf, hname, e, he, hseq, hhash⟩ := ha
  exact anchored_intact (hname ▸ file_named_eq (names_nodup h) hf) he hseq hhash

variable {anchor : Option AuditChainAnchor} {front : Directory}

theorem trail_not_truncated (h : Trail C files anchor) :
    (checkTail C files anchor).isTruncated = false := by
  cases anchor with
  | none => rfl
  | some a =>
    rw [on_disk_found h.order.before (h.anchored a rfl)]
    rfl

theorem trail_chain_ok (h : Trail C files anchor) (key : Option AuditRestartKey) :
    (verify C files anchor key).chainOk = true := by
  have hfiles := list_audit_files_eq h.order
  have hspec := verify_spec (C := C) files anchor key
  rw [hfiles] at hspec
  refine (hspec fun e he => unsealed_not_restart (h.unsealed e he) key).1.mpr ⟨?_, ?_⟩
  · exact follows_linked h.follows rfl
  · exact trail_not_truncated h

structure Continues (C : AuditCodec) (files : Directory) (e : Covered) : Prop where
  claims : claimedPrev e.1 = lastHash (trailEvents C files)
  covers : e.1.eventHash = computeChainHash C (lastHash (trailEvents C files)) e.2
  unsealed : e.1.sealText = none

theorem trail_change {f g : AuditFile} (h : Trail C (front ++ [f]) anchor)
    (hname : g.name = f.name) {new : List Covered}
    (hevents : fileEvents C g = fileEvents C f ++ new)
    (hnew : new = [] ∨ ∃ e, new = [e] ∧ Continues C (front ++ [f]) e) :
    Trail C (front ++ [g]) anchor := by
  have htrail : trailEvents C (front ++ [g]) = trailEvents C (front ++ [f]) ++ new := by
    rw [trail_events_concat, trail_events_concat, hevents, List.append_assoc]
  refine ⟨?_, ?_, ?_, ?_⟩
  · exact in_name_order_of_names h.order (by simp [hname])
  · rw [htrail, follows_append]
    refine ⟨h.follows, ?_⟩
    rcases hnew with rfl | ⟨e, rfl, he⟩
    · trivial
    · exact ⟨he.claims, he.covers, trivial⟩
  · rw [htrail]
    intro e he
    rcases List.mem_append.mp he with he | he
    · exact h.unsealed e he
    · rcases hnew with rfl | ⟨d, rfl, hd⟩
      · cases he
      · rw [List.mem_singleton.mp he]
        exact hd.unsealed
  · intro a ha
    obtain ⟨x, hx, hxa, e, he, hea⟩ := h.anchored a ha
    rcases List.mem_append.mp hx with hx | hx
    · exact ⟨x, List.mem_append_left _ hx, hxa, e, he, hea⟩
    · rw [List.mem_singleton.mp hx] at hxa he
      exact ⟨g, by simp, hname.trans hxa, e, by simp [hevents, he], hea⟩

theorem trail_rotated (h : Trail C files anchor) {name : Text}
    (horder : InNameOrder (files ++ [⟨name, []⟩])) :
    Trail C (files ++ [⟨name, []⟩]) anchor ∧
      trailEvents C (files ++ [⟨name, []⟩]) = trailEvents C files := by
  have hempty : fileEvents C ⟨name, []⟩ = [] := rfl
  have htrail : trailEvents C (files ++ [⟨name, []⟩]) = trailEvents C files := by
    rw [trail_events_concat, hempty, List.append_nil]
  refine ⟨⟨horder, htrail ▸ h.follows, htrail ▸ h.unsealed, fun a ha => ?_⟩, htrail⟩
  obtain ⟨x, hx, hxa⟩ := h.anchored a ha
  exact ⟨x, List.mem_append_left _ hx, hxa⟩

/-- The file the writer holds is the newest and ends where the writer's offset is, after whole
lines. -/
def HoldsFile (files : Directory) (w : Writer) (file : OpenFile) : Prop :=
  ∃ front f t, files = front ++ [f] ∧ file.path = f.name ∧ file.place = some f.name ∧
    f.bytes = encode t ∧ Ended t ∧ file.offset = f.bytes.length ∧ w.currentSize = f.bytes.length

structure Holds (C : AuditCodec) (files : Directory) (w : Writer) : Prop where
  prev : w.prevHash = lastHash (trailEvents C files)
  file : ∀ file ∈ w.current, HoldsFile files w file

theorem resumed_holds (h : Trail C files anchor) (w : Writer) :
    Holds C files (w.resumed C files anchor) := by
  have hstate := resume_chain_state_eq (C := C) files
  rw [list_audit_files_eq h.order] at hstate
  have htail := trail_not_truncated h
  have hanchored : resumeAnchored C files anchor = resumeChainState C files := by
    unfold resumeAnchored
    cases anchor with
    | none => rfl
    | some a => exact if_neg (by simp [htail])
  refine ⟨?_, fun file hfile => ?_⟩
  · rw [Writer.resumed, hanchored]
    exact hstate
  · cases hfile

variable {dir : Directory} {w : Writer} {opened : Writer} {r : Reading}

theorem ensure_open_holds (h : Trail C files anchor) (hw : Holds C files w)
    (hname : w.needsOpen = true → (localDateString r).length = 8 ∧ files.length + 1 < 2 ^ 32)
    (hopen : w.ensureOpen files r = some (opened, dir)) :
    Trail C dir anchor ∧ Holds C dir opened ∧
      (w.needsOpen = true ∨ w.currentSize = 0 → opened.currentSize = 0) := by
  unfold Writer.ensureOpen at hopen
  split at hopen
  · rename_i hneeds
    obtain ⟨hdate, hcount⟩ := hname hneeds
    obtain ⟨name, hnext, horder⟩ := next_name h.order hdate hcount
    rw [Writer.rotate, hnext, Option.map_some, Option.some.injEq, Prod.mk.injEq] at hopen
    obtain ⟨rfl, rfl⟩ := hopen
    obtain ⟨htrail, hevents⟩ := trail_rotated h (horder [])
    refine ⟨htrail, ⟨hw.prev.trans (by rw [hevents]), fun file hfile => ?_⟩, fun _ => rfl⟩
    cases hfile
    exact ⟨files, ⟨name, []⟩, [], rfl, rfl, rfl, rfl, ended_nil, rfl, rfl⟩
  · rename_i hneeds
    rw [Option.some.injEq, Prod.mk.injEq] at hopen
    obtain ⟨rfl, rfl⟩ := hopen
    refine ⟨h, hw, fun hzero => ?_⟩
    rcases hzero with hzero | hzero
    · exact absurd hzero hneeds
    · exact hzero

def builtEvent (C : AuditCodec) (input : AuditEventInput) (w : Writer) : Covered :=
  let e := buildEvent C input w.nextSeq w.prevHash
  (e, C.render { e with eventHash := [] })

theorem built_continues (hw : Holds C files w) (input : AuditEventInput) :
    Continues C files (builtEvent C input w) := by
  refine ⟨?_, ?_, rfl⟩
  · rw [← hw.prev]
    exact blank_event_claims input w.nextSeq w.prevHash
  · rw [← hw.prev]
    exact hashed_hash _ _

variable {left : Bytes} {input : AuditEventInput}

theorem left_trail {f : AuditFile} {t : Text}
    (h : Trail C (front ++ [f]) anchor) (hw : Holds C (front ++ [f]) w) (hf : f.bytes = encode t)
    (ht : Ended t) (hleft : left <+: lineOf C (builtEvent C input w).1)
    (hwhole : (decode left).isSome = true ∨ f.bytes = []) :
    Trail C (front ++ [{ f with bytes := f.bytes ++ left }]) anchor ∧
      (lastEventHashInFile C ⟨f.name, left⟩ = none →
        trailEvents C (front ++ [{ f with bytes := f.bytes ++ left }]) =
          trailEvents C (front ++ [f])) := by
  have hevents := file_events_append (C := C) hf ht hwhole
  have hhex : isHexText (builtEvent C input w).1.eventHash = true := hashed_hex _ _
  have hnew := left_events hhex hleft f.name
  refine ⟨trail_change h rfl hevents ?_, fun hnone => ?_⟩
  · rcases hnew with hnew | hnew
    · exact Or.inl hnew
    · exact Or.inr ⟨builtEvent C input w, hnew, built_continues hw input⟩
  · rw [last_event_hash] at hnone
    rcases hnew with hnew | hnew
    · rw [trail_events_concat, trail_events_concat, hevents, hnew, List.append_nil]
    · rw [hnew] at hnone
      cases hnone

theorem line_events (input : AuditEventInput) (w : Writer) (name : Text) :
    fileEvents C ⟨name, lineOf C (builtEvent C input w).1⟩ = [builtEvent C input w] := by
  have hhex : isHexText (builtEvent C input w).1.eventHash = true := hashed_hex _ _
  simp only [fileEvents, fileLines, lineOf, decode_encode, Option.elim_some]
  exact parsed_whole hhex (Or.inr rfl)

variable {file : OpenFile}

theorem durable_holds (hcur : w.current = some file) (h : Trail C dir anchor) (hw : Holds C dir w)
    (input : AuditEventInput) (saved : Bool) :
    let done := w.commitEvent C file (builtEvent C input w).1 dir anchor .durable saved
    Trail C done.files done.anchor ∧ Holds C done.files done.writer := by
  obtain ⟨front, f, t, rfl, hpath, hplace, hf, ht, hoff, hsize⟩ := hw.file file hcur
  have hline := line_events (C := C) input w f.name
  have hwhole : (decode (lineOf C (builtEvent C input w).1)).isSome = true := by
    simp [lineOf, decode_encode]
  have hevents := file_events_append (C := C) hf ht (Or.inl hwhole)
  rw [hline] at hevents
  have hfiles := change_last (writeBytes f.bytes.length (lineOf C (builtEvent C input w).1))
    h.order.before
  rw [write_at_end] at hfiles
  have htrail : Trail C
      (front ++ [{ f with bytes := f.bytes ++ lineOf C (builtEvent C input w).1 }]) anchor :=
    trail_change h rfl hevents (Or.inr ⟨_, rfl, built_continues hw input⟩)
  simp only [Writer.commitEvent, commitLine, hplace, hoff, hpath, hfiles]
  refine ⟨⟨htrail.order, htrail.follows, htrail.unsealed, fun a ha => ?_⟩, ?_, ?_⟩
  · cases saved with
    | false => exact htrail.anchored a ha
    | true =>
      cases ha
      refine ⟨{ f with bytes := f.bytes ++ lineOf C (builtEvent C input w).1 }, by simp, rfl,
        builtEvent C input w, ?_, rfl, rfl⟩
      rw [hevents]
      simp
  · rw [trail_events_concat, hevents, ← List.append_assoc, last_hash_concat]
  · intro held hheld
    cases hheld
    have hone : '\n' ∉ C.render (builtEvent C input w).1 := C.render_one_line _
    refine ⟨front, _, t ++ (C.render (builtEvent C input w).1 ++ ['\n']), rfl, rfl, rfl, ?_,
      ended_append ht (ended_line hone), ?_, ?_⟩
    · rw [encode_append, ← hf]
      rfl
    · simp
    · simp [hsize]

theorem failed_holds (hcur : w.current = some file) (h : Trail C dir anchor) (hw : Holds C dir w)
    {truncated : Bool} (sought saved : Bool) (hleft : left <+: lineOf C (builtEvent C input w).1)
    (hspared : truncated = true ∨ ((decode left).isSome = true ∨ w.currentSize = 0) ∧
      lastEventHashInFile C ⟨[], left⟩ = none) :
    let done := w.commitEvent C file (builtEvent C input w).1 dir anchor
      (.failed left truncated sought) saved
    Trail C done.files done.anchor ∧ Holds C done.files done.writer := by
  obtain ⟨front, f, t, rfl, hpath, hplace, hf, ht, hoff, hsize⟩ := hw.file file hcur
  have hwritten := change_last (writeBytes f.bytes.length left) h.order.before
  rw [write_at_end] at hwritten
  cases truncated with
  | true =>
    have horder : InNameOrder (front ++ [{ f with bytes := f.bytes ++ left }]) :=
      in_name_order_of_names h.order (by simp)
    have hcut := change_last (setLen f.bytes.length) horder.before
    rw [set_len_append] at hcut
    simp only [Writer.commitEvent, commitLine, hplace, hoff, hsize, hwritten, if_true, hcut,
      Bool.true_and]
    refine ⟨h, hw.prev, fun held hheld => ?_⟩
    cases sought with
    | false => cases hheld
    | true =>
      cases hheld
      exact ⟨front, f, t, rfl, hpath, rfl, hf, ht, rfl, rfl⟩
  | false =>
    obtain ⟨hwhole, hnone⟩ := hspared.resolve_left Bool.false_ne_true
    have hwhole' : (decode left).isSome = true ∨ f.bytes = [] :=
      hwhole.imp_right fun hzero => List.eq_nil_of_length_eq_zero (hsize.symm.trans hzero)
    obtain ⟨htrail, hsame⟩ := left_trail h hw hf ht hleft hwhole'
    simp only [Writer.commitEvent, commitLine, hplace, hoff, hwritten, Bool.false_and,
      Bool.false_eq_true, if_false]
    refine ⟨htrail, ?_, fun held hheld => ?_⟩
    · rw [hsame hnone]
      exact hw.prev
    · cases hheld

theorem lost_trail (hcur : w.current = some file) (h : Trail C dir anchor) (hw : Holds C dir w)
    (hleft : left <+: lineOf C (builtEvent C input w).1)
    (hwhole : (decode left).isSome = true ∨ w.currentSize = 0) :
    Trail C (changeFile file.place (writeBytes file.offset left) dir) anchor := by
  obtain ⟨front, f, t, rfl, hpath, hplace, hf, ht, hoff, hsize⟩ := hw.file file hcur
  have hwritten := change_last (writeBytes f.bytes.length left) h.order.before
  rw [write_at_end] at hwritten
  rw [hplace, hoff, hwritten]
  refine (left_trail h hw hf ht hleft ?_).1
  exact hwhole.imp_right fun hzero => List.eq_nil_of_length_eq_zero (hsize.symm.trans hzero)

/-- The next file, if one is needed, is given a date of eight digits and a number that is left. -/
def FreshName (s : System) (w : Writer) (r : Reading) : Prop :=
  w.needsOpen = true → (localDateString r).length = 8 ∧ s.files.length + 1 < 2 ^ 32

def Whole (w : Writer) (left : Bytes) : Prop :=
  (decode left).isSome = true ∨ w.needsOpen = true ∨ w.currentSize = 0

/-- A commit that fails is taken back or leaves nothing that reads as an event, and no commit
leaves part of a character behind other lines. A lost process may leave a whole event. -/
def SparedOutcome (C : AuditCodec) (w : Writer) : AppendOutcome → Prop
  | .line (.failed left truncated _) _ =>
    truncated = true ∨ Whole w left ∧ lastEventHashInFile C ⟨[], left⟩ = none
  | .lost left => Whole w left
  | _ => True

def Spared (C : AuditCodec) (s : System) : Action → Prop
  | .append id _ r outcome => ∀ w ∈ s.writers id,
    FreshName s (s.owned C id w) r ∧ SparedOutcome C (s.owned C id w) outcome
  | _ => True

instance (s : System) (w : Writer) (r : Reading) : Decidable (FreshName s w r) :=
  inferInstanceAs (Decidable (_ → _))

instance (w : Writer) (left : Bytes) : Decidable (Whole w left) :=
  inferInstanceAs (Decidable (_ ∨ _))

instance (w : Writer) : (outcome : AppendOutcome) → Decidable (SparedOutcome C w outcome)
  | .line (.failed left truncated _) _ => inferInstanceAs (Decidable
    (truncated = true ∨ Whole w left ∧ lastEventHashInFile C ⟨[], left⟩ = none))
  | .lost left => inferInstanceAs (Decidable (Whole w left))
  | .line .durable _ => instDecidableTrue
  | .unopened => instDecidableTrue

instance (s : System) : (a : Action) → Decidable (Spared C s a)
  | .append id _ r outcome => inferInstanceAs (Decidable (∀ w ∈ s.writers id,
    FreshName s (s.owned C id w) r ∧ SparedOutcome C (s.owned C id w) outcome))
  | .opened _ _ => instDecidableTrue
  | .dropped _ => instDecidableTrue

structure Sound (C : AuditCodec) (s : System) : Prop where
  trail : Trail C s.files s.anchor
  held : ∀ id ∈ s.owner, ∃ w, s.writers id = some w ∧ Holds C s.files w

theorem sound_start : Sound C {} where
  trail := ⟨⟨by simp, List.Pairwise.nil⟩, trivial, by simp [trailEvents], by simp⟩
  held := by simp

variable {s : System}

theorem release_sound (h : Sound C s) (id : ℕ) : Sound C (s.release id) := by
  refine ⟨h.trail, fun holder hholder => ?_⟩
  simp only [System.release] at hholder
  split at hholder
  · cases hholder
  · rename_i hne
    obtain ⟨w, hw, hheld⟩ := h.held holder hholder
    have hother : holder ≠ id := by
      rintro rfl
      exact hne hholder
    exact ⟨w, by simp [System.release, hother, hw], hheld⟩

variable {id : ℕ}

theorem release_owner (h : s.owner.any (· != id) = false) : (s.release id).owner = none := by
  unfold System.release
  cases howner : s.owner with
  | none => simp
  | some holder =>
    rw [howner] at h
    have heq : holder = id := by simpa using h
    simp [heq]

theorem owned_holds (h : Sound C s) (hw : s.writers id = some w) :
    Holds C s.files (s.owned C id w) := by
  unfold System.owned
  split
  · rename_i howner
    obtain ⟨w', hw', hheld⟩ := h.held id howner
    rw [hw] at hw'
    cases hw'
    exact hheld
  · exact resumed_holds h.trail w

variable {t : System} {outcome : AppendOutcome}

theorem append_opened_sound (htrail : Trail C dir s.anchor) (hw : Holds C dir opened)
    (hzero : w.needsOpen = true ∨ w.currentSize = 0 → opened.currentSize = 0)
    (hspared : SparedOutcome C w outcome) (hlock : s.owner.any (· != id) = false)
    (hstep : s.appendOpened C id input opened dir outcome = some t) : Sound C t := by
  unfold System.appendOpened at hstep
  cases hcur : opened.current with
  | none => simp [hcur] at hstep
  | some file =>
    simp only [hcur] at hstep
    split at hstep
    · cases hstep
    · rename_i hprefix
      have hleft : outcome.left <+: lineOf C (builtEvent C input opened).1 := by
        rw [Bool.not_eq_true, Bool.not_eq_false', List.isPrefixOf_iff_prefix] at hprefix
        exact hprefix
      have howner (done : Committed) (hdone : Trail C done.files done.anchor)
          (hheld : Holds C done.files done.writer) :
          Sound C ⟨done.files, done.anchor,
            Function.update s.writers id (some done.writer), some id⟩ := by
        refine ⟨hdone, fun holder hholder => ?_⟩
        cases hholder
        exact ⟨done.writer, by simp, hheld⟩
      cases outcome with
      | unopened => cases hstep
      | line o saved =>
        cases hstep
        cases o with
        | durable =>
          obtain ⟨hdone, hheld⟩ := durable_holds hcur htrail hw input saved
          exact howner _ hdone hheld
        | failed left truncated sought =>
          obtain ⟨hdone, hheld⟩ := failed_holds hcur htrail hw sought saved hleft
            (hspared.imp_right fun hs => ⟨hs.1.imp_right hzero, hs.2⟩)
          exact howner _ hdone hheld
      | lost left =>
        cases hstep
        have hlost := lost_trail hcur htrail hw hleft (hspared.imp_right hzero)
        refine ⟨hlost, fun holder hholder => ?_⟩
        cases (release_owner hlock).symm.trans hholder

theorem append_sound (h : Sound C s)
    (hw : s.writers id = some w) (hlock : s.owner.any (· != id) = false)
    (hname : FreshName s (s.owned C id w) r) (hspared : SparedOutcome C (s.owned C id w) outcome)
    (hstep : s.appendOwned C id input r (s.owned C id w) outcome = some t) : Sound C t := by
  have hheld := owned_holds h hw
  have hopened (o : AppendOutcome) (ho : SparedOutcome C (s.owned C id w) o)
      (hstep : (((s.owned C id w).ensureOpen s.files r).bind fun opened =>
        s.appendOpened C id input opened.1 opened.2 o) = some t) : Sound C t := by
    obtain ⟨⟨opened, dir⟩, hopen, hrest⟩ := Option.bind_eq_some_iff.mp hstep
    obtain ⟨htrail, hholds, hzero⟩ := ensure_open_holds h.trail hheld hname hopen
    exact append_opened_sound htrail hholds hzero ho hlock hrest
  cases outcome with
  | unopened =>
    simp only [System.appendOwned] at hstep
    split at hstep
    · cases hstep
      refine ⟨h.trail, fun holder hholder => ?_⟩
      cases hholder
      exact ⟨_, Function.update_self .., hheld.prev, by simp⟩
    · cases hstep
  | line o saved | lost left => exact hopened _ hspared hstep

theorem step_sound {a : Action} (h : Sound C s) (hspared : Spared C s a)
    (hstep : s.step C a = some t) : Sound C t := by
  cases a with
  | opened id size =>
    simp only [System.step] at hstep
    split at hstep
    · cases hstep
    · rename_i hnew
      cases hstep
      refine ⟨h.trail, fun holder hholder => ?_⟩
      obtain ⟨w, hw, hheld⟩ := h.held holder hholder
      have hother : holder ≠ id := by
        rintro rfl
        simp [hw] at hnew
      exact ⟨w, by simp [hother, hw], hheld⟩
  | dropped id =>
    simp only [System.step] at hstep
    split at hstep
    · cases hstep
      exact release_sound h id
    · cases hstep
  | append id input r outcome =>
    obtain ⟨w, hw, hrest⟩ := Option.bind_eq_some_iff.mp hstep
    split at hrest
    · cases hrest
      exact h
    · rename_i hlock
      obtain ⟨hname, hout⟩ := hspared w hw
      exact append_sound h hw (by simpa using hlock) hname hout hrest

theorem reached_sound (h : s.Reached C (Spared C)) : Sound C s := by
  induction h with
  | start => exact sound_start
  | step _ hspared hstep ih => exact step_sound ih hspared hstep

/-- In every state of a run whose steps are all spared the verifier finds no hash mismatch, no
seam and no truncated tail, whichever key it honours restarts with. -/
theorem writers_raise_no_alarm {s : System} (h : s.Reached C (Spared C))
    (key : Option AuditRestartKey) : (verify C s.files s.anchor key).chainOk = true :=
  trail_chain_ok (reached_sound h).trail key

/-- Some of an event's line is left and cannot be taken back; the event is appended again and
goes to a file of its own. -/
def givenUpFile (left : Bytes) : List Action :=
  [.opened 0 65536,
    .append 0 (sampleInput 1) ⟨1745000000, 0⟩ (.line (.failed left false false) true),
    .append 0 (sampleInput 1) ⟨1745000000, 0⟩ (.line .durable true)]

theorem cut_line_raises_no_alarm : ∃ s : System, s.Reached sampleCodec (Spared sampleCodec) ∧
    s.files.length = 2 ∧ (verify sampleCodec s.files s.anchor none).chainOk = true := by
  have hrun : ((System.run sampleCodec (fun s a => Spared sampleCodec s a) {}
      (givenUpFile ((encode (sampleLine 1 1 auditChainGenesis)).take 100))).any
        fun s => s.files.length == 2) = true := by decide +kernel
  obtain ⟨s, hs, hlen⟩ := (Option.any_eq_true _ _).mp hrun
  have hreached := run_reached (fun _ _ => of_decide_eq_true) .start hs
  exact ⟨s, hreached, beq_iff_eq.mp hlen, writers_raise_no_alarm hreached none⟩

/-- The whole line is left: it reads as an event, and the next one claims what stood before it. -/
theorem left_line_raises_alarm : ∃ s : System, s.Reached sampleCodec (fun _ _ => True) ∧
    (verify sampleCodec s.files s.anchor none).chainOk = false := by
  have hrun : ((System.run sampleCodec (fun _ _ => true) {}
      (givenUpFile (encode (sampleLine 1 1 auditChainGenesis)))).any fun s =>
        !(verify sampleCodec s.files s.anchor none).chainOk) = true := by decide +kernel
  obtain ⟨s, hs, halarm⟩ := (Option.any_eq_true _ _).mp hrun
  exact ⟨s, run_reached (fun _ _ _ => trivial) .start hs, by simpa using halarm⟩

end NetRuleRouter.WriterRuns
