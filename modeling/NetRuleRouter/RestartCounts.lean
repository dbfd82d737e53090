import NetRuleRouter.AuditJson
import NetRuleRouter.RestartPlace

/-!
# Restarts that succeed

A restart that was written and anchored leaves nothing to report, where the
file it goes to fits: the held file by what others left of it, a new file by
what sorts after its name. A held file that others removed takes the restart
with it.
-/

set_option autoImplicit false

namespace NetRuleRouter.RestartCounts
open TextOps TextLines Utf8 Sorting AuditEvents AuditTrail RotationNames TrailLinks AuditWriter
open CommittedLines RestartPlace AuditJson

variable {C : AuditCodec}

variable {dir : Directory}

theorem first_free_new {pre : Text} {fuel i n : ℕ} (h : firstFree dir pre fuel i = some n) :
    fileNamed dir (rotatedName pre n) = none := by
  induction fuel generalizing i with
  | zero => cases h
  | succ fuel ih =>
    rw [firstFree] at h
    split at h
    · exact ih h
    · rename_i hfree
      cases h
      simpa using hfree

variable {r : Reading} {name : Text} {files : Directory}

theorem next_is_audit (h : openNextRotation dir (auditPrefixFor dir r) = some name)
    (bytes : Bytes) : isAuditFile ⟨name, bytes⟩ = true ∧ ∀ g ∈ dir, g.name ≠ name := by
  obtain ⟨n, hn, rfl⟩ := Option.map_eq_some_iff.mp h
  refine ⟨?_, file_named_none.mp (first_free_new hn)⟩
  exact audit_name_is_audit _ n bytes

theorem rotated_names (hnames : (dir.map AuditFile.name).Nodup) (hnew : ∀ g ∈ dir, g.name ≠ name) :
    ((dir ++ [AuditFile.mk name []]).map AuditFile.name).Nodup := by
  rw [List.map_append, List.nodup_append]
  refine ⟨hnames, List.nodup_singleton _, fun a ha b hb => ?_⟩
  obtain ⟨g, hg, rfl⟩ := List.mem_map.mp ha
  rw [List.map_singleton, List.mem_singleton] at hb
  exact hb ▸ hnew g hg

theorem listed_without {before later : Directory}
    (hnames : ((dir ++ [AuditFile.mk name []]).map AuditFile.name).Nodup)
    (hsplit : listAuditFiles (dir ++ [⟨name, []⟩]) = before ++ ⟨name, []⟩ :: later) :
    listAuditFiles dir = before ++ later := by
  have hlisted := listed_names hnames
  rw [hsplit, List.map_append, List.map_cons, List.nodup_middle, List.nodup_cons,
    ← List.map_append] at hlisted
  have hdir : name ∉ dir.map AuditFile.name := by
    rw [List.map_append, List.map_singleton, List.nodup_append] at hnames
    exact fun hmem => hnames.2.2 name hmem name (by simp) rfl
  have hkeep {fs : Directory} (h : name ∉ fs.map AuditFile.name) :
      (fs.filter fun g => g.name != name) = fs := by
    rw [List.filter_eq_self]
    intro g hg
    rw [bne_iff_ne]
    rintro rfl
    exact h (List.mem_map_of_mem hg)
  have hall : ((dir ++ [AuditFile.mk name []]).filter fun g => g.name != name) = dir := by
    rw [List.filter_append, hkeep hdir]
    simp
  have hfilter : listAuditFiles dir =
      (listAuditFiles (dir ++ [⟨name, []⟩])).filter fun g => g.name != name := by
    rw [listAuditFiles, listAuditFiles, sortChronologically, sortChronologically,
      ← sort_by_filter, List.filter_filter]
    conv_lhs => rw [← hall, List.filter_filter]
    simp only [Bool.and_comm]
  have hrest := hkeep hlisted.1
  rw [List.filter_append] at hrest
  rw [hfilter, hsplit, List.filter_append, List.filter_cons_of_neg (by simp), hrest]

theorem rotated_fits (hnames : (dir.map AuditFile.name).Nodup)
    (h : openNextRotation dir (auditPrefixFor dir r) = some name)
    (hblank : ∀ g ∈ dir, isAuditFile g = true →
      keyOrder (rotationSortKey g.name) (rotationSortKey name) ≠ .lt → Blank g) :
    ∃ before later,
      FitsAt (dir ++ [⟨name, []⟩]) before later ⟨name, []⟩ [] [] ⟨name, some name, 0⟩ ∧
        listAuditFiles dir = before ++ later := by
  obtain ⟨haudit, hnew⟩ := next_is_audit h []
  have hmem : (⟨name, []⟩ : AuditFile) ∈ listAuditFiles (dir ++ [⟨name, []⟩]) := by
    rw [listAuditFiles, sortChronologically, mem_sort_by, List.mem_filter]
    exact ⟨by simp, haudit⟩
  obtain ⟨before, later, hsplit⟩ := List.append_of_mem hmem
  have hwithout := listed_without (rotated_names hnames hnew) hsplit
  refine ⟨before, later, ⟨hsplit, rfl, rfl, rfl, ended_nil, rfl, by simp, fun g hg => ?_⟩, hwithout⟩
  have hg' : g ∈ dir.filter isAuditFile := by
    rw [← mem_sort_by, ← sortChronologically, ← listAuditFiles, hwithout]
    exact List.mem_append_right _ hg
  rw [List.mem_filter] at hg'
  refine hblank g hg'.1 hg'.2 fun hlt => ?_
  -- the listing is in order, so `g` does not come before the new file
  have hsorted : Sorted _ (listAuditFiles (dir ++ [⟨name, []⟩])) := sort_by_sorted _ _
  rw [hsplit] at hsorted
  have hle := List.rel_of_pairwise_cons (List.pairwise_append.mp hsorted).2.1 hg
  rw [InOrder, (Std.OrientedCmp.eq_swap : keyOrder _ _ = _), hlt] at hle
  cases hle

theorem sealed_event_facts (input : AuditEventInput) (seq : UInt64) (head : Text)
    (key : AuditRestartKey) :
    isHexText (buildSealedEvent C input seq head key).eventHash = true ∧
      claimedPrev (buildSealedEvent C input seq head key) = head :=
  ⟨hashed_hex _ _, blank_event_claims input seq head⟩

theorem commit_counts {w : Writer} {anchor : Option AuditChainAnchor}
    {key : AuditRestartKey} {input : AuditEventInput} {verdict shown : AuditChainVerification}
    {outcome : LineOutcome} (hfits : ∀ file ∈ w.current, Fits files file)
    (hnames : (files.map AuditFile.name).Nodup) (hkind : input.kind = .auditChainRestarted)
    (hprev : w.prevHash = lastHash (trailEvents C (listAuditFiles files)))
    (hok : (commitRestart C w files anchor key input verdict outcome true).result = .ok shown) :
    let done := commitRestart C w files anchor key input verdict outcome true
    let v := verify C done.files done.anchor (some key)
    v.restarted = true ∧ v.chainOk = true ∧ v.breakCount = 0 := by
  unfold commitRestart at hok ⊢
  cases hcur : w.current with
  | none => simp [hcur] at hok
  | some file =>
    obtain ⟨before, later, f, t, u, hfit⟩ := hfits file hcur
    obtain ⟨hhex, hclaims⟩ := sealed_event_facts (C := C) input w.nextSeq w.prevHash key
    cases outcome with
    | failed left truncated sought => simp [hcur, Writer.commitEvent, commitLine] at hok
    | durable =>
      refine written_counts hfit hnames hhex (hclaims.trans hprev) ?_ ?_
      · rw [hclaims]
        exact hashed_hash _ _
      · exact sealed_restart (by rw [blankEvent, hkind]) key w.prevHash

theorem opened_fits {w opened : Writer} {head : Text}
    (hnames : (dir.map AuditFile.name).Nodup) (hfits : RestartFits w dir r)
    (hopen : ({ w with prevHash := head } : Writer).ensureOpen dir r = some (opened, files)) :
    (∀ file ∈ opened.current, Fits files file) ∧ (files.map AuditFile.name).Nodup ∧
      (head = lastHash (trailEvents C (listAuditFiles dir)) →
        opened.prevHash = lastHash (trailEvents C (listAuditFiles files))) := by
  have hneeds : ({ w with prevHash := head } : Writer).needsOpen = w.needsOpen := rfl
  rw [Writer.ensureOpen, hneeds] at hopen
  unfold RestartFits at hfits
  split at hfits
  · rename_i hopens
    rw [if_pos hopens] at hopen
    obtain ⟨name, hname, hpair⟩ := Option.map_eq_some_iff.mp hopen
    obtain ⟨rfl, rfl⟩ := Prod.mk.inj hpair
    obtain ⟨before, later, hfit, hwithout⟩ := rotated_fits hnames hname (hfits name hname)
    refine ⟨fun file hfile => ?_, rotated_names hnames (next_is_audit hname []).2, fun hhead => ?_⟩
    · cases hfile
      exact ⟨before, later, _, [], [], hfit⟩
    · rw [fits_trail hfit, hhead, hwithout, trailEvents, List.flatMap_append, ← trailEvents,
        ← trailEvents, blank_files_events hfit.blank, lines_nil]
      rfl
  · rename_i hopens
    rw [if_neg hopens] at hopen
    obtain ⟨rfl, rfl⟩ := Prod.mk.inj (Option.some.inj hopen)
    exact ⟨hfits, hnames, id⟩

/-- A restart that succeeds and whose anchor is saved leaves nothing to report, where the file it
goes to fits. -/
theorem restart_counts {holdsLock : Bool} {w : Writer} {dir : Directory}
    {anchor : Option AuditChainAnchor} {key : AuditRestartKey} {shownDigest : Text}
    {request : AuditChainRestartRequest} {r : Reading} {outcome : LineOutcome}
    {verdict : AuditChainVerification} (hnames : (dir.map AuditFile.name).Nodup)
    (hfits : RestartFits (owned C holdsLock w dir anchor) dir r)
    (hok : (restartInner C holdsLock w dir anchor key shownDigest request r outcome true).result =
      .ok verdict) :
    let done := restartInner C holdsLock w dir anchor key shownDigest request r outcome true
    let v := verify C done.files done.anchor (some key)
    v.restarted = true ∧ v.chainOk = true ∧ v.breakCount = 0 := by
  unfold restartInner at hok ⊢
  dsimp only at hok ⊢
  cases hdigest : (verify C dir anchor (some key)).breaksDigest with
  | none => simp [hdigest] at hok
  | some digest =>
    simp only [hdigest] at hok ⊢
    by_cases hshown : digest ≠ shownDigest
    · simp [hshown] at hok
    · rw [if_neg hshown] at hok ⊢
      generalize howned : owned C holdsLock w dir anchor = held at hok hfits ⊢
      have hhead := resume_chain_state_eq (C := C) dir
      cases hopen : ({ held with prevHash := (resumeChainState C dir).1 } : Writer).ensureOpen
          dir r with
      | none => simp [hopen] at hok
      | some opened =>
        simp only [hopen] at hok ⊢
        obtain ⟨hfile, hdir, hprev⟩ := opened_fits hnames hfits hopen
        exact commit_counts hfile hdir rfl (hprev hhead) hok

def sampleKey : AuditRestartKey :=
  ⟨(decodeHex "f42a29b4f82d056cb1d12290dbf10b262cb90f585cb369ddd8020c4e6d59994e".toList).getD []⟩

def sampleRequest : AuditChainRestartRequest := ⟨"adt-0009".toList, 1745000000000, none⟩

def tornLine : Text := (sampleLine 2 2 firstHash).take 40

def tornFiles : Directory :=
  [⟨"nrr_audit_20250418-1.ndjson".toList, encode (sampleLine 1 1 auditChainGenesis ++ tornLine)⟩]

def tornAnchor : AuditChainAnchor := ⟨"nrr_audit_20250418-1.ndjson".toList, 2, secondHash⟩

def goneAnchor : AuditChainAnchor := ⟨"nrr_audit_20250418-1.ndjson".toList, 1, firstHash⟩

def tornBreak : AuditChainBreak :=
  ⟨.corruptLine, tornAnchor.fileName, 2, none, none,
    some "1257dc1f3f78622cbb7b7f2b7369436c474670b8e78c7400440844a7013183bc".toList⟩

/-- The digest of the breaks of the torn file, of these and the lost end, and of a lost end alone. -/
def fileBreaks : Text :=
  "6dda64a8f87e2787f82bec3d4141ce612fd8ac8a10ea0d1622ca25a41a2f1271".toList

def tornDigest : Text :=
  "390313eba2bbd11228493e699ec8b1b62f45d8ad125e612300de56bb2e56e948".toList

def goneDigest : Text :=
  "9a11ae00540f7b0bea0be2340ea34b148811a5c51d1b60547c8a3785abffcc7e".toList

def bareRestart (breaks : List AuditChainBreak) (shown head : Text) (seq : UInt64) : AuditEvent :=
  blankEvent (restartInput sampleRequest
    { chainOk := false, eventsVerified := 0, mismatchAtSeq := none, expectedHash := none,
      actualHash := none, corruptLines := 0, tailTruncated := true, breaks := breaks,
      breakCount := breaks.length, breaksDigest := some shown, restarted := false } shown head)
    seq head

def tornRestart : AuditEvent :=
  bareRestart [tornBreak, truncatedBreak tornAnchor] tornDigest firstHash 1

def goneRestart : AuditEvent :=
  bareRestart [truncatedBreak goneAnchor] goneDigest auditChainGenesis 2

def tornSeal : Text :=
  "6728bc3cfa87071fc501e9d06b744fd7ab9901f80a558ba5a95a7acd5d97733d".toList

def goneSeal : Text :=
  "ad169d42c0ecf7185a8dcb71d820fc27a974450edf8b633f0d7b25c12654bad1".toList

def restartHash : Text :=
  "2d7daa5408d7ec1d1061ddd22ed84012171b12804ceb5e1c83b024fcff45c2ac".toList

def afterHash : Text :=
  "12b284be32a0f7e7f1da0cebe006eada8982b9d9068a3a999edad89a499c9739".toList

def restartHashes : HashTable where
  entries :=
    [(sampleCovered 1 1 auditChainGenesis, firstHash), (tornLine, tornBreak.actualHash.getD []),
      (tornBreak.record, fileBreaks),
      ("1:".toList ++ fileBreaks ++ '\n' :: (truncatedBreak tornAnchor).record, tornDigest),
      (firstHash ++ renderEvent { tornRestart with sealText := some tornSeal }, restartHash),
      (sampleCovered 3 1 restartHash, afterHash), ((truncatedBreak goneAnchor).record, goneDigest),
      (auditChainGenesis ++ renderEvent { goneRestart with sealText := some goneSeal },
        "20f7c7ad5c46c7fa2474193c45cd9eb40d6f35081756e76b17b510b45b931d57".toList)]
  sound := by decide +kernel

def restartCodec : AuditCodec :=
  tableCodec restartHashes fun key text =>
    if key = sampleKey then
      ([(tornRestart, tornSeal), (goneRestart, goneSeal)].find? fun e =>
        renderEvent e.1 == text).elim [] fun e => (decodeHex e.2).getD []
    else []

/-- A writer that has just been opened restarts the chain of a torn file in a new one. -/
theorem new_file_counts :
    let done := restartInner restartCodec false { maxFileSizeBytes := 65536 } tornFiles
      (some tornAnchor) sampleKey tornDigest sampleRequest ⟨1745000000, 0⟩ .durable true
    let v := verify restartCodec done.files done.anchor (some sampleKey)
    v.restarted = true ∧ v.chainOk = true ∧ v.breakCount = 0 := by
  have hok : (restartInner restartCodec false { maxFileSizeBytes := 65536 } tornFiles
      (some tornAnchor) sampleKey tornDigest sampleRequest ⟨1745000000, 0⟩ .durable
      true).result.isOk = true := by decide +kernel
  have hnext : openNextRotation tornFiles (auditPrefixFor tornFiles ⟨1745000000, 0⟩) =
      some "nrr_audit_20250418-2.ndjson".toList := by decide +kernel
  have hfits : RestartFits (owned restartCodec false { maxFileSizeBytes := 65536 } tornFiles
      (some tornAnchor)) tornFiles ⟨1745000000, 0⟩ := by
    rw [RestartFits, if_pos, hnext]
    · intro name hname g hg _ hlate
      cases hname
      rw [List.mem_singleton.mp hg] at hlate
      exact absurd (by decide +kernel) hlate
    · rfl
  cases hresult : (restartInner restartCodec false { maxFileSizeBytes := 65536 } tornFiles
      (some tornAnchor) sampleKey tornDigest sampleRequest ⟨1745000000, 0⟩ .durable true).result with
  | error e =>
    rw [hresult] at hok
    cases hok
  | ok verdict => exact restart_counts (by decide) hfits hresult

/-- The writer still holds the file that others removed, and writes the restart into it. -/
theorem removed_file_lost :
    let done := restartInner restartCodec true
      { maxFileSizeBytes := 65536, current := some ⟨goneAnchor.fileName, none, 257⟩,
        currentSize := 257, prevHash := firstHash, nextSeq := 2 } [] (some goneAnchor) sampleKey
      goneDigest sampleRequest ⟨1745000000, 0⟩ .durable true
    done.result.isOk = true ∧
      (verify restartCodec done.files done.anchor (some sampleKey)).breakCount ≠ 0 := by
  decide +kernel

end NetRuleRouter.RestartCounts
