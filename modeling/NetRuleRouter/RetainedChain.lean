import NetRuleRouter.KeptFiles
import NetRuleRouter.RestartCounts
import NetRuleRouter.WriterRuns

/-!
# Retention and the chain

The cleanup job removes the files that are too old, those over a count, and
then the oldest while the total size is over its cap. What a pass leaves
verifies like the whole when the files with events that stay from the restart
that counts on are consecutive, the anchored file stays and the restart goes
only with what its going would lay open. Nothing sees to that: a file can go
from the middle.
-/

set_option autoImplicit false

namespace NetRuleRouter.RetainedChain
open TextOps Sorting Utf8 AuditEvents AuditTrail TrailLinks RestartLinks Stretches KeptFiles
open AuditJson AuditWriter RestartPlace RestartCounts

structure AuditRetentionPolicy where
  maxAgeDays : ℕ
  maxTotalSizeBytes : ℕ
  deriving DecidableEq, Repr

def minAuditMaxAgeDays : ℕ := 30

def minAuditMaxSizeBytes : ℕ := 10 * 1024 * 1024

def AuditRetentionPolicy.clamped (policy : AuditRetentionPolicy) : AuditRetentionPolicy where
  maxAgeDays := max policy.maxAgeDays minAuditMaxAgeDays
  maxTotalSizeBytes :=
    if policy.maxTotalSizeBytes = 0 then 0
    else max policy.maxTotalSizeBytes minAuditMaxSizeBytes

structure FileInfo where
  size : ℕ
  modified : ℤ
  deriving DecidableEq, Repr

structure FileEntry where
  name : Text
  size : ℕ
  modified : ℤ
  deriving DecidableEq, Repr

def entryOf (info : Text → Option FileInfo) (f : AuditFile) : Option FileEntry :=
  (info f.name).map fun i => ⟨f.name, i.size, i.modified⟩

def collectLogFiles (info : Text → Option FileInfo) (dir : Directory) : List FileEntry :=
  sortBy (fun a b => keyOrder (rotationSortKey a.name) (rotationSortKey b.name))
    ((dir.filter isAuditFile).filterMap (entryOf info))

def nanosPerDay : ℕ := 86400 * 10 ^ 9

def expired (now : ℤ) (maxAgeDays : ℕ) (f : FileEntry) : Bool :=
  0 < maxAgeDays && maxAgeDays * nanosPerDay < (now - f.modified).toNat

def overCap (cap : ℕ) : ℕ → List FileEntry → ℕ
  | _, [] => 0
  | total, f :: rest => if total ≤ cap then 0 else overCap cap (total - f.size) rest + 1

def totalSize (files : List FileEntry) : ℕ := (files.map FileEntry.size).sum

def retentionPlan (now : ℤ) (files : List FileEntry) (maxAgeDays maxTotalSizeBytes maxFiles : ℕ) :
    List FileEntry :=
  let closed := files.dropLast
  let live := files.getLast?
  let doomed := closed.filter (expired now maxAgeDays)
  let remaining := closed.filter fun f => !expired now maxAgeDays f
  let keepClosed := maxFiles - live.toList.length
  let excess :=
    if 0 < maxFiles ∧ keepClosed < remaining.length then remaining.length - keepClosed else 0
  let doomed := doomed ++ remaining.take excess
  let remaining := remaining.drop excess
  if maxTotalSizeBytes = 0 then doomed
  else
    let total := (totalSize remaining + totalSize live.toList) % 2 ^ 64
    doomed ++ remaining.take (overCap maxTotalSizeBytes total remaining)

structure CleanupResult where
  filesDeleted : ℕ := 0
  bytesFreed : ℕ := 0
  errors : List (Text × Text) := []
  deriving DecidableEq, Repr

/-- One removal after the other; `removal` gives the error of a file that cannot be removed. -/
def applyRetention (removal : Text → Option Text) (plan : List FileEntry) (dir : Directory) :
    Directory × CleanupResult :=
  plan.foldl (fun done f =>
    match removal f.name with
    | none => (done.1.filter (·.name != f.name),
        { done.2 with
          filesDeleted := done.2.filesDeleted + 1
          bytesFreed := done.2.bytesFreed + f.size })
    | some reason => (done.1, { done.2 with errors := done.2.errors ++ [(f.name, reason)] }))
    (dir, {})

def runAudit (info : Text → Option FileInfo) (removal : Text → Option Text) (now : ℤ)
    (policy : AuditRetentionPolicy) (dir : Directory) : Directory × CleanupResult :=
  let policy := policy.clamped
  applyRetention removal
    (retentionPlan now (collectLogFiles info dir) policy.maxAgeDays policy.maxTotalSizeBytes 0) dir

theorem apply_retention_files (removal : Text → Option Text) (plan : List FileEntry)
    (dir : Directory) : (applyRetention removal plan dir).1 =
      dir.filter fun f => !plan.any fun e => e.name == f.name && (removal e.name).isNone := by
  unfold applyRetention
  generalize ({} : CleanupResult) = result
  induction plan generalizing dir result with
  | nil => simp
  | cons e plan ih =>
    rw [List.foldl_cons]
    cases hr : removal e.name with
    | none =>
      rw [ih, List.filter_filter]
      refine List.filter_congr fun f _ => ?_
      have hcomm : (e.name == f.name) = (f.name == e.name) := Bool.beq_comm
      rw [List.any_cons, hr, hcomm, bne]
      cases f.name == e.name <;> simp
    | some reason =>
      rw [ih]
      refine List.filter_congr fun f _ => ?_
      rw [List.any_cons, hr]
      simp

def standing (now : ℤ) (maxAgeDays : ℕ) (files : List FileEntry) : List FileEntry :=
  files.dropLast.filter fun f => !expired now maxAgeDays f

/-- With the standing files before it gone the total is still over the cap. -/
def OverBudget (now : ℤ) (policy : AuditRetentionPolicy) (files : List FileEntry)
    (f : FileEntry) : Prop :=
  policy.maxTotalSizeBytes ≠ 0 ∧
    ∃ before after, standing now policy.maxAgeDays files = before ++ f :: after ∧
      policy.maxTotalSizeBytes <
        (totalSize (standing now policy.maxAgeDays files) + totalSize files.getLast?.toList) % 2 ^ 64
          - totalSize before

variable {files : List FileEntry} {f : FileEntry}

theorem over_cap_take {cap total : ℕ} :
    f ∈ files.take (overCap cap total files) ↔
      ∃ before after, files = before ++ f :: after ∧ cap < total - totalSize before := by
  induction files generalizing total with
  | nil => simp [overCap]
  | cons e files ih =>
    have hsub (before : List FileEntry) :
        total - totalSize (e :: before) = total - e.size - totalSize before := by
      simp only [totalSize, List.map_cons, List.sum_cons]
      omega
    rw [overCap]
    split
    · rename_i hle
      refine iff_of_false (by simp) ?_
      rintro ⟨before, after, -, hlt⟩
      omega
    · rename_i hle
      rw [List.take_succ_cons, List.mem_cons, ih]
      constructor
      · rintro (rfl | ⟨before, after, rfl, hlt⟩)
        · exact ⟨[], files, rfl, by simpa [totalSize] using hle⟩
        · exact ⟨e :: before, after, rfl, hsub before ▸ hlt⟩
      · rintro ⟨before, after, hsplit, hlt⟩
        cases before with
        | nil => exact Or.inl (List.cons.inj hsplit).1.symm
        | cons x before =>
          obtain ⟨rfl, rfl⟩ := List.cons.inj hsplit
          exact Or.inr ⟨before, after, rfl, hsub before ▸ hlt⟩

theorem mem_plan_iff {now : ℤ} {policy : AuditRetentionPolicy} :
    f ∈ retentionPlan now files policy.maxAgeDays policy.maxTotalSizeBytes 0 ↔
      f ∈ files.dropLast ∧ expired now policy.maxAgeDays f = true ∨
        OverBudget now policy files f := by
  have hexcess : (if 0 < 0 ∧ 0 - files.getLast?.toList.length <
      (standing now policy.maxAgeDays files).length then
        (standing now policy.maxAgeDays files).length - (0 - files.getLast?.toList.length)
      else 0) = 0 := if_neg fun h => absurd h.1 (Nat.lt_irrefl 0)
  unfold retentionPlan OverBudget
  dsimp only
  rw [← standing, hexcess, List.take_zero, List.drop_zero, List.append_nil]
  split
  · rename_i hcap
    simp [hcap]
  · rename_i hcap
    rw [List.mem_append, List.mem_filter, over_cap_take]
    simp [hcap]

/-- What a pass is run with: what the file system says of each file and of its removal, the clock
and the policy. -/
structure Pass where
  info : Text → Option FileInfo
  removal : Text → Option Text
  now : ℤ
  policy : AuditRetentionPolicy

def Pass.run (p : Pass) (dir : Directory) : Directory :=
  (runAudit p.info p.removal p.now p.policy dir).1

/-- The file is closed, it is too old or over the budget, and it can be removed. -/
def Pass.Goes (p : Pass) (dir : Directory) (name : Text) : Prop :=
  p.removal name = none ∧ ∃ e : FileEntry, e.name = name ∧
    (e ∈ (collectLogFiles p.info dir).dropLast ∧
        expired p.now p.policy.clamped.maxAgeDays e = true ∨
      OverBudget p.now p.policy.clamped (collectLogFiles p.info dir) e)

def Pass.keeps (p : Pass) (dir : Directory) (name : Text) : Bool :=
  !(retentionPlan p.now (collectLogFiles p.info dir) p.policy.clamped.maxAgeDays
      p.policy.clamped.maxTotalSizeBytes 0).any
    fun e => e.name == name && (p.removal e.name).isNone

variable {p : Pass} {dir : Directory} {name : Text}

theorem keeps_iff : p.keeps dir name = true ↔ ¬p.Goes dir name := by
  rw [Pass.keeps, Bool.not_eq_true', Bool.eq_false_iff, ne_eq, not_iff_not, List.any_eq_true]
  constructor
  · rintro ⟨e, he, hname⟩
    rw [Bool.and_eq_true, beq_iff_eq, Option.isNone_iff_eq_none] at hname
    exact ⟨hname.1 ▸ hname.2, e, hname.1, mem_plan_iff.mp he⟩
  · rintro ⟨hremoval, e, hname, he⟩
    refine ⟨e, mem_plan_iff.mpr he, ?_⟩
    rw [Bool.and_eq_true, beq_iff_eq, Option.isNone_iff_eq_none]
    exact ⟨hname, hname ▸ hremoval⟩

theorem run_eq (p : Pass) (dir : Directory) :
    p.run dir = dir.filter fun f => p.keeps dir f.name := apply_retention_files _ _ _

variable {C : AuditCodec}

theorem list_after (p : Pass) (dir : Directory) :
    listAuditFiles (p.run dir) = (listAuditFiles dir).filter fun f => p.keeps dir f.name := by
  rw [run_eq, listAuditFiles, listAuditFiles, sortChronologically, sortChronologically,
    ← sort_by_filter, List.filter_filter, List.filter_filter]
  simp only [Bool.and_comm]

theorem file_after :
    fileNamed (p.run dir) name = if p.keeps dir name then fileNamed dir name else none := by
  rw [run_eq, fileNamed, fileNamed, List.find?_filter]
  split
  · rename_i hk
    congr 1
    funext f
    by_cases hf : f.name = name
    · simp [hf, hk]
    · simp [hf]
  · rename_i hk
    rw [List.find?_eq_none]
    intro f _
    by_cases hf : f.name = name
    · simp [hf, hk]
    · simp [hf]

def hasEvents (C : AuditCodec) (f : AuditFile) : Bool := !(fileEvents C f).isEmpty

theorem eventful_eq (key : Option AuditRestartKey) (files : Directory) :
    eventful (fileLink C key) files = files.filter (hasEvents C) := by
  refine List.filter_congr fun f _ => ?_
  rw [(file_link_spec f key).1, hasEvents, tailOf]
  cases fileEvents C f using List.reverseRecOn with
  | nil => rfl
  | append_singleton es e => simp

theorem tails_sublist (key : Option AuditRestartKey) (files : Directory) :
    ((eventful (fileLink C key) files).map fun f => (fileLink C key f).tailHash).Sublist
      ((trailEvents C files).map fun e => some e.1.eventHash) := by
  induction files with
  | nil => exact List.Sublist.refl _
  | cons f files ih =>
    have htail : (fileLink C key f).tailHash = tailOf none (fileEvents C f) :=
      (file_link_spec f key).1
    rw [trailEvents, List.flatMap_cons, List.map_append]
    cases hev : fileEvents C f using List.reverseRecOn with
    | nil =>
      have hnone : (fileLink C key f).tailHash = none := by rw [htail, hev]; rfl
      simpa [eventful, hnone, trailEvents] using ih
    | append_singleton es e =>
      have hlast : (fileLink C key f).tailHash = some e.1.eventHash := by
        rw [htail, hev]
        simp [tailOf]
      rw [eventful, List.filter_cons_of_pos (by simp [hlast]), List.map_cons, hlast,
        List.map_append, List.append_assoc]
      exact (ih.cons_cons _).trans (List.sublist_append_right _ _)

theorem truncated_after {anchor : Option AuditChainAnchor}
    (h : (checkTail C dir anchor).isTruncated = false) :
    (checkTail C (p.run dir) anchor).isTruncated = false ↔
      ∀ a ∈ anchor, ¬p.Goes dir a.fileName := by
  cases anchor with
  | none => simp [checkTail, AuditTailIntegrity.isTruncated]
  | some a =>
    have hread : readToString (p.run dir) a.fileName =
        if p.keeps dir a.fileName then readToString dir a.fileName else none := by
      rw [readToString, file_after]
      split <;> rfl
    have hgoes : (∀ x ∈ some a, ¬p.Goes dir x.fileName) ↔ p.keeps dir a.fileName = true := by
      rw [keeps_iff]
      simp
    rw [hgoes]
    cases hk : p.keeps dir a.fileName with
    | true =>
      rw [hk, if_pos rfl] at hread
      rw [checkTail, hread]
      exact iff_of_true h rfl
    | false =>
      rw [hk, if_neg Bool.false_ne_true] at hread
      rw [checkTail, hread]
      exact iff_of_false (fun h => by cases h) Bool.false_ne_true

/-- The file the count starts from, where a sealed restart counts. -/
def countedFrom (C : AuditCodec) (dir : Directory) (key : Option AuditRestartKey) : Option ℕ :=
  lastUsableRestart ((linksOf C dir key).map Prod.snd)

/-- From the restart that counts on, the pass takes no file with events from between two that it
leaves, and it leaves the anchored file. If it takes the restart, it leaves files with events on one
side of it only, and what it leaves before it verifies by itself. If it leaves the restart and the
restart opens its file, it leaves the last file with events before it or none of those. -/
structure SparesChain (C : AuditCodec) (p : Pass) (dir : Directory)
    (anchor : Option AuditChainAnchor) (key : Option AuditRestartKey) : Prop where
  middle : ∀ f g h, [f, g, h].Sublist
      (((listAuditFiles dir).drop ((countedFrom C dir key).getD 0)).filter (hasEvents C)) →
    p.Goes dir g.name → p.Goes dir f.name ∨ p.Goes dir h.name
  anchored : ∀ a ∈ anchor, ¬p.Goes dir a.fileName
  gone : ∀ s ∈ countedFrom C dir key, ∀ f ∈ (listAuditFiles dir)[s]?, p.Goes dir f.name →
    (∀ x ∈ ((listAuditFiles dir).take s).filter (hasEvents C),
      ∀ y ∈ ((listAuditFiles dir).drop (s + 1)).filter (hasEvents C),
        p.Goes dir x.name ∨ p.Goes dir y.name) ∧
    (verify C (((listAuditFiles dir).take s).filter fun f => p.keeps dir f.name) none
      key).breakCount = 0
  opens : ∀ s ∈ countedFrom C dir key, ∀ f ∈ (listAuditFiles dir)[s]?, ¬p.Goes dir f.name →
    ∀ r ∈ (fileLink C key f).restart, r.seamPrev.isSome = true →
      ∀ xs g, ((listAuditFiles dir).take s).filter (hasEvents C) = xs ++ [g] →
        p.Goes dir g.name → ∀ x ∈ xs, p.Goes dir x.name

theorem list_part {l : Directory} (h : l.Sublist (listAuditFiles dir)) : listAuditFiles l = l := by
  have haudit : l.filter isAuditFile = l := List.filter_eq_self.mpr fun f hf =>
    (List.mem_filter.mp ((mem_sort_by _ _ _).mp (h.subset hf))).2
  rw [listAuditFiles, haudit]
  exact sort_by_of_sorted _ _ ((sort_by_sorted _ _).sublist h)

theorem part_counted {l : Directory} (h : l.Sublist (listAuditFiles dir))
    (key : Option AuditRestartKey) :
    (verify C l none key).breakCount = 0 ↔ CountedOk .breaks (l.map (fileLink C key)) := by
  rw [verify_count, links_eq, list_part h]
  exact and_iff_left rfl

theorem goes_iff : p.Goes dir name ↔ p.keeps dir name = false := by
  rw [← Bool.not_eq_true, keeps_iff, not_not]

theorem spares_iff {anchor : Option AuditChainAnchor} {key : Option AuditRestartKey} :
    SparesChain C p dir anchor key ↔
      Spared .breaks (fileLink C key) (fun f => p.keeps dir f.name) (listAuditFiles dir) ∧
        ∀ a ∈ anchor, ¬p.Goes dir a.fileName := by
  have hpart (s : ℕ) : (((listAuditFiles dir).take s).filter fun f => p.keeps dir f.name).Sublist
      (listAuditFiles dir) := List.filter_sublist.trans (List.take_sublist _ _)
  have hstart : countedFrom C dir key =
      lastUsableRestart ((listAuditFiles dir).map (fileLink C key)) := by
    rw [countedFrom, links_eq]
  have hor {a b c : Bool} : (b = false → a = false ∨ c = false) ↔
      (a = true → c = true → b = true) := by
    cases a <;> cases b <;> cases c <;> decide
  have hside {a b : Bool} : (a = false ∨ b = false) ↔ (a = true → b = false) := by
    cases a <;> cases b <;> decide
  constructor
  · intro h
    refine ⟨⟨?_, ?_, ?_⟩, h.anchored⟩
    · simpa only [MiddleKept, goes_iff, hor, hstart, eventful_eq] using h.middle
    · simpa only [goes_iff, hside, hstart, eventful_eq, part_counted (hpart _)] using h.gone
    · simpa only [goes_iff, Bool.not_eq_false, hstart, eventful_eq] using h.opens
  · rintro ⟨h, hanchored⟩
    refine ⟨?_, hanchored, ?_, ?_⟩
    · simpa only [MiddleKept, goes_iff, hor, hstart, eventful_eq] using h.middle
    · simpa only [goes_iff, hside, hstart, eventful_eq, part_counted (hpart _)] using h.gone
    · simpa only [goes_iff, Bool.not_eq_false, hstart, eventful_eq] using h.opens

/-- A pass that spares the chain leaves it without a break, and where the stored hashes differ no
other pass does. -/
theorem retention_keeps_chain (p : Pass) (dir : Directory) (anchor : Option AuditChainAnchor)
    (key : Option AuditRestartKey) (hok : (verify C dir anchor key).breakCount = 0) :
    (SparesChain C p dir anchor key → (verify C (p.run dir) anchor key).breakCount = 0) ∧
      (((trailEvents C (listAuditFiles dir)).map fun e => e.1.eventHash).Nodup →
        (verify C (p.run dir) anchor key).breakCount = 0 → SparesChain C p dir anchor key) := by
  rw [verify_count, links_eq] at hok
  obtain ⟨hcounted, htrunc⟩ := hok
  rw [verify_count, links_eq, list_after, truncated_after htrunc, spares_iff]
  refine ⟨fun h => ⟨counted_ok_spared (links_sound key _) hcounted h.1, h.2⟩,
    fun hnodup hafter => ⟨?_, hafter.2⟩⟩
  have htails := hnodup.map (Option.some_injective _)
  rw [List.map_map] at htails
  exact spared_of_counted (links_sound key _) (htails.sublist (tails_sublist key _)) hcounted
    hafter.1

def restartedFiles : Directory :=
  tornFiles ++
    [⟨"nrr_audit_20250418-2.ndjson".toList,
        encode (renderEvent (buildSealedEvent restartCodec (restartInput sampleRequest
          (verify restartCodec tornFiles (some tornAnchor) (some sampleKey)) tornDigest firstHash) 1
          firstHash sampleKey) ++ ['\n'])⟩,
      ⟨"nrr_audit_20250418-3.ndjson".toList,
        encode (renderEvent (buildEvent restartCodec (sampleInput 3) 1 restartHash) ++ ['\n'])⟩]

def restartedAnchor : AuditChainAnchor := ⟨"nrr_audit_20250418-3.ndjson".toList, 1, afterHash⟩

/-- Every file was last written forty days before the pass. -/
def oldFilesPass (removal : Text → Option Text) : Pass where
  info _ := some ⟨400, 1745000000 * 10 ^ 9⟩
  removal := removal
  now := (1745000000 + 40 * 86400) * 10 ^ 9
  policy := ⟨30, 0⟩

/-- The restart goes together with the torn file before it. -/
theorem restart_removed :
    (verify restartCodec restartedFiles (some restartedAnchor) (some sampleKey)).restarted = true ∧
    ((oldFilesPass fun _ => none).run restartedFiles).length = 1 ∧
    (verify restartCodec ((oldFilesPass fun _ => none).run restartedFiles) (some restartedAnchor)
      (some sampleKey)).breakCount = 0 := by
  have hdir : (verify restartCodec restartedFiles (some restartedAnchor)
        (some sampleKey)).breakCount = 0 ∧
      countedFrom restartCodec restartedFiles (some sampleKey) = some 1 ∧
      (listAuditFiles restartedFiles).length = 3 ∧
      ((oldFilesPass fun _ => none).run restartedFiles).length = 1 ∧
      (oldFilesPass fun _ => none).keeps restartedFiles restartedAnchor.fileName = true ∧
      ∀ f ∈ (listAuditFiles restartedFiles).take 2,
        (oldFilesPass fun _ => none).keeps restartedFiles f.name = false := by
    decide +kernel
  obtain ⟨hcount, hstart, hlength, hleft, hanchor, hgoes⟩ := hdir
  refine ⟨by rw [verify_restarted, ← countedFrom, hstart]; rfl, hleft,
    (retention_keeps_chain _ _ _ _ hcount).1 ⟨?_, ?_, ?_, ?_⟩⟩
  · intro f g h hsub
    have hlen := hsub.length_le.trans (List.length_filter_le _ _)
    rw [hstart, List.length_drop, hlength] at hlen
    simp at hlen
  · intro a ha
    cases ha
    exact keeps_iff.mp hanchor
  · intro s hs f hf _
    obtain rfl : 1 = s := Option.some.inj (hstart.symm.trans hs)
    refine ⟨fun x hx _ _ => Or.inl (goes_iff.mpr (hgoes x ?_)), by decide +kernel⟩
    exact (List.take_sublist_take_left (by decide)).subset (List.mem_of_mem_filter hx)
  · intro s hs f hf hstays
    obtain rfl : 1 = s := Option.some.inj (hstart.symm.trans hs)
    refine absurd (goes_iff.mpr (hgoes f (List.mem_of_getElem? (i := 1) ?_))) hstays
    rw [List.getElem?_take_of_lt (by decide), hf]

def threeFiles : List Action :=
  [.opened 0 1, .append 0 (sampleInput 1) ⟨1745000000, 0⟩ (.line .durable true),
    .append 0 (sampleInput 2) ⟨1745000000, 0⟩ (.line .durable true),
    .append 0 (sampleInput 3) ⟨1745000000, 0⟩ (.line .durable true)]

def firstInUse (name : Text) : Option Text :=
  if name = "nrr_audit_20250418-1.ndjson".toList then some "in use".toList else none

theorem failed_removal_breaks_chain : ∃ s : System, s.Reached sampleCodec (fun _ _ => True) ∧
    (verify sampleCodec s.files s.anchor none).breakCount = 0 ∧
    (verify sampleCodec ((oldFilesPass firstInUse).run s.files) s.anchor none).breakCount ≠
      0 := by
  have hrun : ((System.run sampleCodec (fun _ _ => true) {} threeFiles).any fun s =>
      (verify sampleCodec s.files s.anchor none).breakCount == 0 &&
        (verify sampleCodec ((oldFilesPass firstInUse).run s.files) s.anchor none).breakCount !=
          0) = true := by decide +kernel
  obtain ⟨s, hs, hcounts⟩ := (Option.any_eq_true _ _).mp hrun
  rw [Bool.and_eq_true, beq_iff_eq, bne_iff_ne] at hcounts
  exact ⟨s, run_reached (fun _ _ _ => trivial) .start hs, hcounts⟩

end NetRuleRouter.RetainedChain
