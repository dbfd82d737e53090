import NetRuleRouter.NftBatch

/-!
# Applying what the kernel accepts

A batch is one transaction, so one rule the kernel refuses takes the whole
ruleset with it. A best-effort apply searches for the refused rules by halving,
in a scratch table, and applies the rest, unless a refused drop would leave the
rest wider than the plan. How each run of `nft` ends is left open.
-/

set_option autoImplicit false

namespace NetRuleRouter.BestEffort
open TextOps Numerals NftMerge NftBatch

def indexedRules (ruleset : NftRuleset) : List (NftRule × ℕ) :=
  (ruleset.rules ++ ruleset.forward).zipIdx

def isIpsec (rule : NftRule) : Bool := decide (NftMatch.routeIpsec ∈ rule.conditions)

def everyIpsecPermitRefused (ruleset : NftRuleset) (offenders : List ℕ) : Bool :=
  (indexedRules ruleset).all fun q =>
    q.1.verdict.isDrop || !isIpsec q.1 || decide (q.2 ∈ offenders)

def wideningRefusals (ruleset : NftRuleset) (offenders : List ℕ) : List NftRule :=
  ((indexedRules ruleset).filter fun q => decide (q.2 ∈ offenders) && q.1.verdict.isDrop &&
    !(isIpsec q.1 && everyIpsecPermitRefused ruleset offenders)).map Prod.fst

def keepRules (offenders : List ℕ) (rules : List NftRule) (offset : ℕ) : List NftRule :=
  ((rules.zipIdx offset).filter (decide <| ·.2 ∉ offenders)).map Prod.fst

structure SkippedNftRule where
  index : ℕ
  comment : Text
  deriving DecidableEq

def withoutRules (ruleset : NftRuleset) (offenders : List ℕ) :
    NftRuleset × List SkippedNftRule :=
  ({ ruleset with
      rules := keepRules offenders ruleset.rules 0
      forward := keepRules offenders ruleset.forward ruleset.rules.length },
    offenders.filterMap fun i =>
      (if i < ruleset.rules.length then ruleset.rules[i]?
        else ruleset.forward[i - ruleset.rules.length]?).map fun rule => ⟨i, rule.comment⟩)

def refusedBlockDetail (widening : List NftRule) : Text :=
  let names := (widening.take 8).map (·.comment)
  let more := widening.length - 8
  "the kernel refused a block rule (".toList ++ ", ".toList.intercalate names ++
    (if 0 < more then " and ".toList ++ numeral 10 more ++ " more".toList else []) ++
    "); applying the rest would let its traffic through, so the previous ruleset stays".toList

inductive NftRunFailure where
  | spawn (detail : Text)
  | timedOut (detail : Text)
  | exited (code : Option ℤ) (stderr : Text)
  deriving DecidableEq

inductive NftApplyError where
  | nftUnavailable (detail : Text)
  | notPermitted (detail : Text)
  | timedOut (detail : Text)
  | rejected (detail : Text)
  deriving DecidableEq

def NftApplyError.detail : NftApplyError → Text
  | .nftUnavailable detail => detail
  | .notPermitted detail => detail
  | .timedOut detail => detail
  | .rejected detail => detail

def nftExitNonl : ℤ := 3

def isPermissionOrKernelRefusal (detail : Text) : Bool :=
  ["not permitted".toList, "permission denied".toList, "no such file or directory".toList,
    "protocol not supported".toList, "operation not supported".toList].any
    fun marker => decide (List.IsInfix marker (toAsciiLowercase detail))

def classify : NftRunFailure → NftApplyError
  | .spawn detail => .nftUnavailable detail
  | .timedOut detail => .timedOut detail
  | .exited code stderr =>
    let detail :=
      if stderr ≠ [] then stderr
      else
        match code with
        | some status => "nft exited with status ".toList ++ (toString status).toList
        | none => "nft was killed by a signal".toList
    if code = some nftExitNonl ∨ isPermissionOrKernelRefusal stderr = true then
      .notPermitted detail
    else .rejected detail

def kernelAnswered : NftRunFailure → Bool
  | .exited code _ => code != some nftExitNonl
  | _ => false

def classifyProbe (failure : NftRunFailure) : NftApplyError :=
  match classify failure with
  | .notPermitted detail =>
    if kernelAnswered failure then .rejected detail else .notPermitted detail
  | other => other

inductive Batch where
  | replace (table : Table)
  | probe (rules : List NftRule)
  | removeProbe

inductive Answer where
  | done
  | failed (failure : NftRunFailure) (leaves : Option Table)

structure World where
  table : Option Table
  dropLogRefused : Bool
  answers : List Answer

def runBatch (batch : Batch) (w : World) : Except NftRunFailure Unit × World :=
  match w.answers with
  | [] => (.error (.spawn []), w)
  | .failed failure leaves :: rest => (.error failure, { w with table := leaves, answers := rest })
  | .done :: rest =>
    match batch with
    | .replace table => (.ok (), { w with table := some table, answers := rest })
    | .probe _ => (.ok (), { w with answers := rest })
    | .removeProbe => (.ok (), { w with answers := rest })

section
variable (debug : List NftRule → List UInt8)

def dropReporting (w : World) : DropReporting := if w.dropLogRefused then .silent else .logged

def apply (ruleset : NftRuleset) (w : World) : Except NftApplyError Unit × World :=
  match runBatch (.replace (renderBatchWith debug ruleset (dropReporting w))) w with
  | (.ok (), w) => (.ok (), w)
  | (.error failure, w) => (.error (classify failure), w)

def retrySilent (ruleset : NftRuleset) (reporting : DropReporting) (w : World) : Bool × World :=
  if reporting = .silent ∨ reportedDropTags ruleset.rules = [] then (false, w)
  else
    match runBatch (.replace (renderBatchWith debug ruleset .silent)) w with
    | (.error _, w) => (false, w)
    | (.ok (), w) => (true, { w with dropLogRefused := true })

end

def applyInProbe (ruleset : NftRuleset) (indices : List ℕ) (w : World) :
    Except NftApplyError Unit × World :=
  match runBatch (.probe (indices.filterMap ((ruleset.rules ++ ruleset.forward)[·]?))) w with
  | (.ok (), w) => (.ok (), w)
  | (.error failure, w) => (.error (classifyProbe failure), w)

def probeBudget : ℕ := 256

/-- What a search has left and what it found. `settled` is false once the budget ran out. -/
structure Search where
  settled : Bool
  budget : ℕ
  found : List ℕ

section
variable {ω : Type*} (check : List ℕ → ω → Except NftApplyError Unit × ω)

/-- The check may keep a state of its own, as the closure it is does. -/
def descend (candidates : List ℕ) (budget : ℕ) (found : List ℕ) (w : ω) :
    Except NftApplyError Search × ω :=
  match candidates with
  | [] => (.ok ⟨true, budget, found⟩, w)
  | first :: others =>
    match budget with
    | 0 => (.ok ⟨false, 0, found⟩, w)
    | budget + 1 =>
      match check (first :: others) w with
      | (.ok (), w) => (.ok ⟨true, budget, found⟩, w)
      | (.error (.rejected _), w) =>
        match others with
        | [] => (.ok ⟨true, budget, found ++ [first]⟩, w)
        | second :: others =>
          let all := first :: second :: others
          match descend (all.take (all.length / 2)) budget found w with
          | (.error error, w) => (.error error, w)
          | (.ok ⟨false, budget, found⟩, w) => (.ok ⟨false, budget, found⟩, w)
          | (.ok ⟨true, budget, found⟩, w) =>
            descend (all.drop (all.length / 2)) budget found w
      | (.error environment, w) => (.error environment, w)
termination_by candidates.length

def refusedRules (ruleCount : ℕ) (refusal : NftApplyError) (budget : ℕ) (w : ω) :
    Except NftApplyError (List ℕ) × ω :=
  match descend check (List.range ruleCount) budget [] w with
  | (.error error, w) => (.error error, w)
  | (.ok search, w) =>
    if search.settled = false then
      (.error (.rejected (refusal.detail ++
        "; the refused rules could not be isolated within ".toList ++ numeral 10 budget ++
        " checks".toList)), w)
    else if search.found = [] then (.error refusal, w)
    else if search.found.length = ruleCount then
      (.error (.rejected (refusal.detail ++ "; every rule is refused on its own".toList)), w)
    else (.ok (search.found.insertionSort (· ≤ ·)), w)

end

structure NftApplyOutcome where
  applied : ℕ
  skipped : List SkippedNftRule

section
variable (debug : List NftRule → List UInt8)

def applyKept (ruleset : NftRuleset) (reporting : DropReporting) (offenders : List ℕ)
    (w : World) : Except NftApplyError NftApplyOutcome × World :=
  let widening := wideningRefusals ruleset offenders
  if widening ≠ [] then (.error (.rejected (refusedBlockDetail widening)), w)
  else
    let (kept, skipped) := withoutRules ruleset offenders
    match apply debug kept w with
    | (.ok (), w) => (.ok ⟨kept.rules.length, skipped⟩, w)
    | (.error refused, w) =>
      match retrySilent debug kept reporting w with
      | (true, w) => (.ok ⟨kept.rules.length, skipped⟩, w)
      | (false, w) => (.error refused, w)

def searchAndApply (ruleset : NftRuleset) (reporting : DropReporting) (refusal : NftApplyError)
    (w : World) : Except NftApplyError NftApplyOutcome × World :=
  match refusedRules (applyInProbe ruleset) (ruleset.rules.length + ruleset.forward.length) refusal
    probeBudget w with
  | (.error error, w) => (.error error, w)
  | (.ok offenders, w) => applyKept debug ruleset reporting offenders w

def applyBestEffort (ruleset : NftRuleset) (w : World) :
    Except NftApplyError NftApplyOutcome × World :=
  let reporting := dropReporting w
  let clean : NftApplyOutcome := ⟨ruleset.rules.length, []⟩
  match runBatch (.replace (renderBatchWith debug ruleset reporting)) w with
  | (.ok (), w) => (.ok clean, w)
  | (.error failure, w) =>
    let refusal := classify failure
    if kernelAnswered failure = false then (.error refusal, w)
    else
      match retrySilent debug ruleset reporting w with
      | (true, w) => (.ok clean, w)
      | (false, w) =>
        -- the bare twin is the control: refused too, no rule is to blame
        match applyInProbe ruleset [] w with
        | (.error (.rejected _), w) => (.error refusal, w)
        | (.error environment, w) => (.error environment, w)
        | (.ok (), w) =>
          match searchAndApply debug ruleset reporting refusal w with
          | (.ok outcome, w) => (.ok outcome, w)
          | (.error error, w) => (.error error, (runBatch .removeProbe w).2)

end

end NetRuleRouter.BestEffort
