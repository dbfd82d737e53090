import NetRuleRouter.FoldedSets

/-!
# The table a batch leaves

A ruleset is rendered into one transaction that replaces our table whole. The
output chain opens with a fast path: a packet of a flow this ruleset accepted
leaves at once. Accepts with no condition on the link tag their flow for it,
and so does the end of the chain.
-/

set_option autoImplicit false

namespace NetRuleRouter.NftBatch
open TextOps NftMerge
open FoldedSets (insert_between)

inductive DropReporting where
  | logged
  | silent
  deriving DecidableEq, Repr

inductive Statement where
  | condition (m : NftMatch)
  | ctStateEstablished
  | ctMarkIs (generation : UInt32)
  | setCtMark (generation : UInt32)
  | accept
  | drop
  | jump (tag : DropTag)
  deriving DecidableEq

structure RuleObject where
  expr : List Statement
  comment : Text
  deriving DecidableEq

structure Table where
  name : Text
  chain : Text
  dropChains : List DropTag
  output : List RuleObject
  forward : List RuleObject
  deriving DecidableEq

def reportedDropTags (rules : List NftRule) : List DropTag :=
  rules.foldl (fun tags rule =>
    match rule.verdict with
    | .dropReported tag => if tag ∈ tags then tags else tags ++ [tag]
    | _ => tags) []

def flowMarkMask : UInt32 := 0xffff0000

/-- FNV-1a over the rules as `Debug` prints them, folded into the high half. -/
def flowGeneration (debug : List NftRule → List UInt8) (ruleset : NftRuleset) : UInt32 :=
  let hash := (debug ruleset.rules ++ debug ruleset.forward).foldl
    (fun h b => (h ^^^ b.toUInt32) * 0x01000193) 0x811c9dc5
  let high := (hash ^^^ (hash <<< 16)) &&& flowMarkMask
  if high = 0 then (1 : UInt32) <<< 16 else high

def printedRule (conditions verdict comment : String) : String :=
  "NftRule \x7b matches: [" ++ conditions ++ "], verdict: " ++ verdict ++ ", comment: \"" ++
    comment ++ "\" \x7d"

/-- `Debug` of a chain that is empty or holds these rules behind the own-traffic rule. -/
def printedChain (printed : List String) (rules : List NftRule) : List UInt8 :=
  (if rules = [] then "[]" else "[" ++ ", ".intercalate
    (printedRule "Mark(1314017792)" "Accept" "own-traffic" :: printed) ++ "]").toUTF8.toList

/-- Whether a condition can differ between the packets of one flow. -/
def onLink : NftMatch → Bool
  | .outInterface _ => true
  | .routeIpsec => true
  | _ => false

def marksItsFlow (rule : NftRule) : Bool :=
  rule.verdict == .accept && !rule.conditions.any onLink

def renderVerdict (reporting : DropReporting) : NftVerdict → Statement
  | .accept => .accept
  | .drop => .drop
  | .dropReported tag => if reporting = .silent then .drop else .jump tag

def renderRule (rule : NftRule) (reporting : DropReporting) : List Statement :=
  rule.conditions.map .condition ++ [renderVerdict reporting rule.verdict]

def ruleObject (rule : NftRule) (reporting : DropReporting) : RuleObject :=
  ⟨renderRule rule reporting, rule.comment⟩

def fastPath (generation : UInt32) : RuleObject :=
  ⟨[.ctStateEstablished, .ctMarkIs generation, .accept], "established-fast-path".toList⟩

/-- A rule that marks does so right before it accepts. -/
def markingObject (generation : UInt32) (reporting : DropReporting) (rule : NftRule) :
    RuleObject :=
  let object := ruleObject rule reporting
  if marksItsFlow rule then
    { object with expr := object.expr.insertIdx (object.expr.length - 1) (.setCtMark generation) }
  else object

def acceptedFlowMark (generation : UInt32) : RuleObject :=
  ⟨[.setCtMark generation], "accepted-flow-mark".toList⟩

def renderOutput (debug : List NftRule → List UInt8) (ruleset : NftRuleset)
    (reporting : DropReporting) : List RuleObject :=
  if ruleset.rules = [] then []
  else
    let generation := flowGeneration debug ruleset
    fastPath generation :: ruleset.rules.map (markingObject generation reporting) ++
      [acceptedFlowMark generation]

def renderBatchWith (debug : List NftRule → List UInt8) (ruleset : NftRuleset)
    (reporting : DropReporting) : Table where
  name := ruleset.table
  chain := ruleset.chain
  dropChains := if reporting = .silent then [] else reportedDropTags ruleset.rules
  output := renderOutput debug ruleset reporting
  forward := ruleset.forward.map (ruleObject · .silent)

/-- The statements of one rule on a packet: the mark they leave, and a verdict if they reach
one. -/
def runStatements (established : Bool) (p : Packet) :
    UInt32 → List Statement → UInt32 × Option NftVerdict
  | mark, [] => (mark, none)
  | mark, .condition m :: rest =>
    if m.holds p then runStatements established p mark rest else (mark, none)
  | mark, .ctStateEstablished :: rest =>
    if established then runStatements established p mark rest else (mark, none)
  | mark, .ctMarkIs generation :: rest =>
    if mark &&& flowMarkMask = generation then runStatements established p mark rest
    else (mark, none)
  | mark, .setCtMark generation :: rest =>
    runStatements established p ((mark &&& ~~~flowMarkMask) ||| generation) rest
  | mark, .accept :: _ => (mark, some .accept)
  | mark, .drop :: _ => (mark, some .drop)
  | mark, .jump tag :: _ => (mark, some (.dropReported tag))

/-- A chain on a packet; what no rule decides is accepted. -/
def runChain (established : Bool) (p : Packet) (mark : UInt32) :
    List RuleObject → UInt32 × NftVerdict
  | [] => (mark, .accept)
  | r :: rest =>
    match runStatements established p mark r.expr with
    | (mark', some verdict) => (mark', verdict)
    | (mark', none) => runChain established p mark' rest

def shown (reporting : DropReporting) : NftVerdict → NftVerdict
  | .dropReported tag => if reporting = .silent then .drop else .dropReported tag
  | verdict => verdict

def setMark (generation mark : UInt32) : UInt32 := (mark &&& ~~~flowMarkMask) ||| generation

theorem generation_masked (debug : List NftRule → List UInt8) (ruleset : NftRuleset) :
    flowGeneration debug ruleset &&& flowMarkMask = flowGeneration debug ruleset := by
  unfold flowGeneration
  dsimp only
  split
  · rfl
  · rw [UInt32.and_assoc, UInt32.and_self]

theorem generation_ne_zero (debug : List NftRule → List UInt8) (ruleset : NftRuleset) :
    flowGeneration debug ruleset ≠ 0 := by
  unfold flowGeneration
  dsimp only
  split
  · decide
  · assumption

theorem set_mark_masked {generation : UInt32} (h : generation &&& flowMarkMask = generation)
    (mark : UInt32) : setMark generation mark &&& flowMarkMask = generation := by
  have hlow : ~~~flowMarkMask &&& flowMarkMask = 0 := by decide
  have hsplit : (mark &&& ~~~flowMarkMask ||| generation) &&& flowMarkMask =
      mark &&& (~~~flowMarkMask &&& flowMarkMask) ||| generation &&& flowMarkMask := by
    rw [← UInt32.toBitVec_inj]
    simp only [UInt32.toBitVec_and, UInt32.toBitVec_or, BitVec.and_or_distrib_right,
      BitVec.and_assoc]
  rw [setMark, hsplit, hlow, UInt32.and_zero, UInt32.zero_or, h]

section
variable (established : Bool) (p : Packet) (mark : UInt32)

theorem run_conditions (conditions : List NftMatch) (rest : List Statement) :
    runStatements established p mark (conditions.map .condition ++ rest) =
      if conditions.all (·.holds p) then runStatements established p mark rest
      else (mark, none) := by
  induction conditions with
  | nil => rfl
  | cons m conditions ih =>
    rw [List.map_cons, List.cons_append, runStatements, ih, List.all_cons]
    cases m.holds p <;> rfl

theorem run_verdict (reporting : DropReporting) (verdict : NftVerdict) :
    runStatements established p mark [renderVerdict reporting verdict] =
      (mark, some (shown reporting verdict)) := by
  cases verdict with
  | accept | drop => rfl
  | dropReported tag => cases reporting <;> rfl

theorem run_marking (generation : UInt32) (reporting : DropReporting) (rule : NftRule) :
    runStatements established p mark (markingObject generation reporting rule).expr =
      if rule.applies p then
        (if marksItsFlow rule then setMark generation mark else mark,
          some (shown reporting rule.verdict))
      else (mark, none) := by
  unfold markingObject
  dsimp only
  split
  · have hlength : (renderRule rule reporting).length - 1 =
        (rule.conditions.map Statement.condition).length := by simp [renderRule]
    rw [ruleObject, hlength, renderRule, insert_between, run_conditions, runStatements, run_verdict]
    rfl
  · rw [ruleObject, renderRule, run_conditions, run_verdict]
    rfl

theorem run_rules (generation : UInt32) (reporting : DropReporting) (rules : List NftRule)
    (rest : List RuleObject) :
    runChain established p mark (rules.map (markingObject generation reporting) ++ rest) =
      match rules.find? (·.applies p) with
      | some rule => (if marksItsFlow rule then setMark generation mark else mark,
          shown reporting rule.verdict)
      | none => runChain established p mark rest := by
  induction rules with
  | nil => rfl
  | cons rule rules ih =>
    rw [List.map_cons, List.cons_append, runChain, run_marking, List.find?_cons]
    cases rule.applies p with
    | true => rfl
    | false => exact ih

theorem run_output (debug : List NftRule → List UInt8) {ruleset : NftRuleset}
    (hrules : ruleset.rules ≠ []) (reporting : DropReporting) :
    runChain established p mark (renderOutput debug ruleset reporting) =
      if established = true ∧ mark &&& flowMarkMask = flowGeneration debug ruleset then
        (mark, .accept)
      else
        match ruleset.rules.find? (·.applies p) with
        | some rule => (if marksItsFlow rule then setMark (flowGeneration debug ruleset) mark
            else mark, shown reporting rule.verdict)
        | none => (setMark (flowGeneration debug ruleset) mark, .accept) := by
  rw [renderOutput, if_neg hrules]
  dsimp only
  rw [List.cons_append, runChain, fastPath]
  have hfast : runStatements established p mark
      [.ctStateEstablished, .ctMarkIs (flowGeneration debug ruleset), .accept] =
        if established = true ∧ mark &&& flowMarkMask = flowGeneration debug ruleset then
          (mark, some .accept) else (mark, none) := by
    simp only [runStatements]
    cases established <;> simp
  rw [hfast]
  by_cases hmarked : established = true ∧ mark &&& flowMarkMask = flowGeneration debug ruleset
  · rw [if_pos hmarked, if_pos hmarked]
  · rw [if_neg hmarked, if_neg hmarked]
    exact run_rules ..

end

end NetRuleRouter.NftBatch
