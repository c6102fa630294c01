import LlmGuard.Code.Validators

/-! # `Scanner.hpp` -/

namespace LlmGuard

structure ScanOptions where
  prefilterEnabled : Bool
  /-- 0 means as many as the hardware runs. -/
  maxWorkers : Nat

def parallelTextThreshold : Nat := 4 * 1024

def parallelRuleThreshold : Nat := 4

/-! ## The keyword pre-filter -/

def keywordHit (lower : Bytes) (keywords : List Bytes) : Bool :=
  keywords.any fun kw => !kw.isEmpty && contains lower kw

/-- A null rule and a rule that is not eligible always stay. -/
def keepRule (lower : Bytes) : Option CompiledRule → Bool
  | none => true
  | some cr => !cr.prefilterEligible || keywordHit lower cr.prefilterKeywords

def filterByKeywords (env : Env) (text : Bytes) (rules : List (Option CompiledRule)) :
    List (Option CompiledRule) :=
  rules.filter (keepRule (toLowerUtf8 env.utf8proc text))

/-! ## One rule -/

/-- The first configured group that took part and is not empty. -/
def firstGroup (g : Submatches) (ngroups : Nat) : List Int → Option Span
  | [] => none
  | group :: rest =>
    if group < 0 || ngroups ≤ group.toNat then firstGroup g ngroups rest
    else
      match g.get group.toNat with
      | none => firstGroup g ngroups rest
      | some (start, stop) =>
        if stop ≤ start then firstGroup g ngroups rest else some (start, stop)

def sensitiveSpan (g : Submatches) (ngroups : Nat) (rule : Rule) : Option Span :=
  if rule.masking.captureGroups.isEmpty then
    if g.whole.1 < g.whole.2 then some g.whole else none
  else firstGroup g ngroups rule.masking.captureGroups

/-- A selected span that is long enough and passes the validators. -/
def acceptSpan (env : Env) (text : Bytes) (cr : CompiledRule) (span : Span) : Bool :=
  !(0 < cr.rule.minLength && span.2 - span.1 < cr.rule.minLength) &&
    passesValidators env (slice text span.1 span.2) cr.rule

/-- The `while (pos <= end)` loop of `scan_one_rule`. `prevMatchEnd` is `none` for -1. -/
def scanLoop (env : Env) (text : Bytes) (cr : CompiledRule) (re : Regex) :
    Nat → Nat → Option Nat → List ScanMatch
  | 0, _, _ => []
  | fuel + 1, pos, prevMatchEnd =>
    if text.length < pos then []
    else
      match env.re2.search re text pos with
      | none => []
      | some g =>
        let mstart := g.whole.1
        let mend := g.whole.2
        -- An empty match right at the end of the last one does not count, and the search goes on
        -- one rune later.
        let accept := !(mend == mstart && prevMatchEnd == some mstart)
        let width := if mstart < text.length then (decodeUtf8 text mstart).2 else 0
        let next :=
          if mend = mstart then (if 0 < width then mstart + width else text.length + 1) else mend
        let rest := scanLoop env text cr re fuel next (some mend)
        if !accept then rest
        else
          match sensitiveSpan g (env.re2.numberOfCapturingGroups re + 1) cr.rule with
          | none => rest
          | some span =>
            if acceptSpan env text cr span then ⟨span.1, span.2, some cr⟩ :: rest else rest

def nullRuleError : Error :=
  .runtimeError (ascii "scan_rules: rules[] contains a null CompiledRule pointer")

def nullRegexError (id : Bytes) : Error :=
  .runtimeError (ascii "scan_rules: compiled rule '" ++ id ++ ascii "' has a null regex")

def scanOneRule (env : Env) (text : Bytes) : Option CompiledRule → Except Error (List ScanMatch)
  | none => .error nullRuleError
  | some cr =>
    match cr.re with
    | none => .error (nullRegexError cr.rule.id)
    | some re =>
      if text.isEmpty then .ok []
      else .ok (scanLoop env text cr re (text.length + 2) 0 none)

/-! ## Many rules -/

def scanSerial (env : Env) (text : Bytes) : List (Option CompiledRule) → Except Error (List ScanMatch)
  | [] => .ok []
  | cr :: rules => do
    let here ← scanOneRule env text cr
    let rest ← scanSerial env text rules
    .ok (here ++ rest)

def computeWorkerCount (env : Env) (numRules maxWorkers : Nat) : Nat :=
  let hw := if maxWorkers = 0 then env.hardwareConcurrency else maxWorkers
  min numRules (if hw = 0 then 1 else hw)

/-- The rules whose index is `w` modulo the number of workers. -/
def bucket (rules : List (Option CompiledRule)) (numWorkers w : Nat) : List (Option CompiledRule) :=
  (rules.zipIdx.filter fun p => p.2 % numWorkers = w).map (·.1)

/-- What a caught worker exception becomes. -/
def workerError : Error → Error
  | .runtimeError what => .runtimeError (ascii "sensitive scan worker failed: " ++ what)
  | .outOfRange what => .runtimeError (ascii "sensitive scan worker failed: " ++ what)
  | .stuck => .stuck

/-- Every bucket runs. The first error by bucket index wins. -/
def collectBuckets : List (Except Error (List ScanMatch)) → Except Error (List ScanMatch)
  | [] => .ok []
  | .error e :: _ => .error (workerError e)
  | .ok ms :: rest =>
    match collectBuckets rest with
    | .error e => .error e
    | .ok all => .ok (ms ++ all)

def scanParallel (env : Env) (text : Bytes) (rules : List (Option CompiledRule)) (maxWorkers : Nat) :
    Except Error (List ScanMatch) :=
  let numWorkers := computeWorkerCount env rules.length maxWorkers
  if numWorkers = 0 then .ok []
  else collectBuckets ((List.range numWorkers).map fun w => scanSerial env text (bucket rules numWorkers w))

/-! ## Overlaps -/

def ScanMatch.length (m : ScanMatch) : Nat := m.stop - m.start

def ScanMatch.ruleId (m : ScanMatch) : Bytes := (m.rule.map (·.rule.id)).getD []

/-- Start ascending, longest first, then rule id. -/
def scanMatchLess (a b : ScanMatch) : Bool :=
  if a.start ≠ b.start then a.start < b.start
  else if a.length ≠ b.length then b.length < a.length
  else a.ruleId < b.ruleId

/-- Longest first, then start ascending, then rule id. -/
def preferAsPrimary (m cur : ScanMatch) : Bool :=
  if m.length ≠ cur.length then cur.length < m.length
  else if m.start ≠ cur.start then m.start < cur.start
  else m.ruleId < cur.ruleId

/-- The constituent that gives a run its rule. -/
def primaryOf (first : ScanMatch) (rest : List ScanMatch) : ScanMatch :=
  rest.foldl (fun primary m => if preferAsPrimary m primary then m else primary) first

def coalesceRun (start stop : Nat) (first : ScanMatch) (rest : List ScanMatch) : ScanMatch :=
  if rest.isEmpty then first else ⟨start, stop, (primaryOf first rest).rule⟩

/-- The sweep of `resolve_conflicts` over sorted matches. The open run is `first :: rest`, and it covers
`[first.start, runEnd)`. -/
def sweep (first : ScanMatch) (rest : List ScanMatch) (runEnd : Nat) : List ScanMatch → List ScanMatch
  | [] => [coalesceRun first.start runEnd first rest]
  | m :: ms =>
    if m.start < runEnd then
      sweep first (rest ++ [m]) (if runEnd < m.stop then m.stop else runEnd) ms
    else coalesceRun first.start runEnd first rest :: sweep m [] m.stop ms

def resolveConflicts (env : Env) (ms : List ScanMatch) : List ScanMatch :=
  if ms.length ≤ 1 then ms
  else
    match env.sortMatches ms with
    | [] => []
    | m :: rest => sweep m [] m.stop rest

/-! ## `scan_rules` -/

/-- The candidates before overlaps are resolved. -/
def scanCandidates (env : Env) (text : Bytes) (rules : List (Option CompiledRule)) (maxWorkers : Nat) :
    Except Error (List ScanMatch) :=
  if text.length < parallelTextThreshold || rules.length ≤ parallelRuleThreshold then
    scanSerial env text rules
  else scanParallel env text rules maxWorkers

def scanRules (env : Env) (text : Bytes) (rules : List (Option CompiledRule)) (opts : ScanOptions) :
    Except Error (List ScanMatch) :=
  if rules.isEmpty then .ok []
  else
    let active := if opts.prefilterEnabled then filterByKeywords env text rules else rules
    if active.isEmpty then .ok []
    else do
      let candidates ← scanCandidates env text active opts.maxWorkers
      .ok (resolveConflicts env candidates)

end LlmGuard
