import Flowgraph.Report
import Flowgraph.Text.LowerCase
import Flowgraph.Text.Numeral
/-!
# Settings

The six settings of the analyses hold whatever values they were given. `Settings.limits` checks them and gives the
checked ones their types; the first fault counts. Settings can be read from a mapping whose values are texts,
which are then taken for what the setting needs.
-/

namespace Flowgraph

/-- The settings as given. -/
structure Settings where
  maxPaths : Value := .int 10000
  repairCycles : Value := .bool true
  solverBackend : Value := .text "internal"
  solverTimeout : Value := .int 30000
  maxConditions : Value := .int 4096
  verbose : Value := .int 0

namespace Settings

/-- What the text of a setting is taken for. -/
inductive Form where
  | truth
  | number
  | word
  deriving DecidableEq, Repr

/-- The keys of the settings, with the form of each. -/
def keys : List (String × Form) :=
  [("max_paths", .number), ("repair_cycles", .truth), ("solver_backend", .word),
   ("solver_timeout_ms", .number), ("max_conditions", .number), ("verbose", .number)]

def entries (s : Settings) : List (String × Value) :=
  [("max_paths", s.maxPaths), ("repair_cycles", s.repairCycles), ("solver_backend", s.solverBackend),
   ("solver_timeout_ms", s.solverTimeout), ("max_conditions", s.maxConditions), ("verbose", s.verbose)]

/-- Gives the setting of a key a value. Another key changes nothing. -/
def set (s : Settings) (key : String) (v : Value) : Settings :=
  if key = "max_paths" then { s with maxPaths := v }
  else if key = "repair_cycles" then { s with repairCycles := v }
  else if key = "solver_backend" then { s with solverBackend := v }
  else if key = "solver_timeout_ms" then { s with solverTimeout := v }
  else if key = "max_conditions" then { s with maxConditions := v }
  else if key = "verbose" then { s with verbose := v }
  else s

/-! ## Checking -/

/-- The settings that the analyses go by, checked. -/
structure Limits where
  maxPaths : Nat
  maxConditions : Nat
  solverTimeout : Nat
  engine : Engine
  repairCycles : Bool

/-- An integer above zero. -/
def positive (field : String) (v : Value) : Except Settings.Fault Nat :=
  match v with
  | .int n => if 0 < n then .ok n.toNat else .error (.notPositive field v)
  | _ => .error (.notPositive field v)

/-- A number that is not below zero. -/
def checkVerbosity (v : Value) : Except Settings.Fault Unit :=
  match v with
  | .int n => if n < 0 then .error (.negativeVerbosity v) else .ok ()
  | .real bits =>
    if (Decimal.Binary.ofBits bits).isNegative then .error (.negativeVerbosity v) else .ok ()
  | .bool _ => .ok ()
  | _ => .error (.unordered "<" v.typeName "int")

def limits (s : Settings) : Except Settings.Fault Limits := do
  let maxPaths ← positive "max_paths" s.maxPaths
  let maxConditions ← positive "max_conditions" s.maxConditions
  let solverTimeout ← positive "solver_timeout_ms" s.solverTimeout
  match Engine.ofValue? s.solverBackend with
  | none => throw (.unknownEngine s.solverBackend)
  | some engine =>
    checkVerbosity s.verbose
    return ⟨maxPaths, maxConditions, solverTimeout, engine, s.repairCycles.truthy⟩

/-- The settings, if nothing is wrong with them. -/
def validate (s : Settings) : Except Settings.Fault Settings := s.limits.map fun _ => s

/-! ## Reading -/

def trueWords : List String := ["1", "true", "yes", "on"]

def falseWords : List String := ["0", "false", "no", "off"]

/-- A text taken for what a setting needs. -/
def ofText (key : String) (form : Form) (raw : String) : Except Settings.Fault Value :=
  let text := Text.trim raw
  match form with
  | .truth =>
    let lowered := Text.lower text
    if trueWords.contains lowered then .ok (.bool true)
    else if falseWords.contains lowered then .ok (.bool false)
    else .error (.notBoolean key raw)
  | .number =>
    match Text.integer? (text.toList.filter (· != '_')) with
    | some n => .ok (.int n)
    | none => .error (.notInteger key raw)
  | .word => .ok (.text text)

/-- The value of a key, texts being taken for what the setting needs. -/
def coerce (key : String) (v : Value) : Except Settings.Fault Value :=
  match v, keys.lookup key with
  | .text raw, some form => ofText key form raw
  | _, _ => .ok v

/-- The keys of a mapping that name no setting. -/
def strangers (data : List (String × Value)) : List String :=
  (data.map Prod.fst).filter fun k => !(keys.map Prod.fst).contains k

/-- Settings from values that are taken as they are. -/
def ofValues (data : List (String × Value)) : Except Settings.Fault Settings :=
  match strangers data with
  | key :: _ => .error (.unexpectedKey key)
  | [] => .ok (data.foldl (fun s (k, v) => s.set k v) {})

/-- Settings from a mapping whose values may be texts. -/
def ofMapping (data : List (String × Value)) : Except Settings.Fault Settings :=
  match strangers data with
  | [] => do
    let values ← data.mapM fun (k, v) => do return (k, ← coerce k v)
    (values.foldl (fun s (k, v) => s.set k v) ({} : Settings)).validate
  | unknown => .error (.unknownKeys (unknown.mergeSort fun a b => !(b < a)))

/-! ## Verbosity -/

/-- How a verbosity compares: whether it is one, and whether it is two or more. -/
def verbosityLevel (isOne atLeastTwo : Bool) : Level :=
  if isOne then .info else if atLeastTwo then .debug else .warning

/-- The least level of records that a verbosity lets through. It must be a number. -/
def levelOf (v : Value) : Except Settings.Fault Level :=
  match v with
  | .int n => .ok (verbosityLevel (n == 1) (2 ≤ n))
  | .bool b => .ok (verbosityLevel b false)
  | .real bits =>
    let x := Decimal.Binary.ofBits bits
    .ok (verbosityLevel (x.compareNat 1 == some .eq) (x.compareNat 2 == some .gt || x.compareNat 2 == some .eq))
  | _ => .error (.unordered ">=" v.typeName "int")

/-- The least level of records that settings let through. -/
def logLevel (s : Settings) : Except Settings.Fault Level := do
  let s ← s.validate
  levelOf s.verbose

end Settings

end Flowgraph
