import MessageMachine.Demo
import MessageMachine.Text.Decimal

/-!
# The command line

Runs a demonstration program on a new machine and reports its answer.

Options with a value are written `--name value` or `--name=value`; a value of its own that starts
with a dash is refused.  No option may be given twice, and there are no other arguments.  Refused
arguments end with code 2, a failed run with code 1.
-/

namespace MessageMachine.CommandLine

/-! ## Options -/

/-- What the arguments ask for. -/
structure Options where
  demo : Option Demo := none
  n : Option Int := none
  segmentWords : Option Nat := none
  maxSegments : Option Nat := none
  gcThreshold : Option Nat := none
  stats : Bool := false
  verbose : Bool := false
  deriving DecidableEq, Repr, Inhabited

/-- Why no program is run. -/
inductive Stop where
  /-- The arguments are refused. -/
  | usage
  | help
  | version
  deriving DecidableEq, Repr, Inhabited

/-- The demonstration with a given name. -/
def demo? : String → Option Demo
  | "arith" => some .arith
  | "fib" => some .fib
  | "processes" => some .processes
  | "gc" => some .gc
  | _ => none

/-- Fills an option that is still open with the value read for it. -/
def fill (old new : Option α) (set : Option α → Options) : Except Stop Options :=
  match old, new with
  | none, some v => .ok (set (some v))
  | _, _ => .error .usage

/-- Turns on a switch that is still off. -/
def turnOn (old : Bool) (set : Options) : Except Stop Options :=
  if old then .error .usage else .ok set

/-- Sets the option of the given name. -/
def Options.withValue (o : Options) (name value : String) : Except Stop Options :=
  match name with
  | "demo" => fill o.demo (demo? value) ({ o with demo := · })
  | "n" => fill o.n (Decimal.int? value) ({ o with n := · })
  | "segment-words" => fill o.segmentWords (Decimal.nat? value) ({ o with segmentWords := · })
  | "max-segments" => fill o.maxSegments (Decimal.nat? value) ({ o with maxSegments := · })
  | "gc-threshold" => fill o.gcThreshold (Decimal.nat? value) ({ o with gcThreshold := · })
  | _ => .error .usage

/-- Turns on the switch of the given name. -/
def Options.withSwitch (o : Options) (name : String) : Except Stop Options :=
  match name with
  | "stats" => turnOn o.stats { o with stats := true }
  | "verbose" => turnOn o.verbose { o with verbose := true }
  | "help" => .error .help
  | "version" => .error .version
  | _ => .error .usage

/-- Turns on the switch of the given letter. -/
def Options.withLetter (o : Options) (letter : Char) : Except Stop Options :=
  match letter with
  | 'v' => o.withSwitch "verbose"
  | 'h' => .error .help
  | 'V' => .error .version
  | _ => .error .usage

/-- Whether the option of the given name has a value. -/
def takesValue (name : String) : Bool :=
  ["demo", "n", "segment-words", "max-segments", "gc-threshold"].contains name

/-- Reads the arguments from left to right; the first one refused decides. -/
def parseFrom (o : Options) : List String → Except Stop Options
  | [] => .ok o
  | argument :: rest =>
    match argument.toList with
    | ['-', '-'] => if rest.isEmpty then .ok o else .error .usage
    | '-' :: '-' :: text => do
      let name := String.ofList (text.takeWhile (· ≠ '='))
      match text.dropWhile (· ≠ '=') with
      | _ :: value => parseFrom (← o.withValue name (String.ofList value)) rest
      | [] =>
        if takesValue name then
          match rest with
          | value :: rest =>
            if value.startsWith "-" then throw .usage
            parseFrom (← o.withValue name value) rest
          | [] => throw .usage
        else parseFrom (← o.withSwitch name) rest
    | '-' :: letter :: letters => do
      parseFrom (← (letter :: letters).foldlM Options.withLetter o) rest
    | _ => .error .usage

/-- Reads the arguments. -/
def parse (arguments : List String) : Except Stop Options := parseFrom {} arguments

/-- The machine settings that the options ask for. -/
def Options.settings (o : Options) : Machine.Settings :=
  let standard : Heap.Settings := {}
  { heap := { standard with
      segmentWords := o.segmentWords.getD standard.segmentWords
      maxEphemeralSegments := o.maxSegments.getD standard.maxEphemeralSegments
      gcThresholdSegments := o.gcThreshold.getD standard.gcThresholdSegments } }

/-! ## Reports -/

/-- What a run of the program leaves: its exit code and the lines it writes. -/
structure Outcome where
  code : Nat
  /-- The lines of the answer. -/
  answer : List String := []
  /-- The lines of statistics, written after the answer and the time the run took. -/
  statistics : List String := []
  errors : List String := []
  deriving DecidableEq, Repr, Inhabited

/-- The answer of a demonstration as text. -/
def answerText (v : Value) : String :=
  match v.toInt? with
  | some n => toString n
  | none => v.text

/-- The counters of a machine as lines of text. -/
def statistics (m : Machine) : List String :=
  let stats := m.heap.stats
  let counter (name : String) (n : Nat) := "    " ++ name ++ ": " ++ toString n ++ ","
  ["instructions:  " ++ toString m.instructions,
    "switches:      " ++ toString m.schedule.switches,
    "cache:         " ++ toString m.cache.hits ++ " hits, " ++ toString m.cache.misses ++
      " misses",
    "heap:          HeapStats \x7b",
    counter "collections" stats.collections,
    counter "root_segments" stats.rootSegments,
    counter "root_words" stats.rootWords,
    counter "ephemeral_segments" stats.ephemeralSegments,
    counter "ephemeral_words" stats.ephemeralWords,
    counter "ephemeral_objects" stats.ephemeralObjects,
    counter "threshold_segments" stats.thresholdSegments,
    counter "epoch" stats.epoch,
    "\x7d"]

/-- The size of a demonstration that is not told otherwise. -/
abbrev standardSize : Int := 20

/-- How many instructions a run may take. -/
abbrev budget : Nat := 1000000000000000

/-- Runs the program that the options ask for. -/
def Options.run (o : Options) : Outcome :=
  match Machine.create o.settings with
  | .error fault => { code := 1, errors := ["Error creating interpreter: " ++ fault.message] }
  | .ok m =>
    let demo := o.demo.getD .arith
    match demo.run budget (o.n.getD standardSize) m with
    | .error fault _ =>
      { code := 1, errors := ["Error running " ++ demo.name ++ ": " ++ fault.message] }
    | .ok v m =>
      { code := 0, answer := [answerText v], statistics := if o.stats then statistics m else [] }

/-- Runs the program with the given arguments. -/
def run (arguments : List String) : Outcome :=
  match parse arguments with
  | .ok options => options.run
  | .error .usage => { code := 2 }
  | .error .help => { code := 0 }
  | .error .version => { code := 0, answer := ["vm 0.1.0"] }

end MessageMachine.CommandLine
