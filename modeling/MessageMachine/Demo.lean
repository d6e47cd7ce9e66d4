import MessageMachine.Machine.Kernel

/-!
# Demonstration programs

Small programs that show the machine at work: an expression, a recursive method, two processes that
share a semaphore, and a loop that allocates.
-/

namespace MessageMachine

/-- The demonstration programs. -/
inductive Demo where
  /-- `(3 + 4) * 6`. -/
  | arith
  /-- The recursive Fibonacci method of integers. -/
  | fib
  /-- A producer and a consumer with a semaphore between them. -/
  | processes
  /-- A loop that keeps only the last of many arrays. -/
  | gc
  deriving DecidableEq, Repr, Inhabited

namespace Demo

/-- The name of a demonstration, as it is told in messages. -/
def name : Demo → String
  | arith => "Arith"
  | fib => "Fib"
  | processes => "Processes"
  | gc => "Gc"

/-- Sends the special selector `name` with one argument. -/
def binary (name : String) : Directive :=
  .specialSend (.ofNat ((SpecialSelector.place? name).getD 0)) 1

/-- `(3 + 4) * 6`. -/
def arithMethod : MethodSpec where
  selector := "doit"
  header := .bytecodes 0 0
  literals := [.int 3, .int 4, .int 6]
  code := assemble
    [.pushLiteral 0, .pushLiteral 1, binary "+", .pushLiteral 2, binary "*", .ret .topToSender]

/-- A number below 2 answers itself, any other the sum of the numbers for its two predecessors. -/
def fibMethod : MethodSpec where
  selector := "fib"
  header := .bytecodes 0 0
  literals := [.symbol "fib"]
  code := assemble
    [.pushSpecial .receiver, .pushSpecial .two, binary "<", .jumpIfFalse "recurse",
      .pushSpecial .receiver, .ret .topToSender,
      .bind "recurse",
      .pushSpecial .receiver, .pushSpecial .one, binary "-", .send 0 0,
      .pushSpecial .receiver, .pushSpecial .two, binary "-", .send 0 0,
      binary "+", .ret .topToSender]

/-- A forked block adds `1, …, n` to a total and signals after each; the method waits `n` times and
answers the total.  The temporaries are `n`, the semaphore, the total and two counters. -/
def producerConsumerMethod : MethodSpec where
  selector := "producerConsumer:"
  header := .bytecodes 1 5
  literals := [.symbol "Semaphore", .symbol "new", .symbol "fork", .symbol "signal",
    .symbol "wait"]
  code := assemble
    [.pushGlobal 0, .send 1 0, .popStoreTemporary 1,
      .pushSpecial .zero, .popStoreTemporary 2,
      .block 0 "producer",
      .pushSpecial .one, .popStoreTemporary 3,
      .mark "produce",
      .pushTemporary 3, .pushTemporary 0, binary "<=", .jumpIfFalse "produced",
      .pushTemporary 2, .pushTemporary 3, binary "+", .popStoreTemporary 2,
      .pushTemporary 1, .send 3 0, .pop,
      .pushTemporary 3, .pushSpecial .one, binary "+", .popStoreTemporary 3,
      .jumpBack "produce",
      .bind "produced",
      .pushSpecial .nil, .ret .topToCaller,
      .endBlock "producer",
      .send 2 0, .pop,
      .pushSpecial .zero, .popStoreTemporary 4,
      .mark "consume",
      .pushTemporary 4, .pushTemporary 0, binary "<", .jumpIfFalse "consumed",
      .pushTemporary 1, .send 4 0, .pop,
      .pushTemporary 4, .pushSpecial .one, binary "+", .popStoreTemporary 4,
      .jumpBack "consume",
      .bind "consumed",
      .pushTemporary 2, .ret .topToSender]

/-- Makes `n` arrays of a hundred elements, keeps the last, and answers `n`.  The temporaries are
`n`, a counter and the array kept. -/
def churnMethod : MethodSpec where
  selector := "churn:"
  header := .bytecodes 1 3
  literals := [.symbol "Array", .int 100]
  code := assemble
    [.pushSpecial .zero, .popStoreTemporary 1,
      .mark "top",
      .pushTemporary 1, .pushTemporary 0, binary "<", .jumpIfFalse "done",
      .pushGlobal 0, .pushLiteral 1, binary "basicNew:", .popStoreTemporary 2,
      .pushTemporary 1, .pushSpecial .one, binary "+", .popStoreTemporary 1,
      .jumpBack "top",
      .bind "done",
      .pushTemporary 1, .ret .topToSender]

/-- Runs a demonstration of size `n`. -/
def run (demo : Demo) (budget : Nat) (n : Int) : MachineM Value := do
  match demo with
  | arith =>
    let method ← Machine.compileMethod arithMethod
    Machine.runMethod budget method (← Machine.landmark .nil) []
  | fib =>
    let _ ← Machine.defineMethod (← Machine.landmark .smallInteger) fibMethod
    Machine.sendMessage budget (← Value.ofInt n) "fib" []
  | processes =>
    let _ ← Machine.defineMethod (← Machine.landmark .object) producerConsumerMethod
    let nil ← Machine.landmark .nil
    Machine.sendMessage budget nil "producerConsumer:" [← Value.ofInt n]
  | gc =>
    let _ ← Machine.defineMethod (← Machine.landmark .object) churnMethod
    let nil ← Machine.landmark .nil
    Machine.sendMessage budget nil "churn:" [← Value.ofInt n]

end Demo

end MessageMachine
