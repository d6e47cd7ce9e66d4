import MessageMachine.Main
import MessageMachine.Machine.Portrait
import MessageMachine.Proofs.Table.Refinement
import MessageMachine.Proofs.Schedule.Lines
import MessageMachine.Proofs.Machine.Access
import MessageMachine.Proofs.Schedule.Order
import MessageMachine.Proofs.Schedule.Quiet
import MessageMachine.Proofs.Schedule.Scheduler
import MessageMachine.Proofs.Schedule.Housekeeping
import MessageMachine.Proofs.Schedule.Primitives
import MessageMachine.Proofs.Schedule.Instructions
import MessageMachine.Proofs.Instruction.Encoding
import MessageMachine.Proofs.Instruction.Layout
import MessageMachine.Proofs.Instruction.Assembly
import MessageMachine.Proofs.Machine.Relocation
import MessageMachine.Proofs.Schedule.Collection
import MessageMachine.Proofs.Schedule.History
import MessageMachine.Proofs.Schedule.Creation
import MessageMachine.Proofs.Schedule.Exclusion
import MessageMachine.Proofs.Table.Refusal
import MessageMachine.Proofs.Frame.Activation
import MessageMachine.Proofs.Frame.Bounds
import MessageMachine.Proofs.Heap.Accessors
import MessageMachine.Proofs.Heap.Accounting
import MessageMachine.Proofs.Heap.Identity
import MessageMachine.Proofs.Heap.Repetition
import MessageMachine.Proofs.Semaphore.Account
import MessageMachine.Proofs.Semaphore.Delivery
import MessageMachine.Proofs.Send.Uncached
import MessageMachine.Proofs.Send.Special
import MessageMachine.Proofs.Lookup.ClassGraph
import MessageMachine.Proofs.Instruction.Acceptance
import MessageMachine.Proofs.Primitive.Integers
import MessageMachine.Proofs.Value.Word
import MessageMachine.Proofs.Heap.Packing
import MessageMachine.Proofs.Machine.Calls
import MessageMachine.Proofs.Send.Accessor
import MessageMachine.Proofs.Send.Perform
import MessageMachine.Proofs.Heap.Agreement
import MessageMachine.Proofs.Machine.Operands
import MessageMachine.Proofs.Primitive.Indexing
import MessageMachine.Proofs.Table.Failure
import MessageMachine.Proofs.Heap.Twins
import MessageMachine.Proofs.Machine.Lockstep
import MessageMachine.Proofs.Primitive.Evaluation
import MessageMachine.Proofs.Frame.Template
import MessageMachine.Proofs.Primitive.Reentry
import MessageMachine.Proofs.Heap.Contents
import MessageMachine.Proofs.Heap.Chase
import MessageMachine.Proofs.Machine.Pinning
import MessageMachine.Proofs.Schedule.Lists
import MessageMachine.Proofs.Frame.Callers
import MessageMachine.Proofs.Frame.Suspension
import MessageMachine.Proofs.Heap.Transfer
import MessageMachine.Proofs.Frame.Replies
