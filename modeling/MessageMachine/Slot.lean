/-!
# Field positions of the machine's own objects

The machine keeps its types, methods, contexts, processes, queues and tables in ordinary fielded
objects.  This module gives the position of each of their fields, and how many fields the objects
of fixed size have.
-/

namespace MessageMachine.Slot

/-! ## Types -/

abbrev supertype : Nat := 0
abbrev typeName : Nat := 1
abbrev fixedFields : Nat := 2
abbrev methodTally : Nat := 3
abbrev selectors : Nat := 4
abbrev methods : Nat := 5
abbrev format : Nat := 6
abbrev typeSize : Nat := 7

/-! ## Compiled methods -/

abbrev methodHeader : Nat := 0
abbrev methodOwner : Nat := 1
abbrev methodSelector : Nat := 2
abbrev methodCode : Nat := 3

/-- The first literal; the literals run to the end of the method. -/
abbrev methodLiterals : Nat := 4

/-! ## Contexts -/

abbrev sender : Nat := 0
abbrev ip : Nat := 1
abbrev sp : Nat := 2
abbrev contextMethod : Nat := 3
abbrev receiver : Nat := 4
abbrev home : Nat := 5
abbrev initialIp : Nat := 6
abbrev blockArguments : Nat := 7
abbrev caller : Nat := 8

/-- The first slot after the named ones.  A method context keeps its temporaries from here on and
its operand stack after them; a block context keeps only an operand stack. -/
abbrev contextTail : Nat := 9

/-! ## Processes, semaphores and queues -/

abbrev processContext : Nat := 0
abbrev processTime : Nat := 1
abbrev processSize : Nat := 2

abbrev excessSignals : Nat := 0
abbrev firstWaiting : Nat := 1
abbrev lastWaiting : Nat := 2
abbrev semaphoreSize : Nat := 3

abbrev linkValue : Nat := 0
abbrev linkNext : Nat := 1
abbrev linkSize : Nat := 2

abbrev activeProcess : Nat := 0
abbrev interruptTable : Nat := 1
abbrev firstReady : Nat := 2
abbrev lastReady : Nat := 3
abbrev processorSize : Nat := 4

abbrev timerInterrupt : Nat := 0
abbrev inputInterrupt : Nat := 1
abbrev interruptTableSize : Nat := 2

/-! ## Tables -/

abbrev dictionaryTally : Nat := 0
abbrev dictionaryKeys : Nat := 1
abbrev dictionaryValues : Nat := 2
abbrev dictionarySize : Nat := 3

abbrev symbolTally : Nat := 0
abbrev symbolKeys : Nat := 1
abbrev symbolTableSize : Nat := 2

end MessageMachine.Slot
