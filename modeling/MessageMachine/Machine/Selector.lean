import MessageMachine.Machine.Primitive

/-!
# Special selectors

Sends of frequent selectors name the selector by its place in a table instead of by a literal.  An
entry with a primitive tries that before any lookup; an entry without one always does a full send,
so that types can override it.
-/

namespace MessageMachine

/-- A selector with a place in the table. -/
structure SpecialSelector where
  name : String
  arity : Nat
  primitive : Option Primitive
  deriving DecidableEq, Repr, Inhabited

namespace SpecialSelector

/-- A selector that tries a primitive, with as many arguments as that takes. -/
def trying (name : String) (primitive : Primitive) : SpecialSelector :=
  ⟨name, primitive.arity, some primitive⟩

/-- A selector that is always sent. -/
def sending (name : String) (arity : Nat) : SpecialSelector := ⟨name, arity, none⟩

/-- The table of special selectors. -/
def table : Array SpecialSelector :=
  #[trying "+" .intAdd,
    trying "-" .intSub,
    trying "<" .intLess,
    trying ">" .intGreater,
    trying "<=" .intLessEqual,
    trying ">=" .intGreaterEqual,
    trying "=" .intEqual,
    trying "~=" .intNotEqual,
    trying "*" .intMul,
    trying "//" .intDiv,
    trying "\\\\" .intMod,
    trying "bitAnd:" .intBitAnd,
    trying "bitOr:" .intBitOr,
    trying "bitShift:" .intBitShift,
    trying "==" .identical,
    trying "class" .classOf,
    trying "basicNew" .basicNew,
    trying "basicNew:" .basicNewSized,
    trying "value" .blockValue,
    trying "value:" .blockValue1,
    trying "value:value:" .blockValue2,
    trying "value:value:value:" .blockValue3,
    trying "perform:" .perform,
    trying "perform:with:" .performWith,
    sending "at:" 1,
    sending "at:put:" 2,
    sending "size" 0]

/-- The place of a selector in the table. -/
def place? (name : String) : Option Nat := table.findIdx? (·.name == name)

end SpecialSelector

end MessageMachine
