import MessageMachine.Value.Access

/-!
# Method headers

The first field of a compiled method is a small integer that packs how the method is executed and
the counts needed to activate it:

* bits 0 and 1: the kind;
* bits 2 to 9: how many temporaries it has, arguments included;
* bits 10 to 14: how many arguments it takes;
* bits 15 to 26: the number of its primitive, or of the field it accesses.

`encode` packs a header as it stands.  A header whose numbers fit their places (`InRange`) is read
back unchanged by `decode`.
-/

namespace MessageMachine

/-- How a method is executed once a send has selected it. -/
inductive MethodKind where
  /-- Activate a context and run the code. -/
  | bytecodes
  /-- Try the primitive first, and run the code if it declines. -/
  | primitive
  /-- Replace the receiver by one of its fields. -/
  | returnField
  /-- Pop the argument into a field; the receiver is the answer. -/
  | popAndStoreField
  deriving DecidableEq, Repr, Inhabited

namespace MethodKind

/-- The two-bit code of a kind. -/
def code : MethodKind → Nat
  | bytecodes => 0
  | primitive => 1
  | returnField => 2
  | popAndStoreField => 3

/-- The kind with a given code; only the low two bits count. -/
def ofCode (n : Nat) : MethodKind :=
  match n % 4 with
  | 0 => bytecodes
  | 1 => primitive
  | 2 => returnField
  | _ => popAndStoreField

/-- Whether methods of this kind have code to run. -/
def hasCode : MethodKind → Bool
  | bytecodes | primitive => true
  | returnField | popAndStoreField => false

/-- The name of a kind. -/
def name : MethodKind → String
  | bytecodes => "Bytecodes"
  | primitive => "Primitive"
  | returnField => "ReturnField"
  | popAndStoreField => "PopAndStoreField"

end MethodKind

/-- What the first field of a compiled method says. -/
structure MethodHeader where
  kind : MethodKind
  /-- How many temporaries an activation has, its arguments included. -/
  temporaries : UInt8
  arguments : UInt8
  /-- The primitive, or the field that an accessor reads or writes. -/
  index : UInt16
  deriving DecidableEq, Repr, Inhabited

namespace MethodHeader

/-- The header of a method that runs its code. -/
def bytecodes (arguments temporaries : UInt8) : MethodHeader :=
  ⟨.bytecodes, temporaries, arguments, 0⟩

/-- The header of a method that tries a primitive first. -/
def primitive (index : UInt16) (arguments temporaries : UInt8) : MethodHeader :=
  ⟨.primitive, temporaries, arguments, index⟩

/-- The header of a method that answers a field of its receiver. -/
def returnField (field : UInt16) : MethodHeader := ⟨.returnField, 0, 0, field⟩

/-- The header of a method that stores its argument in a field of its receiver. -/
def popAndStoreField (field : UInt16) : MethodHeader := ⟨.popAndStoreField, 1, 1, field⟩

/-- The headers whose numbers fit their places. -/
structure InRange (h : MethodHeader) : Prop where
  arguments_lt : h.arguments.toNat < 32
  index_lt : h.index.toNat < 4096

/-- The packed form.  A number too large for its place spills into the places above it. -/
def encode (h : MethodHeader) : Nat :=
  h.kind.code ||| h.temporaries.toNat <<< 2 ||| h.arguments.toNat <<< 10 ||| h.index.toNat <<< 15

/-- The header packed in an integer; bits above the 27th are ignored. -/
def decode (bits : Int) : MethodHeader where
  kind := .ofCode (bits % 4).toNat
  temporaries := .ofNat (bits / 4 % 256).toNat
  arguments := .ofNat (bits / 1024 % 32).toNat
  index := .ofNat (bits / 32768 % 4096).toNat

/-- The header as it is kept in a method. -/
def toValue (h : MethodHeader) : Value := .ofNat h.encode

/-- The header that a value stands for. -/
def ofValue (v : Value) : Except ValueFault MethodHeader := do
  return decode (← v.smallInt)

end MethodHeader

end MessageMachine
