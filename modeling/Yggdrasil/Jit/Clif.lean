import Yggdrasil.Term.Word

/-!
# The intermediate representation of the compiler

Functions of the code generator's representation, as far as the compiler uses it. A
function is the list of its instructions in the order they were inserted, with a label
where a block begins. Registers are variables, which the code generator turns into
values itself.
-/

namespace Yggdrasil

namespace Jit

/-- The runtime helpers that generated code calls. -/
inductive Helper where
  | selfPid | send | recv | spawn | safepoint | print | eq | makeTuple | getElem | cons | head
  | tail | portOpen | portSubmit | callExt | exitAtom | trapBadarg | binConst | binFromList
  | binToList | binSize | bufToBin | binToBuf | mapNew | mapGet | mapPut | isBinary | binCat
  | listCat | binPart | tailCallExt | tailCallLocal | portSubmit2 | bufWrite | sleepMs | bufNew
  | bufRead | ticks | resumeTail | binAt
  deriving DecidableEq, Repr

/-- `helper_has_ret`. -/
def Helper.hasRet : Helper → Bool
  | .safepoint | .print | .exitAtom | .trapBadarg | .tailCallExt | .tailCallLocal
  | .sleepMs => false
  | _ => true

/-- A value of the representation, in the order of definition. -/
abbrev Value := ℕ

/-- A block. -/
inductive Block where
  /-- The entry of the function. -/
  | entry
  /-- Where failed checks lead. -/
  | trap
  /-- The block of the instruction at a position. -/
  | leader (pos : ℕ)
  /-- A block made while an instruction is translated. -/
  | fresh (n : ℕ)
  deriving DecidableEq, Repr

/-- Comparisons. -/
inductive IntCC where
  | equal | notEqual | signedLessThan | unsignedLessThanOrEqual
  deriving DecidableEq, Repr

/-- Operations on one value. -/
inductive Unary where
  | bandImm (w : Word)
  | borImm (w : Word)
  | ishlImm (n : ℕ)
  | sshrImm (n : ℕ)
  | icmpImm (cc : IntCC) (w : Word)
  | bnot
  | uextend
  deriving DecidableEq, Repr

/-- Operations on two values. -/
inductive Binary where
  | iadd | isub | imul | band | bor | bxor | ishl | sshr
  | icmp (cc : IntCC)
  deriving DecidableEq, Repr

/-- The entry point of a published function: an instance in the order of publication, and
a function of it. -/
structure CodeAddr where
  /-- The instance. -/
  inst : ℕ
  /-- The function. -/
  fn : ℕ
  deriving DecidableEq, Repr

/-- What a call names. -/
inductive Callee where
  | helper (h : Helper)
  | sibling (fn : UInt32)
  | ext (addr : CodeAddr)
  deriving DecidableEq, Repr

/-- An instruction, or the label of a block. -/
inductive Item where
  /-- A block begins. -/
  | label (b : Block)
  /-- A constant. -/
  | iconst (d : Value) (w : Word)
  /-- The address of a byte of the function's bytecode. -/
  | codeAddr (d : Value) (pos : ℕ)
  /-- The token of an instance. -/
  | token (d : Value) (inst : ℕ)
  /-- An operation on one value. -/
  | unary (d : Value) (o : Unary) (a : Value)
  /-- An operation on two values. -/
  | binary (d : Value) (o : Binary) (a b : Value)
  /-- Read a variable. -/
  | useVar (d : Value) (r : ℕ)
  /-- Write a variable. -/
  | defVar (r : ℕ) (v : Value)
  /-- Write a word of a stack slot. -/
  | stackStore (v : Value) (slot i : ℕ)
  /-- The address of a stack slot. -/
  | stackAddr (d : Value) (slot : ℕ)
  /-- A call, with its result if it has one. -/
  | call (d : Option Value) (callee : Callee) (args : List Value)
  /-- Go to a block. -/
  | jump (b : Block)
  /-- Go to one of two blocks. -/
  | brif (c : Value) (b₁ b₂ : Block)
  /-- Return a value. -/
  | ret (v : Value)
  /-- Never reached. -/
  | trap
  deriving DecidableEq, Repr

/-- A direct-call target: a published function of a sealed instance. -/
structure ExtTarget where
  /-- Its entry point. -/
  addr : CodeAddr
  /-- The instance, for `resumeTail`. -/
  token : ℕ
  /-- Its arity. -/
  arity : UInt8
  /-- Whether it can return the tail sentinel. -/
  mayTail : Bool
  deriving DecidableEq, Repr

/-- Resolves the global atoms of module and function to a direct-call target. -/
abbrev ExtResolver := UInt32 → UInt32 → Option ExtTarget

/-- How a call with `n` arguments is bound. -/
def bound (resolver : ExtResolver) (gm gf : UInt32) (n : ℕ) : Option ExtTarget :=
  (resolver gm gf).filter fun t => t.arity.toNat = n ∧ n ≤ 16

/-- A function of the representation. -/
structure ClifFn where
  /-- The number of parameters, which are the first values. -/
  arity : ℕ
  /-- The number of variables. -/
  nvars : ℕ
  /-- The bytecode it was made from. -/
  code : List UInt8
  /-- Its instructions. -/
  items : List Item
  deriving DecidableEq, Repr

end Jit

end Yggdrasil
