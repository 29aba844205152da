import Yggdrasil.Bytecode.Module

/-!
# Which functions can return the tail sentinel

The scan that finds tail calls and calls has its own table of operand lengths. A
function can return the sentinel if it has a tail call, or calls a function of the
module that can.
-/

namespace Yggdrasil

/-- `skip_operands`: the position after the operands of an instruction whose opcode has
been read. -/
def skipOperands (opcode : UInt8) (code : List UInt8) (pos : ℕ) : Option ℕ := do
  let fixed (n : ℕ) : Option ℕ := if pos + n ≤ code.length then some (pos + n) else none
  match ← Op.ofByte opcode with
  | .nop => fixed 0
  | .loadInt => fixed 9
  | .loadAtom => fixed 5
  | .spawn => fixed 6
  | .reg1 .loadNil | .reg1 .selfPid | .reg1 .recv | .reg1 .ret | .reg1 .exitAtom | .reg1 .print
  | .reg1 .ticks | .reg1 .sleepMs => fixed 1
  | .reg2 .move | .reg2 .head | .reg2 .tail | .reg2 .send | .reg2 .bnot | .reg2 .binFromList
  | .reg2 .binToList | .reg2 .binSize | .reg2 .bufToBin | .reg2 .binToBuf | .reg2 .isBinary
  | .portOpen | .reg2 .bufNew => fixed 2
  | .getElem | .reg3 .cons | .reg3 .add | .reg3 .sub | .reg3 .mul | .reg3 .cmpEq | .reg3 .cmpLt
  | .reg3 .band | .reg3 .bor | .reg3 .bxor | .reg3 .bsl | .reg3 .bsr | .reg3 .binCat
  | .reg3 .listCat | .reg3 .mapGet | .reg3 .binAt => fixed 3
  | .reg4 .mapPut | .reg4 .binPart | .portSubmit | .reg4 .bufWrite | .reg4 .bufRead => fixed 4
  | .portSubmit2 => fixed 5
  | .jmp => fixed 4
  | .jmpIf => fixed 5
  | .makeTuple => fixed (2 + (← code[pos + 1]?).toNat)
  | .mapNew => fixed (2 + 2 * (← code[pos + 1]?).toNat)
  | .binNew => fixed (5 + (← getU32 code (pos + 1)).toNat)
  | .call => fixed (6 + (← code[pos + 5]?).toNat)
  | .tailCall => fixed (5 + (← code[pos + 4]?).toNat)
  | .callExt => fixed (10 + (← code[pos + 9]?).toNat)
  | .tailCallExt => fixed (9 + (← code[pos + 8]?).toNat)

/-- What the scan of one function has found. -/
structure TailScan where
  /-- The function has a tail call, or code the scan cannot read. -/
  bit : Bool
  /-- The functions it calls, in order. -/
  callees : List UInt32
  /-- History: where instructions start, latest first. -/
  starts : List ℕ
  deriving DecidableEq, Repr

/-- One instruction of the scan. -/
def TailScan.visit (code : List UInt8) (pos : ℕ) (opcode : UInt8) (st : TailScan) : TailScan :=
  let st := { st with starts := pos :: st.starts }
  match Op.ofByte opcode with
  | some .tailCall | some .tailCallExt => { st with bit := true }
  | some .call => { st with callees := st.callees ++ (getU32 code (pos + 2)).toList }
  | _ => st

/-- The loop over the code of one function. Every instruction takes at least one byte, so
as many rounds as there are bytes reach the end. -/
def tailScanLoop (code : List UInt8) : ℕ → ℕ → TailScan → TailScan
  | 0, _, st => st
  | rounds + 1, pos, st =>
    match code[pos]? with
    | none => st
    | some opcode =>
      let st := st.visit code pos opcode
      match skipOperands opcode code (pos + 1) with
      | some next => tailScanLoop code rounds next st
      | none => { st with bit := true }

/-- The scan of one function. -/
def tailScan (f : Function) : TailScan := tailScanLoop f.code f.code.length 0 ⟨false, [], []⟩

/-- Whether function `i` calls one that can return the sentinel. -/
def callsTailer (callees : List (List UInt32)) (bits : List Bool) (i : ℕ) : Bool :=
  (callees.getD i []).any fun c => (bits[c.toNat]?).getD true

/-- One pass over the functions; it sees the bits it has set before. -/
def tailPass (callees : List (List UInt32)) (bits : List Bool) : List Bool :=
  (List.range bits.length).foldl
    (fun bits i =>
      if !(bits.getD i true) && callsTailer callees bits i then bits.set i true else bits)
    bits

/-- Passes until nothing changes. Every pass but the last sets a bit. -/
def tailFixpoint (callees : List (List UInt32)) : ℕ → List Bool → List Bool
  | 0, bits => bits
  | rounds + 1, bits =>
    let bits' := tailPass callees bits
    if bits' = bits then bits else tailFixpoint callees rounds bits'

/-- `sentinel_returners`. -/
def sentinelReturners (m : Module) : List Bool :=
  let scans := m.functions.map tailScan
  tailFixpoint (scans.map TailScan.callees) (m.functions.length + 1) (scans.map TailScan.bit)

end Yggdrasil
