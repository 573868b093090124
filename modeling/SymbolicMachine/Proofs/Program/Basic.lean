import Mathlib
import SymbolicMachine.Formula.Eval
import SymbolicMachine.Join
import SymbolicMachine.Memory.Selection
import SymbolicMachine.Word.Arithmetic
import SymbolicMachine.Word.Bitwise

/-!
# Straight-line programs

A program is a list of instructions over registers for words, addresses, conditions and buffers. Its
only inputs are the variables that it introduces, so `Instruction.instantiate` is enough to replace
all of them by their values. A write that is refused leaves the registers as they are; the run goes
on and logs the fault.
-/

namespace SymbolicMachine.Program

/-! ## Operators -/

/-- Operators of one word. -/
inductive Unary
  | isZero | not | popcount
  deriving DecidableEq, Repr

/-- Operators of two words. -/
inductive Binary
  | add | sub | mul | div | rem | sdiv | smod | exp
  | lt | gt | slt | sgt | eq
  | and | or | xor
  | shl | shr | sar | rotl | rotr | testBit | byte | signExtend
  deriving DecidableEq, Repr

/-- Operators of two words and a modulus. -/
inductive Ternary
  | addMod | mulMod
  deriving DecidableEq, Repr

def Unary.apply : Unary → Word → Word
  | isZero => Word.isZero
  | not => Word.not
  | popcount => Word.popcount

def Binary.apply : Binary → Word → Word → Word
  | add => Word.add
  | sub => Word.sub
  | mul => Word.mul
  | div => Word.div
  | rem => Word.rem
  | sdiv => Word.sdiv
  | smod => Word.smod
  | exp => Word.exp
  | lt => Word.lt
  | gt => Word.gt
  | slt => Word.slt
  | sgt => Word.sgt
  | eq => Word.eq
  | and => Word.and
  | or => Word.or
  | xor => Word.xor
  | shl => Word.shiftLeft
  | shr => Word.shiftRight
  | sar => Word.sshiftRight
  | rotl => Word.rotateLeft
  | rotr => Word.rotateRight
  | testBit => Word.testBit
  | byte => Word.byte
  | signExtend => Word.signExtend

def Ternary.apply : Ternary → Word → Word → Word → Word
  | addMod => Word.addMod
  | mulMod => Word.mulMod

/-! ## Instructions -/

/-- An element of a symbolic buffer: a byte or a variable for one. -/
inductive Element
  | lit (byte : UInt8)
  | var (name : String)
  deriving DecidableEq, Repr

def Element.term : Element → Term
  | lit byte => .nat byte.toNat
  | var name => .var name

/-- Instructions. The first number names the register that is written; other registers are read,
and offsets, counts and sizes are known. -/
inductive Instruction
  | literal (dst n : Nat)
  | unknown (dst : Nat) (name : String)
  | unary (op : Unary) (dst x : Nat)
  | binary (op : Binary) (dst x y : Nat)
  | ternary (op : Ternary) (dst x y m : Nat)
  | equation (dst x y : Nat)
  | toAddress (dst x : Nat)
  | fromAddress (dst a : Nat)
  | knownBytes (dst : Nat) (bytes : Bytes)
  | symbolicBytes (dst : Nat) (elements : List Element)
  | ofWord (dst x : Nat)
  | toSymbolic (dst b : Nat)
  | take (dst b n : Nat)
  | drop (dst b n : Nat)
  | append (dst b b' : Nat)
  | slice (dst b offset size : Nat)
  | readWord (dst b offset : Nat)
  | readSelector (dst b offset : Nat)
  | readWordAt (dst b index : Nat)
  | writeWord (dst b offset x : Nat)
  | writeByte (dst b offset x : Nat)
  | writeRange (dst b offset source start size : Nat)
  | joinWords (dst c x y : Nat)
  | joinBuffers (dst c b b' : Nat)
  deriving DecidableEq, Repr

/-! ## Runs -/

/-- A file of registers of each kind. -/
structure Registers (W A C B : Type) where
  words : Nat → W
  addresses : Nat → A
  conds : Nat → C
  buffers : Nat → B

namespace Registers

variable {W A C B : Type} (r : Registers W A C B) (i : Nat)

def setWord (w : W) : Registers W A C B := { r with words := Function.update r.words i w }

def setAddress (a : A) : Registers W A C B :=
  { r with addresses := Function.update r.addresses i a }

def setCond (c : C) : Registers W A C B := { r with conds := Function.update r.conds i c }

def setBuffer (b : B) : Registers W A C B := { r with buffers := Function.update r.buffers i b }

end Registers

/-- Registers that hold formulas. -/
abbrev State := Registers Word Address Cond Buffer

/-- Words and addresses are zero, conditions false and buffers empty. -/
def initial : State := ⟨fun _ => default, fun _ => default, fun _ => default, fun _ => default⟩

def exec (s : State) : Instruction → Except Fault State
  | .literal dst n => .ok (s.setWord dst (.lit n))
  | .unknown dst name => .ok (s.setWord dst (.named name))
  | .unary op dst x => .ok (s.setWord dst (op.apply (s.words x)))
  | .binary op dst x y => .ok (s.setWord dst (op.apply (s.words x) (s.words y)))
  | .ternary op dst x y m => .ok (s.setWord dst (op.apply (s.words x) (s.words y) (s.words m)))
  | .equation dst x y => .ok (s.setCond dst ((s.words x).equation (s.words y)))
  | .toAddress dst x => .ok (s.setAddress dst (.ofWord (s.words x)))
  | .fromAddress dst a => .ok (s.setWord dst (s.addresses a).toWord)
  | .knownBytes dst bytes => .ok (s.setBuffer dst (.known bytes))
  | .symbolicBytes dst elements => .ok (s.setBuffer dst (.symbolic (elements.map Element.term)))
  | .ofWord dst x => .ok (s.setBuffer dst (.ofWord (s.words x)))
  | .toSymbolic dst b => .ok (s.setBuffer dst (s.buffers b).toSymbolic)
  | .take dst b n => .ok (s.setBuffer dst ((s.buffers b).take n))
  | .drop dst b n => .ok (s.setBuffer dst ((s.buffers b).drop n))
  | .append dst b b' => .ok (s.setBuffer dst (s.buffers b ++ s.buffers b'))
  | .slice dst b offset size => .ok (s.setBuffer dst ((s.buffers b).slice offset size))
  | .readWord dst b offset => .ok (s.setWord dst ((s.buffers b).readWord offset))
  | .readSelector dst b offset => .ok (s.setWord dst ((s.buffers b).readSelector offset))
  | .readWordAt dst b index => .ok (s.setWord dst ((s.buffers b).readWordAt (s.words index)))
  | .writeWord dst b offset x =>
    ((s.buffers b).writeWord offset (s.words x)).map (s.setBuffer dst)
  | .writeByte dst b offset x =>
    ((s.buffers b).writeByte offset (s.words x)).map (s.setBuffer dst)
  | .writeRange dst b offset source start size =>
    ((s.buffers b).writeRange offset (s.buffers source) start size).map (s.setBuffer dst)
  | .joinWords dst c x y => .ok (s.setWord dst (join (s.conds c) (s.words x) (s.words y)))
  | .joinBuffers dst c b b' =>
    .ok (s.setBuffer dst (join (s.conds c) (s.buffers b) (s.buffers b')))

/-- Runs instructions one after the other. The log has an entry for each of them: the fault, if the
instruction was refused. -/
def runWith {σ : Type} (step : σ → Instruction → Except Fault σ) :
    List Instruction → σ → List (Option Fault) × σ
  | [], s => ([], s)
  | i :: program, s =>
    match step s i with
    | .ok s => (runWith step program s).map (none :: ·) id
    | .error e => (runWith step program s).map (some e :: ·) id

def run (program : List Instruction) : List (Option Fault) × State := runWith exec program initial

/-! ## Instantiation -/

/-- The value of a variable, zero if it has none. -/
def valueOf (ρ : Assignment) (name : String) : Nat := ((ρ name).getD 0).toNat

def Element.value (ρ : Assignment) : Element → UInt8
  | lit byte => byte
  | var name => .ofNat (valueOf ρ name)

/-- The instruction with literals in place of its variables. -/
def Instruction.instantiate (ρ : Assignment) : Instruction → Instruction
  | unknown dst name => literal dst (valueOf ρ name)
  | symbolicBytes dst elements => symbolicBytes dst (elements.map fun e => .lit (e.value ρ))
  | i => i

/-- The assignment gives word variables machine words and byte variables bytes. -/
def Instruction.Admits (ρ : Assignment) : Instruction → Prop
  | unknown _ name => ∃ n < 2 ^ 256, ρ name = some ((n : Nat) : Int)
  | symbolicBytes _ elements =>
    ∀ name, .var name ∈ elements → ∃ n < 256, ρ name = some ((n : Nat) : Int)
  | _ => True

end SymbolicMachine.Program
