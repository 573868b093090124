import Mathlib
import SymbolicMachine.Proofs.Join
import SymbolicMachine.Proofs.Memory.Selection
import SymbolicMachine.Proofs.Program.Basic
import SymbolicMachine.Proofs.Word.Shifts
import SymbolicMachine.Proofs.Word.Signed
import SymbolicMachine.Proofs.Word.Unsigned

/-!
# The machine behind the formulas

The same instructions on registers that hold machine words, truth values and bytes. Registers of
formulas refine them if every formula means what the machine holds and every window holds bytes
(`State.Means`). Each instruction preserves this (`State.Means.exec`), and so does every run
(`State.Means.run`), whether the formulas are known or not.
-/

namespace SymbolicMachine.Program

variable {ρ : Assignment} {known : Prop}

/-! ## Operators -/

def Unary.value : Unary → Nat → Nat
  | isZero, a => if a = 0 then 1 else 0
  | not, a => a ^^^ (2 ^ 256 - 1)
  | popcount, a => (List.range 256).countP a.testBit

def Binary.value : Binary → Nat → Nat → Nat
  | add, a, b => (a + b) % 2 ^ 256
  | sub, a, b => (2 ^ 256 + a - b) % 2 ^ 256
  | mul, a, b => a * b % 2 ^ 256
  | div, a, b => if b = 0 then 0 else a / b
  | rem, a, b => if b = 0 then 0 else a % b
  | sdiv, a, b => if b = 0 then 0 else Word.ofInteger ((Word.signed a).tdiv (Word.signed b))
  | smod, a, b => if b = 0 then 0 else Word.ofInteger ((Word.signed a).tmod (Word.signed b))
  | exp, a, b => a ^ b % 2 ^ 256
  | lt, a, b => if a < b then 1 else 0
  | gt, a, b => if b < a then 1 else 0
  | slt, a, b => if Word.signed a < Word.signed b then 1 else 0
  | sgt, a, b => if Word.signed b < Word.signed a then 1 else 0
  | eq, a, b => if a = b then 1 else 0
  | and, a, b => a &&& b
  | or, a, b => a ||| b
  | xor, a, b => a ^^^ b
  | shl, a, b => if b < 256 then a * 2 ^ b % 2 ^ 256 else 0
  | shr, a, b => if b < 256 then a / 2 ^ b else 0
  | sar, a, b => Word.ofInteger (Word.signed a / 2 ^ b)
  | rotl, a, b => ((BitVec.ofNat 256 a).rotateLeft b).toNat
  | rotr, a, b => ((BitVec.ofNat 256 a).rotateRight b).toNat
  | testBit, a, b => (a.testBit b).toNat
  | byte, a, b => if b ≤ 31 then a / 256 ^ (31 - b) % 256 else 0
  | signExtend, a, b => if b < 31 then Word.signExtended a b else a

def Ternary.value : Ternary → Nat → Nat → Nat → Nat
  | addMod, a, b, c => if c = 0 then 0 else (a + b) % c
  | mulMod, a, b, c => if c = 0 then 0 else a * b % c

section

open Word

variable {x y z : Word} {a b c : Nat}

theorem Unary.holds (op : Unary) (hx : x.Means ρ known a) :
    (op.apply x).Holds ρ known (op.value a) := by
  cases op with
  | isZero => exact (means_isZero hx).holds
  | not => exact (means_not hx).holds
  | popcount => exact (means_popcount hx).holds

/-- Only the right shift looks at a tag, and only it leaves one. -/
theorem Binary.holds (op : Binary) (hx : x.Holds ρ known a) (hy : y.Holds ρ known b) :
    (op.apply x y).Holds ρ known (op.value a b) := by
  cases op with
  | add => exact (means_add hx.toMeans hy.toMeans).holds
  | sub => exact (means_sub hx.toMeans hy.toMeans).holds
  | mul => exact (means_mul hx.toMeans hy.toMeans).holds
  | div => exact (means_div hx.toMeans hy.toMeans).holds
  | rem => exact (means_rem hx.toMeans hy.toMeans).holds
  | sdiv => exact (means_sdiv hx.toMeans hy.toMeans).holds
  | smod => exact (means_smod hx.toMeans hy.toMeans).holds
  | exp => exact (means_exp hx.toMeans hy.toMeans).holds
  | lt => exact (means_lt hx.toMeans hy.toMeans).holds
  | gt => exact (means_gt hx.toMeans hy.toMeans).holds
  | slt => exact (means_slt hx.toMeans hy.toMeans).holds
  | sgt => exact (means_sgt hx.toMeans hy.toMeans).holds
  | eq => exact (means_eq hx.toMeans hy.toMeans).holds
  | and => exact (means_and hx.toMeans hy.toMeans).holds
  | or => exact (means_or hx.toMeans hy.toMeans).holds
  | xor => exact (means_xor hx.toMeans hy.toMeans).holds
  | shl => exact (means_shiftLeft hx.toMeans hy.toMeans).holds
  | shr => exact holds_shiftRight hx hy.toMeans
  | sar => exact (means_sshiftRight hx.toMeans hy.toMeans).holds
  | rotl => exact (means_rotateLeft hx.toMeans hy.toMeans).holds
  | rotr => exact (means_rotateRight hx.toMeans hy.toMeans).holds
  | testBit => exact (means_testBit hx.toMeans hy.toMeans).holds
  | byte => exact (means_byte hx.toMeans hy.toMeans).holds
  | signExtend => exact (means_signExtend hx.toMeans hy.toMeans).holds

theorem Ternary.holds (op : Ternary) (hx : x.Means ρ known a) (hy : y.Means ρ known b)
    (hz : z.Means ρ known c) : (op.apply x y z).Holds ρ known (op.value a b c) := by
  cases op with
  | addMod => exact (means_addMod hx hy hz).holds
  | mulMod => exact (means_mulMod hx hy hz).holds

end

/-! ## Instructions -/

/-- Registers that hold machine words, truth values and bytes. -/
abbrev Values := Registers Nat Nat Bool Bytes

def Values.initial : Values := ⟨fun _ => 0, fun _ => 0, fun _ => false, fun _ => []⟩

def Values.exec (ρ : Assignment) (v : Values) : Instruction → Except Fault Values
  | .literal dst n => .ok (v.setWord dst (n % 2 ^ 256))
  | .unknown dst name => .ok (v.setWord dst (valueOf ρ name % 2 ^ 256))
  | .unary op dst x => .ok (v.setWord dst (op.value (v.words x)))
  | .binary op dst x y => .ok (v.setWord dst (op.value (v.words x) (v.words y)))
  | .ternary op dst x y m => .ok (v.setWord dst (op.value (v.words x) (v.words y) (v.words m)))
  | .equation dst x y => .ok (v.setCond dst (v.words x == v.words y))
  | .toAddress dst x => .ok (v.setAddress dst (v.words x % 2 ^ 160))
  | .fromAddress dst a => .ok (v.setWord dst (v.addresses a))
  | .knownBytes dst bytes => .ok (v.setBuffer dst bytes)
  | .symbolicBytes dst elements => .ok (v.setBuffer dst (elements.map (Element.value ρ)))
  | .ofWord dst x => .ok (v.setBuffer dst (.ofWord (v.words x)))
  | .toSymbolic dst b => .ok (v.setBuffer dst (v.buffers b))
  | .take dst b n => .ok (v.setBuffer dst ((v.buffers b).take n))
  | .drop dst b n => .ok (v.setBuffer dst ((v.buffers b).drop n))
  | .append dst b b' => .ok (v.setBuffer dst (v.buffers b ++ v.buffers b'))
  | .slice dst b offset size => .ok (v.setBuffer dst ((v.buffers b).slice offset size))
  | .readWord dst b offset => .ok (v.setWord dst ((v.buffers b).readWord offset))
  | .readSelector dst b offset => .ok (v.setWord dst ((v.buffers b).readSelector offset))
  | .readWordAt dst b index => .ok (v.setWord dst ((v.buffers b).readWord (v.words index)))
  | .writeWord dst b offset x =>
    (Buffer.written offset wordBytes ((v.buffers b).writeWord offset (v.words x))).map
      (v.setBuffer dst)
  | .writeByte dst b offset x =>
    (Buffer.written offset 1 ((v.buffers b).writeByte offset (.ofNat (v.words x)))).map
      (v.setBuffer dst)
  | .writeRange dst b offset source start size =>
    (if size = 0 then .ok (v.buffers b)
      else Buffer.written offset size
        ((v.buffers b).writeRange offset (v.buffers source) start size)).map (v.setBuffer dst)
  | .joinWords dst c x y => .ok (v.setWord dst (if v.conds c then v.words x else v.words y))
  | .joinBuffers dst c b b' =>
    .ok (v.setBuffer dst (.select (v.conds c) (v.buffers b) (v.buffers b')))

/-! ## Related runs -/

/-- Two runs of one program. If every instruction keeps states related and is refused by both sides
alike, the logs agree and the states in the end are related. -/
theorem runWith_rel {σ τ : Type} {R : σ → τ → Prop} {f : σ → Instruction → Except Fault σ}
    {g : τ → Instruction → Except Fault τ} {s : σ} {t : τ} (program : List Instruction)
    (hstep : ∀ i ∈ program, ∀ s t, R s t → Outcome R (f s i) (g t i)) (h : R s t) :
    (runWith f program s).1 = (runWith g program t).1 ∧
      R (runWith f program s).2 (runWith g program t).2 := by
  induction program generalizing s t with
  | nil => exact ⟨rfl, h⟩
  | cons i program ih =>
    have hhead := hstep i List.mem_cons_self s t h
    have htail := fun j hj => hstep j (List.mem_cons_of_mem i hj)
    unfold runWith
    generalize f s i = r at hhead
    generalize g t i = r' at hhead
    cases hhead with
    | ok h' =>
      obtain ⟨hlog, hend⟩ := ih htail h'
      exact ⟨congrArg (none :: ·) hlog, hend⟩
    | error e =>
      obtain ⟨hlog, hend⟩ := ih htail h
      exact ⟨congrArg (some e :: ·) hlog, hend⟩

/-! ## Refinement -/

/-- Every register of formulas means what the machine holds in that register. -/
structure State.Means (ρ : Assignment) (known : Prop) (s : State) (v : Values) : Prop where
  words : ∀ i, (s.words i).Holds ρ known (v.words i)
  addresses : ∀ i, (s.addresses i).Means ρ known (v.addresses i)
  conds : ∀ i, (s.conds i).Means ρ known (v.conds i)
  buffers : ∀ i, (s.buffers i).Means ρ known (v.buffers i)

/-- The instruction names no variable. -/
def Instruction.Closed : Instruction → Prop
  | unknown .. => False
  | symbolicBytes _ elements => ∀ name, .var name ∉ elements
  | _ => True

theorem Element.means_bytes {elements : List Element}
    (h : ∀ name, .var name ∈ elements → ∃ n < 256, ρ name = some ((n : Nat) : Int))
    (hk : known → ∀ name, .var name ∉ elements) :
    (Buffer.symbolic (elements.map Element.term)).Means ρ known
      (elements.map (Element.value ρ)) := by
  apply forall₂_map
  intro e he
  cases e with
  | lit byte => exact .ofNat byte.toNat
  | var name =>
    obtain ⟨n, hn, hname⟩ := h name he
    refine ⟨?_, fun k => absurd he (hk k name)⟩
    rw [Element.value, valueOf, hname]
    simp only [Option.getD_some, Int.toNat_natCast, UInt8.toNat_ofNat_of_lt' hn]
    exact hname

namespace State.Means

variable {s : State} {v : Values}

theorem initial : State.Means ρ known Program.initial Values.initial where
  words _ := Word.Means.holds ⟨.ofLit 0, by norm_num [Values.initial]⟩
  addresses _ := ⟨.ofLit 0, by norm_num [Values.initial]⟩
  conds _ := ⟨rfl, fun _ => rfl⟩
  buffers _ := .ofBytes []

theorem rel_update {α β : Type} {R : α → β → Prop} {f : Nat → α} {g : Nat → β} {x : α}
    {y : β} (h : ∀ i, R (f i) (g i)) (hxy : R x y) (dst i : Nat) :
    R (Function.update f dst x i) (Function.update g dst y i) := by
  rw [Function.update_apply, Function.update_apply]
  split
  · exact hxy
  · exact h i

theorem setWord {w : Word} {n : Nat} (h : s.Means ρ known v) (dst : Nat)
    (hw : w.Holds ρ known n) : State.Means ρ known (s.setWord dst w) (v.setWord dst n) :=
  { h with words := rel_update h.words hw dst }

theorem setAddress {a : Address} {n : Nat} (h : s.Means ρ known v) (dst : Nat)
    (ha : a.Means ρ known n) : State.Means ρ known (s.setAddress dst a) (v.setAddress dst n) :=
  { h with addresses := rel_update h.addresses ha dst }

theorem setCond {c : Cond} {b : Bool} (h : s.Means ρ known v) (dst : Nat)
    (hc : c.Means ρ known b) : State.Means ρ known (s.setCond dst c) (v.setCond dst b) :=
  { h with conds := rel_update h.conds hc dst }

theorem setBuffer {b : Buffer} {bytes : Bytes} (h : s.Means ρ known v) (dst : Nat)
    (hb : b.Means ρ known bytes) :
    State.Means ρ known (s.setBuffer dst b) (v.setBuffer dst bytes) :=
  { h with buffers := rel_update h.buffers hb dst }

theorem setWritten {r : Except Fault Buffer} {r' : Except Fault Bytes} (h : s.Means ρ known v)
    (dst : Nat) (hr : Outcome (Buffer.Means ρ known) r r') :
    Outcome (State.Means ρ known) (r.map (s.setBuffer dst)) (r'.map (v.setBuffer dst)) :=
  hr.map fun _ _ hb => h.setBuffer dst hb

/-- One instruction: either both sides refuse it with the same fault, or the registers of formulas
go on meaning what the machine holds. -/
theorem exec {i : Instruction} (h : s.Means ρ known v) (hi : i.Admits ρ) (hk : known → i.Closed) :
    Outcome (State.Means ρ known) (Program.exec s i) (v.exec ρ i) := by
  cases i with
  | literal dst n => exact .ok (h.setWord dst (Word.means_lit n).holds)
  | unknown dst name =>
    obtain ⟨n, hn, hname⟩ := hi
    refine .ok (h.setWord dst ⟨⟨⟨?_, fun k => (hk k).elim⟩, Nat.mod_lt _ (by norm_num)⟩, ?_⟩)
    · rw [valueOf, hname, Option.getD_some, Int.toNat_natCast, Nat.mod_eq_of_lt hn]
      exact hname
    · exact fun _ hw => nomatch hw
  | unary op dst x => exact .ok (h.setWord dst (op.holds (h.words x).toMeans))
  | binary op dst x y => exact .ok (h.setWord dst (op.holds (h.words x) (h.words y)))
  | ternary op dst x y m =>
    exact .ok (h.setWord dst (op.holds (h.words x).toMeans (h.words y).toMeans (h.words m).toMeans))
  | equation dst x y =>
    exact .ok (h.setCond dst (Word.means_equation (h.words x).toMeans (h.words y).toMeans))
  | toAddress dst x => exact .ok (h.setAddress dst (Address.means_ofWord (h.words x).toMeans))
  | fromAddress dst a => exact .ok (h.setWord dst (h.addresses a).toWord.holds)
  | knownBytes dst bytes => exact .ok (h.setBuffer dst (.ofBytes bytes))
  | symbolicBytes dst elements => exact .ok (h.setBuffer dst (Element.means_bytes hi hk))
  | ofWord dst x => exact .ok (h.setBuffer dst (.ofWord (h.words x)))
  | toSymbolic dst b => exact .ok (h.setBuffer dst (h.buffers b).toSymbolic)
  | take dst b n => exact .ok (h.setBuffer dst ((h.buffers b).take n))
  | drop dst b n => exact .ok (h.setBuffer dst ((h.buffers b).drop n))
  | append dst b b' => exact .ok (h.setBuffer dst ((h.buffers b).append (h.buffers b')))
  | slice dst b offset size => exact .ok (h.setBuffer dst ((h.buffers b).slice offset size))
  | readWord dst b offset =>
    exact .ok (h.setWord dst ((h.buffers b).readField offset (by decide)))
  | readSelector dst b offset =>
    exact .ok (h.setWord dst ((h.buffers b).readField offset (by decide)))
  | readWordAt dst b index =>
    exact .ok (h.setWord dst ((h.buffers b).readWordAt (h.words index).toMeans))
  | writeWord dst b offset x => exact h.setWritten dst ((h.buffers b).writeWord (h.words x) offset)
  | writeByte dst b offset x =>
    exact h.setWritten dst ((h.buffers b).writeByte (h.words x).toMeans offset)
  | writeRange dst b offset source start size =>
    exact h.setWritten dst ((h.buffers b).writeRange (h.buffers source) offset start size)
  | joinWords dst c x y =>
    exact .ok (h.setWord dst (Word.holds_join (h.conds c) (h.words x) (h.words y).toMeans))
  | joinBuffers dst c b b' =>
    exact .ok (h.setBuffer dst (.join (h.conds c) (h.buffers b) (h.buffers b')))

/-- A whole run: both sides refuse the same instructions with the same faults, and in the end the
registers of formulas mean what the machine holds. -/
theorem run {program : List Instruction} (h : s.Means ρ known v)
    (hi : ∀ i ∈ program, i.Admits ρ) (hk : known → ∀ i ∈ program, i.Closed) :
    (runWith Program.exec program s).1 = (runWith (Values.exec ρ) program v).1 ∧
      State.Means ρ known (runWith Program.exec program s).2
        (runWith (Values.exec ρ) program v).2 :=
  runWith_rel program (fun i hmem _ _ h => h.exec (hi i hmem) fun k => hk k i hmem) h

end State.Means

end SymbolicMachine.Program
