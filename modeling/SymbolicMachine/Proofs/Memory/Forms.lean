import Mathlib
import SymbolicMachine.Memory.Selection
import SymbolicMachine.Resolution
import SymbolicMachine.Proofs.Join

/-!
# The two forms of memory are interchangeable

A program works on registers that hold buffers, and before every operation each operand may be taken
as known bytes or as formulas, whatever its register holds. Behind all these runs there is one run
on bytes: every operation goes on spelling out the bytes that the run on bytes holds, and is refused
exactly if the latter is (`Held.means_exec`, `means_perform`). A buffer that spells out bytes can be
resolved to them, and nothing that is read from it depends on its form (`Interchangeable.of_means`).
Main result: `forms_interchangeable`.
-/

namespace SymbolicMachine

variable {ρ : Assignment}

/-! ## Holding a buffer in a form -/

/-- The form in which an operand is held. -/
inductive Form
  | known | symbolic
  deriving DecidableEq, Repr

/-- The buffer in a form. A buffer that cannot be resolved is never one of known bytes. -/
def Buffer.hold (b : Buffer) : Form → Buffer
  | .known => ((Resolve.known? b).map Buffer.known).getD b
  | .symbolic => b.toSymbolic

theorem byteLits?_lift (bytes : Bytes) : byteLits? bytes.lift = some bytes := by
  induction bytes with
  | nil => rfl
  | cons byte bytes ih =>
    have hbyte : (Term.nat byte.toNat).byteLit? = some byte := by
      simp [Term.byteLit?, Term.natLit?, Term.lit?, Int.toNat?, byte.toNat_lt]
    rw [byteLits?] at ih ⊢
    rw [Bytes.lift, List.map_cons, List.mapM_cons, hbyte, ← Bytes.lift, ih]
    rfl

namespace Buffer.Means

variable {b : Buffer} {bytes : Bytes}

theorem lift_eq (h : b.Means ρ True bytes) : b.lift = bytes.lift := Term.MeansBytes.lit h trivial

theorem resolved (h : b.Means ρ True bytes) : Resolve.known? b = some bytes := by
  obtain rfl | ⟨terms, rfl, hterms⟩ := h.form
  · rfl
  · rw [hterms.lit trivial]
    exact byteLits?_lift bytes

/-- However a buffer of literal bytes is held, it stands for the same bytes. -/
theorem hold (h : b.Means ρ True bytes) (form : Form) : (b.hold form).Means ρ True bytes := by
  cases form with
  | known =>
    rw [Buffer.hold, h.resolved]
    exact ofBytes bytes
  | symbolic => exact h.toSymbolic

end Buffer.Means

/-! ## What can be read -/

/-- Both buffers have the same length, resolve to the same bytes, and give the same formula wherever
something is read at a known place. -/
structure Buffer.Interchangeable (a b : Buffer) : Prop where
  length : a.length = b.length
  resolved : ∃ bytes : Bytes, Resolve.known? a = some bytes ∧ Resolve.known? b = some bytes
  readByte : ∀ offset, a.readByte offset = b.readByte offset
  readWord : ∀ offset, (a.readWord offset).term = (b.readWord offset).term
  readSelector : ∀ offset, (a.readSelector offset).term = (b.readSelector offset).term
  readWordBounded : ∀ index bound : Word, index.natLit?.isSome → bound.natLit?.isSome →
    (a.readWordBounded index bound).term = (b.readWordBounded index bound).term
  readWordAt : ∀ index : Word, index.natLit?.isSome →
    (a.readWordAt index).term = (b.readWordAt index).term

theorem Buffer.readWordBounded_of_known {index bound : Word} {i n : Nat} (b : Buffer)
    (hi : index.natLit? = some i) (hn : bound.natLit? = some n) :
    b.readWordBounded index bound = (b.take n).readWord i := by
  unfold readWordBounded
  rw [hi, hn]

theorem Buffer.readWordAt_of_known {index : Word} {i : Nat} (b : Buffer)
    (hi : index.natLit? = some i) : b.readWordAt index = b.readWord i := by
  unfold readWordAt
  rw [hi]

theorem Buffer.Interchangeable.of_means {a b : Buffer} {bytes : Bytes} (ha : a.Means ρ True bytes)
    (hb : b.Means ρ True bytes) : a.Interchangeable b := by
  have hlift : a.lift = b.lift := ha.lift_eq.trans hb.lift_eq.symm
  have hword : ∀ offset, (a.readWord offset).term = (b.readWord offset).term := by
    intro offset
    rw [Buffer.readWord, Buffer.readWord, term_readField a offset (by decide),
      term_readField b offset (by decide), hlift]
  refine ⟨by rw [← length_lift, hlift, length_lift], ⟨bytes, ha.resolved, hb.resolved⟩,
    fun offset => by rw [readByte_eq, readByte_eq, hlift], hword, fun offset => ?_,
    fun index bound hi hn => ?_, fun index hi => ?_⟩
  · rw [Buffer.readSelector, Buffer.readSelector, term_readField a offset (by decide),
      term_readField b offset (by decide), hlift]
  · obtain ⟨i, hi⟩ := Option.isSome_iff_exists.mp hi
    obtain ⟨n, hn⟩ := Option.isSome_iff_exists.mp hn
    rw [readWordBounded_of_known a hi hn, readWordBounded_of_known b hi hn, Buffer.readWord,
      Buffer.readWord, term_readField _ i (by decide), term_readField _ i (by decide), lift_take,
      lift_take, hlift]
  · obtain ⟨i, hi⟩ := Option.isSome_iff_exists.mp hi
    rw [readWordAt_of_known a hi, readWordAt_of_known b hi, hword]

/-! ## Programs -/

/-- A word with any tag whose formula is the literal of a machine word. -/
structure KnownWord where
  word : Word
  number : Nat
  term_eq : word.term = .nat number
  lt : number < 2 ^ 256

/-- Operations on the buffers in registers, at known offsets and of known sizes. -/
inductive Operation
  | ofWord (w : KnownWord)
  | take (b n : Nat)
  | drop (b n : Nat)
  | append (b b' : Nat)
  | slice (b offset size : Nat)
  | writeRange (b offset source start size : Nat)
  | writeWord (b offset : Nat) (w : KnownWord)
  | writeByte (b offset : Nat) (w : KnownWord)
  | join (taken : Bool) (b b' : Nat)

/-- An operation and the forms in which its first and its second operand are held. -/
structure Held where
  op : Operation
  first : Form
  second : Form

/-- The buffer that an operation makes of those in the registers. -/
def Held.exec (h : Held) (s : Nat → Buffer) : Except Fault Buffer :=
  match h.op with
  | .ofWord w => .ok (.ofWord w.word)
  | .take b n => .ok (((s b).hold h.first).take n)
  | .drop b n => .ok (((s b).hold h.first).drop n)
  | .append b b' => .ok ((s b).hold h.first ++ (s b').hold h.second)
  | .slice b offset size => .ok (((s b).hold h.first).slice offset size)
  | .writeRange b offset source start size =>
    ((s b).hold h.first).writeRange offset ((s source).hold h.second) start size
  | .writeWord b offset w => ((s b).hold h.first).writeWord offset w.word
  | .writeByte b offset w => ((s b).hold h.first).writeByte offset w.word
  | .join taken b b' => .ok (SymbolicMachine.join (.lit taken) ((s b).hold h.first)
      ((s b').hold h.second))

/-- The bytes that an operation makes of those in the registers. -/
def Operation.exec (op : Operation) (v : Nat → Bytes) : Except Fault Bytes :=
  match op with
  | .ofWord w => .ok (.ofWord w.number)
  | .take b n => .ok ((v b).take n)
  | .drop b n => .ok ((v b).drop n)
  | .append b b' => .ok (v b ++ v b')
  | .slice b offset size => .ok ((v b).slice offset size)
  | .writeRange b offset source start size =>
    if size = 0 then .ok (v b)
    else Buffer.written offset size ((v b).writeRange offset (v source) start size)
  | .writeWord b offset w => Buffer.written offset wordBytes ((v b).writeWord offset w.number)
  | .writeByte b offset w => Buffer.written offset 1 ((v b).writeByte offset (.ofNat w.number))
  | .join taken b b' => .ok (.select taken (v b) (v b'))

/-- Does operations one after the other and puts each result into the register named with the
operation. One that is refused leaves the registers as they are. The log has an entry for each
operation: the fault, if it was refused. -/
def perform {ι β : Type} (exec : ι → (Nat → β) → Except Fault β) :
    List (Nat × ι) → (Nat → β) → List (Option Fault) × (Nat → β)
  | [], s => ([], s)
  | (dst, op) :: program, s =>
    match exec op s with
    | .ok b => (perform exec program (Function.update s dst b)).map (none :: ·) id
    | .error e => (perform exec program s).map (some e :: ·) id

/-! ## The run on bytes behind the others -/

namespace KnownWord

variable (w : KnownWord)

/-- Nothing looks at the tag of a known word. -/
theorem alike : w.word.Alike (.ofTerm (.nat w.number)) :=
  ⟨w.term_eq, fun hl => absurd (Term.isLit_iff.mpr ⟨_, w.term_eq⟩) hl⟩

theorem holds : (Word.ofTerm (.nat w.number)).Holds ρ True w.number :=
  Word.Means.holds ⟨.ofNat w.number, w.lt⟩

theorem means : w.word.Means ρ True w.number :=
  ⟨w.term_eq ▸ .ofNat w.number, w.lt⟩

theorem natLit?_eq : w.word.natLit? = some w.number := Term.natLit?_eq_some.mpr w.term_eq

theorem means_ofWord : (Buffer.ofWord w.word).Means ρ True (.ofWord w.number) := by
  rw [Buffer.ofWord, w.natLit?_eq]
  exact .ofBytes _

end KnownWord

variable {s : Nat → Buffer} {v : Nat → Bytes}

/-- One operation: either both sides are refused with the same fault, or the result stands for the
bytes of the other side, in whatever forms the operands were held. -/
theorem Held.means_exec (h : Held) (hs : ∀ i, (s i).Means ρ True (v i)) :
    Outcome (Buffer.Means ρ True) (h.exec s) (h.op.exec v) := by
  obtain ⟨op, first, second⟩ := h
  cases op with
  | ofWord w => exact .ok w.means_ofWord
  | take b n => exact .ok (((hs b).hold first).take n)
  | drop b n => exact .ok (((hs b).hold first).drop n)
  | append b b' => exact .ok (((hs b).hold first).append ((hs b').hold second))
  | slice b offset size => exact .ok (((hs b).hold first).slice offset size)
  | writeRange b offset source start size =>
    exact ((hs b).hold first).writeRange ((hs source).hold second) offset start size
  | writeWord b offset w =>
    have hwrite := ((hs b).hold first).writeWord w.holds offset
    rwa [← Buffer.writeWord_of_alike w.alike] at hwrite
  | writeByte b offset w => exact ((hs b).hold first).writeByte w.means offset
  | join taken b b' =>
    exact .ok (.join ⟨rfl, fun _ => rfl⟩ ((hs b).hold first) ((hs b').hold second))

/-- A whole run: the same operations are refused with the same faults, and in the end every register
stands for the bytes of the run on bytes. -/
theorem means_perform (hs : ∀ i, (s i).Means ρ True (v i)) (program : List (Nat × Held)) :
    (perform Held.exec program s).1 =
        (perform Operation.exec (program.map (Prod.map id Held.op)) v).1 ∧
      ∀ i, ((perform Held.exec program s).2 i).Means ρ True
        ((perform Operation.exec (program.map (Prod.map id Held.op)) v).2 i) := by
  induction program generalizing s v with
  | nil => exact ⟨rfl, hs⟩
  | cons step program ih =>
    obtain ⟨dst, h⟩ := step
    have hstep := h.means_exec hs
    rw [List.map_cons, Prod.map, perform, perform, id]
    generalize h.exec s = r at hstep
    generalize h.op.exec v = r' at hstep
    cases hstep with
    | @ok b bytes hb =>
      have hs' : ∀ i, (Function.update s dst b i).Means ρ True (Function.update v dst bytes i) := by
        intro i
        rw [Function.update_apply, Function.update_apply]
        split
        · exact hb
        · exact hs i
      obtain ⟨hlog, hend⟩ := ih hs'
      exact ⟨congrArg (none :: ·) hlog, hend⟩
    | error e =>
      obtain ⟨hlog, hend⟩ := ih hs
      exact ⟨congrArg (some e :: ·) hlog, hend⟩

/-- **The two forms are interchangeable.** Two programs that differ in nothing but the forms in which
operands are held, both started on the same known bytes, refuse the same operations with the same
faults, and leave buffers that are read alike in either form. A part of a program is a program, so
this is true after each operation. -/
theorem forms_interchangeable (bytes : Nat → Bytes) (program program' : List (Nat × Held))
    (h : program.map (Prod.map id Held.op) = program'.map (Prod.map id Held.op)) :
    let start := fun i => Buffer.known (bytes i)
    (perform Held.exec program start).1 = (perform Held.exec program' start).1 ∧
      ∀ i form form', (((perform Held.exec program start).2 i).hold form).Interchangeable
        (((perform Held.exec program' start).2 i).hold form') := by
  intro start
  have hstart : ∀ i, (start i).Means (fun _ => none) True (bytes i) := fun i => .ofBytes (bytes i)
  obtain ⟨hlog, hend⟩ := means_perform hstart program
  obtain ⟨hlog', hend'⟩ := means_perform hstart program'
  rw [← h] at hlog' hend'
  exact ⟨hlog.trans hlog'.symm,
    fun i form form' => .of_means ((hend i).hold form) ((hend' i).hold form')⟩

/-- A store, an overlapping copy and a join, and a write that is refused, with the two operands in
different forms and then the other way round. The join has the last byte of the stored word. -/
theorem forms_interchangeable_on_copies :
    let w : KnownWord := ⟨.ofTerm (.nat 0x1234), 0x1234, rfl, by norm_num⟩
    let program := fun first second : Form => [(1, Held.mk (.writeWord 0 30 w) first second),
      (0, ⟨.writeRange 1 2 1 0 40, first, second⟩), (2, ⟨.join false 0 1, first, second⟩),
      (3, ⟨.writeByte 2 (2 ^ 64) w, first, second⟩)]
    let start := fun i => Buffer.known (Function.const Nat [1, 2, 3] i)
    (program .known .symbolic).map (Prod.map id Held.op) =
        (program .symbolic .known).map (Prod.map id Held.op) ∧
      (perform Held.exec (program .known .symbolic) start).1 =
        (perform Held.exec (program .symbolic .known) start).1 ∧
      (∀ i form form',
        (((perform Held.exec (program .known .symbolic) start).2 i).hold form).Interchangeable
          (((perform Held.exec (program .symbolic .known) start).2 i).hold form')) ∧
      (perform Held.exec (program .known .symbolic) start).1 =
        List.replicate 3 none ++ [some (.offsetOverflow (2 ^ 64))] ∧
      (((perform Held.exec (program .known .symbolic) start).2 2).hold .symbolic).readByte 61 =
        .lit 0x34 := by
  intro w program start
  have hfault : (perform Held.exec (program .symbolic .known) start).1 =
      List.replicate 3 none ++ [some (.offsetOverflow (2 ^ 64))] := by decide +kernel
  have hbyte :
      (((perform Held.exec (program .symbolic .known) start).2 2).hold .known).readByte 61 =
        .lit 0x34 := by decide +kernel
  -- with its value at hand, the runs would be unfolded
  clear_value w
  have h : (program .known .symbolic).map (Prod.map id Held.op) =
      (program .symbolic .known).map (Prod.map id Held.op) := rfl
  obtain ⟨hlog, hend⟩ := forms_interchangeable (Function.const Nat [1, 2, 3])
    (program .known .symbolic) (program .symbolic .known) h
  exact ⟨h, hlog, hend, hlog.trans hfault, ((hend 2 .symbolic .known).readByte 61).trans hbyte⟩

end SymbolicMachine
