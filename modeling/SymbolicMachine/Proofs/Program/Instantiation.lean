import Mathlib
import SymbolicMachine.Proofs.Program.Concrete

/-!
# Running commutes with instantiation

A program runs on formulas as it stands, or on literals after its variables have been replaced by
their values. Both runs refine the run of one machine, so they refuse the same instructions, and
every register of the first evaluates to the literal in that register of the second.
Main result: `run_commutes_with_instantiation`.
-/

namespace SymbolicMachine.Program

variable {ρ : Assignment}

/-- Every register of the first state evaluates to the literal in that register of the second:
words and addresses within their ranges, buffers byte by byte and of one length. -/
structure State.EvaluatesTo (ρ : Assignment) (s t : State) : Prop where
  words : ∀ i, ∃ n < 2 ^ 256,
    (s.words i).term.compute ρ = some ((n : Nat) : Int) ∧ (t.words i).term = .nat n
  addresses : ∀ i, ∃ n < 2 ^ 160,
    (s.addresses i).term.compute ρ = some ((n : Nat) : Int) ∧ (t.addresses i).term = .nat n
  conds : ∀ i, ∃ b, (s.conds i).compute ρ = some b ∧ t.conds i = .lit b
  buffers : ∀ i, ∃ bytes : Bytes,
    (s.buffers i).lift.map (Term.compute ρ) = bytes.map (fun b => some (b.toNat : Int)) ∧
      (t.buffers i).lift = bytes.lift

/-- Two states that refine the same machine, the second one with known formulas. -/
theorem State.Means.evaluatesTo {s t : State} {v : Values} (hs : s.Means ρ False v)
    (ht : t.Means ρ True v) : s.EvaluatesTo ρ t where
  words i := ⟨v.words i, (hs.words i).lt,
    (Term.compute_eq_eval _).trans (hs.words i).term.eval, (ht.words i).term.lit trivial⟩
  addresses i := ⟨v.addresses i, (hs.addresses i).lt,
    (Term.compute_eq_eval _).trans (hs.addresses i).term.eval, (ht.addresses i).term.lit trivial⟩
  conds i := ⟨v.conds i, (Cond.compute_eq_eval _).trans (hs.conds i).eval,
    (ht.conds i).lit trivial⟩
  buffers i := ⟨v.buffers i, (hs.buffers i).map_compute, (ht.buffers i).lit trivial⟩

/-! ## Instantiated programs -/

theorem Instruction.closed_instantiate (i : Instruction) : (i.instantiate ρ).Closed := by
  cases i with
  | symbolicBytes dst elements => simp [instantiate, Closed]
  | _ => trivial

theorem Instruction.Closed.admits {i : Instruction} (h : i.Closed) : i.Admits ρ := by
  cases i with
  | unknown => exact h.elim
  | symbolicBytes dst elements => exact fun name hname => absurd hname (h name)
  | _ => trivial

/-- The machine does not see whether a variable has been replaced by its value. -/
theorem Values.exec_instantiate (v : Values) (i : Instruction) :
    v.exec ρ (i.instantiate ρ) = v.exec ρ i := by
  cases i with
  | symbolicBytes dst elements =>
    rw [Instruction.instantiate, Values.exec, List.map_map]
    rfl
  | _ => rfl

theorem Values.run_instantiate (program : List Instruction) (v : Values) :
    runWith (Values.exec ρ) (program.map (Instruction.instantiate ρ)) v =
      runWith (Values.exec ρ) program v := by
  induction program generalizing v with
  | nil => rfl
  | cons i program ih =>
    rw [List.map_cons, runWith, runWith, exec_instantiate, ih]
    split
    · rw [ih]
    · rfl

/-! ## Main result -/

/-- **Running commutes with instantiation.** For every program and every assignment that gives its
word variables machine words and its byte variables bytes, the run of the program and that of its
instance refuse the same instructions with the same faults, and the registers of the first evaluate
to the literals in those of the second. -/
theorem run_commutes_with_instantiation (program : List Instruction)
    (h : ∀ i ∈ program, i.Admits ρ) :
    (run program).1 = (run (program.map (Instruction.instantiate ρ))).1 ∧
      (run program).2.EvaluatesTo ρ (run (program.map (Instruction.instantiate ρ))).2 := by
  have hclosed : ∀ i ∈ program.map (Instruction.instantiate ρ), i.Closed := by
    intro i hi
    obtain ⟨j, -, rfl⟩ := List.mem_map.mp hi
    exact j.closed_instantiate
  obtain ⟨hlog, hs⟩ := State.Means.run (.initial : State.Means ρ False _ _) h False.elim
  obtain ⟨hlog', ht⟩ := State.Means.run (.initial : State.Means ρ True _ _)
    (fun i hi => (hclosed i hi).admits) fun _ => hclosed
  rw [Values.run_instantiate] at hlog' ht
  exact ⟨hlog.trans hlog'.symm, hs.evaluatesTo ht⟩

/-- A word read at an unknown index, another one shifted as a window and stored, and stored again too
far away: the log has that fault, and the words have these values. -/
theorem run_commutes_with_instantiation_on_memory :
    let program : List Instruction :=
      [.unknown 0 "index", .symbolicBytes 0 [.lit 7, .var "byte"], .readWordAt 1 0 0,
        .readWord 2 0 0, .literal 3 8, .binary .shr 2 2 3, .writeWord 1 0 1 2,
        .writeWord 1 1 (2 ^ 64) 2]
    let ρ : Assignment := fun _ => some 1
    (∀ i ∈ program, i.Admits ρ) ∧
      (run program).1 = (run (program.map (Instruction.instantiate ρ))).1 ∧
      (run program).2.EvaluatesTo ρ (run (program.map (Instruction.instantiate ρ))).2 ∧
      (run program).1 = List.replicate 7 none ++ [some (.offsetOverflow (2 ^ 64))] ∧
      ((run program).2.words 1).term.compute ρ = some (256 ^ 31) ∧
      ((run program).2.words 2).term.compute ρ = some (7 * 256 ^ 30 + 256 ^ 29) := by
  intro program ρ
  have h : ∀ i ∈ program, i.Admits ρ := by
    simp only [program, List.forall_mem_cons]
    exact ⟨⟨1, by norm_num, rfl⟩, fun _ _ => ⟨1, by norm_num, rfl⟩, trivial, trivial, trivial,
      trivial, trivial, trivial, fun _ hi => nomatch hi⟩
  obtain ⟨hlog, hend⟩ := run_commutes_with_instantiation program h
  -- the words of the instance are literals, which can be looked at
  have value : ∀ i n : Nat,
      ((run (program.map (Instruction.instantiate ρ))).2.words i).term = .nat n →
        ((run program).2.words i).term.compute ρ = some (n : Int) := by
    intro i n hn
    obtain ⟨m, -, hm, hlit⟩ := hend.words i
    rw [hm, Term.lit.inj (hlit.symm.trans hn)]
  refine ⟨h, hlog, hend, rfl, value 1 (256 ^ 31) ?_, value 2 (7 * 256 ^ 30 + 256 ^ 29) ?_⟩
  · decide +kernel
  · decide +kernel

end SymbolicMachine.Program
