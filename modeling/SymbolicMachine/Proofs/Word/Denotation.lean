import Mathlib
import SymbolicMachine.Address
import SymbolicMachine.Proofs.Evaluation
import SymbolicMachine.Proofs.Folding

/-!
# What words and addresses denote

* `Word.Denotes ρ w n`: under the assignment `ρ` the formula of `w` evaluates to the machine word
  `n`;
* `Word.Computes ρ operands w n`: moreover the formula of `w` is the literal `n` if those of all
  operands are literals;
* `Word.Agree ρ v w`: both words denote the same machine word;
* `Word.Means ρ known w n`: the form in which all of these are proved, with any proposition `known`
  under which the formula is a literal.

Tags are not mentioned, so that all of them hold of a word whatever its tag. Addresses have no more
than a meaning, `Address.Means`.
-/

namespace SymbolicMachine

variable {ρ : Assignment} {known : Prop}

theorem wordModulus_eq : wordModulus = ((2 ^ 256 : Nat) : Int) := rfl

theorem wordMask_eq : wordMask = ((2 ^ 256 - 1 : Nat) : Int) := rfl

theorem signBit_eq : signBit = ((2 ^ 255 : Nat) : Int) := rfl

theorem addressModulus_eq : addressModulus = ((2 ^ 160 : Nat) : Int) := rfl

namespace Word

/-- The formula of the word evaluates to the machine word `n`. -/
structure Denotes (ρ : Assignment) (w : Word) (n : Nat) : Prop where
  compute : w.term.compute ρ = some (n : Int)
  lt : n < 2 ^ 256

/-- The formula of the result evaluates to the machine word `n`, and it is that literal if the
formulas of all operands are literals. -/
structure Computes (ρ : Assignment) (operands : List Word) (result : Word) (n : Nat) : Prop
    extends result.Denotes ρ n where
  lit : (∀ w ∈ operands, w.term.isLit) → result.term = .lit n

/-- Under the assignment `ρ` the formulas of both words evaluate to the same machine word. -/
def Agree (ρ : Assignment) (v w : Word) : Prop := ∃ n, v.Denotes ρ n ∧ w.Denotes ρ n

/-- The formula of the word has the value `n`, a machine word, and is the literal `n` if `known`
holds. -/
structure Means (ρ : Assignment) (known : Prop) (w : Word) (n : Nat) : Prop where
  term : w.term.Means ρ known (n : Int)
  lt : n < 2 ^ 256

variable {w : Word} {n : Nat}

theorem Denotes.means (h : w.Denotes ρ n) (hk : known → w.term.isLit) : w.Means ρ known n := by
  have hn : w.term.eval ρ = some (n : Int) := by rw [← Term.compute_eq_eval, h.compute]
  refine ⟨⟨hn, fun k => ?_⟩, h.lt⟩
  obtain ⟨v, hv⟩ := Term.isLit_iff.mp (hk k)
  rw [hv, Term.eq_of_eval_lit hv hn]

/-- The meaning of a word whose formula may or may not be a literal. -/
theorem Denotes.means_value (h : w.Denotes ρ n) : w.Means ρ False n := h.means False.elim

theorem Denotes.means_of_mem {operands : List Word} (h : w.Denotes ρ n) (hw : w ∈ operands) :
    w.Means ρ (∀ v ∈ operands, v.term.isLit) n :=
  h.means fun hk => hk w hw

theorem Denotes.of_eval (h : w.term.eval ρ = some (n : Int)) (hn : n < 2 ^ 256) : w.Denotes ρ n :=
  ⟨(Term.compute_eq_eval _).trans h, hn⟩

/-- A value of the second word is one of the first. -/
theorem Agree.denotes {v : Word} (h : Agree ρ v w) (hw : w.Denotes ρ n) : v.Denotes ρ n := by
  obtain ⟨m, hv, hm⟩ := h
  have hmn : (m : Int) = n := Option.some_inj.mp (hm.compute.symm.trans hw.compute)
  exact Int.natCast_inj.mp hmn ▸ hv

namespace Means

theorem denotes (h : w.Means ρ known n) : w.Denotes ρ n := .of_eval h.term.eval h.lt

theorem agree {v : Word} (hv : v.Means ρ known n) (hw : w.Means ρ known n) : Agree ρ v w :=
  ⟨n, hv.denotes, hw.denotes⟩

theorem computes {operands : List Word} (h : w.Means ρ (∀ v ∈ operands, v.term.isLit) n) :
    Computes ρ operands w n :=
  ⟨h.denotes, h.term.lit⟩

theorem untagged (h : w.Means ρ known n) : (ofTerm w.term).Means ρ known n := ⟨h.term, h.lt⟩

theorem congr {m : Nat} (h : w.Means ρ known m) (e : m = n) : w.Means ρ known n := e ▸ h

end Means

/-! ## Staying in range -/

/-- The machine word that stands for an integer, which may be negative or too large. -/
def ofInteger (x : Int) : Nat := (x % 2 ^ 256).toNat

theorem ofInteger_natCast (n : Nat) : ofInteger n = n % 2 ^ 256 := by
  rw [ofInteger]
  norm_cast

theorem natCast_ofInteger (x : Int) : (ofInteger x : Int) = x % 2 ^ 256 :=
  Int.toNat_of_nonneg (Int.emod_nonneg x (by norm_num))

theorem ofInteger_lt (x : Int) : ofInteger x < 2 ^ 256 := by
  have h := Int.emod_lt_of_pos x (show (0 : Int) < 2 ^ 256 by norm_num)
  rw [← natCast_ofInteger] at h
  exact_mod_cast h

/-- A machine word as its bits. -/
theorem toNat_bits (h : n < 2 ^ 256) : (BitVec.ofNat 256 n).toNat = n := by
  rw [BitVec.toNat_ofNat, Nat.mod_eq_of_lt h]

variable {t : Term}

theorem means_wrap {x : Int} (h : t.Means ρ known x) :
    (ofTerm t.wrap).Means ρ known (ofInteger x) := by
  refine ⟨?_, ofInteger_lt x⟩
  rw [natCast_ofInteger]
  refine h.binary (.ofLit wordModulus) ?_
  rw [BinaryOp.eval, Integer.floorMod_of_pos _ (by decide)]
  rfl

theorem means_masked (h : t.Means ρ known (n : Int)) :
    (ofTerm t.masked).Means ρ known (n % 2 ^ 256) := by
  refine ⟨h.binary (.ofLit wordMask) ?_, Nat.mod_lt _ (by norm_num)⟩
  rw [BinaryOp.eval, wordMask_eq, Integer.and_natCast, Nat.and_two_pow_sub_one_eq_mod]

theorem means_masked_of_lt (h : t.Means ρ known (n : Int)) (hn : n < 2 ^ 256) :
    (ofTerm t.masked).Means ρ known n :=
  (means_masked h).congr (Nat.mod_eq_of_lt hn)

theorem means_lit (m : Nat) : (lit m).Means ρ known (m % 2 ^ 256) :=
  (means_wrap (.ofNat m)).congr (ofInteger_natCast m)

theorem denotes_lit (h : n < 2 ^ 256) : (lit n).Denotes ρ n :=
  ((means_lit n).congr (Nat.mod_eq_of_lt h) : (lit n).Means ρ False n).denotes

theorem denotes_named {name : String} (h : ρ name = some (n : Int)) (hn : n < 2 ^ 256) :
    (named name).Denotes ρ n :=
  .of_eval h hn

/-- A choice between words; only the one that is taken needs a meaning. -/
theorem means_ite {c : Cond} {e : Term} {p : Prop} [Decidable p] {m : Nat}
    (hc : c.Means ρ known (decide p)) (ht : p → (ofTerm t).Means ρ known m)
    (he : ¬ p → (ofTerm e).Means ρ known n) :
    (ofTerm (.mkIte c t e)).Means ρ known (if p then m else n) := by
  by_cases hp : p
  · have hm := ht hp
    rw [if_pos hp]
    refine ⟨.ite hc (fun _ => hm.term) (fun h => ?_), hm.lt⟩
    exact absurd hp (of_decide_eq_false h)
  · have hn := he hp
    rw [if_neg hp]
    refine ⟨.ite hc (fun h => ?_) (fun _ => hn.term), hn.lt⟩
    exact absurd (of_decide_eq_true h) hp

theorem means_zero : (ofTerm (.lit 0)).Means ρ known 0 := ⟨.ofLit 0, by norm_num⟩

theorem means_one : (ofTerm (.lit 1)).Means ρ known 1 := ⟨.ofLit 1, by norm_num⟩

/-- A condition as a word. -/
theorem means_ofCond {c : Cond} {p : Prop} [Decidable p] (h : c.Means ρ known (decide p)) :
    (ofCond c).Means ρ known (if p then 1 else 0) :=
  means_ite h (fun _ => means_one) fun _ => means_zero

end Word

/-! ## Addresses -/

namespace Address

variable {a : Address} {n : Nat}

/-- The formula of the address has the value `n`, an address, and is the literal `n` if `known`
holds. -/
structure Means (ρ : Assignment) (known : Prop) (a : Address) (n : Nat) : Prop where
  term : a.term.Means ρ known (n : Int)
  lt : n < 2 ^ 160

theorem means_ofWord {w : Word} (h : w.Means ρ known n) :
    (ofWord w).Means ρ known (n % 2 ^ 160) := by
  refine ⟨h.term.binary (.ofLit addressModulus) ?_, Nat.mod_lt _ (by norm_num)⟩
  rw [addressModulus_eq, BinaryOp.eval_mod, if_neg (by norm_num)]

theorem Means.toWord (h : a.Means ρ known n) : a.toWord.Means ρ known n :=
  ⟨h.term, h.lt.trans (by norm_num)⟩

end Address

end SymbolicMachine
