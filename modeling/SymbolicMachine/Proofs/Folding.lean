import Mathlib
import SymbolicMachine.Formula.Build
import SymbolicMachine.Formula.Eval
import SymbolicMachine.Proofs.Integer

/-!
# Folding keeps values, and literals stay literals

A formula built with folding has the value of the plain formula wherever that has one, for every
constructor (`Term.eval_mkBinary` and its siblings). On literals in the domain of the operator the
result is a literal. `Term.Means` says both at once, so that one chain of steps over an expression
gives its value and its literal.
-/

namespace SymbolicMachine

variable {ρ : Assignment}

/-! ## Values -/

theorem Term.isLit_iff {t : Term} : t.isLit ↔ ∃ v, t = .lit v := by
  cases t <;> simp [isLit, lit?]

theorem Term.eq_of_eval_lit {t : Term} {a x : Int} (ht : t = .lit a) (h : t.eval ρ = some x) :
    x = a := by
  rw [ht] at h
  exact (Option.some.inj h).symm

theorem Term.natLit?_eq_some {t : Term} {n : Nat} : t.natLit? = some n ↔ t = .lit n := by
  cases t with
  | lit v => cases v <;> simp [natLit?, lit?, Int.toNat?]
  | _ => simp [natLit?, lit?]

theorem Term.eq_of_natLit? {t : Term} {m n : Nat} (ht : t.natLit? = some m)
    (h : t.eval ρ = some (n : Int)) : n = m :=
  Int.natCast_inj.mp (eq_of_eval_lit (natLit?_eq_some.mp ht) h)

/-- What an identity leaves of an operation has the value of the operation. -/
theorem BinaryOp.eval_of_simplify? {op : BinaryOp} {l r t : Term} {x y v : Int}
    (h : op.simplify? l r = some t) (hl : l.eval ρ = some x) (hr : r.eval ρ = some y)
    (hv : op.eval x y = some v) : t.eval ρ = some v := by
  cases op with
  | add | or | xor =>
    simp only [simplify?] at h
    split_ifs at h with h1 h2
    · cases h
      simpa [eval, Term.eq_of_eval_lit h1 hl, hr] using hv
    · cases h
      simpa [eval, Term.eq_of_eval_lit h2 hr, hl] using hv
  | sub =>
    simp only [simplify?] at h
    split_ifs at h with h1
    cases h
    simpa [eval, Term.eq_of_eval_lit h1 hr, hl] using hv
  | shl | shr =>
    simp only [simplify?] at h
    split_ifs at h with h1 h2
    · cases h
      simpa [eval, Term.eq_of_eval_lit h1 hr, hl] using hv
    · cases h
      rw [Term.eq_of_eval_lit h2 hl, eval] at hv
      split_ifs at hv
      simpa [Term.eval] using hv
  | mul =>
    simp only [simplify?] at h
    split_ifs at h with h1 h2 h3
    · cases h
      rcases h1 with h1 | h1
      · simpa [eval, Term.eval, Term.eq_of_eval_lit h1 hl] using hv
      · simpa [eval, Term.eval, Term.eq_of_eval_lit h1 hr] using hv
    · cases h
      simpa [eval, Term.eq_of_eval_lit h2 hl, hr] using hv
    · cases h
      simpa [eval, Term.eq_of_eval_lit h3 hr, hl] using hv
  | and =>
    simp only [simplify?] at h
    split_ifs at h with h1
    cases h
    rcases h1 with h1 | h1
    · simpa [eval, Term.eval, Term.eq_of_eval_lit h1 hl] using hv
    · simpa [eval, Term.eval, Term.eq_of_eval_lit h1 hr] using hv
  | div =>
    simp only [simplify?] at h
    split_ifs at h with h1 h2
    · cases h
      simpa [eval, Term.eq_of_eval_lit h1 hr, hl] using hv
    · cases h
      rcases h2 with h2 | h2
      · simpa [eval, Term.eval, Term.eq_of_eval_lit h2 hl] using hv
      · simpa [eval, Term.eval, Term.eq_of_eval_lit h2 hr] using hv
  | rem =>
    simp only [simplify?] at h
    split_ifs at h with h1
    cases h
    rcases h1 with h1 | h1 | h1
    · simpa [eval, Term.eval, Term.eq_of_eval_lit h1 hl] using hv
    · simpa [eval, Term.eval, Term.eq_of_eval_lit h1 hr] using hv
    · simpa [eval, Term.eval, Term.eq_of_eval_lit h1 hr] using hv
  | mod =>
    simp only [simplify?] at h
    split_ifs at h with h1
    · cases h
      rcases h1 with h1 | h1 | h1
      · simpa [eval, Term.eval, Term.eq_of_eval_lit h1 hl] using hv
      · simpa [eval, Term.eval, Term.eq_of_eval_lit h1 hr] using hv
      · simpa [eval, Term.eval, Term.eq_of_eval_lit h1 hr] using hv
    · split at h
      · split_ifs at h with hm
        cases h
        -- the modulus inside is the modulus outside, so the value is reduced already
        rw [beq_iff_eq.mp hm, Term.eval, hr] at hl
        obtain ⟨a, -, ha⟩ := Option.bind_eq_some_iff.mp hl
        cases ha
        rw [beq_iff_eq.mp hm, Term.eval, hr, hl, ← hv, eval, Integer.floorMod_floorMod]
      · cases h
  | testBit => cases h

theorem BinaryOp.eval_of_fold? {op : BinaryOp} {l r t : Term} {x y v : Int}
    (h : op.fold? l r = some t) (hl : l.eval ρ = some x) (hr : r.eval ρ = some y)
    (hv : op.eval x y = some v) : t.eval ρ = some v := by
  unfold fold? at h
  split at h
  · cases hl
    cases hr
    rw [hv] at h
    cases h
    rfl
  · cases h

/-- Everything is zero modulo zero or one. -/
theorem ModularOp.eq_zero_of_eval {op : ModularOp} {x y m v : Int} (hm : m = 0 ∨ m = 1)
    (h : op.eval x y m = some v) : v = 0 := by
  rcases hm with rfl | rfl
  · cases op <;> exact (Option.some.inj h).symm
  · cases op with
    | addMod | mulMod => simpa [eval] using h.symm
    | powMod =>
      simp only [eval, Integer.powMod_eq, Int.emod_one] at h
      split_ifs at h
      · contradiction
      · exact (Option.some.inj h).symm

namespace Term

theorem eval_mkBinary {op : BinaryOp} {l r : Term} {v : Int}
    (h : (binary op l r).eval ρ = some v) : (mkBinary op l r).eval ρ = some v := by
  have h' := h
  rw [eval] at h
  obtain ⟨x, hl, h⟩ := Option.bind_eq_some_iff.mp h
  obtain ⟨y, hr, hv⟩ := Option.bind_eq_some_iff.mp h
  unfold mkBinary
  cases hf : op.fold? l r with
  | some t => exact op.eval_of_fold? hf hl hr hv
  | none =>
    cases hs : op.simplify? l r with
    | some t => exact op.eval_of_simplify? hs hl hr hv
    | none => exact h'

theorem mkBinary_lit {op : BinaryOp} {x y v : Int} (h : op.eval x y = some v) :
    mkBinary op (.lit x) (.lit y) = .lit v := by
  simp [mkBinary, BinaryOp.fold?, h]

theorem eval_mkModular {op : ModularOp} {x y m : Term} {v : Int}
    (h : (modular op x y m).eval ρ = some v) : (mkModular op x y m).eval ρ = some v := by
  have h' := h
  rw [eval] at h
  obtain ⟨a, hx, h⟩ := Option.bind_eq_some_iff.mp h
  obtain ⟨b, hy, h⟩ := Option.bind_eq_some_iff.mp h
  obtain ⟨c, hm, hv⟩ := Option.bind_eq_some_iff.mp h
  unfold mkModular ModularOp.fold?
  split
  · cases hx
    cases hy
    cases hm
    rw [hv]
    rfl
  · rw [Option.getD_none]
    split_ifs with h01
    · rw [ModularOp.eq_zero_of_eval (h01.imp (eq_of_eval_lit · hm) (eq_of_eval_lit · hm)) hv]
      rfl
    · exact h'

theorem mkModular_lit {op : ModularOp} {x y m v : Int} (h : op.eval x y m = some v) :
    mkModular op (.lit x) (.lit y) (.lit m) = .lit v := by
  simp [mkModular, ModularOp.fold?, h]

theorem eval_mkPopcount {t : Term} {v : Int} (h : (popcount t).eval ρ = some v) :
    (mkPopcount t).eval ρ = some v := by
  have h' := h
  rw [eval] at h
  obtain ⟨x, ht, hv⟩ := Option.bind_eq_some_iff.mp h
  unfold mkPopcount
  cases t with
  | lit y =>
    cases ht
    rw [lit?, Option.bind_some, hv]
    rfl
  | _ => exact h'

theorem mkPopcount_lit {x v : Int} (h : Integer.bitCount? x = some v) :
    mkPopcount (.lit x) = .lit v := by
  simp [mkPopcount, lit?, h]

theorem eval_mkIte {c : Cond} {t e : Term} {v : Int} (h : (ite c t e).eval ρ = some v) :
    (mkIte c t e).eval ρ = some v := by
  have h' := h
  rw [eval] at h
  obtain ⟨b, hc, hv⟩ := Option.bind_eq_some_iff.mp h
  unfold mkIte
  split
  · cases hc
    cases b <;> exact hv
  · split_ifs with hte
    · rw [beq_iff_eq.mp hte, ite_self] at hv
      rw [beq_iff_eq.mp hte]
      exact hv
    · exact h'

end Term

theorem Cond.eval_mkCompare {op : Comparison} {l r : Term} {b : Bool}
    (h : (compare op l r).eval ρ = some b) : (mkCompare op l r).eval ρ = some b := by
  have h' := h
  rw [eval] at h
  obtain ⟨x, hl, h⟩ := Option.bind_eq_some_iff.mp h
  obtain ⟨y, hr, hv⟩ := Option.bind_eq_some_iff.mp h
  unfold mkCompare
  split
  · cases hl
    cases hr
    exact hv
  · split_ifs with hlr
    · rw [beq_iff_eq.mp hlr, hr] at hl
      cases hl
      rw [eval, ← hv]
      cases op <;> simp [Comparison.holds]
    · exact h'

theorem Cond.eq_of_eval_lit {c : Cond} {a b : Bool} (hc : c = .lit a) (h : c.eval ρ = some b) :
    b = a := by
  rw [hc] at h
  exact (Option.some.inj h).symm

theorem Cond.eval_mkNot {c : Cond} {b : Bool} (h : (not c).eval ρ = some b) :
    c.mkNot.eval ρ = some b := by
  have h' := h
  rw [eval] at h
  obtain ⟨a, hc, hb⟩ := Option.bind_eq_some_iff.mp h
  unfold mkNot
  split
  · cases hc
    exact hb
  · rw [eval] at hc
    obtain ⟨a', hc, ha⟩ := Option.bind_eq_some_iff.mp hc
    cases ha
    cases hb
    rwa [Bool.not_not]
  · exact h'

theorem Cond.eval_mkAnd {c d : Cond} {b : Bool} (h : (and c d).eval ρ = some b) :
    (mkAnd c d).eval ρ = some b := by
  have h' := h
  rw [eval] at h
  obtain ⟨a, hc, hb⟩ := Option.bind_eq_some_iff.mp h
  unfold mkAnd
  split_ifs with habsorb hleft hright hsame
  · rcases habsorb with hfalse | hfalse
    · rwa [eq_of_eval_lit hfalse hc] at hb
    · rw [hfalse] at hb
      cases a <;> exact hb
  · rwa [eq_of_eval_lit hleft hc] at hb
  · rw [hright] at hb
    rw [hc]
    cases a <;> exact hb
  · rw [← beq_iff_eq.mp hsame, hc] at hb
    rw [hc]
    cases a <;> exact hb
  · exact h'

theorem Cond.eval_mkOr {c d : Cond} {b : Bool} (h : (or c d).eval ρ = some b) :
    (mkOr c d).eval ρ = some b := by
  have h' := h
  rw [eval] at h
  obtain ⟨a, hc, hb⟩ := Option.bind_eq_some_iff.mp h
  unfold mkOr
  split_ifs with habsorb hleft hright hsame
  · rcases habsorb with htrue | htrue
    · rwa [eq_of_eval_lit htrue hc] at hb
    · rw [htrue] at hb
      cases a <;> exact hb
  · rwa [eq_of_eval_lit hleft hc] at hb
  · rw [hright] at hb
    rw [hc]
    cases a <;> exact hb
  · rw [← beq_iff_eq.mp hsame, hc] at hb
    rw [hc]
    cases a <;> exact hb
  · exact h'

/-! ## Values and literals together -/

/-- The term has the value `v`, and it is the literal `v` if `known` holds. -/
structure Term.Means (ρ : Assignment) (known : Prop) (t : Term) (v : Int) : Prop where
  eval : t.eval ρ = some v
  lit : known → t = .lit v

/-- The condition has the truth value `b`, and it is the literal `b` if `known` holds. -/
structure Cond.Means (ρ : Assignment) (known : Prop) (c : Cond) (b : Bool) : Prop where
  eval : c.eval ρ = some b
  lit : known → c = .lit b

variable {known : Prop}

namespace Term.Means

theorem ofLit (v : Int) : (Term.lit v).Means ρ known v := ⟨rfl, fun _ => rfl⟩

theorem ofNat (n : Nat) : (Term.nat n).Means ρ known (n : Int) := ofLit n

theorem congr {t : Term} {v w : Int} (h : t.Means ρ known v) (e : v = w) : t.Means ρ known w :=
  e ▸ h

theorem binary {op : BinaryOp} {l r : Term} {x y v : Int} (hl : l.Means ρ known x)
    (hr : r.Means ρ known y) (hv : op.eval x y = some v) : (mkBinary op l r).Means ρ known v where
  eval := by
    apply eval_mkBinary
    rw [Term.eval, hl.eval, hr.eval]
    exact hv
  lit hk := by
    rw [hl.lit hk, hr.lit hk, mkBinary_lit hv]

theorem modular {op : ModularOp} {t s m : Term} {x y z v : Int} (ht : t.Means ρ known x)
    (hs : s.Means ρ known y) (hm : m.Means ρ known z) (hv : op.eval x y z = some v) :
    (mkModular op t s m).Means ρ known v where
  eval := by
    apply eval_mkModular
    rw [Term.eval, ht.eval, hs.eval, hm.eval]
    exact hv
  lit hk := by
    rw [ht.lit hk, hs.lit hk, hm.lit hk, mkModular_lit hv]

theorem popcount {t : Term} {x v : Int} (ht : t.Means ρ known x)
    (hv : Integer.bitCount? x = some v) : (mkPopcount t).Means ρ known v where
  eval := by
    apply eval_mkPopcount
    rw [Term.eval, ht.eval]
    exact hv
  lit hk := by
    rw [ht.lit hk, mkPopcount_lit hv]

/-- Of a choice only the side that is taken needs a meaning. -/
theorem ite {c : Cond} {t e : Term} {b : Bool} {v : Int} (hc : c.Means ρ known b)
    (ht : b = true → t.Means ρ known v) (he : b = false → e.Means ρ known v) :
    (mkIte c t e).Means ρ known v := by
  have hb : (if b then t else e).Means ρ known v := by
    cases b with
    | true => exact ht rfl
    | false => exact he rfl
  refine ⟨eval_mkIte ?_, fun hk => ?_⟩
  · rw [Term.eval, hc.eval, ← hb.eval]
    cases b <;> rfl
  · rw [hc.lit hk, ← hb.lit hk]
    rfl

end Term.Means

theorem Cond.Means.compare {op : Comparison} {l r : Term} {x y : Int} (hl : l.Means ρ known x)
    (hr : r.Means ρ known y) : (mkCompare op l r).Means ρ known (op.holds x y) where
  eval := by
    apply eval_mkCompare
    rw [Cond.eval, hl.eval, hr.eval]
    rfl
  lit hk := by
    rw [hl.lit hk, hr.lit hk]
    rfl

section

variable {c d : Cond} {a b : Bool}

theorem Cond.Means.not (hc : c.Means ρ known a) : c.mkNot.Means ρ known (!a) where
  eval := by
    apply eval_mkNot
    rw [Cond.eval, hc.eval]
    rfl
  lit hk := by
    rw [hc.lit hk]
    rfl

/-- The right side needs a meaning only if the left side does not decide. -/
theorem Cond.Means.and (hc : c.Means ρ known a) (hd : a = true → d.Means ρ known b) :
    (mkAnd c d).Means ρ known (a && b) := by
  refine ⟨eval_mkAnd ?_, fun hk => ?_⟩
  · rw [Cond.eval, hc.eval]
    cases a with
    | true => exact (hd rfl).eval
    | false => rfl
  · rw [hc.lit hk]
    cases a with
    | true =>
      rw [(hd rfl).lit hk]
      cases b <;> rfl
    | false => rfl

theorem Cond.Means.or (hc : c.Means ρ known a) (hd : a = false → d.Means ρ known b) :
    (mkOr c d).Means ρ known (a || b) := by
  refine ⟨eval_mkOr ?_, fun hk => ?_⟩
  · rw [Cond.eval, hc.eval]
    cases a with
    | true => rfl
    | false => exact (hd rfl).eval
  · rw [hc.lit hk]
    cases a with
    | true => rfl
    | false =>
      rw [(hd rfl).lit hk]
      cases b <;> rfl

end

/-! ## Comparisons of natural numbers -/

section

variable {l r : Term} {m n : Nat}

theorem Cond.Means.lt_nat (hl : l.Means ρ known (m : Int)) (hr : r.Means ρ known (n : Int)) :
    (mkLt l r).Means ρ known (decide (m < n)) := by
  have h : (mkLt l r).Means ρ known _ := .compare hl hr
  simpa [Comparison.holds] using h

theorem Cond.Means.le_nat (hl : l.Means ρ known (m : Int)) (hr : r.Means ρ known (n : Int)) :
    (mkLe l r).Means ρ known (decide (m ≤ n)) := by
  have h : (mkLe l r).Means ρ known _ := .compare hl hr
  simpa [Comparison.holds] using h

theorem Cond.Means.eq_nat (hl : l.Means ρ known (m : Int)) (hr : r.Means ρ known (n : Int)) :
    (mkEq l r).Means ρ known (decide (m = n)) := by
  have h : (mkEq l r).Means ρ known _ := .compare hl hr
  simpa [Comparison.holds, beq_eq_decide] using h

end

end SymbolicMachine
