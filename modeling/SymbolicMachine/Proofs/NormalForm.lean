import Mathlib
import SymbolicMachine.Proofs.Size
import SymbolicMachine.Proofs.Word.Tags
import SymbolicMachine.Proofs.Serial.RoundTrip

/-!
# Folding is a normal form

A formula is *built* if nothing but folding put it together (`Term.Built`, `Cond.Built`), and
*normal* if no node in it can be folded away (`Term.Normal`, `Cond.Normal`). Folding returns an
operand, a literal or a node that it found nothing to do at, so what is built is normal; and a
normal formula stays as it is when it is rebuilt. Hence the built formulas are exactly those that
rebuilding leaves alone. Main result: `built_iff_rebuild_eq`.
-/

namespace SymbolicMachine

/-! ## Built formulas -/

mutual
/-- The term comes from calls of the folding constructors only. -/
inductive Term.Built : Term → Prop
  | lit (v : Int) : Term.Built (.lit v)
  | var (name : String) : Term.Built (.var name)
  | popcount {t : Term} : Term.Built t → Term.Built (.mkPopcount t)
  | binary (op : BinaryOp) {l r : Term} :
    Term.Built l → Term.Built r → Term.Built (.mkBinary op l r)
  | modular (op : ModularOp) {x y m : Term} :
    Term.Built x → Term.Built y → Term.Built m → Term.Built (.mkModular op x y m)
  | ite {c : Cond} {t e : Term} :
    Cond.Built c → Term.Built t → Term.Built e → Term.Built (.mkIte c t e)

/-- The condition comes from calls of the folding constructors only. -/
inductive Cond.Built : Cond → Prop
  | lit (b : Bool) : Cond.Built (.lit b)
  | compare (op : Comparison) {l r : Term} :
    Term.Built l → Term.Built r → Cond.Built (.mkCompare op l r)
  | not {c : Cond} : Cond.Built c → Cond.Built c.mkNot
  | and {c d : Cond} : Cond.Built c → Cond.Built d → Cond.Built (.mkAnd c d)
  | or {c d : Cond} : Cond.Built c → Cond.Built d → Cond.Built (.mkOr c d)
end

mutual
theorem Term.built_rebuild (t : Term) : t.rebuild.Built := by
  cases t with
  | lit v => exact .lit v
  | var name => exact .var name
  | popcount t => exact .popcount t.built_rebuild
  | binary op l r => exact .binary op l.built_rebuild r.built_rebuild
  | modular op x y m => exact .modular op x.built_rebuild y.built_rebuild m.built_rebuild
  | ite c t e => exact .ite c.built_rebuild t.built_rebuild e.built_rebuild

theorem Cond.built_rebuild (c : Cond) : c.rebuild.Built := by
  cases c with
  | lit b => exact .lit b
  | compare op l r => exact .compare op l.built_rebuild r.built_rebuild
  | not c => exact .not c.built_rebuild
  | and c d => exact .and c.built_rebuild d.built_rebuild
  | or c d => exact .or c.built_rebuild d.built_rebuild
end

/-! ## Normal formulas -/

mutual
/-- No rule of folding applies to any node of the term. -/
inductive Term.Normal : Term → Prop
  | lit (v : Int) : Term.Normal (.lit v)
  | var (name : String) : Term.Normal (.var name)
  | popcount {t : Term} (ht : Term.Normal t) (hcount : t.lit?.bind Integer.bitCount? = none) :
    Term.Normal (.popcount t)
  | binary {op : BinaryOp} {l r : Term} (hl : Term.Normal l) (hr : Term.Normal r)
    (hfold : op.fold? l r = none) (hsimplify : op.simplify? l r = none) :
    Term.Normal (.binary op l r)
  | modular {op : ModularOp} {x y m : Term} (hx : Term.Normal x) (hy : Term.Normal y)
    (hm : Term.Normal m) (hfold : op.fold? x y m = none)
    (hmodulus : ¬ (m = .lit 0 ∨ m = .lit 1)) : Term.Normal (.modular op x y m)
  | ite {c : Cond} {t e : Term} (hc : Cond.Normal c) (ht : Term.Normal t) (he : Term.Normal e)
    (hopen : ∀ b, c ≠ .lit b) (hne : t ≠ e) : Term.Normal (.ite c t e)

/-- No rule of folding applies to any node of the condition. -/
inductive Cond.Normal : Cond → Prop
  | lit (b : Bool) : Cond.Normal (.lit b)
  | compare {op : Comparison} {l r : Term} (hl : Term.Normal l) (hr : Term.Normal r)
    (hopen : ∀ x y, l = .lit x → r ≠ .lit y) (hne : l ≠ r) : Cond.Normal (.compare op l r)
  | not {c : Cond} (hc : Cond.Normal c) (hopen : ∀ b, c ≠ .lit b) (hdouble : ∀ d, c ≠ .not d) :
    Cond.Normal (.not c)
  | and {c d : Cond} (hc : Cond.Normal c) (hd : Cond.Normal d)
    (hopen : ∀ b, c ≠ .lit b ∧ d ≠ .lit b) (hne : c ≠ d) : Cond.Normal (.and c d)
  | or {c d : Cond} (hc : Cond.Normal c) (hd : Cond.Normal d)
    (hopen : ∀ b, c ≠ .lit b ∧ d ≠ .lit b) (hne : c ≠ d) : Cond.Normal (.or c d)
end

namespace Term.Normal

theorem mkPopcount {t : Term} (ht : t.Normal) : (Term.mkPopcount t).Normal := by
  rw [Term.mkPopcount]
  cases hcount : t.lit?.bind Integer.bitCount? with
  | some v => exact .lit v
  | none => exact .popcount ht hcount

theorem mkBinary (op : BinaryOp) {l r : Term} (hl : l.Normal) (hr : r.Normal) :
    (Term.mkBinary op l r).Normal := by
  rw [Term.mkBinary]
  cases hfold : op.fold? l r with
  | some t =>
    obtain ⟨v, rfl⟩ := op.eq_lit_of_fold? hfold
    exact .lit v
  | none =>
    cases hsimplify : op.simplify? l r with
    | some t =>
      obtain rfl | rfl | rfl := op.simplify?_eq_some hsimplify
      · exact hl
      · exact hr
      · exact .lit 0
    | none => exact .binary hl hr hfold hsimplify

theorem mkModular (op : ModularOp) {x y m : Term} (hx : x.Normal) (hy : y.Normal)
    (hm : m.Normal) : (Term.mkModular op x y m).Normal := by
  rw [Term.mkModular]
  cases hfold : op.fold? x y m with
  | some t =>
    obtain ⟨v, rfl⟩ := op.eq_lit_of_fold? hfold
    exact .lit v
  | none =>
    rw [Option.getD_none]
    split_ifs with hmodulus
    · exact .lit 0
    · exact .modular hx hy hm hfold hmodulus

theorem mkIte {c : Cond} {t e : Term} (hc : c.Normal) (ht : t.Normal) (he : e.Normal) :
    (Term.mkIte c t e).Normal := by
  rw [Term.mkIte.eq_def]
  split
  · split
    · exact ht
    · exact he
  · rename_i hopen
    split_ifs with hte
    · exact ht
    · exact .ite hc ht he hopen fun h => hte (beq_iff_eq.mpr h)

end Term.Normal

namespace Cond.Normal

theorem mkCompare (op : Comparison) {l r : Term} (hl : l.Normal) (hr : r.Normal) :
    (Cond.mkCompare op l r).Normal := by
  rw [Cond.mkCompare.eq_def]
  split
  · exact .lit _
  · rename_i hopen
    split_ifs with hlr
    · exact .lit _
    · exact .compare hl hr hopen fun h => hlr (beq_iff_eq.mpr h)

theorem mkNot {c : Cond} (hc : c.Normal) : c.mkNot.Normal := by
  rw [Cond.mkNot.eq_def]
  split
  · exact .lit _
  · -- what is under a negation is normal itself
    cases hc with
    | not hinner => exact hinner
  · exact .not hc ‹_› ‹_›

theorem mkAnd {c d : Cond} (hc : c.Normal) (hd : d.Normal) : (Cond.mkAnd c d).Normal := by
  rw [Cond.mkAnd]
  split_ifs with habsorb hleft hright hsame
  · exact .lit false
  · exact hd
  · exact hc
  · exact hc
  · refine .and hc hd (fun b => ?_) fun h => hsame (beq_iff_eq.mpr h)
    cases b with
    | false => exact not_or.mp habsorb
    | true => exact ⟨hleft, hright⟩

theorem mkOr {c d : Cond} (hc : c.Normal) (hd : d.Normal) : (Cond.mkOr c d).Normal := by
  rw [Cond.mkOr]
  split_ifs with habsorb hleft hright hsame
  · exact .lit true
  · exact hd
  · exact hc
  · exact hc
  · refine .or hc hd (fun b => ?_) fun h => hsame (beq_iff_eq.mpr h)
    cases b with
    | false => exact ⟨hleft, hright⟩
    | true => exact not_or.mp habsorb

end Cond.Normal

-- The recursion follows how a formula was built, as folding may have dropped parts of it.
mutual
theorem Term.Built.normal : {t : Term} → t.Built → t.Normal
  | _, .lit v => .lit v
  | _, .var name => .var name
  | _, .popcount ht => .mkPopcount ht.normal
  | _, .binary op hl hr => .mkBinary op hl.normal hr.normal
  | _, .modular op hx hy hm => .mkModular op hx.normal hy.normal hm.normal
  | _, .ite hc ht he => .mkIte hc.normal ht.normal he.normal

theorem Cond.Built.normal : {c : Cond} → c.Built → c.Normal
  | _, .lit b => .lit b
  | _, .compare op hl hr => .mkCompare op hl.normal hr.normal
  | _, .not hc => .mkNot hc.normal
  | _, .and hc hd => .mkAnd hc.normal hd.normal
  | _, .or hc hd => .mkOr hc.normal hd.normal
end

/-! ## Rebuilding a normal formula -/

mutual
theorem Term.Normal.rebuild_eq : {t : Term} → t.Normal → t.rebuild = t
  | _, .lit _ => rfl
  | _, .var _ => rfl
  | _, .popcount ht hcount => by
    rw [Term.rebuild, ht.rebuild_eq, Term.mkPopcount, hcount]
    rfl
  | _, .binary hl hr hfold hsimplify => by
    rw [Term.rebuild, hl.rebuild_eq, hr.rebuild_eq, Term.mkBinary, hfold, hsimplify]
    rfl
  | _, .modular hx hy hm hfold hmodulus => by
    rw [Term.rebuild, hx.rebuild_eq, hy.rebuild_eq, hm.rebuild_eq, Term.mkModular, hfold,
      Option.getD_none, if_neg hmodulus]
  | _, .ite hc ht he hopen hne => by
    rw [Term.rebuild, hc.rebuild_eq, ht.rebuild_eq, he.rebuild_eq, Term.mkIte.eq_def]
    split
    · exact absurd rfl (hopen _)
    · exact if_neg (mt beq_iff_eq.mp hne)

theorem Cond.Normal.rebuild_eq : {c : Cond} → c.Normal → c.rebuild = c
  | _, .lit _ => rfl
  | _, .compare hl hr hopen hne => by
    rw [Cond.rebuild, hl.rebuild_eq, hr.rebuild_eq, Cond.mkCompare.eq_def]
    split
    · exact absurd rfl (hopen _ _ rfl)
    · exact if_neg (mt beq_iff_eq.mp hne)
  | _, .not hc hopen hdouble => by
    rw [Cond.rebuild, hc.rebuild_eq, Cond.mkNot.eq_def]
    split
    · exact absurd rfl (hopen _)
    · exact absurd rfl (hdouble _)
    · rfl
  | _, .and hc hd hopen hne => by
    rw [Cond.rebuild, hc.rebuild_eq, hd.rebuild_eq, Cond.mkAnd,
      if_neg (not_or.mpr (hopen false)), if_neg (hopen true).1, if_neg (hopen true).2,
      if_neg (mt beq_iff_eq.mp hne)]
  | _, .or hc hd hopen hne => by
    rw [Cond.rebuild, hc.rebuild_eq, hd.rebuild_eq, Cond.mkOr,
      if_neg (not_or.mpr (hopen true)), if_neg (hopen false).1, if_neg (hopen false).2,
      if_neg (mt beq_iff_eq.mp hne)]
end

theorem Term.built_iff {t : Term} : t.Built ↔ t.rebuild = t :=
  ⟨fun h => h.normal.rebuild_eq, fun h => h ▸ t.built_rebuild⟩

theorem Cond.built_iff {c : Cond} : c.Built ↔ c.rebuild = c :=
  ⟨fun h => h.normal.rebuild_eq, fun h => h ▸ c.built_rebuild⟩

/-! ## Rebuilding and restoring -/

/-- What a formula may have become after it was rebuilt, or stored and read back, any number of times
and in any order. -/
def Reworked {α : Type} (rebuild : α → α) (write : α → Json) (read : Json → Option α) :
    α → α → Prop :=
  Relation.ReflTransGen fun x y => y = rebuild x ∨ read (write x) = some y

def Term.Reworked : Term → Term → Prop :=
  SymbolicMachine.Reworked Term.rebuild Term.toJson Term.ofJson?

def Cond.Reworked : Cond → Cond → Prop :=
  SymbolicMachine.Reworked Cond.rebuild Cond.toJson Cond.ofJson?

theorem Reworked.eq_of_rebuild_eq {α : Type} {rebuild : α → α} {write : α → Json}
    {read : Json → Option α} {x y : α} (h : Reworked rebuild write read x y)
    (hread : ∀ x, read (write x) = some x) (hx : rebuild x = x) : y = x := by
  induction h with
  | refl => rfl
  | tail _ hstep ih =>
    rw [ih] at hstep
    obtain hrebuilt | hrestored := hstep
    · exact hrebuilt.trans hx
    · rw [hread] at hrestored
      exact (Option.some.inj hrestored).symm

theorem Term.Built.reworked_eq {t t' : Term} (h : t.Built) (ht : t.Reworked t') : t' = t :=
  ht.eq_of_rebuild_eq Term.ofJson?_toJson (Term.built_iff.mp h)

theorem Cond.Built.reworked_eq {c c' : Cond} (h : c.Built) (hc : c.Reworked c') : c' = c :=
  hc.eq_of_rebuild_eq Cond.ofJson?_toJson (Cond.built_iff.mp h)

theorem Term.reworked_window_eq {window window' : List Term} (h : ∀ t ∈ window, t.Built)
    (hw : List.Forall₂ Term.Reworked window window') : window' = window := by
  induction hw with
  | nil => rfl
  | cons ht _ ih =>
    rw [(h _ List.mem_cons_self).reworked_eq ht, ih fun t hmem => h t (List.mem_cons_of_mem _ hmem)]

/-- **Folding is a normal form.** What folding makes of any tree has no node left to fold, so it is
left alone when it is rebuilt; and the formulas that rebuilding leaves alone are exactly those that
come from folding constructors only. They stay what they are however often they are rebuilt and
restored. So the check that a word is the window in its tag, the shortcut for equal branches and the
shortcut for equal sides answer as they did before. -/
theorem built_iff_rebuild_eq :
    (∀ t : Term, t.rebuild.Normal ∧ t.rebuild.rebuild = t.rebuild ∧ (t.Built ↔ t.rebuild = t)) ∧
    (∀ c : Cond, c.rebuild.Normal ∧ c.rebuild.rebuild = c.rebuild ∧ (c.Built ↔ c.rebuild = c)) ∧
    (∀ t t' : Term, t.Built → t.Reworked t' → t' = t) ∧
    (∀ c c' : Cond, c.Built → c.Reworked c' → c' = c) ∧
    (∀ (window window' : List Term) (t t' : Term), (∀ b ∈ window, b.Built) → t.Built →
      List.Forall₂ Term.Reworked window window' → t.Reworked t' →
      (Word.mk (.bytes window') t').window? = (Word.mk (.bytes window) t).window?) ∧
    (∀ (c c' : Cond) (t t' e e' : Term), c.Built → t.Built → e.Built →
      c.Reworked c' → t.Reworked t' → e.Reworked e' →
      Term.mkIte c' t' e' = Term.mkIte c t e) ∧
    (∀ (op : Comparison) (l l' r r' : Term), l.Built → r.Built →
      l.Reworked l' → r.Reworked r' → Cond.mkCompare op l' r' = Cond.mkCompare op l r) := by
  refine ⟨fun t => ⟨t.built_rebuild.normal, Term.built_iff.mp t.built_rebuild, Term.built_iff⟩,
    fun c => ⟨c.built_rebuild.normal, Cond.built_iff.mp c.built_rebuild, Cond.built_iff⟩,
    fun t t' h ht => h.reworked_eq ht, fun c c' h hc => h.reworked_eq hc, ?_, ?_, ?_⟩
  · intro window window' t t' hwindow h hw ht
    rw [Term.reworked_window_eq hwindow hw, h.reworked_eq ht]
  · intro c c' t t' e e' hc ht he hc' ht' he'
    rw [hc.reworked_eq hc', ht.reworked_eq ht', he.reworked_eq he']
  · intro op l l' r r' hl hr hl' hr'
    rw [hl.reworked_eq hl', hr.reworked_eq hr']

/-- A residue taken twice as the last byte of a word, and as a side of a choice and of a comparison
with a shift that is too long to be written out. -/
theorem built_iff_rebuild_eq_of_residue :
    let t : Term := .mkBinary .mod (.mkBinary .mod (.var "x") (.lit 256)) (.lit 256)
    let long : Term := .mkBinary .shl (.lit 1) (.lit 70000)
    let c : Cond := .named "p"
    let window := Word.disguise t
    (t.Built ∧ long.Built ∧ c.Built ∧ ∀ b ∈ window, b.Built) ∧
    (t.Reworked t.rebuild ∧ long.Reworked long.rebuild ∧ c.Reworked c.rebuild ∧
      List.Forall₂ Term.Reworked window (window.map Term.rebuild)) ∧
    t.rebuild = t ∧ c.rebuild = c ∧
    (Word.mk (.bytes (window.map Term.rebuild)) t.rebuild).window? = some window ∧
    Term.mkIte c.rebuild t.rebuild long.rebuild = .ite c t long ∧
    Cond.mkCompare .le t.rebuild long.rebuild = .compare .le t long := by
  intro t long c window
  have hx : Term.Built (.var "x") := .var "x"
  have ht : t.Built := .binary .mod (.binary .mod hx (.lit 256)) (.lit 256)
  have hlong : long.Built := .binary .shl (.lit 1) (.lit 70000)
  have hc : c.Built := .not (.compare .eq (.var "p") (.lit 0))
  have hwindow : ∀ b ∈ window, b.Built := by
    intro b hb
    rcases List.mem_append.mp hb with hzero | hlast
    · exact List.eq_of_mem_replicate hzero ▸ .lit 0
    · exact List.mem_singleton.mp hlast ▸ ht
  have hrework : ∀ s : Term, s.Reworked s.rebuild := fun s => .single (.inl rfl)
  have hcrework : c.Reworked c.rebuild := .single (.inl rfl)
  have hwrework : List.Forall₂ Term.Reworked window (window.map Term.rebuild) :=
    List.forall₂_map_right_iff.mpr (List.forall₂_same.mpr fun b _ => hrework b)
  obtain ⟨-, -, hterm, hcond, hcheck, hite, hcompare⟩ := built_iff_rebuild_eq
  exact ⟨⟨ht, hlong, hc, hwindow⟩, ⟨hrework t, hrework long, hcrework, hwrework⟩,
    hterm t _ ht (hrework t), hcond c _ hc hcrework,
    (hcheck window _ t _ hwindow ht hwrework (hrework t)).trans (Word.window?_disguise t),
    hite c _ t _ long _ hc ht hlong hcrework (hrework t) (hrework long),
    hcompare .le t _ long _ ht hlong (hrework t) (hrework long)⟩

end SymbolicMachine
