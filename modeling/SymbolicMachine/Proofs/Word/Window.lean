import Mathlib
import SymbolicMachine.Memory.Buffer
import SymbolicMachine.Proofs.Bytes
import SymbolicMachine.Proofs.Word.Denotation

/-!
# Windows of bytes

Terms that mean bytes place by place (`MeansBytes`) are put together to a term that means the number
in those bytes. A tag is trusted only if it is the formula taken apart, so the window of a word that
means `n` means the bytes of `n` as soon as its elements are bytes at all (`ByteTagged`). The bytes
that a word hands out are therefore its own, whichever way they are found.
-/

namespace SymbolicMachine

variable {ρ : Assignment} {known : Prop}

/-- Lists made from one list are related if the elements made from each element are. -/
theorem forall₂_map {α β γ : Type} {R : β → γ → Prop} {f : α → β} {g : α → γ} {xs : List α}
    (h : ∀ x ∈ xs, R (f x) (g x)) : List.Forall₂ R (xs.map f) (xs.map g) :=
  List.forall₂_map_left_iff.mpr (List.forall₂_map_right_iff.mpr (List.forall₂_same.mpr h))

namespace Term

theorem Means.mono {known' : Prop} {t : Term} {v : Int} (h : t.Means ρ known v)
    (hk : known' → known) : t.Means ρ known' v :=
  ⟨h.eval, fun k => h.lit (hk k)⟩

/-- The terms mean the integers, place by place. -/
abbrev MeansAll (ρ : Assignment) (known : Prop) : List Term → List Int → Prop :=
  List.Forall₂ (Term.Means ρ known)

theorem Means.compute {t : Term} {v : Int} (h : t.Means ρ known v) : t.compute ρ = some v :=
  (compute_eq_eval t).trans h.eval

/-- A literal with a natural number as its value is that number. -/
theorem Means.natLit? {t : Term} {n : Nat} (h : t.Means ρ known (n : Int)) (hl : t.isLit) :
    t.natLit? = some n := by
  obtain ⟨v, hv⟩ := isLit_iff.mp hl
  rw [hv, ← eq_of_eval_lit hv h.eval]
  rfl

theorem Means.of_compute {t : Term} {v : Int} (h : t.compute ρ = some v) :
    t.Means ρ False v :=
  ⟨(compute_eq_eval t).symm.trans h, False.elim⟩

theorem MeansAll.of_compute {terms : List Term} {values : List Int}
    (h : terms.map (Term.compute ρ) = values.map some) : MeansAll ρ False terms values := by
  have hall : List.Forall₂ (fun t v => t.compute ρ = some v) terms values := by
    rw [← List.forall₂_eq_eq_eq, List.forall₂_map_left_iff, List.forall₂_map_right_iff] at h
    exact h
  exact hall.imp fun _ _ ht => .of_compute ht

/-- Literals mean their values under every assignment, and are known to. -/
theorem MeansAll.of_isLit {terms : List Term} (h : ∀ t ∈ terms, t.isLit) :
    ∃ values, MeansAll ρ known terms values := by
  induction terms with
  | nil => exact ⟨[], .nil⟩
  | cons t terms ih =>
    obtain ⟨v, rfl⟩ := isLit_iff.mp (h t List.mem_cons_self)
    obtain ⟨values, hvalues⟩ := ih fun s hs => h s (List.mem_cons_of_mem _ hs)
    exact ⟨v :: values, .cons (.ofLit v) hvalues⟩

/-- The terms mean the bytes, place by place. -/
def MeansBytes (ρ : Assignment) (known : Prop) : List Term → Bytes → Prop :=
  List.Forall₂ fun t b => t.Means ρ known (b.toNat : Int)

end Term

/-- The integer with the given digits in base 256, the first one most significant. -/
def Integer.ofBytes (digits : List Int) : Int := digits.foldl (fun high d => high * 256 + d) 0

theorem Integer.ofBytes_bytes (bytes : Bytes) :
    Integer.ofBytes (bytes.map fun b => (b.toNat : Int)) = (bytes.value : Int) := by
  suffices h : ∀ high : Nat, (bytes.map fun b => (b.toNat : Int)).foldl
      (fun high d => high * 256 + d) (high : Int) =
        ((bytes.foldl (fun high b => 256 * high + b.toNat) high : Nat) : Int) from h 0
  intro high
  induction bytes generalizing high with
  | nil => rfl
  | cons b bytes ih =>
    rw [List.map_cons, List.foldl_cons, List.foldl_cons, ← ih]
    push_cast
    rw [Int.mul_comm]

namespace Term

theorem Means.ofBytes {terms : List Term} {values : List Int} (h : MeansAll ρ known terms values) :
    (Term.ofBytes terms).Means ρ known (Integer.ofBytes values) := by
  suffices hacc : ∀ (high : Term) (x : Int), high.Means ρ known x →
      (terms.foldl (fun high byte => high * .lit 256 + byte) high).Means ρ known
        (values.foldl (fun high d => high * 256 + d) x) from hacc _ _ (.ofLit 0)
  intro high x hx
  induction h generalizing high x with
  | nil => exact hx
  | cons ht _ ih => exact ih _ _ ((hx.binary (.ofLit 256) rfl).binary ht rfl)

namespace MeansBytes

variable {terms terms' : List Term} {bytes bytes' : Bytes}

theorem length_eq (h : MeansBytes ρ known terms bytes) : terms.length = bytes.length :=
  List.Forall₂.length_eq h

theorem mono {known' : Prop} (h : MeansBytes ρ known terms bytes) (hk : known' → known) :
    MeansBytes ρ known' terms bytes :=
  List.Forall₂.imp (fun _ _ ht => ht.mono hk) h

theorem all (h : MeansBytes ρ known terms bytes) :
    MeansAll ρ known terms (bytes.map fun b => (b.toNat : Int)) :=
  List.forall₂_map_right_iff.mpr h

theorem ofBytes (h : MeansBytes ρ known terms bytes) :
    (Term.ofBytes terms).Means ρ known (bytes.value : Int) :=
  (Means.ofBytes h.all).congr (Integer.ofBytes_bytes bytes)

theorem lift (bytes : Bytes) : MeansBytes ρ known bytes.lift bytes :=
  List.forall₂_map_left_iff.mpr (List.forall₂_same.mpr fun b _ => .ofNat b.toNat)

theorem lit (h : MeansBytes ρ known terms bytes) (hk : known) : terms = bytes.lift := by
  induction h with
  | nil => rfl
  | cons ht _ ih => rw [ih, ht.lit hk, Bytes.lift, Bytes.lift, List.map_cons]

theorem append (h : MeansBytes ρ known terms bytes) (h' : MeansBytes ρ known terms' bytes') :
    MeansBytes ρ known (terms ++ terms') (bytes ++ bytes') :=
  List.rel_append h h'

theorem take (h : MeansBytes ρ known terms bytes) (n : Nat) :
    MeansBytes ρ known (terms.take n) (bytes.take n) :=
  List.forall₂_take n h

theorem drop (h : MeansBytes ρ known terms bytes) (n : Nat) :
    MeansBytes ρ known (terms.drop n) (bytes.drop n) :=
  List.forall₂_drop n h

theorem zeros (n : Nat) :
    MeansBytes ρ known (List.replicate n (.lit 0)) (List.replicate n 0) := by
  induction n with
  | zero => exact .nil
  | succ n ih => exact .cons (.ofLit 0) ih

/-- Terms with bytes as values mean some bytes. -/
theorem exists_of_compute (h : ∀ t ∈ terms, ∃ n < 256, t.compute ρ = some ((n : Nat) : Int)) :
    ∃ bytes, MeansBytes ρ False terms bytes := by
  induction terms with
  | nil => exact ⟨[], .nil⟩
  | cons t terms ih =>
    obtain ⟨n, hn, ht⟩ := h t List.mem_cons_self
    obtain ⟨bytes, hbytes⟩ := ih fun s hs => h s (List.mem_cons_of_mem t hs)
    refine ⟨UInt8.ofNat n :: bytes, .cons ⟨?_, False.elim⟩ hbytes⟩
    rw [← Term.compute_eq_eval, ht, UInt8.toNat_ofNat_of_lt' hn]

theorem compute (h : MeansBytes ρ known terms bytes) :
    ∀ t ∈ terms, ∃ n < 256, t.compute ρ = some ((n : Nat) : Int) := by
  intro s hs
  induction h with
  | nil => cases hs
  | cons ht _ ih =>
    rcases List.mem_cons.mp hs with rfl | hs
    · exact ⟨_, UInt8.toNat_lt _, (Term.compute_eq_eval s).trans ht.eval⟩
    · exact ih hs

theorem map_compute (h : MeansBytes ρ known terms bytes) :
    terms.map (Term.compute ρ) = bytes.map fun b => some (b.toNat : Int) := by
  induction h with
  | nil => rfl
  | cons ht _ ih => rw [List.map_cons, List.map_cons, ih, Term.compute_eq_eval, ht.eval]

end MeansBytes

theorem means_lowByte {t : Term} {n : Nat} (h : t.Means ρ known (n : Int)) :
    t.lowByte.Means ρ known ((n % 256 : Nat) : Int) := by
  refine h.binary (.ofNat 255) ?_
  rw [BinaryOp.eval, Integer.and_natCast, Nat.and_two_pow_sub_one_eq_mod n 8]

end Term

namespace Word

variable {w : Word} {n : Nat}

/-- The elements of a window that the word was read from have bytes as values. -/
def ByteTagged (ρ : Assignment) (w : Word) : Prop :=
  ∀ window, w.window? = some window →
    ∀ t ∈ window, ∃ n < 256, t.compute ρ = some ((n : Nat) : Int)

/-- The word means `n`, and it may be shifted and taken apart by its window. -/
structure Holds (ρ : Assignment) (known : Prop) (w : Word) (n : Nat) : Prop
    extends w.Means ρ known n where
  tagged : w.ByteTagged ρ

/-- A word without a tag has no window. -/
theorem Means.holds {t : Term} (h : (ofTerm t).Means ρ known n) : (ofTerm t).Holds ρ known n :=
  ⟨h, fun _ hw => nomatch hw⟩

/-- A window is a tag of the right length that agrees with the formula. -/
theorem window?_eq_some {window : List Term} (h : w.window? = some window) :
    w.origin.bytes? = some window ∧ window.length = 32 ∧ Term.ofBytes window = w.term := by
  rw [window?] at h
  split at h
  · split_ifs at h with hw
    cases h
    exact ⟨‹_›, by simpa [wordBytes] using hw⟩
  · cases h

theorem byteTagged_ofBytes {terms : List Term} {bytes : Bytes}
    (h : Term.MeansBytes ρ known terms bytes) : (ofBytes terms).ByteTagged ρ := by
  intro window hw
  obtain ⟨horigin, -, -⟩ := window?_eq_some hw
  cases horigin
  exact h.compute

theorem holds_ofBytes {terms : List Term} {bytes : Bytes}
    (h : Term.MeansBytes ρ known terms bytes) (hlt : bytes.value < 2 ^ 256) :
    (ofBytes terms).Holds ρ known bytes.value :=
  ⟨⟨h.ofBytes, hlt⟩, byteTagged_ofBytes h⟩

/-- The window of a word that is not a literal holds the bytes of its value. -/
theorem Holds.window {window : List Term} (h : w.Holds ρ known n) (hw : w.window? = some window)
    (hl : ¬ w.term.isLit) :
    Term.MeansBytes ρ known window (Bytes.ofWord n) := by
  obtain ⟨-, hlen, hterm⟩ := window?_eq_some hw
  obtain ⟨bytes, hbytes⟩ := Term.MeansBytes.exists_of_compute (h.tagged window hw)
  have hvalue : (bytes.value : Int) = n := by
    have hv := hbytes.ofBytes.eval
    rw [hterm, h.term.eval] at hv
    exact (Option.some.inj hv).symm
  rw [← Int.natCast_inj.mp hvalue, Bytes.ofWord_value (hbytes.length_eq ▸ hlen)]
  exact hbytes.mono fun k => hl (Term.isLit_iff.mpr ⟨_, h.term.lit k⟩)

/-! ## The bytes of a word -/

theorem digitCount_le (hn : n < 2 ^ 256) : Integer.digitCount 8 n ≤ 32 := by
  unfold Integer.digitCount
  split
  · omega
  · have := (Nat.log2_lt ‹_›).mpr hn
    omega

theorem toBytes_lit (hw : w.term = .lit n) (hn : n < 2 ^ 256) :
    w.toBytes = (Bytes.ofWord n).lift := by
  rw [toBytes, hw]
  simp only [Int.natAbs_natCast, wordBytes, max_eq_left (digitCount_le hn)]
  rw [Bytes.lift, Bytes.ofWord, List.map_map]
  apply List.map_congr_left
  intro d hd
  obtain ⟨i, -, rfl⟩ := List.mem_map.mp (List.mem_reverse.mp hd)
  simp

/-- Bytes taken out of a formula by shifts. -/
theorem means_shiftedBytes (h : w.Means ρ known n) :
    Term.MeansBytes ρ known ((List.range wordBytes).map fun i =>
      (w.term >>> .nat (8 * (wordBytes - 1 - i))).lowByte) (Bytes.ofWord n) := by
  rw [Bytes.ofWord_eq]
  apply forall₂_map
  intro i _
  rw [UInt8.toNat_ofNat_of_lt' (Nat.mod_lt _ (by norm_num))]
  exact Term.means_lowByte (h.term.binary (.ofLit _) (BinaryOp.eval_shr_natCast ..))

theorem toBytes_of_not_isLit (hl : ¬ w.term.isLit) :
    w.toBytes = w.window?.getD ((List.range wordBytes).map fun i =>
      (w.term >>> .nat (8 * (wordBytes - 1 - i))).lowByte) := by
  rw [toBytes]
  split
  · exact absurd (Term.isLit_iff.mpr ⟨_, ‹_›⟩) hl
  · rfl

/-- However the bytes of a word are found, they are the bytes of its value. -/
theorem Holds.toBytes (h : w.Holds ρ known n) :
    Term.MeansBytes ρ known w.toBytes (Bytes.ofWord n) := by
  by_cases hl : w.term.isLit
  · obtain ⟨v, hv⟩ := Term.isLit_iff.mp hl
    rw [toBytes_lit (by rw [hv, Term.eq_of_eval_lit hv h.term.eval]) h.lt]
    exact .lift _
  · rw [toBytes_of_not_isLit hl]
    cases hw : w.window? with
    | some window => exact h.window hw hl
    | none => exact means_shiftedBytes h.toMeans

theorem Holds.length_toBytes (h : w.Holds ρ known n) : w.toBytes.length = 32 := by
  rw [h.toBytes.length_eq, Bytes.length_ofWord]

/-- The bytes of a word put together again give its value. -/
theorem Holds.ofBytes_toBytes (h : w.Holds ρ known n) :
    (ofBytes w.toBytes).Means ρ known n := by
  have hvalue : (Bytes.ofWord n).value = n := by rw [Bytes.value_ofWord, Nat.mod_eq_of_lt h.lt]
  exact ⟨h.toBytes.ofBytes.congr (congrArg _ hvalue), h.lt⟩

/-! ## Words with one formula -/

/-- Two words with one formula, which are one word unless the formula is a literal. -/
def Alike (v w : Word) : Prop := v.term = w.term ∧ (¬ v.term.isLit → v = w)

theorem Alike.rfl : w.Alike w := ⟨Eq.refl _, fun _ => Eq.refl _⟩

theorem Alike.symm {x y : Word} (h : x.Alike y) : y.Alike x :=
  ⟨h.1.symm, fun hl => (h.2 (h.1 ▸ hl)).symm⟩

theorem Alike.trans {x y z : Word} (hxy : x.Alike y) (hyz : y.Alike z) : x.Alike z :=
  ⟨hxy.1.trans hyz.1, fun hl => (hxy.2 hl).trans (hyz.2 (hxy.1 ▸ hl))⟩

/-- Nothing looks at the tag of a literal. -/
theorem Alike.of_lit {x y : Word} {v : Int} (hx : x.term = .lit v) (hy : y.term = .lit v) :
    x.Alike y :=
  ⟨hx.trans hy.symm, fun hl => absurd (Term.isLit_iff.mpr ⟨v, hx⟩) hl⟩

theorem Alike.toBytes_eq {x y : Word} (h : x.Alike y) : x.toBytes = y.toBytes := by
  by_cases hl : x.term.isLit
  · obtain ⟨v, hv⟩ := Term.isLit_iff.mp hl
    have hv' : y.term = .lit v := h.1 ▸ hv
    rw [toBytes, toBytes, hv, hv']
  · rw [h.2 hl]

end Word

end SymbolicMachine
