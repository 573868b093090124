import Mathlib
import SymbolicMachine.Proofs.Program.Concrete
import SymbolicMachine.Proofs.Word.Tags

/-!
# Tags never show

Two words with one formula and faithful tags cannot be told apart: no operation on them
(`Word.Indistinguishable`), nor any program that goes on with one of them or with the other, leads
to different values. Main result: `tags_never_show`. A tag that is not faithful does show
(`unfaithful_tag_shows`).

A program may hold literals with windows of no bytes, because nothing looks at the tag of a literal.
Untagging these (`Word.plain`) gives registers that refine a machine, and the run does not see the
difference (`State.Alike.exec`).
-/

namespace SymbolicMachine

variable {ρ : Assignment}

namespace Program

variable {x y z x' y' z' : Word}

/-! ## Operators -/

theorem Unary.apply_congr (op : Unary) (hx : x.term = x'.term) : op.apply x = op.apply x' := by
  obtain ⟨o, t⟩ := x
  cases hx
  cases op <;> rfl

/-- All operators but the right shift look at formulas only. -/
theorem Binary.apply_congr {op : Binary} (hop : op ≠ .shr) (hx : x.term = x'.term)
    (hy : y.term = y'.term) : op.apply x y = op.apply x' y' := by
  obtain ⟨o, t⟩ := x
  obtain ⟨o', t'⟩ := y
  cases hx
  cases hy
  cases op with
  | shr => exact absurd rfl hop
  | _ => rfl

/-- Of the amount of a shift nothing but the formula counts. -/
theorem Binary.apply_congr_right (op : Binary) (hy : y.term = y'.term) :
    op.apply x y = op.apply x y' := by
  obtain ⟨o, t⟩ := y
  cases hy
  cases op <;> rfl

theorem Ternary.apply_congr (op : Ternary) (hx : x.term = x'.term) (hy : y.term = y'.term)
    (hz : z.term = z'.term) : op.apply x y z = op.apply x' y' z' := by
  obtain ⟨o, t⟩ := x
  obtain ⟨o', t'⟩ := y
  obtain ⟨o'', t''⟩ := z
  cases hx
  cases hy
  cases hz
  cases op <;> rfl

theorem Binary.apply_alike (op : Binary) (hx : x.Alike x') (hy : y.term = y'.term) :
    op.apply x y = op.apply x' y' := by
  by_cases hop : op = .shr
  · subst hop
    exact (hx.shiftRight_eq y).trans (Binary.apply_congr_right .shr hy)
  · exact Binary.apply_congr hop hx.1 hy

/-- A join of equal words keeps the tag of the first. -/
theorem alike_join {c : Cond} (hx : x.Alike x') (hy : y.term = y'.term) :
    (join c x y).Alike (join c x' y') := by
  change (if x.term == y.term then x else _).Alike (if x'.term == y'.term then x' else _)
  rw [hx.1, hy]
  split
  · exact hx
  · exact .rfl

theorem term_join_congr {c : Cond} (hx : x.term = x'.term) (hy : y.term = y'.term) :
    (join c x y).term = (join c x' y').term := by
  change (if x.term == y.term then x else .ofTerm (.mkIte c x.term y.term)).term =
    (if x'.term == y'.term then x' else .ofTerm (.mkIte c x'.term y'.term)).term
  rw [hx, hy]
  split
  · exact hx
  · rfl

end Program

/-! ## Single operations -/

open Program

/-- No operation on the words tells them apart: whatever the other operands are, and whatever a
buffer holds, both results have one value, or none of them has a value. -/
structure Word.Indistinguishable (ρ : Assignment) (x y : Word) : Prop where
  unary : ∀ op : Unary, (op.apply x).term.compute ρ = (op.apply y).term.compute ρ
  binary : ∀ (op : Binary) (z : Word),
    (op.apply x z).term.compute ρ = (op.apply y z).term.compute ρ ∧
      (op.apply z x).term.compute ρ = (op.apply z y).term.compute ρ
  ternary : ∀ (op : Ternary) (z z' : Word),
    (op.apply x z z').term.compute ρ = (op.apply y z z').term.compute ρ ∧
      (op.apply z x z').term.compute ρ = (op.apply z y z').term.compute ρ ∧
      (op.apply z z' x).term.compute ρ = (op.apply z z' y).term.compute ρ
  equation : ∀ z : Word, (x.equation z).compute ρ = (y.equation z).compute ρ ∧
    (z.equation x).compute ρ = (z.equation y).compute ρ
  joined : ∀ (c : Cond) (z : Word),
    (join c x z).term.compute ρ = (join c y z).term.compute ρ ∧
      (join c z x).term.compute ρ = (join c z y).term.compute ρ
  address : (Address.ofWord x).term.compute ρ = (Address.ofWord y).term.compute ρ
  lowByte : x.lowByte.compute ρ = y.lowByte.compute ρ
  toBytes : x.toBytes.map (Term.compute ρ) = y.toBytes.map (Term.compute ρ)
  buffer : (Buffer.ofWord x).ReadsAlike ρ (Buffer.ofWord y)
  writeWord : ∀ (b : Buffer) (offset : Nat),
    Outcome (Buffer.ReadsAlike ρ) (b.writeWord offset x) (b.writeWord offset y)
  writeByte : ∀ (b : Buffer) (offset : Nat), b.writeByte offset x = b.writeByte offset y

theorem Word.Indistinguishable.of_faithful {x y : Word} {n : Nat} (hxy : x.term = y.term)
    (hx : x.Denotes ρ n) (fx : x.Faithful ρ) (fy : y.Faithful ρ) : x.Indistinguishable ρ y where
  unary op := by rw [op.apply_congr hxy]
  binary op z := by
    refine ⟨?_, by rw [op.apply_congr_right hxy]⟩
    by_cases hop : op = .shr
    · subst hop
      exact Word.compute_shiftRight_eq hxy hx fx fy z
    · rw [Binary.apply_congr hop hxy rfl]
  ternary op z z' := by
    refine ⟨?_, ?_, ?_⟩
    · rw [op.apply_congr hxy rfl rfl]
    · rw [op.apply_congr rfl hxy rfl]
    · rw [op.apply_congr rfl rfl hxy]
  equation z := by
    rw [Word.equation, Word.equation, Word.equation, Word.equation, hxy]
    exact ⟨rfl, rfl⟩
  joined c z := by
    rw [term_join_congr hxy (rfl : z.term = z.term), term_join_congr (rfl : z.term = z.term) hxy]
    exact ⟨rfl, rfl⟩
  address := by rw [Address.ofWord, Address.ofWord, hxy]
  lowByte := by rw [Word.lowByte, Word.lowByte, hxy]
  toBytes := by rw [(hx.toBytes fx).map_compute, ((hx.of_term_eq hxy).toBytes fy).map_compute]
  buffer := Buffer.readsAlike_ofWord hxy hx fx fy
  writeWord := Buffer.readsAlike_writeWord hxy hx fx fy
  writeByte b offset := by
    unfold Buffer.writeByte Word.lowByte
    rw [hxy]

namespace Program

variable {x y z x' y' z' : Word}

/-! ## Programs that hold literals with any tags -/

/-- Registers that differ in nothing but the tags of literals. -/
structure State.Alike (s t : State) : Prop where
  words : ∀ i, (s.words i).Alike (t.words i)
  addresses : ∀ i, s.addresses i = t.addresses i
  conds : ∀ i, s.conds i = t.conds i
  buffers : ∀ i, s.buffers i = t.buffers i

namespace State.Alike

variable {s t : State}

theorem setWord {v w : Word} (h : s.Alike t) (dst : Nat) (hw : v.Alike w) :
    State.Alike (s.setWord dst v) (t.setWord dst w) :=
  { h with words := State.Means.rel_update h.words hw dst }

theorem setSame {v w : Word} (h : s.Alike t) (dst : Nat) (hw : v = w) :
    State.Alike (s.setWord dst v) (t.setWord dst w) :=
  h.setWord dst (hw ▸ .rfl)

theorem setAddress {a b : Address} (h : s.Alike t) (dst : Nat) (hab : a = b) :
    State.Alike (s.setAddress dst a) (t.setAddress dst b) :=
  { h with addresses := State.Means.rel_update h.addresses hab dst }

theorem setCond {c d : Cond} (h : s.Alike t) (dst : Nat) (hcd : c = d) :
    State.Alike (s.setCond dst c) (t.setCond dst d) :=
  { h with conds := State.Means.rel_update h.conds hcd dst }

theorem setBuffer {a b : Buffer} (h : s.Alike t) (dst : Nat) (hab : a = b) :
    State.Alike (s.setBuffer dst a) (t.setBuffer dst b) :=
  { h with buffers := State.Means.rel_update h.buffers hab dst }

theorem setWritten {r r' : Except Fault Buffer} (h : s.Alike t) (dst : Nat) (hr : r = r') :
    Outcome State.Alike (r.map (s.setBuffer dst)) (r'.map (t.setBuffer dst)) := by
  subst hr
  cases r with
  | ok b => exact .ok (h.setBuffer dst rfl)
  | error e => exact .error e

/-- One instruction does not see the tag of a literal. -/
theorem exec (h : s.Alike t) (i : Instruction) :
    Outcome State.Alike (Program.exec s i) (Program.exec t i) := by
  cases i with
  | literal dst n => exact .ok (h.setSame dst rfl)
  | unknown dst name => exact .ok (h.setSame dst rfl)
  | unary op dst x => exact .ok (h.setSame dst (op.apply_congr (h.words x).1))
  | binary op dst x y => exact .ok (h.setSame dst (op.apply_alike (h.words x) (h.words y).1))
  | ternary op dst x y m =>
    exact .ok (h.setSame dst (op.apply_congr (h.words x).1 (h.words y).1 (h.words m).1))
  | equation dst x y =>
    exact .ok (h.setCond dst (congrArg₂ Cond.mkEq (h.words x).1 (h.words y).1))
  | toAddress dst x =>
    refine .ok (h.setAddress dst ?_)
    rw [Address.ofWord, Address.ofWord, (h.words x).1]
  | fromAddress dst a => exact .ok (h.setSame dst (congrArg _ (h.addresses a)))
  | knownBytes dst bytes => exact .ok (h.setBuffer dst rfl)
  | symbolicBytes dst elements => exact .ok (h.setBuffer dst rfl)
  | ofWord dst x =>
    refine .ok (h.setBuffer dst ?_)
    unfold Buffer.ofWord Word.natLit?
    rw [(h.words x).1, (h.words x).toBytes_eq]
  | toSymbolic dst b => exact .ok (h.setBuffer dst (congrArg _ (h.buffers b)))
  | take dst b n => exact .ok (h.setBuffer dst (congrArg _ (h.buffers b)))
  | drop dst b n => exact .ok (h.setBuffer dst (congrArg _ (h.buffers b)))
  | append dst b b' => exact .ok (h.setBuffer dst (congrArg₂ _ (h.buffers b) (h.buffers b')))
  | slice dst b offset size =>
    exact .ok (h.setBuffer dst (congrArg (·.slice offset size) (h.buffers b)))
  | readWord dst b offset => exact .ok (h.setSame dst (congrArg (·.readWord offset) (h.buffers b)))
  | readSelector dst b offset =>
    exact .ok (h.setSame dst (congrArg (·.readSelector offset) (h.buffers b)))
  | readWordAt dst b index =>
    refine .ok (h.setSame dst ?_)
    unfold Buffer.readWordAt Buffer.readWordBounded Word.natLit?
    rw [h.buffers b, (h.words index).1]
  | writeWord dst b offset x =>
    refine h.setWritten dst ?_
    rw [h.buffers b, Buffer.writeWord_of_alike (h.words x)]
  | writeByte dst b offset x =>
    refine h.setWritten dst ?_
    unfold Buffer.writeByte Word.lowByte
    rw [h.buffers b, (h.words x).1]
  | writeRange dst b offset source start size =>
    refine h.setWritten dst ?_
    rw [h.buffers b, h.buffers source]
  | joinWords dst c x y =>
    refine .ok (h.setWord dst ?_)
    rw [h.conds c]
    exact alike_join (h.words x) (h.words y).1
  | joinBuffers dst c b b' =>
    refine .ok (h.setBuffer dst ?_)
    rw [h.conds c, h.buffers b, h.buffers b']

end State.Alike

/-- Every register of formulas evaluates to a value of its kind, and tags are faithful. -/
structure State.Valued (ρ : Assignment) (s : State) : Prop where
  words : ∀ i, ∃ n, (s.words i).Denotes ρ n
  faithful : ∀ i, (s.words i).Faithful ρ
  addresses : ∀ i, ∃ n < 2 ^ 160, (s.addresses i).term.compute ρ = some ((n : Nat) : Int)
  conds : ∀ i, ∃ b, (s.conds i).compute ρ = some b
  buffers : ∀ i, ∀ t ∈ (s.buffers i).lift, ∃ n < 256, t.compute ρ = some ((n : Nat) : Int)

/-- The registers stand for those of a machine, once literals have lost their tags. -/
def State.Stands (ρ : Assignment) (s : State) (v : Values) : Prop :=
  ∃ t : State, s.Alike t ∧ t.Means ρ False v

/-- Registers that evaluate to the same values: words and what they hand out, addresses, conditions,
and buffers byte by byte. -/
structure State.SharesValues (ρ : Assignment) (s t : State) : Prop where
  words : ∀ i, ∃ n, (s.words i).Denotes ρ n ∧ (t.words i).Denotes ρ n
  toBytes : ∀ i, (s.words i).toBytes.map (Term.compute ρ) =
    (t.words i).toBytes.map (Term.compute ρ)
  addresses : ∀ i, ∃ n < 2 ^ 160, (s.addresses i).term.compute ρ = some ((n : Nat) : Int) ∧
    (t.addresses i).term.compute ρ = some ((n : Nat) : Int)
  conds : ∀ i, ∃ b, (s.conds i).compute ρ = some b ∧ (t.conds i).compute ρ = some b
  buffers : ∀ i, ∃ bytes : Bytes,
    (s.buffers i).lift.map (Term.compute ρ) = bytes.map (fun b => some (b.toNat : Int)) ∧
      (t.buffers i).lift.map (Term.compute ρ) = bytes.map (fun b => some (b.toNat : Int))

namespace State.Stands

variable {s t : State} {v : Values}

theorem setWord {w : Word} {n : Nat} (h : s.Stands ρ v) (dst : Nat) (hw : w.Denotes ρ n)
    (hf : w.Faithful ρ) : State.Stands ρ (s.setWord dst w) (v.setWord dst n) := by
  obtain ⟨t, hst, ht⟩ := h
  exact ⟨_, hst.setWord dst w.alike_plain, ht.setWord dst (hw.holds_plain hf)⟩

theorem run {program : List Instruction} (h : s.Stands ρ v) (hi : ∀ i ∈ program, i.Admits ρ) :
    (runWith exec program s).1 = (runWith (Values.exec ρ) program v).1 ∧
      State.Stands ρ (runWith exec program s).2 (runWith (Values.exec ρ) program v).2 := by
  obtain ⟨t, hst, ht⟩ := h
  obtain ⟨hlog, halike⟩ := runWith_rel program (fun i _ _ _ h => h.exec i) hst
  obtain ⟨hlog', hmeans⟩ := ht.run hi False.elim
  exact ⟨hlog.trans hlog', _, halike, hmeans⟩

theorem sharesValues (hs : s.Stands ρ v) (ht : t.Stands ρ v) : s.SharesValues ρ t := by
  obtain ⟨s', hss, hs⟩ := hs
  obtain ⟨t', htt, ht⟩ := ht
  refine ⟨fun i => ?_, fun i => ?_, fun i => ?_, fun i => ?_, fun i => ?_⟩
  · exact ⟨v.words i, (hs.words i).denotes.of_term_eq (hss.words i).1.symm,
      (ht.words i).denotes.of_term_eq (htt.words i).1.symm⟩
  · rw [(hss.words i).toBytes_eq, (htt.words i).toBytes_eq, (hs.words i).toBytes.map_compute,
      (ht.words i).toBytes.map_compute]
  · rw [hss.addresses i, htt.addresses i]
    exact ⟨v.addresses i, (hs.addresses i).lt, (hs.addresses i).term.compute,
      (ht.addresses i).term.compute⟩
  · rw [hss.conds i, htt.conds i]
    exact ⟨v.conds i, (Cond.compute_eq_eval _).trans (hs.conds i).eval,
      (Cond.compute_eq_eval _).trans (ht.conds i).eval⟩
  · rw [hss.buffers i, htt.buffers i]
    exact ⟨v.buffers i, (hs.buffers i).map_compute, (ht.buffers i).map_compute⟩

end State.Stands

/-- Registers that refine a machine have values, so what a program leaves has values. -/
theorem State.Means.valued {known : Prop} {s : State} {v : Values} (h : s.Means ρ known v) :
    s.Valued ρ where
  words i := ⟨v.words i, (h.words i).denotes⟩
  faithful i := fun _ => (h.words i).tagged
  addresses i := ⟨v.addresses i, (h.addresses i).lt, (h.addresses i).term.compute⟩
  conds i := ⟨v.conds i, (Cond.compute_eq_eval _).trans (h.conds i).eval⟩
  buffers i := Term.MeansBytes.compute (h.buffers i)

theorem State.Valued.exists_stands {s : State} (h : s.Valued ρ) : ∃ v, s.Stands ρ v := by
  choose words hwords using h.words
  choose addresses haddresses using h.addresses
  choose conds hconds using h.conds
  have hbytes : ∀ i, ∃ bytes, Term.MeansBytes ρ False (s.buffers i).lift bytes :=
    fun i => Term.MeansBytes.exists_of_compute (h.buffers i)
  choose buffers hbuffers using hbytes
  refine ⟨⟨words, addresses, conds, buffers⟩, { s with words := fun i => (s.words i).plain },
    ⟨fun i => (s.words i).alike_plain, fun _ => rfl, fun _ => rfl, fun _ => rfl⟩,
    fun i => (hwords i).holds_plain (h.faithful i), fun i => ?_, fun i => ?_, hbuffers⟩
  · obtain ⟨hlt, hvalue⟩ := haddresses i
    exact ⟨.of_compute hvalue, hlt⟩
  · exact ⟨(Cond.compute_eq_eval _).symm.trans (hconds i), False.elim⟩

/-! ## Main result -/

/-- **Faithful tags never show, and others do.** Let a formula evaluate to a machine word. The word
with this formula under a tag hands out its own bytes if and only if the tag is faithful: it is no
window of 32 elements, or one that put together is not this formula, or the formula is a literal, or
the elements of the window evaluate to bytes. Under any two faithful tags no operation tells the
words apart, and a program that goes on with the one or with the other in a register, from registers
that have values, has the same instructions refused with the same faults and ends with the same
values. -/
theorem tags_never_show {e : Term} {n : Nat} (h : (Word.ofTerm e).Denotes ρ n) :
    (∀ o : Origin, Word.Faithful ρ ⟨o, e⟩ ↔
      (Word.mk o e).toBytes.map (Term.compute ρ) =
        (Word.ofTerm e).toBytes.map (Term.compute ρ)) ∧
    ∀ p q : Origin, Word.Faithful ρ ⟨p, e⟩ → Word.Faithful ρ ⟨q, e⟩ →
      Word.Indistinguishable ρ ⟨p, e⟩ ⟨q, e⟩ ∧
      ∀ (s : State) (dst : Nat) (program : List Instruction), s.Valued ρ →
        (∀ i ∈ program, i.Admits ρ) →
        (runWith exec program (s.setWord dst ⟨p, e⟩)).1 =
            (runWith exec program (s.setWord dst ⟨q, e⟩)).1 ∧
          State.SharesValues ρ (runWith exec program (s.setWord dst ⟨p, e⟩)).2
            (runWith exec program (s.setWord dst ⟨q, e⟩)).2 := by
  have hword : ∀ o : Origin, Word.Denotes ρ ⟨o, e⟩ n := fun _ => h.of_term_eq rfl
  refine ⟨fun o => Word.faithful_iff (hword o), fun p q fp fq => ⟨?_, ?_⟩⟩
  · exact .of_faithful rfl (hword p) fp fq
  · intro s dst program hs hi
    obtain ⟨v, hv⟩ := hs.exists_stands
    obtain ⟨hlog, hend⟩ := (hv.setWord dst (hword p) fp).run hi
    obtain ⟨hlog', hend'⟩ := (hv.setWord dst (hword q) fq).run hi
    exact ⟨hlog.trans hlog'.symm, hend.sharesValues hend'⟩

/-- A word read from memory with an unknown first byte, with and without the tag, shifted and
stored. The shift by one byte moves the value of that byte to the second place. -/
theorem tags_never_show_on_window :
    let window := Term.var "first" :: List.replicate 31 (.lit 0)
    let e := Term.ofBytes window
    let ρ : Assignment := fun _ => some 255
    let program : List Instruction :=
      [.literal 1 8, .binary .shr 2 0 1, .writeWord 0 0 5 2, .readWord 3 0 7]
    (Word.ofTerm e).Denotes ρ (255 * 256 ^ 31) ∧
      Word.Faithful ρ ⟨.bytes window, e⟩ ∧ Word.Faithful ρ ⟨.untagged, e⟩ ∧
      initial.Valued ρ ∧ (∀ i ∈ program, i.Admits ρ) ∧
      Word.Indistinguishable ρ ⟨.bytes window, e⟩ ⟨.untagged, e⟩ ∧
      State.SharesValues ρ (runWith exec program (initial.setWord 0 ⟨.bytes window, e⟩)).2
        (runWith exec program (initial.setWord 0 ⟨.untagged, e⟩)).2 ∧
      ((runWith exec program (initial.setWord 0 ⟨.bytes window, e⟩)).2.words 2).Denotes ρ
        (255 * 256 ^ 30) := by
  intro window e ρ program
  have hbytes : Term.MeansBytes ρ False window (255 :: List.replicate 31 0) :=
    .cons ⟨rfl, False.elim⟩ (Term.MeansBytes.zeros 31)
  have hvalue : Bytes.value (255 :: List.replicate 31 0) = 255 * 256 ^ 31 := by
    rw [Bytes.value_cons, Bytes.value_replicate_zero]
    rfl
  have hw : (Word.ofTerm e).Denotes ρ (255 * 256 ^ 31) :=
    ⟨hvalue ▸ hbytes.ofBytes.compute, by norm_num⟩
  have hp : Word.Faithful ρ ⟨.bytes window, e⟩ := fun _ => Word.byteTagged_ofBytes hbytes
  have hq : Word.Faithful ρ ⟨.untagged, e⟩ := Word.faithful_ofTerm e
  have hs : initial.Valued ρ := (State.Means.initial : State.Means ρ False _ _).valued
  have hi : ∀ i ∈ program, i.Admits ρ := by
    simp only [program, List.forall_mem_cons]
    exact ⟨trivial, trivial, trivial, trivial, fun _ hi => nomatch hi⟩
  obtain ⟨hsame, hrun⟩ := (tags_never_show hw).2 (.bytes window) .untagged hp hq
  have hshared := (hrun initial 0 program hs hi).2
  have untagged : ((runWith exec program (initial.setWord 0 ⟨.untagged, e⟩)).2.words 2).Denotes ρ
      (255 * 256 ^ 30) := .of_eval (by decide +kernel) (by norm_num)
  exact ⟨hw, hp, hq, hs, hi, hsame, hshared, Word.Agree.denotes (hshared.words 2) untagged⟩

/-- A window of zeros with a variable at its end, put together, is the variable. Tagged with this
window, the variable with the value 256 has a right shift by one byte that is zero and not one, and
a last byte that is no byte. -/
theorem unfaithful_tag_shows :
    let x := Term.var "x"
    let tagged := Word.mk (.bytes (List.replicate 31 (.lit 0) ++ [x])) x
    let untagged := Word.mk .untagged x
    let ρ : Assignment := fun _ => some 256
    untagged.Denotes ρ 256 ∧
      (tagged.shiftRight (.lit 8)).term.compute ρ = some 0 ∧
      (untagged.shiftRight (.lit 8)).term.compute ρ = some 1 ∧
      (Padded.get (.lit 0) tagged.toBytes 31).compute ρ = some 256 ∧
      (Padded.get (.lit 0) untagged.toBytes 31).compute ρ = some 0 := by
  intro x tagged untagged ρ
  have hl : ¬ x.isLit := by decide
  have hx : untagged.Denotes ρ 256 := ⟨Term.compute_eq_eval x, by norm_num⟩
  have hold : untagged.Holds ρ False 256 := (hx.means False.elim).untagged.holds
  refine ⟨hx, ?_, ?_, ?_, ?_⟩
  · rw [show (tagged.shiftRight (.lit 8)).term = .lit 0 from Word.term_shiftRight_disguise hl]
    exact Term.compute_eq_eval (.lit 0)
  · rw [(Word.holds_shiftRight hold (Word.means_lit 8)).denotes.compute]
    norm_num
  · rw [show tagged.toBytes = Word.disguise x from Word.toBytes_disguise hl]
    exact Term.compute_eq_eval x
  · rw [(Buffer.means_get_toBytes hold (show 31 < 32 by norm_num)).compute]
    norm_num

end Program
end SymbolicMachine
