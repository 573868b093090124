import Mathlib
import SymbolicMachine.Formula.Build
import SymbolicMachine.Proofs.Numeral

/-!
# Texts of formulas are read back

Terms and conditions are written in one grammar: words, negations, operators between two phrases in
parentheses, and calls with one or three arguments (`Phrase`). A phrase that is followed by nothing
or by something that ends words can be told from its text, and so can what follows it
(`Phrase.write_inj`). It does not matter which of the two sorts it comes from, so that a comparison
and a connective, which begin alike, are told apart at their operators. The phrase of a formula says
which formula of its sort it is, as long as no name looks like a literal (`Term.phrase_inj`). Main
result: `text_unambiguous`.
-/

namespace SymbolicMachine

/-! ## Words -/

/-- Characters that are no part of a word. -/
def marks : List Char := [' ', '(', ')', ',', '!']

def IsWord (w : List Char) : Prop := w ≠ [] ∧ ∀ c ∈ w, c ∉ marks

/-- A text that begins with a mark, if with anything. -/
def AtMark (rest : List Char) : Prop := ∀ c cs, rest = c :: cs → c ∈ marks

/-- A text that may follow a phrase. -/
def Follows (rest : List Char) : Prop := ∀ c cs, rest = c :: cs → c = ' ' ∨ c = ')' ∨ c = ','

theorem follows_nil : Follows [] := fun _ _ h => by cases h

theorem follows_space (rest : List Char) : Follows (' ' :: rest) :=
  fun _ _ h => .inl (List.cons.inj h).1.symm

theorem follows_close (rest : List Char) : Follows (')' :: rest) :=
  fun _ _ h => .inr (.inl (List.cons.inj h).1.symm)

theorem follows_comma (rest : List Char) : Follows (',' :: rest) :=
  fun _ _ h => .inr (.inr (List.cons.inj h).1.symm)

theorem not_follows_open (rest : List Char) : ¬ Follows ('(' :: rest) := fun h => by
  rcases h _ _ rfl with h | h | h <;> cases h

theorem Follows.atMark {rest : List Char} (h : Follows rest) : AtMark rest := by
  intro c cs hrest
  rcases h c cs hrest with rfl | rfl | rfl <;> decide

theorem atMark_open (rest : List Char) : AtMark ('(' :: rest) := by
  intro c cs h
  rw [← (List.cons.inj h).1]
  decide

variable {w w' rest rest' : List Char}

theorem IsWord.append_ne {c : Char} (hw : IsWord w) (hc : c ∈ marks) : w ++ rest ≠ c :: rest' := by
  obtain ⟨hne, hw⟩ := hw
  cases w with
  | nil => exact absurd rfl hne
  | cons d w =>
    intro h
    rw [List.cons_append] at h
    exact hw d List.mem_cons_self ((List.cons.inj h).1 ▸ hc)

/-- A word ends where the first mark is. -/
theorem append_inj_of_atMark (hw : ∀ c ∈ w, c ∉ marks) (hw' : ∀ c ∈ w', c ∉ marks)
    (hrest : AtMark rest) (hrest' : AtMark rest') (h : w ++ rest = w' ++ rest') :
    w = w' ∧ rest = rest' := by
  induction w generalizing w' with
  | nil =>
    cases w' with
    | nil => exact ⟨rfl, h⟩
    | cons d w' => exact absurd (hrest d _ h) (hw' d List.mem_cons_self)
  | cons c w ih =>
    cases w' with
    | nil => exact absurd (hrest' c _ h.symm) (hw c List.mem_cons_self)
    | cons d w' =>
      obtain ⟨hhead, htail⟩ := List.cons.inj h
      obtain ⟨hword, hrests⟩ := ih (fun e he => hw e (List.mem_cons_of_mem _ he))
        (fun e he => hw' e (List.mem_cons_of_mem _ he)) htail
      exact ⟨by rw [hhead, hword], hrests⟩

theorem IsWord.append_inj (hw : IsWord w) (hw' : IsWord w') (hrest : AtMark rest)
    (hrest' : AtMark rest') (h : w ++ rest = w' ++ rest') : w = w' ∧ rest = rest' :=
  append_inj_of_atMark hw.2 hw'.2 hrest hrest' h

/-! ## Phrases -/

/-- What texts are made of. -/
inductive Phrase
  | word (w : List Char)
  | negated (p : Phrase)
  | between (op : List Char) (l r : Phrase)
  | call (f : List Char) (p : Phrase)
  | callThree (f : List Char) (p q r : Phrase)

namespace Phrase

/-- The characters of a phrase, followed by `rest`. -/
def write (rest : List Char) : Phrase → List Char
  | word w => w ++ rest
  | negated p => '!' :: p.write rest
  | between op l r => '(' :: l.write (' ' :: (op ++ ' ' :: r.write (')' :: rest)))
  | call f p => f ++ '(' :: p.write (')' :: rest)
  | callThree f p q r =>
    f ++ '(' :: p.write (',' :: ' ' :: q.write (',' :: ' ' :: r.write (')' :: rest)))

/-- All words, operators and functions of a phrase are words. -/
def Spelled : Phrase → Prop
  | word w => IsWord w
  | negated p => p.Spelled
  | between op l r => IsWord op ∧ l.Spelled ∧ r.Spelled
  | call f p => IsWord f ∧ p.Spelled
  | callThree f p q r => IsWord f ∧ p.Spelled ∧ q.Spelled ∧ r.Spelled

variable {p q : Phrase}

/-! What a text begins with says what kind of phrase it is the text of. -/

theorem eq_negated_of_write (hq : q.Spelled) (h : '!' :: rest = q.write rest') :
    ∃ p, q = negated p ∧ rest = p.write rest' := by
  have hmark : '!' ∈ marks := by decide
  cases q with
  | negated p => exact ⟨p, rfl, (List.cons.inj h).2⟩
  | between op l r => cases (List.cons.inj h).1
  | word w => exact absurd h.symm (hq.append_ne hmark)
  | call f p => exact absurd h.symm (hq.1.append_ne hmark)
  | callThree f p q r => exact absurd h.symm (hq.1.append_ne hmark)

theorem eq_between_of_write (hq : q.Spelled) (h : '(' :: rest = q.write rest') :
    ∃ op l r, q = between op l r ∧
      rest = l.write (' ' :: (op ++ ' ' :: r.write (')' :: rest'))) := by
  have hmark : '(' ∈ marks := by decide
  cases q with
  | between op l r => exact ⟨op, l, r, rfl, (List.cons.inj h).2⟩
  | negated p => cases (List.cons.inj h).1
  | word w => exact absurd h.symm (hq.append_ne hmark)
  | call f p => exact absurd h.symm (hq.1.append_ne hmark)
  | callThree f p q r => exact absurd h.symm (hq.1.append_ne hmark)

/-- A word at the beginning is all of the phrase, or a function that is called. -/
theorem eq_of_write_word (hw : IsWord w) (hrest : AtMark rest) (hq : q.Spelled)
    (hrest' : Follows rest') (h : w ++ rest = q.write rest') :
    (q = word w ∧ rest = rest') ∨
    (∃ p, q = call w p ∧ rest = '(' :: p.write (')' :: rest')) ∨
    ∃ p₁ p₂ p₃, q = callThree w p₁ p₂ p₃ ∧
      rest = '(' :: p₁.write (',' :: ' ' :: p₂.write (',' :: ' ' :: p₃.write (')' :: rest'))) := by
  cases q with
  | negated p => exact absurd h (hw.append_ne (by decide))
  | between op l r => exact absurd h (hw.append_ne (by decide))
  | word v =>
    obtain ⟨rfl, rfl⟩ := hw.append_inj hq hrest hrest'.atMark h
    exact .inl ⟨rfl, rfl⟩
  | call f p =>
    obtain ⟨rfl, rfl⟩ := hw.append_inj hq.1 hrest (atMark_open _) h
    exact .inr (.inl ⟨p, rfl, rfl⟩)
  | callThree f p₁ p₂ p₃ =>
    obtain ⟨rfl, rfl⟩ := hw.append_inj hq.1 hrest (atMark_open _) h
    exact .inr (.inr ⟨p₁, p₂, p₃, rfl, rfl⟩)

/-- A phrase is read back from its text, and so is what follows. The induction is on one of two
phrases with the same text; where it begins says what the other one is. -/
theorem write_inj (hp : p.Spelled) (hq : q.Spelled) (hrest : Follows rest)
    (hrest' : Follows rest') (h : p.write rest = q.write rest') : p = q ∧ rest = rest' := by
  induction p generalizing q rest rest' with
  | word w =>
    obtain ⟨rfl, rfl⟩ | ⟨p, -, rfl⟩ | ⟨p₁, p₂, p₃, -, rfl⟩ :=
      eq_of_write_word hp hrest.atMark hq hrest' h
    · exact ⟨rfl, rfl⟩
    · exact absurd hrest (not_follows_open _)
    · exact absurd hrest (not_follows_open _)
  | negated p ih =>
    obtain ⟨q', rfl, hinside⟩ := eq_negated_of_write hq h
    have hq' : q'.Spelled := hq
    obtain ⟨rfl, hend⟩ := ih hp hq' hrest hrest' hinside
    exact ⟨rfl, hend⟩
  | between op l r ihl ihr =>
    obtain ⟨op', l', r', rfl, hinside⟩ := eq_between_of_write hq h
    obtain ⟨hop, hl, hr⟩ := hp
    obtain ⟨hop', hl', hr'⟩ := hq
    obtain ⟨rfl, hspace⟩ := ihl hl hl' (follows_space _) (follows_space _) hinside
    obtain ⟨rfl, hspace'⟩ := hop.append_inj hop' (follows_space _).atMark
      (follows_space _).atMark (List.cons.inj hspace).2
    obtain ⟨rfl, hclose⟩ := ihr hr hr' (follows_close _) (follows_close _)
      (List.cons.inj hspace').2
    exact ⟨rfl, (List.cons.inj hclose).2⟩
  | call f p ih =>
    obtain ⟨hf, hp⟩ := hp
    obtain ⟨-, rfl⟩ | ⟨q, rfl, hargs⟩ | ⟨q₁, q₂, q₃, rfl, hargs⟩ :=
      eq_of_write_word hf (atMark_open _) hq hrest' h
    · exact absurd hrest' (not_follows_open _)
    · obtain ⟨rfl, hclose⟩ := ih hp hq.2 (follows_close _) (follows_close _)
        (List.cons.inj hargs).2
      exact ⟨rfl, (List.cons.inj hclose).2⟩
    · obtain ⟨-, hclose⟩ := ih hp hq.2.1 (follows_close _) (follows_comma _)
        (List.cons.inj hargs).2
      cases (List.cons.inj hclose).1
  | callThree f p₁ p₂ p₃ ih₁ ih₂ ih₃ =>
    obtain ⟨hf, hp₁, hp₂, hp₃⟩ := hp
    obtain ⟨-, rfl⟩ | ⟨q, rfl, hargs⟩ | ⟨q₁, q₂, q₃, rfl, hargs⟩ :=
      eq_of_write_word hf (atMark_open _) hq hrest' h
    · exact absurd hrest' (not_follows_open _)
    · obtain ⟨-, hcomma⟩ := ih₁ hp₁ hq.2 (follows_comma _) (follows_close _)
        (List.cons.inj hargs).2
      cases (List.cons.inj hcomma).1
    · obtain ⟨-, hq₁, hq₂, hq₃⟩ := hq
      obtain ⟨rfl, hcomma⟩ := ih₁ hp₁ hq₁ (follows_comma _) (follows_comma _)
        (List.cons.inj hargs).2
      obtain ⟨rfl, hcomma'⟩ := ih₂ hp₂ hq₂ (follows_comma _) (follows_comma _)
        (List.cons.inj (List.cons.inj hcomma).2).2
      obtain ⟨rfl, hclose⟩ := ih₃ hp₃ hq₃ (follows_close _) (follows_close _)
        (List.cons.inj (List.cons.inj hcomma').2).2
      exact ⟨rfl, (List.cons.inj hclose).2⟩

theorem eq_of_write_nil (hp : p.Spelled) (hq : q.Spelled) (h : p.write [] = q.write []) :
    p = q :=
  (write_inj hp hq follows_nil follows_nil h).1

end Phrase

/-! ## Names -/

/-- A letter or an underscore, and after it no marks: letters, digits and underscores, and more. -/
def IsName (name : String) : Prop :=
  ∃ c cs, name.toList = c :: cs ∧ (c.isAlpha ∨ c = '_') ∧ ∀ d ∈ cs, d ∉ marks

theorem notMem_marks_of_isAlphanum {c : Char} (h : c.isAlphanum ∨ c = '_') : c ∉ marks := by
  intro hc
  simp only [marks, List.mem_cons, List.not_mem_nil, or_false] at hc
  rcases hc with rfl | rfl | rfl | rfl | rfl <;> revert h <;> decide

theorem notMem_marks_of_isAlpha {c : Char} (h : c.isAlpha ∨ c = '_') : c ∉ marks :=
  notMem_marks_of_isAlphanum (h.imp_left fun h => by rw [Char.isAlphanum, h, Bool.true_or])

theorem IsName.isWord {name : String} (h : IsName name) : IsWord name.toList := by
  obtain ⟨c, cs, hname, hc, hcs⟩ := h
  rw [hname]
  refine ⟨List.cons_ne_nil _ _, fun d hd => ?_⟩
  rcases List.mem_cons.mp hd with rfl | hd
  · exact notMem_marks_of_isAlpha hc
  · exact hcs d hd

/-- Identifiers are names, those that are also words of the texts among them. -/
theorem isName_ofList (c : Char) (cs : List Char) (hc : c.isAlpha ∨ c = '_')
    (hcs : ∀ d ∈ cs, d.isAlphanum ∨ d = '_') : IsName (String.ofList (c :: cs)) :=
  ⟨c, cs, String.toList_ofList, hc, fun d hd => notMem_marks_of_isAlphanum (hcs d hd)⟩

theorem isWord_writeLiteral (v : Int) : IsWord (writeLiteral v) := by
  have hdigit : ∀ d < 16, d.digitChar ∉ marks := by decide
  refine ⟨writeLiteral_ne_nil, fun c hc => ?_⟩
  obtain rfl | rfl | ⟨d, hd, rfl⟩ := mem_writeLiteral hc
  · decide
  · decide
  · exact hdigit d hd

/-- No literal begins with a letter or an underscore. -/
theorem IsName.ne_writeLiteral {name : String} (h : IsName name) (v : Int) :
    name.toList ≠ writeLiteral v := by
  have hdigit : ∀ d < 10, ¬ (d.digitChar.isAlpha ∨ d.digitChar = '_') := by decide
  obtain ⟨c, cs, hname, hc, -⟩ := h
  intro hv
  obtain rfl | ⟨d, hd, rfl⟩ := digit_or_minus_of_head (hv.symm.trans hname)
  · revert hc
    decide
  · exact hdigit d hd hc

/-! ## Formulas -/

mutual
/-- The variables of a term, each as often as it is used. -/
def Term.names : Term → List String
  | .lit _ => []
  | .var name => [name]
  | .popcount t => t.names
  | .binary _ l r => l.names ++ r.names
  | .modular _ x y m => x.names ++ y.names ++ m.names
  | .ite c t e => c.names ++ t.names ++ e.names

def Cond.names : Cond → List String
  | .lit _ => []
  | .compare _ l r => l.names ++ r.names
  | .not c => c.names
  | .and c d | .or c d => c.names ++ d.names
end

mutual
/-- The phrase that a term is written as. -/
def Term.phrase : Term → Phrase
  | .lit v => .word (writeLiteral v)
  | .var name => .word name.toList
  | .popcount t => .call "popcount".toList t.phrase
  | .binary op l r => .between op.symbol.toList l.phrase r.phrase
  | .modular op x y m => .callThree op.name.toList x.phrase y.phrase m.phrase
  | .ite c t e => .callThree "ite".toList c.phrase t.phrase e.phrase

def Cond.phrase : Cond → Phrase
  | .lit b => .word (if b then "true" else "false").toList
  | .compare op l r => .between op.symbol.toList l.phrase r.phrase
  | .not c => .negated c.phrase
  | .and c d => .between "&&".toList c.phrase d.phrase
  | .or c d => .between "||".toList c.phrase d.phrase
end

mutual
theorem Term.write_phrase (t : Term) (rest : List Char) : t.phrase.write rest = t.write rest := by
  cases t with
  | lit v => rfl
  | var name => rfl
  | popcount t =>
    change "popcount".toList ++ '(' :: t.phrase.write (')' :: rest) =
      ("popcount".toList ++ ['(']) ++ t.write (')' :: rest)
    rw [t.write_phrase, List.append_assoc, List.singleton_append]
  | binary op l r =>
    change '(' :: l.phrase.write (' ' :: (op.symbol.toList ++ ' ' :: r.phrase.write (')' :: rest))) =
      '(' :: l.write (' ' :: (op.symbol.toList ++ ' ' :: r.write (')' :: rest)))
    rw [l.write_phrase, r.write_phrase]
  | modular op x y m =>
    change op.name.toList ++ '(' :: x.phrase.write (',' :: ' ' ::
        y.phrase.write (',' :: ' ' :: m.phrase.write (')' :: rest))) =
      op.name.toList ++ '(' :: x.write (',' :: ' ' :: y.write (',' :: ' ' :: m.write (')' :: rest)))
    rw [x.write_phrase, y.write_phrase, m.write_phrase]
  | ite c t e =>
    change "ite".toList ++ '(' :: c.phrase.write (',' :: ' ' ::
        t.phrase.write (',' :: ' ' :: e.phrase.write (')' :: rest))) =
      ("ite".toList ++ ['(']) ++
        c.write (',' :: ' ' :: t.write (',' :: ' ' :: e.write (')' :: rest)))
    rw [c.write_phrase, t.write_phrase, e.write_phrase, List.append_assoc, List.singleton_append]

theorem Cond.write_phrase (c : Cond) (rest : List Char) : c.phrase.write rest = c.write rest := by
  cases c with
  | lit b => rfl
  | compare op l r =>
    change '(' :: l.phrase.write (' ' :: (op.symbol.toList ++ ' ' :: r.phrase.write (')' :: rest))) =
      '(' :: l.write (' ' :: (op.symbol.toList ++ ' ' :: r.write (')' :: rest)))
    rw [l.write_phrase, r.write_phrase]
  | not c =>
    change '!' :: c.phrase.write rest = '!' :: c.write rest
    rw [c.write_phrase]
  | and c d =>
    change '(' :: c.phrase.write (" && ".toList ++ d.phrase.write (')' :: rest)) =
      '(' :: c.write (" && ".toList ++ d.write (')' :: rest))
    rw [c.write_phrase, d.write_phrase]
  | or c d =>
    change '(' :: c.phrase.write (" || ".toList ++ d.phrase.write (')' :: rest)) =
      '(' :: c.write (" || ".toList ++ d.write (')' :: rest))
    rw [c.write_phrase, d.write_phrase]
end

/-! ### Every text is spelled in words -/

theorem BinaryOp.isWord_symbol (op : BinaryOp) : IsWord op.symbol.toList := by
  cases op <;> simp [symbol, IsWord, marks]

theorem ModularOp.isWord_name (op : ModularOp) : IsWord op.name.toList := by
  cases op <;> simp [name, IsWord, marks]

theorem Comparison.isWord_symbol (op : Comparison) : IsWord op.symbol.toList := by
  cases op <;> simp [symbol, IsWord, marks]

theorem isWord_popcount : IsWord "popcount".toList := by simp [IsWord, marks]

theorem isWord_ite : IsWord "ite".toList := by simp [IsWord, marks]

theorem isWord_true_false (b : Bool) : IsWord (if b then "true" else "false").toList := by
  cases b <;> simp [IsWord, marks]

theorem isWord_connective : IsWord "&&".toList ∧ IsWord "||".toList := by simp [IsWord, marks]

mutual
theorem Term.spelled_phrase (t : Term) (h : ∀ name ∈ t.names, IsName name) :
    t.phrase.Spelled := by
  cases t with
  | lit v => exact isWord_writeLiteral v
  | var name => exact (h name List.mem_cons_self).isWord
  | popcount t => exact ⟨isWord_popcount, t.spelled_phrase h⟩
  | binary op l r =>
    obtain ⟨hl, hr⟩ := List.forall_mem_append.mp h
    exact ⟨op.isWord_symbol, l.spelled_phrase hl, r.spelled_phrase hr⟩
  | modular op x y m =>
    obtain ⟨hxy, hm⟩ := List.forall_mem_append.mp h
    obtain ⟨hx, hy⟩ := List.forall_mem_append.mp hxy
    exact ⟨op.isWord_name, x.spelled_phrase hx, y.spelled_phrase hy, m.spelled_phrase hm⟩
  | ite c t e =>
    obtain ⟨hct, he⟩ := List.forall_mem_append.mp h
    obtain ⟨hc, ht⟩ := List.forall_mem_append.mp hct
    exact ⟨isWord_ite, c.spelled_phrase hc, t.spelled_phrase ht, e.spelled_phrase he⟩

theorem Cond.spelled_phrase (c : Cond) (h : ∀ name ∈ c.names, IsName name) :
    c.phrase.Spelled := by
  cases c with
  | lit b => exact isWord_true_false b
  | compare op l r =>
    obtain ⟨hl, hr⟩ := List.forall_mem_append.mp h
    exact ⟨op.isWord_symbol, l.spelled_phrase hl, r.spelled_phrase hr⟩
  | not c => exact c.spelled_phrase h
  | and c d =>
    obtain ⟨hc, hd⟩ := List.forall_mem_append.mp h
    exact ⟨isWord_connective.1, c.spelled_phrase hc, d.spelled_phrase hd⟩
  | or c d =>
    obtain ⟨hc, hd⟩ := List.forall_mem_append.mp h
    exact ⟨isWord_connective.2, c.spelled_phrase hc, d.spelled_phrase hd⟩
end

/-! ### A phrase says which formula it is -/

theorem BinaryOp.symbol_inj {op op' : BinaryOp} (h : op.symbol = op'.symbol) : op = op' := by
  cases op <;> cases op' <;> first | rfl | exact absurd h (by decide)

theorem ModularOp.name_inj {op op' : ModularOp} (h : op.name = op'.name) : op = op' := by
  cases op <;> cases op' <;> first | rfl | exact absurd h (by decide)

theorem Comparison.symbol_inj {op op' : Comparison} (h : op.symbol = op'.symbol) : op = op' := by
  cases op <;> cases op' <;> first | rfl | exact absurd h (by decide)

theorem ModularOp.name_ne_ite (op : ModularOp) : op.name ≠ "ite" := by cases op <;> decide

theorem Comparison.symbol_ne_connective (op : Comparison) :
    op.symbol ≠ "&&" ∧ op.symbol ≠ "||" := by
  cases op <;> decide

theorem true_false_inj {b b' : Bool}
    (h : (if b then "true" else "false") = if b' then "true" else "false") : b = b' := by
  cases b <;> cases b' <;> first | rfl | exact absurd h (by decide)

mutual
theorem Term.phrase_inj (t t' : Term) (ht : ∀ name ∈ t.names, IsName name)
    (ht' : ∀ name ∈ t'.names, IsName name) (h : t.phrase = t'.phrase) : t = t' := by
  cases t with
  | lit v =>
    cases t' with
    | lit w => rw [writeLiteral_inj (Phrase.word.inj h)]
    | var name =>
      have hname := ht' name List.mem_cons_self
      exact absurd (Phrase.word.inj h).symm (hname.ne_writeLiteral v)
    | _ => cases h
  | var name =>
    cases t' with
    | var name' => rw [String.toList_inj.mp (Phrase.word.inj h)]
    | lit w =>
      have hname := ht name List.mem_cons_self
      exact absurd (Phrase.word.inj h) (hname.ne_writeLiteral w)
    | _ => cases h
  | popcount t =>
    cases t' with
    | popcount t' => rw [t.phrase_inj t' ht ht' (Phrase.call.inj h).2]
    | _ => cases h
  | binary op l r =>
    cases t' with
    | binary op' l' r' =>
      obtain ⟨hl, hr⟩ := List.forall_mem_append.mp ht
      obtain ⟨hl', hr'⟩ := List.forall_mem_append.mp ht'
      obtain ⟨hop, hleft, hright⟩ := Phrase.between.inj h
      rw [BinaryOp.symbol_inj (String.toList_inj.mp hop), l.phrase_inj l' hl hl' hleft,
        r.phrase_inj r' hr hr' hright]
    | _ => cases h
  | modular op x y m =>
    cases t' with
    | modular op' x' y' m' =>
      obtain ⟨hxy, hm⟩ := List.forall_mem_append.mp ht
      obtain ⟨hxy', hm'⟩ := List.forall_mem_append.mp ht'
      obtain ⟨hx, hy⟩ := List.forall_mem_append.mp hxy
      obtain ⟨hx', hy'⟩ := List.forall_mem_append.mp hxy'
      obtain ⟨hop, hfirst, hsecond, hthird⟩ := Phrase.callThree.inj h
      rw [ModularOp.name_inj (String.toList_inj.mp hop), x.phrase_inj x' hx hx' hfirst,
        y.phrase_inj y' hy hy' hsecond, m.phrase_inj m' hm hm' hthird]
    | ite c' t' e' =>
      exact absurd (String.toList_inj.mp (Phrase.callThree.inj h).1) op.name_ne_ite
    | _ => cases h
  | ite c t e =>
    cases t' with
    | ite c' t' e' =>
      obtain ⟨hct, he⟩ := List.forall_mem_append.mp ht
      obtain ⟨hct', he'⟩ := List.forall_mem_append.mp ht'
      obtain ⟨hc, ht⟩ := List.forall_mem_append.mp hct
      obtain ⟨hc', ht'⟩ := List.forall_mem_append.mp hct'
      obtain ⟨-, hfirst, hsecond, hthird⟩ := Phrase.callThree.inj h
      rw [c.phrase_inj c' hc hc' hfirst, t.phrase_inj t' ht ht' hsecond,
        e.phrase_inj e' he he' hthird]
    | modular op x' y' m' =>
      exact absurd (String.toList_inj.mp (Phrase.callThree.inj h).1).symm op.name_ne_ite
    | _ => cases h

theorem Cond.phrase_inj (c c' : Cond) (hc : ∀ name ∈ c.names, IsName name)
    (hc' : ∀ name ∈ c'.names, IsName name) (h : c.phrase = c'.phrase) : c = c' := by
  cases c with
  | lit b =>
    cases c' with
    | lit b' => rw [true_false_inj (String.toList_inj.mp (Phrase.word.inj h))]
    | _ => cases h
  | not c =>
    cases c' with
    | not c' => rw [c.phrase_inj c' hc hc' (Phrase.negated.inj h)]
    | _ => cases h
  | compare op l r =>
    cases c' with
    | compare op' l' r' =>
      obtain ⟨hl, hr⟩ := List.forall_mem_append.mp hc
      obtain ⟨hl', hr'⟩ := List.forall_mem_append.mp hc'
      obtain ⟨hop, hleft, hright⟩ := Phrase.between.inj h
      rw [Comparison.symbol_inj (String.toList_inj.mp hop), l.phrase_inj l' hl hl' hleft,
        r.phrase_inj r' hr hr' hright]
    | and =>
      exact absurd (String.toList_inj.mp (Phrase.between.inj h).1) op.symbol_ne_connective.1
    | or =>
      exact absurd (String.toList_inj.mp (Phrase.between.inj h).1) op.symbol_ne_connective.2
    | _ => cases h
  | and c d =>
    cases c' with
    | and c' d' =>
      obtain ⟨hc, hd⟩ := List.forall_mem_append.mp hc
      obtain ⟨hc', hd'⟩ := List.forall_mem_append.mp hc'
      obtain ⟨-, hleft, hright⟩ := Phrase.between.inj h
      rw [c.phrase_inj c' hc hc' hleft, d.phrase_inj d' hd hd' hright]
    | compare op =>
      exact absurd (String.toList_inj.mp (Phrase.between.inj h).1).symm op.symbol_ne_connective.1
    | or => exact absurd (String.toList_inj.mp (Phrase.between.inj h).1) (by decide)
    | _ => cases h
  | or c d =>
    cases c' with
    | or c' d' =>
      obtain ⟨hc, hd⟩ := List.forall_mem_append.mp hc
      obtain ⟨hc', hd'⟩ := List.forall_mem_append.mp hc'
      obtain ⟨-, hleft, hright⟩ := Phrase.between.inj h
      rw [c.phrase_inj c' hc hc' hleft, d.phrase_inj d' hd hd' hright]
    | compare op =>
      exact absurd (String.toList_inj.mp (Phrase.between.inj h).1).symm op.symbol_ne_connective.2
    | and => exact absurd (String.toList_inj.mp (Phrase.between.inj h).1) (by decide)
    | _ => cases h
end

/-- **A formula is read back from its text.** Two terms with the same text are the same tree, and so
are two conditions with the same text, however they were built and whatever literals are in them.
Every variable must have a name that begins with a letter or an underscore and has no marks in it,
as identifiers do; it may be a word that texts are made of. -/
theorem text_unambiguous :
    (∀ t t' : Term, (∀ name ∈ t.names, IsName name) → (∀ name ∈ t'.names, IsName name) →
      t.text = t'.text → t = t') ∧
    ∀ c c' : Cond, (∀ name ∈ c.names, IsName name) → (∀ name ∈ c'.names, IsName name) →
      c.text = c'.text → c = c' := by
  constructor
  · intro t t' ht ht' h
    refine t.phrase_inj t' ht ht' ?_
    apply Phrase.eq_of_write_nil (t.spelled_phrase ht) (t'.spelled_phrase ht')
    rw [t.write_phrase, t'.write_phrase]
    exact String.ofList_injective h
  · intro c c' hc hc' h
    refine c.phrase_inj c' hc hc' ?_
    apply Phrase.eq_of_write_nil (c.spelled_phrase hc) (c'.spelled_phrase hc')
    rw [c.write_phrase, c'.write_phrase]
    exact String.ofList_injective h

/-- A term with names that are also functions and operators, once as a tree and once built with
folding, and a connective of literals whose text is almost that of a comparison of names. -/
theorem text_unambiguous_of_words :
    let t := Term.popcount (.binary .mod (.var "mod") (.binary .sub (.var "true") (.lit (-1))))
    let t' := Term.mkPopcount (.mkBinary .mod (.var "mod") (.var "true" - .lit (-1)))
    let c := Cond.and (.lit true) (.lit false)
    let c' := Cond.compare .eq (.var "true") (.var "mod")
    (∀ name ∈ t.names, IsName name) ∧ t.text = t'.text ∧ t = t' ∧
      (∀ name ∈ c'.names, IsName name) ∧ c.text ≠ c'.text := by
  intro t t' c c'
  have hmod : IsName "mod" := isName_ofList 'm' ['o', 'd'] (by decide) (by simp)
  have htrue : IsName "true" := isName_ofList 't' ['r', 'u', 'e'] (by decide) (by simp)
  have ht : ∀ name ∈ t.names, IsName name := List.forall_mem_cons.mpr
    ⟨hmod, List.forall_mem_singleton.mpr htrue⟩
  have hc' : ∀ name ∈ c'.names, IsName name := List.forall_mem_cons.mpr
    ⟨htrue, List.forall_mem_singleton.mpr hmod⟩
  have hc : ∀ name ∈ c.names, IsName name := fun name hname => by cases hname
  have htext : t.text = t'.text := rfl
  have hne : c ≠ c' := nofun
  exact ⟨ht, htext, text_unambiguous.1 t t' ht ht htext, hc',
    fun h => hne (text_unambiguous.2 c c' hc hc' h)⟩

/-- Other names may read as literals. -/
example : (Term.var "1").text = (Term.lit 1).text := rfl

end SymbolicMachine
