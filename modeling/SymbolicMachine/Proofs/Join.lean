import Mathlib
import SymbolicMachine.Proofs.Memory.Access

/-!
# Joins mean the side that the condition takes

Equal sides join to themselves, so that no choice has to be taken; otherwise each place is a choice
of its own. The shorter of two buffers is read as if zeros followed its end.
-/

namespace SymbolicMachine

variable {ρ : Assignment} {known : Prop} {c : Cond} {taken : Bool}

theorem Word.holds_join {x y : Word} {a b : Nat} (hc : c.Means ρ known taken)
    (hx : x.Holds ρ known a) (hy : y.Means ρ known b) :
    (join c x y).Holds ρ known (if taken then a else b) := by
  change Word.Holds ρ known (if x.term == y.term then x else .ofTerm _) _
  split
  · rename_i heq
    have hab : a = b := by
      have ha := hx.term.eval
      rw [beq_iff_eq.mp heq, hy.term.eval] at ha
      exact (Int.natCast_inj.mp (Option.some.inj ha)).symm
    rw [← hab, ite_self]
    exact hx
  · have hc' : c.Means ρ known (decide (taken = true)) := by rwa [Bool.decide_eq_true]
    exact (means_ite hc' (fun _ => hx.untagged) fun _ => hy.untagged).holds

/-- Lists of one length join place by place. -/
theorem Term.MeansBytes.zipWith_join {xs ys : List Term} {as bs : Bytes}
    (hc : c.Means ρ known taken) (hx : MeansBytes ρ known xs as) (hy : MeansBytes ρ known ys bs)
    (hlen : as.length = bs.length) :
    MeansBytes ρ known (List.zipWith (join c) xs ys) (if taken then as else bs) := by
  induction hx generalizing ys bs with
  | nil =>
    rw [List.length_eq_zero_iff.mp hlen.symm, ite_self]
    exact .nil
  | @cons x a xs as hxa _ ih =>
    obtain ⟨b, bs, rfl⟩ := List.exists_cons_of_length_eq_add_one hlen.symm
    obtain ⟨y, ys, hyb, htail, rfl⟩ := List.forall₂_cons_right_iff.mp hy
    have hhead : (Term.mkIte c x y).Means ρ known ((if taken then a else b).toNat : Int) :=
      .ite hc (fun h => by rwa [if_pos h]) (fun h => by rwa [h])
    have hrest := ih htail (Nat.succ.inj hlen)
    cases taken with
    | true => exact .cons hhead hrest
    | false => exact .cons hhead hrest

namespace Bytes

/-- The bytes that two memories have under a choice between them. -/
def select (taken : Bool) (as bs : Bytes) : Bytes :=
  if taken then as.rightpad bs.length 0 else bs.rightpad as.length 0

theorem select_self (taken : Bool) (bytes : Bytes) : select taken bytes bytes = bytes := by
  rw [select, ite_self, List.rightpad, Nat.sub_self, List.replicate_zero, List.append_nil]

end Bytes

theorem Buffer.Means.join {x y : Buffer} {as bs : Bytes} (hc : c.Means ρ known taken)
    (hx : x.Means ρ known as) (hy : y.Means ρ known bs) :
    (Buffer.join c x y).Means ρ known (Bytes.select taken as bs) := by
  have hlists : (Buffer.symbolic (joinLists c x.lift y.lift)).Means ρ known
      (Bytes.select taken as bs) := by
    have hzero : (Term.lit 0).Means ρ known ((0 : UInt8).toNat : Int) := .ofLit 0
    have hleft := Padded.rel_rightpad hx hzero bs.length
    have hright := Padded.rel_rightpad hy hzero as.length
    have hlen : (as.rightpad bs.length 0).length = (bs.rightpad as.length 0).length := by
      simp only [List.rightpad, List.length_append, List.length_replicate]
      omega
    refine Term.MeansBytes.zipWith_join hc ?_ ?_ hlen
    · rw [Term.MeansBytes.length_eq hy]
      exact hleft
    · rw [Term.MeansBytes.length_eq hx]
      exact hright
  obtain rfl | ⟨terms, rfl, -⟩ := hx.form
  · obtain rfl | ⟨terms, rfl, -⟩ := hy.form
    · rw [Buffer.join]
      split
      · rw [← ‹as = bs›, Bytes.select_self]
        exact hx
      · exact hlists
    · exact hlists
  · exact hlists

end SymbolicMachine
