import Mathlib
import SymbolicMachine.Memory.Selection
import SymbolicMachine.Proofs.Size

/-!
# Selections grow linearly

A word selected from a memory has 32 chains with a choice for every byte in each. Folding makes no
formula larger than the plain one, so a bound on the size of the selection is read off the way it is
put together, byte by byte (`size_selectByte_le`, `Term.size_ofBytes_le`). The size is what a loop
over the pending nodes counts, in whatever order they are visited (`Worklist.Visits.total`). Main
result: `selection_grows_linearly`.
-/

namespace SymbolicMachine

/-! ## Counting in any order -/

namespace Worklist

/-- A node is visited. It counts once, and the nodes below it become pending, in any order. -/
inductive Visit : Nat × List Node → Nat × List Node → Prop
  | node {count : Nat} {n : Node} {rest pending : List Node}
      (order : pending.Perm (n.children ++ rest)) : Visit (count, n :: rest) (count + 1, pending)

/-- Nodes are visited until somebody stops. -/
abbrev Visits : Nat × List Node → Nat × List Node → Prop := Relation.ReflTransGen Visit

theorem totalSize_singleton (n : Node) : totalSize [n] = n.size := by
  rw [totalSize, totalSize, Nat.add_zero]

theorem totalSize_eq_sum (nodes : List Node) : totalSize nodes = (nodes.map Node.size).sum := by
  induction nodes with
  | nil => rfl
  | cons n nodes ih => rw [totalSize, ih, List.map_cons, List.sum_cons]

theorem totalSize_perm {nodes nodes' : List Node} (h : nodes.Perm nodes') :
    totalSize nodes = totalSize nodes' := by
  rw [totalSize_eq_sum, totalSize_eq_sum, (h.map Node.size).sum_eq]

theorem totalSize_eq_zero_iff {nodes : List Node} : totalSize nodes = 0 ↔ nodes = [] := by
  cases nodes with
  | nil => exact iff_of_true rfl rfl
  | cons n nodes =>
    refine iff_of_false ?_ (List.cons_ne_nil n nodes)
    rw [totalSize, n.size_eq]
    omega

/-- What a visit adds to the count it takes from the pending nodes. -/
theorem Visit.total {s s' : Nat × List Node} (h : Visit s s') :
    s'.1 + totalSize s'.2 = s.1 + totalSize s.2 := by
  obtain ⟨order⟩ := h
  rw [totalSize_perm order, totalSize_append, totalSize, Node.size_eq]
  omega

theorem Visits.total {s s' : Nat × List Node} (h : Visits s s') :
    s'.1 + totalSize s'.2 = s.1 + totalSize s.2 := by
  induction h with
  | refl => rfl
  | tail _ hstep ih => exact hstep.total.trans ih

/-- The loop that visits the node just put in front is one of these orders. -/
theorem visits_countNodes (count : Nat) (nodes : List Node) :
    Visits (count, nodes) (countNodes count nodes, []) := by
  fun_induction countNodes count nodes with
  | case1 count => exact .refl
  | case2 count n rest ih => exact .head (.node (.refl _)) ih

end Worklist

open Worklist

/-! ## Sizes of what a selection is made of -/

namespace Term

theorem size_add_le (l r : Term) : (l + r).size ≤ l.size + r.size + 1 :=
  (size_mkBinary_le .add l r).trans_eq (by rw [size])

theorem size_sub_le (l r : Term) : (l - r).size ≤ l.size + r.size + 1 :=
  (size_mkBinary_le .sub l r).trans_eq (by rw [size])

theorem size_mul_le (l r : Term) : (l * r).size ≤ l.size + r.size + 1 :=
  (size_mkBinary_le .mul l r).trans_eq (by rw [size])

/-- Bytes that are put together behind others. -/
theorem size_foldl_le (terms : List Term) (high : Term) :
    (terms.foldl (fun high byte => high * .lit 256 + byte) high).size ≤
      high.size + (terms.map fun t => t.size + 3).sum := by
  induction terms generalizing high with
  | nil => simp
  | cons t terms ih =>
    have hmul := size_mul_le high (.lit 256)
    have hadd := size_add_le (high * .lit 256) t
    have hrest := ih (high * .lit 256 + t)
    rw [size_lit] at hmul
    rw [List.foldl_cons, List.map_cons, List.sum_cons]
    omega

theorem size_ofBytes_le (terms : List Term) :
    (ofBytes terms).size ≤ 1 + (terms.map fun t => t.size + 3).sum := by
  have h := size_foldl_le terms (.lit 0)
  rwa [size_lit] at h

/-- A choice by a comparison. -/
theorem size_mkIte_mkCompare_le (op : Comparison) (l r t e : Term) :
    (mkIte (.mkCompare op l r) t e).size ≤ l.size + r.size + t.size + e.size + 2 := by
  have hcompare := Cond.size_mkCompare_le op l r
  have hite := size_mkIte_le (.mkCompare op l r) t e
  rw [Cond.size] at hcompare
  rw [size] at hite
  omega

end Term

open Term

/-- One link of a chain has the index, the byte and five nodes more. -/
theorem size_selectFrom_le (index : Term) (terms : List Term) (k : Nat) :
    ((terms.zipIdx k).foldr (fun (byte, k) rest =>
      .mkIte (.mkEq (index - .nat k) (.lit 0)) byte rest) (.lit 0) : Term).size ≤
      1 + (terms.map fun t => index.size + t.size + 5).sum := by
  induction terms generalizing k with
  | nil => exact (size_lit 0).le
  | cons t terms ih =>
    have hcounter := size_sub_le index (.nat k)
    have hrest := ih (k + 1)
    rw [size_lit] at hcounter
    rw [List.zipIdx_cons, List.foldr_cons, List.map_cons, List.sum_cons]
    refine (size_mkIte_mkCompare_le .eq _ _ _ _).trans ?_
    rw [size_lit]
    omega

theorem size_selectByte_le (index : Term) (terms : List Term) :
    (selectByte index terms).size ≤ 1 + (terms.map fun t => index.size + t.size + 5).sum :=
  size_selectFrom_le index terms 0

/-- A byte behind a bound has the bound and four nodes more. -/
theorem size_boundByte_le (bound byte : Term) (i : Nat) :
    (mkIte (.mkGt (.nat (i + 1)) bound) (.lit 0) byte).size ≤ bound.size + byte.size + 4 := by
  refine (size_mkIte_mkCompare_le .lt bound (.nat (i + 1)) (.lit 0) byte).trans ?_
  rw [size_lit, size_lit]
  omega

/-- A chain over bounded bytes. -/
theorem size_selectByte_boundBytes_le (index bound : Term) (bytes : List Term) :
    (selectByte index (boundBytes bound bytes)).size ≤
      1 + (bytes.map fun b => index.size + bound.size + b.size + 9).sum := by
  refine (size_selectByte_le index _).trans (Nat.add_le_add_left ?_ 1)
  have hbytes : (bytes.map fun b => index.size + bound.size + b.size + 9) =
      bytes.zipIdx.map fun p => index.size + bound.size + p.1.size + 9 := by
    conv_lhs => rw [← List.zipIdx_map_fst 0 bytes, List.map_map]
    rfl
  rw [hbytes, boundBytes, List.map_map]
  refine List.sum_le_sum fun p _ => ?_
  have hbyte := size_boundByte_le bound p.1 p.2
  simp only [Function.comp_apply]
  omega

theorem size_selectWord_le (index bound : Term) (bytes : List Term) :
    (selectWord index bound bytes).term.size ≤
      129 + 32 * (bytes.map fun b => index.size + bound.size + b.size + 11).sum := by
  have hbyte : ∀ j, (selectByte (index + .nat j) (boundBytes bound bytes)).size ≤
      1 + (bytes.map fun b => index.size + bound.size + b.size + 11).sum := by
    intro j
    have hindex := size_add_le index (.nat j)
    rw [size_lit] at hindex
    refine (size_selectByte_boundBytes_le _ bound bytes).trans (Nat.add_le_add_left ?_ 1)
    refine List.sum_le_sum fun b _ => ?_
    omega
  have hsum : ((List.range 32).map fun j =>
      (selectByte (index + .nat j) (boundBytes bound bytes)).size + 3).sum ≤
        32 * (4 + (bytes.map fun b => index.size + bound.size + b.size + 11).sum) := by
    refine (List.sum_le_card_nsmul _
      (4 + (bytes.map fun b => index.size + bound.size + b.size + 11).sum) ?_).trans_eq ?_
    · intro m hm
      obtain ⟨j, -, rfl⟩ := List.mem_map.mp hm
      have := hbyte j
      omega
    · rw [List.length_map, List.length_range, smul_eq_mul]
  refine (size_ofBytes_le _).trans ?_
  rw [wordBytes, List.map_map]
  simp only [Function.comp_def]
  omega

/-- **A selection grows with 32 times the size of its parts.** For any formulas as index, bound and
bytes, the selected word has at most 129 nodes, and 32 times the nodes of index, bound and byte and
eleven more for every byte. Here the nodes are those that the loop over the pending nodes counts.
For any formula of either sort this is the size of the tree: one and the sizes of its children, with
every child counted as often as it is used. Visits end with this count in some order, and in every
order they count no more, and have counted it exactly when nothing is pending. -/
theorem selection_grows_linearly (index bound : Term) (bytes : List Term) :
    (selectWord index bound bytes).term.nodeCount ≤ 129 + 32 *
      (bytes.map fun b => index.nodeCount + bound.nodeCount + b.nodeCount + 11).sum ∧
    (∀ t : Term, t.nodeCount = t.size) ∧ (∀ c : Cond, c.nodeCount = c.size) ∧
    (∀ n : Node, n.size = 1 + (n.children.map Node.size).sum) ∧
    (∀ n : Node, Visits (0, [n]) (n.size, [])) ∧
    ∀ (n : Node) (count : Nat) (pending : List Node), Visits (0, [n]) (count, pending) →
      count ≤ n.size ∧ (pending = [] ↔ count = n.size) := by
  refine ⟨?_, nodeCount_eq_size, Cond.nodeCount_eq_size, fun n => ?_, fun n => ?_,
    fun n count pending h => ?_⟩
  · simp only [nodeCount_eq_size]
    exact size_selectWord_le index bound bytes
  · rw [n.size_eq, totalSize_eq_sum, Nat.add_comm]
  · have hcount : countNodes 0 [n] = n.size := by
      rw [countNodes_eq, totalSize_singleton, Nat.zero_add]
    exact hcount ▸ visits_countNodes 0 [n]
  · have htotal : count + totalSize pending = n.size := by
      have hvisits : count + totalSize pending = 0 + totalSize [n] := h.total
      rwa [totalSize_singleton, Nat.zero_add] at hvisits
    rw [← totalSize_eq_zero_iff]
    omega

end SymbolicMachine
