import Mathlib.Data.List.Basic
import Mathlib.Logic.Function.Basic

/-!
# HTML trees and their unique leaves (`lib/utils.go`)

An `html.Node` is modelled by its `Data` and its children in sibling order;
a leaf is a node whose `FirstChild` is nil.  `ListUniqueDataLeaves` walks the
tree in pre-order with a recursive closure that appends the `Data` of each
leaf not yet `discovered`; the closure's two captured variables are the state
`LeafScan`.

`Node.leafData` is the plain pre-order list of leaf data, repetitions
included; the lemmas below relate the scan to it.
-/

namespace Decenarch

/-- An `html.Node`: its `Data` and its children, first to last. -/
inductive Node where
  | mk (Data : String) (children : List Node)
  deriving Inhabited

namespace Node

/-- `n.Data`. -/
def Data : Node → String
  | mk d _ => d

/-- The children of `n`, from `FirstChild` along `NextSibling`. -/
def children : Node → List Node
  | mk _ cs => cs

/-- `n.FirstChild == nil`. -/
def IsLeaf (n : Node) : Prop := n.children = []

instance (n : Node) : Decidable n.IsLeaf := inferInstanceAs (Decidable (n.children = []))

mutual
/-- The `Data` of the leaves of a tree in pre-order, with repetitions. -/
def leafData : Node → List String
  | mk d [] => [d]
  | mk _ (c :: cs) => leafDataList (c :: cs)

/-- `leafData` of a list of sibling trees, one after the other. -/
def leafDataList : List Node → List String
  | [] => []
  | n :: ns => leafData n ++ leafDataList ns
end

end Node

/-- The variables captured by the closure `f` of `ListUniqueDataLeaves`. -/
structure LeafScan where
  leaves : List String
  discovered : String → Bool

/-- What `f` does at a leaf with data `d`. -/
def LeafScan.visitLeaf (acc : LeafScan) (d : String) : LeafScan :=
  if acc.discovered d then acc
  else ⟨acc.leaves ++ [d], Function.update acc.discovered d true⟩

mutual
/-- The closure `f` of `ListUniqueDataLeaves` on a node. -/
def scanNode : Node → LeafScan → LeafScan
  | .mk d [], acc => acc.visitLeaf d
  | .mk _ (c :: cs), acc => scanChildren (c :: cs) acc

/-- The loop `for c := n.FirstChild; c != nil; c = c.NextSibling { f(c) }`. -/
def scanChildren : List Node → LeafScan → LeafScan
  | [], acc => acc
  | c :: cs, acc => scanChildren cs (scanNode c acc)
end

/-- `ListUniqueDataLeaves`. -/
def listUniqueDataLeaves (root : Node) : List String :=
  (scanNode root ⟨[], fun _ => false⟩).leaves

/-! ## First occurrences -/

section FirstOccurrences

variable {α : Type*} [DecidableEq α]

/-- `acc` followed by the elements of `l` that `acc` does not hold, each at
its first occurrence in `l`. -/
def appendNew (acc l : List α) : List α := acc ++ (l.removeAll acc).eraseDups

/-- What is new after `acc` and the first occurrences of `l₁` is what is new
after `acc` and not in `l₁`. -/
theorem removeAll_append_eraseDups (acc l₁ l₂ : List α) :
    l₂.removeAll (acc ++ (l₁.removeAll acc).eraseDups) = (l₂.removeAll acc).removeAll (l₁.removeAll acc) := by
  simp only [List.removeAll, List.filter_filter]
  apply List.filter_congr
  intro x _
  simp only [List.elem_eq_mem, List.mem_append, List.mem_eraseDups, List.mem_filter]
  by_cases h : x ∈ acc <;> simp [h]

/-- Taking the first occurrences of `l₁` and then of `l₂` takes those of
`l₁ ++ l₂`. -/
theorem appendNew_append (acc l₁ l₂ : List α) :
    appendNew (appendNew acc l₁) l₂ = appendNew acc (l₁ ++ l₂) := by
  have hsplit : (l₁ ++ l₂).removeAll acc = l₁.removeAll acc ++ l₂.removeAll acc :=
    List.filter_append l₁ l₂
  rw [appendNew, appendNew, appendNew, List.append_assoc, hsplit, List.eraseDups_append,
    removeAll_append_eraseDups]

end FirstOccurrences

/-- The scan state is consistent: `discovered` holds exactly the recorded
leaves, and no leaf is recorded twice. -/
structure LeafScan.Valid (acc : LeafScan) : Prop where
  discovered_iff : ∀ d, acc.discovered d = true ↔ d ∈ acc.leaves
  nodup : acc.leaves.Nodup

theorem LeafScan.Valid.visitLeaf {acc : LeafScan} (h : acc.Valid) (d : String) :
    (acc.visitLeaf d).Valid ∧ ∀ x, x ∈ (acc.visitLeaf d).leaves ↔ x ∈ acc.leaves ∨ x = d := by
  unfold LeafScan.visitLeaf
  split_ifs with hd
  · have hmem := (h.discovered_iff d).mp hd
    exact ⟨h, fun x => ⟨Or.inl, fun hx => hx.elim id (fun hxd => hxd ▸ hmem)⟩⟩
  · have hnot : d ∉ acc.leaves := fun hm => hd ((h.discovered_iff d).mpr hm)
    refine ⟨⟨fun x => ?_, ?_⟩, fun x => by simp⟩
    · by_cases hx : x = d
      · subst hx
        simp
      · simp [h.discovered_iff x, hx]
    · exact List.nodup_append.mpr ⟨h.nodup, by simp,
        fun a ha b hb hab => hnot (by simp at hb; exact hb ▸ hab ▸ ha)⟩

mutual
/-- The scan of a tree keeps the state valid and records exactly the old
leaves and the leaf data of the tree. -/
theorem scanNode_spec : ∀ (n : Node) {acc : LeafScan}, acc.Valid →
    (scanNode n acc).Valid ∧
      ∀ x, x ∈ (scanNode n acc).leaves ↔ x ∈ acc.leaves ∨ x ∈ n.leafData
  | .mk d [], acc, h => by
      obtain ⟨hv, hmem⟩ := h.visitLeaf d
      exact ⟨hv, fun x => by simp [scanNode, Node.leafData, hmem x]⟩
  | .mk _ (c :: cs), acc, h => by
      obtain ⟨hv, hmem⟩ := scanChildren_spec (c :: cs) h
      exact ⟨hv, fun x => by simp only [scanNode, Node.leafData, hmem x]⟩

theorem scanChildren_spec : ∀ (ns : List Node) {acc : LeafScan}, acc.Valid →
    (scanChildren ns acc).Valid ∧
      ∀ x, x ∈ (scanChildren ns acc).leaves ↔ x ∈ acc.leaves ∨ x ∈ Node.leafDataList ns
  | [], acc, h => ⟨h, fun x => by simp [scanChildren, Node.leafDataList]⟩
  | c :: cs, acc, h => by
      obtain ⟨hv₁, hmem₁⟩ := scanNode_spec c h
      obtain ⟨hv₂, hmem₂⟩ := scanChildren_spec cs hv₁
      refine ⟨hv₂, fun x => ?_⟩
      simp only [scanChildren, Node.leafDataList, hmem₂ x, hmem₁ x, List.mem_append]
      tauto
end

theorem LeafScan.Valid.visitLeaf_leaves {acc : LeafScan} (h : acc.Valid) (d : String) :
    (acc.visitLeaf d).leaves = appendNew acc.leaves [d] := by
  unfold LeafScan.visitLeaf appendNew
  split_ifs with hd
  · have hmem := (h.discovered_iff d).mp hd
    simp [List.removeAll, hmem]
  · have hnot : d ∉ acc.leaves := fun hm => hd ((h.discovered_iff d).mpr hm)
    simp [List.removeAll, hnot, List.eraseDups_cons]

mutual
/-- The scan of a tree appends, to the leaves recorded before, the first
occurrences of its leaf data that are new. -/
theorem scanNode_leaves : ∀ (n : Node) {acc : LeafScan}, acc.Valid →
    (scanNode n acc).leaves = appendNew acc.leaves n.leafData
  | .mk d [], acc, h => by
      rw [scanNode, Node.leafData]
      exact h.visitLeaf_leaves d
  | .mk _ (c :: cs), acc, h => by
      rw [scanNode, Node.leafData]
      exact scanChildren_leaves (c :: cs) h

theorem scanChildren_leaves : ∀ (ns : List Node) {acc : LeafScan}, acc.Valid →
    (scanChildren ns acc).leaves = appendNew acc.leaves (Node.leafDataList ns)
  | [], acc, h => by simp [scanChildren, Node.leafDataList, appendNew, List.removeAll]
  | c :: cs, acc, h => by
      rw [scanChildren, Node.leafDataList, scanChildren_leaves cs (scanNode_spec c h).1,
        scanNode_leaves c h, appendNew_append]
end

/-- `ListUniqueDataLeaves` lists the leaf data of the tree in pre-order, each
at its first occurrence. -/
theorem listUniqueDataLeaves_eq_eraseDups (root : Node) :
    listUniqueDataLeaves root = root.leafData.eraseDups := by
  rw [listUniqueDataLeaves, scanNode_leaves root ⟨fun d => by simp, List.nodup_nil⟩, appendNew]
  simp [List.removeAll]

/-- The tree of the comment above `ListUniqueDataLeaves`: the leaves `D`,
`E`, `D`, `F` from left to right give `[D, E, F]`, not the `[F, D, E]` the
comment shows. -/
example : listUniqueDataLeaves (.mk "R" [.mk "A" [.mk "D" [], .mk "E" []], .mk "D" [], .mk "C" [.mk "F" []]]) =
    ["D", "E", "F"] := by
  decide

/-- `ListUniqueDataLeaves` lists each leaf datum of the tree, once. -/
theorem listUniqueDataLeaves_spec (root : Node) :
    (listUniqueDataLeaves root).Nodup ∧
      ∀ x, x ∈ listUniqueDataLeaves root ↔ x ∈ root.leafData := by
  have h0 : LeafScan.Valid ⟨[], fun _ => false⟩ := ⟨fun d => by simp, List.nodup_nil⟩
  obtain ⟨hv, hmem⟩ := scanNode_spec root h0
  exact ⟨hv.nodup, fun x => by simpa [listUniqueDataLeaves] using hmem x⟩

/-- **`ListUniqueDataLeaves` returns the leaf data of the tree without
repetition, in the order of their first occurrence from left to right in
pre-order.** -/
theorem listUniqueDataLeaves_first_occurrences (root : Node) :
    (listUniqueDataLeaves root).Nodup ∧ (∀ x, x ∈ listUniqueDataLeaves root ↔ x ∈ root.leafData) ∧
      listUniqueDataLeaves root = root.leafData.eraseDups := by
  obtain ⟨hnodup, hmem⟩ := listUniqueDataLeaves_spec root
  exact ⟨hnodup, hmem, listUniqueDataLeaves_eq_eraseDups root⟩

end Decenarch
