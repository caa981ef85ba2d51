import Decenarch.Bloom

/-!
# The consensus page (`service/service.go`, `buildConsensusHtmlPage`)

The root builds the consensus page from its own tree: a recursive closure
`f` removes every leaf whose count in the consensus filter is below the
threshold, then walks the node's children with
`for c := n.FirstChild; c != nil; c = c.NextSibling { f(c) }`.

`html.Node.RemoveChild` unlinks the child from its parent's list of children
(the parent now reaches the child's next sibling directly) and sets the
child's `Parent`, `PrevSibling` and `NextSibling` to nil.  So after `f(c)`
removed `c`, the loop reads `c.NextSibling = nil` and ends: the later
siblings stay in the parent's list, never visited.  The model below has
exactly this shape; `Prunes` says what a pruning that only removes
low-count leaves may produce.
-/

namespace Decenarch

variable (hashes : Bytes → ℕ × ℕ) (threshold : ℤ) (cbf : CBF)

mutual
/-- The closure `f` of `buildConsensusHtmlPage` at a node, with the
consensus filter `CBF` and `int64(s.threshold())`: the node after the call,
or `none` when `f` removed it from its parent. -/
def visitNode : Node → Outcome (Option Node)
  | .mk d [] => (cbf.count hashes (stringBytes d)).map fun k =>
      if k < threshold then none else some (.mk d [])
  | .mk d (x :: xs) => (visitChildren (x :: xs)).map fun cs => some (.mk d cs)

/-- The loop of `f` over the children of a node.  After a child was
removed its `NextSibling` is nil, so the loop ends and the children after it
are kept as they are. -/
def visitChildren : List Node → Outcome (List Node)
  | [] => .ok []
  | x :: xs => visitNode x >>= fun
      | none => .ok xs
      | some x' => (visitChildren xs).map (x' :: ·)
end

/-- The tree that `f(localTree)` leaves.  Removing the root itself calls
`RemoveChild` on its nil `Parent`. -/
def consensusTree (localTree : Node) : Outcome Node :=
  visitNode hashes threshold cbf localTree >>= fun
    | none => .panic
    | some t => .ok t

/-- `buildConsensusHtmlPage`, with `html.Render` as the parameter `render`. -/
def buildConsensusHtmlPage (render : Node → Except String Bytes) (localTree : Node) :
    Outcome (Except String Bytes) :=
  (consensusTree hashes threshold cbf localTree).map render

/-- A datum whose count in the filter is below the threshold. -/
def LowCount (d : String) : Prop :=
  ∃ k, cbf.count hashes (stringBytes d) = .ok k ∧ k < threshold

mutual
/-- `Prunes low t o`: `o` is `t` with some of its leaves whose data satisfy
`low` removed, every other node keeping its parent and its place among its
siblings; `o = none` when `t` itself is such a leaf and is removed. -/
inductive Prunes (low : String → Prop) : Node → Option Node → Prop
  | removeLeaf {d : String} : low d → Prunes low (.mk d []) none
  | keep {d : String} {cs cs' : List Node} : PrunesChildren low cs cs' →
      Prunes low (.mk d cs) (some (.mk d cs'))

/-- `Prunes` on a list of siblings. -/
inductive PrunesChildren (low : String → Prop) : List Node → List Node → Prop
  | nil : PrunesChildren low [] []
  | consRemove {c : Node} {cs cs' : List Node} : Prunes low c none → PrunesChildren low cs cs' →
      PrunesChildren low (c :: cs) cs'
  | consKeep {c c' : Node} {cs cs' : List Node} : Prunes low c (some c') →
      PrunesChildren low cs cs' → PrunesChildren low (c :: cs) (c' :: cs')
end

section Prunes

variable {low : String → Prop}

mutual
theorem prunes_self : ∀ t : Node, Prunes low t (some t)
  | .mk _ cs => .keep (prunesChildren_self cs)

theorem prunesChildren_self : ∀ cs : List Node, PrunesChildren low cs cs
  | [] => .nil
  | c :: cs => .consKeep (prunes_self c) (prunesChildren_self cs)
end

end Prunes

/-! ## One call of `f` and one turn of its loop -/

theorem visitNode_leaf_of_count {d : String} {k : ℤ} (h : cbf.count hashes (stringBytes d) = .ok k) :
    visitNode hashes threshold cbf (.mk d []) = .ok (if k < threshold then none else some (.mk d [])) := by
  rw [visitNode, h, Outcome.map_ok]

theorem visitChildren_cons_of_removed {x : Node} (xs : List Node)
    (h : visitNode hashes threshold cbf x = .ok none) :
    visitChildren hashes threshold cbf (x :: xs) = .ok xs := by
  rw [visitChildren, h, Outcome.ok_bind]

theorem visitChildren_cons_of_kept {x x' : Node} (xs : List Node)
    (h : visitNode hashes threshold cbf x = .ok (some x')) :
    visitChildren hashes threshold cbf (x :: xs) = (visitChildren hashes threshold cbf xs).map (x' :: ·) := by
  rw [visitChildren, h, Outcome.ok_bind]

/-- Children that `f` visits and keeps, one after the other, put their
results in front of what the loop does with the rest. -/
theorem visitChildren_append_of_kept {pre pre' : List Node}
    (hpre : List.Forall₂ (fun x x' => visitNode hashes threshold cbf x = .ok (some x')) pre pre')
    (rest : List Node) :
    visitChildren hashes threshold cbf (pre ++ rest) =
      (visitChildren hashes threshold cbf rest).map (pre' ++ ·) := by
  induction hpre with
  | nil =>
      rw [List.nil_append]
      cases visitChildren hashes threshold cbf rest <;> rfl
  | @cons x x' xs xs' hx _ ih =>
      rw [List.cons_append, visitChildren_cons_of_kept hashes threshold cbf _ hx, ih]
      cases visitChildren hashes threshold cbf rest <;> rfl

/-! ## What the traversal removes -/

mutual
/-- `f` removes only leaves whose count is below the threshold, and keeps
every other node under its parent and in its place. -/
theorem visitNode_prunes : ∀ (t : Node) {o : Option Node},
    visitNode hashes threshold cbf t = .ok o → Prunes (LowCount hashes threshold cbf) t o
  | .mk d [], o, h => by
      obtain ⟨k, hk, rfl⟩ := Outcome.map_eq_ok.mp h
      split_ifs with hlow
      · exact .removeLeaf ⟨k, hk, hlow⟩
      · exact prunes_self _
  | .mk d (x :: xs), o, h => by
      obtain ⟨cs', hcs, rfl⟩ := Outcome.map_eq_ok.mp h
      exact .keep (visitChildren_prunes (x :: xs) hcs)

theorem visitChildren_prunes : ∀ (cs : List Node) {cs' : List Node},
    visitChildren hashes threshold cbf cs = .ok cs' → PrunesChildren (LowCount hashes threshold cbf) cs cs'
  | [], cs', h => by
      cases h
      exact .nil
  | x :: xs, cs', h => by
      obtain ⟨o, hx, hrest⟩ := Outcome.bind_eq_ok.mp h
      cases o with
      | none =>
          -- the loop ended at `x`: its later siblings are kept as they were
          cases hrest
          exact .consRemove (visitNode_prunes x hx) (prunesChildren_self xs)
      | some x' =>
          obtain ⟨xs', hxs, rfl⟩ := Outcome.map_eq_ok.mp hrest
          exact .consKeep (visitNode_prunes x hx) (visitChildren_prunes xs hxs)
end

/-- The consensus tree is the local tree with some leaves of low count
removed, and nothing else changed. -/
theorem consensusTree_prunes {localTree t : Node}
    (h : consensusTree hashes threshold cbf localTree = .ok t) :
    Prunes (LowCount hashes threshold cbf) localTree (some t) := by
  obtain ⟨o, ho, ht⟩ := Outcome.bind_eq_ok.mp h
  cases o with
  | none => cases ht
  | some t' =>
      cases ht
      exact visitNode_prunes hashes threshold cbf localTree ho

/-- Once `f` removed a leaf of low count among the children of a node, all
siblings after it stay as they were, unvisited: a later leaf whose count is
below the threshold too is kept in the consensus tree. -/
theorem consensusTree_keeps_siblings_after_removed_leaf (d dx : String) {pre pre' : List Node}
    (hpre : List.Forall₂ (fun x x' => visitNode hashes threshold cbf x = .ok (some x')) pre pre')
    {k : ℤ} (hk : cbf.count hashes (stringBytes dx) = .ok k) (hlow : k < threshold) (post : List Node) :
    consensusTree hashes threshold cbf (.mk d (pre ++ .mk dx [] :: post)) = .ok (.mk d (pre' ++ post)) := by
  have hx : visitNode hashes threshold cbf (.mk dx []) = .ok none := by
    rw [visitNode_leaf_of_count hashes threshold cbf hk, if_pos hlow]
  have hchildren : visitChildren hashes threshold cbf (pre ++ .mk dx [] :: post) = .ok (pre' ++ post) := by
    rw [visitChildren_append_of_kept hashes threshold cbf hpre, visitChildren_cons_of_removed hashes threshold cbf _ hx,
      Outcome.map_ok]
  obtain ⟨c, cs, hcs⟩ : ∃ c cs, pre ++ Node.mk dx [] :: post = c :: cs :=
    List.exists_cons_of_ne_nil (by simp)
  rw [consensusTree, hcs, visitNode, ← hcs, hchildren, Outcome.map_ok, Outcome.ok_bind]

/-- A page with two leaves `a` and `b`, both of count `0` in a one-bucket
filter, with threshold `1`: `a` is removed and `b` stays. -/
theorem consensusTree_keeps_second_low_leaf :
    (CBF.count (fun _ => (0, 0)) ⟨[0], 1, 1⟩ (stringBytes "b") = .ok 0 ∧ (0 : ℤ) < 1) ∧
      consensusTree (fun _ => (0, 0)) 1 ⟨[0], 1, 1⟩ (.mk "html" [.mk "a" [], .mk "b" []]) =
        .ok (.mk "html" [.mk "b" []]) :=
  ⟨⟨rfl, by decide⟩, consensusTree_keeps_siblings_after_removed_leaf _ _ _ "html" "a" List.Forall₂.nil rfl
    (by decide) [.mk "b" []]⟩

end Decenarch
