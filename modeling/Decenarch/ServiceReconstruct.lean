import Decenarch.SignVerify
import Decenarch.ConsensusPage
import Decenarch.Homomorphic

/-!
# The consensus page of a `SaveWebpage` (`service/service.go`, `reconstruct`)

After the Decrypt protocol, `Service.reconstruct` turns the partial
decryptions into the consensus filter with `ReconstructVectorFromPartials`,
and builds the consensus page from the root's own tree with it
(`buildConsensusHtmlPage`).  The conodes then cosign the page, each once its
`verificationFunctionStructured` accepted it.

When the partials decrypt the sum of the filters that the conodes filled
from their pages, the reconstruction is that sum.  A leaf that at least
`threshold` conodes saw is then counted at least `threshold` times (for a
threshold up to 255, where `Count` seeds its minimum) and stays in the page;
when every leaf of the root's page is so, the page is the root's page.

The traversal never removes a node with children.  A node whose only child
was removed therefore stays, now as a leaf whose `Data` is its tag, and a
conode refuses every page with a leaf that its own page lacks: the text of
a `<title>` that changes from one fetch to the next leaves an empty
`title`, which no conode whose own title has a text signs.
-/

open Polynomial

namespace Decenarch

/-! ## What the traversal keeps -/

section Keeps

variable {low : String → Prop}

/-- A pruning removes only leaves. -/
theorem Prunes.leaf_of_none {c : Node} (h : Prunes low c none) : ∃ d, c = .mk d [] ∧ low d := by
  cases h with
  | removeLeaf hd => exact ⟨_, rfl, hd⟩

mutual
/-- A pruning keeps every leaf datum that is not low: a kept leaf keeps its
parent, and no inner node is removed. -/
theorem leafData_mem_of_prunes : ∀ (t : Node) {t' : Node}, Prunes low t (some t') →
    ∀ d ∈ t.leafData, ¬ low d → d ∈ t'.leafData
  | .mk e [], t', h => by
      cases h with
      | keep hcs =>
          cases hcs
          exact fun d hd _ => hd
  | .mk e (c :: cs), t', h => by
      cases h with
      | @keep _ _ cs' hcs =>
          intro d hd hlow
          have hkept := leafDataList_mem_of_prunesChildren (c :: cs) hcs d hd hlow
          -- `cs' = []` would leave nowhere for the kept datum
          cases cs' with
          | nil => simp [Node.leafDataList] at hkept
          | cons c' cs'' => exact hkept

theorem leafDataList_mem_of_prunesChildren : ∀ (cs : List Node) {cs' : List Node},
    PrunesChildren low cs cs' → ∀ d ∈ Node.leafDataList cs, ¬ low d → d ∈ Node.leafDataList cs'
  | [], cs', h => by
      cases h
      exact fun d hd _ => hd
  | c :: cs, cs', h => by
      intro d hd hlow
      rw [Node.leafDataList, List.mem_append] at hd
      cases h with
      | consRemove hc hrest =>
          rcases hd with hd | hd
          · obtain ⟨x, rfl, hx⟩ := hc.leaf_of_none
            simp only [Node.leafData, List.mem_singleton] at hd
            exact absurd (hd ▸ hx) hlow
          · exact leafDataList_mem_of_prunesChildren cs hrest d hd hlow
      | @consKeep _ c' _ cs'' hc hrest =>
          rw [Node.leafDataList, List.mem_append]
          rcases hd with hd | hd
          · exact .inl (leafData_mem_of_prunes c hc d hd hlow)
          · exact .inr (leafDataList_mem_of_prunesChildren cs hrest d hd hlow)
end

/-- The leaf data of a child are leaf data of its parent. -/
theorem Node.mem_leafData_of_mem_children {d l : String} {cs : List Node} {x : Node} (hx : x ∈ cs)
    (hl : l ∈ x.leafData) : l ∈ (Node.mk d cs).leafData := by
  obtain ⟨pre, post, rfl⟩ := List.append_of_mem hx
  -- the leaf data of the children, one child after the other
  have hlist : ∀ (pre : List Node), l ∈ Node.leafDataList (pre ++ x :: post) := by
    intro pre
    induction pre with
    | nil => exact List.mem_append_left _ hl
    | cons y ys ih => exact List.mem_append_right _ ih
  cases hpre : pre ++ x :: post with
  | nil => simp at hpre
  | cons c cs' =>
      rw [Node.leafData, ← hpre]
      exact hlist pre

end Keeps

section Traversal

variable (hashes : Bytes → ℕ × ℕ) (threshold : ℤ) (cbf : CBF)

mutual
/-- `f` leaves a tree whose every leaf is counted at least `threshold`
times as it is. -/
theorem visitNode_of_high : ∀ t : Node,
    (∀ d ∈ t.leafData, ∃ k, cbf.count hashes (stringBytes d) = .ok k ∧ threshold ≤ k) →
      visitNode hashes threshold cbf t = .ok (some t)
  | .mk d [], h => by
      obtain ⟨k, hk, hle⟩ := h d (by simp [Node.leafData])
      rw [visitNode_leaf_of_count hashes threshold cbf hk, if_neg (not_lt.mpr hle)]
  | .mk d (c :: cs), h => by
      rw [visitNode, visitChildren_of_high (c :: cs) h, Outcome.map_ok]

theorem visitChildren_of_high : ∀ cs : List Node,
    (∀ d ∈ Node.leafDataList cs, ∃ k, cbf.count hashes (stringBytes d) = .ok k ∧ threshold ≤ k) →
      visitChildren hashes threshold cbf cs = .ok cs
  | [], _ => rfl
  | c :: cs, h => by
      have hc := visitNode_of_high c fun d hd => h d (List.mem_append_left _ hd)
      rw [visitChildren_cons_of_kept hashes threshold cbf cs hc,
        visitChildren_of_high cs fun d hd => h d (List.mem_append_right _ hd), Outcome.map_ok]
end

/-- `f` empties a tag whose only child is a leaf of low count: the tag
stays, now a leaf itself. -/
theorem visitNode_empties_tag (e : String) {d : String} {k : ℤ} (hk : cbf.count hashes (stringBytes d) = .ok k)
    (hlow : k < threshold) :
    visitNode hashes threshold cbf (.mk e [.mk d []]) = .ok (some (.mk e [])) := by
  have hd : visitNode hashes threshold cbf (.mk d []) = .ok none := by
    rw [visitNode_leaf_of_count hashes threshold cbf hk, if_pos hlow]
  rw [visitNode, visitChildren_cons_of_removed hashes threshold cbf [] hd, Outcome.map_ok]

/-- `Visited t x`: the traversal `f` of `t` calls `f` on the subtree `x`.  It
calls it on `t`, and on the children of a node it calls, in turn, up to the
first one that it removes, where `RemoveChild` ends the loop. -/
inductive Visited (t : Node) : Node → Prop
  | root : Visited t t
  | child {d : String} {pre pre' post : List Node} {x : Node} :
      Visited t (.mk d (pre ++ x :: post)) →
      List.Forall₂ (fun y y' => visitNode hashes threshold cbf y = .ok (some y')) pre pre' → Visited t x

variable {hashes cbf}

mutual
/-- With a filter whose `Count` returns on every datum, `f` returns. -/
theorem visitNode_returns (hcount : ∀ d, ∃ k, cbf.count hashes (stringBytes d) = .ok k) :
    ∀ t : Node, ∃ o, visitNode hashes threshold cbf t = .ok o
  | .mk d [] => by
      obtain ⟨k, hk⟩ := hcount d
      exact ⟨_, visitNode_leaf_of_count hashes threshold cbf hk⟩
  | .mk d (c :: cs) => by
      obtain ⟨cs', hcs⟩ := visitChildren_returns hcount (c :: cs)
      exact ⟨some (.mk d cs'), by rw [visitNode, hcs, Outcome.map_ok]⟩

theorem visitChildren_returns (hcount : ∀ d, ∃ k, cbf.count hashes (stringBytes d) = .ok k) :
    ∀ cs : List Node, ∃ cs', visitChildren hashes threshold cbf cs = .ok cs'
  | [] => ⟨[], rfl⟩
  | c :: cs => by
      obtain ⟨o, ho⟩ := visitNode_returns hcount c
      cases o with
      | none => exact ⟨cs, visitChildren_cons_of_removed hashes threshold cbf cs ho⟩
      | some c' =>
          obtain ⟨cs', hcs⟩ := visitChildren_returns hcount cs
          exact ⟨c' :: cs', by rw [visitChildren_cons_of_kept hashes threshold cbf cs ho, hcs, Outcome.map_ok]⟩
end

/-- The root of a page has children, so `f` never removes it: with a filter
whose `Count` returns, the consensus tree is the root over what the loop
left of its children. -/
theorem consensusTree_returns (hcount : ∀ d, ∃ k, cbf.count hashes (stringBytes d) = .ok k)
    (r : String) (c : Node) (cs : List Node) :
    ∃ cs', consensusTree hashes threshold cbf (.mk r (c :: cs)) = .ok (.mk r cs') := by
  obtain ⟨cs', hcs⟩ := visitChildren_returns threshold hcount (c :: cs)
  exact ⟨cs', by rw [consensusTree, visitNode, hcs, Outcome.map_ok, Outcome.ok_bind]⟩

/-- What `f` leaves of a subtree it visits stays in the tree it leaves: with
a filter whose `Count` returns, `f` keeps the root, and the leaf data of what
it left of the subtree are leaf data of the consensus tree.  The induction is
on the path to the subtree, from the root down. -/
theorem visitNode_leafData_of_visited (hcount : ∀ d, ∃ k, cbf.count hashes (stringBytes d) = .ok k)
    {t x : Node} (hv : Visited hashes threshold cbf t x) {x' : Node}
    (hx : visitNode hashes threshold cbf x = .ok (some x')) :
    ∃ t', visitNode hashes threshold cbf t = .ok (some t') ∧ ∀ l ∈ x'.leafData, l ∈ t'.leafData := by
  induction hv generalizing x' with
  | root => exact ⟨x', hx, fun _ hl => hl⟩
  | @child d pre pre' post x _ hpre ih =>
      -- the loop keeps `pre`, keeps `x` as `x'`, and returns on the rest
      obtain ⟨cs, hcs⟩ := visitChildren_returns threshold hcount post
      have hparent : visitNode hashes threshold cbf (.mk d (pre ++ x :: post)) =
          .ok (some (.mk d (pre' ++ x' :: cs))) := by
        obtain ⟨c, cs₀, hc⟩ : ∃ c cs₀, pre ++ x :: post = c :: cs₀ := List.exists_cons_of_ne_nil (by simp)
        rw [hc, visitNode, ← hc, visitChildren_append_of_kept hashes threshold cbf hpre,
          visitChildren_cons_of_kept hashes threshold cbf _ hx, hcs, Outcome.map_ok, Outcome.map_ok, Outcome.map_ok]
      obtain ⟨t', ht, hsub⟩ := ih hparent
      exact ⟨t', ht, fun l hl => hsub l (Node.mem_leafData_of_mem_children (by simp) hl)⟩

end Traversal

/-! ## `Service.reconstruct` -/

section Reconstruct

variable {F G Proof : Type} [Field F] [AddCommGroup G] [Module F G] [DecidableEq G]
variable (recoverCommit : ℕ → ℕ → (ℕ → Option G) → Except String G) (B : G) (hashes : Bytes → ℕ × ℕ)
  (render : Node → Except String Bytes)

/-- `Service.reconstruct`, with `s.threshold()` as `threshold`,
`html.Render` as `render` and kyber's `share.RecoverCommit` as
`recoverCommit`: the consensus filter reconstructed from the
partials, then the consensus page built from the root's tree with it, along
with the package state of `GetPointToInt`. -/
def serviceReconstruct (nodes threshold : ℕ) (partials : AList fun _ : ℕ => List G) (localTree : Node)
    (paramCBF : ℕ × ℕ) (s : DlogTable G) : Outcome (Except String (List ℤ × Bytes) × DlogTable G) :=
  reconstructVectorFromPartials recoverCommit B nodes threshold partials s >>= fun
    | (.error e, s') => .ok (.error e, s')
    | (.ok reconstructed, s') =>
        -- build the consensus HTML page using the reconstructed Bloom filter
        (buildConsensusHtmlPage hashes (threshold : ℤ) (bloomFilterFromSet reconstructed paramCBF) render
            localTree).map
          fun htmlPage => (htmlPage.map fun page => (reconstructed, page), s')

variable {recoverCommit B hashes render}

/-- Once the reconstruction returned the vector `r`, `Service.reconstruct`
renders the consensus tree of the filter of `r`. -/
theorem serviceReconstruct_of_reconstruct {nodes threshold : ℕ} {partials : AList fun _ : ℕ => List G}
    {s s' : DlogTable G} {r : List ℤ}
    (h : reconstructVectorFromPartials recoverCommit B nodes threshold partials s = .ok (.ok r, s'))
    (localTree : Node) (paramCBF : ℕ × ℕ) :
    serviceReconstruct recoverCommit B hashes render nodes threshold partials localTree paramCBF s =
      (consensusTree hashes threshold (bloomFilterFromSet r paramCBF) localTree).map
        fun t => ((render t).map fun page => (r, page), s') := by
  rw [serviceReconstruct, h, Outcome.ok_bind]
  dsimp only
  rw [buildConsensusHtmlPage]
  cases consensusTree hashes threshold (bloomFilterFromSet r paramCBF) localTree <;> rfl

variable (hashes)

/-- `Count` on the sum of filters filled from `trees` returns on every datum,
at least the number of trees that hold it or `255`, whichever is smaller. -/
theorem count_sumSets_of_filled {M K : ℕ} (hM : 0 < M) {trees : List Node} {sets : List (List ℤ)}
    (hall : List.Forall₂ (FilledFrom hashes M K) trees sets) (d : String) :
    ∃ v, (bloomFilterFromSet (sumSets M sets) (M, K)).count hashes (stringBytes d) = .ok v ∧
      min 255 (trees.countP fun T => decide (d ∈ listUniqueDataLeaves T) : ℤ) ≤ v := by
  have hlen : ∀ set ∈ sets, set.length = (List.replicate M (0 : ℤ)).length := fun set hset => by
    simpa using (FilledFrom.of_mem hashes hall set hset).1
  obtain ⟨hsl, hsum⟩ := foldl_zipWith_add sets _ hlen
  have hMne : (bloomFilterFromSet (sumSets M sets) (M, K)).M ≠ 0 := Nat.pos_iff_ne_zero.mp hM
  have hSl : (bloomFilterFromSet (sumSets M sets) (M, K)).Set.length =
      (bloomFilterFromSet (sumSets M sets) (M, K)).M := by
    simpa [bloomFilterFromSet, sumSets] using hsl
  obtain ⟨v, hv, hge⟩ := CBF.foldlM_countAt_ge hMne hSl (hashes (stringBytes d)) (List.range K) 255
  refine ⟨v, hv, hge _ (min_le_left _ _) fun i hi => ?_⟩
  -- each probed bucket of the sum holds the sum of the trees' bits there
  have hlt : bloomLoc M (hashes (stringBytes d)) i < (List.replicate M (0 : ℤ)).length := by
    simpa [bloomLoc] using Nat.mod_lt _ hM
  have hzero : (List.replicate M (0 : ℤ)).getD (bloomLoc M (hashes (stringBytes d)) i) 0 = 0 := by
    simp [List.getD_eq_getElem?_getD]
  simp only [CBF.loc, bloomFilterFromSet, sumSets]
  rw [hsum _ hlt, hzero, zero_add]
  exact le_trans (min_le_right _ _) (countP_le_sum_getD hashes d (List.mem_range.mp hi) hall)

/-- The filters that `filledSets` returns are filled from their trees. -/
theorem forall₂_filledFrom_of_filledSets {M K : ℕ} (hM : 0 < M) {trees : List Node}
    {sets : List (List ℤ)} (hsets : filledSets hashes (M, K) trees = .ok sets) :
    List.Forall₂ (FilledFrom hashes M K) trees sets := by
  obtain ⟨sets', hsets', hall⟩ := filledSets_spec hashes hM K trees
  obtain rfl : sets' = sets := Outcome.ok.inj (hsets'.symm.trans hsets)
  exact hall

/-- A datum that at least `t ≤ 255` of the trees hold is counted at least
`t` times. -/
theorem count_sumSets_of_seen {M K : ℕ} (hM : 0 < M) {trees : List Node} {sets : List (List ℤ)}
    (hall : List.Forall₂ (FilledFrom hashes M K) trees sets) {t : ℕ} (ht255 : t ≤ 255) {d : String}
    (hseen : t ≤ trees.countP fun T => decide (d ∈ listUniqueDataLeaves T)) :
    ∃ v, (bloomFilterFromSet (sumSets M sets) (M, K)).count hashes (stringBytes d) = .ok v ∧ (t : ℤ) ≤ v := by
  obtain ⟨v, hv, hge⟩ := count_sumSets_of_filled hashes hM hall d
  exact ⟨v, hv, le_trans (le_min (by exact_mod_cast ht255) (by exact_mod_cast hseen)) hge⟩

/-- Adding a vector of bits into one whose entries lie in `[0, a]` gives
entries in `[0, a + 1]`. -/
theorem mem_zipWith_add_bounds {acc set : List ℤ} {a : ℤ} (hacc : ∀ m ∈ acc, 0 ≤ m ∧ m ≤ a)
    (hset : ∀ v ∈ set, v = 0 ∨ v = 1) : ∀ m ∈ List.zipWith (· + ·) acc set, 0 ≤ m ∧ m ≤ a + 1 := by
  intro m hm
  obtain ⟨i, hi, rfl⟩ := List.mem_iff_getElem.mp hm
  have hlt : i < acc.length ∧ i < set.length := by simpa using hi
  rw [List.getElem_zipWith]
  have hx := hacc acc[i] (List.getElem_mem hlt.1)
  rcases hset set[i] (List.getElem_mem hlt.2) with hy | hy <;> omega

/-- The sum of `n` vectors of bits has its entries in `[0, n]`. -/
theorem sumSets_bounds (M : ℕ) {sets : List (List ℤ)} (hsets : ∀ set ∈ sets, ∀ v ∈ set, v = 0 ∨ v = 1) :
    ∀ m ∈ sumSets M sets, 0 ≤ m ∧ m ≤ sets.length := by
  -- the fold, generalized over a start with entries in `[0, a]`
  suffices h : ∀ (acc : List ℤ) (a : ℤ), (∀ m ∈ acc, 0 ≤ m ∧ m ≤ a) →
      ∀ m ∈ sets.foldl (List.zipWith (· + ·)) acc, 0 ≤ m ∧ m ≤ a + sets.length by
    simpa [sumSets] using h (List.replicate M 0) 0 fun m hm => by simp [List.eq_of_mem_replicate hm]
  induction sets with
  | nil =>
      intro acc a hacc
      simpa using hacc
  | cons set sets ih =>
      intro acc a hacc m hm
      have hnext := mem_zipWith_add_bounds hacc (hsets set List.mem_cons_self)
      have hrest := ih (fun set' hset' => hsets set' (List.mem_cons_of_mem _ hset')) _ (a + 1) hnext m hm
      simp only [List.length_cons]
      push_cast
      omega

variable (render) in
/-- Once the reconstruction returned the sum of filters filled from `trees`,
`Service.reconstruct` renders a pruning of a root's page with children that
removes only leaves counted below the threshold, and keeps every leaf that at
least `t ≤ 255` of the trees hold. -/
theorem serviceReconstruct_prunes_of_sum {n t : ℕ} {partials : AList fun _ : ℕ => List G}
    {tbl tbl' : DlogTable G} {M K : ℕ} (hM : 0 < M) {trees : List Node} {sets : List (List ℤ)}
    (hall : List.Forall₂ (FilledFrom hashes M K) trees sets)
    (hrec : reconstructVectorFromPartials recoverCommit B n t partials tbl = .ok (.ok (sumSets M sets), tbl'))
    (ht255 : t ≤ 255) (r : String) (c : Node) (cs : List Node) :
    ∃ t', serviceReconstruct recoverCommit B hashes render n t partials (.mk r (c :: cs)) (M, K) tbl =
        .ok ((render t').map fun page => (sumSets M sets, page), tbl') ∧
      Prunes (LowCount hashes t (bloomFilterFromSet (sumSets M sets) (M, K))) (.mk r (c :: cs)) (some t') ∧
      ∀ d ∈ (Node.mk r (c :: cs)).leafData,
        t ≤ trees.countP (fun T => decide (d ∈ listUniqueDataLeaves T)) → d ∈ t'.leafData := by
  have hcount : ∀ d, ∃ k, (bloomFilterFromSet (sumSets M sets) (M, K)).count hashes (stringBytes d) = .ok k :=
    fun d => (count_sumSets_of_filled hashes hM hall d).imp fun _ h => h.1
  obtain ⟨cs', hcons⟩ := consensusTree_returns t hcount r c cs
  have hprunes := consensusTree_prunes hashes t _ hcons
  refine ⟨.mk r cs', ?_, hprunes, fun d hd hseen => ?_⟩
  · rw [serviceReconstruct_of_reconstruct hrec, hcons, Outcome.map_ok]
  · -- a leaf that `t` conodes saw is counted at least `t` times, so it is not low
    refine leafData_mem_of_prunes _ hprunes d hd ?_
    rintro ⟨k, hk, hlow⟩
    obtain ⟨v, hv, hge⟩ := count_sumSets_of_seen hashes hM hall ht255 hseen
    obtain rfl : k = v := Outcome.ok.inj (hk.symm.trans hv)
    omega

/-! ### A sample save

Two conodes fetch a page with a title and a paragraph, and the title's text
changed between the fetches: `12:01` at the root, `12:00` at the other
conode.  The filters have two buckets and one hash, which sends the root's
text to bucket `1` and every other datum to bucket `0`.  In the suite on
`ℚ`, the DKG polynomial is the constant `2`, so the collective key is `2`
and both conodes decrypt under `2`. -/

/-- The hash of the sample filters: `12:01` falls in bucket `1`, every other
datum in bucket `0`. -/
def sampleHashes (b : Bytes) : ℕ × ℕ :=
  if b = stringBytes "12:01" then (1, 0) else (0, 0)

/-- The root's page. -/
def rootPage : Node :=
  .mk "html" [.mk "title" [.mk "12:01" []], .mk "p" [.mk "text" []]]

/-- The other conode's page. -/
def conodePage : Node :=
  .mk "html" [.mk "title" [.mk "12:00" []], .mk "p" [.mk "text" []]]

/-- The vector `ms` encrypted under the collective key `2`. -/
def sampleCipher (ms : List ℤ) : CipherVector ℚ :=
  (encryptIntVector Suite.rat ((2 : ℚ) • Suite.rat.Base) ms fun _ => 1).1

/-- The partial decryptions of both conodes, in the slots `0` and `1`. -/
def samplePartials (ms : List ℤ) : AList fun _ : ℕ => List ℚ :=
  AList.insert 1 ((sampleCipher ms).map (decryptPoint (2 : ℚ)))
    (AList.insert 0 ((sampleCipher ms).map (decryptPoint (2 : ℚ))) ∅)

theorem samplePartials_decryptions (ms : List ℤ) :
    PartialDecryptions {0, 1} (fun j => (C (2 : ℚ)).eval ((j + 1 : ℕ) : ℚ)) (sampleCipher ms)
      (samplePartials ms) := by
  intro j
  rcases j with _ | _ | j
  · simp [samplePartials, -AList.insert_empty, AList.lookup_insert_ne]
  · simp [samplePartials]
  · simp [samplePartials, -AList.insert_empty, AList.lookup_insert_ne]

theorem sampleCipher_encryptsInts (ms : List ℤ) :
    (sampleCipher ms).EncryptsInts Suite.rat ((C (2 : ℚ)).eval 0 • Suite.rat.Base) ms := by
  rw [eval_C]
  exact encryptIntVector_encryptsInts Suite.rat _ ms _

theorem sampleSlots_injOn : Set.InjOn (fun j : ℕ => ((j + 1 : ℕ) : ℚ)) (Finset.range 2) :=
  fun _ _ _ _ h => Nat.succ_injective (Nat.cast_injective h)

theorem sample_degree_lt : (C (2 : ℚ)).degree < ((2 : ℕ) : WithBot ℕ) :=
  degree_C_le.trans_lt (by decide)

theorem sumSets_sample : sumSets 2 [[1, 1], [1, 0]] = [2, 1] := by
  decide

variable (S : Suite F G Proof) (render)

/-- **The consensus page keeps what enough conodes saw.**  When the partials
are decryptions, under the DKG shares of at least `threshold` slots with the
root's among them, of a vector that encrypts the sum of the filters the
conodes filled from their pages, `Service.reconstruct` returns that sum and
renders a pruning of the root's page that removes only leaves counted below
the threshold, and keeps every leaf that at least `threshold` conodes saw. -/
theorem serviceReconstruct_keeps_shared_leaves (hB : OrderExceeds S.Base (2 * MaxHomomorphicInt))
    (hrc : RecoverCommitSpec F recoverCommit)
    {n t : ℕ} {ks : Finset ℕ} {f : F[X]} (hf : f.degree < t) {cv : CipherVector G}
    {partials : AList fun _ : ℕ => List G}
    (hP : PartialDecryptions ks (fun j => f.eval ((j + 1 : ℕ) : F)) cv partials) (h0 : 0 ∈ ks)
    (hks : ∀ j ∈ ks, j < n) (ht : 0 < t) (hcard : t ≤ ks.card)
    (hinj : Set.InjOn (fun j : ℕ => ((j + 1 : ℕ) : F)) (Finset.range n))
    {M K : ℕ} (hM : 0 < M) {trees : List Node} {sets : List (List ℤ)}
    (hsets : filledSets hashes (M, K) trees = .ok sets)
    (hms : cv.EncryptsInts S (f.eval 0 • S.Base) (sumSets M sets))
    (hrange : ∀ m ∈ sumSets M sets, 0 ≤ m ∧ m < MaxHomomorphicInt) (ht255 : t ≤ 255)
    {tbl : DlogTable G} (htbl : NonnegTable S.Base tbl) (r : String) (c : Node) (cs : List Node) :
    ∃ t' tbl', serviceReconstruct recoverCommit S.Base hashes render n t partials (.mk r (c :: cs)) (M, K) tbl =
        .ok ((render t').map fun page => (sumSets M sets, page), tbl') ∧
      Prunes (LowCount hashes t (bloomFilterFromSet (sumSets M sets) (M, K))) (.mk r (c :: cs)) (some t') ∧
      ∀ d ∈ (Node.mk r (c :: cs)).leafData,
        t ≤ trees.countP (fun T => decide (d ∈ listUniqueDataLeaves T)) → d ∈ t'.leafData := by
  obtain ⟨tbl', hrec, -⟩ :=
    reconstruct_recovers_plaintext_of_le_card S hB hrc hf hP h0 hks ht hcard hinj hms hrange htbl
  obtain ⟨t', hsave, hprunes, hkeeps⟩ :=
    serviceReconstruct_prunes_of_sum hashes render hM (forall₂_filledFrom_of_filledSets hashes hM hsets) hrec ht255
      r c cs
  exact ⟨t', tbl', hsave, hprunes, hkeeps⟩

/-- In the sample save, the root's text `12:01`, which only the root saw, is
counted once, and `text`, which both conodes saw, stays in the page. -/
theorem serviceReconstruct_keeps_shared_leaves_sample :
    filledSets sampleHashes (2, 1) [rootPage, conodePage] = .ok [[1, 1], [1, 0]] ∧
      PartialDecryptions {0, 1} (fun j => (C (2 : ℚ)).eval ((j + 1 : ℕ) : ℚ)) (sampleCipher [2, 1])
        (samplePartials [2, 1]) ∧
      ∃ t' tbl', serviceReconstruct (recoverFirstShares (G := ℚ) ℚ) Suite.rat.Base sampleHashes (fun _ => .ok []) 2 2 (samplePartials [2, 1])
          rootPage (2, 1) DlogTable.initial =
          .ok ((Except.ok [] : Except String Bytes).map fun page => (sumSets 2 [[1, 1], [1, 0]], page), tbl') ∧
        Prunes (LowCount sampleHashes ((2 : ℕ) : ℤ) (bloomFilterFromSet (sumSets 2 [[1, 1], [1, 0]]) (2, 1)))
          rootPage (some t') ∧
        ∀ d ∈ rootPage.leafData, 2 ≤ [rootPage, conodePage].countP (fun T => decide (d ∈ listUniqueDataLeaves T)) →
          d ∈ t'.leafData := by
  have hsets : filledSets sampleHashes (2, 1) [rootPage, conodePage] = .ok [[1, 1], [1, 0]] := by
    decide
  have hms : (sampleCipher [2, 1]).EncryptsInts Suite.rat ((C (2 : ℚ)).eval 0 • Suite.rat.Base)
      (sumSets 2 [[1, 1], [1, 0]]) := by
    rw [sumSets_sample]
    exact sampleCipher_encryptsInts [2, 1]
  have hrange : ∀ m ∈ sumSets 2 [[1, 1], [1, 0]], 0 ≤ m ∧ m < MaxHomomorphicInt := by
    rw [sumSets_sample]
    decide
  exact ⟨hsets, samplePartials_decryptions _,
    serviceReconstruct_keeps_shared_leaves sampleHashes (fun _ => .ok []) Suite.rat (orderExceeds_rat_base _)
      (recoverFirstShares_spec ℚ) sample_degree_lt (samplePartials_decryptions _) (by decide) (by decide) (by decide) (by decide)
      sampleSlots_injOn (by decide) hsets hms hrange (by decide) (NonnegTable.initial _) "html" _ _⟩

/-- **A page that enough conodes saw whole is archived as it is.**  Under
the same decryptions, when every leaf of the root's page was seen by at
least `threshold` conodes, the consensus page is the root's page. -/
theorem serviceReconstruct_of_leaves_seen (hB : OrderExceeds S.Base (2 * MaxHomomorphicInt))
    (hrc : RecoverCommitSpec F recoverCommit)
    {n t : ℕ} {ks : Finset ℕ} {f : F[X]} (hf : f.degree < t) {cv : CipherVector G}
    {partials : AList fun _ : ℕ => List G}
    (hP : PartialDecryptions ks (fun j => f.eval ((j + 1 : ℕ) : F)) cv partials) (h0 : 0 ∈ ks)
    (hks : ∀ j ∈ ks, j < n) (ht : 0 < t) (hcard : t ≤ ks.card)
    (hinj : Set.InjOn (fun j : ℕ => ((j + 1 : ℕ) : F)) (Finset.range n))
    {M K : ℕ} (hM : 0 < M) {trees : List Node} {sets : List (List ℤ)}
    (hsets : filledSets hashes (M, K) trees = .ok sets)
    (hms : cv.EncryptsInts S (f.eval 0 • S.Base) (sumSets M sets))
    (hrange : ∀ m ∈ sumSets M sets, 0 ≤ m ∧ m < MaxHomomorphicInt) (ht255 : t ≤ 255)
    {tbl : DlogTable G} (htbl : NonnegTable S.Base tbl) (localTree : Node)
    (hseen : ∀ d ∈ localTree.leafData, t ≤ trees.countP fun T => decide (d ∈ listUniqueDataLeaves T)) :
    ∃ tbl', serviceReconstruct recoverCommit S.Base hashes render n t partials localTree (M, K) tbl =
      .ok ((render localTree).map fun page => (sumSets M sets, page), tbl') := by
  obtain ⟨tbl', hrec, -⟩ :=
    reconstruct_recovers_plaintext_of_le_card S hB hrc hf hP h0 hks ht hcard hinj hms hrange htbl
  have hkept : visitNode hashes t (bloomFilterFromSet (sumSets M sets) (M, K)) localTree = .ok (some localTree) :=
    visitNode_of_high hashes t _ localTree fun d hd =>
      count_sumSets_of_seen hashes hM (forall₂_filledFrom_of_filledSets hashes hM hsets) ht255 (hseen d hd)
  refine ⟨tbl', ?_⟩
  rw [serviceReconstruct_of_reconstruct hrec, consensusTree, hkept, Outcome.ok_bind]
  rfl

/-- Two conodes that fetched the same page: the consensus page is that
page. -/
theorem serviceReconstruct_of_leaves_seen_sample :
    filledSets sampleHashes (2, 1) [conodePage, conodePage] = .ok [[1, 0], [1, 0]] ∧
      (∀ d ∈ conodePage.leafData, 2 ≤ [conodePage, conodePage].countP fun T => decide (d ∈ listUniqueDataLeaves T)) ∧
      ∃ tbl', serviceReconstruct (recoverFirstShares (G := ℚ) ℚ) Suite.rat.Base sampleHashes (fun _ => .ok []) 2 2 (samplePartials [2, 0])
          conodePage (2, 1) DlogTable.initial =
        .ok ((Except.ok [] : Except String Bytes).map fun page => (sumSets 2 [[1, 0], [1, 0]], page), tbl') := by
  have hsets : filledSets sampleHashes (2, 1) [conodePage, conodePage] = .ok [[1, 0], [1, 0]] := by
    decide
  have hsum : sumSets 2 [[1, 0], [1, 0]] = [2, 0] := by
    decide
  have hms : (sampleCipher [2, 0]).EncryptsInts Suite.rat ((C (2 : ℚ)).eval 0 • Suite.rat.Base)
      (sumSets 2 [[1, 0], [1, 0]]) := by
    rw [hsum]
    exact sampleCipher_encryptsInts [2, 0]
  have hrange : ∀ m ∈ sumSets 2 [[1, 0], [1, 0]], 0 ≤ m ∧ m < MaxHomomorphicInt := by
    rw [hsum]
    decide
  have hseen : ∀ d ∈ conodePage.leafData,
      2 ≤ [conodePage, conodePage].countP fun T => decide (d ∈ listUniqueDataLeaves T) := by
    decide
  exact ⟨hsets, hseen,
    serviceReconstruct_of_leaves_seen sampleHashes (fun _ => .ok []) Suite.rat (orderExceeds_rat_base _)
      (recoverFirstShares_spec ℚ) sample_degree_lt (samplePartials_decryptions _) (by decide) (by decide) (by decide) (by decide)
      sampleSlots_injOn (by decide) hsets hms hrange (by decide) (NonnegTable.initial _) conodePage hseen⟩

end Reconstruct

/-! ## The page against the conodes' check -/

section Sign

variable {F G Proof : Type} [AddCommGroup G] [DecidableEq G]
variable (recoverCommit : ℕ → ℕ → (ℕ → Option G) → Except String G) (hashes : Bytes → ℕ × ℕ)

/-- `Count` returns on a filter whose vector has its `M ≥ 1` counters. -/
theorem CBF.count_returns {c : CBF} (hM : c.M ≠ 0) (hlen : c.Set.length = c.M) (e : Bytes) :
    ∃ v, c.count hashes e = .ok v :=
  (CBF.foldlM_countAt_ge hM hlen (hashes e) (List.range c.K) 255).imp fun _ h => h.1

/-- With a filter whose `Count` returns, the loop over the leaves of a page
refuses a page that has a leaf other than `noscript` and `script` missing
from the conode's leaves. -/
theorem leavesAccepted_of_unseen {consensusLeaves : List String} {cbf : CBF}
    (hcount : ∀ d, ∃ k, cbf.count hashes (stringBytes d) = .ok k) :
    ∀ {ls : List String}, (∃ l ∈ ls, l ≠ "noscript" ∧ l ≠ "script" ∧ l ∉ consensusLeaves) →
      leavesAccepted hashes consensusLeaves cbf ls = .ok false
  | [], ⟨_, hl, _⟩ => absurd hl List.not_mem_nil
  | l :: ls, ⟨x, hx, hns, hs, hnot⟩ => by
      rw [leavesAccepted]
      rcases List.mem_cons.mp hx with rfl | hx
      · rw [if_neg (not_or.mpr ⟨hns, hs⟩), if_pos hnot]
      · -- `x` comes later: whatever the loop does with `l`, it does not accept
        split_ifs with hskip hseen
        · exact leavesAccepted_of_unseen hcount ⟨x, hx, hns, hs, hnot⟩
        · obtain ⟨k, hk⟩ := hcount l
          rw [hk, Outcome.ok_bind]
          split_ifs
          · rfl
          · exact leavesAccepted_of_unseen hcount ⟨x, hx, hns, hs, hnot⟩
        · rfl

/-- The sample page with its title emptied. -/
def emptiedPage : Node :=
  .mk "html" [.mk "title" [], .mk "p" [.mk "text" []]]

/-- What the other conode of the sample save checks a page against: its own
leaves, and the consensus filter and parameters the root propagated. -/
def conodeData : VerificationData ℚ ℚ :=
  { RootKey := "1", Threshold := 2, ConodeKey := "2", Partials := ∅, EncryptedCBFSet := none,
    Leaves := listUniqueDataLeaves conodePage, CompleteProofs := ∅, ConsensusSet := [2, 1],
    ConsensusParameters := [2, 1] }

omit [AddCommGroup G] [DecidableEq G] in
/-- Under propagated parameters `M :: K :: _` with the `M ≥ 1` counters of
the consensus filter, the loop over the leaves of a page refuses a leaf,
other than `noscript` and `script`, that the conode's leaves lack. -/
theorem leavesAccepted_refuses_unseen {vd : VerificationData G Proof} {M K : ℕ} {ps : List ℕ}
    (hparam : vd.ConsensusParameters = M :: K :: ps) (hM : 0 < M) (hlen : vd.ConsensusSet.length = M)
    {rootNode : Node} {l : String} (hl : l ∈ rootNode.leafData) (hns : l ≠ "noscript") (hs : l ≠ "script")
    (hnot : l ∉ vd.Leaves) :
    ∃ cbf, consensusCBF vd = .ok cbf ∧
      leavesAccepted hashes vd.Leaves cbf (listUniqueDataLeaves rootNode) = .ok false := by
  refine ⟨bloomFilterFromSet vd.ConsensusSet (M, K), by rw [consensusCBF, hparam], ?_⟩
  exact leavesAccepted_of_unseen hashes (fun d => CBF.count_returns hashes (Nat.pos_iff_ne_zero.mp hM) hlen _)
    ⟨l, ((listUniqueDataLeaves_spec rootNode).2 l).mpr hl, hns, hs, hnot⟩

variable (S : Suite F G Proof)

/-- Once the loop over the leaves refused, `verificationFunctionStructured`
returns `false`, with the table as it was. -/
theorem verificationFunctionStructured_of_leaves_refused {parse : Bytes → Option Node}
    {unmarshal : Bytes → Option (VerificationData G Proof)} (visits : List (CompleteProof G Proof × List Bytes))
    (order : List Bytes) {msg data : Bytes} {vd : VerificationData G Proof} {rootNode : Node} {cbf : CBF}
    (hdata : unmarshal data = some vd) (hmsg : parse msg = some rootNode) (hcbf : consensusCBF vd = .ok cbf)
    (hleaves : leavesAccepted hashes vd.Leaves cbf (listUniqueDataLeaves rootNode) = .ok false) (s : DlogTable G) :
    verificationFunctionStructured recoverCommit S hashes parse unmarshal visits order msg data s = .ok (false, s) := by
  rw [verificationFunctionStructured, hdata]
  simp only [hmsg, hcbf, hleaves, Outcome.ok_bind, Bool.not_false, if_true]

/-- **A conode never cosigns a leaf it did not see.**  Whatever the proofs
and the audit, `verificationFunctionStructured` refuses a page with a leaf,
other than `noscript` and `script`, that is not among the conode's own
leaves, as soon as its consensus filter has its counters. -/
theorem verificationFunctionStructured_refuses_unseen_leaf {parse : Bytes → Option Node}
    {unmarshal : Bytes → Option (VerificationData G Proof)} (visits : List (CompleteProof G Proof × List Bytes))
    (order : List Bytes) {msg data : Bytes} {vd : VerificationData G Proof} {rootNode : Node}
    (hdata : unmarshal data = some vd) (hmsg : parse msg = some rootNode) {M K : ℕ} {ps : List ℕ}
    (hparam : vd.ConsensusParameters = M :: K :: ps) (hM : 0 < M) (hlen : vd.ConsensusSet.length = M)
    {l : String} (hl : l ∈ rootNode.leafData) (hns : l ≠ "noscript") (hs : l ≠ "script")
    (hnot : l ∉ vd.Leaves) (s : DlogTable G) :
    verificationFunctionStructured recoverCommit S hashes parse unmarshal visits order msg data s = .ok (false, s) := by
  obtain ⟨cbf, hcbf, hleaves⟩ := leavesAccepted_refuses_unseen hashes hparam hM hlen hl hns hs hnot
  exact verificationFunctionStructured_of_leaves_refused recoverCommit hashes S visits order hdata hmsg hcbf hleaves s

/-- The other conode of the sample save refuses the page with the empty
title: `title` is not a leaf of its own page. -/
theorem verificationFunctionStructured_refuses_emptied_title :
    "title" ∈ emptiedPage.leafData ∧ "title" ∉ conodeData.Leaves ∧
      verificationFunctionStructured (recoverFirstShares (G := ℚ) ℚ) Suite.rat sampleHashes (fun _ => some emptiedPage)
        (fun _ => some conodeData) [] [] [] [] DlogTable.initial = .ok (false, DlogTable.initial) := by
  have hl : "title" ∈ emptiedPage.leafData := by
    decide
  have hnot : "title" ∉ conodeData.Leaves := by
    decide
  exact ⟨hl, hnot, verificationFunctionStructured_refuses_unseen_leaf _ sampleHashes Suite.rat [] [] rfl rfl rfl
    (by decide) rfl hl (by decide) (by decide) hnot _⟩

/-- **A tag that the consensus empties makes the conodes refuse the page.**
Wherever the traversal reaches a tag `e` whose only child is a leaf `d`
counted below the threshold in the reconstructed filter (the text of a
`<title>` under `<head>` that changed between the fetches),
`Service.reconstruct` renders a tree that has the now empty `e` as a leaf.
A conode whose own leaves do not hold `e` refuses every page that
`html.Parse` reads back as that tree, under the consensus filter and
parameters the root propagated. -/
theorem serviceReconstruct_empties_tag (render : Node → Except String Bytes) {nodes t : ℕ}
    {partials : AList fun _ : ℕ => List G} {s s' : DlogTable G} {set : List ℤ}
    (hrec : reconstructVectorFromPartials recoverCommit S.Base nodes t partials s = .ok (.ok set, s'))
    {M K : ℕ} (hM : 0 < M) (hlen : set.length = M) {localTree : Node} {e d : String}
    (hvisit : Visited hashes t (bloomFilterFromSet set (M, K)) localTree (.mk e [.mk d []]))
    (hlow : LowCount hashes t (bloomFilterFromSet set (M, K)) d) (hns : e ≠ "noscript") (hs : e ≠ "script") :
    ∃ page, serviceReconstruct recoverCommit S.Base hashes render nodes t partials localTree (M, K) s =
        .ok ((render page).map fun html => (set, html), s') ∧ e ∈ page.leafData ∧
      ∀ (parse : Bytes → Option Node) (unmarshal : Bytes → Option (VerificationData G Proof))
        (visits : List (CompleteProof G Proof × List Bytes)) (order : List Bytes) (html data : Bytes)
        (vd : VerificationData G Proof), parse html = some page → unmarshal data = some vd →
        vd.ConsensusSet = set → vd.ConsensusParameters = [M, K] → e ∉ vd.Leaves →
        ∀ s₀, verificationFunctionStructured recoverCommit S hashes parse unmarshal visits order html data s₀ =
          .ok (false, s₀) := by
  have hcount : ∀ x, ∃ k, (bloomFilterFromSet set (M, K)).count hashes (stringBytes x) = .ok k :=
    fun x => CBF.count_returns hashes (Nat.pos_iff_ne_zero.mp hM) hlen _
  obtain ⟨k, hk, hklow⟩ := hlow
  -- the tag keeps its place, now as the leaf `e`, and stays in the consensus tree
  obtain ⟨page, hpage, hsub⟩ := visitNode_leafData_of_visited t hcount hvisit
    (visitNode_empties_tag hashes t (bloomFilterFromSet set (M, K)) e hk hklow)
  have hleaf : e ∈ page.leafData := hsub e (by simp [Node.leafData])
  have hcons : consensusTree hashes t (bloomFilterFromSet set (M, K)) localTree = .ok page := by
    rw [consensusTree, hpage, Outcome.ok_bind]
  refine ⟨page, by rw [serviceReconstruct_of_reconstruct hrec, hcons, Outcome.map_ok], hleaf, ?_⟩
  intro parse unmarshal visits order html data vd hparse hdata hset hparam hnot s₀
  obtain ⟨cbf, hcbf, hleaves⟩ := leavesAccepted_refuses_unseen hashes hparam hM (hset ▸ hlen) hleaf hns hs hnot
  exact verificationFunctionStructured_of_leaves_refused recoverCommit hashes S visits order hdata hparse hcbf
    hleaves s₀

/-- The root's page of the sample save with its title under `<head>`. -/
def rootPageWithHead : Node :=
  .mk "html" [.mk "head" [.mk "title" [.mk "12:01" []]], .mk "body" [.mk "p" [.mk "text" []]]]

/-- The traversal reaches the title under `<head>`: `head` is the first child
of the root and the title the first child of `head`. -/
theorem visited_title_rootPageWithHead (hashes : Bytes → ℕ × ℕ) (threshold : ℤ) (cbf : CBF) :
    Visited hashes threshold cbf rootPageWithHead (.mk "title" [.mk "12:01" []]) := by
  have hhead : Visited hashes threshold cbf rootPageWithHead (.mk "head" [.mk "title" [.mk "12:01" []]]) :=
    @Visited.child hashes threshold cbf rootPageWithHead "html" [] [] [.mk "body" [.mk "p" [.mk "text" []]]] _
      .root .nil
  exact @Visited.child hashes threshold cbf rootPageWithHead "head" [] [] [] _ hhead .nil

/-- The sample save, with the root's title under `<head>`: the root's text
`12:01` is counted once, below the threshold `2`, so the title is emptied,
and the other conode, whose leaves hold no `title`, refuses the page. -/
theorem serviceReconstruct_empties_title_sample :
    ∃ s', reconstructVectorFromPartials (recoverFirstShares (G := ℚ) ℚ) Suite.rat.Base 2 2
        (samplePartials [2, 1]) DlogTable.initial = .ok (.ok [2, 1], s') ∧
      Visited sampleHashes ((2 : ℕ) : ℤ) (bloomFilterFromSet [2, 1] (2, 1)) rootPageWithHead
        (.mk "title" [.mk "12:01" []]) ∧
      LowCount sampleHashes ((2 : ℕ) : ℤ) (bloomFilterFromSet [2, 1] (2, 1)) "12:01" ∧
      ∃ page, serviceReconstruct (recoverFirstShares (G := ℚ) ℚ) Suite.rat.Base sampleHashes (fun _ => .ok [])
          2 2 (samplePartials [2, 1]) rootPageWithHead (2, 1) DlogTable.initial =
          .ok ((Except.ok [] : Except String Bytes).map fun html => ([2, 1], html), s') ∧
        "title" ∈ page.leafData ∧
        ∀ (parse : Bytes → Option Node) (unmarshal : Bytes → Option (VerificationData ℚ ℚ))
          (visits : List (CompleteProof ℚ ℚ × List Bytes)) (order : List Bytes) (html data : Bytes)
          (vd : VerificationData ℚ ℚ), parse html = some page → unmarshal data = some vd →
          vd.ConsensusSet = [2, 1] → vd.ConsensusParameters = [2, 1] → "title" ∉ vd.Leaves →
          ∀ s₀, verificationFunctionStructured (recoverFirstShares (G := ℚ) ℚ) Suite.rat sampleHashes parse
            unmarshal visits order html data s₀ = .ok (false, s₀) := by
  obtain ⟨s', hrec, -⟩ := reconstruct_recovers_plaintext_of_le_card Suite.rat (orderExceeds_rat_base _)
    (recoverFirstShares_spec ℚ) sample_degree_lt (samplePartials_decryptions [2, 1]) (by decide) (by decide)
    (by decide) (by decide) sampleSlots_injOn (sampleCipher_encryptsInts [2, 1]) (by decide)
    (NonnegTable.initial _)
  have hlow : LowCount sampleHashes ((2 : ℕ) : ℤ) (bloomFilterFromSet [2, 1] (2, 1)) "12:01" :=
    ⟨1, by decide, by decide⟩
  have hvisit := visited_title_rootPageWithHead sampleHashes ((2 : ℕ) : ℤ) (bloomFilterFromSet [2, 1] (2, 1))
  exact ⟨s', hrec, hvisit, hlow, serviceReconstruct_empties_tag _ sampleHashes Suite.rat (fun _ => .ok []) hrec
    (by decide) rfl hvisit hlow (by decide) (by decide)⟩

end Sign

end Decenarch
