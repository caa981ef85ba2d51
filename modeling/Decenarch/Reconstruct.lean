import Decenarch.Decrypt
import Decenarch.DiscreteLog
import Decenarch.Lib.Lagrange

/-!
# Reconstruction of the consensus filter (`lib/utils.go`, `service/service.go`)

After the Decrypt protocol, the root `B` of a `SaveWebpage` request holds the
partial decryptions of the aggregated vector, keyed by each replier's
`RosterIndex` in `B`'s tree and its own under `0`.
`ReconstructVectorFromPartials` interpolates them at zero entry by entry with
kyber's `share.RecoverCommit`, and decodes each point with `GetPointToInt`.

kyber and onet are not part of the repository.  `share.RecoverCommit` and
onet's `Roster.NewRosterWithRoot` are parameters, and what the repository
relies on of them are the hypotheses `RecoverCommitSpec` (fewer than `t`
shares give an error; otherwise at least `t` of the shares, the one of slot
`j` at the abscissa `j + 1`, are interpolated at zero) and
`NewRosterWithRootSpec` (the same conodes, the root first).  The shares come
from the DKG that the `Setup` request ran on the roster as
`NewRosterWithRoot(A)` reorders it for the conode `A` that served it; the
hypothesis `DKGShares` says that the conode at position `i` holds `f(i + 1)`
for the DKG polynomial `f`, whose value `f(0)` is the collective secret.

The interpolation therefore recovers the scalar `recoveredSecret`, the shares
of the conodes in `B`'s slots interpolated at the abscissas of `B`'s roster,
and `reconstruct` decrypts the vector with it.  It is the DKG secret when the
two rosters agree, as they do when `A = B`.
-/

open Polynomial

namespace Decenarch

variable {α : Type*}

/-! ## onet's `NewRosterWithRoot` -/

/-- What the service relies on of onet's `Roster.NewRosterWithRoot(root)`,
for a `root` of a roster of distinct conodes: a roster of the same conodes,
with `root` first. -/
structure NewRosterWithRootSpec (newRosterWithRoot : List α → α → List α) : Prop where
  perm : ∀ {roster : List α} {root : α}, roster.Nodup → root ∈ roster →
    (newRosterWithRoot roster root).Perm roster
  head : ∀ {roster : List α} {root : α}, roster.Nodup → root ∈ roster →
    (newRosterWithRoot roster root).head? = some root

/-- A list of the two elements `x` and `y` that starts with `x` is `[x, y]`. -/
theorem eq_pair_of_perm {l : List α} {x y : α} (hperm : l.Perm [x, y]) (hhead : l.head? = some x) :
    l = [x, y] := by
  obtain ⟨t, rfl⟩ : ∃ t, l = x :: t := ⟨l.tail, List.eq_cons_of_mem_head? hhead⟩
  rw [List.perm_singleton.mp hperm.cons_inv]

namespace NewRosterWithRootSpec

variable {newRosterWithRoot : List α → α → List α}

theorem length_eq (h : NewRosterWithRootSpec newRosterWithRoot) {roster : List α} {root : α}
    (hnodup : roster.Nodup) (hroot : root ∈ roster) :
    (newRosterWithRoot roster root).length = roster.length :=
  (h.perm hnodup hroot).length_eq

theorem eq_cons_tail (h : NewRosterWithRootSpec newRosterWithRoot) {roster : List α} {root : α}
    (hnodup : roster.Nodup) (hroot : root ∈ roster) :
    newRosterWithRoot roster root = root :: (newRosterWithRoot roster root).tail :=
  List.eq_cons_of_mem_head? (h.head hnodup hroot)

/-- On two conodes, the roster with the first one as root is the roster. -/
theorem pair_left (h : NewRosterWithRootSpec newRosterWithRoot) {a b : α} (hab : a ≠ b) :
    newRosterWithRoot [a, b] a = [a, b] := by
  have hnodup : [a, b].Nodup := by simpa using hab
  exact eq_pair_of_perm (h.perm hnodup List.mem_cons_self) (h.head hnodup List.mem_cons_self)

/-- On two conodes, the roster with the second one as root swaps them. -/
theorem pair_right (h : NewRosterWithRootSpec newRosterWithRoot) {a b : α} (hab : a ≠ b) :
    newRosterWithRoot [a, b] b = [b, a] := by
  have hnodup : [a, b].Nodup := by simpa using hab
  have hb : b ∈ [a, b] := by simp
  exact eq_pair_of_perm ((h.perm hnodup hb).trans (List.Perm.swap b a [])) (h.head hnodup hb)

end NewRosterWithRootSpec

variable [DecidableEq α]

/-- onet's implementation of `NewRosterWithRoot(root)` for a `root` of the
roster: the first conode and `root` swap places.  It meets
`NewRosterWithRootSpec` (`swapRoot_spec`); the witnesses use it. -/
def swapRoot : List α → α → List α
  | [], _ => []
  | a :: l, root => if a = root then a :: l else root :: l.map fun b => if b = root then a else b

theorem head?_swapRoot {l : List α} (hl : l ≠ []) (root : α) : (swapRoot l root).head? = some root := by
  cases l with
  | nil => exact absurd rfl hl
  | cons a l =>
    rw [swapRoot]
    split_ifs with h
    · rw [List.head?_cons, h]
    · rfl

theorem swapRoot_perm {l : List α} {root : α} (hl : l.Nodup) (hroot : root ∈ l) :
    (swapRoot l root).Perm l := by
  cases l with
  | nil => exact absurd hroot List.not_mem_nil
  | cons a l =>
    rw [swapRoot]
    split_ifs with h
    · exact List.Perm.refl _
    · -- `root` sits in the tail, where the map puts `a` and leaves the others
      obtain ⟨ha, hl'⟩ := List.nodup_cons.mp hl
      obtain ⟨l₁, l₂, rfl⟩ := List.append_of_mem ((List.mem_cons.mp hroot).resolve_left (Ne.symm h))
      have hfresh := (List.nodup_cons.mp (List.nodup_middle.mp hl')).1
      have hkeep : ∀ l' : List α, root ∉ l' → (l'.map fun b => if b = root then a else b) = l' := by
        intro l' hl''
        conv_rhs => rw [← List.map_id l']
        exact List.map_congr_left fun b hb => if_neg (ne_of_mem_of_not_mem hb hl'')
      rw [List.map_append, List.map_cons, if_pos rfl, hkeep l₁ fun h₁ => hfresh (List.mem_append_left _ h₁),
        hkeep l₂ fun h₂ => hfresh (List.mem_append_right _ h₂)]
      exact (List.perm_middle.cons _).trans ((List.Perm.swap _ _ _).trans (List.perm_middle.symm.cons _))

theorem swapRoot_spec : NewRosterWithRootSpec (swapRoot (α := α)) :=
  ⟨swapRoot_perm, fun _ hroot => head?_swapRoot (List.ne_nil_of_mem hroot) _⟩

/-- `len(Roster.List) - (len(Roster.List)-1)/3`, the threshold that `Setup`
stores and propagates. -/
def serviceThreshold (n : ℕ) : ℕ :=
  n - (n - 1) / 3

variable {F G Proof : Type}

/-! ## The slots of `ReconstructVectorFromPartials` -/

/-- One turn of the loop over `partials`: `shares[j] = &share.PubShare{I: j,
V: partial[i]}`, which panics for a key past the `n` slots or a partial
without an entry `i`. -/
def shareStep (n i : ℕ) (shares : ℕ → Option G) (e : (_ : ℕ) × List G) : Outcome (ℕ → Option G) :=
  if e.1 < n then
    match e.2[i]? with
    | some V => .ok (Function.update shares e.1 (some V))
    | none => .panic
  else .panic

/-- The slots of entry `i`, filled from every entry of `partials`. -/
def sharesAt (n : ℕ) (partials : AList fun _ : ℕ => List G) (i : ℕ) : Outcome (ℕ → Option G) :=
  partials.entries.foldlM (shareStep n i) fun _ => none

/-- The loop over the stored vectors fills the slot of each key with its
entry `i` and leaves the other slots as they were. -/
theorem foldlM_shareStep {n i : ℕ} :
    ∀ (es : List ((_ : ℕ) × List G)) (acc : ℕ → Option G), es.NodupKeys →
      (∀ e ∈ es, e.1 < n ∧ i < e.2.length) →
      es.foldlM (shareStep n i) acc = .ok fun j => ((es.dlookup j).bind (·[i]?)).or (acc j)
  | [], _, _, _ => rfl
  | ⟨k, l⟩ :: es, acc, hnd, hall => by
      obtain ⟨hk, hi⟩ := hall ⟨k, l⟩ List.mem_cons_self
      obtain ⟨hfresh, hnd'⟩ := List.nodupKeys_cons.mp hnd
      have hstep : shareStep n i acc ⟨k, l⟩ = .ok (Function.update acc k (some l[i])) := by
        simp only [shareStep, if_pos hk, List.getElem?_eq_getElem hi]
      rw [List.foldlM_cons, hstep, Outcome.ok_bind,
        foldlM_shareStep es _ hnd' fun e he => hall e (List.mem_cons_of_mem _ he)]
      congr 1
      funext j
      by_cases hj : j = k
      · -- no later entry has the key `k`
        subst hj
        rw [List.dlookup_eq_none.mpr hfresh, List.dlookup_cons_eq, Function.update_self]
        simp [List.getElem?_eq_getElem hi]
      · rw [List.dlookup_cons_ne es ⟨k, l⟩ hj, Function.update_of_ne hj]

/-- With every key among the `n` slots and an entry `i` in every stored
vector, the slots of entry `i` hold the stored vectors' entries `i`. -/
theorem sharesAt_eq {n i : ℕ} {partials : AList fun _ : ℕ => List G}
    (h : ∀ j l, partials.lookup j = some l → j < n ∧ i < l.length) :
    sharesAt n partials i = .ok fun j => (partials.lookup j).bind (·[i]?) := by
  rw [sharesAt, foldlM_shareStep _ _ partials.nodupKeys fun e he =>
    h e.1 e.2 (AList.mem_lookup_iff.mpr he)]
  simp only [Option.or_none]
  rfl

variable [Field F] [AddCommGroup G] [Module F G]

/-! ## kyber's `RecoverCommit` -/

section Recover

variable (F)

/-- What `ReconstructVectorFromPartials` relies on of kyber's
`share.RecoverCommit(suite, shares, t, n)`, on the slots `0, …, n-1` of which
those of `ks` hold a share `PubShare{I: j, V}`: with fewer than `t` shares it
returns an error, and otherwise the value at zero of at least `t` of the
shares, the one of slot `j` taken at the abscissa `j + 1`. -/
structure RecoverCommitSpec (recoverCommit : ℕ → ℕ → (ℕ → Option G) → Except String G) : Prop where
  error_of_card_lt : ∀ {t n : ℕ} {shares : ℕ → Option G} {ks : Finset ℕ},
    (∀ j, (shares j).isSome ↔ j ∈ ks) → (∀ j ∈ ks, j < n) → ks.card < t →
      ∃ e, recoverCommit t n shares = .error e
  interpolates : ∀ {t n : ℕ} {shares : ℕ → Option G} {ks : Finset ℕ},
    (∀ j, (shares j).isSome ↔ j ∈ ks) → (∀ j ∈ ks, j < n) → t ≤ ks.card →
      ∃ T ⊆ ks, t ≤ T.card ∧ recoverCommit t n shares =
        .ok (Shamir.interpolateAtZero T (fun j => ((j + 1 : ℕ) : F)) fun j => (shares j).getD 0)

/-- kyber's `RecoverCommit` on the slots `0, …, n-1`, for the witnesses:
`xyCommit` keeps the first `t` slots that hold a share, in the order of their
indices, and interpolates them at zero with the abscissa `I + 1`.  It meets
`RecoverCommitSpec` (`recoverFirstShares_spec`). -/
def recoverFirstShares (t n : ℕ) (shares : ℕ → Option G) : Except String G :=
  let used := ((List.range n).filter fun j => (shares j).isSome).take t
  if used.length < t then .error "share: not enough good public shares to reconstruct secret commitment"
  else .ok (Shamir.interpolateAtZero used.toFinset (fun j => ((j + 1 : ℕ) : F)) fun j => (shares j).getD 0)

/-- The slots that `recoverFirstShares` interpolates when the slots `ks`, all
among the `n`, hold a share: the first `t` of them. -/
def firstSlots (t n : ℕ) (ks : Finset ℕ) : Finset ℕ :=
  (((List.range n).filter fun j => j ∈ ks).take t).toFinset

theorem filter_range_mem {n : ℕ} {ks : Finset ℕ} (hlt : ∀ j ∈ ks, j < n) :
    ((List.range n).filter fun j => j ∈ ks).toFinset = ks ∧
      ((List.range n).filter fun j => j ∈ ks).length = ks.card := by
  have hset : ((List.range n).filter fun j => j ∈ ks).toFinset = ks := by
    ext j
    simp only [List.mem_toFinset, List.mem_filter, List.mem_range, decide_eq_true_eq]
    exact ⟨And.right, fun hj => ⟨hlt j hj, hj⟩⟩
  refine ⟨hset, ?_⟩
  conv_rhs => rw [← hset]
  rw [List.toFinset_card_of_nodup (List.nodup_range.filter _)]

theorem firstSlots_subset (t n : ℕ) (ks : Finset ℕ) : firstSlots t n ks ⊆ ks := by
  intro j hj
  rw [firstSlots, List.mem_toFinset] at hj
  exact of_decide_eq_true (List.mem_filter.mp (List.mem_of_mem_take hj)).2

theorem card_firstSlots {t n : ℕ} {ks : Finset ℕ} (hlt : ∀ j ∈ ks, j < n) (hcard : t ≤ ks.card) :
    (firstSlots t n ks).card = t := by
  rw [firstSlots, List.toFinset_card_of_nodup
    (List.Nodup.sublist (List.take_sublist _ _) (List.nodup_range.filter _)), List.length_take,
    (filter_range_mem hlt).2]
  omega

omit [AddCommGroup G] in
theorem filter_isSome_eq {n : ℕ} {shares : ℕ → Option G} {ks : Finset ℕ}
    (hks : ∀ j, (shares j).isSome ↔ j ∈ ks) :
    ((List.range n).filter fun j => (shares j).isSome) = (List.range n).filter fun j => j ∈ ks :=
  List.filter_congr fun j _ => by
    by_cases hj : j ∈ ks
    · simp [hj, (hks j).mpr hj]
    · simp [hj, mt (hks j).mp hj]

/-- With at least `t` slots holding a share, `recoverFirstShares`
interpolates the first `t`. -/
theorem recoverFirstShares_of_le_card {t n : ℕ} {shares : ℕ → Option G} {ks : Finset ℕ}
    (hks : ∀ j, (shares j).isSome ↔ j ∈ ks) (hlt : ∀ j ∈ ks, j < n) (hcard : t ≤ ks.card) :
    recoverFirstShares F t n shares = .ok (Shamir.interpolateAtZero (firstSlots t n ks)
      (fun j => ((j + 1 : ℕ) : F)) fun j => (shares j).getD 0) := by
  have hlen : (((List.range n).filter fun j => j ∈ ks).take t).length = t := by
    rw [List.length_take, (filter_range_mem hlt).2]
    omega
  dsimp only [recoverFirstShares]
  rw [filter_isSome_eq hks, if_neg (by omega)]
  rfl

/-- With fewer than `t` slots holding a share, `recoverFirstShares` fails. -/
theorem recoverFirstShares_of_card_lt {t n : ℕ} {shares : ℕ → Option G} {ks : Finset ℕ}
    (hks : ∀ j, (shares j).isSome ↔ j ∈ ks) (hlt : ∀ j ∈ ks, j < n) (hcard : ks.card < t) :
    recoverFirstShares F t n shares =
      .error "share: not enough good public shares to reconstruct secret commitment" := by
  have hlen : (((List.range n).filter fun j => j ∈ ks).take t).length < t := by
    rw [List.length_take, (filter_range_mem hlt).2]
    omega
  dsimp only [recoverFirstShares]
  rw [filter_isSome_eq hks, if_pos hlen]

theorem recoverFirstShares_spec : RecoverCommitSpec F (recoverFirstShares (G := G) F) where
  error_of_card_lt hks hlt hcard := ⟨_, recoverFirstShares_of_card_lt F hks hlt hcard⟩
  interpolates {t n _ ks} hks hlt hcard := ⟨firstSlots t n ks, firstSlots_subset t n ks,
    (card_firstSlots hlt hcard).ge, recoverFirstShares_of_le_card F hks hlt hcard⟩

end Recover

/-! ## The loop of `ReconstructVectorFromPartials` -/

section Reconstruct

variable (recoverCommit : ℕ → ℕ → (ℕ → Option G) → Except String G)

/-- The loop over the entries `i` of `ReconstructVectorFromPartials`, which
returns at the first error of `RecoverCommit`. -/
def recoverPoints (n threshold : ℕ) (partials : AList fun _ : ℕ => List G) :
    List ℕ → Outcome (Except String (List G))
  | [] => .ok (.ok [])
  | i :: is => sharesAt n partials i >>= fun shares =>
      match recoverCommit threshold n shares with
      | .error e => .ok (.error e)
      | .ok message => recoverPoints n threshold partials is >>= fun r => .ok (r.map (message :: ·))

omit [AddCommGroup G] in
/-- The loop over the entries returns every point when every entry's slots
fill and recover. -/
theorem recoverPoints_of_forall {n t : ℕ} {partials : AList fun _ : ℕ => List G} (point : ℕ → G) :
    ∀ is : List ℕ, (∀ i ∈ is, ∃ shares, sharesAt n partials i = .ok shares ∧
        recoverCommit t n shares = .ok (point i)) →
      recoverPoints recoverCommit n t partials is = .ok (.ok (is.map point))
  | [], _ => rfl
  | i :: is, h => by
      obtain ⟨shares, hs, hr⟩ := h i List.mem_cons_self
      rw [recoverPoints, hs, Outcome.ok_bind, hr,
        recoverPoints_of_forall point is fun i hi => h i (List.mem_cons_of_mem _ hi)]
      rfl

variable [DecidableEq G]

/-- `ReconstructVectorFromPartials(nodes, threshold, partials)`, with the
package state of `GetPointToInt`: one point for each entry of `partials[0]`,
then each point decoded in turn. -/
def reconstructVectorFromPartials (B : G) (nodes threshold : ℕ) (partials : AList fun _ : ℕ => List G)
    (s : DlogTable G) : Outcome (Except String (List ℤ) × DlogTable G) :=
  recoverPoints recoverCommit nodes threshold partials (List.range ((partials.lookup 0).getD []).length) >>= fun
    | .error e => .ok (.error e, s)
    | .ok points => runGetPointToInt B points s >>= fun r => .ok (.ok r.1, r.2)

/-- With no vector under the key `0`, the loop over the entries of
`partials[0]` does not run: `ReconstructVectorFromPartials` returns the empty
vector, and no error, whatever the other keys hold and whatever
`RecoverCommit` does. -/
theorem reconstructVectorFromPartials_of_lookup_zero {partials : AList fun _ : ℕ => List G}
    (h0 : partials.lookup 0 = none) (B : G) (n t : ℕ) (s : DlogTable G) :
    reconstructVectorFromPartials recoverCommit B n t partials s = .ok (.ok [], s) := by
  rw [reconstructVectorFromPartials, h0]
  rfl

end Reconstruct

theorem map_range_getD {β : Type*} {l : List β} {n : ℕ} (hn : l.length = n) (d : β) :
    (List.range n).map (fun i => l[i]?.getD d) = l := by
  subst hn
  apply List.ext_getElem
  · simp
  · intro i _ hi
    simp [List.getElem?_eq_getElem hi]

/-- The scalar that interpolating the slots `ks` at zero recovers from
partial decryptions under the scalars `v j`. -/
def recoveredSecret (ks : Finset ℕ) (v : ℕ → F) : F :=
  ∑ j ∈ ks, Shamir.weightAtZero ks (fun j => ((j + 1 : ℕ) : F)) j * v j

/-- `partials` holds, in each slot of `ks` and only there, the partial
decryption of `cv` under the scalar `v j`. -/
def PartialDecryptions (ks : Finset ℕ) (v : ℕ → F) (cv : CipherVector G)
    (partials : AList fun _ : ℕ => List G) : Prop :=
  ∀ j, partials.lookup j = if j ∈ ks then some (cv.map (decryptPoint (v j))) else none

section Slots

variable {n t : ℕ} {ks : Finset ℕ} {v : ℕ → F} {cv : CipherVector G}
  {partials : AList fun _ : ℕ => List G}

theorem sharesAt_of_partialDecryptions (hP : PartialDecryptions ks v cv partials)
    (hks : ∀ j ∈ ks, j < n) {e : ℕ} (he : e < cv.length) :
    sharesAt n partials e = .ok fun j => if j ∈ ks then some (decryptPoint (v j) cv[e]) else none := by
  have hslots : ∀ j l, partials.lookup j = some l → j < n ∧ e < l.length := by
    intro j l hl
    rw [hP j] at hl
    split_ifs at hl with hj
    · cases hl
      exact ⟨hks j hj, by rwa [List.length_map]⟩
  rw [sharesAt_eq hslots]
  congr 1
  funext j
  rw [hP j]
  split_ifs
  · simp [List.getElem?_eq_getElem he]
  · rfl

theorem isSome_partialShare (ks : Finset ℕ) (v : ℕ → F) (c : CipherText G) (j : ℕ) :
    (if j ∈ ks then some (decryptPoint (v j) c) else none).isSome ↔ j ∈ ks := by
  split_ifs with hj <;> simp [hj]

/-- Interpolating at zero, over some of the slots of partial decryptions of
one ciphertext, decrypts it under the interpolated scalar. -/
theorem interpolateAtZero_partialDecryptions {ks ks' : Finset ℕ} (hsub : ks' ⊆ ks)
    (hinj : Set.InjOn (fun j : ℕ => ((j + 1 : ℕ) : F)) ks') (hne : ks'.Nonempty) (v : ℕ → F)
    (c : CipherText G) :
    Shamir.interpolateAtZero ks' (fun j => ((j + 1 : ℕ) : F))
        (fun j => (if j ∈ ks then some (decryptPoint (v j) c) else none).getD 0) =
      decryptPoint (recoveredSecret ks' v) c :=
  calc _ = Shamir.interpolateAtZero ks' (fun j => ((j + 1 : ℕ) : F)) (fun j => c.C - v j • c.K) :=
        Shamir.interpolateAtZero_congr fun j hj => by rw [if_pos (hsub hj), Option.getD_some, decryptPoint]
    _ = c.C - recoveredSecret ks' v • c.K := Shamir.interpolateAtZero_sub_smul hinj hne _ _ _

omit [AddCommGroup G] [Module F G] in
/-- Interpolating the shares `f(j + 1)` at zero over more slots than the
degree of `f` recovers `f(0)`. -/
theorem recoveredSecret_eval {ks : Finset ℕ} (hinj : Set.InjOn (fun j : ℕ => ((j + 1 : ℕ) : F)) ks)
    {f : F[X]} (hf : f.degree < ks.card) :
    recoveredSecret ks (fun j => f.eval ((j + 1 : ℕ) : F)) = f.eval 0 :=
  Shamir.sum_weightAtZero_mul_eval hinj hf


/-- The shares `f(j + 1)` interpolate to `f(0)` over every `t` or more of the
slots `ks`, for `f` of degree below `t`. -/
theorem recoveredSecret_eval_of_le_card {ks T : Finset ℕ} (hT : T ⊆ ks)
    (hinj : Set.InjOn (fun j : ℕ => ((j + 1 : ℕ) : F)) ks) {t : ℕ} {f : F[X]} (hf : f.degree < t)
    (htT : t ≤ T.card) : recoveredSecret T (fun j => f.eval ((j + 1 : ℕ) : F)) = f.eval 0 :=
  recoveredSecret_eval (hinj.mono hT) (hf.trans_le (by exact_mod_cast htT))

variable {recoverCommit : ℕ → ℕ → (ℕ → Option G) → Except String G}

/-- `RecoverCommit` over partial decryptions of one ciphertext in at least
`t > 0` slots decrypts it under a scalar interpolated from `t` or more of
them. -/
theorem RecoverCommitSpec.partialDecryptions (hrc : RecoverCommitSpec F recoverCommit)
    (hinj : Set.InjOn (fun j : ℕ => ((j + 1 : ℕ) : F)) ks) (hks : ∀ j ∈ ks, j < n) (ht : 0 < t)
    (hcard : t ≤ ks.card) (c : CipherText G) :
    ∃ T ⊆ ks, t ≤ T.card ∧ recoverCommit t n (fun j => if j ∈ ks then some (decryptPoint (v j) c) else none) =
      .ok (decryptPoint (recoveredSecret T v) c) := by
  obtain ⟨T, hT, htT, hrec⟩ := hrc.interpolates (isSome_partialShare ks v c) hks hcard
  have hne : T.Nonempty := Finset.card_pos.mp (ht.trans_le htT)
  exact ⟨T, hT, htT, by rw [hrec, interpolateAtZero_partialDecryptions hT (hinj.mono hT) hne]⟩

variable [DecidableEq G]

/-- Partial decryptions of `cv` in at least `t > 0` slots, among them the
root's slot `0`, such that every `t` or more of the slots interpolate to the
scalar `x`: `ReconstructVectorFromPartials` decodes the decryption of `cv`
under `x`. -/
theorem reconstructVectorFromPartials_of_interpolates (hrc : RecoverCommitSpec F recoverCommit)
    (hP : PartialDecryptions ks v cv partials) (h0 : 0 ∈ ks) (hks : ∀ j ∈ ks, j < n) (ht : 0 < t)
    (hcard : t ≤ ks.card) (hinj : Set.InjOn (fun j : ℕ => ((j + 1 : ℕ) : F)) ks) {x : F}
    (hx : ∀ T ⊆ ks, t ≤ T.card → recoveredSecret T v = x) (B : G) (s : DlogTable G) :
    reconstructVectorFromPartials recoverCommit B n t partials s =
      (runGetPointToInt B (cv.map (decryptPoint x)) s >>= fun r => .ok (.ok r.1, r.2)) := by
  have hlen : ((partials.lookup 0).getD []).length = cv.length := by
    rw [hP 0, if_pos h0, Option.getD_some, List.length_map]
  have hpoints : recoverPoints recoverCommit n t partials (List.range cv.length) =
      .ok (.ok (cv.map (decryptPoint x))) := by
    rw [recoverPoints_of_forall recoverCommit (fun e => (cv.map (decryptPoint x))[e]?.getD 0) _
        fun e he => ?_, map_range_getD (List.length_map _)]
    have he' : e < cv.length := List.mem_range.mp he
    -- each entry interpolates some `t` or more of the slots, all to `x`
    obtain ⟨T, hT, htT, hrec⟩ := hrc.partialDecryptions hinj hks ht hcard cv[e]
    refine ⟨_, sharesAt_of_partialDecryptions hP hks he', ?_⟩
    rw [hrec, hx T hT htT, List.getElem?_map, List.getElem?_eq_getElem he']
    rfl
  rw [reconstructVectorFromPartials, hlen, hpoints]
  rfl

/-- **Too few conodes never reconstruct.**  Partial decryptions of a
non-empty `cv` in fewer than `t` slots, among them `0`: the first entry's
`RecoverCommit` fails, and `ReconstructVectorFromPartials` returns its error
with the table as it was. -/
theorem reconstructVectorFromPartials_of_card_lt (hrc : RecoverCommitSpec F recoverCommit)
    (hP : PartialDecryptions ks v cv partials) (h0 : 0 ∈ ks) (hks : ∀ j ∈ ks, j < n) (hcard : ks.card < t)
    (hcv : cv ≠ []) (B : G) (s : DlogTable G) :
    ∃ e, reconstructVectorFromPartials recoverCommit B n t partials s = .ok (.error e, s) := by
  obtain ⟨k, hk⟩ : ∃ k, cv.length = k + 1 := Nat.exists_eq_succ_of_ne_zero (by simpa using hcv)
  have hlen : ((partials.lookup 0).getD []).length = k + 1 := by
    rw [hP 0, if_pos h0, Option.getD_some, List.length_map, hk]
  obtain ⟨e, hfirst⟩ := hrc.error_of_card_lt (isSome_partialShare ks v cv[0]) hks hcard
  refine ⟨e, ?_⟩
  rw [reconstructVectorFromPartials, hlen, List.range_succ_eq_map, recoverPoints,
    sharesAt_of_partialDecryptions hP hks (by omega), Outcome.ok_bind, hfirst]
  rfl

/-- In the suite on `ZMod 7`, with kyber's order of the shares, the root's
partial decryption alone, under a threshold of `2`, does not reconstruct. -/
theorem reconstruct_root_slot_only_zmod7 :
    RecoverCommitSpec (ZMod 7) (recoverFirstShares (G := ZMod 7) (ZMod 7)) ∧
      PartialDecryptions {0} (fun j => ((j + 2 : ℕ) : ZMod 7)) [(⟨1, 2⟩ : CipherText (ZMod 7))]
        (AList.insert (β := fun _ : ℕ => List (ZMod 7)) 0
          ([(⟨1, 2⟩ : CipherText (ZMod 7))].map (decryptPoint ((0 + 2 : ℕ) : ZMod 7))) ∅) ∧
      ∃ e, reconstructVectorFromPartials (recoverFirstShares (ZMod 7)) Suite.zmod7.Base 3 2
          (AList.insert (β := fun _ : ℕ => List (ZMod 7)) 0
            ([(⟨1, 2⟩ : CipherText (ZMod 7))].map (decryptPoint ((0 + 2 : ℕ) : ZMod 7))) ∅) DlogTable.initial =
        .ok (.error e, DlogTable.initial) := by
  have hP : PartialDecryptions {0} (fun j => ((j + 2 : ℕ) : ZMod 7)) [(⟨1, 2⟩ : CipherText (ZMod 7))]
      (AList.insert (β := fun _ : ℕ => List (ZMod 7)) 0
        ([(⟨1, 2⟩ : CipherText (ZMod 7))].map (decryptPoint ((0 + 2 : ℕ) : ZMod 7))) ∅) := by
    intro j
    by_cases h0 : j = 0
    · subst h0
      rw [AList.lookup_insert, if_pos (by decide)]
    · rw [AList.lookup_insert_ne h0, if_neg (by simp [h0])]
      rfl
  exact ⟨recoverFirstShares_spec _, hP, reconstructVectorFromPartials_of_card_lt (recoverFirstShares_spec _) hP
    (by decide) (by decide) (by decide) (by decide) _ _⟩

/-- Partial decryptions that leave the root's slot `0` empty, in any other
slots and however many: `ReconstructVectorFromPartials` returns the empty
vector, and no error. -/
theorem reconstructVectorFromPartials_of_zero_notMem (hP : PartialDecryptions ks v cv partials)
    (h0 : 0 ∉ ks) (recoverCommit : ℕ → ℕ → (ℕ → Option G) → Except String G) (B : G) (n t : ℕ)
    (s : DlogTable G) :
    reconstructVectorFromPartials recoverCommit B n t partials s = .ok (.ok [], s) := by
  have hlookup : partials.lookup 0 = none := by rw [hP 0, if_neg h0]
  exact reconstructVectorFromPartials_of_lookup_zero recoverCommit hlookup B n t s

/-- In the suite on `ZMod 7`, with three slots and threshold two: the
vector `[(1, 2)]` encrypts `[1]` under the key `1 = f(0)` for `f = 1 + X`,
and its partial decryptions under `f(2) = 3` and `f(3) = 4` sit in the
slots `1` and `2`.  With kyber's order of the shares, the reconstruction
returns `[]`. -/
theorem reconstruct_without_root_slot_zmod7 :
    CipherVector.EncryptsInts Suite.zmod7 ((1 : ZMod 7) • Suite.zmod7.Base) [(⟨1, 2⟩ : CipherText (ZMod 7))] [1] ∧
      (PartialDecryptions {1, 2} (fun j => ((j + 2 : ℕ) : ZMod 7)) [(⟨1, 2⟩ : CipherText (ZMod 7))]
          (AList.insert (β := fun _ : ℕ => List (ZMod 7)) 2
            ([(⟨1, 2⟩ : CipherText (ZMod 7))].map (decryptPoint ((2 + 2 : ℕ) : ZMod 7)))
            (AList.insert 1 ([(⟨1, 2⟩ : CipherText (ZMod 7))].map (decryptPoint ((1 + 2 : ℕ) : ZMod 7))) ∅)) ∧
        0 ∉ ({1, 2} : Finset ℕ)) ∧
      reconstructVectorFromPartials (recoverFirstShares (ZMod 7)) Suite.zmod7.Base 3 2
          (AList.insert (β := fun _ : ℕ => List (ZMod 7)) 2
            ([(⟨1, 2⟩ : CipherText (ZMod 7))].map (decryptPoint ((2 + 2 : ℕ) : ZMod 7)))
            (AList.insert 1 ([(⟨1, 2⟩ : CipherText (ZMod 7))].map (decryptPoint ((1 + 2 : ℕ) : ZMod 7))) ∅)) DlogTable.initial =
        .ok (.ok [], DlogTable.initial) := by
  have hms : CipherVector.EncryptsInts Suite.zmod7 ((1 : ZMod 7) • Suite.zmod7.Base) [(⟨1, 2⟩ : CipherText (ZMod 7))] [1] := by
    -- `(1, 2)` encrypts `1` with the randomness `1`
    refine List.Forall₂.cons ⟨1, ?_, ?_⟩ List.Forall₂.nil
    · simp [Suite.zmod7]
    · simp [Suite.zmod7, intToPoint]
      decide
  have hP : PartialDecryptions {1, 2} (fun j => ((j + 2 : ℕ) : ZMod 7)) [(⟨1, 2⟩ : CipherText (ZMod 7))]
      (AList.insert (β := fun _ : ℕ => List (ZMod 7)) 2
            ([(⟨1, 2⟩ : CipherText (ZMod 7))].map (decryptPoint ((2 + 2 : ℕ) : ZMod 7)))
            (AList.insert 1 ([(⟨1, 2⟩ : CipherText (ZMod 7))].map (decryptPoint ((1 + 2 : ℕ) : ZMod 7))) ∅)) := by
    intro j
    by_cases h2 : j = 2
    · subst h2
      rw [AList.lookup_insert, if_pos (by decide)]
    · by_cases h1 : j = 1
      · subst h1
        rw [AList.lookup_insert_ne (by decide), AList.lookup_insert, if_pos (by decide)]
      · rw [AList.lookup_insert_ne h2, AList.lookup_insert_ne h1, if_neg (by simp [h1, h2])]
        rfl
  exact ⟨hms, ⟨hP, by decide⟩, reconstructVectorFromPartials_of_zero_notMem hP (by decide) _ _ _ _ _⟩

/-- `ReconstructVectorFromPartials` over partial decryptions of `cv` in
exactly `t` slots, among them the root's slot `0`, decodes the decryption of
`cv` under the scalar interpolated from all of them. -/
theorem reconstructVectorFromPartials_of_partialDecryptions (hrc : RecoverCommitSpec F recoverCommit)
    (hP : PartialDecryptions ks v cv partials) (h0 : 0 ∈ ks) (hks : ∀ j ∈ ks, j < n) (hcard : ks.card = t)
    (hinj : Set.InjOn (fun j : ℕ => ((j + 1 : ℕ) : F)) ks) (B : G) (s : DlogTable G) :
    reconstructVectorFromPartials recoverCommit B n t partials s =
      (runGetPointToInt B (cv.map (decryptPoint (recoveredSecret ks v))) s >>= fun r => .ok (.ok r.1, r.2)) := by
  have ht : 0 < t := hcard ▸ Finset.card_pos.mpr ⟨0, h0⟩
  -- the only `t` slots among `t` are all of them
  have hx : ∀ T ⊆ ks, t ≤ T.card → recoveredSecret T v = recoveredSecret ks v := fun T hT htT => by
    rw [Finset.eq_of_subset_of_card_le hT (hcard ▸ htT)]
  exact reconstructVectorFromPartials_of_interpolates hrc hP h0 hks ht hcard.ge hinj hx B s

end Slots


/-! ## After an honest decryption

The repliers are conodes of `B`'s roster other than `B`, each once; the slot
of a replier is its index in that roster. -/

/-- The share of the conode in slot `j` of `roster`. -/
def slotShare (share : α → F) (roster : List α) (j : ℕ) : F :=
  (roster[j]?.map share).getD 0

/-- The slots that hold a vector once the replies of `order` have reached the
root: the root's own, `0`, and the index of each replier. -/
def rosterSlots (roster order : List α) : Finset ℕ :=
  insert 0 (order.map fun c => roster.idxOf c).toFinset

theorem slotShare_idxOf (share : α → F) {roster : List α} {c : α} (hc : c ∈ roster) :
    slotShare share roster (roster.idxOf c) = share c := by
  rw [slotShare, List.getElem?_idxOf hc]
  rfl

theorem zero_mem_rosterSlots (roster order : List α) : 0 ∈ rosterSlots roster order :=
  Finset.mem_insert_self _ _

theorem idxOf_mem_rosterSlots {roster order : List α} {c : α} (hc : c ∈ order) :
    roster.idxOf c ∈ rosterSlots roster order :=
  Finset.mem_insert_of_mem (List.mem_toFinset.mpr (List.mem_map_of_mem hc))

/-- The conodes whose replies reach the root `B`, which heads `roster`. -/
structure Repliers (roster : List α) (B : α) (order : List α) : Prop where
  head : roster.head? = some B
  nodup : order.Nodup
  mem : ∀ c ∈ order, c ∈ roster
  ne_root : ∀ c ∈ order, c ≠ B

namespace Repliers

variable {roster order : List α} {B : α}

omit [DecidableEq α] in
theorem slotShare_zero (h : Repliers roster B order) (share : α → F) :
    slotShare share roster 0 = share B := by
  rw [slotShare, ← List.head?_eq_getElem?, h.head]
  rfl

theorem idxOf_ne_zero (h : Repliers roster B order) {c : α} (hc : c ∈ order) : roster.idxOf c ≠ 0 := by
  intro h0
  have hget := List.getElem?_idxOf (h.mem c hc)
  rw [h0, ← List.head?_eq_getElem?, h.head] at hget
  exact h.ne_root c hc (Option.some.inj hget).symm

theorem nodup_idxOf (h : Repliers roster B order) : (order.map fun c => roster.idxOf c).Nodup :=
  h.nodup.map_on fun c hc _ _ hidx => (List.idxOf_inj (h.mem c hc)).mp hidx

theorem nodup_keys {β : Type*} (h : Repliers roster B order) (val : α → β) :
    ((order.map fun c => (roster.idxOf c, val c)).map Prod.fst).Nodup := by
  rw [List.map_map]
  exact h.nodup_idxOf

theorem card_rosterSlots (h : Repliers roster B order) :
    (rosterSlots roster order).card = order.length + 1 := by
  have h0 : 0 ∉ (order.map fun c => roster.idxOf c).toFinset := by
    rw [List.mem_toFinset, List.mem_map]
    rintro ⟨c, hc, h0⟩
    exact h.idxOf_ne_zero hc h0
  rw [rosterSlots, Finset.card_insert_of_notMem h0, List.toFinset_card_of_nodup h.nodup_idxOf,
    List.length_map]

theorem lt_of_mem_rosterSlots (h : Repliers roster B order) {j : ℕ} (hj : j ∈ rosterSlots roster order) :
    j < roster.length := by
  rw [rosterSlots, Finset.mem_insert, List.mem_toFinset, List.mem_map] at hj
  rcases hj with rfl | ⟨c, hc, rfl⟩
  · exact List.length_pos_of_mem (List.mem_of_mem_head? h.head)
  · exact List.idxOf_lt_length_of_mem (h.mem c hc)

theorem injOn_rosterSlots (h : Repliers roster B order) {n : ℕ} (hn : roster.length = n)
    (hinj : Set.InjOn (fun j : ℕ => ((j + 1 : ℕ) : F)) (Finset.range n)) :
    Set.InjOn (fun j : ℕ => ((j + 1 : ℕ) : F)) (rosterSlots roster order) :=
  hinj.mono fun _ hj => Finset.mem_coe.mpr (Finset.mem_range.mpr (hn ▸ h.lt_of_mem_rosterSlots hj))

end Repliers

section HonestRun

variable (S : Suite F G Proof)

/-- The root's `Decrypt` as `Service.decrypt` starts it on the tree of the
`n` conodes, with the share `V`: `Index` `0` and the service's threshold. -/
def decryptRoot (n : ℕ) (V : F) (cv : CipherVector G) : Decrypt F G :=
  ⟨serviceThreshold n, 0, n, 0, V, cv, ∅, []⟩

/-- The reply of the conode `c`, holding `share c`, to the prompt for `cv`,
sent from its index in the root's roster. -/
def honestPartial (share : α → F) (roster : List α) (cv : CipherVector G) (c : α) :
    MessageSendPartial G Proof :=
  ⟨handlePrompt S (share c) cv, roster.idxOf c⟩

/-- The vectors that the honest run stores are partial decryptions in the
slots of `rosterSlots`, under the shares of the conodes in those slots. -/
theorem partialDecryptions_honest (share : α → F) {roster order : List α} {B : α}
    (h : Repliers roster B order) (cv : CipherVector G) :
    PartialDecryptions (rosterSlots roster order) (slotShare share roster) cv
      ((AList.insertList Prod.fst (fun r => (handlePrompt S r.2 cv).Partials)
        (order.map fun c => (roster.idxOf c, share c)) ∅).insert 0 (getPartials S (share B) cv).1) := by
  intro j
  by_cases hj : j = 0
  · -- the root's own vector
    subst hj
    rw [AList.lookup_insert, if_pos (zero_mem_rosterSlots roster order), h.slotShare_zero]
    rfl
  rw [AList.lookup_insert_ne hj]
  by_cases hmem : ∃ c ∈ order, roster.idxOf c = j
  · -- the vector of a replier
    obtain ⟨c, hc, rfl⟩ := hmem
    rw [AList.lookup_insertList_of_mem Prod.fst _ ∅ (h.nodup_keys share) (List.mem_map_of_mem hc),
      if_pos (idxOf_mem_rosterSlots hc), slotShare_idxOf share (h.mem c hc)]
    rfl
  · have hout : ∀ r ∈ order.map fun c => (roster.idxOf c, share c), r.1 ≠ j := by
      intro r hr hrj
      obtain ⟨c, hc, rfl⟩ := List.mem_map.mp hr
      exact hmem ⟨c, hc, hrj⟩
    have hslot : j ∉ rosterSlots roster order := by
      rw [rosterSlots, Finset.mem_insert, List.mem_toFinset, List.mem_map]
      rintro (h0 | ⟨c, hc, hcj⟩)
      · exact hj h0
      · exact hmem ⟨c, hc, hcj⟩
    rw [AList.lookup_insertList_of_forall_ne Prod.fst _ ∅ hout, if_neg hslot]
    rfl

/-- `Threshold - 1` honest replies make the root call `finish(true)` with
partial decryptions in the slots of `rosterSlots`. -/
theorem foldlM_honestPartials (hD : S.DLEQComplete) (share : α → F) {roster order : List α} {B : α}
    {n : ℕ} (h : Repliers roster B order) {cv : CipherVector G} (hcv : cv ≠ [])
    (hT : 2 ≤ serviceThreshold n) (hlen : order.length + 1 = serviceThreshold n) :
    ∃ d', (order.map (honestPartial S share roster cv)).foldlM (handlePartial S)
        (decryptRoot n (share B) cv) = .ok d' ∧ d'.finishes = [true] ∧
      PartialDecryptions (rosterSlots roster order) (slotShare share roster) cv d'.Partials := by
  have hrun := foldlM_handlePrompt_threshold S hD (decryptRoot n (share B) cv) hcv rfl
    (by simp only [decryptRoot]; exact_mod_cast hT) (order.map fun c => (roster.idxOf c, share c))
    (by simp only [decryptRoot, List.length_map]; omega) (h.nodup_keys share)
  rw [List.map_map] at hrun
  exact ⟨_, hrun, rfl, partialDecryptions_honest S share h cv⟩

variable [DecidableEq G]

/-- After the honest run, `reconstruct` decrypts the vector under the scalar
interpolated from the shares of the conodes in the root's slots, whichever
they are. -/
theorem reconstruct_after_honest_decrypt (hD : S.DLEQComplete)
    {recoverCommit : ℕ → ℕ → (ℕ → Option G) → Except String G} (hrc : RecoverCommitSpec F recoverCommit)
    (share : α → F) {roster order : List α} {B : α} {n : ℕ} (h : Repliers roster B order)
    (hn : roster.length = n) {cv : CipherVector G} (hcv : cv ≠ []) (hT : 2 ≤ serviceThreshold n)
    (hlen : order.length + 1 = serviceThreshold n)
    (hinj : Set.InjOn (fun j : ℕ => ((j + 1 : ℕ) : F)) (Finset.range n)) (tbl : DlogTable G) :
    ∃ d', (order.map (honestPartial S share roster cv)).foldlM (handlePartial S)
        (decryptRoot n (share B) cv) = .ok d' ∧ d'.finishes = [true] ∧
      reconstructVectorFromPartials recoverCommit S.Base n (serviceThreshold n) d'.Partials tbl =
        (runGetPointToInt S.Base
            (cv.map (decryptPoint (recoveredSecret (rosterSlots roster order) (slotShare share roster)))) tbl
          >>= fun r => .ok (.ok r.1, r.2)) := by
  obtain ⟨d', hrun, hfin, hP⟩ := foldlM_honestPartials S hD share h hcv hT hlen
  have hks : ∀ j ∈ rosterSlots roster order, j < n := fun j hj => hn ▸ h.lt_of_mem_rosterSlots hj
  exact ⟨d', hrun, hfin, reconstructVectorFromPartials_of_partialDecryptions hrc hP
    (zero_mem_rosterSlots roster order) hks (by rw [h.card_rosterSlots, hlen]) (h.injOn_rosterSlots hn hinj)
    _ _⟩

/-! ### The DKG's shares -/

/-- The rabin DKG that `Setup` runs on `roster`, the roster as
`NewRosterWithRoot(A)` orders it: the conode at position `i` holds `f(i + 1)`. -/
def DKGShares (f : F[X]) (roster : List α) (share : α → F) : Prop :=
  ∀ c ∈ roster, share c = f.eval ((roster.idxOf c + 1 : ℕ) : F)

omit [AddCommGroup G] [Module F G] in
theorem slotShare_of_dkgShares {f : F[X]} {roster : List α} {share : α → F}
    (hshares : DKGShares f roster share) (hnodup : roster.Nodup) {j : ℕ} (hj : j < roster.length) :
    slotShare share roster j = f.eval ((j + 1 : ℕ) : F) := by
  rw [slotShare, List.getElem?_eq_getElem hj, Option.map_some, Option.getD_some,
    hshares _ (List.getElem_mem hj), hnodup.idxOf_getElem j hj]

omit [AddCommGroup G] [Module F G] in
/-- When the DKG ran on the roster whose slots the decryption fills, the
interpolated scalar is the DKG secret `f(0)`. -/
theorem recoveredSecret_of_dkgShares {f : F[X]} {roster : List α} {share : α → F}
    (hshares : DKGShares f roster share) (hnodup : roster.Nodup) {ks : Finset ℕ}
    (hks : ∀ j ∈ ks, j < roster.length) (hinj : Set.InjOn (fun j : ℕ => ((j + 1 : ℕ) : F)) ks)
    (hf : f.degree < ks.card) :
    recoveredSecret ks (slotShare share roster) = f.eval 0 := by
  rw [recoveredSecret, ← Shamir.sum_weightAtZero_mul_eval hinj hf]
  refine Finset.sum_congr rfl fun j hj => ?_
  rw [slotShare_of_dkgShares hshares hnodup (hks j hj)]

omit [DecidableEq G] in
theorem decryptPoint_add (x δ : F) (c : CipherText G) :
    decryptPoint (x + δ) c = decryptPoint x c - δ • c.K := by
  rw [decryptPoint, decryptPoint, add_smul, sub_add_eq_sub_sub]

omit [DecidableEq G] in
/-- Decrypting under `x + δ` a vector that encrypts under `x • B` shifts
each plaintext point by `-δ • K`. -/
theorem CipherVector.EncryptsInts.map_decryptPoint_add {x : F} {cv : CipherVector G} {ms : List ℤ}
    (h : cv.EncryptsInts S (x • S.Base) ms) (δ : F) :
    cv.map (decryptPoint (x + δ)) = List.zipWith (fun m c => intToPoint S m - δ • c.K) ms cv := by
  unfold CipherVector.EncryptsInts at h
  induction h with
  | nil => rfl
  | cons hc _ ih =>
    rw [List.map_cons, List.zipWith_cons_cons, ih, decryptPoint_add, hc.decryptPoint_eq]

/-- When the DKG ran on the root's own roster, `reconstruct` decodes the
plaintext points of the vector. -/
theorem reconstruct_of_dkg_on_root_roster (hD : S.DLEQComplete)
    {recoverCommit : ℕ → ℕ → (ℕ → Option G) → Except String G} (hrc : RecoverCommitSpec F recoverCommit)
    {roster order : List α} {B : α} {n : ℕ} (h : Repliers roster B order) (hnodup : roster.Nodup)
    (hn : roster.length = n)
    (hT : 2 ≤ serviceThreshold n) (hlen : order.length + 1 = serviceThreshold n)
    (hinj : Set.InjOn (fun j : ℕ => ((j + 1 : ℕ) : F)) (Finset.range n))
    {f : F[X]} (hf : f.degree < serviceThreshold n) {share : α → F} (hshares : DKGShares f roster share)
    {cv : CipherVector G} (hcv : cv ≠ []) {ms : List ℤ} (hms : cv.EncryptsInts S (f.eval 0 • S.Base) ms)
    (tbl : DlogTable G) :
    ∃ d', (order.map (honestPartial S share roster cv)).foldlM (handlePartial S)
        (decryptRoot n (share B) cv) = .ok d' ∧ d'.finishes = [true] ∧
      reconstructVectorFromPartials recoverCommit S.Base n (serviceThreshold n) d'.Partials tbl =
        (runGetPointToInt S.Base (ms.map (intToPoint S)) tbl >>= fun r => .ok (.ok r.1, r.2)) := by
  obtain ⟨d', hrun, hfin, hrec⟩ := reconstruct_after_honest_decrypt S hD hrc share h hn hcv hT hlen hinj tbl
  have hsecret : recoveredSecret (rosterSlots roster order) (slotShare share roster) = f.eval 0 :=
    recoveredSecret_of_dkgShares hshares hnodup (fun j hj => h.lt_of_mem_rosterSlots hj)
      (h.injOn_rosterSlots hn hinj) (by rw [h.card_rosterSlots, hlen]; exact hf)
  have hpoints : cv.map (decryptPoint (f.eval 0)) = ms.map (intToPoint S) :=
    List.Forall₂.map_eq_map (fun _ _ hcm => hcm.decryptPoint_eq) hms
  rw [hsecret, hpoints] at hrec
  exact ⟨d', hrun, hfin, hrec⟩

/-- The service on a roster of distinct conodes, when the conode `B` that
serves `SaveWebpage` also served `Setup`: after the honest replies,
`reconstruct` returns the plaintext that the vector encrypts under the
collective key. -/
theorem reconstruct_recovers_plaintext_of_same_root (hD : S.DLEQComplete)
    (hB : OrderExceeds S.Base (2 * MaxHomomorphicInt)) {newRosterWithRoot : List α → α → List α}
    (hnew : NewRosterWithRootSpec newRosterWithRoot)
    {recoverCommit : ℕ → ℕ → (ℕ → Option G) → Except String G} (hrc : RecoverCommitSpec F recoverCommit)
    {roster order : List α} {B : α}
    (hroster : roster.Nodup) (hBmem : B ∈ roster) (horder : order.Nodup)
    (hrepl : ∀ c ∈ order, c ∈ roster ∧ c ≠ B) (hT : 2 ≤ serviceThreshold roster.length)
    (hlen : order.length + 1 = serviceThreshold roster.length)
    (hinj : Set.InjOn (fun j : ℕ => ((j + 1 : ℕ) : F)) (Finset.range roster.length))
    {f : F[X]} (hf : f.degree < serviceThreshold roster.length) {share : α → F}
    (hshares : DKGShares f (newRosterWithRoot roster B) share) {cv : CipherVector G} (hcv : cv ≠ [])
    {ms : List ℤ} (hms : cv.EncryptsInts S (f.eval 0 • S.Base) ms)
    (hrange : ∀ m ∈ ms, 0 ≤ m ∧ m < MaxHomomorphicInt) {tbl : DlogTable G} (htbl : NonnegTable S.Base tbl) :
    ∃ d', (order.map (honestPartial S share (newRosterWithRoot roster B) cv)).foldlM (handlePartial S)
        (decryptRoot roster.length (share B) cv) = .ok d' ∧ d'.finishes = [true] ∧
      ∃ tbl', reconstructVectorFromPartials recoverCommit S.Base roster.length (serviceThreshold roster.length)
          d'.Partials tbl = .ok (.ok ms, tbl') ∧ NonnegTable S.Base tbl' := by
  have hperm := hnew.perm hroster hBmem
  have hrep : Repliers (newRosterWithRoot roster B) B order :=
    ⟨hnew.head hroster hBmem, horder, fun c hc => hperm.mem_iff.mpr (hrepl c hc).1, fun c hc => (hrepl c hc).2⟩
  obtain ⟨d', hrun, hfin, hrec⟩ := reconstruct_of_dkg_on_root_roster S hD hrc hrep (hperm.nodup_iff.mpr hroster)
    (hnew.length_eq hroster hBmem) hT hlen hinj hf hshares hcv hms tbl
  obtain ⟨tbl', hdlog, htbl'⟩ := runGetPointToInt_of_nonnegTable hB ms htbl hrange
  refine ⟨d', hrun, hfin, tbl', ?_, htbl'⟩
  rw [hrec, show ms.map (intToPoint S) = ms.map (· • S.Base) from rfl, hdlog]
  rfl

/-! ### When another conode served `Setup` -/

omit [AddCommGroup G] [Module F G] in
theorem slotAbscissa_injOn_two : Set.InjOn (fun j : ℕ => ((j + 1 : ℕ) : F)) (Finset.range 2) := by
  have h01 : ((0 + 1 : ℕ) : F) ≠ ((1 + 1 : ℕ) : F) := by
    intro h
    rw [Nat.cast_add, Nat.cast_add, Nat.cast_zero, Nat.cast_one, zero_add] at h
    simp at h
  intro i hi j hj hij
  rw [Finset.coe_range, Set.mem_Iio] at hi hj
  rcases (by omega : i = 0 ∨ i = 1) with rfl | rfl <;> rcases (by omega : j = 0 ∨ j = 1) with rfl | rfl
  · rfl
  · exact absurd hij h01
  · exact absurd hij.symm h01
  · rfl

omit [AddCommGroup G] [Module F G] in
/-- The slots `0` and `1`, at the abscissas `1` and `2`, have the weights
`2` and `-1`. -/
theorem recoveredSecret_pair (v : ℕ → F) : recoveredSecret {0, 1} v = 2 * v 0 - v 1 := by
  have h0 : ({0, 1} : Finset ℕ).erase 0 = {1} := by decide
  have h1 : ({0, 1} : Finset ℕ).erase 1 = {0} := by decide
  rw [recoveredSecret, Finset.sum_pair zero_ne_one, Shamir.weightAtZero, Shamir.weightAtZero, h0, h1,
    Finset.prod_singleton, Finset.prod_singleton, Finset.prod_singleton, Finset.prod_singleton]
  norm_num
  ring

omit [AddCommGroup G] [Module F G] in
theorem eval_of_degree_lt_two {f : F[X]} (hf : f.degree < 2) (x : F) :
    f.eval x = f.coeff 0 + f.coeff 1 * x := by
  conv_lhs => rw [eq_X_add_C_of_degree_le_one (Order.le_of_lt_succ hf)]
  rw [eval_add, eval_mul, eval_C, eval_X, eval_C, add_comm]

omit [AddCommGroup G] [Module F G] in
/-- On the roster `[b, a]` of `SaveWebpage`'s root `b`, whose DKG ran on
`[a, b]`, the slots `0` and `1` hold the shares `f(2)` of `b` and `f(1)` of
`a`, interpolated as if they were `f(1)` and `f(2)`. -/
theorem recoveredSecret_of_other_root {a b : α} (hab : a ≠ b) {f : F[X]} (hf : f.degree < 2)
    {share : α → F} (hshares : DKGShares f [a, b] share) :
    recoveredSecret (rosterSlots [b, a] [a]) (slotShare share [b, a]) = f.eval 0 + 3 * f.coeff 1 := by
  have hidx : [b, a].idxOf a = 1 := by
    rw [List.idxOf_cons_ne _ hab.symm, List.idxOf_cons_self]
  have hslots : rosterSlots [b, a] [a] = {0, 1} := by
    rw [rosterSlots, List.map_singleton, hidx]
    rfl
  have hsa : share a = f.eval ((0 + 1 : ℕ) : F) := by
    rw [hshares a List.mem_cons_self, List.idxOf_cons_self]
  have hsb : share b = f.eval ((1 + 1 : ℕ) : F) := by
    rw [hshares b (by simp), List.idxOf_cons_ne _ hab, List.idxOf_cons_self]
  rw [hslots, recoveredSecret_pair]
  show 2 * share b - share a = _
  rw [hsb, hsa, eval_of_degree_lt_two hf, eval_of_degree_lt_two hf, eval_of_degree_lt_two hf]
  push_cast
  ring

/-- On a roster of two conodes `[a, b]`, when `a` served `Setup` and `b`
serves `SaveWebpage`: after the honest run, `reconstruct` decodes each
plaintext point shifted by `-(3 * f.coeff 1) • K`, for the DKG polynomial
`f`, instead of the plaintext. -/
theorem reconstruct_shifts_plaintext_of_other_root (hD : S.DLEQComplete)
    {newRosterWithRoot : List α → α → List α} (hnew : NewRosterWithRootSpec newRosterWithRoot)
    {recoverCommit : ℕ → ℕ → (ℕ → Option G) → Except String G} (hrc : RecoverCommitSpec F recoverCommit)
    {a b : α} (hab : a ≠ b)
    {f : F[X]} (hf : f.degree < 2) {share : α → F}
    (hshares : DKGShares f (newRosterWithRoot [a, b] a) share) {cv : CipherVector G} (hcv : cv ≠ [])
    {ms : List ℤ} (hms : cv.EncryptsInts S (f.eval 0 • S.Base) ms) (tbl : DlogTable G) :
    ∃ d', ([a].map (honestPartial S share (newRosterWithRoot [a, b] b) cv)).foldlM (handlePartial S)
        (decryptRoot 2 (share b) cv) = .ok d' ∧ d'.finishes = [true] ∧
      reconstructVectorFromPartials recoverCommit S.Base 2 (serviceThreshold 2) d'.Partials tbl =
        (runGetPointToInt S.Base (List.zipWith (fun m c => intToPoint S m - (3 * f.coeff 1) • c.K) ms cv)
            tbl >>= fun r => .ok (.ok r.1, r.2)) := by
  -- `Setup` ran on `[a, b]`, and `SaveWebpage`'s tree is `[b, a]`
  rw [hnew.pair_left hab] at hshares
  rw [hnew.pair_right hab]
  have hrep : Repliers [b, a] b [a] :=
    ⟨rfl, List.nodup_singleton a, by simp, by simpa using hab⟩
  obtain ⟨d', hrun, hfin, hrec⟩ := reconstruct_after_honest_decrypt S hD hrc share hrep (n := 2) rfl hcv
    (by decide) rfl slotAbscissa_injOn_two tbl
  rw [recoveredSecret_of_other_root hab hf hshares, hms.map_decryptPoint_add S] at hrec
  exact ⟨d', hrun, hfin, hrec⟩

end HonestRun

/-- In the suite on `ZMod 7`, with onet's `swapRoot` and kyber's order of the
shares, on the roster `[0, 1]`, with `Setup` served by `0` and `SaveWebpage`
by `1`: the DKG polynomial `1 + X` gives `0` the share `2` and `1` the share
`3`, and the vector `[(1, 2)]` encrypts `[1]` under the collective key `1`.
`reconstruct` returns `[-2]`. -/
theorem reconstruct_shifts_plaintext_zmod7 :
    ∃ d', ([0].map (honestPartial Suite.zmod7 (fun c : ℕ => ((c + 2 : ℕ) : ZMod 7))
          (swapRoot [0, 1] 1) [⟨1, 2⟩])).foldlM (handlePartial Suite.zmod7)
        (decryptRoot 2 ((1 + 2 : ℕ) : ZMod 7) [⟨1, 2⟩]) = .ok d' ∧ d'.finishes = [true] ∧
      (reconstructVectorFromPartials (recoverFirstShares (ZMod 7)) Suite.zmod7.Base 2 (serviceThreshold 2)
          d'.Partials DlogTable.initial).map Prod.fst = .ok (.ok [-2]) := by
  have hf : (C 1 + X : (ZMod 7)[X]).degree < 2 := by
    compute_degree!
  have hshares : DKGShares (C 1 + X) (swapRoot [0, 1] 0) fun c : ℕ => ((c + 2 : ℕ) : ZMod 7) := by
    intro c hc
    rw [show swapRoot [0, 1] 0 = [0, 1] from rfl] at hc ⊢
    simp only [List.mem_cons, List.not_mem_nil, or_false] at hc
    rcases hc with rfl | rfl <;> simp [eval_add, eval_X] <;> decide
  have hms : CipherVector.EncryptsInts Suite.zmod7 ((C 1 + X : (ZMod 7)[X]).eval 0 • Suite.zmod7.Base)
      [⟨1, 2⟩] [1] := by
    -- `(1, 2)` encrypts `1` with the randomness `1`
    refine List.Forall₂.cons ⟨1, ?_, ?_⟩ List.Forall₂.nil
    · simp [Suite.zmod7]
    · simp [Suite.zmod7, intToPoint]
      decide
  obtain ⟨d', hrun, hfin, hrec⟩ := reconstruct_shifts_plaintext_of_other_root Suite.zmod7 Suite.zmod7_dleqComplete
    swapRoot_spec (recoverFirstShares_spec _) (by decide : (0 : ℕ) ≠ 1) hf hshares (List.cons_ne_nil _ _) hms
    DlogTable.initial
  refine ⟨d', hrun, hfin, ?_⟩
  -- the decoded point is `1 - 3 = 5 = -2` in `ZMod 7`
  have hcoeff : (C 1 + X : (ZMod 7)[X]).coeff 1 = 1 := by
    simp [coeff_one, coeff_X_one]
  rw [hrec, hcoeff]
  simp only [List.zipWith_cons_cons, List.zipWith_nil_left, intToPoint, Suite.zmod7]
  decide

section AnySlotsPlaintext

variable (S : Suite F G Proof) [DecidableEq G]

/-- Partial decryptions under the shares `f(j + 1)` in any slots that
include the root's slot `0`, at least `t` of them, with `f` of degree below
`t`: the reconstruction returns the plaintext that the vector encrypts under
`f(0) • B`, whichever `t` or more of the shares `RecoverCommit` takes. -/
theorem reconstruct_recovers_plaintext_of_le_card (hB : OrderExceeds S.Base (2 * MaxHomomorphicInt))
    {recoverCommit : ℕ → ℕ → (ℕ → Option G) → Except String G} (hrc : RecoverCommitSpec F recoverCommit)
    {n t : ℕ} {ks : Finset ℕ} {f : F[X]} (hf : f.degree < t) {cv : CipherVector G}
    {partials : AList fun _ : ℕ => List G}
    (hP : PartialDecryptions ks (fun j => f.eval ((j + 1 : ℕ) : F)) cv partials) (h0 : 0 ∈ ks)
    (hks : ∀ j ∈ ks, j < n) (ht : 0 < t) (hcard : t ≤ ks.card)
    (hinj : Set.InjOn (fun j : ℕ => ((j + 1 : ℕ) : F)) (Finset.range n)) {ms : List ℤ}
    (hms : cv.EncryptsInts S (f.eval 0 • S.Base) ms) (hrange : ∀ m ∈ ms, 0 ≤ m ∧ m < MaxHomomorphicInt)
    {tbl : DlogTable G} (htbl : NonnegTable S.Base tbl) :
    ∃ tbl', reconstructVectorFromPartials recoverCommit S.Base n t partials tbl = .ok (.ok ms, tbl') ∧
      NonnegTable S.Base tbl' := by
  have hinjks : Set.InjOn (fun j : ℕ => ((j + 1 : ℕ) : F)) ks :=
    hinj.mono fun j hj => Finset.mem_coe.mpr (Finset.mem_range.mpr (hks j hj))
  have hpoints : cv.map (decryptPoint (f.eval 0)) = ms.map (intToPoint S) :=
    List.Forall₂.map_eq_map (fun _ _ hcm => hcm.decryptPoint_eq) hms
  obtain ⟨tbl', hdlog, htbl'⟩ := runGetPointToInt_of_nonnegTable hB ms htbl hrange
  refine ⟨tbl', ?_, htbl'⟩
  rw [reconstructVectorFromPartials_of_interpolates hrc hP h0 hks ht hcard hinjks
      fun T hT htT => recoveredSecret_eval_of_le_card hT hinjks hf htT,
    hpoints, show ms.map (intToPoint S) = ms.map (· • S.Base) from rfl, hdlog]
  rfl

end AnySlotsPlaintext

end Decenarch
