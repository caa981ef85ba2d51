import Decenarch.Proofs
import Decenarch.DiscreteLog
import Decenarch.Bloom
import Decenarch.Decrypt
import Decenarch.Lib.ChunkedLoop

/-!
# Homomorphic sums of encrypted vectors (`lib/crypto.go`)

With `PARALLELIZE` set, `EncryptIntVector`, `CipherVector.Add` and
`getPartials` of `protocol/decrypt.go` start one goroutine per chunk of
`VPARALLELIZE` positions.  Each goroutine writes the
positions of its chunk and reads, at each, only that position of the
operands, or of the receiver itself when the call is `cv.Add(*cv, cv2)` as
in `AggregateCBF`; kyber's `Point.Add` reads both operands before it writes
its receiver.  So every interleaving of the goroutines leaves the vector of
the sequential functions of `Crypto.lean`, for every length
(`parallelize_branches_eq_sequential`).

Folding `Add` over encryptions of integer vectors, in any order and from
either starting vector, encrypts the componentwise sum, which
`DecryptIntVector` decodes from any table of earlier nonnegative queries.
-/

namespace Decenarch

variable {F G Proof : Type} [Field F] [AddCommGroup G] [Module F G]

/-! ## The goroutines of `EncryptIntVector`, `CipherVector.Add` and `getPartials` -/

section Interleavings

variable (S : Suite F G Proof)

/-- The entries of `cv` and `cvProof` in `EncryptIntVector(pubkey, intArray)`
after the goroutines' writes `cv[p], cvProof[p] = EncryptInt(pubkey,
intArray[p])`, in the order `order`, with the scalar `ks p` at `p`; `none` is
the zero value that `make` leaves. -/
def encryptIntVectorSlots (order : List ℕ) (pubkey : G) (intArray : List ℤ) (ks : ℕ → F) :
    List (Option (CipherText G × CipherTextProof G Proof)) :=
  order.foldl (fun slots p => slots.modify p fun _ => some (encryptInt S pubkey (intArray.getD p 0) (ks p)))
    (List.replicate intArray.length none)

/-- `CipherVector.Add(cv1, cv2)` on the receiver `cv` as its `PARALLELIZE`
branch runs, with the goroutines' writes `(*cv)[p].Add(cv1[p], cv2[p])` in
the order `order`; the indexing panics as in `CipherVector.add`. -/
def CipherVector.addInterleaved (order : List ℕ) (cv cv1 cv2 : CipherVector G) : Outcome (CipherVector G) :=
  if cv1.length ≤ cv.length ∧ cv1.length ≤ cv2.length then
    .ok (order.foldl (fun acc p =>
      acc.modify p fun _ => (cv1.getD p newCipherText).add (cv2.getD p newCipherText)) cv)
  else .panic

/-- `getPartials` (`protocol/decrypt.go`) as its `PARALLELIZE` branch runs:
the goroutines' writes `partials[p] = DecryptPoint(V, cipher[p])` and
`proofs[p] = NewDLEQProof(base, cipher[p].K, V)` in the order `order`, the
two slices as one of pairs; `none` is the zero value that `make` leaves. -/
def getPartialsSlots (order : List ℕ) (V : F) (cipher : CipherVector G) : List (Option (G × Proof)) :=
  order.foldl (fun slots p => slots.modify p fun _ =>
      some (decryptPoint V (cipher.getD p newCipherText), S.NewDLEQProof S.Base (cipher.getD p newCipherText).K V))
    (List.replicate cipher.length none)

/-- `cv.Add(*cv, cv2)` as its `PARALLELIZE` branch runs: the goroutine at
`p` adds `cv2[p]` to the receiver's own entry `p`. -/
def CipherVector.addSelfInterleaved (order : List ℕ) (cv cv2 : CipherVector G) : Outcome (CipherVector G) :=
  if cv.length ≤ cv2.length then
    .ok (order.foldl (fun acc p => acc.modify p fun c => c.add (cv2.getD p newCipherText)) cv)
  else .panic

variable {S}

/-- The orders in which the goroutines of a loop over `n` positions can
write: any order of their positions. -/
theorem perm_range_of_interleaving {order : List ℕ} {n : ℕ}
    (h : order.Perm (ChunkedLoop.chunks VPARALLELIZE n).flatten) : order.Perm (List.range n) :=
  h.trans (ChunkedLoop.flatten_chunks_perm (by decide) n)

/-- Every interleaving of the goroutines of `EncryptIntVector` fills every
slot, with the ciphertext and the proof of the sequential loop. -/
theorem encryptIntVectorSlots_of_perm {order : List ℕ} (pubkey : G) (intArray : List ℤ) (ks : ℕ → F)
    (h : order.Perm (ChunkedLoop.chunks VPARALLELIZE intArray.length).flatten) :
    encryptIntVectorSlots S order pubkey intArray ks =
      ((encryptIntVector S pubkey intArray ks).1.zip (encryptIntVector S pubkey intArray ks).2).map some := by
  refine ChunkedLoop.foldl_fill_of_perm _ (by simp [encryptIntVector]) (fun p hp => ?_)
    (perm_range_of_interleaving h)
  simp [encryptIntVector, hp, List.getD_eq_getElem?_getD]

/-- Every interleaving of the goroutines of `getPartials` fills every slot
with the partial decryption and the proof of the sequential loop. -/
theorem getPartialsSlots_of_perm {order : List ℕ} (V : F) (cipher : CipherVector G)
    (h : order.Perm (ChunkedLoop.chunks VPARALLELIZE cipher.length).flatten) :
    getPartialsSlots S order V cipher = ((getPartials S V cipher).1.zip (getPartials S V cipher).2).map some := by
  refine ChunkedLoop.foldl_fill_of_perm _ (by simp [getPartials]) (fun p hp => ?_)
    (perm_range_of_interleaving h)
  simp [getPartials, hp, List.getD_eq_getElem?_getD]

/-- Every interleaving of the goroutines of `CipherVector.Add` computes
`CipherVector.add`. -/
theorem addInterleaved_eq_add {order : List ℕ} (cv cv1 cv2 : CipherVector G)
    (h : order.Perm (ChunkedLoop.chunks VPARALLELIZE cv1.length).flatten) :
    CipherVector.addInterleaved order cv cv1 cv2 = CipherVector.add cv cv1 cv2 := by
  unfold CipherVector.addInterleaved CipherVector.add
  split_ifs with hlen
  · rw [ChunkedLoop.foldl_modify_of_perm _ _ (perm_range_of_interleaving h)]
    congr 1
    apply List.ext_getElem (by simp; omega)
    intro p h₁ h₂
    rw [List.getElem_mapIdx]
    by_cases hp : p < cv1.length
    · have hp2 : p < cv2.length := by omega
      rw [if_pos hp, List.getElem_append_left (by simp; omega), List.getElem_zipWith,
        List.getD_eq_getElem _ _ hp, List.getD_eq_getElem _ _ hp2]
    · rw [if_neg hp, List.getElem_append_right (by simp; omega), List.getElem_drop]
      congr 1
      simp
      omega
  · rfl

/-- Every interleaving of the goroutines of `cv.Add(*cv, cv2)` computes
`CipherVector.add cv cv cv2`: the receiver's entry that the goroutine at `p`
reads is still the one it had at the call. -/
theorem addSelfInterleaved_eq_add {order : List ℕ} (cv cv2 : CipherVector G)
    (h : order.Perm (ChunkedLoop.chunks VPARALLELIZE cv.length).flatten) :
    CipherVector.addSelfInterleaved order cv cv2 = CipherVector.add cv cv cv2 := by
  unfold CipherVector.addSelfInterleaved
  split_ifs with hlen
  · rw [CipherVector.add_self hlen, ChunkedLoop.foldl_modify_of_perm _ _ (perm_range_of_interleaving h)]
    congr 1
    apply List.ext_getElem (by simp; omega)
    intro p h₁ h₂
    have hp : p < cv.length := by simpa using h₁
    rw [List.getElem_mapIdx, if_pos hp, List.getElem_zipWith, List.getD_eq_getElem _ _ (by omega)]
  · exact (CipherVector.add_self_of_lt (by omega)).symm

/-- **The `PARALLELIZE` branches.**  The goroutines of the chunked loops over
a length `L` write each position below `L` once and no other, and every
interleaving of the goroutines of `EncryptIntVector`, `CipherVector.Add` and
`getPartials` leaves the vectors of their sequential branches. -/
theorem parallelize_branches_eq_sequential :
    (∀ L p, (ChunkedLoop.chunks VPARALLELIZE L).flatten.count p = if p < L then 1 else 0) ∧
    (∀ (order : List ℕ) (pubkey : G) (intArray : List ℤ) (ks : ℕ → F),
      order.Perm (ChunkedLoop.chunks VPARALLELIZE intArray.length).flatten →
      encryptIntVectorSlots S order pubkey intArray ks =
        ((encryptIntVector S pubkey intArray ks).1.zip (encryptIntVector S pubkey intArray ks).2).map some) ∧
    (∀ (order : List ℕ) (cv cv1 cv2 : CipherVector G),
      order.Perm (ChunkedLoop.chunks VPARALLELIZE cv1.length).flatten →
      CipherVector.addInterleaved order cv cv1 cv2 = CipherVector.add cv cv1 cv2) ∧
    (∀ (order : List ℕ) (cv cv2 : CipherVector G),
      order.Perm (ChunkedLoop.chunks VPARALLELIZE cv.length).flatten →
      CipherVector.addSelfInterleaved order cv cv2 = CipherVector.add cv cv cv2) ∧
    (∀ (order : List ℕ) (V : F) (cipher : CipherVector G),
      order.Perm (ChunkedLoop.chunks VPARALLELIZE cipher.length).flatten →
      getPartialsSlots S order V cipher = ((getPartials S V cipher).1.zip (getPartials S V cipher).2).map some) := by
  have hcount : ∀ L p, (ChunkedLoop.chunks VPARALLELIZE L).flatten.count p = if p < L then 1 else 0 := by
    intro L p
    rw [(ChunkedLoop.flatten_chunks_perm (by decide) L).count_eq p, List.count_range]
  exact ⟨hcount, fun _ pubkey intArray ks h => encryptIntVectorSlots_of_perm pubkey intArray ks h,
    fun _ cv cv1 cv2 h => addInterleaved_eq_add cv cv1 cv2 h,
    fun _ cv cv2 h => addSelfInterleaved_eq_add cv cv2 h,
    fun _ V cipher h => getPartialsSlots_of_perm V cipher h⟩

end Interleavings

/-! ## Folding `Add` over encrypted vectors -/

section Sums

/-- `acc.Add(*acc, cv)` for each vector of `cvs` in turn, as `AggregateCBF`
and `VerifyAggregationProofWithAggregation` sum their vectors. -/
def addVectors (acc : CipherVector G) (cvs : List (CipherVector G)) : Outcome (CipherVector G) :=
  cvs.foldlM (fun acc cv => CipherVector.add acc acc cv) acc

/-- A run of `acc.Add(*acc, cv)` over the vectors `cvs` in turn, the
goroutines of each call writing in one of their interleavings. -/
inductive AddRun : CipherVector G → List (CipherVector G) → CipherVector G → Prop
  | nil (acc : CipherVector G) : AddRun acc [] acc
  | cons {acc acc' res cv : CipherVector G} {cvs : List (CipherVector G)} (order : List ℕ)
      (horder : order.Perm (ChunkedLoop.chunks VPARALLELIZE acc.length).flatten)
      (hadd : CipherVector.addSelfInterleaved order acc cv = .ok acc') :
      AddRun acc' cvs res → AddRun acc (cv :: cvs) res

/-- The runs of the additions end exactly where the sequential additions
end. -/
theorem addRun_iff_addVectors :
    ∀ {acc : CipherVector G} {cvs : List (CipherVector G)} {res : CipherVector G},
      AddRun acc cvs res ↔ addVectors acc cvs = .ok res
  | acc, [], res => by
      constructor
      · rintro ⟨⟩
        rfl
      · intro h
        simp only [addVectors, List.foldlM_nil, Outcome.pure_eq, Outcome.ok.injEq] at h
        exact h ▸ AddRun.nil acc
  | acc, cv :: cvs, res => by
      constructor
      · intro h
        cases h with
        | cons order horder hadd hrest =>
            rw [addSelfInterleaved_eq_add acc cv horder] at hadd
            simp only [addVectors, List.foldlM_cons, hadd, Outcome.ok_bind]
            exact addRun_iff_addVectors.mp hrest
      · intro h
        simp only [addVectors, List.foldlM_cons] at h
        obtain ⟨acc', hadd, hrest⟩ := Outcome.bind_eq_ok.mp h
        -- the goroutines in the order the loop starts them
        have hseq := addSelfInterleaved_eq_add acc cv (List.Perm.refl _)
        exact AddRun.cons _ (List.Perm.refl _) (hseq.trans hadd) (addRun_iff_addVectors.mpr hrest)

/-- A right-commutative operation, applied componentwise, is
right-commutative. -/
theorem zipWith_right_comm {α : Type*} {f : α → α → α} (hf : ∀ a b c, f (f a b) c = f (f a c) b) :
    ∀ a b c : List α, List.zipWith f (List.zipWith f a b) c = List.zipWith f (List.zipWith f a c) b
  | [], _, _ => rfl
  | _ :: _, [], c => by cases c <;> rfl
  | _ :: _, _ :: _, [] => rfl
  | x :: a, y :: b, z :: c => by
      simp only [List.zipWith_cons_cons, hf x y z, zipWith_right_comm hf a b c]

/-- The componentwise sum does not depend on the order of the summands. -/
theorem sumSets_of_perm {L : ℕ} {ws vs : List (List ℤ)} (h : ws.Perm vs) :
    ws.foldl (List.zipWith (· + ·)) (List.replicate L 0) = sumSets L vs :=
  h.foldl_eq' (fun _ _ _ _ t => zipWith_right_comm add_right_comm t _ _) _

/-- Adding a vector of length `L` to `L` zeros gives the vector. -/
theorem zipWith_add_replicate_zero {L : ℕ} {w : List ℤ} (h : w.length = L) :
    List.zipWith (· + ·) (List.replicate L 0) w = w := by
  apply List.ext_getElem (by simp [h])
  intro p h₁ _
  simp

variable (S : Suite F G Proof)

/-- `NewCipherVector(L)` encrypts `L` zeros under every key. -/
theorem newCipherVector_encryptsInts (X : G) :
    ∀ L, (newCipherVector L : CipherVector G).EncryptsInts S X (List.replicate L 0)
  | 0 => List.Forall₂.nil
  | L + 1 => List.Forall₂.cons (newCipherText_encryptsInt S X) (newCipherVector_encryptsInts X L)

/-- Adding encryptions of vectors of length `L` into an encryption of a
vector of length `L` encrypts the running componentwise sum. -/
theorem addVectors_encryptsInts {X : G} {L : ℕ} :
    ∀ {cvs : List (CipherVector G)} {mss : List (List ℤ)},
      List.Forall₂ (CipherVector.EncryptsInts S X) cvs mss → (∀ ms ∈ mss, ms.length = L) →
      ∀ {acc : CipherVector G} {ms : List ℤ}, acc.EncryptsInts S X ms → ms.length = L →
        ∃ res, addVectors acc cvs = .ok res ∧
          res.EncryptsInts S X (mss.foldl (List.zipWith (· + ·)) ms)
  | [], [], List.Forall₂.nil, _, acc, _, hacc, _ => ⟨acc, rfl, hacc⟩
  | cv :: cvs, m :: mss, List.Forall₂.cons hcv hrest, hlen, acc, ms, hacc, hms => by
      have hm : m.length = L := hlen m (by simp)
      have hle : acc.length ≤ cv.length := by
        rw [hacc.length_eq, hcv.length_eq, hms, hm]
      have hsum : (List.zipWith (· + ·) ms m).length = L := by simp [hms, hm]
      obtain ⟨res, hres, henc⟩ := addVectors_encryptsInts hrest (fun ms' h => hlen ms' (by simp [h]))
        (hacc.zipWith_add S hcv) hsum
      refine ⟨res, ?_, henc⟩
      simp only [addVectors, List.foldlM_cons, CipherVector.add_self hle, Outcome.ok_bind]
      exact hres

variable [DecidableEq G]

/-- Decrypting an encryption of values in `[0, MaxHomomorphicInt)` under
`x • B` gives the values, from any table of earlier nonnegative queries. -/
theorem decryptIntVector_of_encryptsInts (hB : OrderExceeds S.Base (2 * MaxHomomorphicInt))
    {x : F} {cv : CipherVector G} {ms : List ℤ} (h : cv.EncryptsInts S (x • S.Base) ms)
    (hrange : ∀ m ∈ ms, 0 ≤ m ∧ m < MaxHomomorphicInt) {tbl : DlogTable G}
    (htbl : NonnegTable S.Base tbl) :
    ∃ tbl', decryptIntVector S.Base x cv tbl = .ok (ms, tbl') ∧ NonnegTable S.Base tbl' := by
  have hpoints : cv.map (decryptPoint x) = ms.map (· • S.Base) :=
    List.Forall₂.map_eq_map (fun _ _ hc => hc.decryptPoint_eq S) h
  rw [decryptIntVector_eq, hpoints]
  exact runGetPointToInt_of_nonnegTable hB ms htbl hrange

/-- Every run of the additions from `start` over `cvs` ends at one vector,
and decrypting it under `x` from the table `tbl` gives `ms` and a table for
further nonnegative queries. -/
def AddRunDecrypts (B : G) (x : F) (start : CipherVector G) (cvs : List (CipherVector G))
    (ms : List ℤ) (tbl : DlogTable G) : Prop :=
  ∃ res, (∀ res', AddRun start cvs res' ↔ res' = res) ∧
    ∃ tbl', decryptIntVector B x res tbl = .ok (ms, tbl') ∧ NonnegTable B tbl'

/-- Additions that end at an encryption of values in `[0, MaxHomomorphicInt)`
decrypt to them, in every interleaving. -/
theorem addRunDecrypts_of_encryptsInts (hB : OrderExceeds S.Base (2 * MaxHomomorphicInt)) {x : F}
    {start res : CipherVector G} {cvs : List (CipherVector G)} (hres : addVectors start cvs = .ok res)
    {ms : List ℤ} (henc : res.EncryptsInts S (x • S.Base) ms)
    (hrange : ∀ m ∈ ms, 0 ≤ m ∧ m < MaxHomomorphicInt) {tbl : DlogTable G}
    (htbl : NonnegTable S.Base tbl) : AddRunDecrypts S.Base x start cvs ms tbl := by
  refine ⟨res, fun res' => ?_, decryptIntVector_of_encryptsInts S hB henc hrange htbl⟩
  rw [addRun_iff_addVectors, hres, Outcome.ok.injEq, eq_comm]

/-- **Homomorphic sums.**  Encryptions under `x • B` of vectors `ws` of
length `L`, which are the vectors `vs` in some order, each encrypted with its
own randomness: adding them up with `acc.Add(*acc, cv)`, from
`NewCipherVector(L)` or from the first encryption, ends in every
interleaving of the goroutines at one vector, and when the componentwise sums
lie in `[0, MaxHomomorphicInt)` it decrypts to them from any table of earlier
nonnegative queries. -/
theorem decryptIntVector_addVectors_encryptIntVector (hB : OrderExceeds S.Base (2 * MaxHomomorphicInt))
    (x : F) {L : ℕ} {vs ws : List (List ℤ)} (hL : ∀ v ∈ vs, v.length = L) (hws : ws.Perm vs)
    {cvs : List (CipherVector G)}
    (hcvs : List.Forall₂ (fun cv v => ∃ ks : ℕ → F, cv = (encryptIntVector S (x • S.Base) v ks).1) cvs ws)
    (hsum : ∀ m ∈ sumSets L vs, 0 ≤ m ∧ m < MaxHomomorphicInt)
    {tbl : DlogTable G} (htbl : NonnegTable S.Base tbl) :
    AddRunDecrypts S.Base x (newCipherVector L) cvs (sumSets L vs) tbl ∧
      ∀ cv₀ rest, cvs = cv₀ :: rest → AddRunDecrypts S.Base x cv₀ rest (sumSets L vs) tbl := by
  have hwsL : ∀ w ∈ ws, w.length = L := fun w hw => hL w (hws.mem_iff.mp hw)
  have henc : List.Forall₂ (CipherVector.EncryptsInts S (x • S.Base)) cvs ws :=
    hcvs.imp fun _ v ⟨ks, hcv⟩ => hcv ▸ encryptIntVector_encryptsInts S _ v ks
  constructor
  · -- from `NewCipherVector(L)`, the encryption of `L` zeros
    obtain ⟨res, hres, hdec⟩ := addVectors_encryptsInts S henc hwsL
      (newCipherVector_encryptsInts S _ L) List.length_replicate
    rw [sumSets_of_perm hws] at hdec
    exact addRunDecrypts_of_encryptsInts S hB hres hdec hsum htbl
  · -- from the first encryption, with the receiver aliased to it
    rintro cv₀ rest rfl
    obtain ⟨w₀, wrest, hc₀, hrest, rfl⟩ := List.forall₂_cons_left_iff.mp henc
    have hw₀ : w₀.length = L := hwsL w₀ (by simp)
    obtain ⟨res, hres, hdec⟩ := addVectors_encryptsInts S hrest (fun w hw => hwsL w (by simp [hw])) hc₀ hw₀
    have hstart : wrest.foldl (List.zipWith (· + ·)) w₀ = sumSets L vs := by
      rw [← sumSets_of_perm hws, List.foldl_cons, zipWith_add_replicate_zero hw₀]
    rw [hstart] at hdec
    exact addRunDecrypts_of_encryptsInts S hB hres hdec hsum htbl

/-- The base `1` of `Suite.rat` has infinite order. -/
theorem orderExceeds_rat_base (N : ℤ) : OrderExceeds Suite.rat.Base N := by
  intro n h _
  simpa [Suite.rat] using h

/-- In the suite on `ℚ`, with the secret `3`: `[0, 1, 2]` and `[1, 0, 2]`,
encrypted with randomness `1`, add up to `[1, 1, 4]` from either start. -/
theorem homomorphic_sum_rat :
    (∀ m ∈ sumSets 3 [[1, 0, 2], [0, 1, 2]], 0 ≤ m ∧ m < MaxHomomorphicInt) ∧
      AddRunDecrypts Suite.rat.Base (3 : ℚ) (newCipherVector 3)
          [(encryptIntVector Suite.rat ((3 : ℚ) • Suite.rat.Base) [0, 1, 2] fun _ => 1).1,
            (encryptIntVector Suite.rat ((3 : ℚ) • Suite.rat.Base) [1, 0, 2] fun _ => 1).1]
          (sumSets 3 [[1, 0, 2], [0, 1, 2]]) DlogTable.initial ∧
        ∀ cv₀ rest, [(encryptIntVector Suite.rat ((3 : ℚ) • Suite.rat.Base) [0, 1, 2] fun _ => 1).1,
            (encryptIntVector Suite.rat ((3 : ℚ) • Suite.rat.Base) [1, 0, 2] fun _ => 1).1] = cv₀ :: rest →
          AddRunDecrypts Suite.rat.Base (3 : ℚ) cv₀ rest (sumSets 3 [[1, 0, 2], [0, 1, 2]]) DlogTable.initial := by
  have hsum : ∀ m ∈ sumSets 3 [[1, 0, 2], [0, 1, 2]], 0 ≤ m ∧ m < MaxHomomorphicInt := by decide
  exact ⟨hsum, decryptIntVector_addVectors_encryptIntVector Suite.rat (orderExceeds_rat_base _) 3
    (by decide) (List.Perm.swap _ _ []) (.cons ⟨_, rfl⟩ (.cons ⟨_, rfl⟩ .nil)) hsum
    (NonnegTable.initial _)⟩

end Sums

end Decenarch
