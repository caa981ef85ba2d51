import Decenarch.Proofs
import Decenarch.Bloom
import Decenarch.Lib.AListFold

/-!
# Consensus on structured data (`protocol/consensus_structured.go`)

Every conode fills a counting Bloom filter with the leaves of its copy of
the page, encrypts its counter vector under the collective key with a proof
that each entry is `0` or `1`, and signs the encryption.  A leaf sends the
encryption and its proof entry to its parent; a parent checks each child's
signature and content proof, adds the accepted vectors into its own, and
records every contribution in an aggregation proof.  The root broadcasts the
map of all entries, which every conode checks with `VerifyCompleteProofs`.

`AggregateCBF` is modelled with the data it reads: the node's keys, its tree
node, the tree rebuilt from its `TreeMarshal`, the shared key and the filter
parameters; the replies of the children are the messages onet hands to
`HandleReply`, with the key of the tree node that sent each.  The random
scalars of the encryption are an argument.  The error list `Errs` is not
modelled: no decision of the protocol reads it.
-/

namespace Decenarch

/-- `StructSaveReplyStructured`: a child's `SaveReplyStructured`, with the
public key of the tree node that sent it. -/
structure StructSaveReplyStructured (G Proof : Type) where
  /-- `r.TreeNode.ServerIdentity.Public`, set by onet from the sender. -/
  Public : G
  EncryptedCBFSet : Option (CipherVector G)
  CompleteProofs : CompleteProofs G Proof

/-- The fields of a `ConsensusStructuredState` that `AggregateCBF` reads and
writes.  `Tree` is the tree that `MakeTree` rebuilds from the node's
`TreeMarshal` and `Roster`. -/
structure ConsensusStructuredState (F G Proof : Type) where
  /-- `p.Public()`. -/
  Public : G
  /-- `p.Private()`. -/
  Private : F
  /-- `p.TreeNode().ID`. -/
  TreeNodeID : ℕ
  /-- `p.IsLeaf()`. -/
  IsLeaf : Bool
  Tree : Tree G
  SharedKey : G
  ParametersCBF : ℕ × ℕ
  EncryptedCBFSet : Option (CipherVector G)
  CompleteProofs : CompleteProofs G Proof

/-- What the loop over the replies of `AggregateCBF` updates: the node's map
of proofs, `childrenContributions` and the running sum `p.EncryptedCBFSet`. -/
structure Aggregation (G Proof : Type) where
  CompleteProofs : CompleteProofs G Proof
  childrenContributions : StrMap Bytes
  EncryptedCBFSet : CipherVector G

variable {F G Proof : Type} [Field F] [AddCommGroup G] [Module F G]
variable (S : Suite F G Proof) (hashes : Bytes → ℕ × ℕ)

/-- The loop `for conode, proof := range r.CompleteProofs`: every proof of the
child is stored under its key, with the child's vector as its
`EncryptedBloomFilter`. -/
def storeChildProofs (bytes : Bytes) (proofs : List ((_ : String) × CompleteProof G Proof))
    (cp : CompleteProofs G Proof) : CompleteProofs G Proof :=
  proofs.foldl (fun cp e => cp.insert e.1 { e.2 with EncryptedBloomFilter := bytes }) cp

/-- The condition `vErr == nil && VerifyCipherVectorProof(r.EncryptedCBFSet)`
on the child's signature, read from the child's own map, and its content
proof, read from the node's map after the store. -/
def childValid (cp : CompleteProofs G Proof) (r : StructSaveReplyStructured G Proof)
    (set : CipherVector G) (bytes : Bytes) : Outcome Bool :=
  let conodeKey := S.PointString r.Public
  match r.CompleteProofs.lookup conodeKey with
  | none => .panic
  | some childProof =>
    if (S.SchnorrVerify r.Public (S.HashSum bytes) childProof.EncryptedCBFSetSignature).isNone then
      match cp.lookup conodeKey with
      | none => .panic
      | some stored =>
        match stored.CipherVectorProof with
        | none => .panic
        | some cvp => verifyCipherVectorProof S cvp set
    else .ok false

/-- One turn of the loop `for _, r := range reply`. -/
def aggregateReply (acc : Aggregation G Proof) (r : StructSaveReplyStructured G Proof) :
    Outcome (Aggregation G Proof) :=
  match r.EncryptedCBFSet with
  | none => .panic
  | some set =>
    let bytes := (set.toBytes S).1
    let cp := storeChildProofs bytes r.CompleteProofs.entries acc.CompleteProofs
    childValid S cp r set bytes >>= fun valid =>
    if valid then
      CipherVector.add acc.EncryptedCBFSet acc.EncryptedCBFSet set >>= fun sum =>
        .ok ⟨cp, acc.childrenContributions.insert (S.PointString r.Public) bytes, sum⟩
    else .ok { acc with CompleteProofs := cp }

/-- The loop over the replies, in the order onet delivers them. -/
def aggregateReplies : Aggregation G Proof → List (StructSaveReplyStructured G Proof) →
    Outcome (Aggregation G Proof)
  | acc, [] => .ok acc
  | acc, r :: rs => aggregateReply S acc r >>= fun acc' => aggregateReplies acc' rs

/-- The node's own entry for the counter vector `set`, encrypted with the
scalars `ks`, before its aggregation proof and signature are added. -/
def localEntry (p : ConsensusStructuredState F G Proof) (set : List ℤ) (ks : ℕ → F) :
    CompleteProof G Proof :=
  let encrypted := encryptIntVector S p.SharedKey set ks
  { MadeTree := some p.Tree
    PublicKey := p.Public
    AggregationProof := none
    CipherVectorProof := some encrypted.2
    EncryptedCBFSetSignature := []
    TreeNodeID := p.TreeNodeID
    EncryptedBloomFilter := (encrypted.1.toBytes S).1 }

/-- The node's own part of `AggregateCBF` for the counter vector `set`: its
entry, its contribution and the start of the sum. -/
def localAggregation (p : ConsensusStructuredState F G Proof) (set : List ℤ) (ks : ℕ → F) :
    Aggregation G Proof :=
  let encrypted := encryptIntVector S p.SharedKey set ks
  let pubKeyString := S.PointString p.Public
  { CompleteProofs := (∅ : CompleteProofs G Proof).insert pubKeyString (localEntry S p set ks)
    childrenContributions := (∅ : StrMap Bytes).insert pubKeyString (encrypted.1.toBytes S).1
    EncryptedCBFSet := encrypted.1 }

/-- The node's own part of `AggregateCBF`, from the filter of its local tree. -/
def localContribution (p : ConsensusStructuredState F G Proof) (locTree : Node) (ks : ℕ → F) :
    Outcome (Aggregation G Proof) :=
  newFilledBloomFilter hashes p.ParametersCBF locTree >>= fun countingBloomFilter =>
    .ok (localAggregation S p countingBloomFilter.Set ks)

/-- `ConsensusStructuredState.AggregateCBF`, with the signature of
`signEncryptedCBFSet`. -/
def aggregateCBF (p : ConsensusStructuredState F G Proof) (locTree : Node) (ks : ℕ → F)
    (reply : List (StructSaveReplyStructured G Proof)) :
    Outcome (ConsensusStructuredState F G Proof) :=
  localContribution S hashes p locTree ks >>= fun start =>
  (if p.IsLeaf then .ok start else aggregateReplies S start reply) >>= fun acc =>
  let pubKeyString := S.PointString p.Public
  let bytesEncrypted := acc.EncryptedCBFSet.toBytes S
  match acc.CompleteProofs.lookup pubKeyString with
  | none => .panic
  | some mine =>
    let sig := S.SchnorrSign p.Private (S.HashSum bytesEncrypted.1)
    .ok { p with
      EncryptedCBFSet := some acc.EncryptedCBFSet
      CompleteProofs := acc.CompleteProofs.insert pubKeyString
        { mine with
          AggregationProof := some (createAggregationiProof acc.childrenContributions
            bytesEncrypted.1 bytesEncrypted.2)
          EncryptedCBFSetSignature := sig } }

/-- The `SaveReplyStructured` that `HandleReply` sends to the parent, as the
parent receives it. -/
def replyToParent (p : ConsensusStructuredState F G Proof) : StructSaveReplyStructured G Proof :=
  ⟨p.Public, p.EncryptedCBFSet, p.CompleteProofs⟩


/-! ## One reply -/

theorem localContribution_spec {p : ConsensusStructuredState F G Proof}
    (hM : 0 < p.ParametersCBF.1) (locTree : Node) (ks : ℕ → F) :
    ∃ set, FilledFrom hashes p.ParametersCBF.1 p.ParametersCBF.2 locTree set ∧
      localContribution S hashes p locTree ks = .ok (localAggregation S p set ks) := by
  obtain ⟨c, hc, -, -, hfill⟩ := newFilledBloomFilter_spec hashes hM p.ParametersCBF.2 locTree
  exact ⟨c.Set, hfill, by simp [localContribution, hc]⟩

omit [Field F] [AddCommGroup G] [Module F G] in
/-- A child's map with one entry is stored as that entry. -/
theorem storeChildProofs_singleton (bytes : Bytes) (k : String) (e : CompleteProof G Proof)
    (cp : CompleteProofs G Proof) :
    storeChildProofs bytes ((∅ : CompleteProofs G Proof).insert k e).entries cp =
      cp.insert k { e with EncryptedBloomFilter := bytes } := rfl

omit [Field F] [Module F G] in
/-- A child that signed its vector passes exactly when its stored content
proof does. -/
theorem childValid_of_signed {cp : CompleteProofs G Proof} {r : StructSaveReplyStructured G Proof}
    {set : CipherVector G} {bytes : Bytes} {e stored : CompleteProof G Proof}
    {cvp : CipherVectorProof G Proof}
    (he : r.CompleteProofs.lookup (S.PointString r.Public) = some e)
    (hsig : S.SchnorrVerify r.Public (S.HashSum bytes) e.EncryptedCBFSetSignature = none)
    (hstored : cp.lookup (S.PointString r.Public) = some stored)
    (hcvp : stored.CipherVectorProof = some cvp) :
    childValid S cp r set bytes = verifyCipherVectorProof S cvp set := by
  simp [childValid, he, hsig, hstored, hcvp]

omit [Field F] [Module F G] in
/-- An accepted child's vector is added into the sum when it is at least as
long, and indexing it panics otherwise. -/
theorem aggregateReply_of_valid {acc : Aggregation G Proof} {r : StructSaveReplyStructured G Proof}
    {set : CipherVector G} (hset : r.EncryptedCBFSet = some set)
    (hvalid : childValid S (storeChildProofs (set.toBytes S).1 r.CompleteProofs.entries
      acc.CompleteProofs) r set (set.toBytes S).1 = .ok true) :
    aggregateReply S acc r =
      if acc.EncryptedCBFSet.length ≤ set.length then
        .ok ⟨storeChildProofs (set.toBytes S).1 r.CompleteProofs.entries acc.CompleteProofs,
          acc.childrenContributions.insert (S.PointString r.Public) (set.toBytes S).1,
          List.zipWith CipherText.add acc.EncryptedCBFSet set⟩
      else .panic := by
  simp only [aggregateReply, hset, hvalid, Outcome.ok_bind, if_true]
  split_ifs with hlen
  · rw [CipherVector.add_self hlen, Outcome.ok_bind]
  · rw [CipherVector.add_self_of_lt (by omega), Outcome.panic_bind]

/-! ## A child without a content proof

`VerifyCipherVectorProof` checks one proof per proof it is given, so a child
that sends an empty `CipherVectorProof` passes the content check with any
vector.  A parent adds such a vector into its sum whatever it encrypts, and
panics on one shorter than its own. -/

end Decenarch
