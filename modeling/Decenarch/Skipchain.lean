import Decenarch.SaveWebpage
import Mathlib.Logic.Relation

/-!
# Storing and finding pages on the skipchain (`skip/api.go`, `service/service.go`)

`SkipAddData` marshals the webstores to JSON, gzips them and asks the
skipchain to store them in a new block after the last block of the chain;
`SkipGetData` starts at the block `latestID` names and walks back along
`BackLinkIDs[0]` until a block holds a page of the requested URL whose
timestamp is not after the requested time, or the genesis is reached;
`Service.Retrieve` then checks the cosi signature of that page and keeps the
pages of its additional links whose signatures check.

The skipchain service is cothority's, outside `src/`.  It enters as a
parameter, `SkipchainClient`: the three calls the archive makes, on the
state of the service and with the IDs of blocks of any type.  What the
results below assume of it is stated as named laws (`SkipchainClient.Spec`):
the `nil` ID names no block, `CreateGenesis` adds a genesis, and
`StoreSkipBlock` adds one block above a genesis that links back to a lower
block and from which the back links lead to the target.  `Skipchains`, a
list of chains, is one service that meets them; only the witnesses use it.
`GetSingleBlock` returns a `nil` block with its error, so the unchecked
error of the first call leaves `block` nil.  JSON, gzip, `http.Get`,
`time.Parse` and `cosi.Verify` are parameters.
-/

namespace Decenarch

/-- `skipchain.SkipBlock` as the client reads it; `ID` is the type of the
IDs of blocks (`SkipBlockID`, the hash of a block). -/
structure SkipBlock (ID : Type) where
  Hash : ID
  Index : ℕ
  BackLinkIDs : List ID
  Data : Bytes
  deriving DecidableEq

/-- What the archive calls of cothority's `skipchain.Client`, on the state
`S` of the skipchain service of the conodes: `CreateGenesis` as `SkipStart`
calls it, `GetSingleBlock`, whose `nil` ID is `none`, and
`StoreSkipBlock(target, r, data)`, which answers with the reply's `Latest`.
The roster of every call is the service's own. -/
structure SkipchainClient (S ID : Type) where
  createGenesis : S → Except String (S × SkipBlock ID)
  getSingleBlock : S → Option ID → Except String (SkipBlock ID)
  storeSkipBlock : S → SkipBlock ID → Bytes → Except String (S × SkipBlock ID)

namespace SkipchainClient

variable {S ID : Type} (svc : SkipchainClient S ID)

/-- `b'` is the block of `st` that the first back link of `b` names. -/
def BackLink (st : S) (b b' : SkipBlock ID) : Prop :=
  ∃ back rest, b.BackLinkIDs = back :: rest ∧ svc.getSingleBlock st (some back) = .ok b'

/-- Every block of `st` is a block of `st'`, unchanged. -/
def Extends (st st' : S) : Prop :=
  ∀ (bid : Option ID) (b : SkipBlock ID), svc.getSingleBlock st bid = .ok b → svc.getSingleBlock st' bid = .ok b

/-- `st` holds a block of ID `bid`. -/
def Names (st : S) (bid : ID) : Prop :=
  ∃ b, svc.getSingleBlock st (some bid) = .ok b

/-- `st'` holds the blocks of `st`, and `b` under its hash, and no other. -/
structure Adds (st st' : S) (b : SkipBlock ID) : Prop where
  new : svc.getSingleBlock st' (some b.Hash) = .ok b
  keep : svc.Extends st st'
  only : ∀ (bid : Option ID) (b₀ : SkipBlock ID), svc.getSingleBlock st' bid = .ok b₀ →
    svc.getSingleBlock st bid = .ok b₀ ∨ b₀ = b

/-- What the archive relies on of the skipchain service.  The `nil` ID
names no block.  `CreateGenesis` adds one block, of height 0.
`StoreSkipBlock` after a block of the service adds one block: it holds the
data, is above a genesis, links back to a block of lower height, and the
back links lead from it to the target, since it goes at the end of the
target's chain. -/
structure Spec : Prop where
  getSingleBlock_none : ∀ st, ∃ e, svc.getSingleBlock st none = .error e
  createGenesis : ∀ {st st' : S} {g : SkipBlock ID}, svc.createGenesis st = .ok (st', g) →
    g.Index = 0 ∧ svc.Adds st st' g
  storeSkipBlock : ∀ {st st' : S} {tid : Option ID} {target b : SkipBlock ID} {d : Bytes},
    svc.getSingleBlock st tid = .ok target → svc.storeSkipBlock st target d = .ok (st', b) →
      b.Data = d ∧ b.Index ≠ 0 ∧ svc.Adds st st' b ∧ (∃ b₁, svc.BackLink st b b₁ ∧ b₁.Index < b.Index) ∧
        Relation.ReflTransGen (svc.BackLink st') b target

/-- `StoreSkipBlock` after a block of the service goes through. -/
def StoreLive : Prop :=
  ∀ {st : S} {tid : Option ID} {target : SkipBlock ID} (d : Bytes), svc.getSingleBlock st tid = .ok target →
    ∃ st' b, svc.storeSkipBlock st target d = .ok (st', b)

/-- The service holds no block. -/
def Empty (st : S) : Prop :=
  ∀ (bid : Option ID) (b : SkipBlock ID), svc.getSingleBlock st bid ≠ .ok b

/-- Every block of `st` above a genesis links back to a block of lower
height and holds bytes with property `P`. -/
def AboveGenesis (P : Bytes → Prop) (st : S) : Prop :=
  ∀ (bid : Option ID) (b : SkipBlock ID), svc.getSingleBlock st bid = .ok b → b.Index ≠ 0 →
    (∃ b', svc.BackLink st b b' ∧ b'.Index < b.Index) ∧ P b.Data

variable {svc}

theorem Extends.refl (st : S) : svc.Extends st st := by
  intro _ _ h
  exact h

theorem Extends.trans {st₁ st₂ st₃ : S} (h₁ : svc.Extends st₁ st₂) (h₂ : svc.Extends st₂ st₃) :
    svc.Extends st₁ st₃ := by
  intro bid b h
  exact h₂ bid b (h₁ bid b h)

theorem Extends.names {st st' : S} (h : svc.Extends st st') {bid : ID} (hb : svc.Names st bid) :
    svc.Names st' bid := by
  obtain ⟨b, hget⟩ := hb
  exact ⟨b, h _ b hget⟩

theorem BackLink.mono {st st' : S} (h : svc.Extends st st') {b b' : SkipBlock ID} (hb : svc.BackLink st b b') :
    svc.BackLink st' b b' := by
  obtain ⟨back, rest, hback, hget⟩ := hb
  exact ⟨back, rest, hback, h _ b' hget⟩

/-- The back links from a block of `st` lead to blocks of `st`. -/
theorem exists_getSingleBlock_of_reflTransGen {st : S} {bid : Option ID} {b b' : SkipBlock ID}
    (hb : svc.getSingleBlock st bid = .ok b) (h : Relation.ReflTransGen (svc.BackLink st) b b') :
    ∃ bid', svc.getSingleBlock st bid' = .ok b' := by
  induction h with
  | refl => exact ⟨bid, hb⟩
  | tail _ hlink =>
      obtain ⟨back, -, -, hget⟩ := hlink
      exact ⟨some back, hget⟩

theorem aboveGenesis_of_empty {P : Bytes → Prop} {st : S} (h : svc.Empty st) : svc.AboveGenesis P st := by
  intro bid b hb
  exact absurd hb (h bid b)

section Spec

variable (hsvc : svc.Spec)
include hsvc

theorem Spec.extends_createGenesis {st st' : S} {g : SkipBlock ID} (h : svc.createGenesis st = .ok (st', g)) :
    svc.Extends st st' :=
  (hsvc.createGenesis h).2.keep

/-- A new genesis has no block above it, so every block above a genesis is
one of before. -/
theorem AboveGenesis.createGenesis {P : Bytes → Prop} {st st' : S} {g : SkipBlock ID}
    (h : svc.AboveGenesis P st) (hg : svc.createGenesis st = .ok (st', g)) : svc.AboveGenesis P st' := by
  obtain ⟨hg0, hadds⟩ := hsvc.createGenesis hg
  intro bid b hb hi
  rcases hadds.only bid b hb with hold | rfl
  · obtain ⟨⟨b', hlink, hlt⟩, hP⟩ := h bid b hold hi
    exact ⟨⟨b', hlink.mono hadds.keep, hlt⟩, hP⟩
  · exact absurd hg0 hi

/-- A stored block whose data has property `P` keeps every block above a
genesis with `P`. -/
theorem AboveGenesis.storeSkipBlock {P : Bytes → Prop} {st st' : S} {tid : Option ID} {target b : SkipBlock ID}
    {d : Bytes} (h : svc.AboveGenesis P st) (ht : svc.getSingleBlock st tid = .ok target)
    (hs : svc.storeSkipBlock st target d = .ok (st', b)) (hd : P d) : svc.AboveGenesis P st' := by
  obtain ⟨hdata, -, hadds, ⟨b₁, hlink₁, hlt₁⟩, -⟩ := hsvc.storeSkipBlock ht hs
  intro bid b₀ hb hi
  rcases hadds.only bid b₀ hb with hold | rfl
  · obtain ⟨⟨b', hlink, hlt⟩, hP⟩ := h bid b₀ hold hi
    exact ⟨⟨b', hlink.mono hadds.keep, hlt⟩, hP⟩
  · exact ⟨⟨b₁, hlink₁.mono hadds.keep, hlt₁⟩, hdata ▸ hd⟩

end Spec

end SkipchainClient

/-! ## A skipchain service for the witnesses -/

/-- The block at height `i` of chain `c`, holding `d`: its ID is `(c, i)`
and its first back link names the block below it. -/
def mkBlock (c i : ℕ) (d : Bytes) : SkipBlock (ℕ × ℕ) :=
  ⟨(c, i), i, if i = 0 then [] else [(c, i - 1)], d⟩

/-- Skipchains held as the data of their blocks, chain by chain from the
genesis on, with `(chain, height)` as the ID of a block.  It meets
`SkipchainClient.Spec` (`Skipchains.client_spec`); the witnesses run the
archive on it. -/
structure Skipchains where
  chains : List (List Bytes)

namespace Skipchains

/-- The block of an ID; the `nil` ID and an unknown one give an error. -/
def getSingleBlock (sc : Skipchains) : Option (ℕ × ℕ) → Except String (SkipBlock (ℕ × ℕ))
  | none => .error "No such block"
  | some (c, i) =>
      match sc.chains[c]? with
      | none => .error "No such block"
      | some chain =>
          match chain[i]? with
          | none => .error "No such block"
          | some d => .ok (mkBlock c i d)

/-- A new chain whose genesis holds no data. -/
def createGenesis (sc : Skipchains) : Except String (Skipchains × SkipBlock (ℕ × ℕ)) :=
  .ok (⟨sc.chains ++ [[[]]]⟩, mkBlock sc.chains.length 0 [])

/-- The new block goes after the last block of the target's chain. -/
def storeSkipBlock (sc : Skipchains) (target : SkipBlock (ℕ × ℕ)) (data : Bytes) :
    Except String (Skipchains × SkipBlock (ℕ × ℕ)) :=
  match sc.chains[target.Hash.1]? with
  | none => .error "No such block"
  | some chain => .ok (⟨sc.chains.set target.Hash.1 (chain ++ [data])⟩, mkBlock target.Hash.1 chain.length data)

/-- The three calls on `Skipchains`. -/
def client : SkipchainClient Skipchains (ℕ × ℕ) :=
  ⟨createGenesis, getSingleBlock, storeSkipBlock⟩

@[simp] theorem client_createGenesis : client.createGenesis = createGenesis := rfl

@[simp] theorem client_getSingleBlock : client.getSingleBlock = getSingleBlock := rfl

@[simp] theorem client_storeSkipBlock : client.storeSkipBlock = storeSkipBlock := rfl

theorem getSingleBlock_some {sc : Skipchains} {c i : ℕ} {chain : List Bytes} (hc : sc.chains[c]? = some chain)
    (hi : i < chain.length) : sc.getSingleBlock (some (c, i)) = .ok (mkBlock c i chain[i]) := by
  simp [getSingleBlock, hc, hi]

theorem getSingleBlock_eq_ok {sc : Skipchains} {bid : Option (ℕ × ℕ)} {b : SkipBlock (ℕ × ℕ)}
    (h : sc.getSingleBlock bid = .ok b) :
    ∃ c i chain d, bid = some (c, i) ∧ sc.chains[c]? = some chain ∧ chain[i]? = some d ∧ b = mkBlock c i d := by
  match bid with
  | none => simp [getSingleBlock] at h
  | some (c, i) =>
      simp only [getSingleBlock] at h
      split at h
      · cases h
      · rename_i chain hc
        split at h
        · cases h
        · rename_i d hd
          cases h
          exact ⟨c, i, chain, d, rfl, hc, hd, rfl⟩

/-- Every chain of `sc` is a prefix of the chain of the same index in
`sc'`. -/
def Grows (sc sc' : Skipchains) : Prop :=
  ∀ (k : ℕ) (chain : List Bytes), sc.chains[k]? = some chain →
    ∃ chain', sc'.chains[k]? = some chain' ∧ chain <+: chain'

theorem extends_of_grows {sc sc' : Skipchains} (h : sc.Grows sc') : client.Extends sc sc' := by
  intro bid b hb
  rw [client_getSingleBlock] at hb ⊢
  obtain ⟨c, i, chain, d, rfl, hc, hd, rfl⟩ := getSingleBlock_eq_ok hb
  obtain ⟨chain', hc', hp⟩ := h c chain hc
  obtain ⟨hi, rfl⟩ := List.getElem?_eq_some_iff.mp hd
  have hi' : i < chain'.length := lt_of_lt_of_le hi hp.length_le
  rw [getSingleBlock_some hc' hi', hp.getElem hi]

theorem getElem?_set_append {chains : List (List Bytes)} {k : ℕ} {chain : List Bytes} (hc : chains[k]? = some chain)
    (data : Bytes) (k' : ℕ) :
    (chains.set k (chain ++ [data]))[k']? = if k' = k then some (chain ++ [data]) else chains[k']? := by
  have hk : k < chains.length := (List.getElem?_eq_some_iff.mp hc).1
  rw [List.getElem?_set]
  by_cases hkk : k = k'
  · subst hkk
    simp [hk]
  · simp [hkk, Ne.symm hkk]

theorem storeSkipBlock_eq_ok {sc sc' : Skipchains} {target b : SkipBlock (ℕ × ℕ)} {data : Bytes} :
    sc.storeSkipBlock target data = .ok (sc', b) ↔
      ∃ chain, sc.chains[target.Hash.1]? = some chain ∧
        sc' = ⟨sc.chains.set target.Hash.1 (chain ++ [data])⟩ ∧ b = mkBlock target.Hash.1 chain.length data := by
  unfold storeSkipBlock
  split
  · rename_i hc
    simp [hc]
  · rename_i chain hc
    simp only [hc, Except.ok.injEq, Prod.mk.injEq, Option.some.injEq, exists_eq_left']
    constructor
    · rintro ⟨rfl, rfl⟩
      exact ⟨rfl, rfl⟩
    · rintro ⟨rfl, rfl⟩
      exact ⟨rfl, rfl⟩

/-- The store after a block of chain `k`. -/
theorem storeSkipBlock_mkBlock {sc : Skipchains} {k i : ℕ} {chain : List Bytes} (hc : sc.chains[k]? = some chain)
    (d₀ data : Bytes) :
    sc.storeSkipBlock (mkBlock k i d₀) data = .ok (⟨sc.chains.set k (chain ++ [data])⟩, mkBlock k chain.length data) := by
  simp [storeSkipBlock, mkBlock, hc]

/-- Below height `j` of a chain, the first back link names the block one
lower, so the back links lead down to every lower block. -/
theorem reflTransGen_mkBlock {sc : Skipchains} {k : ℕ} {chain : List Bytes} (hc : sc.chains[k]? = some chain)
    {i : ℕ} : ∀ {j : ℕ} (hij : i ≤ j) (hj : j < chain.length),
      Relation.ReflTransGen (client.BackLink sc) (mkBlock k j chain[j]) (mkBlock k i chain[i]) := by
  intro j hij hj
  induction j with
  | zero =>
      obtain rfl : i = 0 := by omega
      exact .refl
  | succ j ih =>
      rcases Nat.eq_or_lt_of_le hij with rfl | hlt
      · exact .refl
      · have hlink : client.BackLink sc (mkBlock k (j + 1) chain[j + 1]) (mkBlock k j chain[j]) :=
          ⟨(k, j), [], by simp [mkBlock], getSingleBlock_some hc (by omega)⟩
        exact .head hlink (ih (by omega) (by omega))

theorem createGenesis_adds (sc : Skipchains) :
    client.Adds sc ⟨sc.chains ++ [[[]]]⟩ (mkBlock sc.chains.length 0 []) where
  new := by simp [client, getSingleBlock, mkBlock]
  keep := extends_of_grows fun k chain hc =>
    ⟨chain, by simpa [List.getElem?_append_left (List.getElem?_eq_some_iff.mp hc).1] using hc, List.prefix_refl chain⟩
  only := by
    intro bid b₀ hb
    rw [client_getSingleBlock] at hb
    obtain ⟨c, i, chain, d, rfl, hc, hd, rfl⟩ := getSingleBlock_eq_ok hb
    rw [List.getElem?_append] at hc
    split_ifs at hc with hlt
    · exact .inl (by simp [getSingleBlock, hc, hd])
    · -- the new chain holds its genesis only
      have hk := (List.getElem?_eq_some_iff.mp hc).1
      simp only [List.length_singleton] at hk
      obtain rfl : c = sc.chains.length := by omega
      simp only [Nat.sub_self, List.getElem?_cons_zero, Option.some.injEq] at hc
      subst hc
      have hi := (List.getElem?_eq_some_iff.mp hd).1
      simp only [List.length_singleton] at hi
      obtain rfl : i = 0 := by omega
      simp only [List.getElem?_cons_zero, Option.some.injEq] at hd
      subst hd
      exact .inr rfl

theorem storeSkipBlock_adds {sc : Skipchains} {k : ℕ} {chain : List Bytes} (hc : sc.chains[k]? = some chain)
    (data : Bytes) : client.Adds sc ⟨sc.chains.set k (chain ++ [data])⟩ (mkBlock k chain.length data) where
  new := by
    have hk : (⟨sc.chains.set k (chain ++ [data])⟩ : Skipchains).chains[k]? = some (chain ++ [data]) := by
      simp [getElem?_set_append hc]
    show getSingleBlock _ (some (k, chain.length)) = _
    rw [getSingleBlock_some hk (by simp)]
    simp
  keep := extends_of_grows fun k' chain' hk' => by
    rw [getElem?_set_append hc]
    split_ifs with hkk
    · subst hkk
      rw [hc] at hk'
      cases hk'
      exact ⟨chain ++ [data], rfl, List.prefix_append chain [data]⟩
    · exact ⟨chain', hk', List.prefix_refl chain'⟩
  only := by
    intro bid b₀ hb
    rw [client_getSingleBlock] at hb
    obtain ⟨c, i, chain', d, rfl, hc', hd, rfl⟩ := getSingleBlock_eq_ok hb
    rw [getElem?_set_append hc] at hc'
    split_ifs at hc' with hck
    · cases hc'
      subst hck
      rw [List.getElem?_append] at hd
      split_ifs at hd with hlt
      · exact .inl (by simp [getSingleBlock, hc, hd])
      · -- the new block is the only one past the old chain
        have hi := (List.getElem?_eq_some_iff.mp hd).1
        simp only [List.length_singleton] at hi
        obtain rfl : i = chain.length := by omega
        simp only [Nat.sub_self, List.getElem?_cons_zero, Option.some.injEq] at hd
        exact .inr (by rw [hd])
    · exact .inl (by simp [getSingleBlock, hc', hd])

theorem client_spec : client.Spec where
  getSingleBlock_none _ := ⟨_, rfl⟩
  createGenesis {sc _ _} h := by
    simp only [client, createGenesis, Except.ok.injEq, Prod.mk.injEq] at h
    obtain ⟨rfl, rfl⟩ := h
    exact ⟨rfl, createGenesis_adds sc⟩
  storeSkipBlock {sc _ _ _ _ d} ht hs := by
    rw [client_getSingleBlock] at ht
    obtain ⟨k, i, chain, d₀, -, hc, hd₀, rfl⟩ := getSingleBlock_eq_ok ht
    obtain ⟨hi, rfl⟩ := List.getElem?_eq_some_iff.mp hd₀
    change storeSkipBlock sc (mkBlock k i chain[i]) d = _ at hs
    rw [storeSkipBlock_mkBlock hc, Except.ok.injEq, Prod.mk.injEq] at hs
    obtain ⟨rfl, rfl⟩ := hs
    have hlen : chain.length ≠ 0 := by omega
    refine ⟨rfl, by simp only [mkBlock]; exact hlen, storeSkipBlock_adds hc d, ?_, ?_⟩
    · -- the new block links back to the last block of the chain
      refine ⟨mkBlock k (chain.length - 1) chain[chain.length - 1],
        ⟨(k, chain.length - 1), [], by simp only [mkBlock, if_neg hlen], getSingleBlock_some hc (by omega)⟩, ?_⟩
      simp only [mkBlock]
      omega
    · -- and the back links lead down the chain to the target
      have hc₁ : (⟨sc.chains.set k (chain ++ [d])⟩ : Skipchains).chains[k]? = some (chain ++ [d]) := by
        simp [getElem?_set_append hc]
      have hlast : mkBlock k chain.length d = mkBlock k chain.length (chain ++ [d])[chain.length] := by simp
      have hi' : i < (chain ++ [d]).length := by
        rw [List.length_append]
        omega
      have hlow : mkBlock k i chain[i] = mkBlock k i (chain ++ [d])[i] := by rw [List.getElem_append_left hi]
      rw [hlast, hlow]
      exact reflTransGen_mkBlock hc₁ hi.le (by simp)

theorem client_storeLive : client.StoreLive := by
  intro sc tid target d ht
  rw [client_getSingleBlock] at ht
  obtain ⟨k, i, chain, d₀, -, hc, -, rfl⟩ := getSingleBlock_eq_ok ht
  exact ⟨_, _, storeSkipBlock_eq_ok.mpr ⟨chain, hc, rfl, rfl⟩⟩

theorem client_empty : client.Empty ⟨[]⟩ := by
  intro bid b h
  rw [client_getSingleBlock] at h
  obtain ⟨c, i, chain, d, -, hc, -⟩ := getSingleBlock_eq_ok h
  simp at hc

end Skipchains

variable {S ID Sig : Type}

/-- `encoding/json` on `[]decenarch.Webstore`. -/
structure WebstoreJson (Sig : Type) where
  marshal : List (Webstore Sig) → Except String Bytes
  unmarshal : Bytes → Except String (List (Webstore Sig))

/-- Unmarshalling gives back what was marshalled. -/
def WebstoreJson.RoundTrip (json : WebstoreJson Sig) : Prop :=
  ∀ ws b, json.marshal ws = .ok b → json.unmarshal b = .ok ws

/-- A JSON that knows one slice `s`: it marshals `s` to no bytes and fails
on any other slice, and reads no bytes back as `s`. -/
def WebstoreJson.ofSlice [DecidableEq Sig] (s : List (Webstore Sig)) : WebstoreJson Sig :=
  ⟨fun ws => if ws = s then .ok [] else .error "json: unsupported value",
    fun b => if b = [] then .ok s else .error "json: invalid input"⟩

theorem WebstoreJson.ofSlice_roundTrip [DecidableEq Sig] (s : List (Webstore Sig)) :
    (WebstoreJson.ofSlice s).RoundTrip := by
  intro ws b h
  simp only [WebstoreJson.ofSlice] at h ⊢
  split_ifs at h with hws
  · cases h
    simp [hws]

/-- `compress/gzip`: what a writer leaves in the buffer, and `ReadAll` of a
reader on some bytes. -/
structure Gzip where
  compress : Bytes → Except String Bytes
  decompress : Bytes → Except String Bytes

/-- Decompressing gives back what was compressed. -/
def Gzip.RoundTrip (gz : Gzip) : Prop :=
  ∀ b z, gz.compress b = .ok z → gz.decompress z = .ok b

/-- A gzip that stores the bytes as they are. -/
def Gzip.identity : Gzip :=
  ⟨.ok, .ok⟩

theorem Gzip.identity_roundTrip : Gzip.identity.RoundTrip := by
  intro b z h
  cases h
  rfl

section Blocks

variable (svc : SkipchainClient S ID) (json : WebstoreJson Sig) (gz : Gzip)

/-- `webstoreExtractAndConvert`: `json.Marshal(webarray)`. -/
def webstoreExtractAndConvert (webarray : List (Webstore Sig)) : Except String Bytes :=
  json.marshal webarray

/-- `webstoreCompleteFromBytes`: `json.Unmarshal(data, &webs)`. -/
def webstoreCompleteFromBytes (data : Bytes) : Except String (List (Webstore Sig)) :=
  json.unmarshal data

/-- The bytes `SkipAddData` stores: the JSON of the webstores, gzipped. -/
def blockData (data : List (Webstore Sig)) : Except String Bytes := do
  let dataBytes ← webstoreExtractAndConvert json data
  gz.compress dataBytes

/-- The pages `SkipGetData` reads from a block: `gzip.NewReader`,
`ioutil.ReadAll`, then `webstoreCompleteFromBytes`. -/
def blockWebstores (data : Bytes) : Except String (List (Webstore Sig)) := do
  let decompressedData ← gz.decompress data
  webstoreCompleteFromBytes json decompressedData

theorem blockWebstores_blockData (hjson : json.RoundTrip) (hgz : gz.RoundTrip) {ws : List (Webstore Sig)}
    {b : Bytes} (h : blockData json gz ws = .ok b) : blockWebstores json gz b = .ok ws := by
  simp only [blockData, webstoreExtractAndConvert, bind, Except.bind] at h
  split at h
  · cases h
  · rename_i dataBytes hm
    simp only [blockWebstores, webstoreCompleteFromBytes, bind, Except.bind, hgz _ _ h]
    exact hjson _ _ hm

/-- What `SkipAddData` does after its signature loop: the block's bytes,
`GetSingleBlock(genesisID)` and `StoreSkipBlock` after it. -/
def skipStore (st : S) (genesisID : Option ID) (data : List (Webstore Sig)) :
    Except String (S × SkipBlock ID) := do
  let b ← blockData json gz data
  let genesis ← svc.getSingleBlock st genesisID
  svc.storeSkipBlock st genesis b

/-- A store that went through: the block's bytes, the target that
`GetSingleBlock` gave and the block stored after it. -/
theorem skipStore_eq_ok {st st' : S} {genesisID : Option ID} {data : List (Webstore Sig)}
    {b : SkipBlock ID} (h : skipStore svc json gz st genesisID data = .ok (st', b)) :
    ∃ d genesis, blockData json gz data = .ok d ∧ svc.getSingleBlock st genesisID = .ok genesis ∧
      svc.storeSkipBlock st genesis d = .ok (st', b) := by
  simp only [skipStore, bind, Except.bind] at h
  split at h
  · cases h
  rename_i d hd
  split at h
  · cases h
  rename_i genesis hg
  exact ⟨d, genesis, hd, hg, h⟩

end Blocks

/-! ## `SkipGetData` -/

/-- `SkipGetDataResponse`. -/
structure SkipGetDataResponse (Sig : Type) where
  MainPage : Webstore Sig
  AllPages : List (Webstore Sig)

section GetData

variable (svc : SkipchainClient S ID) (json : WebstoreJson Sig) (gz : Gzip) {Time : Type} [LinearOrder Time]
  (parseTime : String → Except String Time)

/-- The loop over the pages of a block: each timestamp is parsed, and the
first page of the URL whose time is not after `tReq` is the answer. -/
def scanPages (realUrl : String) (tReq : Time) : List (Webstore Sig) → Except String (Option (Webstore Sig))
  | [] => .ok none
  | webpage :: webs =>
      match parseTime webpage.Timestamp with
      | .error e => .error e
      | .ok tBlock =>
          if webpage.Url = realUrl ∧ tBlock ≤ tReq then .ok (some webpage)
          else scanPages realUrl tReq webs

/-- The loop of `SkipGetData` from `block`.  `fuel` bounds its turns; a
loop out of fuel is one that would not return. -/
def getDataLoop (st : S) (realUrl : String) (tReq : Time) :
    ℕ → SkipBlock ID → Outcome (Except String (SkipGetDataResponse Sig))
  | 0, _ => .block
  | fuel + 1, block =>
      if block.Index = 0 then .ok (.error "Could not find block in skipcain")
      else
        match blockWebstores json gz block.Data with
        | .error e => .ok (.error e)
        | .ok webs =>
            match scanPages parseTime realUrl tReq webs with
            | .error e => .ok (.error e)
            | .ok (some webpage) => .ok (.ok ⟨webpage, webs⟩)
            | .ok none =>
                match block.BackLinkIDs with
                | [] => .panic
                | back :: _ =>
                    match svc.getSingleBlock st (some back) with
                    | .error e => .ok (.error e)
                    | .ok block' => getDataLoop st realUrl tReq fuel block'

/-- `SkipClient.SkipGetData`, with `fetch` for the URL that `http.Get`
ends at. -/
def skipGetData (fetch : String → Except String String) (fuel : ℕ) (st : S)
    (latestID : Option ID) (url timeString : String) : Outcome (Except String (SkipGetDataResponse Sig)) :=
  match fetch url with
  | .error e => .ok (.error e)
  | .ok realUrl =>
      match parseTime timeString with
      | .error e => .ok (.error e)
      | .ok tReq =>
          match svc.getSingleBlock st latestID with
          | .error _ => .panic
          | .ok block => getDataLoop svc json gz parseTime st realUrl tReq fuel block

/-- With every timestamp parsing, the loop over a block's pages is `find?`. -/
theorem scanPages_eq_find {realUrl : String} {tReq : Time} {tm : Webstore Sig → Time} :
    ∀ {webs : List (Webstore Sig)}, (∀ w ∈ webs, parseTime w.Timestamp = .ok (tm w)) →
      scanPages parseTime realUrl tReq webs = .ok (webs.find? fun w => decide (w.Url = realUrl ∧ tm w ≤ tReq))
  | [], _ => rfl
  | w :: webs, hparse => by
      rw [scanPages, hparse w List.mem_cons_self, List.find?_cons]
      dsimp only
      by_cases hw : w.Url = realUrl ∧ tm w ≤ tReq
      · simp [hw]
      · simp only [hw, if_false, decide_false]
        exact scanPages_eq_find fun w' hw' => hparse w' (List.mem_cons_of_mem w hw')

/-- What the loop over a block's pages answers: a page of the block, of the
URL, whose timestamp parses to a time not after `tReq`. -/
theorem scanPages_eq_some {realUrl : String} {tReq : Time} :
    ∀ {webs : List (Webstore Sig)} {webpage : Webstore Sig},
      scanPages parseTime realUrl tReq webs = .ok (some webpage) →
        webpage ∈ webs ∧ webpage.Url = realUrl ∧ ∃ t, parseTime webpage.Timestamp = .ok t ∧ t ≤ tReq
  | [], _, h => by simp [scanPages] at h
  | w :: webs, webpage, h => by
      simp only [scanPages] at h
      split at h
      · cases h
      · rename_i tBlock hparse
        split_ifs at h with hw
        · cases h
          exact ⟨List.mem_cons_self, hw.1, tBlock, hparse, hw.2⟩
        · obtain ⟨hmem, hurl, ht⟩ := scanPages_eq_some h
          exact ⟨List.mem_cons_of_mem w hmem, hurl, ht⟩

/-- A turn of the loop on a block above a genesis that holds a page of the
URL not after `tReq` answers with it. -/
theorem getDataLoop_of_found {st : S} {realUrl : String} {tReq : Time} {fuel : ℕ} {block : SkipBlock ID}
    {webs : List (Webstore Sig)} {webpage : Webstore Sig} (hidx : block.Index ≠ 0)
    (hwebs : blockWebstores json gz block.Data = .ok webs)
    (hscan : scanPages parseTime realUrl tReq webs = .ok (some webpage)) :
    getDataLoop svc json gz parseTime st realUrl tReq (fuel + 1) block = .ok (.ok ⟨webpage, webs⟩) := by
  simp [getDataLoop, hidx, hwebs, hscan]

/-- **Where the loop finds a page.**  An answer of the loop from `block` is
a page of a block above a genesis that the back links lead to from `block`,
the first page of that block of the URL not after `tReq`, with the pages of
that block. -/
theorem getDataLoop_eq_ok {st : S} {realUrl : String} {tReq : Time} :
    ∀ {fuel : ℕ} {block : SkipBlock ID} {r : SkipGetDataResponse Sig},
      getDataLoop svc json gz parseTime st realUrl tReq fuel block = .ok (.ok r) →
        ∃ b, Relation.ReflTransGen (svc.BackLink st) block b ∧ b.Index ≠ 0 ∧
          blockWebstores json gz b.Data = .ok r.AllPages ∧
          scanPages parseTime realUrl tReq r.AllPages = .ok (some r.MainPage)
  | 0, _, _, h => by cases h
  | fuel + 1, block, r, h => by
      simp only [getDataLoop] at h
      split_ifs at h with h0
      · cases h
      split at h
      · cases h
      rename_i webs hwebs
      split at h
      · cases h
      · cases h
        exact ⟨block, .refl, h0, hwebs, by assumption⟩
      · -- not in this block: the loop goes on from the block the first back link names
        split at h
        · cases h
        rename_i back rest hback
        split at h
        · cases h
        rename_i block' hget
        obtain ⟨b, hrt, hb⟩ := getDataLoop_eq_ok h
        exact ⟨b, .head ⟨back, rest, hback, hget⟩ hrt, hb⟩

/-- **The walk along the back links returns.**  When every block above a
genesis that the back links lead to from `block` links back to a lower
block, the loop from `block`, given more turns than its height, neither
panics nor blocks. -/
theorem getDataLoop_returns {st : S} (realUrl : String) (tReq : Time) :
    ∀ {fuel : ℕ} {block : SkipBlock ID},
      (∀ b, Relation.ReflTransGen (svc.BackLink st) block b → b.Index ≠ 0 →
        ∃ b', svc.BackLink st b b' ∧ b'.Index < b.Index) → block.Index < fuel →
      ∃ x, getDataLoop svc json gz parseTime st realUrl tReq fuel block = .ok x
  | 0, _, _, hfuel => absurd hfuel (Nat.not_lt_zero _)
  | fuel + 1, block, hlinks, hfuel => by
      by_cases h0 : block.Index = 0
      · simp only [getDataLoop, h0, if_true]
        exact ⟨_, rfl⟩
      -- the block below is lower, so the loop from it has turns enough
      obtain ⟨b', ⟨back, rest, hback, hget⟩, hlt⟩ := hlinks block .refl h0
      obtain ⟨x, hx⟩ := getDataLoop_returns realUrl tReq
        (fun b hb => hlinks b (.head ⟨back, rest, hback, hget⟩ hb)) (by omega : b'.Index < fuel)
      simp only [getDataLoop, h0, if_false]
      split
      · exact ⟨_, rfl⟩
      split
      · exact ⟨_, rfl⟩
      · exact ⟨_, rfl⟩
      · simp only [hback, hget]
        exact ⟨x, hx⟩

/-- A `SkipGetData` that found a page read the URL, the time and the latest
block, and the walk from that block found it. -/
theorem skipGetData_eq_ok_loop {fetch : String → Except String String} {fuel : ℕ} {st : S}
    {latestID : Option ID} {url timeString : String} {r : SkipGetDataResponse Sig}
    (h : skipGetData svc json gz parseTime fetch fuel st latestID url timeString = .ok (.ok r)) :
    ∃ realUrl tReq block, fetch url = .ok realUrl ∧ parseTime timeString = .ok tReq ∧
      svc.getSingleBlock st latestID = .ok block ∧
      getDataLoop svc json gz parseTime st realUrl tReq fuel block = .ok (.ok r) := by
  simp only [skipGetData] at h
  split at h
  · cases h
  rename_i realUrl hfetch
  split at h
  · cases h
  rename_i tReq hparse
  split at h
  · cases h
  rename_i block hblock
  exact ⟨realUrl, tReq, block, hfetch, hparse, hblock, h⟩

/-- From a block whose back links lead only to blocks that link back to a
lower one, `SkipGetData`, given more turns than the block's height, neither
panics nor blocks. -/
theorem skipGetData_returns (fetch : String → Except String String) {st : S} {latestID : Option ID}
    {block : SkipBlock ID} (hb : svc.getSingleBlock st latestID = .ok block)
    (hlinks : ∀ b, Relation.ReflTransGen (svc.BackLink st) block b → b.Index ≠ 0 →
      ∃ b', svc.BackLink st b b' ∧ b'.Index < b.Index)
    {fuel : ℕ} (hfuel : block.Index < fuel) (url timeString : String) :
    ∃ x, skipGetData svc json gz parseTime fetch fuel st latestID url timeString = .ok x := by
  simp only [skipGetData]
  split
  · exact ⟨_, rfl⟩
  split
  · exact ⟨_, rfl⟩
  rw [hb]
  exact getDataLoop_returns svc json gz parseTime _ _ hlinks hfuel

/-- When `GetSingleBlock` of the latest ID fails, `SkipGetData` reads `Index`
of the `nil` block it returned, once the URL and the time are read. -/
theorem skipGetData_of_getSingleBlock_error {fetch : String → Except String String} {st : S}
    {latestID : Option ID} {e : String} (he : svc.getSingleBlock st latestID = .error e) {url timeString realUrl : String}
    {tReq : Time} (hfetch : fetch url = .ok realUrl) (hreq : parseTime timeString = .ok tReq) (fuel : ℕ) :
    skipGetData svc json gz parseTime fetch fuel st latestID url timeString = .panic := by
  simp [skipGetData, hfetch, hreq, he]

end GetData

/-! ## `Service.Retrieve` -/

/-- `decenarch.RetrieveResponse`. -/
structure RetrieveResponse (Sig : Type) where
  Main : Webstore Sig
  Adds : List (Webstore Sig)

section Retrieve

variable (b64 : Base64) (verify : Bytes → Sig → Option String)

/-- The inner loop of `Retrieve` for one URL of `AddsUrl`: a page of that
URL whose page decodes has its signature checked, which dereferences `Sig`,
and is kept when the check passes. -/
def retrieveAddsFor (addUrl : String) : List (Webstore Sig) → Outcome (List (Webstore Sig))
  | [] => .ok []
  | addPage :: pages =>
      if addUrl = addPage.Url then
        match b64.decode addPage.Page with
        | .error _ => retrieveAddsFor addUrl pages
        | .ok baPage =>
            match addPage.Sig with
            | none => .panic
            | some sig =>
                match verify baPage sig with
                | some _ => retrieveAddsFor addUrl pages
                | none => (retrieveAddsFor addUrl pages).map (addPage :: ·)
      else retrieveAddsFor addUrl pages

/-- The two loops of `Retrieve` over `AddsUrl` and `AllPages`. -/
def retrieveAdds (addsUrl : List String) (allPages : List (Webstore Sig)) : Outcome (List (Webstore Sig)) :=
  (Outcome.traverseList (fun addUrl => retrieveAddsFor b64 verify addUrl allPages) addsUrl).map List.flatten

/-- The part of `Retrieve` after `SkipGetData` found `resp`: the check of the
main page's signature, which dereferences `Sig`, then its additional pages. -/
def retrieveFound (resp : SkipGetDataResponse Sig) : Outcome (Except String (RetrieveResponse Sig)) :=
  match b64.decode resp.MainPage.Page with
  | .error e => .ok (.error e)
  | .ok bPage =>
      match resp.MainPage.Sig with
      | none => .panic
      | some sig =>
          match verify bPage sig with
          | some e => .ok (.error e)
          | none => (retrieveAdds b64 verify resp.MainPage.AddsUrl resp.AllPages).map
              fun adds => .ok ⟨resp.MainPage, adds⟩

variable (svc : SkipchainClient S ID) (json : WebstoreJson Sig) (gz : Gzip) {Time : Type} [LinearOrder Time]
  (parseTime : String → Except String Time) (fetch : String → Except String String)

/-- `Service.Retrieve` at a conode whose `LatestID` is `latestID`: the page
`SkipGetData` finds, the check of its signature, then its additional pages. -/
def retrieve (fuel : ℕ) (st : S) (latestID : Option ID) (url timestamp : String) :
    Outcome (Except String (RetrieveResponse Sig)) :=
  skipGetData svc json gz parseTime fetch fuel st latestID url timestamp >>= fun
    | .error e => .ok (.error e)
    | .ok resp => retrieveFound b64 verify resp

/-- What the inner loop keeps: pages of `AllPages` of that URL that verify. -/
theorem retrieveAddsFor_eq_ok {addUrl : String} :
    ∀ {pages adds : List (Webstore Sig)}, retrieveAddsFor b64 verify addUrl pages = .ok adds →
      ∀ a ∈ adds, a ∈ pages ∧ a.Url = addUrl ∧ a.verified b64 verify = true
  | [], adds, h => by
      cases h
      simp
  | p :: pages, adds, h => by
      simp only [retrieveAddsFor] at h
      split_ifs at h with hurl
      · split at h
        · exact fun a ha => (retrieveAddsFor_eq_ok h a ha).imp_left (List.mem_cons_of_mem p)
        · rename_i baPage hdec
          split at h
          · cases h
          · rename_i sig hsig
            split at h
            · exact fun a ha => (retrieveAddsFor_eq_ok h a ha).imp_left (List.mem_cons_of_mem p)
            · rename_i hv
              -- the page verifies and is kept before what the rest of the loop keeps
              obtain ⟨rest, hr, rfl⟩ := Outcome.map_eq_ok.mp h
              intro a ha
              rcases List.mem_cons.mp ha with rfl | ha
              · exact ⟨List.mem_cons_self, hurl.symm,
                  (Webstore.verified_iff b64 verify).mpr ⟨baPage, sig, hdec, hsig, hv⟩⟩
              · exact (retrieveAddsFor_eq_ok hr a ha).imp_left (List.mem_cons_of_mem p)
      · exact fun a ha => (retrieveAddsFor_eq_ok h a ha).imp_left (List.mem_cons_of_mem p)

/-- With a signature on every page of that URL, the inner loop is the
filter of the pages of the URL that verify. -/
theorem retrieveAddsFor_eq_filter {addUrl : String} :
    ∀ {pages : List (Webstore Sig)}, (∀ p ∈ pages, p.Url = addUrl → p.Sig.isSome) →
      retrieveAddsFor b64 verify addUrl pages =
        .ok (pages.filter fun p => decide (p.Url = addUrl) && p.verified b64 verify)
  | [], _ => rfl
  | p :: pages, hsig => by
      have hrest : retrieveAddsFor b64 verify addUrl pages =
          .ok (pages.filter fun p => decide (p.Url = addUrl) && p.verified b64 verify) :=
        retrieveAddsFor_eq_filter fun p' hp' => hsig p' (List.mem_cons_of_mem p hp')
      rw [retrieveAddsFor, List.filter_cons]
      by_cases hurl : addUrl = p.Url
      · obtain ⟨sig, hs⟩ := Option.isSome_iff_exists.mp (hsig p List.mem_cons_self hurl.symm)
        have hpurl : decide (p.Url = addUrl) = true := decide_eq_true hurl.symm
        rw [if_pos hurl, hpurl, Bool.true_and]
        cases hdec : b64.decode p.Page with
        | error e =>
            have hver : p.verified b64 verify = false := by simp [Webstore.verified, hdec]
            simpa [hver] using hrest
        | ok baPage =>
            have hver : p.verified b64 verify = (verify baPage sig).isNone := by
              simp [Webstore.verified, hdec, hs]
            simp only [hs, hver]
            cases verify baPage sig with
            | some e => simpa using hrest
            | none => simp [hrest]
      · have hpurl : decide (p.Url = addUrl) = false := decide_eq_false (Ne.symm hurl)
        rw [if_neg hurl, hpurl, Bool.false_and]
        exact hrest

/-- What the two loops keep: pages of `allPages` of a listed URL that verify. -/
theorem retrieveAdds_eq_ok_mem {addsUrl : List String} {allPages adds : List (Webstore Sig)}
    (h : retrieveAdds b64 verify addsUrl allPages = .ok adds) :
    ∀ a ∈ adds, a ∈ allPages ∧ a.Url ∈ addsUrl ∧ a.verified b64 verify = true := by
  obtain ⟨lists, hlists, rfl⟩ := Outcome.map_eq_ok.mp h
  intro a ha
  -- an additional page comes from the loop of one URL of `addsUrl`
  obtain ⟨l, hl, hal⟩ := List.mem_flatten.mp ha
  obtain ⟨addUrl, hadd, hfor⟩ := Outcome.exists_of_traverseList_eq_ok hlists l hl
  obtain ⟨hpage, haurl, hav⟩ := retrieveAddsFor_eq_ok b64 verify hfor a hal
  exact ⟨hpage, haurl ▸ hadd, hav⟩

/-- With a signature on every page, the two loops keep, URL after URL, the
pages of that URL that verify. -/
theorem retrieveAdds_eq_filter {addsUrl : List String} {allPages : List (Webstore Sig)}
    (hsig : ∀ p ∈ allPages, p.Sig.isSome) :
    retrieveAdds b64 verify addsUrl allPages =
      .ok (addsUrl.map fun u => allPages.filter fun p => decide (p.Url = u) && p.verified b64 verify).flatten := by
  rw [retrieveAdds, Outcome.traverseList_of_ok _ _ addsUrl fun u _ =>
    retrieveAddsFor_eq_filter b64 verify fun p hp _ => hsig p hp]
  rfl

/-- A response of the part after the search: the main page that was found,
whose signature verifies, and what the two loops returned. -/
theorem retrieveFound_eq_ok {resp : SkipGetDataResponse Sig} {r : RetrieveResponse Sig}
    (h : retrieveFound b64 verify resp = .ok (.ok r)) :
    r.Main = resp.MainPage ∧ r.Main.verified b64 verify = true ∧
      retrieveAdds b64 verify resp.MainPage.AddsUrl resp.AllPages = .ok r.Adds := by
  simp only [retrieveFound] at h
  split at h
  · cases h
  rename_i bPage hdec
  split at h
  · cases h
  rename_i sig hsig
  split at h
  · cases h
  rename_i hv
  obtain ⟨adds, hadds, hresp⟩ := Outcome.map_eq_ok.mp h
  cases hresp
  exact ⟨rfl, (Webstore.verified_iff b64 verify).mpr ⟨bPage, sig, hdec, hsig, hv⟩, hadds⟩

/-- With a signature on every page of the block, the part after the search
neither panics nor blocks. -/
theorem retrieveFound_returns {resp : SkipGetDataResponse Sig} (hsig : ∀ p ∈ resp.AllPages, p.Sig.isSome)
    (hmain : resp.MainPage ∈ resp.AllPages) : ∃ r, retrieveFound b64 verify resp = .ok r := by
  obtain ⟨sig, hs⟩ := Option.isSome_iff_exists.mp (hsig _ hmain)
  simp only [retrieveFound, hs]
  split
  · exact ⟨_, rfl⟩
  split
  · exact ⟨_, rfl⟩
  · rw [retrieveAdds_eq_filter b64 verify hsig]
    exact ⟨_, rfl⟩

/-- With every page of the block verified, the part after the search
answers with the main page and, URL after URL, the pages of that URL. -/
theorem retrieveFound_of_verified {resp : SkipGetDataResponse Sig}
    (hall : ∀ p ∈ resp.AllPages, p.verified b64 verify = true) (hmain : resp.MainPage ∈ resp.AllPages) :
    retrieveFound b64 verify resp =
      .ok (.ok ⟨resp.MainPage,
        (resp.MainPage.AddsUrl.map fun u => resp.AllPages.filter fun p => decide (p.Url = u)).flatten⟩) := by
  obtain ⟨bPage, sig, hdec, hsig, hv⟩ := (Webstore.verified_iff b64 verify).mp (hall _ hmain)
  have hadds : retrieveAdds b64 verify resp.MainPage.AddsUrl resp.AllPages = _ :=
    retrieveAdds_eq_filter b64 verify fun p hp => Webstore.isSome_sig_of_verified b64 verify (hall p hp)
  -- every page verifies, so the loops keep the pages of each URL
  have hfilter : ∀ u : String, (resp.AllPages.filter fun p => decide (p.Url = u) && p.verified b64 verify) =
      resp.AllPages.filter fun p => decide (p.Url = u) :=
    fun u => List.filter_congr fun p hp => by rw [hall p hp, Bool.and_true]
  simp only [retrieveFound, hdec, hsig, hv, hadds, hfilter, Outcome.map_ok]

/-- **What `Retrieve` returns.**  Whatever the skipchain holds and whatever
the request, a response of `Retrieve` holds a main page of the URL that
`http.Get` ends at, stored with a time not after the requested one, whose
signature verifies; it is a page of a block above a genesis that the back
links lead to from the latest block, and the additional pages are pages of
that same block, each of a URL that the main page lists and each with a
signature that verifies. -/
theorem retrieve_eq_ok {fuel : ℕ} {st : S} {latestID : Option ID} {url timestamp : String}
    {resp : RetrieveResponse Sig}
    (h : retrieve b64 verify svc json gz parseTime fetch fuel st latestID url timestamp = .ok (.ok resp)) :
    ∃ (realUrl : String) (tReq : Time) (latest block : SkipBlock ID) (allPages : List (Webstore Sig)),
      fetch url = .ok realUrl ∧ parseTime timestamp = .ok tReq ∧
      svc.getSingleBlock st latestID = .ok latest ∧ Relation.ReflTransGen (svc.BackLink st) latest block ∧
      block.Index ≠ 0 ∧ blockWebstores json gz block.Data = .ok allPages ∧
      resp.Main ∈ allPages ∧ resp.Main.Url = realUrl ∧
      (∃ t, parseTime resp.Main.Timestamp = .ok t ∧ t ≤ tReq) ∧ resp.Main.verified b64 verify = true ∧
      ∀ a ∈ resp.Adds, a ∈ allPages ∧ a.Url ∈ resp.Main.AddsUrl ∧ a.verified b64 verify = true := by
  obtain ⟨r, hget, hrest⟩ := Outcome.bind_eq_ok.mp h
  cases r with
  | error e => cases hrest
  | ok found =>
      obtain ⟨realUrl, tReq, latest, hfetch, hparse, hlatest, hloop⟩ := skipGetData_eq_ok_loop svc json gz parseTime hget
      obtain ⟨block, hrt, h0, hwebs, hscan⟩ := getDataLoop_eq_ok svc json gz parseTime hloop
      obtain ⟨hmem, hurl, htime⟩ := scanPages_eq_some parseTime hscan
      obtain ⟨hmain, hver, hadds⟩ := retrieveFound_eq_ok b64 verify hrest
      rw [hmain]
      rw [hmain] at hver
      exact ⟨realUrl, tReq, latest, block, found.AllPages, hfetch, hparse, hlatest, hrt, h0, hwebs, hmem, hurl, htime,
        hver, retrieveAdds_eq_ok_mem b64 verify hadds⟩

/-- A page of `u`, signed. -/
def sampleRetrievePage : Webstore Unit :=
  ⟨"u", "text/html", some (), "", [], "t"⟩

/-- A chain whose block above the genesis holds `sampleRetrievePage`: the
response holds it, with no additional page. -/
theorem retrieve_eq_ok_sample :
    retrieve ⟨fun _ => "", fun _ => .ok []⟩ (fun _ _ => none) Skipchains.client
        (WebstoreJson.ofSlice [sampleRetrievePage]) Gzip.identity (fun _ => .ok (0 : ℕ)) Except.ok 1 ⟨[[[], []]]⟩
        (some (0, 1)) "u" "t" = .ok (.ok ⟨sampleRetrievePage, []⟩) ∧
    ∃ (realUrl : String) (tReq : ℕ) (latest block : SkipBlock (ℕ × ℕ)) (allPages : List (Webstore Unit)),
      (.ok "u" : Except String String) = .ok realUrl ∧ (.ok 0 : Except String ℕ) = .ok tReq ∧
      Skipchains.client.getSingleBlock ⟨[[[], []]]⟩ (some (0, 1)) = .ok latest ∧
      Relation.ReflTransGen (Skipchains.client.BackLink ⟨[[[], []]]⟩) latest block ∧
      block.Index ≠ 0 ∧ blockWebstores (WebstoreJson.ofSlice [sampleRetrievePage]) Gzip.identity block.Data =
        .ok allPages ∧
      sampleRetrievePage ∈ allPages ∧ sampleRetrievePage.Url = realUrl ∧
      (∃ t, (.ok 0 : Except String ℕ) = .ok t ∧ t ≤ tReq) ∧
      sampleRetrievePage.verified ⟨fun _ => "", fun _ => .ok []⟩ (fun _ _ => none) = true ∧
      ∀ a ∈ ([] : List (Webstore Unit)), a ∈ allPages ∧ a.Url ∈ sampleRetrievePage.AddsUrl ∧
        a.verified ⟨fun _ => "", fun _ => .ok []⟩ (fun _ _ => none) = true := by
  have h : retrieve ⟨fun _ => "", fun _ => .ok []⟩ (fun _ _ => none) Skipchains.client
      (WebstoreJson.ofSlice [sampleRetrievePage]) Gzip.identity (fun _ => .ok (0 : ℕ)) Except.ok 1 ⟨[[[], []]]⟩
      (some (0, 1)) "u" "t" = .ok (.ok ⟨sampleRetrievePage, []⟩) := rfl
  exact ⟨h, retrieve_eq_ok _ _ _ _ _ _ _ h⟩

end Retrieve

end Decenarch
