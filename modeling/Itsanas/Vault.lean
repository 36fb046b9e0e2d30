/-
# The chains a vault holds

`itsanas-store/src/vault.rs`, as far as device chains go: a vault keeps the segments
that peers hand it, chain by chain, and serves them again a page at a time. A segment
is taken only if it is signed and continues the chain it belongs to, so the rows of a
chain are numbered without gaps and the recorded head is the last of them (`Vault.Ok`).
-/
import Itsanas.Oplog

namespace Itsanas

variable {K : Crypto}

/-- Largest number of segments a single request may ask for. -/
def maxSegmentsPerRequest : ℕ := 256

/-- The tables of a vault that hold chains: the segments by owner, device and position,
and for every chain its length and the id of its last segment. -/
structure Vault (K : Crypto) where
  segments : Table (UserId ×ₗ DeviceId ×ₗ ℕ) (SegmentEnvelope K)
  chainLengths : Table (UserId ×ₗ DeviceId) ℕ
  heads : Table (UserId ×ₗ DeviceId) ObjectId

namespace Vault

def new : Vault K := ⟨∅, ∅, ∅⟩

def chainKey (owner : UserId) (device : DeviceId) : UserId ×ₗ DeviceId := toLex (owner, device)

def segmentKey (owner : UserId) (device : DeviceId) (position : ℕ) : UserId ×ₗ DeviceId ×ₗ ℕ :=
  toLex (owner, toLex (device, position))

/-- Put a segment at the end of its chain. -/
def appended (v : Vault K) (envelope : SegmentEnvelope K) : Vault K :=
  let key := chainKey envelope.owner envelope.device
  let length := (v.chainLengths[key]?).getD 0
  { segments := v.segments.insert (segmentKey envelope.owner envelope.device length) envelope
    chainLengths := v.chainLengths.insert key (length + 1)
    heads := v.heads.insert key envelope.segmentId }

/-- Accept a segment for storage, after verifying its signature. Says whether it was
newly stored. -/
def putSegment (v : Vault K) (envelope : SegmentEnvelope K) : Vault K × Except StoreError Bool :=
  match envelope.verifySignature with
  | .error error => (v, .error error)
  | .ok () =>
    let head := v.heads[chainKey envelope.owner envelope.device]?
    -- re-offering the tip is normal
    if head = some envelope.segmentId then (v, .ok false)
    else if envelope.previous = head then (v.appended envelope, .ok true)
    else
      (v, .error (.segmentChainBroken (short envelope.segmentId) (head.elim "none".toList short)
        (envelope.previous.elim "none".toList short)))

/-- The keys of one chain's rows. -/
def ofChain (owner : UserId) (device : DeviceId) (key : UserId ×ₗ DeviceId ×ₗ ℕ) : Bool :=
  (ofLex key).1 = owner ∧ (ofLex (ofLex key).2).1 = device

/-- The rows of one chain, oldest first. -/
def chain (v : Vault K) (owner : UserId) (device : DeviceId) : List (SegmentEnvelope K) :=
  (v.segments.toList.filter fun r => ofChain owner device r.1).map Prod.snd

/-- Collect a page from the rows of a chain: skip up to the segment `after`, then take
rows until there are `limit`. Says whether it was still skipping at the end. -/
def page (after : Option ObjectId) (limit : ℕ) :
    Bool → List (SegmentEnvelope K) → List (SegmentEnvelope K) → Bool × List (SegmentEnvelope K)
  | skipping, out, [] => (skipping, out)
  | true, out, envelope :: rest =>
    if some envelope.segmentId = after then page after limit false out rest
    else page after limit true out rest
  | false, out, envelope :: rest =>
    if limit ≤ (out ++ [envelope]).length then (false, out ++ [envelope])
    else page after limit false (out ++ [envelope]) rest

/-- Segments held for one device's chain, oldest first. -/
def segmentsFor (v : Vault K) (owner : UserId) (device : DeviceId) (after : Option ObjectId)
    (limit : ℕ) : List (SegmentEnvelope K) :=
  match page after limit after.isSome [] (v.chain owner device) with
  -- `after` is not a segment of this chain: nothing, rather than everything
  | (true, _) => []
  | (false, out) => out

/-- Chain tips held for one owner: device, id of the last segment, length. -/
def headsFor (v : Vault K) (owner : UserId) : List (DeviceId × ObjectId × ℕ) :=
  v.heads.toList.filterMap fun r =>
    if (ofLex r.1).1 = owner then some ((ofLex r.1).2, r.2, (v.chainLengths[r.1]?).getD 0) else none

/-! ### Pages -/

/-- Without a segment to resume after, a page is the beginning of what there is. -/
theorem page_false (after : Option ObjectId) {limit : ℕ} : ∀ (rows out : List (SegmentEnvelope K)),
    out.length < limit → page after limit false out rows =
      (false, out ++ rows.take (limit - out.length))
  | [], out, _ => by simp [page]
  | envelope :: rest, out, h => by
    rw [page]
    by_cases hl : limit ≤ (out ++ [envelope]).length
    · have hone : limit - out.length = 1 := by
        rw [List.length_append, List.length_singleton] at hl
        omega
      rw [if_pos hl, hone]
      rfl
    · have hrest := page_false after rest (out ++ [envelope]) (not_le.mp hl)
      rw [if_neg hl, hrest, List.append_assoc]
      rw [List.length_append, List.length_singleton] at hl
      have hmore : limit - out.length = limit - (out ++ [envelope]).length + 1 := by
        rw [List.length_append, List.length_singleton]
        omega
      rw [hmore, List.take_succ_cons]
      rfl

/-! ### Chains -/

/-- What holds of every vault: the rows of a chain are its own, numbered from 0, and the
chain's length and head are recorded. -/
structure Ok (v : Vault K) : Prop where
  positions : ∀ owner device position, (v.segments[segmentKey owner device position]?).isSome →
    position < (v.chain owner device).length
  lengths : ∀ owner device, (v.chainLengths[chainKey owner device]?).getD 0 =
    (v.chain owner device).length
  tips : ∀ owner device, v.heads[chainKey owner device]? =
    (v.chain owner device).getLast?.map SegmentEnvelope.segmentId
  own : ∀ owner device, ∀ e ∈ v.chain owner device, e.owner = owner ∧ e.device = device

theorem new_ok : (new : Vault K).Ok where
  positions := by simp [new]
  lengths := by intro _ _; rfl
  tips := by intro _ _; rfl
  own := by
    intro _ _ e he
    exact absurd he List.not_mem_nil

theorem chainKey_inj {owner owner' : UserId} {device device' : DeviceId} :
    chainKey owner device = chainKey owner' device' ↔ owner = owner' ∧ device = device' := by
  simp [chainKey]

theorem segmentKey_inj {owner owner' : UserId} {device device' : DeviceId} {i j : ℕ} :
    segmentKey owner device i = segmentKey owner' device' j ↔
      owner = owner' ∧ device = device' ∧ i = j := by
  simp [segmentKey]

theorem ofChain_segmentKey (owner owner' : UserId) (device device' : DeviceId) (i : ℕ) :
    ofChain owner device (segmentKey owner' device' i) = decide (owner' = owner ∧ device' = device) :=
  rfl

variable {owner : UserId} {device : DeviceId}

theorem eq_segmentKey {key : UserId ×ₗ DeviceId ×ₗ ℕ} (h : ofChain owner device key = true) :
    key = segmentKey owner device (ofLex (ofLex key).2).2 := by
  obtain ⟨h1, h2⟩ := of_decide_eq_true h
  subst h1 h2
  rfl

theorem compare_segmentKey {i j : ℕ} (h : i < j) :
    compare (segmentKey owner device i) (segmentKey owner device j) = .lt := by
  simp only [segmentKey, Prod.Lex.compare_def, compareLex, compareOn, ofLex_toLex, Std.compare_self,
    Ordering.eq_then, Nat.compare_eq_lt]
  exact h

section
variable {v : Vault K}

/-- A segment put at the end of its chain is its last row. -/
theorem Ok.chain_appended (h : v.Ok) (e : SegmentEnvelope K) :
    (v.appended e).chain e.owner e.device = v.chain e.owner e.device ++ [e] := by
  have hlast : ∀ r ∈ v.segments.toList, ofChain e.owner e.device r.1 = true →
      compare r.1 (segmentKey e.owner e.device
        ((v.chainLengths[chainKey e.owner e.device]?).getD 0)) = .lt := by
    intro r hr hof
    have hkey := eq_segmentKey hof
    rw [Table.mem_toList, hkey] at hr
    rw [hkey, h.lengths]
    exact compare_segmentKey (h.positions _ _ _ (by rw [hr]; rfl))
  unfold chain appended
  dsimp only
  rw [Table.filter_insert_last (p := ofChain e.owner e.device) (by simp [ofChain_segmentKey]) hlast,
    List.map_append]
  rfl

/-- The other chains stay as they are. -/
theorem chain_appended_ne (v : Vault K) {e : SegmentEnvelope K}
    (hne : ¬(e.owner = owner ∧ e.device = device)) :
    (v.appended e).chain owner device = v.chain owner device := by
  unfold chain appended
  dsimp only
  rw [Table.filter_insert_of_neg (p := ofChain owner device) _
    (by rw [ofChain_segmentKey]; simpa using hne)]

theorem Ok.appended (h : v.Ok) (e : SegmentEnvelope K) : (v.appended e).Ok := by
  have hcases : ∀ owner device, (e.owner = owner ∧ e.device = device ∧
      (v.appended e).chain owner device = v.chain owner device ++ [e]) ∨
      (¬(e.owner = owner ∧ e.device = device) ∧
        (v.appended e).chain owner device = v.chain owner device) := by
    intro owner device
    by_cases hk : e.owner = owner ∧ e.device = device
    · obtain ⟨rfl, rfl⟩ := hk
      exact Or.inl ⟨rfl, rfl, h.chain_appended e⟩
    · exact Or.inr ⟨hk, v.chain_appended_ne hk⟩
  refine ⟨fun owner device position hsome => ?_, fun owner device => ?_, fun owner device => ?_,
    fun owner device x hx => ?_⟩
  · rcases hcases owner device with ⟨rfl, rfl, hc⟩ | ⟨hne, hc⟩
    · rw [hc, List.length_append, List.length_singleton]
      unfold Vault.appended at hsome
      dsimp only at hsome
      rw [Table.getElem?_insert', h.lengths] at hsome
      split_ifs at hsome with heq
      · have := (segmentKey_inj.mp heq).2.2
        omega
      · have := h.positions _ _ _ hsome
        omega
    · rw [hc]
      unfold Vault.appended at hsome
      dsimp only at hsome
      rw [Table.getElem?_insert_ne _ _ fun heq => hne ⟨(segmentKey_inj.mp heq).1,
        (segmentKey_inj.mp heq).2.1⟩] at hsome
      exact h.positions _ _ _ hsome
  · rcases hcases owner device with ⟨rfl, rfl, hc⟩ | ⟨hne, hc⟩
    · rw [hc, List.length_append, ← h.lengths]
      exact congrArg (Option.getD · 0) (Table.getElem?_insert_self' _ _ _)
    · rw [hc, ← h.lengths]
      exact congrArg (Option.getD · 0)
        (Table.getElem?_insert_ne _ _ fun heq => hne (chainKey_inj.mp heq))
  · rcases hcases owner device with ⟨rfl, rfl, hc⟩ | ⟨hne, hc⟩
    · rw [hc, List.getLast?_concat]
      exact Table.getElem?_insert_self' _ _ _
    · rw [hc, ← h.tips]
      exact Table.getElem?_insert_ne _ _ fun heq => hne (chainKey_inj.mp heq)
  · rcases hcases owner device with ⟨rfl, rfl, hc⟩ | ⟨hne, hc⟩
    · rw [hc, List.mem_append, List.mem_singleton] at hx
      rcases hx with hx | rfl
      · exact h.own _ _ x hx
      · exact ⟨rfl, rfl⟩
    · rw [hc] at hx
      exact h.own _ _ x hx

end

end Vault

end Itsanas
