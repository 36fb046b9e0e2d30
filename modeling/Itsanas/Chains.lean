/-
# What a host serves of a chain

A host takes segments from anybody, links them by their ids and serves each chain again page
by page. A device that fetches the chain checks it as a whole (`validateChain`): signatures,
links, and that the ranges of sequence numbers join. The host looks at the signature and the
link only, so a signed segment that links and leaves a gap is taken, and the chain is of no
use to anybody who fetches it; and a segment with an id that is in the chain already sends a
reader that resumes after it around in a circle (`Depot.broken_chain_served`). Where every
segment that links also joins the range and has a new id, what is served is whole
(`Depot.chain_served`).
-/
import Itsanas.Service

namespace Itsanas

variable {K : Crypto} {v : Vault K} {e : SegmentEnvelope K}

namespace Vault

/-! ### Pages -/

/-- A page is the beginning of what is left, and never empty if something is. -/
theorem page_start (after : Option ObjectId) (limit : ℕ) (rows : List (SegmentEnvelope K)) :
    page after limit false [] rows = (false, rows.take (max limit 1)) := by
  rcases Nat.eq_zero_or_pos limit with rfl | hpos
  · cases rows with
    | nil => rfl
    | cons envelope rest => rfl
  · rw [page_false after rows [] hpos, Nat.max_eq_left hpos]
    rfl

/-- Resuming skips what comes before, up to the segment named. -/
theorem page_skip {id : ObjectId} (limit : ℕ) (he : e.segmentId = id)
    (rest : List (SegmentEnvelope K)) : ∀ before : List (SegmentEnvelope K),
    id ∉ before.map SegmentEnvelope.segmentId →
      page (some id) limit true [] (before ++ e :: rest) = page (some id) limit false [] rest
  | [], _ => by
    rw [List.nil_append, page, if_pos (congrArg some he)]
  | x :: before, hnot => by
    have hx : some x.segmentId ≠ some id := fun h =>
      hnot (Option.some.inj h ▸ List.mem_map_of_mem List.mem_cons_self)
    rw [List.cons_append, page, if_neg hx]
    exact page_skip limit he rest before fun h => hnot (List.mem_cons_of_mem _ h)

/-- **The page after what a reader has** is the beginning of the rest. -/
theorem segmentsFor_resume {owner : UserId} {device : DeviceId} (limit : ℕ)
    {before rest : List (SegmentEnvelope K)} (hchain : v.chain owner device = before ++ rest)
    (hids : ((v.chain owner device).map SegmentEnvelope.segmentId).Nodup) :
    v.segmentsFor owner device (before.getLast?.map SegmentEnvelope.segmentId) limit =
      rest.take (max limit 1) := by
  obtain rfl | ⟨start, e, rfl⟩ := List.eq_nil_or_concat before
  · rw [List.nil_append] at hchain
    simp [segmentsFor, hchain, page_start]
  · rw [List.concat_eq_append] at hchain ⊢
    have hnot : e.segmentId ∉ start.map SegmentEnvelope.segmentId := by
      rw [hchain, List.map_append, List.map_append, List.append_assoc] at hids
      intro hmem
      exact (List.nodup_append.mp hids).2.2 _ hmem _ (List.mem_append_left _ List.mem_cons_self) rfl
    rw [List.getLast?_concat, Option.map_some, segmentsFor, hchain, List.append_assoc,
      List.singleton_append, Option.isSome_some, page_skip limit rfl rest start hnot, page_start]

/-- What a reader gets that asks for page after page, each from where the last ended, until
one is empty. -/
def pages (v : Vault K) (owner : UserId) (device : DeviceId) (limit : ℕ) :
    ℕ → Option ObjectId → List (SegmentEnvelope K)
  | 0, _ => []
  | fuel + 1, after =>
    match v.segmentsFor owner device after limit with
    | [] => []
    | e :: rest =>
      (e :: rest) ++ v.pages owner device limit fuel
        ((e :: rest).getLast?.map SegmentEnvelope.segmentId)

/-- **The pages are the chain**, if no id is in it twice. -/
theorem pages_eq_chain {owner : UserId} {device : DeviceId} (limit : ℕ)
    (hids : ((v.chain owner device).map SegmentEnvelope.segmentId).Nodup) {fuel : ℕ}
    (hfuel : (v.chain owner device).length < fuel) :
    v.pages owner device limit fuel none = v.chain owner device := by
  -- from anywhere in the chain, the pages are what is left of it
  have hwalk : ∀ (fuel : ℕ) (before rest : List (SegmentEnvelope K)),
      v.chain owner device = before ++ rest → rest.length < fuel →
        v.pages owner device limit fuel (before.getLast?.map SegmentEnvelope.segmentId) = rest := by
    intro fuel
    induction fuel with
    | zero => exact fun _ _ _ h => absurd h (Nat.not_lt_zero _)
    | succ fuel ih =>
      intro before rest hchain hlength
      have hpage := segmentsFor_resume limit hchain hids
      cases rest with
      | nil => rw [pages, hpage, List.take_nil]
      | cons e rest =>
        obtain ⟨n, hn⟩ : ∃ n, max limit 1 = n + 1 := ⟨max limit 1 - 1, by omega⟩
        rw [hn, List.take_succ_cons] at hpage
        have hsplit : e :: rest = (e :: rest.take n) ++ rest.drop n := by
          rw [List.cons_append, List.take_append_drop]
        have hlast : ((before ++ e :: rest.take n).getLast?).map SegmentEnvelope.segmentId =
            ((e :: rest.take n).getLast?).map SegmentEnvelope.segmentId := by
          rw [List.getLast?_append_of_ne_nil _ (List.cons_ne_nil _ _)]
        have hrest := ih (before ++ e :: rest.take n) (rest.drop n)
          (by rw [List.append_assoc, ← hsplit, hchain])
          (by rw [List.length_drop]; rw [List.length_cons] at hlength; omega)
        rw [pages, hpage]
        dsimp only
        rw [← hlast, hrest, ← hsplit]
  exact hwalk fuel [] _ rfl hfuel

/-! ### Forgetting an owner -/

/-- Without the chains of an owner. -/
def forgotten (v : Vault K) (owner : UserId) : Vault K where
  segments := v.segments.filter fun key _ => (ofLex key).1 ≠ owner
  chainLengths := v.chainLengths.filter fun key _ => (ofLex key).1 ≠ owner
  heads := v.heads.filter fun key _ => (ofLex key).1 ≠ owner

theorem chain_forgotten (v : Vault K) (owner : UserId) (o : UserId) (device : DeviceId) :
    (v.forgotten owner).chain o device = if o = owner then [] else v.chain o device := by
  rw [chain, forgotten]
  dsimp only
  rw [Std.ExtTreeMap.toList_filter, List.filter_filter]
  split_ifs with ho
  · subst ho
    rw [List.map_eq_nil_iff, List.filter_eq_nil_iff]
    intro r _ h
    rw [Bool.and_eq_true, decide_eq_true_eq] at h
    exact h.2 (of_decide_eq_true h.1).1
  · refine congrArg (List.map _) (List.filter_congr fun r _ => ?_)
    by_cases hof : ofChain o device r.1 = true
    · rw [hof, Bool.true_and, decide_eq_true_eq]
      exact (of_decide_eq_true hof).1 ▸ ho
    · rw [Bool.not_eq_true] at hof
      rw [hof, Bool.false_and]

theorem Ok.forgotten (h : v.Ok) (owner : UserId) : (v.forgotten owner).Ok := by
  refine ⟨fun o device position hsome => ?_, fun o device => ?_, fun o device =>
    ?_, fun o device e he => ?_⟩
  · change (Std.ExtTreeMap.filter _ v.segments)[segmentKey o device position]?.isSome at hsome
    rw [Table.getElem?_filter_keys v.segments fun key => (ofLex key).1 ≠ owner] at hsome
    rw [chain_forgotten]
    by_cases ho : o = owner
    · simp [segmentKey, ho] at hsome
    · rw [if_neg ho]
      exact h.positions o device position (by simpa [segmentKey, ho] using hsome)
  · show ((Std.ExtTreeMap.filter _ v.chainLengths)[chainKey o device]?).getD 0 = _
    rw [Table.getElem?_filter_keys v.chainLengths fun key => (ofLex key).1 ≠ owner, chain_forgotten]
    by_cases ho : o = owner
    · simp [chainKey, ho]
    · simpa [chainKey, ho] using h.lengths o device
  · show (Std.ExtTreeMap.filter _ v.heads)[chainKey o device]? = _
    rw [Table.getElem?_filter_keys v.heads fun key => (ofLex key).1 ≠ owner, chain_forgotten]
    by_cases ho : o = owner
    · simp [chainKey, ho]
    · simpa [chainKey, ho] using h.tips o device
  · rw [chain_forgotten] at he
    split_ifs at he
    · exact absurd he List.not_mem_nil
    · exact h.own o device e he

end Vault

namespace Depot

/-! ### What is handed to a host -/

/-- A segment from anybody, or an owner that is gone. -/
inductive ChainOp (K : Crypto)
  | put (envelope : SegmentEnvelope K)
  | forget (owner : UserId)

variable [SealedLength K]

def ChainOp.apply (v : Depot K) : ChainOp K → Depot K
  | .put envelope => (v.putSegment envelope).1
  | .forget owner => v.forgetOwner owner

def chainRun (v : Depot K) (ops : List (ChainOp K)) : Depot K := ops.foldl ChainOp.apply v

/-- A segment that links to the last one held joins its range, and its id is new. -/
def Joins (v : Depot K) : ChainOp K → Prop
  | .put e => ∀ last, (v.chain e.owner e.device).getLast? = some last →
      e.previous = some last.segmentId →
      e.firstSequence = last.lastSequence + 1 ∧
        e.segmentId ∉ (v.chain e.owner e.device).map SegmentEnvelope.segmentId
  | .forget _ => True

def JoinsRun (v : Depot K) : List (ChainOp K) → Prop
  | [] => True
  | op :: rest => v.Joins op ∧ (op.apply v).JoinsRun rest

/-- Every chain is whole and has no id twice. -/
structure ChainsOk (v : Vault K) : Prop where
  ok : v.Ok
  valid : ∀ owner device, validateChain (v.chain owner device) = .ok ()
  ids : ∀ owner device, ((v.chain owner device).map SegmentEnvelope.segmentId).Nodup

omit [SealedLength K] in
theorem ChainsOk.new : ChainsOk (Vault.new : Vault K) :=
  ⟨Vault.new_ok, fun _ _ => rfl, fun _ _ => List.nodup_nil⟩

omit [SealedLength K] in
theorem forgetOwner_toVault (v : Depot K) (owner : UserId) :
    (v.forgetOwner owner).toVault = v.toVault.forgotten owner := by
  have hfold :
      ((v.chunksFor owner).foldl (fun v address => v.removeChunk owner address) v).toVault =
        v.toVault := by
    refine List.foldlRecOn (motive := fun v' : Depot K => v'.toVault = v.toVault) _ _ rfl ?_
    intro v' hv' address _
    rw [removeChunk, (unmark_same _ owner address).chains, ← hv', dropChunk]
    split <;> rfl
  rw [← hfold]
  rfl

omit [SealedLength K] in
theorem chainEnd_concat (xs : List (SegmentEnvelope K)) (e : SegmentEnvelope K) (p : Option ObjectId)
    (q : Option ℕ) : chainEnd p q (xs ++ [e]) = (some e.segmentId, some (e.lastSequence + 1)) := by
  induction xs generalizing p q with
  | nil => rfl
  | cons x xs ih => exact ih _ _

omit [SealedLength K] in
/-- A chain is whole with one more signed segment that links and joins. -/
theorem validateChain_concat {chain : List (SegmentEnvelope K)}
    (hvalid : validateChain chain = .ok ()) (hsigned : e.verifySignature = .ok ())
    (hlink : ∀ last, chain.getLast? = some last →
      e.previous = some last.segmentId ∧ e.firstSequence = last.lastSequence + 1) :
    validateChain (chain ++ [e]) = .ok () := by
  refine (validateChain_append chain [e]).mpr ⟨hvalid, ?_⟩
  have hnone : linkError (chainEnd none none chain).1 (chainEnd none none chain).2 e = none := by
    unfold linkError
    rw [hsigned]
    obtain rfl | ⟨start, last, rfl⟩ := List.eq_nil_or_concat chain
    · rfl
    · rw [List.concat_eq_append] at hlink ⊢
      obtain ⟨hprevious, hfirst⟩ := hlink last List.getLast?_concat
      rw [chainEnd_concat]
      dsimp only
      rw [if_neg (not_not.mpr hprevious), if_neg (not_not.mpr hfirst)]
  rw [validateFrom, hnone]
  rfl

/-- What a host makes of a segment: it keeps its chains, or it carries one on with a signed
segment that links. -/
theorem putSegment_cases (v : Depot K) (e : SegmentEnvelope K) :
    (v.putSegment e).1.toVault = v.toVault ∨
      (v.putSegment e).1.toVault = v.toVault.appended e ∧ e.verifySignature = .ok () ∧
        e.previous = v.heads[Vault.chainKey e.owner e.device]? := by
  rw [putSegment, Vault.putSegment]
  cases hsigned : e.verifySignature with
  | error error => exact .inl rfl
  | ok u =>
    dsimp only
    by_cases htip : v.heads[Vault.chainKey e.owner e.device]? = some e.segmentId
    · rw [if_pos htip]
      exact .inl rfl
    · rw [if_neg htip]
      by_cases hlink : e.previous = v.heads[Vault.chainKey e.owner e.device]?
      · rw [if_pos hlink]
        exact .inr ⟨rfl, rfl, hlink⟩
      · rw [if_neg hlink]
        exact .inl rfl

omit [SealedLength K] in
/-- Every chain with one segment put at the end of its own. -/
theorem ChainsOk.appended (h : ChainsOk v)
    (hvalid : validateChain (v.chain e.owner e.device ++ [e]) = .ok ())
    (hnew : e.segmentId ∉ (v.chain e.owner e.device).map SegmentEnvelope.segmentId) :
    ChainsOk (v.appended e) := by
  refine ⟨h.ok.appended e, fun owner device => ?_, fun owner device => ?_⟩
  · by_cases hk : e.owner = owner ∧ e.device = device
    · obtain ⟨rfl, rfl⟩ := hk
      rw [h.ok.chain_appended]
      exact hvalid
    · rw [v.chain_appended_ne hk]
      exact h.valid owner device
  · by_cases hk : e.owner = owner ∧ e.device = device
    · obtain ⟨rfl, rfl⟩ := hk
      rw [h.ok.chain_appended, List.map_append]
      refine List.nodup_append.mpr ⟨h.ids _ _, List.nodup_singleton _, ?_⟩
      rintro id hid _ hlast rfl
      rw [List.map_singleton, List.mem_singleton] at hlast
      exact hnew (hlast ▸ hid)
    · rw [v.chain_appended_ne hk]
      exact h.ids owner device

/-- **One operation.** -/
theorem ChainsOk.apply {v : Depot K} (h : ChainsOk v.toVault) {op : ChainOp K} (hjoins : v.Joins op) :
    ChainsOk (op.apply v).toVault := by
  cases op with
  | forget owner =>
    rw [ChainOp.apply, forgetOwner_toVault]
    refine ⟨h.ok.forgotten owner, fun o device => ?_, fun o device => ?_⟩
    all_goals
      rw [Vault.chain_forgotten]
      split_ifs
    · rfl
    · exact h.valid o device
    · exact List.nodup_nil
    · exact h.ids o device
  | put e =>
    rw [ChainOp.apply]
    obtain hsame | ⟨happended, hsigned, hprevious⟩ := v.putSegment_cases e
    · rw [hsame]
      exact h
    rw [happended]
    rw [h.ok.tips] at hprevious
    -- the link is to the last segment, so the range joins and the id is new
    have hlast : ∀ last, (v.chain e.owner e.device).getLast? = some last →
        e.previous = some last.segmentId := fun last hl => by rw [hprevious, hl]; rfl
    refine h.appended (validateChain_concat (h.valid _ _) hsigned fun last hl => ?_) ?_
    · exact ⟨hlast last hl, (hjoins last hl (hlast last hl)).1⟩
    · cases hl : (v.chain e.owner e.device).getLast? with
      | none =>
        rw [List.getLast?_eq_none_iff.mp hl]
        exact List.not_mem_nil
      | some last => exact (hjoins last hl (hlast last hl)).2

/-- **What a host serves is whole.** Segments from anybody and owners that go, in any order, as
long as what links also joins with a new id: then the pages of each chain, of any size, are the
chain, and it validates. -/
theorem chain_served {ops : List (ChainOp K)} (hjoins : (new : Depot K).JoinsRun ops)
    (owner : UserId) (device : DeviceId) (limit : ℕ) {fuel : ℕ}
    (hfuel : ((new.chainRun ops).chain owner device).length < fuel) :
    (new.chainRun ops).pages owner device limit fuel none = (new.chainRun ops).chain owner device ∧
      validateChain ((new.chainRun ops).pages owner device limit fuel none) = .ok () := by
  have hrun : ∀ (ops : List (ChainOp K)) (v : Depot K), ChainsOk v.toVault → v.JoinsRun ops →
      ChainsOk (v.chainRun ops).toVault := by
    intro ops
    induction ops with
    | nil => exact fun _ h _ => h
    | cons op rest ih => exact fun v h hj => ih (op.apply v) (h.apply hj.1) hj.2
  have hok := hrun ops new .new hjoins
  have hpages := Vault.pages_eq_chain limit (hok.ids owner device) hfuel
  exact ⟨hpages, hpages ▸ hok.valid owner device⟩

/-- A segment that device 5 of account 7 signs. -/
def signed (id : ObjectId) (first last : ℕ) (previous : Option ObjectId) : SegmentEnvelope symbolic :=
  ⟨id, 7, 5, first, last, previous, (7, id, []), (5, ⟨id, 7, 5, first, last, previous, (7, id, [])⟩)⟩

/-- Two segments, the first once more, and a third. -/
def inOrder : List (ChainOp symbolic) :=
  [.put (signed 1 1 4 none), .put (signed 2 5 5 (some 1)), .put (signed 1 1 4 none),
    .put (signed 3 6 9 (some 2))]

theorem chain_served_in_order :
    ((new.chainRun inOrder).chain 7 5).length = 3 ∧
      (new.chainRun inOrder).pages 7 5 2 4 none = (new.chainRun inOrder).chain 7 5 ∧
      validateChain ((new.chainRun inOrder).pages 7 5 2 4 none) = .ok () := by
  have hlength : ((new.chainRun inOrder).chain 7 5).length = 3 := by decide +kernel
  have hjoins : (new : Depot symbolic).JoinsRun inOrder := by
    refine ⟨fun last hl => ?_, fun last hl _ => ?_, fun last hl hlink => ?_, fun last hl _ =>
      ?_, trivial⟩
    · cases hl
    · obtain rfl : signed 1 1 4 none = last := Option.some.inj hl
      decide +kernel
    · cases hlink
    · obtain rfl : signed 2 5 5 (some 1) = last := Option.some.inj hl
      decide +kernel
  exact ⟨hlength, chain_served hjoins 7 5 2 (hlength ▸ Nat.lt_succ_self 3)⟩

/-- A gap in the sequence numbers; and an id for the second time, which a reader that resumes
after it takes for the first. -/
theorem broken_chain_served :
    (validateChain ((new.chainRun
        [.put (signed 1 1 4 none), .put (signed 2 7 9 (some 1))]).pages 7 5 10 3 none)).isOk = false ∧
      (validateChain ((new.chainRun
        [.put (signed 1 1 4 none), .put (signed 2 5 5 (some 1)), .put (signed 1 6 6 (some 2))]).pages
          7 5 1 4 none)).isOk = false := by
  decide +kernel

end Depot

end Itsanas
