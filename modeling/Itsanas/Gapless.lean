/-
# Chains without gaps

`validate_chain` and `SegmentEnvelope::open` of `itsanas-store/src/oplog.rs`, and what they say
together about the operations in a chain. `validate_chain` compares the ranges that the envelopes
declare, each with the one before, and `open` compares a body with the range of its own envelope, at
its two ends. A version vector takes its meaning from the numbers in between.

The number after the largest `u64` is 0 where the program runs (`validateChainWrapping`); below it
the walk is the one of `validateChain` (`validateChainWrapping_eq`). So a chain that is accepted and
opens is numbered without a gap, a repeat or a wrap exactly where each body is and no segment but
the last ends at the largest number (`Accepted.consecutive_iff`). Nothing that is checked says
either (`accepted_with_gaps`).
-/
import Itsanas.Symbolic

namespace Itsanas

variable {K : Crypto}

/-! ### The walk on the machine -/

/-- The next number, as a `u64`. -/
def wrappingSucc (n : ℕ) : ℕ := (n + 1) % 2 ^ 64

/-- Walk the rest of a chain. -/
def validateFromWrapping (expectedPrevious : Option ObjectId) (expectedSequence : Option ℕ) :
    List (SegmentEnvelope K) → Except StoreError Unit
  | [] => .ok ()
  | segment :: rest =>
    match linkError expectedPrevious expectedSequence segment with
    | some error => .error error
    | none => validateFromWrapping (some segment.segmentId)
        (some (wrappingSucc segment.lastSequence)) rest

/-- Walk a device's segment chain and confirm it has no holes. -/
def validateChainWrapping (chain : List (SegmentEnvelope K)) : Except StoreError Unit :=
  validateFromWrapping none none chain

theorem wrappingSucc_eq {n : ℕ} (h : n < u64Max) : wrappingSucc n = n + 1 := by
  rw [u64Max] at h
  exact Nat.mod_eq_of_lt (by omega)

theorem validateFromWrapping_eq :
    ∀ (chain : List (SegmentEnvelope K)) (p : Option ObjectId) (q : Option ℕ),
    (∀ e ∈ chain.dropLast, e.lastSequence < u64Max) →
      validateFromWrapping p q chain = validateFrom p q chain
  | [], _, _, _ => rfl
  | [e], p, q,
      _ => by cases hlink : linkError p q e <;> simp [validateFromWrapping, validateFrom, hlink]
  | e :: e' :: rest, p, q, h => by
    have hlast : wrappingSucc e.lastSequence = e.lastSequence + 1 :=
      wrappingSucc_eq (h e List.mem_cons_self)
    have hrest := validateFromWrapping_eq (e' :: rest) (some e.segmentId) (some (e.lastSequence + 1))
      fun x hx => h x (List.mem_cons_of_mem e hx)
    rw [validateFromWrapping, validateFrom, hlast]
    cases linkError p q e with
    | some error => rfl
    | none => exact hrest

/-- **Below the largest number the walk is the one without a wrap.** -/
theorem validateChainWrapping_eq {chain : List (SegmentEnvelope K)}
    (h : ∀ e ∈ chain.dropLast, e.lastSequence < u64Max) :
    validateChainWrapping chain = validateChain chain :=
  validateFromWrapping_eq _ none none h

/-! ### Accepted chains -/

/-- The sequence numbers of all operations of a chain, in order. -/
def sequences (chain : List (SegmentEnvelope K)) : List ℕ :=
  chain.flatMap fun e => e.body.map LogEntry.sequence

/-- Numbers that go up by one from `first` on. -/
def Consecutive (first : ℕ) (numbers : List ℕ) : Prop := numbers = List.range' first numbers.length

instance Consecutive.decidable (first : ℕ) (numbers : List ℕ) :
    Decidable (Consecutive first numbers) :=
  inferInstanceAs (Decidable (_ = _))

/-- A chain that was accepted, of envelopes whose numbers are `u64`s and whose bodies open. -/
structure Accepted (chain : List (SegmentEnvelope K)) : Prop where
  valid : validateChainWrapping chain = .ok ()
  opens : ∀ e ∈ chain, e.openBody = .ok e.body
  fits : ∀ e ∈ chain, e.firstSequence ≤ u64Max ∧ e.lastSequence ≤ u64Max

variable {e : SegmentEnvelope K}

/-- A body that opens has the numbers of its envelope at its two ends. -/
theorem SegmentEnvelope.ends_of_openBody {entries : List LogEntry}
    (h : e.openBody = .ok entries) : entries.head?.map LogEntry.sequence = some e.firstSequence ∧
      entries.getLast?.map LogEntry.sequence = some e.lastSequence := by
  unfold openBody at h
  split at h
  · cases h
  · split at h
    · cases h
    · split_ifs at h with hends
      obtain rfl := Except.ok.inj h
      rw [not_or, not_not, not_not] at hends
      exact hends

/-- A body that goes up by one ends that many after it starts. -/
theorem lastSequence_eq (hopen : e.openBody = .ok e.body)
    (h : Consecutive e.firstSequence (e.body.map LogEntry.sequence)) :
    e.lastSequence + 1 = e.firstSequence + (e.body.map LogEntry.sequence).length := by
  obtain ⟨-, hlast⟩ := e.ends_of_openBody hopen
  rw [← List.getLast?_map, h, List.getLast?_range'] at hlast
  split_ifs at hlast
  have heq := Option.some.inj hlast
  omega

theorem sequences_cons (e : SegmentEnvelope K) (chain : List (SegmentEnvelope K)) :
    sequences (e :: chain) = e.body.map LogEntry.sequence ++ sequences chain := List.flatMap_cons

/-- The numbers of a chain start with what its first envelope declares. -/
theorem head?_sequences (hopen : e.openBody = .ok e.body)
    (chain : List (SegmentEnvelope K)) : (sequences (e :: chain)).head? = some e.firstSequence := by
  obtain ⟨hfirst, -⟩ := e.ends_of_openBody hopen
  rw [sequences_cons, List.head?_append, List.head?_map, hfirst]
  rfl

theorem consecutive_append {first : ℕ} {xs ys : List ℕ} :
    Consecutive first (xs ++ ys) ↔ Consecutive first xs ∧ Consecutive (first + xs.length) ys := by
  unfold Consecutive
  rw [List.length_append, ← List.range'_append, Nat.one_mul]
  constructor
  · intro h
    exact List.append_inj h (by rw [List.length_range'])
  · rintro ⟨hx, hy⟩
    rw [← hx, ← hy]

theorem firstSequence_of_link {previous : ObjectId} {next : ℕ}
    (h : linkError (some previous) (some next) e = none) : e.firstSequence = next := by
  unfold linkError at h
  split at h
  · cases h
  · dsimp only at h
    split_ifs at h with hprevious hfirst
    exact not_not.mp hfirst

theorem validateFromWrapping_cons {p : Option ObjectId} {q : Option ℕ}
    {rest : List (SegmentEnvelope K)} (h : validateFromWrapping p q (e :: rest) = .ok ()) :
    linkError p q e = none ∧
      validateFromWrapping (some e.segmentId) (some (wrappingSucc e.lastSequence)) rest = .ok () := by
  rw [validateFromWrapping] at h
  cases hlink : linkError p q e with
  | some error =>
    rw [hlink] at h
    cases h
  | none =>
    rw [hlink] at h
    exact ⟨rfl, h⟩

theorem consecutive_iff_of_valid : ∀ (rest : List (SegmentEnvelope K)) (e : SegmentEnvelope K)
    (p : Option ObjectId) (q : Option ℕ), validateFromWrapping p q (e :: rest) = .ok () →
    (∀ x ∈ e :: rest, x.openBody = .ok x.body) →
    (∀ x ∈ e :: rest, x.firstSequence ≤ u64Max ∧ x.lastSequence ≤ u64Max) →
    (Consecutive e.firstSequence (sequences (e :: rest)) ↔
      (∀ x ∈ e :: rest, Consecutive x.firstSequence (x.body.map LogEntry.sequence)) ∧
        ∀ x ∈ (e :: rest).dropLast, x.lastSequence ≠ u64Max)
  | [], e, _, _, _, _, _ => by simp [sequences]
  | e' :: rest, e, p, q, hvalid, hopens, hfits => by
    obtain ⟨-, hvalid'⟩ := validateFromWrapping_cons hvalid
    have hfirst := firstSequence_of_link (validateFromWrapping_cons hvalid').1
    have hopen := hopens e List.mem_cons_self
    have hopen' := hopens e' (by simp)
    have ih := consecutive_iff_of_valid rest e' _ _ hvalid'
      (fun x hx => hopens x (List.mem_cons_of_mem e hx))
      fun x hx => hfits x (List.mem_cons_of_mem e hx)
    -- the numbers go on across the boundary exactly if the next number is not a wrap
    have hjoin : Consecutive e.firstSequence (e.body.map LogEntry.sequence) →
        (Consecutive (e.firstSequence + (e.body.map LogEntry.sequence).length)
          (sequences (e' :: rest)) ↔
          e.lastSequence ≠ u64Max ∧ Consecutive e'.firstSequence (sequences (e' :: rest))) := by
      intro hbody
      rw [← lastSequence_eq hopen hbody]
      constructor
      · intro h
        have hhead := head?_sequences hopen' rest
        rw [h, List.head?_range'] at hhead
        have hstart : e.lastSequence + 1 = e'.firstSequence := by
          split_ifs at hhead
          exact Option.some.inj hhead
        have hle := (hfits e' (by simp)).1
        refine ⟨by omega, ?_⟩
        rw [← hstart]
        exact h
      · rintro ⟨hne, h⟩
        have hlt : e.lastSequence < u64Max := lt_of_le_of_ne (hfits e List.mem_cons_self).2 hne
        rwa [hfirst, wrappingSucc_eq hlt] at h
    rw [sequences_cons, consecutive_append, List.dropLast_cons_cons, List.forall_mem_cons (a := e),
      List.forall_mem_cons (a := e), and_and_and_comm, ← ih]
    constructor
    · rintro ⟨hbody, hrest⟩
      exact ⟨⟨hbody, ((hjoin hbody).mp hrest).1⟩, ((hjoin hbody).mp hrest).2⟩
    · rintro ⟨⟨hbody, hne⟩, hrest⟩
      exact ⟨hbody, (hjoin hbody).mpr ⟨hne, hrest⟩⟩

/-- **An accepted chain has consecutive operations exactly where each of its bodies has and no
segment but the last ends at the largest number.** -/
theorem Accepted.consecutive_iff {chain : List (SegmentEnvelope K)} (h : Accepted chain) :
    (∀ e ∈ chain.head?, Consecutive e.firstSequence (sequences chain)) ↔
      (∀ e ∈ chain, Consecutive e.firstSequence (e.body.map LogEntry.sequence)) ∧
        ∀ e ∈ chain.dropLast, e.lastSequence ≠ u64Max := by
  cases chain with
  | nil => simp
  | cons e rest =>
    have hiff := consecutive_iff_of_valid rest e none none h.valid h.opens h.fits
    simpa using hiff

/-! ### Chains one device may sign -/

/-- A segment of device 5 of account 7 with deletes of these numbers. -/
def sealedAs (id : ObjectId) (previous : Option ObjectId) (first last : ℕ) (numbers : List ℕ) :
    SegmentEnvelope symbolic :=
  let entries := numbers.map fun n => ⟨n, 5, .remove "p".toList (VersionVector.new.observe 5 n)⟩
  ⟨id, 7, 5, first, last, previous, (7, id, entries),
    (5, ⟨id, 7, 5, first, last, previous, (7, id, entries)⟩)⟩

/-- A body with a gap, a repeat and a step back between its two ends. -/
def jumping : List (SegmentEnvelope symbolic) := [sealedAs 1 none 1 3 [1, 9, 9, 3]]

/-- A segment that ends at the largest number, and one that starts at 0. -/
def wrapped : List (SegmentEnvelope symbolic) :=
  [sealedAs 1 none u64Max u64Max [u64Max], sealedAs 2 (some 1) 0 1 [0, 1]]

/-- Two segments as a device makes them. -/
def inTurn :
    List (SegmentEnvelope symbolic) := [sealedAs 1 none 1 2 [1, 2], sealedAs 2 (some 1) 3 3 [3]]

theorem accepted_of_all {chain : List (SegmentEnvelope K)}
    (hvalid : (validateChainWrapping chain).isOk = true)
    (hopens : chain.all (fun e => e.openBody.isOk) = true)
    (hfits : ∀ e ∈ chain, e.firstSequence ≤ u64Max ∧ e.lastSequence ≤ u64Max) : Accepted chain where
  valid := by
    cases h : validateChainWrapping chain with
    | error error => rw [h] at hvalid; cases hvalid
    | ok u => rfl
  opens e he := by
    have hok := List.all_eq_true.mp hopens e he
    cases h : e.openBody with
    | error error => rw [h] at hok; cases hok
    | ok entries => rw [SegmentEnvelope.openBody_eq_body h]
  fits := hfits

/-- Both chains are accepted, and neither is numbered in turn. -/
theorem accepted_with_gaps : Accepted jumping ∧ sequences jumping = [1, 9, 9, 3] ∧
    ¬(∀ e ∈ jumping.head?, Consecutive e.firstSequence (sequences jumping)) ∧
    Accepted wrapped ∧ sequences wrapped = [u64Max, 0, 1] ∧
    ¬∀ e ∈ wrapped.head?, Consecutive e.firstSequence (sequences wrapped) := by
  refine ⟨accepted_of_all ?_ ?_ ?_, ?_, ?_, accepted_of_all ?_ ?_ ?_, ?_, ?_⟩ <;> decide +kernel

theorem consecutive_iff_inTurn : Accepted inTurn ∧
    ((∀ e ∈ inTurn.head?, Consecutive e.firstSequence (sequences inTurn)) ↔
      (∀ e ∈ inTurn, Consecutive e.firstSequence (e.body.map LogEntry.sequence)) ∧
        ∀ e ∈ inTurn.dropLast, e.lastSequence ≠ u64Max) := by
  have h : Accepted inTurn :=
    accepted_of_all (by decide +kernel) (by decide +kernel) (by decide +kernel)
  exact ⟨h, h.consecutive_iff⟩

end Itsanas
