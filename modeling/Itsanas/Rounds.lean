/-
# What a call applies

A call of `applySegments` walks chains, segments and entries, and stops at the
first thing that is wrong. Which entries it comes to depends on the node alone
(its device, its owner, its roster) and on nothing that applying changes, so the
three loops are one walk over a list of tasks computed beforehand
(`applyReplaying_eq_walk`). From that: an invariant of applying one entry is an
invariant of the call (`applyReplaying_invariant`); and a call that reports nothing
found every entry settled and changed nothing (`applySegments_quiet`).
-/
import Itsanas.Merge

namespace Itsanas

open Walk

variable {K : Crypto}

/-! ### The tasks of a call -/

/-- One thing a call comes to. -/
inductive Task
  | entry (device : DeviceId) (owner : UserId) (e : LogEntry)
  | fail (error : SyncError)
  | unrostered

/-- What one segment of `device` comes to. -/
def envelopeTasks (st : Store K) (device : DeviceId) (envelope : SegmentEnvelope K) : List Task :=
  match st.openSegment envelope with
  | .error error => [.fail (.store error)]
  | .ok entries => entries.map (.entry device envelope.owner)

/-- What one chain comes to. -/
def chainTasks (st : Store K) (replay : Replay)
    (r : DeviceId × List (SegmentEnvelope K)) : List Task :=
  if replay = .othersOnly ∧ r.1 = st.device then []
  else if ¬st.mayApplyChainOf r.1 then [.unrostered]
  else
    match validateChain r.2 with
    | .error error => [.fail (.store error)]
    | .ok () => r.2.flatMap (envelopeTasks st r.1)

/-- What a call on these segments comes to, in order. -/
def tasks (st : Store K) (replay : Replay) (segments : List (SegmentEnvelope K)) : List Task :=
  (byDevice segments).toList.flatMap (chainTasks st replay)

def stepTask (source : ChunkSource) (now : ℕ) (a : Applying K) : Task → Applying K × Option SyncError
  | .entry device owner e => stepEntry source now device owner a e
  | .fail error => (a, some error)
  | .unrostered =>
    ({ a with report := { a.report with unrosteredChains := a.report.unrosteredChains + 1 } }, none)

theorem stepTask_sameNode (source : ChunkSource) (now : ℕ) (a : Applying K) (task : Task) :
    SameNode a.store (stepTask source now a task).1.store := by
  cases task with
  | entry device owner e =>
    have h := (applyEntry_merges source now a.store a.calls device e owner).node
    simp only [stepTask, stepEntry]
    rcases hr : applyEntry source now a.store a.calls device e owner with ⟨st, n, error | applied⟩
    all_goals
      rw [hr] at h
      exact h
  | fail error => exact .rfl
  | unrostered => exact .rfl

theorem walk_map_entry (source : ChunkSource) (now : ℕ) (device : DeviceId) (owner : UserId) :
    ∀ (entries : List LogEntry) (a : Applying K),
      walk (stepTask source now) a (entries.map (.entry device owner)) =
        walk (stepEntry source now device owner) a entries
  | [], _ => rfl
  | e :: entries, a => by
    simp only [List.map_cons, walk, stepTask, walk_map_entry source now device owner entries]

variable {st : Store K}

theorem stepEnvelope_eq_walk (source : ChunkSource) (now : ℕ) (device : DeviceId)
    {a : Applying K} (h : SameNode st a.store) (envelope : SegmentEnvelope K) :
    stepEnvelope source now device a envelope =
      walk (stepTask source now) a (envelopeTasks st device envelope) := by
  have hopen : a.store.openSegment envelope = st.openSegment envelope := by
    simp only [Store.openSegment, Store.foreignText, h.owner]
  rw [stepEnvelope, envelopeTasks, hopen]
  cases st.openSegment envelope with
  | error error => exact (walk_singleton (stepTask source now) a (.fail (.store error))).symm
  | ok entries => exact (walk_map_entry source now device envelope.owner entries a).symm

theorem stepChain_eq_walk (source : ChunkSource) (now : ℕ) (replay : Replay)
    {a : Applying K} (h : SameNode st a.store) (r : DeviceId × List (SegmentEnvelope K)) :
    stepChain source now replay a r = walk (stepTask source now) a (chainTasks st replay r) := by
  obtain ⟨device, chain⟩ := r
  have hmay : a.store.mayApplyChainOf device = st.mayApplyChainOf device := by
    simp only [Store.mayApplyChainOf, h.device, h.roster]
  unfold stepChain chainTasks
  simp only [h.device, hmay]
  by_cases hown : replay = .othersOnly ∧ device = st.device
  · rw [if_pos hown, if_pos hown, walk_nil]
  rw [if_neg hown, if_neg hown]
  by_cases hroster : st.mayApplyChainOf device = true
  · simp only [hroster, not_true, if_false]
    cases validateChain chain with
    | error error => exact (walk_singleton (stepTask source now) a (.fail (.store error))).symm
    | ok u =>
      refine walk_walk (I := fun a => SameNode st a.store) ?_ chain ?_ a h
      · exact fun a task ha => ha.trans (stepTask_sameNode source now a task)
      · exact fun a ha envelope _ => stepEnvelope_eq_walk source now device ha envelope
  · simp only [hroster]
    exact (walk_singleton (stepTask source now) a .unrostered).symm

/-- **A call is one walk over its tasks.** -/
theorem applyReplaying_eq_walk (st : Store K) (segments : List (SegmentEnvelope K))
    (source : ChunkSource) (replay : Replay) (now : ℕ) :
    applyReplaying st segments source replay now =
      match walk (stepTask source now) ⟨st, 0, .new, []⟩ (tasks st replay segments) with
      | (a, some error) => (a.store, .error error)
      | (a, none) => (a.store, .ok (a.report, a.outcomes)) := by
  have h : walk (stepChain source now replay) ⟨st, 0, .new, []⟩ (byDevice segments).toList =
      walk (stepTask source now) ⟨st, 0, .new, []⟩ (tasks st replay segments) := by
    refine walk_walk (I := fun a => SameNode st a.store) ?_ _ ?_ _ .rfl
    · exact fun a task ha => ha.trans (stepTask_sameNode source now a task)
    · exact fun a ha r _ => stepChain_eq_walk source now replay ha r
  rw [← h]
  rfl

theorem applyReplaying_store (st : Store K) (segments : List (SegmentEnvelope K))
    (source : ChunkSource) (replay : Replay) (now : ℕ) :
    (applyReplaying st segments source replay now).1 =
      (walk (stepTask source now) ⟨st, 0, .new, []⟩ (tasks st replay segments)).1.store := by
  rw [applyReplaying_eq_walk]
  rcases walk (stepTask source now) _ (tasks st replay segments) with ⟨a, _ | error⟩ <;> rfl

/-! ### Invariants -/

/-- **What applying one entry keeps, a call keeps**, whether it succeeds or not. -/
theorem applyReplaying_invariant (I : Store K → Prop) (st : Store K)
    (segments : List (SegmentEnvelope K)) (source : ChunkSource) (replay : Replay) (now : ℕ)
    (h : ∀ device owner e, .entry device owner e ∈ tasks st replay segments → ∀ st' n,
      SameNode st st' → I st' → I (applyEntry source now st' n device e owner).1)
    (hI : I st) : I (applyReplaying st segments source replay now).1 ∧
      SameNode st (applyReplaying st segments source replay now).1 := by
  have key := walk_invariant (stepTask (K := K) source now)
    (fun a => SameNode st a.store ∧ I a.store) (tasks st replay segments)
    (fun a task ht ha => ⟨ha.1.trans (stepTask_sameNode source now a task), by
      cases task with
      | entry device owner e =>
        have hk := h device owner e ht a.store a.calls ha.1 ha.2
        simp only [stepTask, stepEntry]
        rcases hr : applyEntry source now a.store a.calls device e owner with ⟨st, n, error | applied⟩
        all_goals
          rw [hr] at hk
          exact hk
      | fail error => exact ha.2
      | unrostered => exact ha.2⟩)
    (s := ⟨st, 0, .new, []⟩) ⟨.rfl, hI⟩
  rw [applyReplaying_eq_walk]
  rcases hw : walk (stepTask source now) ⟨st, 0, .new, []⟩ (tasks st replay segments) with
    ⟨a, _ | error⟩
  all_goals
    rw [hw] at key
    exact ⟨key.2, key.1⟩

/-! ### Which entries a call comes to -/

theorem getD_foldl_byDevice (d : DeviceId) : ∀ (segments : List (SegmentEnvelope K))
    (t : Table DeviceId (List (SegmentEnvelope K))),
    ((segments.foldl (fun t e => t.insert e.device ((t[e.device]?).getD [] ++ [e])) t)[d]?).getD [] =
      (t[d]?).getD [] ++ segments.filter fun e => e.device = d
  | [], t => by simp
  | e :: segments, t => by
    rw [List.foldl_cons, getD_foldl_byDevice d segments, Table.getElem?_insert']
    by_cases h : e.device = d
    · subst h
      simp
    · simp [h]

/-- A device's chain is its segments in the order given. -/
theorem getD_byDevice (segments : List (SegmentEnvelope K)) (d : DeviceId) :
    ((byDevice segments)[d]?).getD [] = segments.filter fun e => e.device = d := by
  have h := getD_foldl_byDevice d segments ∅
  simpa [byDevice] using h

variable {segments : List (SegmentEnvelope K)}

theorem mem_byDevice {d : DeviceId}
    {chain : List (SegmentEnvelope K)} (h : (d, chain) ∈ (byDevice segments).toList) :
    chain = segments.filter fun e => e.device = d := by
  rw [← getD_byDevice, Table.mem_toList.mp h]
  rfl

theorem exists_mem_byDevice {e : SegmentEnvelope K} (h : e ∈ segments) :
    (e.device, segments.filter fun f => f.device = e.device) ∈ (byDevice segments).toList := by
  have hd := getD_byDevice segments e.device
  rw [Table.mem_toList]
  cases hb : (byDevice segments)[e.device]? with
  | some chain => rw [hb] at hd; simpa using hd
  | none =>
    rw [hb] at hd
    have hm : e ∈ segments.filter fun f => f.device = e.device := List.mem_filter.mpr ⟨h, by simp⟩
    rw [← hd] at hm
    simp at hm

variable {e : LogEntry}

/-- An entry a call applies is in a segment it was given, of this owner, by a
device whose chain may be applied. -/
theorem of_mem_tasks {replay : Replay} {device : DeviceId} {owner : UserId}
    (h : .entry device owner e ∈ tasks st replay segments) :
    ∃ envelope ∈ segments, envelope.device = device ∧ envelope.owner = owner ∧ owner = st.owner ∧
      (∃ entries, envelope.openBody = .ok entries ∧ e ∈ entries) ∧
      (replay = .othersOnly → device ≠ st.device) ∧ st.mayApplyChainOf device = true := by
  obtain ⟨⟨d, chain⟩, hr, ht⟩ := List.mem_flatMap.mp h
  have hchain := mem_byDevice hr
  unfold chainTasks at ht
  dsimp only at ht
  by_cases hown : replay = .othersOnly ∧ d = st.device
  · simp [hown] at ht
  rw [if_neg hown] at ht
  by_cases hroster : st.mayApplyChainOf d = true
  · simp only [hroster, not_true, if_false] at ht
    cases hv : validateChain chain with
    | error error => simp [hv] at ht
    | ok u =>
      rw [hv] at ht
      obtain ⟨envelope, hm, he⟩ := List.mem_flatMap.mp ht
      unfold envelopeTasks at he
      cases ho : st.openSegment envelope with
      | error error => simp [ho] at he
      | ok entries =>
        rw [ho] at he
        obtain ⟨x, hx, hxe⟩ := List.mem_map.mp he
        cases hxe
        rw [hchain, List.mem_filter, decide_eq_true_iff] at hm
        unfold Store.openSegment at ho
        split_ifs at ho with hne
        exact ⟨envelope, hm.1, hm.2, rfl, not_not.mp hne, ⟨entries, ho, hx⟩,
          fun hrep hd => hown ⟨hrep, hd⟩, hroster⟩
  · simp [hroster] at ht

/-- A call that succeeds comes to every entry of every segment it may apply. -/
theorem mem_tasks {replay : Replay}
    (hfail : ∀ error, .fail error ∉ tasks st replay segments) {envelope : SegmentEnvelope K}
    (hm : envelope ∈ segments) (hown : ¬(replay = .othersOnly ∧ envelope.device = st.device))
    (hroster : st.mayApplyChainOf envelope.device = true) (he : e ∈ envelope.body) :
    .entry envelope.device envelope.owner e ∈ tasks st replay segments := by
  have hr := exists_mem_byDevice hm
  have hsub : ∀ task ∈ chainTasks st replay
      (envelope.device, segments.filter fun f => f.device = envelope.device),
      task ∈ tasks st replay segments := fun task ht => List.mem_flatMap.mpr ⟨_, hr, ht⟩
  have hmem : envelope ∈ segments.filter fun f => f.device = envelope.device :=
    List.mem_filter.mpr ⟨hm, by simp⟩
  unfold chainTasks at hsub
  dsimp only at hsub
  rw [if_neg hown] at hsub
  simp only [hroster, not_true, if_false] at hsub
  cases hv : validateChain (segments.filter fun f => f.device = envelope.device) with
  | error error =>
    rw [hv] at hsub
    exact absurd (hsub _ List.mem_cons_self) (hfail _)
  | ok u =>
    rw [hv] at hsub
    have henv : ∀ task ∈ envelopeTasks st envelope.device envelope, task ∈ tasks st replay segments :=
      fun task ht => hsub task (List.mem_flatMap.mpr ⟨envelope, hmem, ht⟩)
    unfold envelopeTasks at henv
    cases ho : st.openSegment envelope with
    | error error =>
      rw [ho] at henv
      exact absurd (henv _ List.mem_cons_self) (hfail _)
    | ok entries =>
      rw [ho] at henv
      have hopen : envelope.openBody = .ok entries := by
        unfold Store.openSegment at ho
        split_ifs at ho
        exact ho
      rw [SegmentEnvelope.openBody_eq_body hopen] at he
      exact henv _ (List.mem_map.mpr ⟨e, he, rfl⟩)

/-- The entry a task hands to `applyEntry`, with the device it is of. -/
def Task.handed : Task → Option (DeviceId × LogEntry)
  | .entry device _ e => some (device, e)
  | _ => none

/-- The entries a call hands over. -/
def handedOver (st : Store K) (segments : List (SegmentEnvelope K)) : List (DeviceId × LogEntry) :=
  (tasks st .othersOnly segments).filterMap Task.handed

theorem mem_handedOver {device : DeviceId}
    {owner : UserId} (h : .entry device owner e ∈ tasks st .othersOnly segments) :
    (device, e) ∈ handedOver st segments ∧ owner = st.owner := by
  refine ⟨List.mem_filterMap.mpr ⟨_, h, rfl⟩, ?_⟩
  obtain ⟨-, -, -, -, ho, -⟩ := of_mem_tasks h
  exact ho

variable {st st' : Store K}

/-- The tasks depend on the node alone. -/
theorem tasks_of_sameNode (h : SameNode st st') (replay : Replay)
    (segments : List (SegmentEnvelope K)) : tasks st' replay segments = tasks st replay segments := by
  have hopen : st'.openSegment = st.openSegment := by
    funext envelope
    simp only [Store.openSegment, Store.foreignText, h.owner]
  have hmay : st'.mayApplyChainOf = st.mayApplyChainOf := by
    funext device
    simp only [Store.mayApplyChainOf, h.device, h.roster]
  have henv : envelopeTasks st' = envelopeTasks st := by
    funext device envelope
    rw [envelopeTasks, envelopeTasks, hopen]
  unfold tasks chainTasks
  rw [h.device, hmay, henv]

/-! ### A call that reports nothing -/

/-- The rows have nothing left to take from this entry. -/
def Settled (device : DeviceId) (rows : Rows) (e : LogEntry) : Prop :=
  (merge device rows e).2.Quiet

/-- How many outcomes of a report were not quiet. -/
def SyncReport.busy (r : SyncReport) : ℕ := r.adopted + r.conflicted + r.deferred

theorem SyncReport.busy_eq_zero {r : SyncReport} :
    r.busy = 0 ↔ r.changedAnything = false ∧ r.deferred = 0 := by
  simp only [busy, changedAnything, Bool.or_eq_false_iff, decide_eq_false_iff_not]
  omega

theorem SyncReport.busy_record (r : SyncReport) (a : Applied) :
    r.busy ≤ (r.record a).busy ∧ ((r.record a).busy = r.busy → a.Quiet) := by
  cases a <;> simp only [record, busy, Applied.Quiet, implies_true, and_true] <;> omega

theorem SyncReport.busy_record_quiet (r : SyncReport) {a : Applied} (h : a.Quiet) :
    (r.record a).busy = r.busy := by
  cases a <;> first | rfl | exact h.elim

/-- A count of the report that no outcome lowers. -/
structure Counts (f : SyncReport → ℕ) : Prop where
  record : ∀ (r : SyncReport) (a : Applied), f r ≤ f (r.record a)
  unrostered : ∀ r : SyncReport, f r ≤ f { r with unrosteredChains := r.unrosteredChains + 1 }

theorem counts_busy : Counts SyncReport.busy :=
  ⟨fun r a => (r.busy_record a).1, fun _ => le_rfl⟩

theorem Counts.stepTask_le {f : SyncReport → ℕ} (hf : Counts f) (source : ChunkSource) (now : ℕ)
    (a : Applying K) (task : Task) : f a.report ≤ f (stepTask source now a task).1.report := by
  cases task with
  | entry device owner e =>
    simp only [stepTask, stepEntry]
    rcases applyEntry source now a.store a.calls device e owner with ⟨st, n, error | applied⟩
    · exact le_rfl
    · exact hf.record a.report applied
  | fail error => exact le_rfl
  | unrostered => exact hf.unrostered a.report

variable {now : ℕ} {source : ChunkSource}

/-- A walk adds to the count what its first step and the rest add. -/
theorem Counts.walk_ok_cons {f : SyncReport → ℕ} (hf : Counts f)
    {a a' : Applying K} {task : Task} {ts : List Task}
    (h : walk (stepTask source now) a (task :: ts) = (a', none)) :
    ∃ a₁, stepTask source now a task = (a₁, none) ∧ walk (stepTask source now) a₁ ts = (a', none) ∧
      f a.report ≤ f a₁.report ∧ f a₁.report ≤ f a'.report := by
  obtain ⟨a₁, hstep, hrest⟩ := Walk.walk_ok_cons h
  refine ⟨a₁, hstep, hrest, ?_, ?_⟩
  · have := hf.stepTask_le source now a task
    rwa [hstep] at this
  · have := walk_invariant (stepTask (K := K) source now) (fun x => f a₁.report ≤ f x.report) ts
      (fun x t _ hx => hx.trans (hf.stepTask_le source now x t)) (s := a₁) le_rfl
    rwa [hrest] at this

/-- A walk that adds nothing to the busy count found everything settled. -/
theorem walk_quiet (source : ChunkSource) (now : ℕ) : ∀ (ts : List Task) (a a' : Applying K),
    walk (stepTask source now) a ts = (a', none) → a'.report.busy = a.report.busy →
    a'.store = a.store ∧
      ∀ device owner e, .entry device owner e ∈ ts → Settled device a.store.row e
  | [], a, a', h, _ => by
    cases h
    simp
  | task :: ts, a, a', h, hb => by
    obtain ⟨a₁, hstep, hrest, h1, h2⟩ := counts_busy.walk_ok_cons h
    obtain ⟨hsame, hset⟩ := walk_quiet source now ts a₁ a' hrest (by omega)
    have hbusy : a₁.report.busy = a.report.busy := by omega
    -- the first task left the store as it was
    have hfirst : a₁.store = a.store ∧
        ∀ device owner e, task = .entry device owner e → Settled device a.store.row e := by
      cases task with
      | fail error => cases hstep
      | unrostered => cases hstep; simp
      | entry device owner e =>
        have hm := applyEntry_merges source now a.store a.calls device e owner
        simp only [stepTask, stepEntry] at hstep
        rcases hr : applyEntry source now a.store a.calls device e owner with ⟨st, n, error | applied⟩
        · rw [hr] at hstep; cases hstep
        · rw [hr] at hstep hm
          cases hstep
          have hq := (a.report.busy_record applied).2 hbusy
          rcases hm.rows with ⟨-, happ, hst⟩ | ⟨-, hbl, -⟩
          · obtain rfl := Except.ok.inj happ
            refine ⟨hst hq, fun device' owner' e' heq => ?_⟩
            cases heq
            exact hq
          · dsimp only at hbl
            cases hbl <;> exact hq.elim
    refine ⟨hsame.trans hfirst.1, fun device owner e hm => ?_⟩
    rcases List.mem_cons.mp hm with heq | hm
    · exact hfirst.2 device owner e heq.symm
    · have := hset device owner e hm
      rwa [hfirst.1] at this

/-- A walk that finished came to nothing that is wrong. -/
theorem fail_not_mem {ts : List Task} {a a' : Applying K}
    (h : walk (stepTask source now) a ts = (a', none)) (error : SyncError) : .fail error ∉ ts := by
  intro hf
  obtain ⟨s₁, s₂, hs⟩ := walk_ok_forall h _ hf
  cases hs

/-- What a successful call walked. -/
theorem applySegments_ok {report : SyncReport} {outcomes : List Outcome}
    (h : applySegments st segments source now = (st', .ok (report, outcomes))) :
    ∃ a, walk (stepTask source now) ⟨st, 0, .new, []⟩ (tasks st .othersOnly segments) = (a, none) ∧
      a.store = st' ∧ a.report = report := by
  rw [applySegments, applyReplaying_eq_walk] at h
  rcases hw : walk (stepTask source now) ⟨st, 0, .new, []⟩ (tasks st .othersOnly segments) with
    ⟨a, _ | error⟩
  · rw [hw] at h
    cases h
    exact ⟨a, rfl, rfl, rfl⟩
  · rw [hw] at h
    cases h

/-- **A call that reports nothing found every entry settled**, and came to every
entry of every segment of another device that the roster lets in. -/
theorem applySegments_quiet {report : SyncReport} {outcomes : List Outcome}
    (h : applySegments st segments source now = (st', .ok (report, outcomes)))
    (hc : report.changedAnything = false) (hd : report.deferred = 0) :
    st' = st ∧ ∀ envelope ∈ segments, envelope.device ≠ st.device →
      st.mayApplyChainOf envelope.device = true → ∀ e ∈ envelope.body,
        Settled envelope.device st.row e := by
  obtain ⟨a, hw, rfl, rfl⟩ := applySegments_ok h
  have hb : a.report.busy = 0 := SyncReport.busy_eq_zero.mpr ⟨hc, hd⟩
  obtain ⟨hrow, hset⟩ := walk_quiet source now _ _ a hw hb
  refine ⟨hrow, fun envelope hm hne hroster e he => ?_⟩
  exact hset _ _ _ (mem_tasks (fail_not_mem hw) hm (fun k => hne k.2) hroster he)

end Itsanas
