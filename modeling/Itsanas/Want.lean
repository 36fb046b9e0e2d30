/-
# Which hosts to add

`want` of `target.rs` in `itsanas-placement`: the hosts a chunk should be sent to, taken greedily
from a ranking in four passes, from a new account on a new network down to any. It stops as soon
as the chunk is safe or has as many copies as it may. The test comes before a candidate is looked
at, so what was added last was still needed; the last pass passes over nobody but holders, so if
the chunk is not safe in the end there was nobody left to add, or no more were allowed.
-/
import Itsanas.Target

namespace Itsanas.Target

/-- Which hosts to add, and whether that would be enough. -/
structure Want where
  hosts : List DeviceId
  satisfied : Bool
  deriving DecidableEq

/-- A host that is added counts as a proven, recent holder. -/
def promised (candidate : Holding) : Holding :=
  { candidate with own := false, proven := true, recent := true }

/-- Whether a household of `current` is the candidate's too. -/
def represented (current : List Holding) (candidate : Holding) : Bool :=
  current.any fun holding => !holding.own && holding.proven &&
    (holding.account = candidate.account ∨
      candidate.network.isSome ∧ holding.network = candidate.network)

def networkHeld (current : List Holding) (candidate : Holding) : Bool :=
  candidate.network.isSome && current.any fun holding =>
    !holding.own && holding.proven && holding.network = candidate.network

section
variable (goal : Goal) (nowHour : ℕ)

/-- The rest of the passes: for each candidate to come, whether it must bring a new account and
whether a new network. -/
def wantFrom : List ((Bool × Bool) × Holding) → List Holding → List DeviceId → Want
  | [], current, hosts => ⟨hosts, (assess current goal nowHour).satisfied⟩
  | ((newAccount, newNetwork), candidate) :: rest, current, hosts =>
    let verdict := assess current goal nowHour
    if verdict.satisfied || verdict.capped then ⟨hosts, verdict.satisfied⟩
    else if current.any fun holding => holding.device = candidate.device then
      wantFrom rest current hosts
    else if (newAccount && represented current candidate) ||
        (newNetwork && networkHeld current candidate) then
      wantFrom rest current hosts
    else wantFrom rest (current ++ [promised candidate]) (hosts ++ [candidate.device])

/-- The four passes over the ranking. -/
def passes (ranked : List Holding) : List ((Bool × Bool) × Holding) :=
  [(true, true), (true, false), (false, true), (false, false)].flatMap fun pass =>
    ranked.map fun candidate => (pass, candidate)

variable {candidate : Holding}

theorem mem_of_mem_passes {ranked : List Holding}
    (h : candidate ∈ (passes ranked).map Prod.snd) : candidate ∈ ranked := by
  simpa [passes] using h

theorem last_pass_mem {ranked : List Holding} (h : candidate ∈ ranked) :
    ((false, false), candidate) ∈ passes ranked := by
  simpa [passes] using h

def want (holdings ranked : List Holding) : Want := wantFrom goal nowHour (passes ranked) holdings []

/-! ### What is added -/

/-- Hosts that were added to `current` one by one: each a candidate that was not there, while the
chunk was neither safe nor at its cap. -/
structure Added (candidates current added : List Holding) : Prop where
  candidate : ∀ holding ∈ added, ∃ candidate ∈ candidates, holding = promised candidate
  nodup : (added.map Holding.device).Nodup
  fresh : ∀ holding ∈ added, ∀ other ∈ current, holding.device ≠ other.device
  needed : ∀ k < added.length, (assess (current ++ added.take k) goal nowHour).satisfied = false ∧
    (assess (current ++ added.take k) goal nowHour).capped = false

variable {goal nowHour} {candidates current added : List Holding}

theorem Added.nil (candidates current : List Holding) : Added goal nowHour candidates current [] :=
  ⟨fun _ h => absurd h List.not_mem_nil, List.nodup_nil, fun _ h => absurd h List.not_mem_nil,
    fun _ h => absurd h (Nat.not_lt_zero _)⟩

theorem Added.mono (h : Added goal nowHour candidates current added) {more : List Holding}
    (hsub : candidates ⊆ more) : Added goal nowHour more current added :=
  { h with candidate := fun holding hmem =>
      let ⟨c, hc, he⟩ := h.candidate holding hmem
      ⟨c, hsub hc, he⟩ }

/-- One more at the front. -/
theorem Added.cons (hmem : candidate ∈ candidates)
    (hnew : ∀ other ∈ current, other.device ≠ candidate.device)
    (hneeded : (assess current goal nowHour).satisfied = false ∧
      (assess current goal nowHour).capped = false)
    (h : Added goal nowHour candidates (current ++ [promised candidate]) added) :
    Added goal nowHour candidates current (promised candidate :: added) where
  candidate holding hholding := by
    rcases List.mem_cons.mp hholding with rfl | hholding
    · exact ⟨candidate, hmem, rfl⟩
    · exact h.candidate holding hholding
  nodup := by
    refine List.nodup_cons.mpr ⟨fun hin => ?_, h.nodup⟩
    obtain ⟨holding, hholding, hdevice⟩ := List.mem_map.mp hin
    exact h.fresh holding hholding (promised candidate) (by simp) hdevice
  fresh holding hholding other hother := by
    rcases List.mem_cons.mp hholding with rfl | hholding
    · exact fun he => hnew other hother he.symm
    · exact h.fresh holding hholding other (List.mem_append_left _ hother)
  needed k hk := by
    cases k with
    | zero => simpa using hneeded
    | succ k =>
      have := h.needed k (by simpa using hk)
      simpa using this

/-- **What the rest of the passes does.** The chunk is then safe or at its cap, or every candidate
for whom there was no condition is among the holders. -/
theorem wantFrom_spec :
    ∀ (steps : List ((Bool × Bool) × Holding)) (current : List Holding) (hosts : List DeviceId),
    ∃ added, Added goal nowHour (steps.map Prod.snd) current added ∧
      (wantFrom goal nowHour steps current hosts).hosts = hosts ++ added.map Holding.device ∧
      (wantFrom goal nowHour steps current hosts).satisfied =
        (assess (current ++ added) goal nowHour).satisfied ∧
      ((assess (current ++ added) goal nowHour).satisfied = true ∨
        (assess (current ++ added) goal nowHour).capped = true ∨
        ∀ candidate, ((false, false), candidate) ∈ steps →
          ∃ holding ∈ current ++ added, holding.device = candidate.device)
  | [], current, hosts =>
    ⟨[], Added.nil _ _, by simp [wantFrom], by simp [wantFrom],
      Or.inr (Or.inr fun _ h => absurd h List.not_mem_nil)⟩
  | ((newAccount, newNetwork), candidate) :: rest, current, hosts => by
    have hsub : rest.map Prod.snd ⊆ (((newAccount, newNetwork), candidate) :: rest).map Prod.snd :=
      List.subset_cons_self _ _
    unfold wantFrom
    dsimp only
    by_cases hstop :
      ((assess current goal nowHour).satisfied || (assess current goal nowHour).capped) = true
    · rw [if_pos hstop]
      refine ⟨[], Added.nil _ _, by simp, by simp, ?_⟩
      rw [List.append_nil]
      exact (Bool.or_eq_true _ _ ▸ hstop).imp id Or.inl
    · rw [if_neg hstop]
      have hneeded : (assess current goal nowHour).satisfied = false ∧
          (assess current goal nowHour).capped = false := by
        simpa using hstop
      by_cases hheld : (current.any fun holding => holding.device = candidate.device) = true
      · rw [if_pos hheld]
        obtain ⟨added, hadded, hhosts, hsatisfied, hend⟩ := wantFrom_spec rest current hosts
        refine ⟨added, hadded.mono hsub, hhosts, hsatisfied,
          hend.imp_right (Or.imp_right fun hall c hc => ?_)⟩
        rcases List.mem_cons.mp hc with he | hc
        · obtain ⟨holding, hholding, hdevice⟩ := List.any_eq_true.mp hheld
          rw [(Prod.mk.inj he).2]
          exact ⟨holding, List.mem_append_left _ hholding, of_decide_eq_true hdevice⟩
        · exact hall c hc
      · rw [if_neg hheld]
        have hnew : ∀ other ∈ current, other.device ≠ candidate.device := fun other hother he =>
          hheld (List.any_eq_true.mpr ⟨other, hother, decide_eq_true he⟩)
        by_cases hskip : ((newAccount && represented current candidate) ||
            (newNetwork && networkHeld current candidate)) = true
        · rw [if_pos hskip]
          obtain ⟨added, hadded, hhosts, hsatisfied, hend⟩ := wantFrom_spec rest current hosts
          refine ⟨added, hadded.mono hsub, hhosts, hsatisfied,
            hend.imp_right (Or.imp_right fun hall c hc => ?_)⟩
          rcases List.mem_cons.mp hc with he | hc
          · -- the last pass passes over nobody
            obtain ⟨hpass, -⟩ := Prod.mk.inj he
            obtain ⟨rfl, rfl⟩ := Prod.mk.inj hpass
            simp at hskip
          · exact hall c hc
        · rw [if_neg hskip]
          obtain ⟨added, hadded, hhosts, hsatisfied, hend⟩ :=
            wantFrom_spec rest (current ++ [promised candidate]) (hosts ++ [candidate.device])
          refine ⟨promised candidate :: added, Added.cons (by simp) hnew hneeded (hadded.mono hsub),
            ?_, ?_, ?_⟩
          · rw [hhosts]
            simp [promised]
          · rw [hsatisfied]
            simp
          · rw [List.append_assoc, List.singleton_append] at hend
            refine hend.imp_right (Or.imp_right fun hall c hc => ?_)
            rcases List.mem_cons.mp hc with he | hc
            · rw [(Prod.mk.inj he).2]
              exact ⟨promised candidate, by simp, rfl⟩
            · exact hall c hc

/-- Copies are added one at a time and below the cap only. -/
theorem Added.remote_le (h : Added goal nowHour candidates current added) :
    (assess (current ++ added) goal nowHour).remote ≤
      max goal.cap (assess current goal nowHour).remote := by
  have hremote : ∀ holdings, (assess holdings goal nowHour).remote = holdings.countP fun h =>
    !h.own := fun _ => rfl
  have hcapped : ∀ holdings, (assess holdings goal nowHour).capped =
      decide (goal.cap ≤ (assess holdings goal nowHour).remote) := fun _ => rfl
  rcases List.eq_nil_or_concat' added with rfl | ⟨first, last, rfl⟩
  · rw [List.append_nil]
    exact le_max_right _ _
  · have hbelow := (h.needed first.length (by simp)).2
    rw [List.take_left, hcapped, decide_eq_false_iff_not, hremote] at hbelow
    refine le_max_of_le_left ?_
    rw [hremote, ← List.append_assoc, List.countP_append, List.countP_singleton]
    split_ifs <;> omega

end

/-- **`want` is sound and exhaustive.** The hosts it names are distinct, ranked and no holders
yet; with them the copies are at most the cap, or those that were there; it says rightly whether
that is enough; it would not have been with fewer of them; and if it is not, the cap is reached or
every ranked device is a holder. -/
theorem want_spec (goal : Goal) (nowHour : ℕ) (holdings ranked : List Holding) :
    let result := want goal nowHour holdings ranked
    ∃ added : List Holding, added.map Holding.device = result.hosts ∧
      (∀ holding ∈ added, ∃ candidate ∈ ranked, holding = promised candidate) ∧
      result.hosts.Nodup ∧ (∀ device ∈ result.hosts, ∀ holding ∈ holdings, device ≠ holding.device) ∧
      (assess (holdings ++ added) goal nowHour).remote ≤
        max goal.cap (assess holdings goal nowHour).remote ∧
      result.satisfied = (assess (holdings ++ added) goal nowHour).satisfied ∧
      (∀ k < added.length, (assess (holdings ++ added.take k) goal nowHour).satisfied = false) ∧
      (result.satisfied = false → goal.cap ≤ (assess (holdings ++ added) goal nowHour).remote ∨
        ∀ candidate ∈ ranked, candidate.device ∈ holdings.map Holding.device ∨ candidate.device ∈
            result.hosts) := by
  intro result
  obtain ⟨added, hadded, hhosts, hsatisfied, hend⟩ :=
    @wantFrom_spec goal nowHour (passes ranked) holdings []
  rw [List.nil_append] at hhosts
  have hcandidate : ∀ holding ∈ added, ∃ candidate ∈ ranked, holding = promised candidate := by
    intro holding hholding
    obtain ⟨candidate, hcandidate, he⟩ := hadded.candidate holding hholding
    exact ⟨candidate, mem_of_mem_passes hcandidate, he⟩
  refine ⟨added, hhosts.symm, hcandidate, ?_, ?_, hadded.remote_le, hsatisfied,
    fun k hk => (hadded.needed k hk).1, fun hnot => ?_⟩
  · rw [show result.hosts = _ from hhosts]
    exact hadded.nodup
  · intro device hdevice holding hholding
    rw [show result.hosts = _ from hhosts] at hdevice
    obtain ⟨new, hnew, rfl⟩ := List.mem_map.mp hdevice
    exact hadded.fresh new hnew holding hholding
  · rcases hend with hsafe | hcapped | hall
    · rw [show result.satisfied = _ from hsatisfied, hsafe] at hnot
      cases hnot
    · exact Or.inl (of_decide_eq_true hcapped)
    · refine Or.inr fun candidate hcandidate => ?_
      obtain ⟨holding, hholding, he⟩ := hall candidate (last_pass_mem hcandidate)
      rw [show result.hosts = _ from hhosts, ← he]
      exact (List.mem_append.mp hholding).imp (List.mem_map_of_mem) (List.mem_map_of_mem)

end Itsanas.Target
