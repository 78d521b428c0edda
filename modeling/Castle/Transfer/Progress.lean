import Castle.Transfer.Engine

/-!
# A transfer without a failed read can always finish

A failed read keeps its unit of `phase` for ever, and the iterator is never continued again
(`transfer_cancel_once_per_failure`).  Without one, the phase barrier never holds the walk up:
from every state a transfer reaches with no failed read, delivering the iterator's callbacks with
an allocator that finds a destination and pages found up to date, and completing the first read
in flight, brings the iterator to the end of the walk, every node continued once, with no failure
on the way (`transfer_can_complete`).

The argument is a measure, `remaining`: for each node from the iterator's on, its entries, its
start and its end, less what the iterator has done of its node, and the reads in flight.  Every
event of that schedule lowers it: the iterator starts its node or delivers an entry (the move
completes at once on an up-to-date page), ends the node, or a read completes; and where the last
unit of `phase` is released the iterator goes on to the next node, whose share was counted.  Only
a waiting node with no read in flight could stop the schedule, and there `phase` would be `0`,
which the invariant rules out.
-/

namespace Castle
namespace Transfer

/-! ## Where the callbacks leave the iterator -/

/-- The iterator stays where it is, or goes from a node waiting for its continuation to the next
node. -/
def IterNext (s s' : State) : Prop :=
  s'.iter = s.iter ∨ ∃ k, s.iter = .waiting k ∧ s'.iter = .ready (k + 1)

section iterNext
variable {cfg : Config} {s s' : State}

theorem IterNext.of_iter_eq {s₁ : State} (h : s₁.iter = s.iter) (h' : IterNext s₁ s') :
    IterNext s s' := by
  rw [IterNext, ← h]
  exact h'

theorem iterNext_continue (s : State) : IterNext s (castleFtreeIterContinue s) := by
  unfold castleFtreeIterContinue
  split
  · rename_i k hk
    exact .inr ⟨k, hk, rfl⟩
  · exact .inl rfl

theorem iterNext_phaseDecAndContinue (s : State) : IterNext s (phaseDecAndContinue s) := by
  unfold phaseDecAndContinue
  dsimp only
  split_ifs
  · exact (iterNext_continue _).of_iter_eq rfl
  · exact .inl rfl

theorem iterNext_callback (k : Nat) (src dest : Cdb) (u : Bool) (s : State) :
    IterNext s (castleDoTransferCallback k src dest u s) := by
  unfold castleDoTransferCallback
  dsimp only
  split_ifs
  · exact .inl rfl
  · exact (iterNext_phaseDecAndContinue _).of_iter_eq rfl

theorem iterNext_moveBlock (k : Nat) (cdb : Cdb) (fs : FreeSpace) (u : Bool) (s : State) :
    IterNext s (castleMoveBlock cfg k cdb fs u s) := by
  unfold castleMoveBlock
  dsimp only
  by_cases hc : castleTransferIsBlockOnCorrectDisk cfg cdb
  · rw [if_pos hc]
    exact .inl rfl
  · rw [if_neg hc]
    cases castleTransferGetDestination cfg fs with
    | none => exact .inl rfl
    | some dest =>
      cases u
      · simp only [Bool.not_false, if_true]
        exact .inl rfl
      · simp only [Bool.not_true, Bool.false_eq_true, if_false]
        exact (iterNext_callback _ _ _ _ _).of_iter_eq rfl

end iterNext

/-! ## The iterator stays within the tree -/

/-- The iterator is at most one past the last node, and a node it started is a node of the
tree. -/
def IterBound (cfg : Config) (s : State) : Prop :=
  s.iter.node ≤ cfg.tree.length ∧ (s.iter.started = true → s.iter.node < cfg.tree.length)

section iterBound
variable {cfg : Config} {s s' : State}

theorem IterBound.next (hb : IterBound cfg s) (h : IterNext s s') : IterBound cfg s' := by
  rcases h with h | ⟨k, hk, h⟩
  · rwa [IterBound, h]
  · have hlt := hb.2 (by rw [hk]; rfl)
    rw [hk] at hlt
    exact ⟨by rw [h]; exact hlt, by rw [h]; intro h'; cases h'⟩

theorem IterBound.step (hb : IterBound cfg s) {e : Ev} (h : step cfg s e = some s') :
    IterBound cfg s' := by
  rcases step_cases h with rfl | ⟨k, -, hk, -, rfl⟩ | ⟨k, j, cdb, fs, u, hin, -, rfl⟩ |
    ⟨k, j, hin, -, rfl⟩ | ⟨i, k, src, dest, u, -, rfl⟩
  · exact hb
  · exact ⟨hk.le, fun _ => hk⟩
  · have hlt : k < cfg.tree.length := by simpa [hin, IterPos.node] using hb.2 (by rw [hin]; rfl)
    refine IterBound.next ?_ (iterNext_moveBlock k cdb fs u _)
    exact ⟨hlt.le, fun _ => hlt⟩
  · have hlt : k < cfg.tree.length := by simpa [hin, IterPos.node] using hb.2 (by rw [hin]; rfl)
    refine IterBound.next ?_ (iterNext_phaseDecAndContinue _)
    exact ⟨hlt.le, fun _ => hlt⟩
  · exact hb.next ((iterNext_callback _ _ _ _ _).of_iter_eq rfl)

theorem IterBound.run (hb : IterBound cfg s) {evs : List Ev} (h : run cfg s evs = some s') :
    IterBound cfg s' := by
  induction evs generalizing s with
  | nil =>
    cases h
    exact hb
  | cons e evs ih =>
    obtain ⟨s₁, h₁, h₂⟩ := Option.bind_eq_some.mp h
    exact ih (hb.step h₁) h₂

theorem reachable_iterBound (h : Reachable cfg s) : IterBound cfg s :=
  let ⟨_, h⟩ := h
  IterBound.run ⟨Nat.zero_le _, fun h => by cases h⟩ h

end iterBound

/-! ## The schedule records no failure -/

/-- A callback of the schedule: the reads in flight stay, the iterator stays or goes on to the
next node, and no failure is recorded. -/
structure Calm (s s' : State) : Prop where
  inflight : s'.inflight = s.inflight
  iter : IterNext s s'
  readFailures : s'.trace.countP Act.isReadFailure = s.trace.countP Act.isReadFailure
  allocFailures : s'.trace.countP Act.isAllocFailure = s.trace.countP Act.isAllocFailure

section calm
variable {cfg : Config} {s : State}

theorem Calm.of_push {s₁ s' : State} (h₁ : s₁.iter = s.iter) (hinf : s₁.inflight = s.inflight)
    (hr : s₁.trace.countP Act.isReadFailure = s.trace.countP Act.isReadFailure)
    (ha : s₁.trace.countP Act.isAllocFailure = s.trace.countP Act.isAllocFailure)
    (h : Calm s₁ s') : Calm s s' :=
  ⟨h.inflight.trans hinf, h.iter.of_iter_eq h₁, h.readFailures.trans hr, h.allocFailures.trans ha⟩

theorem calm_phaseDecAndContinue (s : State) : Calm s (phaseDecAndContinue s) := by
  refine ⟨?_, iterNext_phaseDecAndContinue s, ?_, ?_⟩ <;>
  · unfold phaseDecAndContinue castleFtreeIterContinue
    dsimp only
    split_ifs <;> [split; skip] <;> simp

/-- A copy callback after a read that succeeded. -/
theorem calm_callback (k : Nat) (src dest : Cdb) (s : State) :
    Calm s (castleDoTransferCallback k src dest true s) := by
  unfold castleDoTransferCallback
  simp only [Bool.not_true, Bool.false_eq_true, if_false]
  refine Calm.of_push ?_ ?_ ?_ ?_ (calm_phaseDecAndContinue _) <;> simp

/-- `castle_move_block` on an up-to-date page, with an allocator that finds a destination. -/
theorem calm_moveBlock {fs : FreeSpace} (hfs : (castleTransferGetDestination cfg fs).isSome)
    (k : Nat) (cdb : Cdb) (s : State) : Calm s (castleMoveBlock cfg k cdb fs true s) := by
  obtain ⟨dest, hd⟩ := Option.isSome_iff_exists.mp hfs
  unfold castleMoveBlock
  dsimp only
  by_cases hc : castleTransferIsBlockOnCorrectDisk cfg cdb
  · rw [if_pos hc]
    exact ⟨rfl, .inl rfl, by simp, by simp⟩
  · rw [if_neg hc, hd]
    simp only [Bool.not_true, Bool.false_eq_true, if_false]
    refine Calm.of_push ?_ ?_ ?_ ?_ (calm_callback _ _ _ _) <;> simp

end calm

/-! ## The measure -/

/-- What the iterator has done of its node: nothing before it starts, its start and the entries
delivered, everything once the node ended. -/
def IterPos.done (cfg : Config) : IterPos → Nat
  | .ready _ => 0
  | .inNode _ j => j + 1
  | .waiting k => (cfg.tree.getD k []).length + 2

/-- What is left of the walk: the entries, start and end of each node from the iterator's on,
less what the iterator has done of its node, and the reads in flight. -/
def remaining (cfg : Config) (s : State) : Nat :=
  ((cfg.tree.drop s.iter.node).map (·.length + 2)).sum - s.iter.done cfg + s.inflight.length

theorem sum_drop_eq {cfg : Config} {k : Nat} (hk : k < cfg.tree.length) :
    ((cfg.tree.drop k).map (·.length + 2)).sum =
      (cfg.tree.getD k []).length + 2 + ((cfg.tree.drop (k + 1)).map (·.length + 2)).sum := by
  rw [List.drop_eq_getElem_cons hk, List.map_cons, List.sum_cons, List.getD_eq_getElem?_getD,
    List.getElem?_eq_getElem hk]
  rfl

section schedule
variable {cfg : Config} {fs : FreeSpace} {s : State}

/-- Leaving a node for the next one takes off what was left of it. -/
theorem remaining_next {s' : State} {k : Nat} (hk : k < cfg.tree.length)
    (hs' : s'.iter = .ready (k + 1)) :
    remaining cfg s' + ((cfg.tree.getD k []).length + 2) =
      ((cfg.tree.drop k).map (·.length + 2)).sum + s'.inflight.length := by
  rw [remaining, hs', sum_drop_eq hk]
  simp only [IterPos.node, IterPos.done, Nat.sub_zero]
  omega

/-- **One event of the schedule.**  From a state with the invariant, no failed read and the
iterator not at the end of the walk, either the iterator's next callback (with `fs` and an
up-to-date page) or the completion of the first read in flight is handled, lowers `remaining`,
and records no failure. -/
theorem exists_schedule_step (hfs : (castleTransferGetDestination cfg fs).isSome)
    (hs : Inv cfg s) (hb : IterBound cfg s) (hf : s.trace.countP Act.isReadFailure = 0)
    (hend : s.iter ≠ .ready cfg.tree.length) :
    ∃ e, (e = .iterNext fs true ∨ e = .readEnd 0 true) ∧ ∃ s₂, step cfg s e = some s₂ ∧
      remaining cfg s₂ < remaining cfg s ∧
      s₂.trace.countP Act.isReadFailure = 0 ∧
      s₂.trace.countP Act.isAllocFailure = s.trace.countP Act.isAllocFailure := by
  have hph := hs.phase
  cases hit : s.iter with
  | ready k =>
    have hk : k < cfg.tree.length := by
      have := hb.1
      rw [hit] at this hend
      exact Nat.lt_of_le_of_ne this fun h => hend (h ▸ rfl)
    obtain ⟨hinf, -⟩ := hs.ready k hit
    rw [hit] at hph
    simp only [IterPos.openUnit, hinf, hf, List.length_nil] at hph
    let s₂ : State :=
      { s with phase := s.phase + 1, iter := .inNode k 0, trace := .nodeStart k :: s.trace }
    refine ⟨_, .inl rfl, s₂, by simp [step, hit, hk, castleTransferNodeStart, hph, s₂], ?_,
      by simpa [s₂] using hf, by simp [s₂]⟩
    have := sum_drop_eq hk
    simp only [remaining, hit, hinf, IterPos.node, IterPos.done]
    omega
  | inNode k j =>
    have hk : k < cfg.tree.length := by simpa [hit, IterPos.node] using hb.2 (by rw [hit]; rfl)
    have hsum := sum_drop_eq hk
    cases hj : (cfg.tree.getD k [])[j]? with
    | some cdb =>
      have hlt : j < (cfg.tree.getD k []).length := by
        by_contra h
        rw [List.getElem?_eq_none (Nat.le_of_not_lt h)] at hj
        cases hj
      let s₁ : State := { s with iter := .inNode k (j + 1), trace := .each k cdb :: s.trace }
      have hc := calm_moveBlock hfs k cdb s₁
      have hit₂ : (castleMoveBlock cfg k cdb fs true s₁).iter = .inNode k (j + 1) := by
        rcases hc.iter with h | ⟨_, h, -⟩
        · exact h
        · cases h
      refine ⟨_, .inl rfl, castleMoveBlock cfg k cdb fs true s₁,
        by simp only [step, hit, hj], ?_, ?_, ?_⟩
      · simp only [remaining, hit, hit₂, hc.inflight, IterPos.node, IterPos.done]
        omega
      · rw [hc.readFailures]
        simpa [s₁] using hf
      · rw [hc.allocFailures]
        simp [s₁]
    | none =>
      have hjl : j = (cfg.tree.getD k []).length := by
        have := hs.inNode k j hit
        rw [List.getElem?_eq_none_iff] at hj
        omega
      let s₁ : State := { s with iter := .waiting k, trace := .nodeEnd k :: s.trace }
      have hc := calm_phaseDecAndContinue s₁
      refine ⟨_, .inl rfl, castleTransferNodeEnd s₁, by simp only [step, hit, hj],
        ?_, ?_, ?_⟩
      · rcases hc.iter with h | ⟨_, h, h'⟩
        · simp only [remaining, castleTransferNodeEnd, h, hc.inflight, hit, IterPos.node,
            IterPos.done, s₁]
          omega
        · cases h
          have h₂ := remaining_next hk h'
          rw [hc.inflight, show s₁.inflight = s.inflight from rfl] at h₂
          have hr : remaining cfg s = ((cfg.tree.drop k).map (·.length + 2)).sum - (j + 1) +
              s.inflight.length := by
            simp only [remaining, hit, IterPos.node, IterPos.done]
          rw [hr, castleTransferNodeEnd]
          omega
      · rw [castleTransferNodeEnd, hc.readFailures]
        simpa [s₁] using hf
      · rw [castleTransferNodeEnd, hc.allocFailures]
        simp [s₁]
  | waiting k =>
    have hk : k < cfg.tree.length := by simpa [hit, IterPos.node] using hb.2 (by rw [hit]; rfl)
    obtain ⟨⟨k', src, dest⟩, rest, hinf⟩ : ∃ m rest, s.inflight = m :: rest := by
      cases h : s.inflight with
      | nil =>
        rw [hit, h, hf] at hph
        exact absurd (by simpa using hph) (hs.waiting k hit)
      | cons m rest => exact ⟨m, rest, rfl⟩
    let s₁ : State := { s with inflight := rest }
    have hc := calm_callback k' src dest s₁
    refine ⟨_, .inr rfl, castleDoTransferCallback k' src dest true s₁,
      by simp only [step, hinf, List.getElem?_cons_zero]; rfl, ?_, ?_, ?_⟩
    · have hr : remaining cfg s = ((cfg.tree.drop k).map (·.length + 2)).sum -
          ((cfg.tree.getD k []).length + 2) + (rest.length + 1) := by
        simp only [remaining, hit, hinf, IterPos.node, IterPos.done, List.length_cons]
      have hinf₂ : (castleDoTransferCallback k' src dest true s₁).inflight = rest := hc.inflight
      rw [hr]
      rcases hc.iter with h | ⟨w, hw, h'⟩
      · have h' : (castleDoTransferCallback k' src dest true s₁).iter = .waiting k := h.trans hit
        simp only [remaining, h', hinf₂, IterPos.node, IterPos.done]
        omega
      · obtain rfl : w = k := by
          have hw' : s.iter = .waiting w := hw
          rw [hit] at hw'
          cases hw'
          rfl
        have h₂ := remaining_next hk h'
        rw [hinf₂] at h₂
        omega
    · rw [hc.readFailures]
      exact hf
    · exact hc.allocFailures

/-- **The transfer can always finish without a failed read.**  From every state a transfer
reaches with no failed read, delivering the iterator's callbacks with an allocator answer `fs`
that finds a destination and pages found up to date, and completing the first read in flight,
brings the iterator to the end of the walk: every node has been continued once, no read has
failed, and no allocation failed on the way. -/
theorem transfer_can_complete (cfg : Config) (fs : FreeSpace)
    (hfs : (castleTransferGetDestination cfg fs).isSome) (s : State) (hs : Reachable cfg s)
    (hf : s.trace.countP Act.isReadFailure = 0) :
    ∃ evs s', (∀ e ∈ evs, e = .iterNext fs true ∨ e = .readEnd 0 true) ∧
      run cfg s evs = some s' ∧ s'.iter = .ready cfg.tree.length ∧
      continuedNodes s'.trace = (List.range cfg.tree.length).reverse ∧
      s'.trace.countP Act.isReadFailure = 0 ∧
      s'.trace.countP Act.isAllocFailure = s.trace.countP Act.isAllocFailure := by
  obtain ⟨n, hn⟩ : ∃ n, remaining cfg s = n := ⟨_, rfl⟩
  induction n using Nat.strong_induction_on generalizing s with
  | _ n ih =>
    by_cases hend : s.iter = .ready cfg.tree.length
    · have hc := (reachable_inv hs).continues
      rw [hend] at hc
      exact ⟨[], s, (fun _ h => by cases h), rfl, hend, hc, hf, rfl⟩
    · obtain ⟨e, he, s₂, hstep, hlt, hf₂, ha₂⟩ :=
        exists_schedule_step hfs (reachable_inv hs) (reachable_iterBound hs) hf hend
      have hs₂ : Reachable cfg s₂ := by
        obtain ⟨evs₀, h₀⟩ := hs
        exact ⟨evs₀ ++ [e], by simp [run_append, h₀, run, hstep]⟩
      obtain ⟨evs, s', hevs, hrun, hend', hc', hf', ha'⟩ := ih _ (hn ▸ hlt) s₂ hs₂ hf₂ rfl
      exact ⟨e :: evs, s', by simpa [he] using hevs, by simp [run, hstep, hrun], hend', hc', hf',
        ha'.trans ha₂⟩

end schedule

/-- The transfer of one block off the target slave: the schedule from the start moves it and
ends the walk. -/
theorem transfer_can_complete_oneMove :
    ∃ evs s', (∀ e ∈ evs, e = .iterNext targetSpace true ∨ e = .readEnd 0 true) ∧
      run oneMoveCfg init evs = some s' ∧ s'.iter = .ready oneMoveCfg.tree.length ∧
      continuedNodes s'.trace = (List.range oneMoveCfg.tree.length).reverse ∧
      s'.trace.countP Act.isReadFailure = 0 ∧
      s'.trace.countP Act.isAllocFailure = init.trace.countP Act.isAllocFailure :=
  transfer_can_complete oneMoveCfg targetSpace rfl init ⟨[], rfl⟩ rfl

end Transfer
end Castle
