import XmrigProxy.NonceMapper

/-! While the main pool is active and no donation round runs, the miners of a mapper are
served. The storage flag is shared with the donation client, whose pauses do not say whose
they are. -/
namespace XmrigProxy.NonceMapper

open UpstreamMapper

inductive Event where
  | add (miner : MinerId)
  | remove (miner : MinerId)
  | submit (event : SubmitEvent) (answer : ℤ)
  | tick
  | gc (paused : Bool)
  | pool (event : PoolEvent)

/-- A miner that finds no room leaves the mapper as it is. -/
def step (config : DonateStrategy.Config) : Event → Handler State Output
  | .add miner => fun s => (UpstreamMapper.add NonceStorage.ops miner s).getD (s, [])
  | .remove miner => fun s => (UpstreamMapper.remove NonceStorage.ops miner s, [])
  | .submit event answer => UpstreamMapper.submit NonceStorage.ops event answer
  | .tick => UpstreamMapper.tick NonceStorage.ops config
  | .gc paused => gc paused
  | .pool event => onPoolEvent NonceStorage.ops config event

def machine (config : DonateStrategy.Config) (id : ℕ) (index : Slot) (target : ℕ) :
    Machine State Event Output where
  init := create config id index target
  next s e := step config e s

/-- An active pool serves the miners of a mapper that is not suspended. -/
def Served (s : State) : Prop :=
  isSuspended s = false → s.poolActive = true → s.storage.active = true

/-- The donation client does not close during a round that interrupts an active pool, and a
suspended mapper takes a miner only after the pause of its main strategy. -/
def Steady (s : State) : Event → Prop
  | .pool .donateClose => donating s = true → s.poolActive = true → isSuspended s = true
  | .add _ => isSuspended s = true → s.poolActive = true → s.storage.active = true
  | _ => True

section Steps

variable {config : DonateStrategy.Config} {s s' : State} {e : Event}

theorem Served.congr (h : Served s) (hsuspended : s'.suspended = s.suspended)
    (hpool : s'.poolActive = s.poolActive) (hactive : s'.storage.active = s.storage.active) :
    Served s' := by
  intro hs hp
  rw [hactive]
  refine h ?_ (hpool ▸ hp)
  unfold isSuspended at hs ⊢
  rwa [hsuspended] at hs

theorem Served.setJob (h : Served s) (job : Job) :
    Served (setJob NonceStorage.ops job s).1 :=
  h.congr rfl rfl rfl

theorem Served.setAlgo (h : Served s) (algorithm : Algorithm) : Served (setAlgo algorithm s) :=
  h.congr rfl rfl rfl

theorem Served.reschedule (h : Served s) : Served (reschedule config s).2.1 := by
  unfold UpstreamMapper.reschedule
  split
  · exact h
  · exact h.congr rfl rfl rfl

theorem Served.onJob (h : Served s) (job : Job) :
    Served (onJob NonceStorage.ops config job s).1 := by
  unfold UpstreamMapper.onJob
  split
  · dsimp only
    split
    · exact (h.reschedule.setAlgo _).setJob job
    · exact h.reschedule.congr rfl rfl rfl
  · exact (h.setAlgo _).setJob job

theorem Served.tick (h : Served s) : Served (UpstreamMapper.tick NonceStorage.ops config s).1 := by
  have htick : Served (tickDonate s).1 := by
    unfold tickDonate
    split
    · exact h
    · exact h.congr rfl rfl rfl
  change Served (resumeSaved NonceStorage.ops config (tickDonate s).1).1
  unfold resumeSaved
  split
  · exact htick
  · split
    · dsimp only
      split
      · exact htick.reschedule.setJob _
      · exact htick.reschedule
    · exact htick

theorem Served.onDonateJob (h : Served s) (job : Job) :
    Served (onDonateJob NonceStorage.ops job s).1 := by
  unfold UpstreamMapper.onDonateJob
  split
  · exact h
  · dsimp only
    split
    · exact (h.setAlgo _).setJob job
    · exact fun _ _ => rfl

/-- A suspended mapper owes nothing. -/
theorem served_of_suspended (h : 0 < s.suspended) : Served s := by
  intro hs
  unfold isSuspended at hs
  exact absurd h (by simpa using hs)

theorem served_gc (h : Served s) (paused : Bool) : Served (gc paused s).1 := by
  unfold gc
  split
  · exact served_of_suspended (Nat.succ_pos _)
  · split
    · exact h
    · unfold suspend
      dsimp only
      split
      · cases paused <;> exact served_of_suspended Nat.one_pos
      · cases paused <;> exact served_of_suspended Nat.one_pos

theorem Served.add {miner : MinerId} (h : Served s) (hsteady : Steady s (.add miner)) :
    Served (step config (.add miner) s).1 := by
  unfold NonceMapper.step UpstreamMapper.add
  dsimp only
  cases hadd : NonceStorage.ops.add miner s.storage with
  | none => exact h
  | some added =>
      have hactive : added.1.active = s.storage.active :=
        NonceStorage.ops.isActive_add miner s.storage added.1 added.2 hadd
      by_cases hs : isSuspended s = true
      · intro _ hp
        have hactive' := hsteady hs
        simp only [isSuspended] at hs
        simp only [Option.map_some, Option.getD_some, Handler.seq, isSuspended, hs,
          if_true, connect] at hp ⊢
        rw [hactive]
        exact hactive' hp
      · refine h.congr ?_ ?_ ?_
        all_goals simp only [isSuspended, decide_eq_true_eq] at hs
        all_goals simp [Handler.seq, isSuspended, hs, Handler.skip, hactive]

theorem Served.onDonateClose (h : Served s) (hsteady : Steady s (.pool .donateClose)) :
    Served (onDonateClose NonceStorage.ops s) := by
  unfold UpstreamMapper.onDonateClose
  split
  · exact h
  · next donate hdonate =>
    split
    · next hround =>
      intro hs hp
      have := hsteady (by simp [donating, hdonate, hround]) hp
      exact absurd this (by simp [isSuspended] at hs ⊢; exact hs)
    · exact h

theorem Served.step (h : Served s) (hsteady : Steady s e) : Served (step config e s).1 := by
  cases e with
  | add miner => exact h.add hsteady
  | remove miner => exact h.congr rfl rfl rfl
  | submit event answer =>
      unfold NonceMapper.step UpstreamMapper.submit
      dsimp only
      split
      · exact h
      · exact h.congr rfl rfl rfl
  | tick => exact h.tick
  | gc paused => exact served_gc h paused
  | pool event =>
      cases event with
      | active => exact fun _ _ => rfl
      | pause => exact fun _ hp => absurd hp Bool.false_ne_true
      | job job => exact h.onJob job
      | donateJob job => exact h.onDonateJob job
      | donateClose => exact h.onDonateClose hsteady
      | result toDonate seq error =>
          unfold NonceMapper.step onPoolEvent onResultAccepted submitCtx
          dsimp only
          split
          · exact h
          · exact h.congr rfl rfl rfl

end Steps

section Runs

variable {config : DonateStrategy.Config} {id : ℕ} {index : Slot} {target : ℕ}

theorem served_create : Served (create config id index target) :=
  fun _ hp => absurd hp Bool.false_ne_true

theorem served (es : ℕ → Event) (k : ℕ)
    (hsteady : ∀ j < k, Steady ((machine config id index target).state es j) (es j)) :
    Served ((machine config id index target).state es k) :=
  @Machine.invariant_guarded _ _ _ (machine config id index target) es Steady (fun s _ => Served s)
    served_create (fun _ _ _ hop h => h.step hop) k hsteady

/-- In a steady run an active pool is served, during donation rounds too: no valid submission
is refused for want of a pool, and a miner that joins is sent the current job. -/
theorem active_pool_served (config : DonateStrategy.Config) (id : ℕ) (index : Slot) (target : ℕ)
    (es : ℕ → Event) (k : ℕ)
    (hsteady : ∀ j < k, Steady ((machine config id index target).state es j) (es j))
    (hrunning : isSuspended ((machine config id index target).state es k) = false)
    (hpool : ((machine config id index target).state es k).poolActive = true) :
    let s := (machine config id index target).state es k
    s.storage.active = true ∧
      (∀ event, checkSubmit NonceStorage.ops event s ≠ .error .BadGateway) ∧
      ∀ miner s' out, UpstreamMapper.add NonceStorage.ops miner s = some (s', out) →
        ∃ write, .write write ∈ out ∧ write.miner = miner ∧ write.job = s.storage.job := by
  intro s
  have hactive : s.storage.active = true := served es k hsteady hrunning hpool
  refine ⟨hactive, fun event => ?_, fun miner s' out hadd => ?_⟩
  · unfold checkSubmit
    have hops : NonceStorage.ops.isActive s.storage = true := hactive
    rw [hops]
    simp only [Bool.not_true, Bool.false_eq_true, if_false]
    split
    · simp
    · split <;> simp
  · obtain ⟨⟨storage, writes⟩, hstored, hout⟩ := Option.map_eq_some_iff.mp hadd
    obtain ⟨write, hwrite, hminer, hjob⟩ := NonceStorage.ops.greeted miner _ _ _ hstored hactive
    have hmem : Output.write write ∈ out := by
      rw [show out = _ from (congrArg Prod.snd hout).symm]
      exact List.mem_append_left _ (List.mem_map_of_mem hwrite)
    exact ⟨write, hmem, hminer, hjob⟩

def fivePercent : DonateStrategy.Config := ⟨5, fun ticks => 20 * ticks⟩

/-- A pool becomes active, a round starts, and its connection drops. -/
def droppedRound : ℕ → Event :=
  follow [.pool .active, .pool (.donateJob Job.initial), .pool .donateClose] .tick

theorem active_pool_unserved :
    let s := (machine fivePercent 0 0 100).state droppedRound 3
    isSuspended s = false ∧ s.poolActive = true ∧ donating s = false ∧ s.storage.active = false ∧
      ∀ event, checkSubmit NonceStorage.ops event s = .error .BadGateway :=
  ⟨by decide, by decide, by decide, by decide, fun _ => rfl⟩

/-- A round that is left alone. -/
def startedRound : ℕ → Event := follow [.pool .active, .pool (.donateJob Job.initial)] .tick

theorem active_pool_served_round :
    ((machine fivePercent 0 0 100).state startedRound 2).storage.active = true := by
  refine (active_pool_served fivePercent 0 0 100 startedRound 2 (fun j hj => ?_) (by decide)
    (by decide)).1
  have hcases : j = 0 ∨ j = 1 := by omega
  rcases hcases with rfl | rfl <;> trivial

end Runs

end XmrigProxy.NonceMapper
