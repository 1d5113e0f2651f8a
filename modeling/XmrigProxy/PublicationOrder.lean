import XmrigProxy.LiveEventStream
import Mathlib.Data.List.Nodup
import Mathlib.Data.List.Range
import Mathlib.Data.Nat.Find

/-! Jobs that a miner gets before its login is known are held back, while other rows are
broadcast. -/
namespace XmrigProxy

namespace LiveEventStream

/-- What a row means for the order of the rows. -/
inductive Action where
  | connected (minerId : Int64)
  | job (minerId : Int64)
  | login (minerId : Int64) (accepted : Bool)
  | disconnected (minerId : Int64)
  | other
  deriving DecidableEq

def Row.action (row : Row) : Action :=
  match row.minerId with
  | none => .other
  | some minerId =>
      if row.event = bytes "worker_connected" then .connected minerId
      else if row.event = bytes "job_sent" then .job minerId
      else if row.event = bytes "worker_login" then .login minerId (row.status = bytes "accepted")
      else if row.event = bytes "worker_disconnected" then .disconnected minerId
      else .other

/-- A connection begins or ends, or the login of the miner is known. -/
def Action.Controls (minerId : Int64) (a : Action) : Prop :=
  a = .connected minerId ∨ a = .login minerId true ∨ a = .login minerId false ∨
    a = .disconnected minerId

instance (minerId : Int64) (a : Action) : Decidable (a.Controls minerId) :=
  inferInstanceAs (Decidable (_ ∨ _ ∨ _ ∨ _))

section Controls

variable {m m' : Int64}

theorem controls_connected : (Action.connected m').Controls m ↔ m' = m := by simp [Action.Controls]

theorem controls_job : ¬ (Action.job m').Controls m := by simp [Action.Controls]

theorem controls_login {accepted : Bool} : (Action.login m' accepted).Controls m ↔ m' = m := by
  cases accepted with
  | true => simp [Action.Controls]
  | false => simp [Action.Controls]

theorem controls_disconnected : (Action.disconnected m').Controls m ↔ m' = m := by
  simp [Action.Controls]

theorem controls_other : ¬ Action.other.Controls m := by simp [Action.Controls]

end Controls

def started (streamId : Text) (client : Option Client) : State where
  streamId
  client

def after (now : ℕ → Clock) (rows : ℕ → Row) (s : State) : ℕ → State
  | 0 => s
  | n + 1 => (after now rows s n).publishOrdered now (rows n)

/-! ### The order of the rows, by their numbers -/

structure Schedule where
  sent : List ℕ := []
  held : Int64 → Option (List ℕ) := fun _ => none

def Schedule.step (index : ℕ) (row : Row) (p : Schedule) : Schedule :=
  match row.action with
  | .connected m => ⟨p.sent ++ [index], Function.update p.held m (some [])⟩
  | .job m => match p.held m with
    | none => ⟨p.sent ++ [index], p.held⟩
    | some jobs => ⟨p.sent, Function.update p.held m (some (jobs ++ [index]))⟩
  | .login m accepted =>
      ⟨p.sent ++ index :: (if accepted then (p.held m).getD [] else []),
        Function.update p.held m none⟩
  | .disconnected m => ⟨p.sent ++ [index], Function.update p.held m none⟩
  | .other => ⟨if row.event = [] then p.sent else p.sent ++ [index], p.held⟩

def schedule (rows : ℕ → Row) : ℕ → Schedule
  | 0 => {}
  | n + 1 => (schedule rows n).step n (rows n)

def Quiet (rows : ℕ → Row) (m : Int64) (c n : ℕ) : Prop :=
  ∀ k, c < k → k < n → ¬ (rows k).action.Controls m

/-- The connection that begins with a row still waits for its login. -/
structure Waiting (rows : ℕ → Row) (m : Int64) (c n : ℕ) : Prop where
  connected : (rows c).action = .connected m
  later : c < n
  quiet : Quiet rows m c n

/-- The connection that begins with a row has not ended. -/
structure Connection (rows : ℕ → Row) (m : Int64) (c n : ℕ) : Prop where
  connected : (rows c).action = .connected m
  later : c < n
  unbroken : ∀ k, c < k → k < n → (rows k).action ≠ .connected m ∧ (rows k).action ≠ .disconnected m

def jobsBetween (rows : ℕ → Row) (m : Int64) (c n : ℕ) : List ℕ :=
  (List.range' (c + 1) (n - (c + 1))).filter fun i => (rows i).action = .job m

section Held

variable {rows : ℕ → Row} {m : Int64} {c n : ℕ}

theorem mem_jobsBetween {i : ℕ} : i ∈ jobsBetween rows m c n ↔
    c < i ∧ i < n ∧ (rows i).action = .job m := by
  unfold jobsBetween
  rw [List.mem_filter, List.mem_range'_1, decide_eq_true_eq]
  constructor
  · rintro ⟨⟨hlow, hhigh⟩, haction⟩
    exact ⟨by omega, by omega, haction⟩
  · rintro ⟨hlow, hhigh, haction⟩
    exact ⟨⟨by omega, by omega⟩, haction⟩

theorem jobsBetween_self : jobsBetween rows m n (n + 1) = [] := by
  unfold jobsBetween
  rw [Nat.sub_self]
  rfl

theorem jobsBetween_succ (hc : c < n) : jobsBetween rows m c (n + 1) =
    jobsBetween rows m c n ++ if (rows n).action = .job m then [n] else [] := by
  unfold jobsBetween
  have hlength : n + 1 - (c + 1) = (n - (c + 1)) + 1 := by omega
  have hlast : c + 1 + (n - (c + 1)) = n := by omega
  rw [hlength, List.range'_1_concat, List.filter_append, hlast, List.filter_singleton]
  congr 1
  by_cases haction : (rows n).action = .job m
  · rw [if_pos haction, decide_eq_true haction]
    rfl
  · rw [if_neg haction, decide_eq_false haction]
    rfl

theorem quiet_succ : Quiet rows m c (n + 1) ↔
    Quiet rows m c n ∧ (c < n → ¬ (rows n).action.Controls m) := by
  constructor
  · intro h
    exact ⟨fun k hlow hhigh => h k hlow (by omega), fun hc => h n hc (by omega)⟩
  · rintro ⟨hquiet, hlast⟩ k hlow hhigh
    rcases Nat.lt_or_eq_of_le (Nat.le_of_lt_succ hhigh) with hk | rfl
    · exact hquiet k hlow hk
    · exact hlast hlow

theorem waiting_succ : Waiting rows m c (n + 1) ↔
    (c = n ∧ (rows n).action = .connected m) ∨
      (Waiting rows m c n ∧ ¬ (rows n).action.Controls m) := by
  constructor
  · rintro ⟨hconnected, hlater, hquiet⟩
    obtain ⟨hquiet, hlast⟩ := quiet_succ.mp hquiet
    rcases Nat.lt_or_eq_of_le (Nat.le_of_lt_succ hlater) with hc | rfl
    · exact Or.inr ⟨⟨hconnected, hc, hquiet⟩, hlast hc⟩
    · exact Or.inl ⟨rfl, hconnected⟩
  · rintro (⟨rfl, hconnected⟩ | ⟨⟨hconnected, hlater, hquiet⟩, hlast⟩)
    · exact ⟨hconnected, by omega, fun k hlow hhigh => by omega⟩
    · exact ⟨hconnected, by omega, quiet_succ.mpr ⟨hquiet, fun _ => hlast⟩⟩

/-- What a row does to the jobs that are held for a miner. -/
theorem held_succ (rows : ℕ → Row) (m : Int64) (n : ℕ) : (schedule rows (n + 1)).held m =
    if (rows n).action = .connected m then some []
    else if (rows n).action.Controls m then none
    else if (rows n).action = .job m then ((schedule rows n).held m).map (· ++ [n])
    else (schedule rows n).held m := by
  have hstep : (schedule rows (n + 1)).held m = ((schedule rows n).step n (rows n)).held m := rfl
  have hupdate : ∀ (m' : Int64) (value : Option (List ℕ)),
      Function.update (schedule rows n).held m' value m =
        if m = m' then value else (schedule rows n).held m := fun m' value =>
    Function.update_apply _ _ _ _
  rw [hstep]
  unfold Schedule.step
  cases (rows n).action with
  | connected m' =>
      dsimp only
      rw [hupdate]
      by_cases hm : m = m'
      · subst hm
        rw [if_pos rfl, if_pos rfl]
      · rw [if_neg hm, if_neg fun h => hm (Action.connected.inj h).symm,
          if_neg fun h => hm (controls_connected.mp h).symm, if_neg Action.noConfusion]
  | job m' =>
      dsimp only
      rw [if_neg Action.noConfusion, if_neg controls_job]
      by_cases hm : m = m'
      · subst hm
        rw [if_pos rfl]
        cases hheld : (schedule rows n).held m with
        | none => exact hheld
        | some jobs =>
            dsimp only
            rw [hupdate, if_pos rfl]
            rfl
      · rw [if_neg fun h => hm (Action.job.inj h).symm]
        cases hheld : (schedule rows n).held m' with
        | none => rfl
        | some jobs =>
            dsimp only
            rw [hupdate, if_neg hm]
  | login m' accepted =>
      have hne : Action.login m' accepted ≠ .connected m := Action.noConfusion
      dsimp only
      rw [hupdate, if_neg hne]
      by_cases hm : m = m'
      · subst hm
        rw [if_pos rfl, if_pos (controls_login.mpr rfl)]
      · rw [if_neg hm, if_neg fun h => hm (controls_login.mp h).symm, if_neg Action.noConfusion]
  | disconnected m' =>
      have hne : Action.disconnected m' ≠ .connected m := Action.noConfusion
      dsimp only
      rw [hupdate, if_neg hne]
      by_cases hm : m = m'
      · subst hm
        rw [if_pos rfl, if_pos (controls_disconnected.mpr rfl)]
      · rw [if_neg hm, if_neg fun h => hm (controls_disconnected.mp h).symm,
          if_neg Action.noConfusion]
  | other =>
      dsimp only
      rw [if_neg Action.noConfusion, if_neg controls_other, if_neg Action.noConfusion]

/-- What is held for a miner are the jobs of the connection that waits for its login. -/
theorem held_eq_some {jobs : List ℕ} : (schedule rows n).held m = some jobs ↔
    ∃ c, Waiting rows m c n ∧ jobs = jobsBetween rows m c n := by
  induction n generalizing jobs with
  | zero =>
      constructor
      · intro h
        exact absurd h (Option.some_ne_none _).symm
      · rintro ⟨c, hwaiting, -⟩
        exact absurd hwaiting.later (Nat.not_lt_zero _)
  | succ n ih =>
      rw [held_succ]
      by_cases hconnected : (rows n).action = .connected m
      · rw [if_pos hconnected]
        constructor
        · intro h
          exact ⟨n, waiting_succ.mpr (Or.inl ⟨rfl, hconnected⟩),
            jobsBetween_self.symm ▸ (Option.some.inj h).symm⟩
        · rintro ⟨c, hwaiting, rfl⟩
          rcases waiting_succ.mp hwaiting with ⟨rfl, -⟩ | ⟨-, hquiet⟩
          · rw [jobsBetween_self]
          · exact absurd (Or.inl hconnected) hquiet
      rw [if_neg hconnected]
      by_cases hcontrols : (rows n).action.Controls m
      · rw [if_pos hcontrols]
        constructor
        · intro h
          exact absurd h (Option.some_ne_none _).symm
        · rintro ⟨c, hwaiting, -⟩
          rcases waiting_succ.mp hwaiting with ⟨-, h⟩ | ⟨-, hquiet⟩
          · exact absurd h hconnected
          · exact absurd hcontrols hquiet
      rw [if_neg hcontrols]
      have hwaiting : ∀ c, Waiting rows m c (n + 1) ↔ Waiting rows m c n := by
        intro c
        rw [waiting_succ]
        constructor
        · rintro (⟨-, h⟩ | ⟨h, -⟩)
          · exact absurd h hconnected
          · exact h
        · intro h
          exact Or.inr ⟨h, hcontrols⟩
      by_cases hjob : (rows n).action = .job m
      · rw [if_pos hjob, Option.map_eq_some_iff]
        constructor
        · rintro ⟨before, hbefore, rfl⟩
          obtain ⟨c, hc, rfl⟩ := ih.mp hbefore
          refine ⟨c, (hwaiting c).mpr hc, ?_⟩
          rw [jobsBetween_succ hc.later, if_pos hjob]
        · rintro ⟨c, hc, rfl⟩
          have hc' := (hwaiting c).mp hc
          refine ⟨_, ih.mpr ⟨c, hc', rfl⟩, ?_⟩
          rw [jobsBetween_succ hc'.later, if_pos hjob]
      · rw [if_neg hjob, ih]
        have hjobs : ∀ c, Waiting rows m c n →
            jobsBetween rows m c (n + 1) = jobsBetween rows m c n := by
          intro c hc
          rw [jobsBetween_succ hc.later, if_neg hjob, List.append_nil]
        constructor
        · rintro ⟨c, hc, rfl⟩
          exact ⟨c, (hwaiting c).mpr hc, (hjobs c hc).symm⟩
        · rintro ⟨c, hc, rfl⟩
          exact ⟨c, (hwaiting c).mp hc, hjobs c ((hwaiting c).mp hc)⟩

end Held

section Sent

variable {rows : ℕ → Row} {m : Int64} {c n : ℕ}

/-- A row is followed by the jobs that it releases. -/
theorem sent_succ (rows : ℕ → Row) (n : ℕ) : (schedule rows (n + 1)).sent =
    (schedule rows n).sent ++ match (rows n).action with
      | .job m => if (schedule rows n).held m = none then [n] else []
      | .login m accepted => n :: if accepted then ((schedule rows n).held m).getD [] else []
      | .other => if (rows n).event = [] then [] else [n]
      | _ => [n] := by
  have hstep : (schedule rows (n + 1)).sent = ((schedule rows n).step n (rows n)).sent := rfl
  rw [hstep]
  unfold Schedule.step
  cases (rows n).action with
  | connected m => rfl
  | job m =>
      dsimp only
      cases (schedule rows n).held m with
      | none => rfl
      | some jobs => exact (List.append_nil _).symm
  | login m accepted => rfl
  | disconnected m => rfl
  | other =>
      dsimp only
      by_cases hevent : (rows n).event = []
      · rw [if_pos hevent, if_pos hevent, List.append_nil]
      · rw [if_neg hevent, if_neg hevent]

/-- What is added is the row itself, or was held until then. -/
theorem exists_added (rows : ℕ → Row) (n : ℕ) : ∃ added,
    (schedule rows (n + 1)).sent = (schedule rows n).sent ++ added ∧
    ∀ i ∈ added, i = n ∨ ∃ m c, Waiting rows m c n ∧ i ∈ jobsBetween rows m c n ∧
      (rows n).action = .login m true := by
  refine ⟨_, sent_succ rows n, ?_⟩
  intro i hi
  cases haction : (rows n).action with
  | connected m =>
      rw [haction] at hi
      exact Or.inl (List.mem_singleton.mp hi)
  | job m =>
      rw [haction] at hi
      dsimp only at hi
      split_ifs at hi
      · exact Or.inl (List.mem_singleton.mp hi)
      · exact absurd hi List.not_mem_nil
  | login m accepted =>
      rw [haction] at hi
      rcases List.mem_cons.mp hi with rfl | hi
      · exact Or.inl rfl
      cases accepted with
      | false => exact absurd hi List.not_mem_nil
      | true =>
          cases hheld : (schedule rows n).held m with
          | none =>
              rw [if_pos rfl, hheld] at hi
              exact absurd hi List.not_mem_nil
          | some jobs =>
              rw [if_pos rfl, hheld] at hi
              obtain ⟨c, hc, rfl⟩ := held_eq_some.mp hheld
              exact Or.inr ⟨m, c, hc, hi, rfl⟩
  | disconnected m =>
      rw [haction] at hi
      exact Or.inl (List.mem_singleton.mp hi)
  | other =>
      rw [haction] at hi
      dsimp only at hi
      split_ifs at hi
      · exact absurd hi List.not_mem_nil
      · exact Or.inl (List.mem_singleton.mp hi)

variable (rows) in
theorem sent_mono {k : ℕ} (hk : n ≤ k) : (schedule rows n).sent <+: (schedule rows k).sent := by
  induction k, hk using Nat.le_induction with
  | base => exact List.prefix_rfl
  | succ k hk ih =>
      obtain ⟨added, hadded, -⟩ := exists_added rows k
      exact ih.trans ⟨added, hadded.symm⟩

theorem sent_lt {i : ℕ} (hi : i ∈ (schedule rows n).sent) : i < n := by
  induction n with
  | zero => exact absurd hi List.not_mem_nil
  | succ n ih =>
      obtain ⟨added, hadded, hnew⟩ := exists_added rows n
      rw [hadded] at hi
      rcases List.mem_append.mp hi with hi | hi
      · exact Nat.lt_succ_of_lt (ih hi)
      rcases hnew i hi with rfl | ⟨m, c, -, hjob, -⟩
      · exact Nat.lt_succ_self _
      · exact Nat.lt_succ_of_lt (mem_jobsBetween.mp hjob).2.1

/-- A row that is held has not been sent. -/
theorem not_sent_of_held {i : ℕ} (hwaiting : Waiting rows m c n) (hi : i ∈ jobsBetween rows m c n) :
    i ∉ (schedule rows n).sent := by
  induction n with
  | zero => exact absurd hwaiting.later (Nat.not_lt_zero _)
  | succ n ih =>
      intro hsent
      rcases waiting_succ.mp hwaiting with ⟨rfl, -⟩ | ⟨hbefore, hquiet⟩
      · rw [jobsBetween_self] at hi
        exact absurd hi List.not_mem_nil
      obtain ⟨hlow, hhigh, haction⟩ := mem_jobsBetween.mp hi
      obtain ⟨added, hadded, hnew⟩ := exists_added rows n
      rcases Nat.lt_or_eq_of_le (Nat.le_of_lt_succ hhigh) with hold | rfl
      · rw [hadded] at hsent
        rcases List.mem_append.mp hsent with hsent | hsent
        · exact ih hbefore (mem_jobsBetween.mpr ⟨hlow, hold, haction⟩) hsent
        rcases hnew i hsent with rfl | ⟨m', c', -, hjob, hlogin⟩
        · exact absurd hold (Nat.lt_irrefl _)
        · rw [(mem_jobsBetween.mp hjob).2.2] at haction
          obtain rfl := Action.job.inj haction
          exact hquiet (Or.inr (Or.inl hlogin))
      · -- The row is held in the step in which it is published.
        rw [sent_succ, haction] at hsent
        dsimp only at hsent
        rw [held_eq_some.mpr ⟨c, hbefore, rfl⟩, if_neg (Option.some_ne_none _), List.append_nil]
          at hsent
        exact absurd (sent_lt hsent) (Nat.lt_irrefl _)

theorem sent_nodup (rows : ℕ → Row) (n : ℕ) : (schedule rows n).sent.Nodup := by
  induction n with
  | zero => exact List.nodup_nil
  | succ n ih =>
      have hnew : ∀ more : List ℕ, more.Nodup → (∀ i ∈ more, i = n ∨ i ∉ (schedule rows n).sent) →
          ((schedule rows n).sent ++ more).Nodup := by
        intro more hmore hfresh
        rw [List.nodup_append]
        refine ⟨ih, hmore, ?_⟩
        rintro i hi j hj rfl
        rcases hfresh i hj with rfl | hout
        · exact absurd (sent_lt hi) (Nat.lt_irrefl _)
        · exact hout hi
      have hself : ((schedule rows n).sent ++ [n]).Nodup :=
        hnew [n] (List.nodup_singleton n) fun i hi => Or.inl (List.mem_singleton.mp hi)
      rw [sent_succ]
      cases (rows n).action with
      | connected m => exact hself
      | job m =>
          dsimp only
          split_ifs
          · exact hself
          · rw [List.append_nil]
            exact ih
      | login m accepted =>
          dsimp only
          cases accepted with
          | false => exact hself
          | true =>
              rw [if_pos rfl]
              cases hheld : (schedule rows n).held m with
              | none => exact hself
              | some jobs =>
                  obtain ⟨c, hc, rfl⟩ := held_eq_some.mp hheld
                  apply hnew
                  · rw [Option.getD_some, List.nodup_cons]
                    refine ⟨fun hmem => ?_, (List.nodup_range').filter _⟩
                    exact absurd (mem_jobsBetween.mp hmem).2.1 (Nat.lt_irrefl _)
                  · intro i hi
                    rcases List.mem_cons.mp hi with rfl | hi
                    · exact Or.inl rfl
                    · exact Or.inr (not_sent_of_held hc hi)
      | disconnected m => exact hself
      | other =>
          dsimp only
          split_ifs
          · rw [List.append_nil]
            exact ih
          · exact hself

/-- A row that is neither sent nor held any more is never sent. -/
theorem never_sent {i k : ℕ} (hi : i < n) (hsent : i ∉ (schedule rows n).sent)
    (hheld : ∀ m c, Waiting rows m c n → i ∉ jobsBetween rows m c n) (hk : n ≤ k) :
    i ∉ (schedule rows k).sent ∧ ∀ m c, Waiting rows m c k → i ∉ jobsBetween rows m c k := by
  induction k, hk using Nat.le_induction with
  | base => exact ⟨hsent, hheld⟩
  | succ k hk ih =>
      obtain ⟨hsent', hheld'⟩ := ih
      obtain ⟨added, hadded, hnew⟩ := exists_added rows k
      constructor
      · rw [hadded]
        intro hmem
        rcases List.mem_append.mp hmem with hmem | hmem
        · exact hsent' hmem
        rcases hnew i hmem with rfl | ⟨m, c, hc, hjob, -⟩
        · omega
        · exact hheld' m c hc hjob
      · intro m c hc hmem
        obtain ⟨hlow, -, haction⟩ := mem_jobsBetween.mp hmem
        rcases waiting_succ.mp hc with ⟨rfl, -⟩ | ⟨hbefore, -⟩
        · omega
        · exact hheld' m c hbefore (mem_jobsBetween.mpr ⟨hlow, by omega, haction⟩)

/-- An accepted login releases the jobs that wait for it. -/
theorem sent_login (hwaiting : Waiting rows m c n) (hlogin : (rows n).action = .login m true) :
    (schedule rows (n + 1)).sent = (schedule rows n).sent ++ n :: jobsBetween rows m c n := by
  rw [sent_succ, hlogin]
  dsimp only
  rw [if_pos rfl, held_eq_some.mpr ⟨c, hwaiting, rfl⟩, Option.getD_some]

/-- When a connection ends without an accepted login, its jobs are dropped. -/
theorem dropped {i k : ℕ} (hwaiting : Waiting rows m c n) (hcontrols : (rows n).action.Controls m)
    (hlogin : (rows n).action ≠ .login m true) (hi : i ∈ jobsBetween rows m c n) (hk : n < k) :
    i ∉ (schedule rows k).sent := by
  obtain ⟨hlow, hhigh, haction⟩ := mem_jobsBetween.mp hi
  have hsent : i ∉ (schedule rows (n + 1)).sent := by
    obtain ⟨added, hadded, hnew⟩ := exists_added rows n
    rw [hadded]
    intro hmem
    rcases List.mem_append.mp hmem with hmem | hmem
    · exact not_sent_of_held hwaiting hi hmem
    rcases hnew i hmem with rfl | ⟨m', c', -, hjob, hother⟩
    · exact absurd hhigh (Nat.lt_irrefl _)
    · rw [(mem_jobsBetween.mp hjob).2.2] at haction
      obtain rfl := Action.job.inj haction
      exact hlogin hother
  have hheld : ∀ m' c', Waiting rows m' c' (n + 1) → i ∉ jobsBetween rows m' c' (n + 1) := by
    intro m' c' hother hmem
    obtain ⟨hlow', -, haction'⟩ := mem_jobsBetween.mp hmem
    rw [haction'] at haction
    obtain rfl := Action.job.inj haction
    rcases waiting_succ.mp hother with ⟨rfl, -⟩ | ⟨-, hquiet⟩
    · omega
    · exact hquiet hcontrols
  exact (never_sent (Nat.lt_succ_of_lt hhigh) hsent hheld hk).1

theorem controls_sent (hcontrols : (rows n).action.Controls m) :
    n ∈ (schedule rows (n + 1)).sent := by
  rw [sent_succ]
  apply List.mem_append_right
  rcases hcontrols with h | h | h | h
  · rw [h]
    exact List.mem_singleton_self n
  · rw [h]
    exact List.mem_cons_self
  · rw [h]
    exact List.mem_cons_self
  · rw [h]
    exact List.mem_singleton_self n

/-- No job of a connection is broadcast before a login of it. -/
theorem login_before_job {i : ℕ} (hconnection : Connection rows m c i)
    (haction : (rows i).action = .job m) (hi : i ∈ (schedule rows n).sent) :
    ∃ l accepted, Connection rows m c l ∧ (rows l).action = .login m accepted ∧
      [l, i].Sublist (schedule rows n).sent := by
  have hin := sent_lt hi
  by_cases hquiet : Quiet rows m c i
  · -- The job is held, and the first row that ends the wait has released it.
    have hstill : ¬ Quiet rows m c n := by
      intro hall
      exact not_sent_of_held ⟨hconnection.connected, lt_trans hconnection.later hin, hall⟩
        (mem_jobsBetween.mpr ⟨hconnection.later, hin, haction⟩) hi
    have hends : ∃ l, c < l ∧ l < n ∧ (rows l).action.Controls m := by
      unfold Quiet at hstill
      simp only [not_forall, not_not] at hstill
      obtain ⟨l, hlow, hhigh, hl⟩ := hstill
      exact ⟨l, hlow, hhigh, hl⟩
    obtain ⟨hlow, hhigh, hl⟩ := Nat.find_spec hends
    have hleast : Quiet rows m c (Nat.find hends) := fun k hck hkl hk =>
      Nat.find_min hends hkl ⟨hck, lt_trans hkl hhigh, hk⟩
    generalize Nat.find hends = l at hlow hhigh hl hleast
    have hil : i < l := by
      rcases Nat.lt_trichotomy i l with h | rfl | h
      · exact h
      · rw [haction] at hl
        exact absurd hl controls_job
      · exact absurd hl (hquiet l hlow h)
    have hwaiting : Waiting rows m c l := ⟨hconnection.connected, hlow, hleast⟩
    have hjob : i ∈ jobsBetween rows m c l := mem_jobsBetween.mpr ⟨hconnection.later, hil, haction⟩
    have hlogin : (rows l).action = .login m true := by
      by_contra hother
      exact dropped hwaiting hl hother hjob hhigh hi
    refine ⟨l, true, ⟨hconnection.connected, hlow, fun k hck hkl => ?_⟩, hlogin, ?_⟩
    · exact ⟨fun h => hleast k hck hkl (Or.inl h),
        fun h => hleast k hck hkl (Or.inr (Or.inr (Or.inr h)))⟩
    · have hreleased : [l, i].Sublist (schedule rows (l + 1)).sent := by
        rw [sent_login hwaiting hlogin]
        apply List.sublist_append_of_sublist_right
        exact (List.singleton_sublist.mpr hjob).cons_cons l
      exact hreleased.trans (sent_mono rows hhigh).sublist
  · -- A login came before the job, and is sent already.
    unfold Quiet at hquiet
    simp only [not_forall, not_not] at hquiet
    obtain ⟨l, hlow, hhigh, hl⟩ := hquiet
    have hlogin : ∃ accepted, (rows l).action = .login m accepted := by
      obtain ⟨hnot, hnot'⟩ := hconnection.unbroken l hlow hhigh
      rcases hl with h | h | h | h
      · exact absurd h hnot
      · exact ⟨true, h⟩
      · exact ⟨false, h⟩
      · exact absurd h hnot'
    obtain ⟨accepted, hlogin⟩ := hlogin
    refine ⟨l, accepted, ⟨hconnection.connected, hlow, fun k hck hkl =>
      hconnection.unbroken k hck (lt_trans hkl hhigh)⟩, hlogin, ?_⟩
    obtain ⟨more, hmore⟩ := sent_mono rows (le_of_lt hin)
    have hfirst : l ∈ (schedule rows i).sent := (sent_mono rows hhigh).subset (controls_sent hl)
    rw [← hmore] at hi ⊢
    rcases List.mem_append.mp hi with h | h
    · exact absurd (sent_lt h) (Nat.lt_irrefl _)
    · exact (List.singleton_sublist.mpr hfirst).append (List.singleton_sublist.mpr h)

end Sent

/-! ### The stream follows the schedule -/

theorem publishOrdered_eq (now : ℕ → Clock) (row : Row) (s : State) : s.publishOrdered now row =
    match row.action with
    | .connected m =>
        { s with preLoginJobs := Function.update s.preLoginJobs m (some []) }.broadcast now row
    | .job m => match s.preLoginJobs m with
      | none => s.broadcast now row
      | some jobs =>
          { s with preLoginJobs := Function.update s.preLoginJobs m (some (jobs ++ [row])) }
    | .login m accepted =>
        (if accepted then (s.preLoginJobs m).getD [] else []).foldl
          (fun s job => s.broadcast now job)
          { s.broadcast now row with
            preLoginJobs := Function.update (s.broadcast now row).preLoginJobs m none }
    | .disconnected m =>
        { s with preLoginJobs := Function.update s.preLoginJobs m none }.broadcast now row
    | .other => s.broadcast now row := by
  have hkeep : (s.broadcast now row).preLoginJobs = s.preLoginJobs := by
    unfold State.broadcast
    split
    · rfl
    · rfl
  unfold State.publishOrdered Row.action
  cases row.minerId with
  | none => rfl
  | some m =>
      dsimp only
      by_cases hconnected : row.event = bytes "worker_connected"
      · rw [if_pos hconnected, if_pos hconnected]
      rw [if_neg hconnected, if_neg hconnected]
      by_cases hjob : row.event = bytes "job_sent"
      · rw [if_pos hjob]
        dsimp only
        cases hheld : s.preLoginJobs m with
        | none =>
            have hlogin : row.event ≠ bytes "worker_login" := by
              rw [hjob]
              decide
            have hdisconnected : row.event ≠ bytes "worker_disconnected" := by
              rw [hjob]
              decide
            rw [if_neg fun h => Bool.false_ne_true h.2, if_neg hlogin, if_neg hdisconnected]
        | some jobs => rw [if_pos ⟨hjob, rfl⟩, Option.map_some]
      rw [if_neg hjob, if_neg fun h => hjob h.1]
      by_cases hlogin : row.event = bytes "worker_login"
      · rw [if_pos hlogin, if_pos hlogin]
        dsimp only
        rw [hkeep]
        by_cases haccepted : row.status = bytes "accepted"
        · rw [if_pos haccepted, if_pos (decide_eq_true haccepted)]
        · rw [if_neg haccepted, if_neg
            (by rw [decide_eq_false haccepted]; exact Bool.false_ne_true)]
      rw [if_neg hlogin, if_neg hlogin]
      by_cases hdisconnected : row.event = bytes "worker_disconnected"
      · rw [if_pos hdisconnected, if_pos hdisconnected]
      · rw [if_neg hdisconnected, if_neg hdisconnected]

theorem event_ne_nil {row : Row} (haction : row.action ≠ .other) : row.event ≠ [] := by
  intro hnil
  apply haction
  unfold Row.action
  cases row.minerId with
  | none => rfl
  | some m =>
      dsimp only
      rw [hnil, if_neg (by decide), if_neg (by decide), if_neg (by decide), if_neg (by decide)]

structure Follows (rows : ℕ → Row) (s : State) (p : Schedule) : Prop where
  emitted : s.broadcasts.map Emission.row = p.sent.map rows
  sequences : s.broadcasts.map Emission.sequence = List.range' 1 p.sent.length
  counter : s.eventSequence = p.sent.length
  held : ∀ m, s.preLoginJobs m = (p.held m).map (List.map rows)

section Follows

variable {rows : ℕ → Row} {s : State} {p : Schedule} {now : ℕ → Clock}

theorem Follows.broadcast (h : Follows rows s p) (now : ℕ → Clock) {i : ℕ}
    (hevent : (rows i).event ≠ []) :
    Follows rows (s.broadcast now (rows i)) ⟨p.sent ++ [i], p.held⟩ := by
  unfold State.broadcast
  rw [if_neg hevent]
  constructor
  · dsimp only
    rw [List.map_append, h.emitted, List.map_append]
    rfl
  · dsimp only
    rw [List.map_append, h.sequences, List.length_append, List.length_singleton,
      List.range'_1_concat, h.counter, Nat.add_comm 1]
    rfl
  · dsimp only
    rw [h.counter, List.length_append, List.length_singleton]
  · exact h.held

theorem Follows.broadcastAll (h : Follows rows s p) (now : ℕ → Clock) (jobs : List ℕ)
    (hevent : ∀ i ∈ jobs, (rows i).event ≠ []) :
    Follows rows ((jobs.map rows).foldl (fun s job => s.broadcast now job) s)
      ⟨p.sent ++ jobs, p.held⟩ := by
  induction jobs generalizing s p with
  | nil =>
      rw [List.append_nil]
      exact h
  | cons i rest ih =>
      have hrest := ih (h.broadcast now (hevent i List.mem_cons_self)) fun j hj =>
        hevent j (List.mem_cons_of_mem _ hj)
      rw [List.append_assoc] at hrest
      exact hrest

theorem Follows.hold (h : Follows rows s p) (m : Int64) (jobs : Option (List ℕ)) :
    Follows rows
      { s with preLoginJobs := Function.update s.preLoginJobs m (jobs.map (List.map rows)) }
      ⟨p.sent, Function.update p.held m jobs⟩ := by
  refine ⟨h.emitted, h.sequences, h.counter, fun m' => ?_⟩
  dsimp only
  rw [Function.update_apply, Function.update_apply]
  by_cases hm : m' = m
  · rw [if_pos hm, if_pos hm]
  · rw [if_neg hm, if_neg hm]
    exact h.held m'

theorem Follows.step {n : ℕ} (h : Follows rows s (schedule rows n)) :
    Follows rows (s.publishOrdered now (rows n)) (schedule rows (n + 1)) := by
  have hstep : schedule rows (n + 1) = (schedule rows n).step n (rows n) := rfl
  rw [hstep, publishOrdered_eq]
  unfold Schedule.step
  cases haction : (rows n).action with
  | connected m =>
      exact (h.hold m (some [])).broadcast _
        (event_ne_nil (by rw [haction]; exact Action.noConfusion))
  | job m =>
      dsimp only
      rw [h.held m]
      cases (schedule rows n).held m with
      | none => exact h.broadcast _ (event_ne_nil (by rw [haction]; exact Action.noConfusion))
      | some jobs =>
          have hhold := h.hold m (some (jobs ++ [n]))
          rw [Option.map_some, List.map_append] at hhold
          exact hhold
  | login m accepted =>
      have hrow : (rows n).event ≠ [] := event_ne_nil (by rw [haction]; exact Action.noConfusion)
      have hsent := (h.broadcast now hrow).hold m none
      dsimp only
      rw [h.held m]
      cases accepted with
      | false => exact hsent
      | true =>
          rw [if_pos rfl, if_pos rfl]
          cases hheld : (schedule rows n).held m with
          | none => exact hsent
          | some jobs =>
              obtain ⟨c, -, rfl⟩ := held_eq_some.mp hheld
              have hall := hsent.broadcastAll now (jobsBetween rows m c n)
                fun i hi => event_ne_nil (by
                  rw [(mem_jobsBetween.mp hi).2.2]
                  exact Action.noConfusion)
              rw [List.append_assoc] at hall
              exact hall
  | disconnected m =>
      exact (h.hold m none).broadcast _ (event_ne_nil (by rw [haction]; exact Action.noConfusion))
  | other =>
      dsimp only
      by_cases hevent : (rows n).event = []
      · rw [if_pos hevent]
        unfold State.broadcast
        rw [if_pos hevent]
        exact h
      · rw [if_neg hevent]
        exact h.broadcast _ hevent

theorem follows (now : ℕ → Clock) (rows : ℕ → Row) (streamId : Text)
    (client : Option Client) (n : ℕ) :
    Follows rows (after now rows (started streamId client) n) (schedule rows n) := by
  induction n with
  | zero => exact ⟨rfl, rfl, rfl, fun _ => rfl⟩
  | succ n ih => exact ih.step

end Follows

/-- Whatever rows are published, those that are broadcast are numbered in increasing order and are
sent once. No job of a connection comes before a login of it. The jobs from before the login follow
it at once and in their order when it is accepted; they are never sent when it is rejected, or when
the miner disconnects first, and then nothing is held for the miner any more. -/
theorem publishOrdered_order (now : ℕ → Clock) (rows : ℕ → Row) (streamId : Text)
    (client : Option Client) (n : ℕ) :
    let s := after now rows (started streamId client) n
    ∃ sent : List ℕ, s.broadcasts.map Emission.row = sent.map rows ∧ sent.Nodup ∧
      (∀ i ∈ sent, i < n) ∧
      (s.broadcasts.map Emission.sequence).Pairwise (· < ·) ∧
      (∀ m c i, Connection rows m c i → (rows i).action = .job m → i ∈ sent →
        ∃ l accepted, Connection rows m c l ∧ (rows l).action = .login m accepted ∧
          [l, i].Sublist sent) ∧
      (∀ m c l, l < n → Waiting rows m c l → (rows l).action = .login m true →
        ∃ before later, sent = before ++ l :: jobsBetween rows m c l ++ later) ∧
      (∀ m c l, l < n → Waiting rows m c l → (rows l).action = .login m false →
        ∀ i ∈ jobsBetween rows m c l, i ∉ sent) ∧
      (∀ m c d, d < n → Waiting rows m c d → (rows d).action = .disconnected m →
        ∀ i ∈ jobsBetween rows m c d, i ∉ sent) ∧
      (∀ m d, d < n → (rows d).action = .disconnected m →
        (∀ k, d < k → k < n → (rows k).action ≠ .connected m) → s.preLoginJobs m = none) := by
  intro s
  have hfollows := follows now rows streamId client n
  refine ⟨(schedule rows n).sent, hfollows.emitted, sent_nodup rows n, fun i hi => sent_lt hi, ?_,
    fun m c i => login_before_job, ?_, ?_, ?_, ?_⟩
  · rw [hfollows.sequences]
    exact List.pairwise_lt_range'
  · intro m c l hl hwaiting hlogin
    obtain ⟨later, hlater⟩ := sent_mono rows (Nat.succ_le_of_lt hl)
    refine ⟨(schedule rows l).sent, later, ?_⟩
    rw [← hlater, sent_login hwaiting hlogin]
  · intro m c l hl hwaiting hlogin i hi
    refine dropped hwaiting (hlogin ▸ controls_login.mpr rfl) (fun h => ?_) hi hl
    rw [hlogin] at h
    exact absurd (Action.login.inj h).2 Bool.false_ne_true
  · intro m c d hd hwaiting hdisconnected i hi
    refine dropped hwaiting (hdisconnected ▸ controls_disconnected.mpr rfl) (fun h => ?_) hi hd
    rw [hdisconnected] at h
    exact Action.noConfusion h
  · intro m d hd hdisconnected hquiet
    rw [hfollows.held m]
    cases hheld : (schedule rows n).held m with
    | none => rfl
    | some jobs =>
        exfalso
        obtain ⟨c, hwaiting, -⟩ := held_eq_some.mp hheld
        rcases Nat.lt_trichotomy c d with hc | rfl | hc
        · exact hwaiting.quiet d hc hd (hdisconnected ▸ controls_disconnected.mpr rfl)
        · exact Action.noConfusion (hdisconnected.symm.trans hwaiting.connected)
        · exact hquiet c hc hwaiting.later hwaiting.connected

end LiveEventStream

end XmrigProxy
