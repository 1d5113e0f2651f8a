import XmrigProxy.RandomXVerifier

/-! Accounting of verification requests over whole runs. A request occupies the table
of pending requests from its admission until its callback is called or destroyed, the
counter of every owner follows that table, and only `verify` adds to it. Handlers that
never touch the table are separated from the five exits that do. -/
namespace XmrigProxy.VerifierAccounting

open RandomXVerifier Handler

variable {κ : Type}

def ownerCount (s : State κ) (owner : ℕ) : ℕ :=
  s.pending.count fun _ pending => pending.request.owner = owner

def pendingCount [DecidableEq κ] (s : State κ) (callback : κ) : ℕ :=
  s.pending.count fun _ pending => pending.callback = callback

/-- The counters of the owners are those of the table of pending requests. -/
structure Accounted (options : Options) (s : State κ) : Prop where
  counters : ∀ owner, s.pendingByOwner.find owner =
    if ownerCount s owner = 0 then none else some (ownerCount s owner)
  fresh : ∀ id, s.nextRequestId ≤ id → s.pending.find id = none
  total : s.pending.size ≤ options.maxQueue
  perOwner : ∀ owner, ownerCount s owner ≤ options.maxPendingPerMiner + 1

theorem Accounted.ownerPending {options : Options} {s : State κ} (h : Accounted options s)
    (owner : ℕ) : ownerPending s owner = ownerCount s owner := by
  unfold RandomXVerifier.ownerPending
  rw [h.counters]
  split <;> simp_all

theorem Accounted.frame {options : Options} {s s' : State κ} (h : Accounted options s)
    (hp : s'.pending = s.pending) (ho : s'.pendingByOwner = s.pendingByOwner)
    (hn : s.nextRequestId ≤ s'.nextRequestId) : Accounted options s' := by
  refine ⟨fun owner => ?_, fun id hid => ?_, ?_, fun owner => ?_⟩
  · rw [ho, ownerCount, hp]
    exact h.counters owner
  · rw [hp]
    exact h.fresh id (le_trans hn hid)
  · rw [hp]
    exact h.total
  · rw [ownerCount, hp]
    exact h.perOwner owner

def isCalled [DecidableEq κ] (callback : κ) : Output κ → Bool
  | .called c _ => c = callback
  | _ => false

def isDropped [DecidableEq κ] (callback : κ) : Output κ → Bool
  | .dropped c => c = callback
  | _ => false

/-- How often a callback was called or destroyed. -/
def finished [DecidableEq κ] (callback : κ) (out : List (Output κ)) : ℕ :=
  out.countP (isCalled callback) + out.countP (isDropped callback)

variable [DecidableEq κ]

@[simp] theorem finished_nil (callback : κ) : finished callback [] = 0 := rfl

@[simp] theorem finished_append (callback : κ) (xs ys : List (Output κ)) :
    finished callback (xs ++ ys) = finished callback xs + finished callback ys := by
  simp only [finished, List.countP_append]
  omega

@[simp] theorem finished_cons (callback : κ) (o : Output κ) (xs : List (Output κ)) :
    finished callback (o :: xs) = finished callback [o] + finished callback xs :=
  finished_append callback [o] xs

/-- Accounting together with the balance of every callback: `admitted` says how often it
entered the table. -/
structure Ledger (options : Options) (admitted : κ → ℕ) (s : State κ)
    (out : List (Output κ)) : Prop where
  accounted : Accounted options s
  balance : ∀ callback, pendingCount s callback + finished callback out = admitted callback

/-- An effect that leaves the requests and their callbacks alone. -/
structure Undisturbed (s : State κ) (r : Effect κ) : Prop where
  pending : r.1.pending = s.pending
  pendingByOwner : r.1.pendingByOwner = s.pendingByOwner
  nextRequestId : s.nextRequestId ≤ r.1.nextRequestId
  finished : ∀ callback, finished callback r.2 = 0

abbrev Quiet (f : Handler (State κ) (Output κ)) : Prop := ∀ s, Undisturbed s (f s)

section Quiet

variable {f g : Handler (State κ) (Output κ)} {options : Options}

theorem Ledger.undisturbed {admitted : κ → ℕ} {s : State κ} {tr : List (Output κ)}
    {r : Effect κ} (h : Ledger options admitted s tr) (hr : Undisturbed s r) :
    Ledger options admitted r.1 (tr ++ r.2) := by
  refine ⟨h.accounted.frame hr.pending hr.pendingByOwner hr.nextRequestId, fun callback => ?_⟩
  rw [pendingCount, hr.pending, finished_append, hr.finished, Nat.add_zero]
  exact h.balance callback

theorem Quiet.preserves (h : Quiet f) (options : Options) (admitted : κ → ℕ) :
    Preserves (Ledger options admitted) f :=
  fun s _ hs => hs.undisturbed (h s)

theorem undisturbed_refl (s : State κ) : Undisturbed s (s, []) :=
  ⟨rfl, rfl, le_rfl, fun _ => rfl⟩

theorem Undisturbed.trans {s : State κ} {r r' : Effect κ} (h : Undisturbed s r)
    (h' : Undisturbed r.1 r') : Undisturbed s (r'.1, r.2 ++ r'.2) := by
  refine ⟨h'.pending.trans h.pending, h'.pendingByOwner.trans h.pendingByOwner,
    h.nextRequestId.trans h'.nextRequestId, fun callback => ?_⟩
  rw [finished_append, h.finished, h'.finished]

theorem Quiet.seq (hf : Quiet f) (hg : Quiet g) : Quiet (seq f g) := fun s =>
  (hf s).trans (hg _)

theorem Quiet.forEach {α : Type} {f : α → Handler (State κ) (Output κ)}
    (hf : ∀ a, Quiet (f a)) (l : List α) : Quiet (forEach f l) := by
  induction l with
  | nil => exact undisturbed_refl
  | cons a rest ih => exact (hf a).seq ih

end Quiet

section Sending

variable (env : Env)

theorem quiet_disconnect (error : String) :
    Quiet fun s : State κ => disconnect env error false s := by
  intro s
  dsimp only [disconnect]
  split
  · exact undisturbed_refl s
  · exact ⟨rfl, rfl, le_rfl, fun _ => rfl⟩

theorem quiet_sendDocument (id : ℕ) (message : Message) :
    Quiet fun s : State κ => (sendDocument env id message s).2 := by
  intro s
  dsimp only [sendDocument]
  split
  · exact undisturbed_refl s
  · cases env.write id with
    | refused => exact undisturbed_refl s
    | failed => exact quiet_disconnect env _ s
    | sent => exact ⟨rfl, rfl, le_rfl, fun _ => rfl⟩

theorem quiet_sendControl (op : ControlOp) (seedHash : String) :
    Quiet fun s : State κ => (sendControl env op seedHash s).2 := by
  intro s
  dsimp only [sendControl]
  split
  · exact undisturbed_refl s
  · have h := quiet_sendDocument env s.nextRequestId (.control op seedHash)
      { s with
        nextRequestId := s.nextRequestId + 1
        controls := s.controls.insert s.nextRequestId ⟨op, seedHash, env.now⟩ }
    have hn := Nat.le_of_succ_le h.nextRequestId
    split
    · exact ⟨h.pending, h.pendingByOwner, hn, h.finished⟩
    · exact ⟨h.pending, h.pendingByOwner, hn, h.finished⟩

theorem quiet_requestSeed (seedHash : String) :
    Quiet (requestSeed (κ := κ) env seedHash) := by
  intro s
  have h := quiet_sendControl env .prepareSeed seedHash s
  dsimp only [requestSeed]
  split
  · exact ⟨h.pending, h.pendingByOwner, h.nextRequestId, h.finished⟩
  · exact h

theorem quiet_requestStats : Quiet (requestStats (κ := κ) env) := by
  intro s
  dsimp only [requestStats]
  split
  · exact ⟨rfl, rfl, le_rfl, fun _ => rfl⟩
  · have h := quiet_sendControl env .stats ""
      { s with nextStatsAtMs := env.now + statsIntervalMs }
    exact ⟨h.pending, h.pendingByOwner, h.nextRequestId, h.finished⟩

theorem quiet_requestWantedSeeds : Quiet (requestWantedSeeds (κ := κ) env) := by
  intro s
  refine Quiet.forEach (fun entry s => ?_) _ s
  split
  · exact quiet_requestSeed env entry.2 s
  · exact undisturbed_refl s

theorem quiet_prepareSeed (seedHash : String) :
    Quiet (prepareSeed (κ := κ) env seedHash) := by
  intro s
  dsimp only [prepareSeed]
  split
  · exact undisturbed_refl s
  · split
    · have h := quiet_requestSeed env seedHash (retainSeed env seedHash s)
      exact ⟨h.pending, h.pendingByOwner, h.nextRequestId, h.finished⟩
    · exact ⟨rfl, rfl, le_rfl, fun _ => rfl⟩

theorem quiet_releaseSeed (seedHash : String) :
    Quiet (releaseSeed (κ := κ) env seedHash) := by
  intro s
  dsimp only [releaseSeed]
  split
  · have h := quiet_sendControl env .releaseSeed seedHash s
    exact ⟨h.pending, h.pendingByOwner, h.nextRequestId, h.finished⟩
  · exact ⟨rfl, rfl, le_rfl, fun _ => rfl⟩

theorem undisturbed_connect (s : State κ) : Undisturbed s (connect env s, []) := by
  unfold connect
  split
  · exact undisturbed_refl s
  · split <;> exact ⟨rfl, rfl, le_rfl, fun _ => rfl⟩

theorem quiet_maintain : Quiet (maintain (κ := κ) env) := by
  refine Quiet.seq (fun s => ?_) (Quiet.seq (fun s => ?_) fun s => ?_)
  · exact Quiet.forEach (quiet_releaseSeed env) _ s
  · split
    · refine Quiet.seq (quiet_requestWantedSeeds env) (fun s => ?_) s
      split
      · exact quiet_requestStats env s
      · exact undisturbed_refl s
    · exact undisturbed_refl s
  · split
    · exact undisturbed_connect env s
    · exact undisturbed_refl s

theorem undisturbed_expireControl (id : ℕ) (control : Control) (s : State κ) :
    Undisturbed s (expireControl env id control s) :=
  ⟨rfl, rfl, le_rfl, fun _ => rfl⟩

end Sending

section Exits

variable (env : Env) (options : Options) (admitted : κ → ℕ)

theorem finished_calls (callback : κ) (entries : List (ℕ × Pending κ))
    (result : ℕ × Pending κ → Result) :
    finished callback (entries.map fun e => .called e.2.callback (result e)) =
      entries.countP fun e => e.2.callback = callback := by
  simp [finished, List.countP_map, Function.comp_def, isCalled, isDropped]

theorem finished_drops (callback : κ) (entries : List (ℕ × Pending κ)) :
    finished callback (entries.map fun e => .dropped e.2.callback) =
      entries.countP fun e => e.2.callback = callback := by
  simp [finished, List.countP_map, Function.comp_def, isCalled, isDropped]

theorem preserves_failAll (error : String) :
    Preserves (Ledger options admitted) (failAll env error) := by
  intro s tr h
  refine ⟨⟨fun owner => ?_, fun id _ => rfl, Nat.zero_le _, fun owner => Nat.zero_le _⟩,
    fun callback => ?_⟩
  · simp [failAll, ownerCount]
  · have hb := h.balance callback
    have hf := finished_calls callback s.pending.entries fun e =>
      ⟨false, "", error, latency env e.2.sentAtMs, e.1⟩
    have hout : (failAll env error s).2 = s.pending.entries.map fun e =>
      .called e.2.callback ⟨false, "", error, latency env e.2.sentAtMs, e.1⟩ := rfl
    have hempty : pendingCount (failAll env error s).1 callback = 0 := rfl
    rw [hempty, finished_append, hout, hf]
    simp only [pendingCount, Table.count] at hb
    omega

theorem preserves_disconnect (error : String) (failPending : Bool) :
    Preserves (Ledger options admitted) (disconnect env error failPending) := by
  intro s tr h
  cases failPending with
  | false => exact h.undisturbed (quiet_disconnect env error s)
  | true =>
      by_cases hc : (!s.connected && !s.pipe) = true
      · simpa [disconnect, hc] using h
      · have hf := preserves_failAll env options admitted error
          { s with
            connected := false
            ready := false
            controls := ∅
            seeds := s.seeds.map fun _ seed => { seed with status := .wanted, retryAtMs := 0 } }
          tr ⟨h.accounted.frame rfl rfl le_rfl, h.balance⟩
        simp only [disconnect, hc, if_true]
        refine ⟨hf.accounted.frame rfl rfl le_rfl, fun callback => ?_⟩
        have hb := hf.balance callback
        simp only [finished_append] at hb ⊢
        exact hb

theorem preserves_stop : Preserves (Ledger options admitted) (stop env) := by
  intro s tr h
  by_cases hs : s.stopping = true
  · simpa [stop, hs] using h
  · have hf := preserves_failAll env options admitted "verifier stopped"
      { s with stopping := true } tr ⟨h.accounted.frame rfl rfl le_rfl, h.balance⟩
    simp only [stop, hs]
    exact ⟨hf.accounted.frame rfl rfl le_rfl, hf.balance⟩

theorem find_releaseOwner (counters : Table ℕ ℕ) (owner o count : ℕ)
    (hcount : counters.find owner = some (count + 1)) :
    (releaseOwner counters owner).find o =
      if o = owner then (if count = 0 then none else some count) else counters.find o := by
  simp only [releaseOwner, hcount, Nat.add_sub_cancel]
  by_cases ho : o = owner
  · by_cases hz : count = 0 <;> simp [ho, hz]
  · by_cases hz : count = 0 <;> simp [ho, hz, Table.find_erase, Table.find_insert]

variable {s : State κ} {tr : List (Output κ)}

theorem Ledger.complete {id : ℕ} {pending : Pending κ} (h : Ledger options admitted s tr)
    (hfind : s.pending.find id = some pending) (result : Result) :
    Ledger options admitted (complete id pending result s).1
      (tr ++ (RandomXVerifier.complete id pending result s).2) := by
  have hcount : ∀ o, ownerCount s o =
      ownerCount (RandomXVerifier.complete id pending result s).1 o +
        if pending.request.owner = o then 1 else 0 := fun o => by
    have := s.pending.count_erase (fun _ p => p.request.owner = o) hfind
    simp only [decide_eq_true_eq] at this
    exact this
  have hsize := s.pending.size_erase hfind
  have hown := h.accounted.counters pending.request.owner
  have hpos := hcount pending.request.owner
  simp only [if_true] at hpos
  rw [hpos, if_neg (by omega)] at hown
  refine ⟨⟨fun o => ?_, fun i hi => ?_, ?_, fun o => ?_⟩, fun callback => ?_⟩
  · have hfind' := find_releaseOwner s.pendingByOwner pending.request.owner o _ hown
    apply hfind'.trans
    by_cases ho : o = pending.request.owner
    · simp [ho]
    · have hc := hcount o
      rw [if_neg (Ne.symm ho), Nat.add_zero] at hc
      rw [if_neg ho, h.accounted.counters, hc]
  · have hi' := h.accounted.fresh i hi
    have hne : i ≠ id := fun heq => by simp [← heq, hi'] at hfind
    exact (s.pending.find_erase_of_ne hne).trans hi'
  · have := h.accounted.total
    change (s.pending.erase id).size ≤ options.maxQueue
    omega
  · have := h.accounted.perOwner o
    have := hcount o
    omega
  · have hb := h.balance callback
    have hc := s.pending.count_erase (fun _ p => p.callback = callback) hfind
    have hout : finished callback (RandomXVerifier.complete id pending result s).2 =
        if pending.callback = callback then 1 else 0 := by
      by_cases hcb : pending.callback = callback <;>
        simp [RandomXVerifier.complete, finished, isCalled, isDropped, hcb]
    rw [finished_append, hout]
    unfold pendingCount at hb ⊢
    simp only [decide_eq_true_eq] at hc
    change (s.pending.erase id).count _ + _ = _
    omega

theorem preserves_expireRequest (id : ℕ) :
    Preserves (Ledger options admitted) (expireRequest env id) := by
  intro s tr h
  unfold expireRequest
  cases hfind : s.pending.find id with
  | none => simpa using h
  | some pending => exact h.complete options admitted hfind _

theorem preserves_expireControls (entries : List (ℕ × Control)) :
    Preserves (Ledger options admitted) fun s => (expireControls options env entries s).2 := by
  induction entries with
  | nil => exact Quiet.preserves undisturbed_refl options admitted
  | cons entry rest ih =>
      obtain ⟨id, control⟩ := entry
      intro s tr h
      simp only [expireControls]
      split
      · exact ih s tr h
      · split
        · exact preserves_disconnect env options admitted _ true s tr h
        · have hone := h.undisturbed (undisturbed_expireControl env id control s)
          simpa [List.append_assoc] using ih _ _ hone

theorem preserves_tick : Preserves (Ledger options admitted) (tick options env) := by
  refine Preserves.seq (fun s => Preserves.forEach
    (preserves_expireRequest env options admitted) _ s) fun s tr h => ?_
  have hc := preserves_expireControls env options admitted s.controls.entries s tr h
  dsimp only
  split
  · have hm := (quiet_maintain env).preserves options admitted _ _ hc
    simpa [List.append_assoc] using hm
  · exact hc

theorem preserves_cancelOwner (owner : ℕ) :
    Preserves (Ledger options admitted) (cancelOwner owner) := by
  intro s tr h
  have hcount : ∀ o, ownerCount (cancelOwner owner s).1 o =
      if o = owner then 0 else ownerCount s o := fun o => by
    have hfilter := s.pending.count_filter (fun _ p => decide (p.request.owner = o))
      fun _ p => decide (p.request.owner ≠ owner)
    apply hfilter.trans
    by_cases ho : o = owner
    · rw [if_pos ho, Table.count_eq_zero]
      intro k p _
      by_cases hp : p.request.owner = o <;> simp [hp, ho]
    · rw [if_neg ho, ownerCount]
      congr
      funext k p
      by_cases hp : p.request.owner = o <;> simp [hp, ho]
  refine ⟨⟨fun o => ?_, fun id hid => ?_, ?_, fun o => ?_⟩, fun callback => ?_⟩
  · rw [hcount]
    apply (s.pendingByOwner.find_erase owner o).trans
    by_cases ho : o = owner
    · simp [ho]
    · simp only [ho, if_false]
      exact h.accounted.counters o
  · apply (s.pending.find_filter _ id).trans
    rw [h.accounted.fresh id hid, Option.filter_none]
  · exact (s.pending.size_filter_le _).trans h.accounted.total
  · have := h.accounted.perOwner o
    rw [hcount]
    split <;> omega
  · have hb := h.balance callback
    have hdrop := finished_drops callback
      (s.pending.filter fun _ p => decide (p.request.owner = owner)).entries
    have hsplit := s.pending.count_split (fun _ p => p.callback = callback)
      fun _ p => decide (p.request.owner = owner)
    have hkept : pendingCount (cancelOwner owner s).1 callback =
        (s.pending.filter fun _ p => !decide (p.request.owner = owner)).count
          fun _ p => p.callback = callback := by
      simp only [pendingCount, cancelOwner, ne_eq, decide_not]
    have hout : finished callback (cancelOwner owner s).2 =
        (s.pending.filter fun _ p => decide (p.request.owner = owner)).count
          fun _ p => p.callback = callback := hdrop
    rw [finished_append, hkept, hout]
    simp only [pendingCount] at hb
    omega

theorem preserves_controlAnswered (doc : Json) (id : ℕ) (control : Control) :
    Preserves (Ledger options admitted) (controlAnswered env doc id control) := by
  intro s tr h
  unfold controlAnswered
  dsimp only
  cases control.op with
  | hello =>
      dsimp only
      split
      · exact preserves_disconnect env options admitted _ true s tr h
      · split
        · exact preserves_disconnect env options admitted _ true s tr h
        · have hq := Quiet.seq (quiet_requestWantedSeeds (κ := κ) env) (quiet_requestStats env)
            { s with vmPoolSize := doc.getUint "vm_pool_size" 0, ready := true }
          exact h.undisturbed
            ⟨hq.pending, hq.pendingByOwner, hq.nextRequestId, hq.finished⟩
  | prepareSeed =>
      dsimp only
      split
      · exact preserves_disconnect env options admitted _ true s tr h
      · exact h.undisturbed ⟨rfl, rfl, le_rfl, fun _ => rfl⟩
  | releaseSeed => exact h.undisturbed ⟨rfl, rfl, le_rfl, fun _ => rfl⟩
  | stats => exact h.undisturbed ⟨rfl, rfl, le_rfl, fun _ => rfl⟩

theorem preserves_handleResponse (doc : Json) :
    Preserves (Ledger options admitted) (handleResponse env doc) := by
  intro s tr h
  unfold handleResponse
  split
  · exact preserves_disconnect env options admitted _ true s tr h
  · dsimp only
    split
    · exact preserves_disconnect env options admitted _ true s tr h
    · split
      · exact preserves_controlAnswered env options admitted doc _ _ _ tr
          ⟨h.accounted.frame rfl rfl le_rfl, h.balance⟩
      · split
        · simpa using h
        · next hfind => exact h.complete options admitted hfind _

theorem preserves_onConnect (accepted : Bool) :
    Preserves (Ledger options admitted) (onConnect env accepted) := by
  intro s tr h
  unfold onConnect
  split
  · simpa using h
  · split
    · exact preserves_disconnect env options admitted _ true s tr h
    · have hq := quiet_sendControl env .hello "" { s with connected := true, ready := false }
      have hs := h.undisturbed
        ⟨hq.pending, hq.pendingByOwner, hq.nextRequestId, hq.finished⟩
      dsimp only
      split
      · exact hs
      · simpa [List.append_assoc] using
          preserves_disconnect env options admitted "failed to send verifier hello" true _ _ hs

theorem undisturbed_candidate (owner : ℕ) (s : State κ) :
    Undisturbed s ((allowCandidate options env owner s).2, []) ∧
      Undisturbed s ((allowEmergencyCandidate options env owner s).2, []) := by
  constructor
  · unfold allowCandidate
    split
    · exact undisturbed_refl s
    · dsimp only
      split <;> exact ⟨rfl, rfl, le_rfl, fun _ => rfl⟩
  · unfold allowEmergencyCandidate
    split
    · exact undisturbed_refl s
    · dsimp only
      split <;> exact ⟨rfl, rfl, le_rfl, fun _ => rfl⟩

end Exits

section Runs

variable (env : Env) (options : Options)

theorem preserves_handle (admitted : ℕ → ℕ) (event : Event) :
    Preserves (Ledger options admitted) (handle options env event) := by
  intro s tr h
  cases event with
  | start =>
      dsimp only [handle]
      split
      · simpa using h
      · have hq := undisturbed_connect (κ := ℕ) env { s with stopping := false }
        exact h.undisturbed ⟨hq.pending, hq.pendingByOwner, hq.nextRequestId, hq.finished⟩
  | stop => exact preserves_stop env options admitted s tr h
  | tick => exact preserves_tick env options admitted s tr h
  | onConnect accepted =>
      dsimp only [handle]
      split
      · exact preserves_onConnect env options admitted accepted s tr h
      · simpa using h
  | frame doc =>
      dsimp only [handle]
      split
      · cases doc with
        | none => exact preserves_disconnect env options admitted _ true s tr h
        | some doc => exact preserves_handleResponse env options admitted doc s tr h
      · simpa using h
  | closed error => exact preserves_disconnect env options admitted error true s tr h
  | verify request hasCallback => simpa [handle] using h
  | cancelOwner owner => exact preserves_cancelOwner options admitted owner s tr h
  | prepareSeed seedHash => exact (quiet_prepareSeed env seedHash).preserves options admitted s tr h
  | allowCandidate owner => exact h.undisturbed (undisturbed_candidate env options owner s).1
  | allowEmergencyCandidate owner =>
      exact h.undisturbed (undisturbed_candidate env options owner s).2

/-- What `verify` does to the requests: nothing when it refuses, and otherwise one new
entry under a fresh id, which the checks allowed. -/
theorem verify_cases (request : Request) (callback : Option κ) (s : State κ) :
    (verify options env request callback s).1 = false ∧
        Undisturbed s (verify options env request callback s).2 ∨
      ∃ handle after out, callback = some handle ∧ admits options request s = true ∧
        Undisturbed { s with nextRequestId := s.nextRequestId + 1 } (after, out) ∧
        verify options env request callback s = (true, { after with
          pending := after.pending.insert s.nextRequestId ⟨request, handle, env.now⟩
          pendingByOwner := after.pendingByOwner.insert request.owner
            (ownerPending after request.owner + 1) }, out) := by
  cases callback with
  | none => exact Or.inl ⟨rfl, undisturbed_refl s⟩
  | some handle =>
      have hq := quiet_sendDocument env s.nextRequestId (.verify request)
        { s with nextRequestId := s.nextRequestId + 1 }
      cases hadm : admits options request s with
      | false =>
          exact Or.inl ⟨by simp [verify, hadm], by simpa [verify, hadm] using undisturbed_refl s⟩
      | true =>
          rcases hd : sendDocument env s.nextRequestId (.verify request)
            { s with nextRequestId := s.nextRequestId + 1 } with ⟨sent, after, out⟩
          dsimp only at hq
          rw [hd] at hq
          cases sent with
          | false =>
              refine Or.inl ⟨by simp [verify, hadm, hd], ?_⟩
              simp only [verify, hadm, hd]
              exact ⟨hq.pending, hq.pendingByOwner, Nat.le_of_succ_le hq.nextRequestId,
                hq.finished⟩
          | true =>
              exact Or.inr ⟨handle, after, out, rfl, rfl, hq, by simp [verify, hadm, hd]⟩

/-- Admitting a request: one new entry, counted for its owner and its callback. -/
theorem Ledger.admit {admitted : κ → ℕ} {s after : State κ} {tr out : List (Output κ)}
    {request : Request} (call : κ) (h : Ledger options admitted s tr)
    (hadm : admits options request s = true)
    (hafter : Undisturbed { s with nextRequestId := s.nextRequestId + 1 } (after, out)) :
    Ledger options (fun c => admitted c + if call = c then 1 else 0)
      { after with
        pending := after.pending.insert s.nextRequestId ⟨request, call, env.now⟩
        pendingByOwner := after.pendingByOwner.insert request.owner
          (ownerPending after request.owner + 1) } (tr ++ out) := by
  have hpending : after.pending = s.pending := hafter.pending
  have hcounters : after.pendingByOwner = s.pendingByOwner := hafter.pendingByOwner
  have hid : s.nextRequestId + 1 ≤ after.nextRequestId := hafter.nextRequestId
  have hfresh := h.accounted.fresh s.nextRequestId le_rfl
  have howner : ownerPending after request.owner = ownerCount s request.owner := by
    rw [← h.accounted.ownerPending]
    unfold RandomXVerifier.ownerPending
    rw [hcounters]
  have hroom := hadm
  simp only [admits, Bool.and_eq_true, decide_eq_true_eq, h.accounted.ownerPending] at hroom
  have hlimit : admissionLimit options request.priority ≤ options.maxQueue := by
    unfold admissionLimit
    split <;> omega
  have hown : ownerLimit options request.priority ≤ options.maxPendingPerMiner + 1 := by
    unfold ownerLimit
    split <;> omega
  have hcount : ∀ o, ownerCount { after with
      pending := after.pending.insert s.nextRequestId ⟨request, call, env.now⟩
      pendingByOwner := after.pendingByOwner.insert request.owner
        (ownerPending after request.owner + 1) } o =
        ownerCount s o + if request.owner = o then 1 else 0 := fun o => by
    have := s.pending.count_insert_of_fresh (v := ⟨request, call, env.now⟩)
      (fun _ p => p.request.owner = o) hfresh
    simp only [decide_eq_true_eq] at this
    simp only [ownerCount, hpending]
    exact this
  refine ⟨⟨fun o => ?_, fun id hlt => ?_, ?_, fun o => ?_⟩, fun c => ?_⟩
  · rw [hcount]
    simp only [hcounters, howner, Table.find_insert]
    by_cases ho : o = request.owner
    · simp [ho]
    · rw [if_neg ho, h.accounted.counters, if_neg (Ne.symm ho)]
      rfl
  · dsimp only at hlt ⊢
    rw [hpending, Table.find_insert_of_ne _ (by omega)]
    exact h.accounted.fresh id (by omega)
  · dsimp only
    rw [hpending, s.pending.size_insert_of_fresh hfresh]
    omega
  · rw [hcount]
    have := h.accounted.perOwner o
    by_cases ho : request.owner = o
    · rw [ho] at hroom
      rw [if_pos ho]
      omega
    · rw [if_neg ho]
      exact this
  · have hb := h.balance c
    have hf := hafter.finished c
    have := s.pending.count_insert_of_fresh (v := ⟨request, call, env.now⟩)
      (fun _ p => p.callback = c) hfresh
    simp only [decide_eq_true_eq] at this
    simp only [pendingCount, hpending, finished_append] at hb hf ⊢
    rw [this, hf]
    omega

def outputs (tr : List Observation) : List (Output ℕ) :=
  tr.filterMap fun
    | .output o => some o
    | _ => none

theorem outputs_append (xs ys : List Observation) :
    outputs (xs ++ ys) = outputs xs ++ outputs ys := List.filterMap_append

theorem outputs_map (out : List (Output ℕ)) : outputs (out.map .output) = out := by
  simp [outputs, List.filterMap_map]

theorem outputs_verdict (admitted : Bool) (call : ℕ) :
    outputs [if admitted then .admitted call else .refused call] = [] := by
  cases admitted <;> rfl

theorem count_verdict_map (out : List (Output ℕ)) (call : ℕ) :
    (out.map Observation.output).count (.admitted call) = 0 ∧
      (out.map Observation.output).count (.refused call) = 0 := by
  constructor <;> exact List.count_eq_zero.mpr (by simp)

/-- Every call of `verify` made so far has one verdict, and the admitted ones balance. -/
structure Balanced (options : Options) (sys : System) (tr : List Observation) : Prop where
  ledger : Ledger options (fun call => tr.count (.admitted call)) sys.verifier (outputs tr)
  verdicts : ∀ call, tr.count (.admitted call) + tr.count (.refused call) =
    if call < sys.calls then 1 else 0

theorem balanced_initial : Balanced options {} [] := by
  refine ⟨⟨⟨fun owner => rfl, fun id _ => rfl, Nat.zero_le _, fun _ => Nat.zero_le _⟩,
    fun _ => rfl⟩, fun call => by simp⟩

theorem balanced_verify {sys : System} {tr : List Observation} (request : Request)
    (hasCallback : Bool) (h : Balanced options sys tr) :
    Balanced options (step options sys (env, .verify request hasCallback)).1
      (tr ++ (step options sys (env, .verify request hasCallback)).2) := by
  have hout := fun (out : List (Output ℕ)) call => count_verdict_map out call
  have hold := h.verdicts sys.calls
  rw [if_neg (lt_irrefl _)] at hold
  rcases verify_cases env options request (if hasCallback then some sys.calls else none)
    sys.verifier with ⟨hfalse, hund⟩ | ⟨call, after, out, hcall, hadm, hund, heq⟩
  · have hl := h.ledger.undisturbed hund
    rw [← outputs_map (verify _ _ _ _ _).2.2, ← outputs_append] at hl
    simp only [step, hfalse]
    refine ⟨⟨hl.accounted, fun c => ?_⟩, fun c => ?_⟩
    · have := hl.balance c
      rw [← List.append_assoc, outputs_append _ [_]]
      simpa [List.count_append, hout, outputs] using this
    · have := h.verdicts c
      by_cases hc : c = sys.calls
      · subst hc
        simp [List.count_append, hout]
        omega
      · have hlt : c < sys.calls + 1 ↔ c < sys.calls := by omega
        simp only [hlt]
        simpa [List.count_append, hout, Ne.symm hc] using this
  · have hcalls : call = sys.calls := by
      cases hasCallback <;> simp_all
    subst hcalls
    have hl := Ledger.admit env options sys.calls h.ledger hadm hund
    simp only [step, heq]
    refine ⟨⟨hl.accounted, fun c => ?_⟩, fun c => ?_⟩
    · have hb := hl.balance c
      rw [← List.append_assoc, outputs_append _ [_], outputs_append, outputs_map]
      simp only [List.count_append, hout]
      have hone : List.count (Observation.admitted c) [.admitted sys.calls] =
          if sys.calls = c then 1 else 0 := by
        by_cases hc : sys.calls = c <;> simp [hc]
      simpa [hone, outputs] using hb
    · have := h.verdicts c
      by_cases hc : c = sys.calls
      · subst hc
        simp [List.count_append, hout]
        omega
      · have hlt : c < sys.calls + 1 ↔ c < sys.calls := by omega
        simp only [hlt]
        simpa [List.count_append, hout, Ne.symm hc] using this

theorem balanced_step (sys : System) (tr : List Observation) (e : Env × Event)
    (h : Balanced options sys tr) :
    Balanced options (step options sys e).1 (tr ++ (step options sys e).2) := by
  obtain ⟨env, event⟩ := e
  have quiet : ∀ (after : State ℕ) (out : List (Output ℕ)),
      Ledger options (fun call => tr.count (.admitted call)) after (outputs tr ++ out) →
      Balanced options { sys with verifier := after } (tr ++ out.map .output) := by
    intro after out hl
    refine ⟨⟨hl.accounted, fun call => ?_⟩, fun call => ?_⟩
    · rw [outputs_append, outputs_map, List.count_append, (count_verdict_map out call).1]
      exact hl.balance call
    · simp only [List.count_append, count_verdict_map]
      exact h.verdicts call
  by_cases hv : ∃ request hasCallback, event = .verify request hasCallback
  · obtain ⟨request, hasCallback, rfl⟩ := hv
    exact balanced_verify env options request hasCallback h
  · have hh := preserves_handle env options _ event _ _ h.ledger
    have := quiet _ _ hh
    cases event with
    | verify request hasCallback => exact absurd ⟨request, hasCallback, rfl⟩ hv
    | _ => exact this

def cancelledCount (tr : List Observation) (call : ℕ) : ℕ :=
  (outputs tr).countP (isDropped call)

def calledCount (tr : List Observation) (call : ℕ) : ℕ :=
  (outputs tr).countP (isCalled call)

/-- The accounting of verification requests after `k` steps of a run. -/
structure Accounting (options : Options) (es : ℕ → Env × Event) (k : ℕ) : Prop where
  owner_counters : ∀ owner, ((machine options).state es k).verifier.pendingByOwner.find owner =
    if ownerCount ((machine options).state es k).verifier owner = 0 then none
    else some (ownerCount ((machine options).state es k).verifier owner)
  total_bound : ((machine options).state es k).verifier.pending.size ≤ options.maxQueue
  owner_bound : ∀ owner, ownerCount ((machine options).state es k).verifier owner ≤
    options.maxPendingPerMiner + 1
  admission : ∀ env request hasCallback, es k = (env, .verify request hasCallback) →
    request.priority = false →
    .admitted ((machine options).state es k).calls ∈ (machine options).emitted es k →
    ((machine options).state es k).verifier.pending.size <
        options.maxQueue - candidateReserve options ∧
      ownerCount ((machine options).state es k).verifier request.owner <
        options.maxPendingPerMiner
  one_state : ∀ call, .admitted call ∈ (machine options).trace es k →
    pendingCount ((machine options).state es k).verifier call +
      cancelledCount ((machine options).trace es k) call +
      calledCount ((machine options).trace es k) call = 1
  refused_silent : ∀ call, .refused call ∈ (machine options).trace es k →
    pendingCount ((machine options).state es k).verifier call = 0 ∧
      calledCount ((machine options).trace es k) call = 0

theorem reachable_balanced (es : ℕ → Env × Event) (k : ℕ) :
    Balanced options ((machine options).state es k) ((machine options).trace es k) :=
  Machine.invariant_trace (balanced_initial options) (balanced_step options) k

theorem admitted_room {options : Options} {sys : System} {tr : List Observation} {env : Env}
    {request : Request} {hasCallback : Bool} (h : Balanced options sys tr)
    (hprio : request.priority = false)
    (hadm : .admitted sys.calls ∈ (step options sys (env, .verify request hasCallback)).2) :
    sys.verifier.pending.size < options.maxQueue - candidateReserve options ∧
      ownerCount sys.verifier request.owner < options.maxPendingPerMiner := by
  rcases verify_cases env options request (if hasCallback then some sys.calls else none)
    sys.verifier with ⟨hfalse, -⟩ | ⟨call, after, out, -, hroom, -, -⟩
  · simp [step, hfalse] at hadm
  · simp only [admits, hprio, admissionLimit, ownerLimit, Bool.and_eq_true, decide_eq_true_eq,
      h.ledger.accounted.ownerPending, Bool.false_eq_true, if_false] at hroom
    exact ⟨hroom.1.1.1.1.1.2, hroom.1.1.1.1.2⟩

/-- In every run, at every step, the requests of the verifier are accounted for. -/
theorem verifier_request_accounting (es : ℕ → Env × Event) (k : ℕ) :
    Accounting options es k := by
  have h := reachable_balanced options es k
  have hsplit : ∀ call, finished call (outputs ((machine options).trace es k)) =
      calledCount ((machine options).trace es k) call +
        cancelledCount ((machine options).trace es k) call := fun _ => rfl
  refine ⟨h.ledger.accounted.counters, h.ledger.accounted.total, h.ledger.accounted.perOwner,
    fun env request hasCallback he hprio hadm => ?_, fun call hadm => ?_, fun call href => ?_⟩
  · rw [Machine.emitted, he] at hadm
    exact admitted_room h hprio hadm
  · have hpos := List.count_pos_iff.mpr hadm
    have hv := h.verdicts call
    have hb := h.ledger.balance call
    rw [hsplit] at hb
    split at hv <;> omega
  · have hpos := List.count_pos_iff.mpr href
    have hv := h.verdicts call
    have hb := h.ledger.balance call
    rw [hsplit] at hb
    split at hv <;> omega

end Runs

end XmrigProxy.VerifierAccounting
