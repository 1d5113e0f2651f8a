import XmrigProxy.ReservationRuns

/-! Soundness of local acceptance with a verifier. A share is credited only in the step in
which a response answers its own request, so the request is traced back to the submission
that created it, and the job of that submission to the one that the miner still retains. -/
namespace XmrigProxy.VerifierSoundness

open ShareVerification ReservationLifecycle VerifierAccounting VerifierAnswers

/-- The share counts without going upstream. -/
def isCredited : Verdict → Bool
  | .credited _ _ | .creditedUnverified => true
  | _ => false

section Completions

variable {env : Env} {key : ℕ} {share : PendingShare} {s : System}

theorem submitPendingShare_uncredited (result : String) :
    isCredited (submitPendingShare env key share result s).verdict = false := by
  unfold submitPendingShare
  dsimp only
  split
  · rfl
  · split <;> rfl

theorem failVerification_uncredited (options : RandomXVerifier.Options) :
    isCredited (failVerification env options key share s).verdict = false := by
  unfold failVerification
  split
  · dsimp only
    split
    · exact submitPendingShare_uncredited share.claimedHash
    · rfl
  · rfl

/-- A share is credited only when the computed hash is the claimed one and its difficulty
lies between that of the miner and that of the network. -/
theorem decideShare_credited {hash : String} {exact : Bool}
    (h : isCredited (decideShare env key share hash exact s).verdict = true) :
    exact = true ∧ share.minerDiff ≤ JobResult.difficulty hash ∧
      JobResult.difficulty hash < share.networkDiff ∧
      (decideShare env key share hash exact s).verdict = .credited share hash := by
  unfold decideShare at h ⊢
  dsimp only at h ⊢
  split at h
  · rw [submitPendingShare_uncredited] at h
    cases h
  · next hcandidate =>
    split at h
    · cases h
    · next hexact =>
      split at h
      · cases h
      · next hlow =>
        split at h
        · cases h
        · next hminer =>
          rw [if_neg hcandidate, if_neg hexact, if_neg hlow, if_neg hminer]
          refine ⟨by simpa using hexact, by omega, ?_, rfl⟩
          omega

/-- The conditions under which a completed share counts locally. -/
structure Credited (callback : Callback) (result : RandomXVerifier.Result) (s : System)
    (verdict : Verdict) : Prop where
  ok : result.ok = true
  same : RandomXVerifier.sameHash callback.share.claimedHash result.hash = true
  minerDiff : callback.share.minerDiff ≤ JobResult.difficulty result.hash
  networkDiff : JobResult.difficulty result.hash < callback.share.networkDiff
  retained : ∃ m, s.miners.find callback.key = some m ∧ m.stage ≠ .closing ∧
    stillRetained s.now callback.share m = true
  verdict : verdict = .credited callback.share result.hash

theorem completeVerification_credited {options : RandomXVerifier.Options} {callback : Callback}
    {result : RandomXVerifier.Result}
    (h : isCredited (completeVerification env options callback result s).verdict = true) :
    Credited callback result s (completeVerification env options callback result s).verdict := by
  cases hm : s.miners.find callback.key with
  | none =>
      simp only [completeVerification, hm] at h
      cases h
  | some m =>
      by_cases hstage : m.stage = .closing
      · simp only [completeVerification, hm, if_pos hstage] at h
        cases h
      · cases hretained : stillRetained s.now callback.share m with
        | false =>
            simp only [completeVerification, hm, if_neg hstage, hretained, Bool.not_false,
              if_true] at h
            cases h
        | true =>
            cases hok : result.ok with
            | false =>
                simp only [completeVerification, hm, if_neg hstage, hretained, hok, Bool.not_true,
                  Bool.false_eq_true, if_false, Bool.not_false, if_true] at h
                rw [failVerification_uncredited] at h
                cases h
            | true =>
                have hcomplete : completeVerification env options callback result s =
                    judgeShare env callback.key callback.share result.hash s := by
                  simp [completeVerification, hm, hstage, hretained, hok]
                rw [hcomplete] at h ⊢
                unfold judgeShare at h ⊢
                dsimp only at h ⊢
                split at h
                · next hforeign =>
                  exfalso
                  have hexact : RandomXVerifier.sameHash callback.share.claimedHash result.hash =
                      false := by
                    simp only [Bool.and_eq_true, Bool.not_eq_true'] at hforeign
                    exact hforeign.1.1
                  split at h
                  · have hcredited := (decideShare_credited h).1
                    rw [hexact] at hcredited
                    cases hcredited
                  · cases h
                  · cases h
                  · cases h
                · next hplain =>
                  rw [if_neg hplain]
                  obtain ⟨hexact, hminer, hnetwork, hverdict⟩ := decideShare_credited h
                  exact ⟨hok, hexact, hminer, hnetwork, ⟨m, hm, hstage, hretained⟩, hverdict⟩

end Completions

section Events

variable {config : Config} {env : Env} {s : System} {options : RandomXVerifier.Options}

theorem finishSubmission_uncredited {key : ℕ} {request : JobResult}
    {submission : Miner.SubmissionReservation} {error : Error} {o : Outcome}
    (ho : .ended o ∈ (finishSubmission env key request submission error s).2) :
    isCredited o.verdict = false := by
  unfold finishSubmission at ho
  dsimp only at ho
  generalize (if error = .NoError then (env.dispatch request).error else error) = final at ho
  by_cases hfinal : final = .NoError
  · rw [if_pos hfinal] at ho
    have ho' := List.mem_singleton.mp ho
    simp only [Observation.ended.injEq] at ho'
    rw [ho']
    rfl
  · rw [if_neg hfinal] at ho
    have ho' := List.mem_singleton.mp ho
    simp only [Observation.ended.injEq] at ho'
    rw [ho']
    rfl

theorem submitVerified_uncredited {key : ℕ} {request : JobResult} {job : Miner.TelemetryJob}
    {m : Miner.State} {submission : Miner.SubmissionReservation} {o : Outcome}
    (ho : .ended o ∈ (submitVerified env options key request job m submission s).2) :
    isCredited o.verdict = false := by
  unfold submitVerified at ho
  dsimp only at ho
  -- first whether the share claims to be a candidate, then which way it goes
  split at ho
  all_goals
    split at ho
    · exact finishSubmission_uncredited ho
    · split at ho
      · cases ho
      · exact finishSubmission_uncredited ho

/-- With a verifier no share counts in the step that submits it. -/
theorem submit_uncredited {key : ℕ} {id : ℤ} {params : Json} {o : Outcome}
    (hconfig : config.verifier = some options)
    (ho : .ended o ∈ (submit config env key id params s).2) : isCredited o.verdict = false := by
  unfold submit at ho
  split at ho
  · cases ho
  · split at ho
    · cases ho
    · dsimp only at ho
      rcases List.mem_append.mp ho with hreserved | hrest
      · split at hreserved
        · cases List.mem_singleton.mp hreserved
        · cases hreserved
      · split at hrest
        · exact submitVerified_uncredited hrest
        · next hnone =>
          rw [hconfig] at hnone
          cases hnone
        · exact finishSubmission_uncredited hrest

theorem settle_credited {o : Outcome} {out : RandomXVerifier.Output Callback}
    (ho : .ended o ∈ (settle env options out s).2) (h : isCredited o.verdict = true) :
    ∃ callback result, out = .called callback result ∧ o.key = callback.key ∧
      o.shareId = callback.share.shareId ∧ Credited callback result s o.verdict := by
  cases out with
  | called callback result =>
      have ho' := List.mem_singleton.mp ho
      simp only [Observation.ended.injEq] at ho'
      have hverdict : o.verdict =
          (completeVerification env options callback result s).verdict := by rw [ho']
      refine ⟨callback, result, rfl, by rw [ho'], by rw [ho'], ?_⟩
      rw [hverdict] at h ⊢
      exact completeVerification_credited h
  | dropped callback =>
      have ho' := List.mem_singleton.mp ho
      simp only [Observation.ended.injEq] at ho'
      rw [ho'] at h
      cases h
  | sent => cases ho
  | settled => cases ho
  | disconnected => cases ho

theorem forEach_credited {o : Outcome} (out : List (RandomXVerifier.Output Callback)) (s : System)
    (hfailed : ∀ callback result, .called callback result ∈ out → result.ok = false)
    (ho : .ended o ∈ (Handler.forEach (settle env options) out s).2) :
    isCredited o.verdict = false := by
  induction out generalizing s with
  | nil => cases ho
  | cons first rest ih =>
      rcases List.mem_append.mp ho with hone | hmore
      · by_contra hcredited
        obtain ⟨callback, result, heq, -, -, hc⟩ := settle_credited hone (by simpa using hcredited)
        have hok := hfailed callback result (heq ▸ List.mem_cons_self)
        rw [hc.ok] at hok
        cases hok
      · exact ih _ (fun callback result hmem => hfailed callback result
          (List.mem_cons_of_mem _ hmem)) hmore

/-- A share counts only in the step in which a response answers its request. -/
theorem runVerifier_credited {event : Event} {o : Outcome}
    (ho : .ended o ∈ (runVerifier env options
      (verifierEvent options (verifierEnv env s) event) s).2) (h : isCredited o.verdict = true) :
    ∃ doc id p, event = .frame (some doc) ∧ s.verifier.connected = true ∧
      Answers s.verifier doc id p ∧ o.key = p.callback.key ∧
      o.shareId = p.callback.share.shareId ∧
      Credited p.callback (RandomXVerifier.verifyResult (verifierEnv env s) doc id p) s
        o.verdict := by
  rcases verifierEvent_cases options (verifierEnv env s) event s.verifier with
    ⟨doc, id, p, hevent, hconnected, hanswers, heq⟩ | hunanswered
  · refine ⟨doc, id, p, hevent, hconnected, hanswers, ?_⟩
    have hout : (verifierEvent options (verifierEnv env s) event s.verifier).2 =
        [.called p.callback (RandomXVerifier.verifyResult (verifierEnv env s) doc id p)] := by
      rw [heq]
      rfl
    unfold runVerifier at ho
    rw [hout] at ho
    have ho' : .ended o ∈ (settle env options (.called p.callback
        (RandomXVerifier.verifyResult (verifierEnv env s) doc id p))
        { s with verifier :=
          (verifierEvent options (verifierEnv env s) event s.verifier).1 }).2 := by
      simpa [Handler.forEach, Handler.seq, Handler.skip] using ho
    obtain ⟨callback, result, hcalled, hkey, hid, hc⟩ := settle_credited ho' h
    obtain ⟨rfl, rfl⟩ : p.callback = callback ∧
        RandomXVerifier.verifyResult (verifierEnv env s) doc id p = result := by
      simpa using hcalled
    exact ⟨hkey, hid, hc.ok, hc.same, hc.minerDiff, hc.networkDiff, hc.retained, hc.verdict⟩
  · have hnone := forEach_credited _ _ hunanswered.failed ho
    rw [h] at hnone
    cases hnone

theorem step_credited {e : Env × Event} {o : Outcome} (hconfig : config.verifier = some options)
    (ho : .ended o ∈ (step config s e).2) (h : isCredited o.verdict = true) :
    ∃ doc id p, e.2 = .frame (some doc) ∧ s.verifier.connected = true ∧
      Answers s.verifier doc id p ∧ o.key = p.callback.key ∧
      o.shareId = p.callback.share.shareId ∧
      Credited p.callback (RandomXVerifier.verifyResult (verifierEnv e.1 s) doc id p) s
        o.verdict := by
  obtain ⟨env, event⟩ := e
  have hverifier : ∀ event' s', .ended o ∈ (withVerifier config env event' s').2 →
      .ended o ∈
        (runVerifier env options (verifierEvent options (verifierEnv env s') event') s').2 := by
    intro event' s' hmem
    simpa only [withVerifier, hconfig] using hmem
  cases event with
  | submit key id params =>
      have hnone := submit_uncredited hconfig ho
      rw [h] at hnone
      cases hnone
  | destroy key =>
      obtain ⟨_, _, _, hevent, -⟩ := runVerifier_credited (hverifier _ _ ho) h
      cases hevent
  | startVerifier => exact runVerifier_credited (hverifier _ _ ho) h
  | stopVerifier => exact runVerifier_credited (hverifier _ _ ho) h
  | tick => exact runVerifier_credited (hverifier _ _ ho) h
  | onConnect accepted => exact runVerifier_credited (hverifier _ _ ho) h
  | frame doc => exact runVerifier_credited (hverifier _ _ ho) h
  | closed error => exact runVerifier_credited (hverifier _ _ ho) h
  | prepareSeed seedHash => exact runVerifier_credited (hverifier _ _ ho) h
  | _ => cases ho

end Events

section Origins

variable {config : Config} {env : Env} {s : System} {options : RandomXVerifier.Options}
  {key id : ℕ} {p : RandomXVerifier.Pending Callback}

theorem requests_forEach (out : List (RandomXVerifier.Output Callback)) (s : System) :
    requests (Handler.forEach (settle env options) out s).1 = requests s := by
  induction out generalizing s with
  | nil => rfl
  | cons first rest ih => exact (ih _).trans (requests_settle env s options first)

theorem requests_finishSubmission (request : JobResult)
    (submission : Miner.SubmissionReservation) (error : Error) :
    requests (finishSubmission env key request submission error s).1 = requests s := by
  unfold finishSubmission
  dsimp only
  generalize (if error = .NoError then (env.dispatch request).error else error) = final
  by_cases hfinal : final = .NoError
  · rw [if_pos hfinal]
    rfl
  · have hforgotten : requests (if isInfrastructureFailure final then
        forgetSubmission key submission s else s) = requests s := by
      split <;> simp
    rw [if_neg hfinal, report]
    dsimp only
    split
    · exact (requests_shutdown ..).trans hforgotten
    · exact (requests_reply ..).trans hforgotten

theorem requests_submitUnverified (request : JobResult)
    (submission : Miner.SubmissionReservation) :
    requests (submitUnverified env key request submission s).1 = requests s := by
  unfold submitUnverified
  split
  · exact requests_reply ..
  · exact requests_finishSubmission ..

theorem unchanged_allowCandidate (options : RandomXVerifier.Options)
    (venv : RandomXVerifier.Env) (owner : ℕ) (v : RandomXVerifier.State Callback) :
    (RandomXVerifier.allowCandidate options venv owner v).2.pending = v.pending ∧
      (RandomXVerifier.allowCandidate options venv owner v).2.nextRequestId = v.nextRequestId := by
  unfold RandomXVerifier.allowCandidate
  split
  · exact ⟨rfl, rfl⟩
  · dsimp only
    split <;> exact ⟨rfl, rfl⟩

theorem pending_of_requests {s' : System} (h : requests s' = requests s) :
    s'.verifier.pending = s.verifier.pending :=
  congrArg Prod.fst h

/-- The submission whose request `id` is. The job is one that the miner retained unexpired
and that was not stale, and the share was made from it. -/
structure Created (config : Config) (s : System) (event : Event) (id : ℕ)
    (p : RandomXVerifier.Pending Callback) (m : Miner.State) (job : Miner.TelemetryJob)
    (request : JobResult) : Prop where
  fresh : id = s.verifier.nextRequestId
  miner : s.miners.find p.callback.key = some m
  submitted : ∃ requestId params, event = .submit p.callback.key requestId params ∧
    namedJob s.now params m = some job ∧
    request = Miner.submitRequest config.miner requestId (s.shareSequence + 1) params (some job) m
  current : Miner.isStale job.height m.jobHeight = false
  nonce : Miner.isHexOf 4 request.nonce = true
  result : Miner.isHexOf 32 request.result = true
  share : ∃ submission candidateFallback,
    p.callback.share = pendingShare request job m submission candidateFallback
  request : p.request = verifyRequest p.callback.key p.callback.share

/-- A pending request that `startVerification` adds is that of its share. -/
theorem pending_startVerification {request : JobResult} {job : Miner.TelemetryJob}
    {m : Miner.State} {submission : Miner.SubmissionReservation} {candidateFallback : Bool}
    (h : (startVerification env options key request job m submission candidateFallback
      s).2.verifier.pending.find id = some p) :
    s.verifier.pending.find id = some p ∨ (id = s.verifier.nextRequestId ∧
      p.callback = ⟨key, pendingShare request job m submission candidateFallback⟩ ∧
      p.request = verifyRequest key (pendingShare request job m submission candidateFallback)) := by
  unfold startVerification at h
  split at h
  · exact Or.inl h
  · dsimp only at h
    have hpending : ∀ v : RandomXVerifier.State Callback, ∀ queued : Bool,
        (if queued = true then { s with verifier := v } else
          destroyShare (pendingShare request job m submission candidateFallback)
            { s with verifier := v }).verifier.pending = v.pending := by
      intro v queued
      split
      · rfl
      · exact pending_of_requests (requests_destroyShare ..)
    rw [hpending] at h
    rcases verify_cases (verifierEnv env s) options (verifyRequest key
        (pendingShare request job m submission candidateFallback))
        (some ⟨key, pendingShare request job m submission candidateFallback⟩) s.verifier with
      ⟨-, hquiet⟩ | ⟨handle, after, out, hhandle, -, hsent, heq⟩
    · rw [hquiet.pending] at h
      exact Or.inl h
    · obtain rfl := Option.some.inj hhandle
      rw [heq] at h
      dsimp only at h
      have hafter : after.pending = s.verifier.pending := hsent.pending
      rw [Table.find_insert] at h
      split at h
      · next hid =>
        obtain rfl := Option.some.inj h
        exact Or.inr ⟨hid, rfl, rfl⟩
      · rw [hafter] at h
        exact Or.inl h

theorem pending_submitVerified {request : JobResult} {job : Miner.TelemetryJob}
    {m : Miner.State} {submission : Miner.SubmissionReservation}
    (h : (submitVerified env options key request job m submission s).1.verifier.pending.find id =
      some p) :
    s.verifier.pending.find id = some p ∨ ∃ candidateFallback, id = s.verifier.nextRequestId ∧
      p.callback = ⟨key, pendingShare request job m submission candidateFallback⟩ ∧
      p.request = verifyRequest key (pendingShare request job m submission candidateFallback) := by
  unfold submitVerified at h
  dsimp only at h
  generalize hbudget : (if Miner.claimedCandidate request job = true then
    ((RandomXVerifier.allowCandidate options (verifierEnv env s) key s.verifier).1,
      { s with verifier :=
        (RandomXVerifier.allowCandidate options (verifierEnv env s) key s.verifier).2 })
    else (false, s)) = budget at h
  have hsame : budget.2.verifier.pending = s.verifier.pending ∧
      budget.2.verifier.nextRequestId = s.verifier.nextRequestId := by
    rw [← hbudget]
    split
    · exact unchanged_allowCandidate options (verifierEnv env s) key s.verifier
    · exact ⟨rfl, rfl⟩
  rw [← hsame.1, ← hsame.2]
  split at h
  · rw [pending_of_requests (requests_finishSubmission ..)] at h
    exact Or.inl h
  · have hstart : (startVerification env options key request job m submission
        (Miner.claimedCandidate request job) budget.2).2.verifier.pending.find id = some p := by
      split at h
      · exact h
      · rw [pending_of_requests (requests_finishSubmission ..)] at h
        have herror : ∀ s₂ : System, (unverifiedError env options key
            (Miner.claimedCandidate request job) s₂).2.verifier.pending = s₂.verifier.pending := by
          intro s₂
          unfold unverifiedError
          split
          · rfl
          · exact pending_of_requests (requests_emergency key s₂ options (verifierEnv env s₂))
        split at h
        · rwa [herror] at h
        · rwa [pending_of_requests (requests_forgetSubmission ..), herror] at h
    rcases pending_startVerification hstart with hold | hnew
    · exact Or.inl hold
    · exact Or.inr ⟨_, hnew⟩

theorem pending_submit {requestKey : ℕ} {requestId : ℤ} {params : Json}
    (h : (submit config env requestKey requestId params s).1.verifier.pending.find id = some p) :
    s.verifier.pending.find id = some p ∨ ∃ m job request,
      Created config s (.submit requestKey requestId params) id p m job request := by
  unfold submit at h
  cases hm : s.miners.find requestKey with
  | none =>
      rw [hm] at h
      exact Or.inl h
  | some m =>
      rw [hm] at h
      dsimp only at h
      split at h
      · exact Or.inl h
      · rcases hcheck : Miner.checkSubmission config.miner s.now params
          (Miner.submitRequest config.miner requestId (s.shareSequence + 1) params
            (namedJob s.now params m) m) (namedJob s.now params m) m s.cache with
          ⟨error, submission, m', cache⟩
        rw [hcheck] at h
        dsimp only at h
        split at h
        · next job options hjob hverifier =>
          rcases pending_submitVerified h with hold | ⟨fallback, hid, hcallback, hrequest⟩
          · exact Or.inl hold
          · right
            rw [hjob] at hcheck hcallback hrequest
            have hcases := @Miner.checkSubmission_cases config.miner s.now params
              (Miner.submitRequest config.miner requestId (s.shareSequence + 1) params (some job) m)
              (some job) m s.cache
            rw [hcheck] at hcases
            rcases hcases with ⟨hrefused, -⟩ | ⟨retained, hretained, hnonce,
                hresult, hstale, -, -, hrest⟩
            · exact absurd rfl hrefused
            · obtain rfl := Option.some.inj hretained
              obtain ⟨⟨seen, times, sequence, hm'⟩, -⟩ := Miner.rememberSubmission_cases s.now job
                (Miner.submitRequest config.miner requestId (s.shareSequence + 1) params (some job)
                  m).jobId (Miner.submitRequest config.miner requestId (s.shareSequence + 1) params
                  (some job) m).nonce (Miner.submitRequest config.miner requestId
                  (s.shareSequence + 1) params (some job) m).result m s.cache
              rw [← hrest] at hm'
              have hkey : p.callback.key = requestKey := by rw [hcallback]
              rw [show m' = _ from hm'] at hcallback hrequest
              refine ⟨m, job, _, hid, hkey ▸ hm, ⟨requestId, params, hkey ▸ rfl, hjob, rfl⟩, hstale,
                hnonce, hresult, ⟨submission, fallback, ?_⟩, ?_⟩
              · rw [hcallback]
                rfl
              · rw [hcallback, hrequest]
        · rw [pending_of_requests (requests_submitUnverified ..)] at h
          exact Or.inl h
        · rw [pending_of_requests (requests_finishSubmission ..)] at h
          exact Or.inl h

theorem pending_runVerifier {event : Event}
    (h : (runVerifier env options (verifierEvent options (verifierEnv env s) event)
      s).1.verifier.pending.find id = some p) : s.verifier.pending.find id = some p := by
  have hpending := pending_of_requests (@requests_forEach env options
    (verifierEvent options (verifierEnv env s) event s.verifier).2
    { s with verifier := (verifierEvent options (verifierEnv env s) event s.verifier).1 })
  rw [runVerifier, hpending] at h
  rcases verifierEvent_cases options (verifierEnv env s) event s.verifier with
    ⟨doc, id', p', -, -, -, heq⟩ | hunanswered
  · rw [heq] at h
    have herased : (s.verifier.pending.erase id').find id = some p := h
    rw [Table.find_erase] at herased
    split at herased
    · cases herased
    · exact herased
  · exact hunanswered.kept id p h

/-- Only a submission creates a request. -/
theorem pending_step {e : Env × Event}
    (h : (step config s e).1.verifier.pending.find id = some p) :
    s.verifier.pending.find id = some p ∨ ∃ m job request,
      Created config s e.2 id p m job request := by
  obtain ⟨env, event⟩ := e
  have hverifier : ∀ event' s', (withVerifier config env event' s').1.verifier.pending.find id =
      some p → s'.verifier.pending.find id = some p := by
    intro event' s' hfind
    unfold withVerifier at hfind
    split at hfind
    · exact hfind
    · exact pending_runVerifier hfind
  have hupdate : ∀ key f, (updateMiner key f s).verifier.pending.find id = some p →
      s.verifier.pending.find id = some p := by
    intro key f hfind
    unfold updateMiner at hfind
    split at hfind
    · exact hfind
    · exact hfind
  cases event with
  | submit key requestId params => exact pending_submit h
  | destroy key =>
      exact Or.inl (hverifier (.destroy key)
        { s with
          miners := s.miners.erase key
          cache := GlobalShareCache.removeOwner key s.cache } h)
  | startVerifier => exact Or.inl (hverifier _ _ h)
  | stopVerifier => exact Or.inl (hverifier _ _ h)
  | tick => exact Or.inl (hverifier _ _ h)
  | onConnect accepted => exact Or.inl (hverifier _ _ h)
  | frame doc => exact Or.inl (hverifier _ _ h)
  | closed error => exact Or.inl (hverifier _ _ h)
  | prepareSeed seedHash => exact Or.inl (hverifier _ _ h)
  | login key => exact Or.inl (hupdate _ _ h)
  | assign key mapperId nicehash customDiff fixedByte => exact Or.inl (hupdate _ _ h)
  | setJob key job extraNonce issue => exact Or.inl (hupdate _ _ h)
  | forwardJob key job issue => exact Or.inl (hupdate _ _ h)
  | clearTelemetryJobs key => exact Or.inl (hupdate _ _ h)
  | close key => exact Or.inl (hupdate _ _ h)
  | advance elapsed => exact Or.inl h
  | connect rpcId => exact Or.inl h
  | observeHeight sourceId height => exact Or.inl h
  | removeSource sourceId => exact Or.inl h

end Origins

section Issuances

variable {config : Config} {env : Env} {s s' : System} {options : RandomXVerifier.Options}
  {key : ℕ}

/-- The part of the state that issuances depend on. -/
def issued (s : System) : ℕ × (ℕ → Option (ℕ × List Miner.TelemetryJob)) :=
  (s.nextKey, issuances s)

theorem issued_of_requests (h : requests s' = requests s) : issued s' = issued s :=
  congrArg (fun r => r.2.2.2.2) h

theorem issued_startVerification {request : JobResult} {job : Miner.TelemetryJob}
    {m : Miner.State} {submission : Miner.SubmissionReservation} {candidateFallback : Bool} :
    issued (startVerification env options key request job m submission candidateFallback s).2 =
      issued s := by
  unfold startVerification
  split
  · rfl
  · dsimp only
    split
    · rfl
    · apply (issued_of_requests (requests_destroyShare ..)).trans
      rfl

theorem issued_submitVerified {request : JobResult} {job : Miner.TelemetryJob}
    {m : Miner.State} {submission : Miner.SubmissionReservation} :
    issued (submitVerified env options key request job m submission s).1 = issued s := by
  unfold submitVerified
  dsimp only
  generalize hbudget : (if Miner.claimedCandidate request job = true then
    ((RandomXVerifier.allowCandidate options (verifierEnv env s) key s.verifier).1,
      { s with verifier :=
        (RandomXVerifier.allowCandidate options (verifierEnv env s) key s.verifier).2 })
    else (false, s)) = budget
  have hsame : issued budget.2 = issued s := by
    rw [← hbudget]
    split <;> rfl
  rw [← hsame]
  split
  · exact issued_of_requests (requests_finishSubmission ..)
  · rw [← @issued_startVerification env budget.2 options key request job m submission
      (Miner.claimedCandidate request job)]
    split
    · rfl
    · apply (issued_of_requests (requests_finishSubmission ..)).trans
      have herror : ∀ s₂ : System, issued (unverifiedError env options key
          (Miner.claimedCandidate request job) s₂).2 = issued s₂ := by
        intro s₂
        unfold unverifiedError
        split <;> rfl
      split
      · exact herror _
      · exact (issued_of_requests (requests_forgetSubmission ..)).trans (herror _)

/-- What one event does to the jobs of one miner: nothing, one more job under the next
token, or no job left. -/
inductive Advance : ℕ × List Miner.TelemetryJob → ℕ × List Miner.TelemetryJob → Prop where
  | same (v) : Advance v v
  | issued (sequence jobs job) (htoken : job.issuanceToken = sequence + 1) :
      Advance (sequence, jobs) (sequence + 1, (job :: jobs).take Miner.telemetryJobCount)
  | cleared (sequence jobs) : Advance (sequence, jobs) (sequence, [])

/-- Issuances before and after an event; a new connection has none. -/
structure Advances (s s' : System) : Prop where
  nextKey : s.nextKey ≤ s'.nextKey
  miners : ∀ key v', issuances s' key = some v' →
    (∃ v, issuances s key = some v ∧ Advance v v') ∨
      (key = s.nextKey ∧ key < s'.nextKey ∧ v' = (0, []))

theorem advances_refl (s : System) : Advances s s :=
  ⟨le_rfl, fun _ v' hv' => Or.inl ⟨v', hv', .same v'⟩⟩

theorem Advances.congr {s₁ : System} (h : Advances s s₁) (hissued : issued s' = issued s₁) :
    Advances s s' := by
  have hnext : s'.nextKey = s₁.nextKey := congrArg Prod.fst hissued
  have hminers : issuances s' = issuances s₁ := congrArg Prod.snd hissued
  refine ⟨hnext ▸ h.nextKey, fun key v' hv' => ?_⟩
  rw [hminers] at hv'
  rw [hnext]
  exact h.miners key v' hv'

theorem advances_insert {m m' : Miner.State} {cache : Miner.Cache}
    (hm : s.miners.find key = some m)
    (hm' : Advance (m.jobIssuanceSequence, m.telemetryJobs)
      (m'.jobIssuanceSequence, m'.telemetryJobs)) :
    Advances s { s with miners := s.miners.insert key m', cache := cache } := by
  refine ⟨le_rfl, fun key' v' hv' => Or.inl ?_⟩
  simp only [issuances, Table.find_insert] at hv'
  split at hv'
  · next heq =>
    subst heq
    obtain rfl := Option.some.inj hv'
    exact ⟨_, by simp [issuances, hm], hm'⟩
  · exact ⟨v', hv', .same v'⟩

theorem advance_deliver {now : ℕ} {written : Bool} {job : Job} {blob : String}
    {m : Miner.State} {cache : Miner.Cache} {v : ℕ × List Miner.TelemetryJob}
    (hv : v = (m.jobIssuanceSequence, m.telemetryJobs)) :
    Advance v
      ((Miner.deliver now written job blob m cache).1.jobIssuanceSequence,
        (Miner.deliver now written job blob m cache).1.telemetryJobs) := by
  have hsend : (Miner.sendJob m).jobIssuanceSequence = m.jobIssuanceSequence := by
    unfold Miner.sendJob
    split <;> rfl
  rw [hv]
  unfold Miner.deliver
  dsimp only
  split
  · rw [hsend, Miner.sendJob_telemetryJobs]
    exact .same _
  · simp only [Miner.rememberJob, Miner.retain, hsend, Miner.sendJob_telemetryJobs]
    refine .issued _ _ _ ?_
    simp [Miner.telemetryOf]

theorem advances_updateMiner {f : Miner.State → Miner.Cache → Miner.State × Miner.Cache}
    (hf : ∀ m, Advance (m.jobIssuanceSequence, m.telemetryJobs)
      ((f m s.cache).1.jobIssuanceSequence, (f m s.cache).1.telemetryJobs)) :
    Advances s (updateMiner key f s) := by
  unfold updateMiner
  split
  · exact advances_refl s
  · next m hm => exact advances_insert hm (hf m)

theorem advances_submit {id : ℤ} {params : Json} :
    Advances s (submit config env key id params s).1 := by
  unfold submit
  cases hm : s.miners.find key with
  | none => exact advances_refl s
  | some m =>
      dsimp only
      split
      · exact advances_refl s
      · rcases hcheck : Miner.checkSubmission config.miner s.now params
          (Miner.submitRequest config.miner id (s.shareSequence + 1) params
            (namedJob s.now params m) m) (namedJob s.now params m) m s.cache with
          ⟨error, submission, m', cache⟩
        have hjobs : (m'.jobIssuanceSequence, m'.telemetryJobs) =
            (m.jobIssuanceSequence, m.telemetryJobs) := by
          have hcases := @Miner.checkSubmission_cases config.miner s.now params
            (Miner.submitRequest config.miner id (s.shareSequence + 1) params
              (namedJob s.now params m) m) (namedJob s.now params m) m s.cache
          rw [hcheck] at hcases
          rcases hcases with ⟨-, hsame⟩ | ⟨job, -, -, -, -, -, -, hrest⟩
          · simp only [Prod.mk.injEq] at hsame
            rw [hsame.2.1]
          · obtain ⟨⟨seen, times, sequence, hm'⟩, -⟩ := Miner.rememberSubmission_cases s.now job
              (Miner.submitRequest config.miner id (s.shareSequence + 1) params
                (namedJob s.now params m) m).jobId
              (Miner.submitRequest config.miner id (s.shareSequence + 1) params
                (namedJob s.now params m) m).nonce
              (Miner.submitRequest config.miner id (s.shareSequence + 1) params
                (namedJob s.now params m) m).result m s.cache
            rw [← hrest] at hm'
            rw [show m' = _ from hm']
        dsimp only
        have hchecked : Advances s { s with
            miners := s.miners.insert key m'
            shareSequence := s.shareSequence + 1
            cache := cache } := by
          have hinsert := @advances_insert s key m m' cache hm (hjobs ▸ .same _)
          exact ⟨hinsert.nextKey, hinsert.miners⟩
        split
        · exact hchecked.congr issued_submitVerified
        · exact hchecked.congr (issued_of_requests (requests_submitUnverified ..))
        · exact hchecked.congr (issued_of_requests (requests_finishSubmission ..))

theorem advances_withVerifier {s₁ : System} {event : Event} (h : Advances s s₁) :
    Advances s (withVerifier config env event s₁).1 := by
  unfold withVerifier
  split
  · exact h
  · refine h.congr ((issued_of_requests (requests_forEach ..)).trans ?_)
    rfl

theorem advances_step (e : Env × Event) : Advances s (step config s e).1 := by
  obtain ⟨env, event⟩ := e
  have hrefl := advances_refl s
  cases event with
  | advance elapsed => exact hrefl.congr rfl
  | connect rpcId =>
      refine ⟨Nat.le_succ _, fun key v' hv' => ?_⟩
      simp only [issuances, step, Table.find_insert] at hv'
      split at hv'
      · next heq =>
        subst heq
        exact Or.inr ⟨rfl, Nat.lt_succ_self _, (Option.some.inj hv').symm⟩
      · exact Or.inl ⟨v', hv', .same v'⟩
  | login key =>
      refine advances_updateMiner fun m => ?_
      dsimp only
      split <;> exact .same _
  | assign key mapperId nicehash customDiff fixedByte =>
      exact advances_updateMiner fun m => .same _
  | setJob key job extraNonce issue =>
      exact advances_updateMiner fun m => advance_deliver rfl
  | forwardJob key job issue =>
      exact advances_updateMiner fun m => advance_deliver rfl
  | clearTelemetryJobs key => exact advances_updateMiner fun m => .cleared _ _
  | close key => exact advances_updateMiner fun m => .same _
  | destroy key =>
      refine advances_withVerifier ⟨le_rfl, fun key' v' hv' => ?_⟩
      simp only [issuances, Table.find_erase] at hv'
      split at hv'
      · cases hv'
      · exact Or.inl ⟨v', hv', .same v'⟩
  | observeHeight sourceId height => exact hrefl.congr rfl
  | removeSource sourceId => exact hrefl.congr rfl
  | submit key id params => exact advances_submit
  | startVerifier => exact advances_withVerifier hrefl
  | stopVerifier => exact advances_withVerifier hrefl
  | tick => exact advances_withVerifier hrefl
  | onConnect accepted => exact advances_withVerifier hrefl
  | frame doc => exact advances_withVerifier hrefl
  | closed error => exact advances_withVerifier hrefl
  | prepareSeed seedHash => exact advances_withVerifier hrefl

/-- A token names one job of the miner's connection. -/
structure Named (key : ℕ) (job : Miner.TelemetryJob) (s : System) : Prop where
  known : key < s.nextKey
  unique : ∀ sequence jobs, issuances s key = some (sequence, jobs) →
    job.issuanceToken ≤ sequence ∧
      ∀ job' ∈ jobs, job'.issuanceToken = job.issuanceToken → job' = job

theorem Named.step {job : Miner.TelemetryJob} (h : Named key job s) (ha : Advances s s') :
    Named key job s' := by
  refine ⟨lt_of_lt_of_le h.known ha.nextKey, fun sequence jobs hafter => ?_⟩
  rcases ha.miners key _ hafter with ⟨v, hv, hadvance⟩ | ⟨hkey, -, -⟩
  · generalize hpair : (sequence, jobs) = v' at hadvance
    cases hadvance with
    | same =>
        subst hpair
        exact h.unique sequence jobs hv
    | issued before retained new htoken =>
        obtain ⟨rfl, rfl⟩ := Prod.mk.inj hpair
        obtain ⟨hle, hunique⟩ := h.unique before retained hv
        refine ⟨by omega, fun job' hmem heq => ?_⟩
        rcases List.mem_cons.mp (List.mem_of_mem_take hmem) with rfl | hold
        · omega
        · exact hunique job' hold heq
    | cleared before retained =>
        obtain ⟨rfl, rfl⟩ := Prod.mk.inj hpair
        exact ⟨(h.unique _ _ hv).1, by simp⟩
  · have hknown := h.known
    omega

/-- Every retained job is the one that its token names. -/
def Numbered (s : System) : Prop :=
  ∀ key sequence jobs, issuances s key = some (sequence, jobs) →
    key < s.nextKey ∧ ∀ job ∈ jobs, Named key job s

theorem numbered_initial : Numbered {} := by
  intro key sequence jobs h
  cases h

theorem Numbered.step (h : Numbered s) (ha : Advances s s') : Numbered s' := by
  intro key sequence jobs hafter
  have hnext := ha.nextKey
  rcases ha.miners key _ hafter with ⟨⟨before, retained⟩, hv, hadvance⟩ | ⟨-, hknown, heq⟩
  · obtain ⟨hknown, hjobs⟩ := h key before retained hv
    refine ⟨by omega, fun job hjob => ?_⟩
    generalize hpair : (sequence, jobs) = v' at hadvance
    cases hadvance with
    | same =>
        obtain ⟨rfl, rfl⟩ := Prod.mk.inj hpair
        exact (hjobs job hjob).step ha
    | issued _ _ new htoken =>
        obtain ⟨rfl, rfl⟩ := Prod.mk.inj hpair
        rcases List.mem_cons.mp (List.mem_of_mem_take hjob) with rfl | hold
        · refine ⟨by omega, fun sequence' jobs' hagain => ?_⟩
          obtain ⟨rfl, rfl⟩ := Prod.mk.inj (Option.some.inj (hafter.symm.trans hagain))
          refine ⟨by omega, fun job' hmem heq => ?_⟩
          rcases List.mem_cons.mp (List.mem_of_mem_take hmem) with rfl | hold
          · rfl
          · have hle := ((hjobs job' hold).unique _ _ hv).1
            omega
        · exact (hjobs job hold).step ha
    | cleared =>
        obtain ⟨rfl, rfl⟩ := Prod.mk.inj hpair
        cases hjob
  · obtain ⟨rfl, rfl⟩ := Prod.mk.inj heq
    exact ⟨hknown, by simp⟩

end Issuances

section Runs

variable {config : Config} {options : RandomXVerifier.Options} {es : ℕ → Env × Event} {i j : ℕ}

theorem numbered_at (k : ℕ) : Numbered ((machine config).state es k) :=
  Machine.invariant (m := machine config) numbered_initial
    (fun _ e h => h.step (advances_step e)) k

theorem named_until {key : ℕ} {job : Miner.TelemetryJob} (hij : i ≤ j)
    (h : Named key job ((machine config).state es i)) :
    Named key job ((machine config).state es j) :=
  Machine.persists (m := machine config) hij h fun k _ _ hk => hk.step (advances_step (es k))

/-- The step that created a pending request, which has been pending since. -/
theorem request_origin {id : ℕ} {p : RandomXVerifier.Pending Callback}
    (h : ((machine config).state es j).verifier.pending.find id = some p) :
    ∃ i < j, (∃ m job request, Created config ((machine config).state es i) (es i).2 id p m job
        request) ∧
      ∀ l, i < l → l ≤ j → ((machine config).state es l).verifier.pending.find id = some p := by
  have hempty : ¬ ((machine config).state es 0).verifier.pending.find id = some p := by
    intro hfind
    cases hfind
  obtain ⟨i, -, hij, hbefore, hafter⟩ := Machine.origin (m := machine config)
    (P := fun s => s.verifier.pending.find id = some p) (Nat.zero_le j) hempty h
  refine ⟨i, hij, ?_, hafter⟩
  rcases pending_step (hafter (i + 1) (Nat.lt_succ_self i) hij) with hold | hcreated
  · exact absurd hold hbefore
  · exact hcreated

/-- The evidence for a share that counts locally. The request `id` was created in step `i` by
the submission, it is answered in step `j`, and the job is still the one that the miner
retains. -/
structure Verified (config : Config) (es : ℕ → Env × Event) (i j : ℕ) (o : Outcome) (doc : Json)
    (id : ℕ) (p : RandomXVerifier.Pending Callback) (m m' : Miner.State)
    (job : Miner.TelemetryJob) (request : JobResult) : Prop where
  response : (es j).2 = .frame (some doc)
  connected : ((machine config).state es j).verifier.connected = true
  answers : Answers ((machine config).state es j).verifier doc id p
  ok : doc.getBool "ok" false = true
  hash : RandomXVerifier.validHash (doc.getString "hash" "") = true
  agrees : doc.member "match" = some (.bool true)
  metrics : ∀ name ∈ ["queue_ms", "hash_ms", "total_ms"],
    RandomXVerifier.validMetric doc name = true
  earlier : i < j
  created : Created config ((machine config).state es i) (es i).2 id p m job request
  pending : ∀ l, i < l → l ≤ j →
    ((machine config).state es l).verifier.pending.find id = some p
  owner : o.key = p.callback.key ∧ o.shareId = request.shareId
  blob : p.request.blob = String.ofList (Hex.patch job.hashingBlob.toList (job.nonceOffset * 2)
    (request.nonce.getD "").toList)
  seed : p.request.seedHash = job.seedHash
  claimed : ∃ bytes, Hex.decode (doc.getString "hash" "").toList = some bytes ∧
    Hex.decode (request.result.getD "").toList = some bytes
  minerDiff : job.minerDiff ≤ JobResult.difficulty (doc.getString "hash" "")
  networkDiff : JobResult.difficulty (doc.getString "hash" "") < job.networkDiff
  miner : ((machine config).state es j).miners.find o.key = some m' ∧ m'.stage ≠ .closing
  source : m'.mapperId = m.mapperId ∧ m'.verificationGeneration = m.verificationGeneration
  retained : Miner.findTelemetryJob ((machine config).state es j).now job.id m' = some job

theorem Created.blob {s : System} {event : Event} {id : ℕ} {p : RandomXVerifier.Pending Callback}
    {m : Miner.State} {job : Miner.TelemetryJob} {request : JobResult}
    (h : Created config s event id p m job request) :
    p.request.blob = String.ofList (Hex.patch job.hashingBlob.toList (job.nonceOffset * 2)
      (request.nonce.getD "").toList) := by
  obtain ⟨submission, fallback, hshare⟩ := h.share
  have hlength : (request.nonce.getD "").toList.take 8 = (request.nonce.getD "").toList := by
    have hnonce := h.nonce
    cases hvalue : request.nonce with
    | none => simp [Miner.isHexOf, hvalue] at hnonce
    | some nonce =>
        simp only [Miner.isHexOf, hvalue, Option.any_some, Bool.and_eq_true,
          decide_eq_true_eq] at hnonce
        apply List.take_of_length_le
        have hlength : nonce.toList.length = nonce.length := nonce.length_toList
        rw [Option.getD_some, hlength, hnonce.1]
  rw [h.request, hshare]
  simp only [verifyRequest, pendingShare, hlength]

theorem Created.jobId {s : System} {event : Event} {id : ℕ} {p : RandomXVerifier.Pending Callback}
    {m : Miner.State} {job : Miner.TelemetryJob} {request : JobResult}
    (h : Created config s event id p m job request) :
    p.callback.share.jobId = job.id ∧ job ∈ m.telemetryJobs := by
  obtain ⟨requestId, params, -, hnamed, hrequest⟩ := h.submitted
  obtain ⟨submission, fallback, hshare⟩ := h.share
  obtain ⟨jobId, htext, hfound⟩ := Option.bind_eq_some_iff.mp hnamed
  have hid : job.id = jobId := by
    have := List.find?_some hfound
    simp only [Bool.and_eq_true, decide_eq_true_eq] at this
    exact this.1
  refine ⟨?_, List.mem_of_find?_eq_some hfound⟩
  rw [hshare, hrequest, hid]
  simp [pendingShare, Miner.submitRequest, htext]

/-- With a verifier, every share that counts locally was verified. -/
theorem verifier_soundness (hconfig : config.verifier = some options) {o : Outcome}
    (ho : .ended o ∈ (machine config).emitted es j) (h : isCredited o.verdict = true) :
    ∃ i doc id p m m' job request, Verified config es i j o doc id p m m' job request := by
  obtain ⟨doc, id, p, hresponse, hconnected, hanswers, hkey, hid, hcredited⟩ :=
    step_credited hconfig ho h
  obtain ⟨i, hij, ⟨m, job, request, hcreated⟩, hpending⟩ := request_origin hanswers.pending
  obtain ⟨hok, hvalid, hmatch, hqueue, hhash, htotal, hresult⟩ :=
    verifyResult_ok (verifierEnv (es j).1 ((machine config).state es j)) hcredited.ok
  obtain ⟨submission, fallback, hshare⟩ := hcreated.share
  obtain ⟨hjobId, hjob⟩ := hcreated.jobId
  obtain ⟨m', hm', hstage, hretained⟩ := hcredited.retained
  have hsame := hcredited.same
  rw [hresult] at hsame
  have hclaimed : p.request.claimedHash = p.callback.share.claimedHash := by
    rw [hcreated.request]
    rfl
  have hresultText : p.callback.share.claimedHash = request.result.getD "" := by
    rw [hshare]
    rfl
  have hstill := hretained
  simp only [stillRetained, Bool.and_eq_true, decide_eq_true_eq, Option.any_eq_true] at hstill
  obtain ⟨⟨hmapper, hgeneration⟩, job', hfound, htoken⟩ := hstill
  -- the token of the share names the same job as when it was submitted
  have hnamed : Named p.callback.key job ((machine config).state es j) := by
    refine named_until hij.le ((numbered_at i p.callback.key m.jobIssuanceSequence m.telemetryJobs
      ?_).2 job hjob)
    simp [issuances, hcreated.miner]
  have hjob' : job' = job := by
    refine (hnamed.unique m'.jobIssuanceSequence m'.telemetryJobs ?_).2 job'
      (List.mem_of_find?_eq_some hfound) ?_
    · simp [issuances, hm']
    · rw [htoken, hshare]
      rfl
  rw [hjob', hjobId] at hfound
  refine ⟨i, doc, id, p, m, m', job, request, hresponse, hconnected, hanswers, hok, hvalid, ?_, ?_,
    hij, hcreated, hpending, ⟨hkey, ?_⟩, hcreated.blob, ?_, ?_, ?_, ?_, ⟨hkey ▸ hm', hstage⟩,
    ⟨?_, ?_⟩, hfound⟩
  · rw [hmatch, hclaimed, hsame]
  · intro name hname
    rcases List.mem_cons.mp hname with rfl | hname
    · exact hqueue
    · rcases List.mem_cons.mp hname with rfl | hname
      · exact hhash
      · rw [List.mem_singleton.mp hname]
        exact htotal
  · rw [hid, hshare]
    rfl
  · rw [hcreated.request, hshare]
    rfl
  · rw [hresultText] at hsame
    simp only [RandomXVerifier.sameHash, Bool.and_eq_true, decide_eq_true_eq] at hsame
    obtain ⟨⟨-, hvalid'⟩, heq⟩ := hsame
    simp only [RandomXVerifier.validHash, Bool.and_eq_true] at hvalid'
    obtain ⟨bytes, hbytes⟩ := Option.isSome_iff_exists.mp hvalid'.2
    exact ⟨bytes, hbytes, heq.trans hbytes⟩
  · have hminer := hcredited.minerDiff
    rw [hresult, hshare] at hminer
    exact hminer
  · have hnetwork := hcredited.networkDiff
    rw [hresult, hshare] at hnetwork
    exact hnetwork
  · rw [← hmapper, hshare]
    rfl
  · rw [← hgeneration, hshare]
    rfl

end Runs

section Scenario

open ReservationRuns (guarded run creditedRun)

/-- The share of the credited run was verified by the answer of its last step. -/
theorem verifier_soundness_credited : ∃ o : Outcome, ∃ i doc id p m m' job request,
    .ended o ∈ (machine guarded).emitted (run creditedRun) 12 ∧
      Verified guarded (run creditedRun) i 12 o doc id p m m' job request := by
  have hcredited : ((machine guarded).emitted (run creditedRun) 12).any
      (fun
        | .ended o => isCredited o.verdict
        | .reserved .. => false) = true := by decide +kernel
  obtain ⟨observation, ho, hcredited⟩ := List.any_eq_true.mp hcredited
  cases observation with
  | reserved => cases hcredited
  | ended o =>
      obtain ⟨i, doc, id, p, m, m', job, request, hverified⟩ :=
        @verifier_soundness guarded _ (run creditedRun) 12 rfl o ho hcredited
      exact ⟨o, i, doc, id, p, m, m', job, request, ho, hverified⟩

end Scenario

end XmrigProxy.VerifierSoundness
