import XmrigProxy.VerifierAccounting

/-! Where a successful verification result comes from. No operation but `verify` adds a
pending request or changes one, and the only result that is not a failure is the answer to
a pending request, in a response of its own. -/
namespace XmrigProxy.VerifierAnswers

open RandomXVerifier Handler VerifierAccounting

variable {κ : Type}

/-- The pending requests are among the earlier ones, and no success was reported. -/
structure Unanswered (before s : State κ) (out : List (Output κ)) : Prop where
  kept : ∀ id p, s.pending.find id = some p → before.pending.find id = some p
  failed : ∀ callback result, .called callback result ∈ out → result.ok = false

variable {before s : State κ} {out : List (Output κ)}

theorem unanswered_refl (s : State κ) : Unanswered s s [] :=
  ⟨fun _ _ h => h, by simp⟩

theorem Unanswered.frame {s' : State κ} (h : Unanswered before s out)
    (hp : s'.pending = s.pending) : Unanswered before s' out :=
  ⟨fun id p hf => h.kept id p (hp ▸ hf), h.failed⟩

theorem Unanswered.append (h : Unanswered before s out) {s' : State κ} {more : List (Output κ)}
    (hkept : ∀ id p, s'.pending.find id = some p → s.pending.find id = some p)
    (hfailed : ∀ callback result, .called callback result ∈ more → result.ok = false) :
    Unanswered before s' (out ++ more) := by
  refine ⟨fun id p hf => h.kept id p (hkept id p hf), fun callback result hmem => ?_⟩
  rcases List.mem_append.mp hmem with hold | hnew
  · exact h.failed callback result hold
  · exact hfailed callback result hnew

/-- A successful result is the well-formed answer to its request: the hash is valid, the
metrics are numbers and the match flag tells whether it is the claimed hash. -/
theorem verifyResult_ok (env : Env) {doc : Json} {id : ℕ} {p : Pending κ}
    (h : (verifyResult env doc id p).ok = true) :
    doc.getBool "ok" false = true ∧ validHash (doc.getString "hash" "") = true ∧
      doc.member "match" =
        some (.bool (sameHash p.request.claimedHash (doc.getString "hash" ""))) ∧
      validMetric doc "queue_ms" = true ∧ validMetric doc "hash_ms" = true ∧
      validMetric doc "total_ms" = true ∧
      (verifyResult env doc id p).hash = doc.getString "hash" "" := by
  unfold verifyResult at h ⊢
  dsimp only at h ⊢
  split at h
  · cases h
  · next hvalid =>
    split at h
    · next hok =>
      simp only [hok, Bool.true_and, Bool.not_eq_true', Bool.not_eq_false] at hvalid
      split at h
      · next flag hmatch =>
        split at h
        · cases h
        · next hmetric =>
          split at h
          · cases h
          · next hflag =>
            have hflag' : flag = sameHash p.request.claimedHash (doc.getString "hash" "") := by
              simpa using hflag
            simp only [Bool.or_eq_true, Bool.not_eq_true', not_or, Bool.not_eq_false] at hmetric
            obtain ⟨⟨hqueue, hhash⟩, htotal⟩ := hmetric
            simp [hok, hvalid, hmatch, hqueue, hhash, htotal, hflag']
      · cases h
    · next hok =>
      split at h
      · exact absurd h hok
      · exact absurd h hok

variable (env : Env) (before)

theorem unanswered_failAll (error : String) :
    Preserves (Unanswered before) (failAll env error) := by
  intro s tr h
  refine h.append (by simp [failAll]) fun callback result hmem => ?_
  obtain ⟨e, -, heq⟩ := List.mem_map.mp hmem
  simp only [Output.called.injEq] at heq
  obtain ⟨-, rfl⟩ := heq
  rfl

theorem unanswered_stop : Preserves (Unanswered before) (stop env) := by
  intro s tr h
  by_cases hs : s.stopping = true
  · simpa [stop, hs] using h
  · have hf := unanswered_failAll before env "verifier stopped" { s with stopping := true } tr
      (h.frame rfl)
    simp only [stop, hs]
    exact ⟨hf.kept, hf.failed⟩

theorem unanswered_complete {id : ℕ} {pending : Pending κ} {result : Result}
    (h : Unanswered before s out) (hresult : result.ok = false) :
    Unanswered before (complete id pending result s).1
      (out ++ (complete id pending result s).2) := by
  refine h.append (fun i p hf => ?_) fun callback r hmem => ?_
  · have : (s.pending.erase id).find i = some p := hf
    rw [Table.find_erase] at this
    split at this
    · cases this
    · exact this
  · obtain ⟨-, rfl⟩ : callback = pending.callback ∧ r = result := by simpa [complete] using hmem
    exact hresult

theorem unanswered_expireRequest (id : ℕ) :
    Preserves (Unanswered before) (expireRequest env id) := by
  intro s tr h
  unfold expireRequest
  split
  · simpa using h
  · exact unanswered_complete before h rfl

theorem unanswered_cancelOwner (owner : ℕ) :
    Preserves (Unanswered before) (cancelOwner owner) := by
  intro s tr h
  refine h.append (fun id p hf => ?_) fun callback result hmem => ?_
  · have : (s.pending.filter _).find id = some p := hf
    rw [Table.find_filter] at this
    exact (Option.filter_eq_some_iff.mp this).1
  · obtain ⟨e, -, heq⟩ := List.mem_map.mp hmem
    cases heq

variable [DecidableEq κ]

theorem Unanswered.undisturbed {before : State κ} (h : Unanswered before s out) {r : Effect κ}
    (hr : Undisturbed s r) : Unanswered before r.1 (out ++ r.2) := by
  refine ⟨fun id p hf => h.kept id p (hr.pending ▸ hf), fun callback result hmem => ?_⟩
  rcases List.mem_append.mp hmem with hold | hnew
  · exact h.failed callback result hold
  · have hnone : List.countP (isCalled callback) r.2 = 0 := by
      have := hr.finished callback
      unfold finished at this
      omega
    have := List.countP_eq_zero.mp hnone _ hnew
    simp [isCalled] at this

variable (options : Options)

theorem unanswered_disconnect (error : String) (failPending : Bool) :
    Preserves (Unanswered before) (disconnect env error failPending) := by
  intro s tr h
  cases failPending with
  | false => exact h.undisturbed (quiet_disconnect env error s)
  | true =>
      by_cases hc : (!s.connected && !s.pipe) = true
      · simpa [disconnect, hc] using h
      · have hf := unanswered_failAll before env error
          { s with
            connected := false
            ready := false
            controls := ∅
            seeds := s.seeds.map fun _ seed => { seed with status := .wanted, retryAtMs := 0 } }
          tr (h.frame rfl)
        simp only [disconnect, hc, if_true]
        refine ⟨hf.kept, fun callback result hmem => hf.failed callback result ?_⟩
        simpa using hmem

theorem unanswered_expireControls (entries : List (ℕ × Control)) :
    Preserves (Unanswered before) fun s : State κ => (expireControls options env entries s).2 := by
  induction entries with
  | nil =>
      intro s tr h
      simpa [expireControls] using h
  | cons entry rest ih =>
      obtain ⟨id, control⟩ := entry
      intro s tr h
      simp only [expireControls]
      split
      · exact ih s tr h
      · split
        · exact unanswered_disconnect before env _ true s tr h
        · have hone := h.undisturbed (undisturbed_expireControl env id control s)
          simpa [List.append_assoc] using ih _ _ hone

theorem unanswered_tick : Preserves (Unanswered before) (tick options env) := by
  refine Preserves.seq (fun s => Preserves.forEach (unanswered_expireRequest before env) _ s)
    fun s tr h => ?_
  have hc := unanswered_expireControls before env options s.controls.entries s tr h
  dsimp only
  split
  · simpa [List.append_assoc] using hc.undisturbed (quiet_maintain env _)
  · exact hc

theorem unanswered_controlAnswered (doc : Json) (id : ℕ) (control : Control) :
    Preserves (Unanswered before) (controlAnswered env doc id control) := by
  intro s tr h
  unfold controlAnswered
  dsimp only
  cases control.op with
  | hello =>
      dsimp only
      split
      · exact unanswered_disconnect before env _ true s tr h
      · split
        · exact unanswered_disconnect before env _ true s tr h
        · have hs : Unanswered before
            { s with vmPoolSize := doc.getUint "vm_pool_size" 0, ready := true } tr := h.frame rfl
          exact hs.undisturbed
            (Quiet.seq (quiet_requestWantedSeeds (κ := κ) env) (quiet_requestStats env) _)
  | prepareSeed =>
      dsimp only
      split
      · exact unanswered_disconnect before env _ true s tr h
      · exact h.append (fun _ _ hf => hf) (by simp)
  | releaseSeed => exact h.append (fun _ _ hf => hf) (by simp)
  | stats => exact h.append (fun _ _ hf => hf) (by simp)

theorem unanswered_onConnect (accepted : Bool) :
    Preserves (Unanswered before) (onConnect env accepted) := by
  intro s tr h
  unfold onConnect
  split
  · simpa using h
  · split
    · exact unanswered_disconnect before env _ true s tr h
    · have h' : Unanswered before { s with connected := true, ready := false } tr := h.frame rfl
      have hs := h'.undisturbed (quiet_sendControl env .hello "" _)
      dsimp only
      split
      · exact hs
      · simpa [List.append_assoc] using
          unanswered_disconnect before env "failed to send verifier hello" true _ _ hs

/-- A response that answers the pending request `id`. -/
structure Answers (s : State κ) (doc : Json) (id : ℕ) (p : Pending κ) : Prop where
  version : doc.getUint "v" 0 = 1
  response : doc.getUint64 "id" 0 = id
  named : id ≠ 0
  uncontrolled : s.controls.find id = none
  pending : s.pending.find id = some p

/-- A response either answers a pending request, which it completes, or reports no success. -/
theorem handleResponse_cases (doc : Json) (s : State κ) :
    (∃ id p, Answers s doc id p ∧
        handleResponse env doc s = complete id p (verifyResult env doc id p) s) ∨
      Unanswered s (handleResponse env doc s).1 (handleResponse env doc s).2 := by
  unfold handleResponse
  split
  · right
    simpa using unanswered_disconnect s env _ true s [] (unanswered_refl s)
  · next hversion =>
    dsimp only
    split
    · right
      simpa using unanswered_disconnect s env _ true s [] (unanswered_refl s)
    · next hid =>
      split
      · next control hcontrol =>
        right
        have h := unanswered_controlAnswered s env doc (doc.getUint64 "id" 0) control
          { s with controls := s.controls.erase (doc.getUint64 "id" 0) } []
          ((unanswered_refl s).frame rfl)
        simpa using h
      · next hcontrol =>
        split
        · exact Or.inr (unanswered_refl s)
        · next p hp =>
          exact Or.inl ⟨_, p, ⟨by simpa using hversion, rfl, hid, hcontrol, hp⟩, rfl⟩

end XmrigProxy.VerifierAnswers
