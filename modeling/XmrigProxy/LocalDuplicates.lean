import XmrigProxy.Library.Machine
import XmrigProxy.Miner

/-! The shares of jobs without a daemon template are remembered by each miner, as job id and
nonce. -/
namespace XmrigProxy

namespace Miner

inductive Action where
  | issue (job : Job) (hashingBlob : String) (issuedDiff : ℕ)
  | submit (jobId nonce : String) (resultHash : Option String)
  | forget (reservation : SubmissionReservation)
  | advance (ms : ℕ)

inductive Event where
  | issued (now : ℕ) (id : String)
  | answered (now : ℕ) (jobId nonce : String) (result : GlobalShareCache.Result)
      (reservation : SubmissionReservation)
  | forgot (now : ℕ) (key : String) (token : ℕ)
  deriving DecidableEq

def Event.time : Event → ℕ
  | .issued now _ => now
  | .answered now _ _ _ _ => now
  | .forgot now _ _ => now

/-- A miner with the cache of the daemon shares, and everything that happened, the latest last. -/
structure Session where
  now : ℕ
  miner : State
  cache : Cache
  history : List Event := []

def act (s : Session) : Action → Session
  | .issue job hashingBlob issuedDiff =>
      let r := rememberJob s.now job hashingBlob issuedDiff s.miner s.cache
      { s with
        miner := r.1
        cache := r.2
        history := s.history ++ [.issued s.now job.id] }
  | .submit jobId nonce resultHash =>
      match findTelemetryJob s.now jobId s.miner with
      | none => s
      | some job =>
          if isHexOf 4 (some nonce) then
            let r := rememberSubmission s.now job (some jobId) (some nonce)
              resultHash s.miner s.cache
            { s with
              miner := r.2.2.1
              cache := r.2.2.2
              history := s.history ++ [.answered s.now jobId nonce r.1 r.2.1] }
          else s
  | .forget reservation =>
      let r := forgetSubmission reservation s.miner s.cache
      { s with
        miner := r.1
        cache := r.2
        history := if reservation.localKey = "" ∨ reservation.localToken = 0 then s.history
          else s.history ++ [.forgot s.now reservation.localKey reservation.localToken] }
  | .advance ms => { s with now := s.now + ms }

/-- A job that no daemon template made, whose shares the miner remembers itself. -/
def Local (templateSourceId height : ℕ) : Prop := ¬ (templateSourceId ≠ 0 ∧ height ≠ 0)

def Action.IsLocal : Action → Prop
  | .issue job _ _ => Local job.templateSourceId job.height
  | _ => True

/-- What a miner remembers of a submission. -/
def submissionKey (jobId nonce : String) : String := (jobId ++ ":" ++ nonce).toLower

def opened (now key : ℕ) (rpcId : String) (cache : Cache) : Session where
  now := now
  miner := { key := key, rpcId := rpcId }
  cache := cache

section History

/-- The accepted submissions that were not forgotten since. -/
def remembered (entries : List SeenSubmission) : Event → List SeenSubmission
  | .answered now _ _ .accepted r => entries ++ [⟨r.localKey, now, r.localToken⟩]
  | .forgot _ key token => entries.filter fun e => ¬ (e.key = key ∧ e.token = token)
  | _ => entries

def live (history : List Event) : List SeenSubmission := history.foldl remembered []

def Event.isAccepted : Event → Bool
  | .answered _ _ _ .accepted _ => true
  | _ => false

/-- How many submissions were accepted. -/
def accepted (history : List Event) : ℕ := history.countP Event.isAccepted

/-- An accepted submission with this key was neither forgotten nor expired, and fewer than 65535
others were accepted since. -/
def Remembered (now : ℕ) (key : String) (history : List Event) : Prop :=
  ∃ e ∈ live history, e.key = key ∧ now < e.seenAt + submissionTtl ∧
    accepted history + 1 < e.token + maxRememberedSubmissions

/-- What an answer says about the history before it. -/
def Justified (before : List Event) : Event → Prop
  | .answered now jobId nonce result r =>
      isHexOf 4 (some nonce) = true ∧
      (∃ issuedAt, .issued issuedAt jobId ∈ before ∧ now < issuedAt + telemetryJobTtl) ∧
      (result = .duplicate ∧ Remembered now (submissionKey jobId nonce) before ∨
        result = .accepted ∧ r.localKey = submissionKey jobId nonce ∧
          r.localToken = accepted before + 1 ∧
          ¬ Remembered now (submissionKey jobId nonce) before)
  | _ => True

variable {history : List Event} {event : Event}

theorem live_snoc (history : List Event) (event : Event) :
    live (history ++ [event]) = remembered (live history) event := by
  unfold live
  rw [List.foldl_append]
  rfl

theorem accepted_snoc (history : List Event) (event : Event) : accepted (history ++ [event]) =
    accepted history + if event.isAccepted then 1 else 0 := by
  unfold accepted
  rw [List.countP_append, List.countP_singleton]

theorem accepted_append (first second : List Event) :
    accepted (first ++ second) = accepted first + accepted second := List.countP_append

/-- An entry is lost by forgetting it only. -/
theorem mem_live_append {e : SeenSubmission} (he : e ∈ live history) (later : List Event)
    (hkept : ∀ now, .forgot now e.key e.token ∉ later) : e ∈ live (history ++ later) := by
  induction later using List.reverseRecOn with
  | nil =>
      rw [List.append_nil]
      exact he
  | append_singleton later event ih =>
      have hbefore := ih fun now h => hkept now (List.mem_append_left _ h)
      rw [← List.append_assoc, live_snoc]
      unfold remembered
      split
      · exact List.mem_append_left _ hbefore
      · next now key token =>
          rw [List.mem_filter]
          refine ⟨hbefore, decide_eq_true ?_⟩
          rintro ⟨rfl, rfl⟩
          exact hkept now (List.mem_append_right _ List.mem_cons_self)
      · exact hbefore

/-- An entry is there because a submission was accepted. -/
theorem mem_live {e : SeenSubmission} (he : e ∈ live history) :
    ∃ before jobId nonce r after, history =
      before ++ .answered e.seenAt jobId nonce .accepted r :: after ∧ e.key = r.localKey ∧
      e.token = r.localToken := by
  induction history using List.reverseRecOn with
  | nil => exact absurd he List.not_mem_nil
  | append_singleton history event ih =>
      have hearlier : e ∈ live history → ∃ before jobId nonce r after, history ++ [event] =
          before ++ .answered e.seenAt jobId nonce .accepted r :: after ∧
          e.key = r.localKey ∧ e.token = r.localToken := by
        intro hold
        obtain ⟨before, jobId, nonce, r, after, rfl, hkey⟩ := ih hold
        refine ⟨before, jobId, nonce, r, after ++ [event], ?_, hkey⟩
        rw [List.append_assoc]
        rfl
      rw [live_snoc] at he
      unfold remembered at he
      split at he
      · next now jobId nonce r =>
          rcases List.mem_append.mp he with hold | hnew
          · exact hearlier hold
          · rw [List.mem_singleton.mp hnew]
            exact ⟨history, jobId, nonce, r, [], rfl, rfl, rfl⟩
      · exact hearlier (List.mem_of_mem_filter he)
      · exact hearlier he

end History

section Memory

/-- The queue holds the latest accepted submissions: one with `rest` behind it is followed by as
many tokens. -/
def Numbered (sequence : ℕ) (seen : List SeenSubmission) : Prop :=
  ∀ front e rest, seen = front ++ e :: rest → e.token + rest.length = sequence

/-- The stamps are those of the entries of the queue that are live. -/
def Stamped (entries seen : List SeenSubmission) (times : Table String SeenSubmissionStamp) :
    Prop :=
  ∀ key stamp, times.find key = some stamp ↔
    ⟨key, stamp.seenAt, stamp.token⟩ ∈ seen ∧ ⟨key, stamp.seenAt, stamp.token⟩ ∈ entries

variable {now sequence : ℕ} {entries seen rest : List SeenSubmission} {oldest e : SeenSubmission}
  {times : Table String SeenSubmissionStamp}

theorem Numbered.tail (h : Numbered sequence (oldest :: seen)) : Numbered sequence seen := by
  intro front e rest heq
  exact h (oldest :: front) e rest (congrArg (oldest :: ·) heq)

theorem Numbered.head (h : Numbered sequence (oldest :: seen)) :
    oldest.token + seen.length = sequence := h [] oldest seen rfl

theorem Numbered.token_le (h : Numbered sequence seen) (he : e ∈ seen) :
    sequence < e.token + seen.length ∧ e.token ≤ sequence := by
  obtain ⟨front, rest, rfl⟩ := List.append_of_mem he
  have htoken := h front e rest rfl
  rw [List.length_append, List.length_cons]
  omega

/-- Later entries have greater tokens. -/
theorem Numbered.token_ne (h : Numbered sequence (oldest :: seen)) (he : e ∈ seen) :
    e.token ≠ oldest.token := by
  have hhead := h.head
  have hlater := (h.tail.token_le he).1
  omega

theorem Numbered.snoc (h : Numbered sequence seen) (key : String) :
    Numbered (sequence + 1) (seen ++ [⟨key, now, sequence + 1⟩]) := by
  intro front e rest heq
  rcases List.eq_nil_or_concat rest with rfl | ⟨init, last, rfl⟩
  · obtain ⟨-, hlast⟩ := List.append_inj' heq rfl
    obtain ⟨rfl, -⟩ := List.cons.inj hlast
    rfl
  · rw [List.concat_eq_append, ← List.cons_append, ← List.append_assoc] at heq
    obtain ⟨hinit, -⟩ := List.append_inj' heq rfl
    have htoken := h front e init hinit
    rw [List.concat_eq_append, List.length_append, List.length_singleton]
    omega

/-- A queue without its oldest entry, whose stamp goes with it. -/
theorem Stamped.pop (h : Stamped entries (oldest :: seen) times)
    (hnumbered : Numbered sequence (oldest :: seen)) : Stamped entries seen
      (if (times.find oldest.key).map SeenSubmissionStamp.token = some oldest.token then
        times.erase oldest.key else times) := by
  intro key stamp
  split
  · next hstamp =>
      obtain ⟨current, hfind, htoken⟩ := Option.map_eq_some_iff.mp hstamp
      by_cases hkey : key = oldest.key
      · rw [hkey, Table.find_erase_self]
        refine iff_of_false (fun hnone => nomatch hnone) ?_
        rintro ⟨hseen, hlive⟩
        have hsame := (h oldest.key stamp).mpr ⟨List.mem_cons_of_mem _ hseen, hlive⟩
        obtain rfl := Option.some.inj (hfind.symm.trans hsame)
        exact hnumbered.token_ne hseen htoken
      · rw [Table.find_erase_of_ne _ hkey, h key stamp]
        refine and_congr_left fun _ => ?_
        rw [List.mem_cons]
        apply or_iff_right
        intro heq
        exact hkey (congrArg SeenSubmission.key heq)
  · next hstamp =>
      rw [h key stamp]
      refine and_congr_left fun hlive => ?_
      rw [List.mem_cons]
      apply or_iff_right
      intro heq
      apply hstamp
      have hfind := (h key stamp).mpr ⟨by rw [heq]; exact List.mem_cons_self, hlive⟩
      rw [← heq, hfind]
      rfl

variable (now) in
/-- What the queue loses, and that nothing in front of it is left to lose. -/
theorem expireSeen_spec (hnumbered : Numbered sequence seen)
    (hstamped : Stamped entries seen times) :
    (expireSeen now seen times).1 <:+ seen ∧
    Stamped entries (expireSeen now seen times).1 (expireSeen now seen times).2 ∧
    (∀ e ∈ seen, e ∈ (expireSeen now seen times).1 ∨ e.seenAt + submissionTtl ≤ now ∨
      e.token + maxRememberedSubmissions ≤ sequence + 1) ∧
    (∀ first rest, (expireSeen now seen times).1 = first :: rest →
      now < first.seenAt + submissionTtl ∧ rest.length + 1 < maxRememberedSubmissions) := by
  induction seen generalizing times with
  | nil =>
      refine ⟨List.suffix_rfl, hstamped, ?_, ?_⟩
      · intro e he
        exact absurd he List.not_mem_nil
      · intro first rest heq
        exact nomatch heq
  | cons oldest seen ih =>
      unfold expireSeen
      by_cases hdrop : oldest.seenAt + submissionTtl ≤ now ∨
          maxRememberedSubmissions ≤ seen.length + 1
      · rw [if_pos hdrop]
        obtain ⟨hsuffix, hstamps, hlost, hfront⟩ := ih hnumbered.tail (hstamped.pop hnumbered)
        refine ⟨hsuffix.trans (List.suffix_cons _ _), hstamps, ?_, hfront⟩
        intro e he
        rcases List.mem_cons.mp he with rfl | he
        · have htoken := hnumbered.head
          rcases hdrop with hold | hfull
          · exact Or.inr (Or.inl hold)
          · exact Or.inr (Or.inr (by omega))
        · exact hlost e he
      · rw [if_neg hdrop]
        refine ⟨List.suffix_rfl, hstamped, fun e he => Or.inl he, ?_⟩
        intro first rest heq
        obtain ⟨rfl, rfl⟩ := List.cons.inj heq
        omega

end Memory

/-- What holds of a miner in any run over local jobs. -/
structure Recalls (s : Session) : Prop where
  sequence : s.miner.submissionSequence = accepted s.history
  numbered : Numbered s.miner.submissionSequence s.miner.seenSubmissions
  stamped : Stamped (live s.history) s.miner.seenSubmissions s.miner.seenSubmissionTimes
  sorted : s.miner.seenSubmissions.Pairwise fun earlier later => earlier.seenAt ≤ later.seenAt
  past : ∀ e ∈ s.miner.seenSubmissions, e.seenAt ≤ s.now
  kept : ∀ e ∈ live s.history, e ∈ s.miner.seenSubmissions ∨ e.seenAt + submissionTtl ≤ s.now ∨
    e.token + maxRememberedSubmissions ≤ s.miner.submissionSequence + 1
  jobs : ∀ job ∈ s.miner.telemetryJobs, .issued job.issuedAt job.id ∈ s.history ∧
    Local job.templateSourceId job.height
  ordered : s.history.Pairwise fun earlier later => earlier.time ≤ later.time
  happened : ∀ event ∈ s.history, event.time ≤ s.now
  justified : Along Justified s.history

section Steps

variable {s : Session}

theorem Recalls.ordered_snoc (h : Recalls s) (event : Event) (htime : event.time = s.now) :
    (s.history ++ [event]).Pairwise (fun earlier later => earlier.time ≤ later.time) ∧
      ∀ e ∈ s.history ++ [event], e.time ≤ s.now := by
  constructor
  · rw [List.pairwise_append]
    refine ⟨h.ordered, List.pairwise_singleton _ _, ?_⟩
    intro earlier hearlier later hlater
    rw [List.mem_singleton.mp hlater, htime]
    exact h.happened earlier hearlier
  · intro e he
    rcases List.mem_append.mp he with he | he
    · exact h.happened e he
    · rw [List.mem_singleton.mp he, htime]

theorem recalls_issue (h : Recalls s) (job : Job) (hashingBlob : String) (issuedDiff : ℕ)
    (hlocal : Local job.templateSourceId job.height) :
    Recalls (act s (.issue job hashingBlob issuedDiff)) := by
  obtain ⟨hordered, hhappened⟩ := h.ordered_snoc (.issued s.now job.id) rfl
  have hlive : live (s.history ++ [.issued s.now job.id]) = live s.history := live_snoc _ _
  constructor
  · change s.miner.submissionSequence = accepted (s.history ++ [_])
    rw [accepted_snoc]
    exact h.sequence
  · exact h.numbered
  · change Stamped (live (s.history ++ [_])) _ _
    rw [hlive]
    exact h.stamped
  · exact h.sorted
  · exact h.past
  · change ∀ e ∈ live (s.history ++ [_]), _
    rw [hlive]
    exact h.kept
  · intro telemetry hretained
    have hmem := List.mem_of_mem_take hretained
    rcases List.mem_cons.mp hmem with rfl | hold
    · exact ⟨List.mem_append_right _ List.mem_cons_self, hlocal⟩
    · exact ⟨List.mem_append_left _ (h.jobs telemetry hold).1, (h.jobs telemetry hold).2⟩
  · exact hordered
  · exact hhappened
  · exact h.justified.snoc trivial

theorem recalls_advance (h : Recalls s) (ms : ℕ) : Recalls (act s (.advance ms)) where
  sequence := h.sequence
  numbered := h.numbered
  stamped := h.stamped
  sorted := h.sorted
  past := fun e he => Nat.le_add_right_of_le (h.past e he)
  kept := by
    intro e he
    rcases h.kept e he with hseen | hold | hfull
    · exact Or.inl hseen
    · exact Or.inr (Or.inl (Nat.le_add_right_of_le hold))
    · exact Or.inr (Or.inr hfull)
  jobs := h.jobs
  ordered := h.ordered
  happened := fun event hevent => Nat.le_add_right_of_le (h.happened event hevent)
  justified := h.justified

/-- The stamps after one reservation was forgotten. -/
theorem Stamped.forget {entries seen : List SeenSubmission}
    {times : Table String SeenSubmissionStamp} (h : Stamped entries seen times) (key : String)
    (token : ℕ) : Stamped (entries.filter fun e => ¬ (e.key = key ∧ e.token = token)) seen
      (if (times.find key).map SeenSubmissionStamp.token = some token then times.erase key
        else times) := by
  intro key' stamp
  rw [List.mem_filter, decide_eq_true_eq]
  split
  · next hstamp =>
      obtain ⟨current, hfind, htoken⟩ := Option.map_eq_some_iff.mp hstamp
      by_cases hkey : key' = key
      · rw [hkey, Table.find_erase_self]
        refine iff_of_false (fun hnone => nomatch hnone) ?_
        rintro ⟨hseen, hlive, hother⟩
        obtain rfl := Option.some.inj (hfind.symm.trans ((h key stamp).mpr ⟨hseen, hlive⟩))
        exact hother ⟨rfl, htoken⟩
      · rw [Table.find_erase_of_ne _ hkey, h key' stamp]
        exact and_congr_right fun _ => (and_iff_left fun hsame => hkey hsame.1).symm
  · next hstamp =>
      rw [h key' stamp]
      refine and_congr_right fun hseen => ?_
      constructor
      · intro hlive
        refine ⟨hlive, ?_⟩
        rintro ⟨rfl, rfl⟩
        apply hstamp
        rw [(h key' stamp).mpr ⟨hseen, hlive⟩]
        rfl
      · exact fun hboth => hboth.1

theorem recalls_forget (h : Recalls s) (reservation : SubmissionReservation) :
    Recalls (act s (.forget reservation)) := by
  unfold act forgetSubmission
  dsimp only
  by_cases hnone : reservation.localKey = "" ∨ reservation.localToken = 0
  · rw [if_pos hnone, if_pos hnone]
    exact ⟨h.sequence, h.numbered, h.stamped, h.sorted, h.past, h.kept, h.jobs, h.ordered,
      h.happened, h.justified⟩
  · rw [if_neg hnone, if_neg hnone]
    obtain ⟨hordered, hhappened⟩ := h.ordered_snoc
      (.forgot s.now reservation.localKey reservation.localToken) rfl
    have hlive := live_snoc s.history (.forgot s.now reservation.localKey reservation.localToken)
    have hstamped := h.stamped.forget reservation.localKey reservation.localToken
    have hcount := accepted_snoc s.history
      (.forgot s.now reservation.localKey reservation.localToken)
    have hkept : ∀ e ∈ live (s.history ++
        [.forgot s.now reservation.localKey reservation.localToken]),
        e ∈ s.miner.seenSubmissions ∨ e.seenAt + submissionTtl ≤ s.now ∨
          e.token + maxRememberedSubmissions ≤ s.miner.submissionSequence + 1 := by
      intro e he
      rw [hlive] at he
      exact h.kept e (List.mem_of_mem_filter he)
    have hjobs : ∀ job ∈ s.miner.telemetryJobs, .issued job.issuedAt job.id ∈ s.history ++
        [.forgot s.now reservation.localKey reservation.localToken] ∧
        Local job.templateSourceId job.height := fun job hjob =>
      ⟨List.mem_append_left _ (h.jobs job hjob).1, (h.jobs job hjob).2⟩
    have hjustified := h.justified.snoc
      (o := .forgot s.now reservation.localKey reservation.localToken) trivial
    by_cases hstamp : (s.miner.seenSubmissionTimes.find reservation.localKey).map
        SeenSubmissionStamp.token = some reservation.localToken
    · rw [if_pos hstamp] at hstamped ⊢
      exact ⟨h.sequence.trans hcount.symm, h.numbered, hlive ▸ hstamped, h.sorted, h.past, hkept,
        hjobs, hordered, hhappened, hjustified⟩
    · rw [if_neg hstamp] at hstamped ⊢
      exact ⟨h.sequence.trans hcount.symm, h.numbered, hlive ▸ hstamped, h.sorted, h.past, hkept,
        hjobs, hordered, hhappened, hjustified⟩

/-- After the loop over the queue, an entry of it is fresh. -/
theorem expired_fresh (h : Recalls s) {e : SeenSubmission}
    (he : e ∈ (expireSeen s.now s.miner.seenSubmissions s.miner.seenSubmissionTimes).1) :
    s.now < e.seenAt + submissionTtl ∧
      s.miner.submissionSequence + 1 < e.token + maxRememberedSubmissions := by
  obtain ⟨hsuffix, -, -, hfront⟩ := expireSeen_spec s.now h.numbered h.stamped
  have hnumbered : Numbered s.miner.submissionSequence
      (expireSeen s.now s.miner.seenSubmissions s.miner.seenSubmissionTimes).1 := by
    obtain ⟨lost, hlost⟩ := hsuffix
    intro front e rest heq
    apply h.numbered (lost ++ front) e rest
    rw [← hlost, heq, List.append_assoc]
  have hsorted := h.sorted.sublist hsuffix.sublist
  rcases hqueue : (expireSeen s.now s.miner.seenSubmissions s.miner.seenSubmissionTimes).1 with
    _ | ⟨first, rest⟩
  · rw [hqueue] at he
    exact absurd he List.not_mem_nil
  · obtain ⟨hfirst, hsize⟩ := hfront first rest hqueue
    rw [hqueue] at he hnumbered hsorted
    have htoken := (hnumbered.token_le he).1
    rw [List.length_cons] at htoken
    refine ⟨?_, by omega⟩
    rcases List.mem_cons.mp he with rfl | hrest
    · exact hfirst
    · have := (List.pairwise_cons.mp hsorted).1 e hrest
      omega

/-- The lookup of a key after the loop tells whether the submission is remembered. -/
theorem remembered_iff (h : Recalls s) (key : String) :
    ((expireSeen s.now s.miner.seenSubmissions s.miner.seenSubmissionTimes).2.find key).any
        (fun stamp => s.now < stamp.seenAt + submissionTtl) = true ↔
      Remembered s.now key s.history := by
  obtain ⟨-, hstamped, hlost, -⟩ := expireSeen_spec s.now h.numbered h.stamped
  rw [Option.any_eq_true_iff_get]
  unfold Remembered
  rw [← h.sequence]
  constructor
  · rintro ⟨hsome, hfresh⟩
    obtain ⟨stamp, hfind⟩ := Option.isSome_iff_exists.mp hsome
    obtain ⟨hseen, hlive⟩ := (hstamped key stamp).mp hfind
    obtain ⟨hnew, hfew⟩ := expired_fresh h hseen
    exact ⟨_, hlive, rfl, hnew, hfew⟩
  · rintro ⟨e, hlive, rfl, hnew, hfew⟩
    have hseen : e ∈ (expireSeen s.now s.miner.seenSubmissions s.miner.seenSubmissionTimes).1 := by
      rcases h.kept e hlive with hqueue | hold | hfull
      · rcases hlost e hqueue with hstill | hold | hfull
        · exact hstill
        · omega
        · omega
      · omega
      · omega
    have hfind := (hstamped e.key ⟨e.seenAt, e.token⟩).mpr ⟨hseen, hlive⟩
    refine ⟨Option.isSome_iff_exists.mpr ⟨_, hfind⟩, ?_⟩
    simp only [hfind, Option.get_some, decide_eq_true_eq]
    exact hnew

/-- The memory after a submission that was refused. -/
def forgetExpired (now : ℕ) (m : State) : State :=
  { m with
    seenSubmissions := (expireSeen now m.seenSubmissions m.seenSubmissionTimes).1
    seenSubmissionTimes := (expireSeen now m.seenSubmissions m.seenSubmissionTimes).2 }

/-- The memory after a submission that was accepted. -/
def enter (now : ℕ) (key : String) (m : State) : State :=
  { m with
    submissionSequence := m.submissionSequence + 1
    seenSubmissions := m.seenSubmissions ++ [⟨key, now, m.submissionSequence + 1⟩]
    seenSubmissionTimes := m.seenSubmissionTimes.insert key ⟨now, m.submissionSequence + 1⟩ }

theorem rememberSubmission_local {job : TelemetryJob}
    (hlocal : Local job.templateSourceId job.height) (now : ℕ) (jobId nonce : String)
    (resultHash : Option String) (m : State) (cache : Cache) :
    rememberSubmission now job (some jobId) (some nonce) resultHash m cache =
      if ((forgetExpired now m).seenSubmissionTimes.find (submissionKey jobId nonce)).any
          (fun stamp => now < stamp.seenAt + submissionTtl) then
        (.duplicate, {}, forgetExpired now m, cache)
      else (.accepted, ⟨{}, {}, submissionKey jobId nonce, m.submissionSequence + 1⟩,
        enter now (submissionKey jobId nonce) (forgetExpired now m), cache) := if_neg hlocal

/-- A refused submission only clears the queue. -/
theorem recalls_refused (h : Recalls s) (event : Event) (htime : event.time = s.now)
    (hlive : live (s.history ++ [event]) = live s.history)
    (hcount : accepted (s.history ++ [event]) = accepted s.history)
    (hjustified : Justified s.history event) (cache : Cache) :
    Recalls ⟨s.now, forgetExpired s.now s.miner, cache, s.history ++ [event]⟩ := by
  obtain ⟨hsuffix, hstamped, hlost, -⟩ := expireSeen_spec s.now h.numbered h.stamped
  obtain ⟨hordered, hhappened⟩ := h.ordered_snoc event htime
  constructor
  · exact h.sequence.trans hcount.symm
  · obtain ⟨lost, hlost⟩ := hsuffix
    intro front e rest heq
    apply h.numbered (lost ++ front) e rest
    rw [← hlost, List.append_assoc]
    exact congrArg (lost ++ ·) heq
  · change Stamped (live (s.history ++ [event])) _ _
    rw [hlive]
    exact hstamped
  · exact h.sorted.sublist hsuffix.sublist
  · exact fun e he => h.past e (hsuffix.subset he)
  · change ∀ e ∈ live (s.history ++ [event]), _
    rw [hlive]
    intro e he
    rcases h.kept e he with hqueue | hgone
    · exact hlost e hqueue
    · exact Or.inr hgone
  · exact fun job hjob => ⟨List.mem_append_left _ (h.jobs job hjob).1, (h.jobs job hjob).2⟩
  · exact hordered
  · exact hhappened
  · exact h.justified.snoc hjustified

/-- The stamps after an entry whose key none of the live ones had. -/
theorem Stamped.enter {sequence now : ℕ} {entries seen : List SeenSubmission}
    {times : Table String SeenSubmissionStamp} (h : Stamped entries seen times) {key : String}
    (hfresh : ∀ e ∈ seen, e ∈ entries → e.key ≠ key) :
    Stamped (entries ++ [⟨key, now, sequence + 1⟩]) (seen ++ [⟨key, now, sequence + 1⟩])
      (times.insert key ⟨now, sequence + 1⟩) := by
  intro key' stamp
  rw [Table.find_insert, List.mem_append, List.mem_append, List.mem_singleton,
    SeenSubmission.mk.injEq]
  by_cases hkey : key' = key
  · rw [if_pos hkey]
    constructor
    · intro hstamp
      obtain rfl := Option.some.inj hstamp
      exact ⟨Or.inr ⟨hkey, rfl, rfl⟩, Or.inr ⟨hkey, rfl, rfl⟩⟩
    · rintro ⟨hseen | ⟨-, hat, htoken⟩, hlive | ⟨-, hat, htoken⟩⟩
      · exact absurd hkey (hfresh _ hseen hlive)
      all_goals
        obtain ⟨seenAt, token⟩ := stamp
        obtain rfl : seenAt = now := hat
        obtain rfl : token = sequence + 1 := htoken
        rfl
  · rw [if_neg hkey, h key' stamp]
    have hold : ∀ entered : Prop, entered ∨ (key' = key ∧ stamp.seenAt = now ∧
        stamp.token = sequence + 1) ↔ entered := fun entered =>
      or_iff_left fun hboth => hkey hboth.1
    rw [hold, hold]

theorem recalls_accepted (h : Recalls s) {jobId nonce : String} {r : SubmissionReservation}
    (hr : r = ⟨{}, {}, submissionKey jobId nonce, s.miner.submissionSequence + 1⟩)
    (hnew : ¬ Remembered s.now (submissionKey jobId nonce) s.history)
    (hjustified : Justified s.history (.answered s.now jobId nonce .accepted r)) (cache : Cache) :
    Recalls ⟨s.now, enter s.now (submissionKey jobId nonce) (forgetExpired s.now s.miner), cache,
      s.history ++ [.answered s.now jobId nonce .accepted r]⟩ := by
  -- The refused submission at the same time leaves the queue to which the entry is added.
  have hcleared := recalls_refused h (.issued s.now jobId) rfl (live_snoc _ _)
    (accepted_snoc _ _) trivial cache
  obtain ⟨hordered, hhappened⟩ := h.ordered_snoc
    (.answered s.now jobId nonce .accepted r) rfl
  have hclearedLive : live (s.history ++ [.issued s.now jobId]) = live s.history := live_snoc _ _
  have hlive : live (s.history ++ [.answered s.now jobId nonce .accepted r]) =
      live s.history ++ [⟨submissionKey jobId nonce, s.now, s.miner.submissionSequence + 1⟩] := by
    rw [live_snoc, hr]
    rfl
  constructor
  · change s.miner.submissionSequence + 1 = accepted (s.history ++ [_])
    rw [accepted_snoc, h.sequence]
    rfl
  · exact hcleared.numbered.snoc _
  · change Stamped (live (s.history ++ [.answered s.now jobId nonce .accepted r])) _ _
    rw [hlive]
    have hstamped := hcleared.stamped
    rw [hclearedLive] at hstamped
    apply hstamped.enter
    intro e hseen he hkey
    obtain ⟨hfresh, hfew⟩ := expired_fresh h hseen
    rw [h.sequence] at hfew
    exact hnew ⟨e, he, hkey, hfresh, hfew⟩
  · refine List.pairwise_append.mpr ⟨hcleared.sorted, List.pairwise_singleton _ _, ?_⟩
    intro e he later hlater
    rw [List.mem_singleton.mp hlater]
    exact hcleared.past e he
  · intro e he
    rcases List.mem_append.mp he with he | he
    · exact hcleared.past e he
    · rw [List.mem_singleton.mp he]
  · change ∀ e ∈ live (s.history ++ [.answered s.now jobId nonce .accepted r]), _
    rw [hlive]
    intro e he
    rcases List.mem_append.mp he with he | he
    · rw [← hclearedLive] at he
      rcases hcleared.kept e he with hqueue | hold | hfull
      · exact Or.inl (List.mem_append_left _ hqueue)
      · exact Or.inr (Or.inl hold)
      · exact Or.inr (Or.inr (Nat.le_succ_of_le hfull))
    · exact Or.inl (List.mem_append_right _ he)
  · exact fun job hjob => ⟨List.mem_append_left _ (h.jobs job hjob).1, (h.jobs job hjob).2⟩
  · exact hordered
  · exact hhappened
  · exact h.justified.snoc hjustified

theorem recalls_submit (h : Recalls s) (jobId nonce : String) (resultHash : Option String) :
    Recalls (act s (.submit jobId nonce resultHash)) := by
  unfold act
  dsimp only
  split
  · exact h
  · next job hfind =>
      split
      · next hnonce =>
          have hmem := List.mem_of_find?_eq_some hfind
          have hfound := List.find?_some hfind
          rw [Bool.and_eq_true, decide_eq_true_eq] at hfound
          obtain ⟨hissued, hlocal⟩ := h.jobs job hmem
          have hjob : ∃ issuedAt, .issued issuedAt jobId ∈ s.history ∧
              s.now < issuedAt + telemetryJobTtl := by
            refine ⟨job.issuedAt, ?_, of_decide_eq_true hfound.2⟩
            rw [← hfound.1]
            exact hissued
          rw [rememberSubmission_local hlocal]
          by_cases hduplicate : ((forgetExpired s.now s.miner).seenSubmissionTimes.find
              (submissionKey jobId nonce)).any
              (fun stamp => s.now < stamp.seenAt + submissionTtl) = true
          · rw [if_pos hduplicate]
            have hremembered := (remembered_iff h _).mp hduplicate
            have hjustified : Justified s.history (.answered s.now jobId nonce .duplicate {}) :=
              ⟨hnonce, hjob, Or.inl ⟨rfl, hremembered⟩⟩
            exact recalls_refused h _ rfl (live_snoc _ _) (accepted_snoc _ _) hjustified _
          · rw [if_neg hduplicate]
            have hnew := fun hremembered => hduplicate ((remembered_iff h _).mpr hremembered)
            refine recalls_accepted h rfl hnew
              ⟨hnonce, hjob, Or.inr ⟨rfl, rfl, ?_, hnew⟩⟩ _
            rw [h.sequence]
      · exact h

theorem recalls_act (h : Recalls s) (action : Action) (hlocal : action.IsLocal) :
    Recalls (act s action) := by
  cases action with
  | issue job hashingBlob issuedDiff => exact recalls_issue h job hashingBlob issuedDiff hlocal
  | submit jobId nonce resultHash => exact recalls_submit h jobId nonce resultHash
  | forget reservation => exact recalls_forget h reservation
  | advance ms => exact recalls_advance h ms

theorem recalls_opened (now key : ℕ) (rpcId : String) (cache : Cache) :
    Recalls (opened now key rpcId cache) where
  sequence := rfl
  numbered := by
    intro front e rest heq
    exact absurd heq.symm (List.append_ne_nil_of_right_ne_nil _ (List.cons_ne_nil _ _))
  stamped := by
    intro key stamp
    exact iff_of_false (fun h => nomatch h) fun h => List.not_mem_nil h.1
  sorted := List.Pairwise.nil
  past := fun e he => absurd he List.not_mem_nil
  kept := fun e he => absurd he List.not_mem_nil
  jobs := fun job hjob => absurd hjob List.not_mem_nil
  ordered := List.Pairwise.nil
  happened := fun event hevent => absurd hevent List.not_mem_nil
  justified := along_nil _

theorem recalls_run (actions : List Action) (hlocal : ∀ action ∈ actions, action.IsLocal)
    (h : Recalls s) : Recalls (actions.foldl act s) := by
  induction actions generalizing s with
  | nil => exact h
  | cons action rest ih =>
      exact ih (fun a ha => hlocal a (List.mem_cons_of_mem _ ha))
        (recalls_act h action (hlocal action List.mem_cons_self))

end Steps

section Keys

variable {jobId jobId' nonce nonce' : String}

theorem toList_toLower (text : String) : text.toLower.toList = text.toList.map Char.toLower :=
  String.toList_map

theorem submissionKey_toList (jobId nonce : String) : (submissionKey jobId nonce).toList =
    (jobId.toLower.toList ++ [':']) ++ nonce.toList.map Char.toLower := by
  unfold submissionKey
  rw [toList_toLower, String.toList_append, String.toList_append, List.map_append,
    List.map_append, toList_toLower]
  rfl

/-- The keys of two valid nonces agree when the bytes do, and the job ids but for the case. -/
theorem submissionKey_eq_iff (hnonce : isHexOf 4 (some nonce) = true)
    (hnonce' : isHexOf 4 (some nonce') = true) :
    submissionKey jobId nonce = submissionKey jobId' nonce' ↔
      jobId.toLower = jobId'.toLower ∧ Hex.decode nonce.toList = Hex.decode nonce'.toList := by
  have hvalid : ∀ text : String, isHexOf 4 (some text) = true →
      ∃ bs, Hex.decode text.toList = some bs ∧ text.toList.length = 8 := by
    intro text htext
    unfold isHexOf at htext
    rw [Option.any_some, Bool.and_eq_true, decide_eq_true_eq] at htext
    obtain ⟨bs, hbs⟩ := Option.isSome_iff_exists.mp htext.2
    exact ⟨bs, hbs, htext.1⟩
  obtain ⟨bs, hbs, hlength⟩ := hvalid nonce hnonce
  obtain ⟨bs', hbs', hlength'⟩ := hvalid nonce' hnonce'
  rw [← String.toList_inj, submissionKey_toList, submissionKey_toList, hbs, hbs',
    Option.some.injEq, ← Hex.map_toLower_eq_iff hbs hbs', ← String.toList_inj]
  constructor
  · intro heq
    obtain ⟨hid, hbytes⟩ := List.append_inj' heq (by
      rw [List.length_map, List.length_map, hlength, hlength'])
    exact ⟨(List.append_inj' hid rfl).1, hbytes⟩
  · rintro ⟨hid, hbytes⟩
    rw [hid, hbytes]

end Keys

/-- A nonce is accepted again for a job id only after it was forgotten, after 65535 others were
accepted, or after two minutes if the id was issued again. A duplicate is one of an accepted
submission whose job id differs in case at most. -/
theorem local_duplicates (now key : ℕ) (rpcId : String) (cache : Cache) (actions : List Action)
    (hlocal : ∀ action ∈ actions, action.IsLocal) :
    (∀ before between after jobId nonce nonce' t t' r r',
      (actions.foldl act (opened now key rpcId cache)).history =
        before ++ .answered t jobId nonce .accepted r ::
          (between ++ .answered t' jobId nonce' .accepted r' :: after) →
      Hex.decode nonce.toList = Hex.decode nonce'.toList →
      (∃ u, .forgot u r.localKey r.localToken ∈ between) ∨
        maxRememberedSubmissions ≤ accepted between + 1 ∨
        ((∃ u, .issued u jobId ∈ between) ∧ t + submissionTtl ≤ t')) ∧
    (∀ before after jobId nonce t r,
      (actions.foldl act (opened now key rpcId cache)).history =
        before ++ .answered t jobId nonce .duplicate r :: after →
      ∃ first between jobId' nonce' t' r',
        before = first ++ .answered t' jobId' nonce' .accepted r' :: between ∧
        jobId'.toLower = jobId.toLower ∧ Hex.decode nonce'.toList = Hex.decode nonce.toList) := by
  have h := recalls_run actions hlocal (recalls_opened now key rpcId cache)
  constructor
  · intro before between after jobId nonce nonce' t t' r r' hhistory hbytes
    rw [or_iff_not_imp_left, or_iff_not_imp_left]
    intro hkept hfew
    obtain ⟨hnonce, -, hfirst⟩ := h.justified before _ _ hhistory
    have hsplit : (actions.foldl act (opened now key rpcId cache)).history =
        (before ++ .answered t jobId nonce .accepted r :: between) ++
          .answered t' jobId nonce' .accepted r' :: after := by
      rw [hhistory, List.append_assoc]
      rfl
    obtain ⟨hnonce', ⟨issuedAt, hissued, hfound⟩, hsecond⟩ := h.justified _ _ _ hsplit
    obtain ⟨-, hkey, htoken, -⟩ := hfirst.resolve_left fun hboth => nomatch hboth.1
    obtain ⟨-, -, -, hnew⟩ := hsecond.resolve_left fun hboth => nomatch hboth.1
    have hlater : (before ++ [.answered t jobId nonce .accepted r]) ++ between =
        before ++ .answered t jobId nonce .accepted r :: between := List.append_assoc _ _ _
    have hlive : ⟨r.localKey, t, r.localToken⟩ ∈
        live (before ++ .answered t jobId nonce .accepted r :: between) := by
      rw [← hlater]
      apply mem_live_append
      · rw [live_snoc]
        exact List.mem_append_right _ List.mem_cons_self
      · exact fun u hu => hkept ⟨u, hu⟩
    have hcount : accepted (before ++ .answered t jobId nonce .accepted r :: between) =
        accepted before + 1 + accepted between := by
      rw [← hlater, accepted_append, accepted_snoc]
      rfl
    -- Otherwise the entry would still be remembered.
    have hexpired : t + submissionTtl ≤ t' := by
      by_contra hfresh
      refine hnew ⟨_, hlive, ?_, Nat.lt_of_not_le hfresh, ?_⟩
      · change r.localKey = _
        rw [hkey, submissionKey_eq_iff hnonce hnonce']
        exact ⟨rfl, hbytes⟩
      · change _ < r.localToken + _
        rw [hcount, htoken]
        omega
    refine ⟨?_, hexpired⟩
    rcases List.mem_append.mp hissued with hbefore | hmiddle
    · have hordered := (List.pairwise_append.mp (hhistory ▸ h.ordered)).2.2 _ hbefore _
        List.mem_cons_self
      have hearly : issuedAt ≤ t := hordered
      have hsame : telemetryJobTtl = submissionTtl := rfl
      omega
    · rcases List.mem_cons.mp hmiddle with hnot | hbetween
      · exact nomatch hnot
      · exact ⟨issuedAt, hbetween⟩
  · intro before after jobId nonce t r hhistory
    obtain ⟨hnonce, -, hanswer⟩ := h.justified before _ _ hhistory
    obtain ⟨-, e, hlive, hkey, -⟩ := hanswer.resolve_right fun hboth => nomatch hboth.1
    obtain ⟨first, jobId', nonce', r', between, rfl, hentry, -⟩ := mem_live hlive
    rw [List.append_assoc] at hhistory
    obtain ⟨hnonce', -, hanswer'⟩ := h.justified first _ _ hhistory
    obtain ⟨-, hkey', -⟩ := hanswer'.resolve_left fun hboth => nomatch hboth.1
    have heq : submissionKey jobId' nonce' = submissionKey jobId nonce := by
      rw [← hkey', ← hentry, hkey]
    exact ⟨first, between, jobId', nonce', e.seenAt, r', rfl,
      (submissionKey_eq_iff hnonce' hnonce).mp heq⟩

section Counterexamples

def Findable (s : Session) (jobId : String) : Prop :=
  (findTelemetryJob s.now jobId s.miner).isSome = true

/-- A submission of this job id and nonce is answered in this way. -/
def Answers (s : Session) (jobId nonce : String) (result : GlobalShareCache.Result) : Prop :=
  ∃ r, (act s (.submit jobId nonce none)).history =
    s.history ++ [.answered s.now jobId nonce result r]

/-- The same nonce is accepted before and after `middle`, while the job id remains findable and
nothing is forgotten. -/
def AcceptedTwice (first middle : List Action) (jobId nonce : String) : Prop :=
  let s := first.foldl act (opened 0 1 "" {})
  let entered := act s (.submit jobId nonce none)
  (∀ action ∈ first ++ middle, action.IsLocal) ∧ (∀ r, .forget r ∉ middle) ∧
    Answers s jobId nonce .accepted ∧
    (∀ stage, stage <+: middle → Findable (stage.foldl act entered) jobId) ∧
    Answers (middle.foldl act entered) jobId nonce .accepted

variable {s : Session} {jobId nonce : String}

theorem submit_answers (h : Recalls s) (hfound : Findable s jobId)
    (hnonce : isHexOf 4 (some nonce) = true) :
    (Remembered s.now (submissionKey jobId nonce) s.history →
      (act s (.submit jobId nonce none)).history =
        s.history ++ [.answered s.now jobId nonce .duplicate {}]) ∧
    (¬ Remembered s.now (submissionKey jobId nonce) s.history →
      (act s (.submit jobId nonce none)).history = s.history ++ [.answered s.now jobId nonce
        .accepted ⟨{}, {}, submissionKey jobId nonce, accepted s.history + 1⟩]) ∧
    (act s (.submit jobId nonce none)).miner.telemetryJobs = s.miner.telemetryJobs ∧
    (act s (.submit jobId nonce none)).now = s.now := by
  obtain ⟨job, hjob⟩ := Option.isSome_iff_exists.mp hfound
  have hlocal := (h.jobs job (List.mem_of_find?_eq_some hjob)).2
  unfold act
  dsimp only
  rw [hjob]
  dsimp only
  rw [if_pos hnonce, rememberSubmission_local hlocal]
  have hiff := remembered_iff h (submissionKey jobId nonce)
  by_cases hduplicate : ((forgetExpired s.now s.miner).seenSubmissionTimes.find
      (submissionKey jobId nonce)).any (fun stamp => s.now < stamp.seenAt + submissionTtl) = true
  · rw [if_pos hduplicate]
    exact ⟨fun _ => rfl, fun hnew => absurd (hiff.mp hduplicate) hnew, rfl, rfl⟩
  · rw [if_neg hduplicate, h.sequence]
    exact ⟨fun hremembered => absurd (hiff.mpr hremembered) hduplicate, fun _ => rfl, rfl, rfl⟩

def plainJob (id : String) : Job := { Job.initial with id := id }

theorem plainJob_local (id : String) : (Action.issue (plainJob id) "" 0).IsLocal := fun h => h.1 rfl

/-- Nonces by number. -/
def nonceText (n : ℕ) : String :=
  String.ofList (Hex.encode [UInt8.ofNat (n / 2 ^ 24), UInt8.ofNat (n / 2 ^ 16),
    UInt8.ofNat (n / 2 ^ 8), UInt8.ofNat n])

theorem decode_nonceText (n : ℕ) : Hex.decode (nonceText n).toList = some
    [UInt8.ofNat (n / 2 ^ 24), UInt8.ofNat (n / 2 ^ 16), UInt8.ofNat (n / 2 ^ 8),
      UInt8.ofNat n] := by
  unfold nonceText
  rw [String.toList_ofList, Hex.decode_encode]

theorem isHexOf_nonceText (n : ℕ) : isHexOf 4 (some (nonceText n)) = true := by
  have hlength : (nonceText n).length = 4 * 2 := by
    rw [← String.length_toList, Hex.decode_length (decode_nonceText n)]
    rfl
  unfold isHexOf
  rw [Option.any_some, decode_nonceText, hlength]
  rfl

theorem nonceText_inj {i j : ℕ} (hi : i < 65536) (hj : j < 65536)
    (h : submissionKey "a" (nonceText i) = submissionKey "a" (nonceText j)) : i = j := by
  have hbytes := ((submissionKey_eq_iff (isHexOf_nonceText i) (isHexOf_nonceText j)).mp h).2
  rw [decode_nonceText, decode_nonceText, Option.some.injEq] at hbytes
  obtain ⟨-, hbytes⟩ := List.cons.inj hbytes
  obtain ⟨-, hbytes⟩ := List.cons.inj hbytes
  obtain ⟨hhigh, hbytes⟩ := List.cons.inj hbytes
  obtain ⟨hlow, -⟩ := List.cons.inj hbytes
  have hhigh := congrArg UInt8.toNat hhigh
  have hlow := congrArg UInt8.toNat hlow
  rw [UInt8.toNat_ofNat', UInt8.toNat_ofNat'] at hhigh hlow
  omega

/-- The first `count` nonces were accepted at once for the job `a`, which was issued at first. -/
structure Filled (count : ℕ) (s : Session) : Prop where
  recalls : Recalls s
  now : s.now = 0
  jobs : s.miner.telemetryJobs = [telemetryOf 0 (plainJob "a") "" 0 { key := 1, rpcId := "" }]
  live : live s.history = (List.range count).map fun j =>
    ⟨submissionKey "a" (nonceText j), 0, j + 1⟩
  accepted : accepted s.history = count

theorem Filled.findable {count : ℕ} (h : Filled count s) : Findable s "a" := by
  unfold Findable findTelemetryJob
  rw [h.jobs, h.now]
  decide

theorem Filled.enter {count : ℕ} (h : Filled count s) (hcount : count < 65536) :
    Filled (count + 1) (act s (.submit "a" (nonceText count) none)) ∧
      Answers s "a" (nonceText count) .accepted := by
  have hnew : ¬ Remembered s.now (submissionKey "a" (nonceText count)) s.history := by
    rintro ⟨e, he, hkey, -⟩
    rw [h.live] at he
    obtain ⟨j, hj, rfl⟩ := List.mem_map.mp he
    have hlt := List.mem_range.mp hj
    have hsame := nonceText_inj (Nat.lt_trans hlt hcount) hcount hkey
    omega
  obtain ⟨-, haccept, hjobs, hnow⟩ := submit_answers h.recalls h.findable (isHexOf_nonceText count)
  have hhistory := haccept hnew
  refine ⟨?_, _, hhistory⟩
  constructor
  · exact recalls_submit h.recalls _ _ _
  · exact hnow.trans h.now
  · exact hjobs.trans h.jobs
  · rw [hhistory, live_snoc, h.live, List.range_succ, List.map_append, h.accepted, h.now]
    rfl
  · rw [hhistory, accepted_snoc, h.accepted]
    rfl

theorem filled_opened : Filled 0 (act (opened 0 1 "" {}) (.issue (plainJob "a") "" 0)) where
  recalls := recalls_issue (recalls_opened 0 1 "" {}) _ _ _ fun h => h.1 rfl
  now := rfl
  jobs := rfl
  live := rfl
  accepted := rfl

def fill (count : ℕ) : List Action :=
  (List.range count).map fun j => .submit "a" (nonceText (j + 1)) none

theorem mem_fill {count : ℕ} {action : Action} (h : action ∈ fill count) :
    ∃ j, action = .submit "a" (nonceText (j + 1)) none := by
  obtain ⟨j, -, rfl⟩ := List.mem_map.mp h
  exact ⟨j, rfl⟩

theorem prefix_fill {count : ℕ} {stage : List Action} (h : stage <+: fill count) :
    stage = fill (min stage.length count) := by
  have htake := List.prefix_iff_eq_take.mp h
  unfold fill at htake ⊢
  rw [← List.map_take, List.take_range] at htake
  exact htake

theorem Filled.fill (h : Filled 1 s) {count : ℕ} (hcount : count < 65536) :
    Filled (count + 1) ((fill count).foldl act s) := by
  induction count with
  | zero => exact h
  | succ count ih =>
      unfold Miner.fill
      rw [List.range_succ, List.map_append, List.foldl_append]
      exact ((ih (Nat.lt_of_succ_lt hcount)).enter hcount).1

/-- The first nonce has left the full memory. -/
theorem Filled.evicts (h : Filled 65536 s) : Answers s "a" (nonceText 0) .accepted := by
  have hnew : ¬ Remembered s.now (submissionKey "a" (nonceText 0)) s.history := by
    rintro ⟨e, he, hkey, -, hfew⟩
    rw [h.live] at he
    obtain ⟨j, hj, rfl⟩ := List.mem_map.mp he
    have hsame := nonceText_inj (List.mem_range.mp hj) (by omega) hkey
    have hlimit : maxRememberedSubmissions = 65536 := rfl
    rw [h.accepted, hsame, hlimit] at hfew
    exact absurd hfew (Nat.lt_irrefl 65537)
  exact ⟨_, (submit_answers h.recalls h.findable (isHexOf_nonceText 0)).2.1 hnew⟩

/-- The memory is filled with other nonces of the same two minutes. -/
theorem acceptedTwice_filled :
    AcceptedTwice [.issue (plainJob "a") "" 0] (fill 65535) "a" (nonceText 0) := by
  obtain ⟨hfirst, haccepts⟩ := filled_opened.enter (by decide)
  have hstages : ∀ count < 65536, Filled (count + 1) ((fill count).foldl act
      (act (act (opened 0 1 "" {}) (.issue (plainJob "a") "" 0))
        (.submit "a" (nonceText 0) none))) :=
    fun count hcount => hfirst.fill hcount
  refine ⟨?_, ?_, haccepts, ?_, ?_⟩
  · intro action haction
    rcases List.mem_append.mp haction with hissue | hfill
    · rw [List.mem_singleton.mp hissue]
      exact plainJob_local "a"
    · obtain ⟨j, rfl⟩ := mem_fill hfill
      exact trivial
  · intro r hr
    obtain ⟨j, heq⟩ := mem_fill hr
    exact nomatch heq
  · intro stage hstage
    rw [prefix_fill hstage]
    exact (hstages _ (by omega)).findable
  · exact (hstages 65535 (by omega)).evicts

theorem findable_of_mem {job : TelemetryJob} (hjob : job ∈ s.miner.telemetryJobs)
    (hfresh : s.now < job.issuedAt + telemetryJobTtl) : Findable s job.id := by
  unfold Findable findTelemetryJob
  rw [List.find?_isSome]
  refine ⟨job, hjob, ?_⟩
  unfold unexpired
  rw [decide_eq_true rfl, decide_eq_true hfresh]
  rfl

theorem findable_issued (s : Session) (id : String) :
    Findable (act s (.issue (plainJob id) "" 0)) id := by
  apply findable_of_mem (s := act s (.issue (plainJob id) "" 0)) List.mem_cons_self
  exact Nat.lt_add_of_pos_right (by decide)

/-- A job is found until it expires. -/
theorem findable_advance {ms : ℕ} (hjobs : ∃ job ∈ s.miner.telemetryJobs, job.id = jobId ∧
    s.now + ms < job.issuedAt + telemetryJobTtl) : Findable (act s (.advance ms)) jobId := by
  obtain ⟨job, hjob, rfl, hfresh⟩ := hjobs
  exact findable_of_mem (s := act s (.advance ms)) hjob hfresh

/-- The job is issued again before it expires, and the submission expires before the new issue. -/
theorem acceptedTwice_reissued : AcceptedTwice [.issue (plainJob "a") "" 0]
    [.advance 60000, .issue (plainJob "a") "" 0, .advance 60000] "a" (nonceText 0) := by
  obtain ⟨hentered, haccepts⟩ := filled_opened.enter (by decide)
  have hfirst : Filled 1 (act ([Action.issue (plainJob "a") "" 0].foldl act (opened 0 1 "" {}))
    (.submit "a" (nonceText 0) none)) := hentered
  generalize hs : act ([Action.issue (plainJob "a") "" 0].foldl act (opened 0 1 "" {}))
    (.submit "a" (nonceText 0) none) = s at hfirst
  generalize hms : 60000 = ms
  have hwaited := recalls_advance hfirst.recalls ms
  have hissued := recalls_issue hwaited (plainJob "a") "" 0 fun h => h.1 rfl
  have hlast := recalls_advance hissued ms
  have hlimit : telemetryJobTtl = 120000 := rfl
  have hfound : Findable ([Action.advance ms, .issue (plainJob "a") "" 0, .advance ms].foldl
      act s) "a" := by
    refine findable_advance ⟨_, List.mem_cons_self, rfl, ?_⟩
    change s.now + ms + ms < s.now + ms + telemetryJobTtl
    omega
  refine ⟨?_, ?_, haccepts, ?_, ?_⟩
  · intro action haction
    simp only [List.cons_append, List.nil_append, List.mem_cons, List.not_mem_nil, or_false]
      at haction
    rcases haction with rfl | rfl | rfl | rfl
    · exact plainJob_local "a"
    · exact trivial
    · exact plainJob_local "a"
    · exact trivial
  · intro r hr
    simp at hr
  · rw [hs]
    intro stage hstage
    rcases List.prefix_cons_iff.mp hstage with rfl | ⟨second, rfl, hsecond⟩
    · exact hfirst.findable
    rcases List.prefix_cons_iff.mp hsecond with rfl | ⟨third, rfl, hthird⟩
    · refine findable_advance ⟨telemetryOf 0 (plainJob "a") "" 0 { key := 1, rpcId := "" },
        ?_, rfl, ?_⟩
      · rw [hfirst.jobs]
        exact List.mem_cons_self
      · change s.now + ms < 0 + telemetryJobTtl
        rw [hfirst.now]
        omega
    rcases List.prefix_cons_iff.mp hthird with rfl | ⟨last, rfl, hend⟩
    · exact findable_issued _ "a"
    · rw [List.prefix_nil.mp hend]
      exact hfound
  · rw [hs]
    have hlive : live ([Action.advance ms, .issue (plainJob "a") "" 0, .advance ms].foldl
        act s).history = live s.history := live_snoc _ _
    have hnew : ¬ Remembered ([Action.advance ms, .issue (plainJob "a") "" 0,
        .advance ms].foldl act s).now (submissionKey "a" (nonceText 0))
        ([Action.advance ms, .issue (plainJob "a") "" 0, .advance ms].foldl act s).history := by
      rintro ⟨e, he, -, hfresh, -⟩
      rw [hlive, hfirst.live] at he
      obtain ⟨j, -, rfl⟩ := List.mem_map.mp he
      change s.now + ms + ms < 0 + submissionTtl at hfresh
      have hsame : submissionTtl = 120000 := rfl
      omega
    exact ⟨_, (submit_answers hlast hfound (isHexOf_nonceText 0)).2.1 hnew⟩

/-- A nonce is remembered for one job id, and refused for another that differs in case. -/
theorem duplicate_of_other_job :
    Answers ([.issue (plainJob "A") "" 0, .issue (plainJob "a") "" 0,
      .submit "A" (nonceText 0) none].foldl act (opened 0 1 "" {})) "a"
        (nonceText 0) .duplicate := by
  have hboth := recalls_issue (recalls_issue (recalls_opened 0 1 "" {}) (plainJob "A") "" 0
    fun h => h.1 rfl) (plainJob "a") "" 0 fun h => h.1 rfl
  have hfound : Findable (act (act (opened 0 1 "" {}) (.issue (plainJob "A") "" 0))
      (.issue (plainJob "a") "" 0)) "A" := by
    unfold Findable
    decide
  have hother : Findable (act (act (opened 0 1 "" {}) (.issue (plainJob "A") "" 0))
      (.issue (plainJob "a") "" 0)) "a" := by
    unfold Findable
    decide
  have hnone : ¬ Remembered 0 (submissionKey "A" (nonceText 0))
      [.issued 0 "A", .issued 0 "a"] := by
    rintro ⟨e, he, -⟩
    exact absurd he List.not_mem_nil
  obtain ⟨-, haccept, hjobs, hnow⟩ := submit_answers hboth hfound (isHexOf_nonceText 0)
  have hentered := recalls_submit hboth "A" (nonceText 0) none
  have hhistory := haccept hnone
  have hstill : Findable (act (act (act (opened 0 1 "" {}) (.issue (plainJob "A") "" 0))
      (.issue (plainJob "a") "" 0)) (.submit "A" (nonceText 0) none)) "a" := by
    unfold Findable findTelemetryJob at hother ⊢
    rw [hjobs, hnow]
    exact hother
  have hsame : submissionKey "A" (nonceText 0) = submissionKey "a" (nonceText 0) := by
    rw [submissionKey_eq_iff (isHexOf_nonceText 0) (isHexOf_nonceText 0), ← String.toList_inj,
      toList_toLower, toList_toLower]
    exact ⟨by decide, rfl⟩
  refine ⟨_, (submit_answers hentered hstill (isHexOf_nonceText 0)).1 ?_⟩
  rw [hnow, hhistory]
  refine ⟨⟨submissionKey "A" (nonceText 0), 0, 1⟩, ?_, hsame, by decide, ?_⟩
  · rw [live_snoc]
    exact List.mem_cons_self
  · rw [accepted_snoc]
    decide

/-- The duplicate is one of the submission for the job whose id differs in case. -/
theorem local_duplicates_other_job :
    ∃ first between jobId' nonce' t' r',
      ([.issue (plainJob "A") "" 0, .issue (plainJob "a") "" 0,
        .submit "A" (nonceText 0) none].foldl act (opened 0 1 "" {})).history =
        first ++ .answered t' jobId' nonce' .accepted r' :: between ∧
      jobId'.toLower = "a".toLower ∧
      Hex.decode nonce'.toList = Hex.decode (nonceText 0).toList := by
  obtain ⟨r, hr⟩ := duplicate_of_other_job
  refine (local_duplicates 0 1 "" {} [.issue (plainJob "A") "" 0, .issue (plainJob "a") "" 0,
    .submit "A" (nonceText 0) none, .submit "a" (nonceText 0) none] ?_).2 _ [] "a" (nonceText 0)
    _ r hr
  intro action haction
  simp only [List.mem_cons, List.not_mem_nil, or_false] at haction
  rcases haction with rfl | rfl | rfl | rfl
  · exact plainJob_local "A"
  · exact plainJob_local "a"
  · exact trivial
  · exact trivial

/-- The nonce of a job is accepted twice while its id is found, when the memory fills up in between
and when the id is issued again, and a nonce is refused for another job id. -/
theorem local_duplicates_fail :
    AcceptedTwice [.issue (plainJob "a") "" 0] (fill 65535) "a" (nonceText 0) ∧
    AcceptedTwice [.issue (plainJob "a") "" 0]
      [.advance 60000, .issue (plainJob "a") "" 0, .advance 60000] "a" (nonceText 0) ∧
    Answers ([.issue (plainJob "A") "" 0, .issue (plainJob "a") "" 0,
      .submit "A" (nonceText 0) none].foldl act (opened 0 1 "" {})) "a" (nonceText 0) .duplicate :=
  ⟨acceptedTwice_filled, acceptedTwice_reissued, duplicate_of_other_job⟩

end Counterexamples

end Miner

end XmrigProxy
