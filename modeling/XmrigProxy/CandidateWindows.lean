import XmrigProxy.Library.SlidingWindow
import XmrigProxy.RandomXVerifier

/-! The limiters of block candidates grant by what was granted within the last minute. -/
namespace XmrigProxy

namespace RandomXVerifier

open SlidingWindow

variable {κ : Type}

inductive Ask where
  | candidate
  | emergency
  | cancel
  deriving DecidableEq, Repr

structure Call where
  now : ℕ
  ask : Ask
  owner : ℕ
  deriving DecidableEq, Repr

structure Answered extends Call where
  granted : Bool
  deriving DecidableEq, Repr

def perform (options : Options) (call : Call) (s : State κ) : Bool × State κ :=
  match call.ask with
  | .candidate => allowCandidate options { now := call.now } call.owner s
  | .emergency => allowEmergencyCandidate options { now := call.now } call.owner s
  | .cancel => (false, (cancelOwner call.owner s).1)

/-- The answers to a sequence of calls, both with the latest first. -/
def performAll (options : Options) : List Call → List Answered × State κ
  | [] => ([], {})
  | call :: earlier =>
      let before := performAll options earlier
      let (granted, after) := perform options call before.2
      (⟨call, granted⟩ :: before.1, after)

/-- The times of the grants to one owner since it was last cancelled. -/
def grantsTo (ask : Ask) (owner : ℕ) (history : List Answered) : List ℕ :=
  ((history.takeWhile fun e => ¬ (e.ask = .cancel ∧ e.owner = owner)).filter
    fun e => e.ask = ask ∧ e.owner = owner ∧ e.granted = true).map fun e => e.now

def grantsToAll (ask : Ask) (history : List Answered) : List ℕ :=
  (history.filter fun e => e.ask = ask ∧ e.granted = true).map fun e => e.now

/-- How many of the grants were made within the last minute. -/
def recent (now : ℕ) (grants : List ℕ) : ℕ := (live candidateWindowMs now grants).length

/-- A call was answered by the grants of the minute before it; a limit of 0 is none. -/
structure Justified (options : Options) (e : Answered) (earlier : List Answered) : Prop where
  candidate : e.ask = .candidate → (e.granted = true ↔
    (options.candidateLimit = 0 ∨
      recent e.now (grantsTo .candidate e.owner earlier) < options.candidateLimit) ∧
    (options.globalCandidateLimit = 0 ∨
      recent e.now (grantsToAll .candidate earlier) < options.globalCandidateLimit))
  emergency : e.ask = .emergency → (e.granted = true ↔ options.emergencyCandidateLimit = 0 ∨
    recent e.now (grantsTo .emergency e.owner earlier) < 1 ∧
      recent e.now (grantsToAll .emergency earlier) < options.emergencyCandidateLimit)

/-- The windows are the same for every later call. -/
structure Unconsumed (now : ℕ) (before after : State κ) : Prop where
  owner : ∀ later, now ≤ later → ∀ owner,
    dropWindow later ((after.candidateWindows.find owner).getD []) =
      dropWindow later ((before.candidateWindows.find owner).getD [])
  global : ∀ later, now ≤ later →
    dropWindow later after.globalCandidateWindow = dropWindow later before.globalCandidateWindow
  emergencyOwner : ∀ later, now ≤ later → ∀ owner,
    dropWindow later ((after.emergencyCandidateWindows.find owner).getD []) =
      dropWindow later ((before.emergencyCandidateWindows.find owner).getD [])
  emergency : ∀ later, now ≤ later →
    dropWindow later after.emergencyCandidateWindow =
      dropWindow later before.emergencyCandidateWindow

section Grants

variable {ask : Ask} {owner : ℕ} {e : Answered} {history : List Answered}

theorem grantsTo_cancelled (h : e.ask = .cancel ∧ e.owner = owner) :
    grantsTo ask owner (e :: history) = [] := by
  unfold grantsTo
  rw [List.takeWhile_cons_of_neg (by simpa using h)]
  rfl

theorem grantsTo_granted (h : e.ask = ask ∧ e.owner = owner ∧ e.granted = true)
    (hask : ask ≠ .cancel) :
    grantsTo ask owner (e :: history) = e.now :: grantsTo ask owner history := by
  have hkept : ¬ (e.ask = .cancel ∧ e.owner = owner) := fun hcancel =>
    hask (h.1.symm.trans hcancel.1)
  unfold grantsTo
  rw [List.takeWhile_cons_of_pos (by simpa only [decide_eq_true_eq] using hkept),
    List.filter_cons_of_pos (by simpa using h)]
  rfl

theorem grantsTo_other (hkept : ¬ (e.ask = .cancel ∧ e.owner = owner))
    (h : ¬ (e.ask = ask ∧ e.owner = owner ∧ e.granted = true)) :
    grantsTo ask owner (e :: history) = grantsTo ask owner history := by
  unfold grantsTo
  rw [List.takeWhile_cons_of_pos (by simpa only [decide_eq_true_eq] using hkept),
    List.filter_cons_of_neg (by simpa using h)]

theorem grantsToAll_granted (h : e.ask = ask ∧ e.granted = true) :
    grantsToAll ask (e :: history) = e.now :: grantsToAll ask history := by
  unfold grantsToAll
  rw [List.filter_cons_of_pos (by simpa using h)]
  rfl

theorem grantsToAll_other (h : ¬ (e.ask = ask ∧ e.granted = true)) :
    grantsToAll ask (e :: history) = grantsToAll ask history := by
  unfold grantsToAll
  rw [List.filter_cons_of_neg (by simpa using h)]

end Grants

section Limits

/-- One kind of candidates has a window for each owner and one for all of them. -/
structure Windows where
  owners : Table ℕ (List ℕ)
  all : List ℕ

/-- What the two limiters have in common. -/
def allowWithin (ownerLimit globalLimit now owner : ℕ) (w : Windows) : Bool × Windows :=
  let window := dropWindow now ((w.owners.find owner).getD [])
  let globalWindow := dropWindow now w.all
  if (ownerLimit ≠ 0 ∧ ownerLimit ≤ window.length) ∨
      (globalLimit ≠ 0 ∧ globalLimit ≤ globalWindow.length) then
    (false, ⟨w.owners.insert owner window, globalWindow⟩)
  else
    (true, ⟨w.owners.insert owner (if ownerLimit ≠ 0 then window ++ [now] else window),
      if globalLimit ≠ 0 then globalWindow ++ [now] else globalWindow⟩)

def candidates (s : State κ) : Windows := ⟨s.candidateWindows, s.globalCandidateWindow⟩

def emergencies (s : State κ) : Windows := ⟨s.emergencyCandidateWindows, s.emergencyCandidateWindow⟩

theorem allowCandidate_eq {options : Options}
    (hlimits : ¬ (options.candidateLimit = 0 ∧ options.globalCandidateLimit = 0)) (env : Env)
    (owner : ℕ) (s : State κ) : allowCandidate options env owner s =
      let r := allowWithin options.candidateLimit options.globalCandidateLimit
        env.now owner (candidates s)
      (r.1, { s with candidateWindows := r.2.owners, globalCandidateWindow := r.2.all }) := by
  unfold allowCandidate allowWithin
  rw [if_neg hlimits]
  dsimp only [candidates]
  split <;> rfl

theorem allowEmergencyCandidate_eq {options : Options}
    (hlimit : options.emergencyCandidateLimit ≠ 0) (env : Env) (owner : ℕ) (s : State κ) :
    allowEmergencyCandidate options env owner s =
      let r := allowWithin 1 options.emergencyCandidateLimit env.now owner (emergencies s)
      (r.1, { s with
        emergencyCandidateWindows := r.2.owners
        emergencyCandidateWindow := r.2.all }) := by
  have hused : ∀ window : List ℕ, window ≠ [] ↔ 1 ≤ window.length := fun window =>
    List.length_pos_iff.symm
  unfold allowEmergencyCandidate allowWithin
  rw [if_neg hlimit]
  dsimp only [emergencies]
  simp only [hused, hlimit, ne_eq, one_ne_zero, not_false_eq_true, true_and, if_true]
  split <;> rfl

/-- Each window that a limit looks at tells which grants are recent. -/
structure WindowsTrack (ownerLimit globalLimit : ℕ) (ask : Ask) (now : ℕ)
    (history : List Answered) (w : Windows) : Prop where
  owner : ownerLimit ≠ 0 → ∀ owner, Tracks candidateWindowMs now
    (grantsTo ask owner history) ((w.owners.find owner).getD [])
  all : globalLimit ≠ 0 → Tracks candidateWindowMs now (grantsToAll ask history) w.all

variable {ownerLimit globalLimit now owner : ℕ} {ask : Ask} {history : List Answered} {w : Windows}

theorem WindowsTrack.wait {later : ℕ}
    (h : WindowsTrack ownerLimit globalLimit ask now history w) (hlater : now ≤ later) :
    WindowsTrack ownerLimit globalLimit ask later history w where
  owner := fun hlimit owner => (h.owner hlimit owner).wait hlater
  all := fun hlimit => (h.all hlimit).wait hlater

/-- A limit compares the length of its window, which is the number of recent grants. -/
theorem allowWithin_granted (h : WindowsTrack ownerLimit globalLimit ask now history w)
    (owner : ℕ) :
    (allowWithin ownerLimit globalLimit now owner w).1 = true ↔
      (ownerLimit = 0 ∨ recent now (grantsTo ask owner history) < ownerLimit) ∧
        (globalLimit = 0 ∨ recent now (grantsToAll ask history) < globalLimit) := by
  have howner : ownerLimit ≠ 0 → (dropWindow now ((w.owners.find owner).getD [])).length =
      recent now (grantsTo ask owner history) := fun hlimit => (h.owner hlimit owner).length
  have hall : globalLimit ≠ 0 → (dropWindow now w.all).length =
      recent now (grantsToAll ask history) := fun hlimit => (h.all hlimit).length
  unfold allowWithin
  dsimp only
  split
  · next hrefused =>
      apply iff_of_false Bool.false_ne_true
      rintro ⟨hfirst, hsecond⟩
      rcases hrefused with ⟨hlimit, hfull⟩ | ⟨hlimit, hfull⟩
      · rw [howner hlimit] at hfull
        omega
      · rw [hall hlimit] at hfull
        omega
  · next hadmitted =>
      refine iff_of_true rfl ⟨?_, ?_⟩
      · by_cases hlimit : ownerLimit = 0
        · exact Or.inl hlimit
        · rw [← howner hlimit]
          exact Or.inr (Nat.lt_of_not_le fun hfull => hadmitted (Or.inl ⟨hlimit, hfull⟩))
      · by_cases hlimit : globalLimit = 0
        · exact Or.inl hlimit
        · rw [← hall hlimit]
          exact Or.inr (Nat.lt_of_not_le fun hfull => hadmitted (Or.inr ⟨hlimit, hfull⟩))

/-- The queue of one owner after its call, and the queues of the others. -/
theorem find_insert_getD (owners : Table ℕ (List ℕ)) (owner other : ℕ) (window : List ℕ) :
    ((owners.insert owner window).find other).getD [] =
      if other = owner then window else (owners.find other).getD [] := by
  rw [Table.find_insert]
  split <;> rfl

theorem allowWithin_tracks {call : Call}
    (h : WindowsTrack ownerLimit globalLimit ask call.now history w) (hask : call.ask = ask)
    (hcancel : ask ≠ .cancel) :
    WindowsTrack ownerLimit globalLimit ask call.now
      (⟨call, (allowWithin ownerLimit globalLimit call.now call.owner w).1⟩ :: history)
      (allowWithin ownerLimit globalLimit call.now call.owner w).2 := by
  have hkept : ∀ owner, ¬ (call.ask = .cancel ∧ call.owner = owner) := fun owner hboth =>
    hcancel (hask.symm.trans hboth.1)
  unfold allowWithin
  dsimp only
  split
  · constructor
    · intro hlimit owner
      rw [grantsTo_other (hkept owner) fun hboth => Bool.false_ne_true hboth.2.2]
      dsimp only
      rw [find_insert_getD]
      split
      · next hsame =>
          rw [hsame]
          exact (h.owner hlimit call.owner).prune
      · exact h.owner hlimit owner
    · intro hlimit
      rw [grantsToAll_other fun hboth => Bool.false_ne_true hboth.2]
      exact (h.all hlimit).prune
  · constructor
    · intro hlimit owner
      dsimp only
      rw [if_pos hlimit, find_insert_getD]
      split
      · next hsame =>
          rw [hsame, grantsTo_granted (e := ⟨call, true⟩) ⟨hask, rfl, rfl⟩ hcancel]
          exact (h.owner hlimit call.owner).prune.push
      · next hother =>
          rw [grantsTo_other (hkept owner) fun hboth => hother hboth.2.1.symm]
          exact h.owner hlimit owner
    · intro hlimit
      dsimp only
      rw [if_pos hlimit, grantsToAll_granted (e := ⟨call, true⟩) ⟨hask, rfl⟩]
      exact (h.all hlimit).prune.push

theorem other_tracks {e : Answered} (h : WindowsTrack ownerLimit globalLimit ask now history w)
    (hask : e.ask ≠ ask) (hcancel : e.ask ≠ .cancel) :
    WindowsTrack ownerLimit globalLimit ask now (e :: history) w where
  owner := by
    intro hlimit owner
    rw [grantsTo_other (fun hboth => hcancel hboth.1) fun hboth => hask hboth.1]
    exact h.owner hlimit owner
  all := by
    intro hlimit
    rw [grantsToAll_other fun hboth => hask hboth.1]
    exact h.all hlimit

theorem cancel_tracks {e : Answered} (h : WindowsTrack ownerLimit globalLimit ask now history w)
    (hask : e.ask = .cancel) (hcancel : ask ≠ .cancel) :
    WindowsTrack ownerLimit globalLimit ask now (e :: history) ⟨w.owners.erase e.owner, w.all⟩ where
  owner := by
    intro hlimit owner
    by_cases hsame : e.owner = owner
    · rw [grantsTo_cancelled ⟨hask, hsame⟩, hsame, Table.find_erase_self]
      exact Tracks.nil
    · rw [grantsTo_other (fun hboth => hsame hboth.2) fun hboth => hsame hboth.2.1,
        Table.find_erase_of_ne _ (Ne.symm hsame)]
      exact h.owner hlimit owner
  all := by
    intro hlimit
    rw [grantsToAll_other fun hboth => hcancel (hboth.1.symm.trans hask)]
    exact h.all hlimit

theorem tracks_initial : WindowsTrack ownerLimit globalLimit ask now [] ⟨∅, []⟩ where
  owner := fun _ _ => Tracks.nil
  all := fun _ => Tracks.nil

/-- A refused call only drops what is expired for good. -/
theorem allowWithin_refused (h : (allowWithin ownerLimit globalLimit now owner w).1 = false)
    {later : ℕ} (hlater : now ≤ later) :
    (∀ other, dropWindow later (((allowWithin ownerLimit globalLimit now owner w).2.owners.find
      other).getD []) = dropWindow later ((w.owners.find other).getD [])) ∧
    dropWindow later (allowWithin ownerLimit globalLimit now owner w).2.all =
      dropWindow later w.all := by
  unfold allowWithin at h ⊢
  dsimp only at h ⊢
  split at h
  · next hrefused =>
      rw [if_pos hrefused]
      constructor
      · intro other
        dsimp only
        rw [find_insert_getD]
        split
        · next hsame =>
            rw [hsame]
            exact prune_prune hlater _
        · rfl
      · exact prune_prune hlater _
  · exact nomatch h

end Limits

section Histories

variable {options : Options} {now : ℕ} {history : List Answered} {call : Call} {s : State κ}

/-- The windows of both kinds of candidates tell which grants are recent. -/
structure Recorded (options : Options) (now : ℕ) (history : List Answered) (s : State κ) :
    Prop where
  candidate : WindowsTrack options.candidateLimit options.globalCandidateLimit
    .candidate now history
    (candidates s)
  emergency : options.emergencyCandidateLimit ≠ 0 →
    WindowsTrack 1 options.emergencyCandidateLimit .emergency now history (emergencies s)

theorem perform_candidate (h : Recorded options call.now history s) (hask : call.ask = .candidate) :
    Justified options ⟨call, (perform options call s).1⟩ history ∧
      Recorded options call.now (⟨call, (perform options call s).1⟩ :: history)
        (perform options call s).2 := by
  have hperform : perform options call s =
      allowCandidate options { now := call.now } call.owner s := by
    unfold perform
    rw [hask]
  have hemergency : ∀ granted, options.emergencyCandidateLimit ≠ 0 →
      WindowsTrack 1 options.emergencyCandidateLimit .emergency call.now
        (⟨call, granted⟩ :: history) (emergencies s) := by
    intro granted hlimit
    exact other_tracks (h.emergency hlimit) (by rw [hask]; decide) (by rw [hask]; decide)
  rw [hperform]
  by_cases hlimits : options.candidateLimit = 0 ∧ options.globalCandidateLimit = 0
  · have hnone : allowCandidate options { now := call.now } call.owner s = (true, s) :=
      if_pos hlimits
    rw [hnone]
    refine ⟨⟨fun _ => iff_of_true rfl ⟨Or.inl hlimits.1, Or.inl hlimits.2⟩, fun hother => ?_⟩,
      ⟨⟨fun hlimit => absurd hlimits.1 hlimit, fun hlimit => absurd hlimits.2 hlimit⟩,
        hemergency true⟩⟩
    exact nomatch hask.symm.trans hother
  · rw [allowCandidate_eq hlimits]
    refine ⟨⟨fun _ => allowWithin_granted h.candidate call.owner, fun hother => ?_⟩,
      ⟨allowWithin_tracks h.candidate hask Ask.noConfusion, hemergency _⟩⟩
    exact nomatch hask.symm.trans hother

theorem perform_emergency (h : Recorded options call.now history s) (hask : call.ask = .emergency) :
    Justified options ⟨call, (perform options call s).1⟩ history ∧
      Recorded options call.now (⟨call, (perform options call s).1⟩ :: history)
        (perform options call s).2 := by
  have hperform : perform options call s =
      allowEmergencyCandidate options { now := call.now } call.owner s := by
    unfold perform
    rw [hask]
  have hcandidate : ∀ granted, WindowsTrack options.candidateLimit options.globalCandidateLimit
      .candidate call.now (⟨call, granted⟩ :: history) (candidates s) := by
    intro granted
    exact other_tracks h.candidate (by rw [hask]; decide) (by rw [hask]; decide)
  rw [hperform]
  by_cases hlimit : options.emergencyCandidateLimit = 0
  · have hnone : allowEmergencyCandidate options { now := call.now } call.owner s = (true, s) :=
      if_pos hlimit
    rw [hnone]
    refine ⟨⟨fun hother => ?_, fun _ => iff_of_true rfl (Or.inl hlimit)⟩,
      ⟨hcandidate true, fun hother => absurd hlimit hother⟩⟩
    exact nomatch hask.symm.trans hother
  · rw [allowEmergencyCandidate_eq hlimit]
    have hgranted := allowWithin_granted (h.emergency hlimit) call.owner
    simp only [one_ne_zero, hlimit, false_or] at hgranted
    refine ⟨⟨fun hother => ?_, fun _ => ?_⟩,
      ⟨hcandidate _, fun _ => allowWithin_tracks (h.emergency hlimit) hask Ask.noConfusion⟩⟩
    · exact nomatch hask.symm.trans hother
    · simp only [hlimit, false_or]
      exact hgranted

theorem perform_cancel (h : Recorded options call.now history s) (hask : call.ask = .cancel) :
    Justified options ⟨call, (perform options call s).1⟩ history ∧
      Recorded options call.now (⟨call, (perform options call s).1⟩ :: history)
        (perform options call s).2 := by
  have hperform : perform options call s = (false, (cancelOwner call.owner s).1) := by
    unfold perform
    rw [hask]
  rw [hperform]
  constructor
  · constructor
    · intro hother
      exact nomatch hask.symm.trans hother
    · intro hother
      exact nomatch hask.symm.trans hother
  · exact ⟨cancel_tracks h.candidate hask (by decide),
      fun hlimit => cancel_tracks (h.emergency hlimit) hask (by decide)⟩

theorem perform_step (h : Recorded options call.now history s) :
    Justified options ⟨call, (perform options call s).1⟩ history ∧
      Recorded options call.now (⟨call, (perform options call s).1⟩ :: history)
        (perform options call s).2 := by
  rcases hask : call.ask with _ | _ | _
  · exact perform_candidate h hask
  · exact perform_emergency h hask
  · exact perform_cancel h hask

theorem Recorded.wait {later : ℕ} (h : Recorded options now history s) (hlater : now ≤ later) :
    Recorded options later history s where
  candidate := h.candidate.wait hlater
  emergency := fun hlimit => (h.emergency hlimit).wait hlater

theorem recorded_initial : Recorded options now [] ({} : State κ) where
  candidate := tracks_initial
  emergency := fun _ => tracks_initial

/-- The times of the calls, of which the latest comes first, do not go back. -/
def Nondecreasing (calls : List Call) : Prop :=
  calls.Pairwise fun later earlier => earlier.now ≤ later.now

theorem recorded_performAll {calls : List Call} (hclock : Nondecreasing calls)
    (hnow : ∀ call ∈ calls, call.now ≤ now) :
    Recorded options now (performAll (κ := κ) options calls).1
      (performAll (κ := κ) options calls).2 ∧
      ∀ e earlier, e :: earlier <:+ (performAll (κ := κ) options calls).1 →
        Justified options e earlier := by
  induction calls generalizing now with
  | nil =>
      refine ⟨recorded_initial, ?_⟩
      intro e earlier hsuffix
      exact nomatch List.suffix_nil.mp hsuffix
  | cons call rest ih =>
      obtain ⟨hlatest, hrest⟩ := List.pairwise_cons.mp hclock
      obtain ⟨hrecorded, hjustified⟩ := ih hrest hlatest
      obtain ⟨hanswer, hafter⟩ := perform_step hrecorded
      refine ⟨hafter.wait (hnow call List.mem_cons_self), ?_⟩
      intro e earlier hsuffix
      rcases List.suffix_cons_iff.mp hsuffix with hsame | hearlier
      · obtain ⟨rfl, rfl⟩ := List.cons.inj hsame
        exact hanswer
      · exact hjustified e earlier hearlier

/-- Grants that each looked at the total of the minute before overfill no window. -/
theorem during_grantsToAll {ask : Ask} {limit : ℕ}
    (h : ∀ e earlier, e :: earlier <:+ history → e.ask = ask → e.granted = true →
      recent e.now (grantsToAll ask earlier) < limit) (start : ℕ) :
    (during candidateWindowMs start (grantsToAll ask history)).length ≤ limit := by
  induction history with
  | nil => exact Nat.zero_le _
  | cons e earlier ih =>
      have hbefore := ih fun e' rest hrest => h e' rest (hrest.trans (List.suffix_cons _ _))
      by_cases hgrant : e.ask = ask ∧ e.granted = true
      · rw [grantsToAll_granted hgrant]
        exact during_cons hbefore (h e earlier List.suffix_rfl hgrant.1 hgrant.2)
      · rw [grantsToAll_other hgrant]
        exact hbefore

theorem during_grantsTo {ask : Ask} {owner limit : ℕ} (hask : ask ≠ .cancel)
    (h : ∀ e earlier, e :: earlier <:+ history → e.ask = ask → e.owner = owner →
      e.granted = true → recent e.now (grantsTo ask owner earlier) < limit) (start : ℕ) :
    (during candidateWindowMs start (grantsTo ask owner history)).length ≤ limit := by
  induction history with
  | nil => exact Nat.zero_le _
  | cons e earlier ih =>
      have hbefore := ih fun e' rest hrest => h e' rest (hrest.trans (List.suffix_cons _ _))
      by_cases hcancel : e.ask = .cancel ∧ e.owner = owner
      · rw [grantsTo_cancelled hcancel]
        exact Nat.zero_le _
      by_cases hgrant : e.ask = ask ∧ e.owner = owner ∧ e.granted = true
      · rw [grantsTo_granted hgrant hask]
        exact during_cons hbefore
          (h e earlier List.suffix_rfl hgrant.1 hgrant.2.1 hgrant.2.2)
      · rw [grantsTo_other hcancel hgrant]
        exact hbefore

theorem unconsumed_perform (hask : call.ask ≠ .cancel)
    (h : (perform options call s).1 = false) :
    Unconsumed call.now s (perform options call s).2 := by
  unfold perform at h ⊢
  rcases hkind : call.ask with _ | _ | _
  · rw [hkind] at h
    dsimp only at h ⊢
    by_cases hlimits : options.candidateLimit = 0 ∧ options.globalCandidateLimit = 0
    · have hnone : allowCandidate options { now := call.now } call.owner s = (true, s) :=
        if_pos hlimits
      rw [hnone] at h
      exact nomatch h
    · rw [allowCandidate_eq hlimits] at h ⊢
      exact ⟨fun later hlater => (allowWithin_refused h hlater).1,
        fun later hlater => (allowWithin_refused h hlater).2, fun _ _ _ => rfl, fun _ _ => rfl⟩
  · rw [hkind] at h
    dsimp only at h ⊢
    by_cases hlimit : options.emergencyCandidateLimit = 0
    · have hnone : allowEmergencyCandidate options { now := call.now } call.owner s = (true, s) :=
        if_pos hlimit
      rw [hnone] at h
      exact nomatch h
    · rw [allowEmergencyCandidate_eq hlimit] at h ⊢
      exact ⟨fun _ _ _ => rfl, fun _ _ => rfl, fun later hlater => (allowWithin_refused h hlater).1,
        fun later hlater => (allowWithin_refused h hlater).2⟩
  · exact absurd hkind hask

end Histories

/-- Every answer follows from the grants of the minute before, a refusal leaves no trace, and no
minute has more grants than the limits allow. -/
theorem candidates_limited (options : Options) (calls : List Call) (hclock : Nondecreasing calls) :
    (∀ e earlier, e :: earlier <:+ (performAll (κ := κ) options calls).1 →
      Justified options e earlier) ∧
    (∀ (call : Call) (s : State κ), call.ask ≠ .cancel → (perform options call s).1 = false →
      Unconsumed call.now s (perform options call s).2) ∧
    (options.globalCandidateLimit ≠ 0 → ∀ start, (during candidateWindowMs start
      (grantsToAll .candidate (performAll (κ := κ) options calls).1)).length ≤
        options.globalCandidateLimit) ∧
    (options.emergencyCandidateLimit ≠ 0 → ∀ start,
      (during candidateWindowMs start
        (grantsToAll .emergency (performAll (κ := κ) options calls).1)).length ≤
          options.emergencyCandidateLimit ∧
      ∀ owner history, history <:+ (performAll (κ := κ) options calls).1 →
        (during candidateWindowMs start (grantsTo .emergency owner history)).length ≤ 1) := by
  obtain ⟨now, hnow⟩ : ∃ now, ∀ call ∈ calls, call.now ≤ now := by
    refine ⟨(calls.map fun call => call.now).sum, ?_⟩
    intro call hcall
    exact List.single_le_sum (fun _ _ => Nat.zero_le _) _ (List.mem_map_of_mem hcall)
  obtain ⟨-, hjustified⟩ : Recorded options now (performAll (κ := κ) options calls).1 _ ∧ _ :=
    recorded_performAll hclock hnow
  refine ⟨hjustified, fun call s => unconsumed_perform, ?_, ?_⟩
  · intro hlimit
    apply during_grantsToAll
    intro e earlier hsuffix hask hgranted
    have hrule := (((hjustified e earlier hsuffix).candidate hask).mp hgranted).2
    exact hrule.resolve_left hlimit
  · intro hlimit start
    have hrule : ∀ e earlier, e :: earlier <:+ (performAll (κ := κ) options calls).1 →
        e.ask = .emergency → e.granted = true →
        recent e.now (grantsTo .emergency e.owner earlier) < 1 ∧
          recent e.now (grantsToAll .emergency earlier) < options.emergencyCandidateLimit := by
      intro e earlier hsuffix hask hgranted
      exact (((hjustified e earlier hsuffix).emergency hask).mp hgranted).resolve_left hlimit
    constructor
    · exact during_grantsToAll (fun e earlier hsuffix hask hgranted =>
        (hrule e earlier hsuffix hask hgranted).2) start
    · intro owner history hhistory
      apply during_grantsTo (by decide)
      intro e earlier hsuffix hask howner hgranted
      rw [← howner]
      exact (hrule e earlier (hsuffix.trans hhistory) hask hgranted).1

/-- The owner of two emergency candidates of one minute, cancelled between them. -/
def cancelledBetween : List Call := [⟨2, .emergency, 1⟩, ⟨1, .cancel, 1⟩, ⟨0, .emergency, 1⟩]

def twoEmergencies : Options where
  timeoutMs := 1000
  maxQueue := 16
  maxPendingPerMiner := 4
  candidateLimit := 1
  globalCandidateLimit := 1
  emergencyCandidateLimit := 2
  maxQueue_le := by decide
  maxPendingPerMiner_le := by decide

theorem candidates_limited_cancelled :
    (during candidateWindowMs 0 (grantsToAll .emergency
      (performAll (κ := Unit) twoEmergencies cancelledBetween).1)).length ≤ 2 := by
  have hclock : Nondecreasing cancelledBetween := by
    unfold Nondecreasing
    decide
  exact ((candidates_limited (κ := Unit) twoEmergencies cancelledBetween hclock).2.2.2
    (by decide) 0).1

/-- Cancelling forgets the emergency candidate of the owner, which then gets another one. -/
theorem emergency_twice_in_window :
    ¬ ∀ (options : Options) (calls : List Call), Nondecreasing calls →
      options.emergencyCandidateLimit ≠ 0 → ∀ start owner,
      (during candidateWindowMs start
        (((performAll (κ := Unit) options calls).1.filter fun e =>
          e.ask = .emergency ∧ e.owner = owner ∧ e.granted = true).map fun e => e.now)).length ≤
            1 := by
  intro h
  have hclock : Nondecreasing cancelledBetween := by
    unfold Nondecreasing
    decide
  have hone := h twoEmergencies cancelledBetween hclock (by decide) 0 1
  exact absurd hone (by decide)

end RandomXVerifier

end XmrigProxy
