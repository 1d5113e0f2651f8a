import Mathlib.Logic.Function.Basic
import XmrigProxy.Library.Machine
import XmrigProxy.Library.Table

/-! The submissions that the clients of one mapper wait for. All clients of the process number
their requests from one counter. -/
namespace XmrigProxy.PoolClients

/-- `results` holds the miner's request id for each submission. -/
structure Client where
  connected : Bool := false
  results : Table ℤ ℤ := ∅

structure State where
  sequence : ℕ := 1
  clients : ℕ → Client := fun _ => {}

/-- Other requests are those of another kind, and those of other mappers' clients. -/
inductive Operation where
  | submit (client : ℕ) (requestId : ℤ) (written : Bool)
  | answer (client : ℕ) (seq : ℤ)
  | login (client : ℕ)
  | close (client : ℕ)
  | others (count : ℕ)

inductive Report where
  | assigned (client : ℕ) (seq requestId : ℤ)
  | delivered (client : ℕ) (seq requestId : ℤ)
  deriving DecidableEq

def setClient (c : ℕ) (client : Client) (s : State) : State :=
  { s with clients := Function.update s.clients c client }

/-- A submission is recorded before it is sent. A send fails on a closed connection, or closes
it; the record is then left behind. -/
def submit (c : ℕ) (requestId : ℤ) (written : Bool) : Handler State Report := fun s =>
  let results := (s.clients c).results.insert s.sequence requestId
  if (s.clients c).connected && written then
    ({ setClient c { connected := true, results } s with sequence := s.sequence + 1 },
      [.assigned c s.sequence requestId])
  else (setClient c { connected := false, results } s, [])

/-- An answer counts once, and only while its connection is open. -/
def answer (c : ℕ) (seq : ℤ) : Handler State Report := fun s =>
  match (s.clients c).results.find seq with
  | none => (s, [])
  | some requestId =>
      if (s.clients c).connected then
        let results := (s.clients c).results.erase seq
        (setClient c { connected := true, results } s, [.delivered c seq requestId])
      else (s, [])

/-- A login forgets what was sent on earlier connections. -/
def login (c : ℕ) (s : State) : State := setClient c { connected := true } s

def close (c : ℕ) (s : State) : State := setClient c { s.clients c with connected := false } s

def step : Operation → Handler State Report
  | .submit c requestId written => submit c requestId written
  | .answer c seq => answer c seq
  | .login c => fun s => (login c s, [])
  | .close c => fun s => (close c s, [])
  | .others count => fun s => ({ s with sequence := s.sequence + count }, [])

def machine : Machine State Operation Report where
  init := {}
  next s op := step op s

/-- The value that a submission returns. -/
def returned : List Report → ℤ
  | .assigned _ seq _ :: _ => seq
  | _ => -1

/-- The client can still deliver an answer to this submission. -/
def Waits (s : State) (c : ℕ) (seq requestId : ℤ) : Prop :=
  (s.clients c).connected = true ∧ (s.clients c).results.find seq = some requestId

section Steps

variable {s : State} {op : Operation} {c : ℕ} {seq requestId : ℤ}

theorem waits_setClient {client : Client} {c' : ℕ} :
    Waits (setClient c' client s) c seq requestId ↔
      if c = c' then client.connected = true ∧ client.results.find seq = some requestId
      else Waits s c seq requestId := by
  unfold Waits setClient
  by_cases h : c = c'
  · subst h
    simp
  · simp [h]

theorem assigned_iff : .assigned c seq requestId ∈ (step op s).2 ↔
    op = .submit c requestId true ∧ (s.clients c).connected = true ∧ seq = s.sequence := by
  cases op with
  | submit c' requestId' written =>
      dsimp only [step, submit]
      split
      · next h =>
        simp only [Bool.and_eq_true] at h
        simp only [List.mem_singleton, Report.assigned.injEq, Operation.submit.injEq]
        constructor
        · rintro ⟨rfl, rfl, rfl⟩
          exact ⟨⟨rfl, rfl, h.2⟩, h.1, rfl⟩
        · rintro ⟨⟨rfl, rfl, -⟩, -, rfl⟩
          exact ⟨rfl, rfl, rfl⟩
      · next h =>
        simp only [Bool.and_eq_true] at h
        constructor
        · intro hm
          cases hm
        · rintro ⟨heq, hc, -⟩
          cases heq
          exact absurd ⟨hc, rfl⟩ h
  | answer c' seq' =>
      dsimp only [step, answer]
      split
      · simp
      · split <;> simp
  | login c' => simp [step]
  | close c' => simp [step]
  | others count => simp [step]

theorem delivered_iff : .delivered c seq requestId ∈ (step op s).2 ↔
    op = .answer c seq ∧ Waits s c seq requestId := by
  cases op with
  | submit c' requestId' written =>
      dsimp only [step, submit]
      split <;> simp
  | answer c' seq' =>
      dsimp only [step, answer]
      split
      · next hnone =>
        constructor
        · intro hm
          cases hm
        · rintro ⟨heq, -, hsome⟩
          cases heq
          cases hnone.symm.trans hsome
      · next hfound =>
        split
        · next hconnected =>
          simp only [List.mem_singleton, Report.delivered.injEq, Operation.answer.injEq]
          constructor
          · rintro ⟨rfl, rfl, rfl⟩
            exact ⟨⟨rfl, rfl⟩, hconnected, hfound⟩
          · rintro ⟨⟨rfl, rfl⟩, -, hsome⟩
            exact ⟨rfl, rfl, Option.some.inj (hsome.symm.trans hfound)⟩
        · next hclosed =>
          constructor
          · intro hm
            cases hm
          · rintro ⟨heq, hconnected, -⟩
            cases heq
            exact absurd hconnected hclosed
  | login c' => simp [step]
  | close c' => simp [step]
  | others count => simp [step]

theorem submit_sequence (h : (s.clients c).connected = true) :
    (submit c requestId true s).1.sequence = s.sequence + 1 := by
  simp [submit, h]

theorem sequence_le (op : Operation) (s : State) : s.sequence ≤ (step op s).1.sequence := by
  cases op with
  | submit c requestId written =>
      dsimp only [step, submit]
      split
      · exact Nat.le_succ _
      · exact le_rfl
  | answer c seq =>
      dsimp only [step, answer]
      split
      · exact le_rfl
      · split <;> exact le_rfl
  | login c => exact le_rfl
  | close c => exact le_rfl
  | others count => exact Nat.le_add_right _ _

/-- What a client waits for after a step it waited for before, or it has just sent it. -/
theorem waits_step (h : Waits (step op s).1 c seq requestId) :
    (Waits s c seq requestId ∧ op ≠ .answer c seq) ∨ .assigned c seq requestId ∈ (step op s).2 := by
  cases op with
  | submit c' requestId' written =>
      by_cases hsent : ((s.clients c').connected && written) = true
      · simp only [step, submit, hsent, if_true] at h ⊢
        change Waits (setClient c' _ s) c seq requestId at h
        rw [waits_setClient] at h
        split at h
        · next hc =>
          subst hc
          rw [Table.find_insert] at h
          obtain ⟨-, h⟩ := h
          split at h
          · next hseq =>
            cases h
            exact Or.inr (by simp [hseq])
          · exact Or.inl ⟨⟨(Bool.and_eq_true _ _ ▸ hsent).1, h⟩, by simp⟩
        · exact Or.inl ⟨h, by simp⟩
      · simp only [step, submit, hsent] at h
        rw [if_neg (by simp), waits_setClient] at h
        split at h
        · cases h.1
        · exact Or.inl ⟨h, by simp⟩
  | answer c' seq' =>
      left
      dsimp only [step, answer] at h
      split at h
      · next hnone =>
        refine ⟨h, ?_⟩
        rintro heq
        cases heq
        cases hnone.symm.trans h.2
      · split at h
        · next hconnected =>
          rw [waits_setClient] at h
          split at h
          · next hc =>
            subst hc
            rw [Table.find_erase] at h
            obtain ⟨-, h⟩ := h
            split at h
            · cases h
            · next hseq =>
              refine ⟨⟨hconnected, h⟩, ?_⟩
              rintro heq
              cases heq
              exact hseq rfl
          · next hc =>
            refine ⟨h, ?_⟩
            rintro heq
            cases heq
            exact hc rfl
        · next hclosed =>
          refine ⟨h, ?_⟩
          rintro heq
          cases heq
          exact hclosed h.1
  | login c' =>
      change Waits (setClient c' _ s) c seq requestId at h
      rw [waits_setClient] at h
      split at h
      · cases h.2
      · exact Or.inl ⟨h, by simp⟩
  | close c' =>
      change Waits (setClient c' _ s) c seq requestId at h
      rw [waits_setClient] at h
      split at h
      · cases h.1
      · exact Or.inl ⟨h, by simp⟩
  | others count => exact Or.inl ⟨h, by simp⟩

end Steps

section Runs

variable {ops : ℕ → Operation} {i j k c c' : ℕ} {seq requestId requestId' : ℤ}

/-- The submission of step `j` was given this id. -/
def Assigned (ops : ℕ → Operation) (j c : ℕ) (seq requestId : ℤ) : Prop :=
  .assigned c seq requestId ∈ machine.emitted ops j

def Delivered (ops : ℕ → Operation) (k c : ℕ) (seq requestId : ℤ) : Prop :=
  .delivered c seq requestId ∈ machine.emitted ops k

theorem sequence_mono (hij : i ≤ j) :
    (machine.state ops i).sequence ≤ (machine.state ops j).sequence := by
  induction j with
  | zero => rw [Nat.le_zero.mp hij]
  | succ j ih =>
      rcases Nat.le_succ_iff.mp hij with hle | rfl
      · exact (ih hle).trans (sequence_le _ _)
      · exact le_rfl

theorem Assigned.seq_eq (h : Assigned ops j c seq requestId) :
    seq = (machine.state ops j).sequence :=
  (assigned_iff.mp h).2.2

theorem Assigned.nonneg (h : Assigned ops j c seq requestId) : 0 ≤ seq := by
  rw [h.seq_eq]
  exact Int.natCast_nonneg _

theorem Assigned.seq_lt (h : Assigned ops j c seq requestId) (hjk : j < k) :
    seq < (machine.state ops k).sequence := by
  have hnext : (machine.state ops (j + 1)).sequence = (machine.state ops j).sequence + 1 := by
    obtain ⟨hop, hconnected, -⟩ := assigned_iff.mp h
    rw [Machine.state_succ, hop]
    exact submit_sequence hconnected
  have hmono : (machine.state ops (j + 1)).sequence ≤ (machine.state ops k).sequence :=
    sequence_mono hjk
  rw [h.seq_eq]
  omega

/-- No id is given twice. -/
theorem Assigned.unique (h : Assigned ops j c seq requestId)
    (h' : Assigned ops i c' seq requestId') : i = j := by
  rcases Nat.lt_trichotomy i j with hlt | rfl | hlt
  · have := h'.seq_lt hlt
    have := h.seq_eq
    omega
  · rfl
  · have := h.seq_lt hlt
    have := h'.seq_eq
    omega

theorem Assigned.same (h : Assigned ops j c seq requestId) (h' : Assigned ops j c' seq requestId') :
    c' = c ∧ requestId' = requestId := by
  have heq := (assigned_iff.mp h).1.symm.trans (assigned_iff.mp h').1
  cases heq
  exact ⟨rfl, rfl⟩

/-- Whatever a client waits for, it has sent. -/
theorem waits_assigned (h : Waits (machine.state ops k) c seq requestId) :
    ∃ j < k, Assigned ops j c seq requestId := by
  induction k with
  | zero => cases h.1
  | succ k ih =>
      rw [Machine.state_succ] at h
      rcases waits_step h with ⟨h, -⟩ | h
      · obtain ⟨j, hj, hassigned⟩ := ih h
        exact ⟨j, by omega, hassigned⟩
      · exact ⟨k, by omega, h⟩

theorem Delivered.assigned (h : Delivered ops k c seq requestId) :
    ∃ j < k, Assigned ops j c seq requestId :=
  waits_assigned (delivered_iff.mp h).2

/-- Once answered, a submission is waited for no more. -/
theorem Delivered.settled (h : Delivered ops i c seq requestId) (hik : i < k) :
    ¬ Waits (machine.state ops k) c' seq requestId' := by
  intro hwaits
  obtain ⟨j, hj, hassigned⟩ := h.assigned
  -- Only the client that sent it can wait for it.
  have hclient : ∀ k c' requestId', Waits (machine.state ops k) c' seq requestId' → c' = c := by
    intro k c' requestId' hw
    obtain ⟨j', -, h'⟩ := waits_assigned hw
    obtain rfl := hassigned.unique h'
    exact (hassigned.same h').1
  induction k generalizing c' requestId' with
  | zero => omega
  | succ k ih =>
      obtain rfl := hclient _ _ _ hwaits
      rw [Machine.state_succ] at hwaits
      rcases waits_step hwaits with ⟨hwaits, hop⟩ | hagain
      · rcases Nat.lt_succ_iff_lt_or_eq.mp hik with hik | rfl
        · exact ih hik hwaits
        · exact hop (delivered_iff.mp h).1
      · have : k = j := hassigned.unique hagain
        omega

/-- A submission is answered at most once. -/
theorem Delivered.unique (h : Delivered ops i c seq requestId)
    (h' : Delivered ops k c' seq requestId') : i = k := by
  rcases Nat.lt_trichotomy i k with hlt | rfl | hlt
  · exact absurd (delivered_iff.mp h').2 (h.settled hlt)
  · rfl
  · exact absurd (delivered_iff.mp h).2 (h'.settled hlt)

end Runs

end XmrigProxy.PoolClients
