import Mathlib.Data.List.Basic
import Mathlib.Tactic.Common

/-!
# Events in one shared buffer

Listeners are told of an event one after another. There is room for one event: an event that
a listener raises meanwhile is built over the one that is being passed around, and is refused
since a dispatch is under way. The listeners after it see what is in the buffer then.
-/

namespace XmrigProxy.Dispatch

variable {σ ε κ : Type*}

/-- What a listener makes of an event: the state after it, the event as it leaves it, and the events
that it raises after that. -/
structure Reaction (σ ε : Type*) where
  state : σ
  event : ε
  raised : List ε := []

/-- What the buffer holds afterwards. -/
def Reaction.buffer (r : Reaction σ ε) : ε := r.raised.getLast?.getD r.event

/-- A finished dispatch: what is left in the buffer, what each listener saw, and what was
refused. -/
structure Outcome (σ ε κ : Type*) where
  state : σ
  buffer : ε
  visits : List (κ × ε) := []
  refused : List ε := []

variable (react : κ → ε → σ → Reaction σ ε)

def visit : List κ → ε → σ → Outcome σ ε κ
  | [], e, s => { state := s, buffer := e }
  | k :: ks, e, s =>
      let r := react k e s
      let rest := visit ks r.buffer r.state
      { rest with
        visits := (k, e) :: rest.visits
        refused := r.raised ++ rest.refused }

/-- No listener raises an event. -/
def Quiet : List κ → ε → σ → Prop
  | [], _, _ => True
  | k :: ks, e, s => (react k e s).raised = [] ∧ Quiet ks (react k e s).event (react k e s).state

variable {react} {e : ε} {s : σ} {k : κ} {ks ks' : List κ}

theorem map_fst_visits (react : κ → ε → σ → Reaction σ ε) (ks : List κ) (e : ε) (s : σ) :
    (visit react ks e s).visits.map Prod.fst = ks := by
  induction ks generalizing e s with
  | nil => rfl
  | cons k ks ih =>
      change k :: (visit react ks _ _).visits.map Prod.fst = k :: ks
      rw [ih]

/-- Different listeners are visited once each. -/
theorem visited_once [DecidableEq κ] (react : κ → ε → σ → Reaction σ ε) (hnodup : ks.Nodup)
    (hk : k ∈ ks) (e : ε) (s : σ) :
    ∃ e', (visit react ks e s).visits.filter (fun v => v.1 = k) = [(k, e')] := by
  induction ks generalizing e s with
  | nil => exact absurd hk List.not_mem_nil
  | cons k' ks ih =>
      obtain ⟨hnew, hrest⟩ := List.nodup_cons.mp hnodup
      change ∃ e', ((k', e) :: (visit react ks _ _).visits).filter (fun v => v.1 = k) = [(k, e')]
      by_cases heq : k' = k
      · subst heq
        have hnone : (visit react ks (react k' e s).buffer (react k' e s).state).visits.filter
            (fun v => v.1 = k') = [] := by
          refine List.filter_eq_nil_iff.mpr fun v hv hvisited => hnew ?_
          rw [← map_fst_visits react ks (react k' e s).buffer (react k' e s).state]
          exact List.mem_map.mpr ⟨v, hv, of_decide_eq_true hvisited⟩
        refine ⟨e, ?_⟩
        rw [List.filter_cons_of_pos (by simp), hnone]
      · obtain ⟨e', he'⟩ := ih hrest ((List.mem_cons.mp hk).resolve_left (Ne.symm heq))
          (react k' e s).buffer (react k' e s).state
        refine ⟨e', ?_⟩
        rw [List.filter_cons_of_neg (by simpa using heq), he']

theorem Reaction.buffer_of_quiet {r : Reaction σ ε} (h : r.raised = []) : r.buffer = r.event := by
  unfold Reaction.buffer
  rw [h]
  rfl

theorem state_visit_cons (react : κ → ε → σ → Reaction σ ε) (k : κ) (ks : List κ) (e : ε) (s : σ) :
    (visit react (k :: ks) e s).state =
      (visit react ks (react k e s).buffer (react k e s).state).state :=
  rfl

theorem state_visit_append (react : κ → ε → σ → Reaction σ ε) (ks ks' : List κ) (e : ε) (s : σ) :
    (visit react (ks ++ ks') e s).state =
      (visit react ks' (visit react ks e s).buffer (visit react ks e s).state).state := by
  induction ks generalizing e s with
  | nil => rfl
  | cons k ks ih => exact ih _ _

/-- What every listener keeps of the event and the state holds of all that the listeners see. -/
theorem visit_invariant {P : ε → σ → Prop}
    (hstep : ∀ k ∈ ks, ∀ e s, P e s → P (react k e s).buffer (react k e s).state) (h : P e s) :
    (∀ v ∈ (visit react ks e s).visits, ∃ s', P v.2 s') ∧
      P (visit react ks e s).buffer (visit react ks e s).state := by
  induction ks generalizing e s with
  | nil => exact ⟨fun v hv => absurd hv List.not_mem_nil, h⟩
  | cons k ks ih =>
      obtain ⟨hvisits, hbuffer⟩ := ih (fun k' hk' => hstep k' (List.mem_cons_of_mem _ hk'))
        (hstep k List.mem_cons_self e s h)
      refine ⟨fun v hv => ?_, hbuffer⟩
      rcases List.mem_cons.mp hv with rfl | hv
      · exact ⟨s, h⟩
      · exact hvisits v hv

theorem refused_eq_nil : (visit react ks e s).refused = [] ↔ Quiet react ks e s := by
  induction ks generalizing e s with
  | nil => exact ⟨fun _ => trivial, fun _ => rfl⟩
  | cons k ks ih =>
      change (react k e s).raised ++ _ = [] ↔ _ ∧ _
      rw [List.append_eq_nil_iff]
      refine and_congr_right fun hnone => ?_
      rw [Reaction.buffer_of_quiet hnone]
      exact ih

/-- Where nothing is raised each listener sees the event, up to what the listeners may change. -/
theorem Quiet.same {R : ε → ε → Prop} (htrans : ∀ a b c, R a b → R b c → R a c)
    (hrefl : ∀ a, R a a) (hkeeps : ∀ k e s, R e (react k e s).event)
    (h : Quiet react ks e s) : (∀ v ∈ (visit react ks e s).visits, R e v.2) ∧
      R e (visit react ks e s).buffer := by
  induction ks generalizing e s with
  | nil => exact ⟨fun v hv => absurd hv List.not_mem_nil, hrefl e⟩
  | cons k ks ih =>
      obtain ⟨hnone, hrest⟩ := h
      rw [← Reaction.buffer_of_quiet hnone] at hrest
      have hnext : R e (react k e s).buffer := by
        rw [Reaction.buffer_of_quiet hnone]
        exact hkeeps k e s
      obtain ⟨hvisits, hbuffer⟩ := ih hrest
      refine ⟨fun v hv => ?_, htrans _ _ _ hnext hbuffer⟩
      rcases List.mem_cons.mp hv with rfl | hv
      · exact hrefl e
      · exact htrans _ _ _ hnext (hvisits v hv)

/-- It is enough that no listener raises anything on an event of this kind. -/
theorem quiet_of_forall {P : ε → Prop} (hkeeps : ∀ k e s, P e → P (react k e s).event)
    (hnone : ∀ k ∈ ks, ∀ e s, P e → (react k e s).raised = []) (h : P e) :
    Quiet react ks e s := by
  induction ks generalizing e s with
  | nil => trivial
  | cons k ks ih =>
      exact ⟨hnone k List.mem_cons_self e s h,
        ih (fun k' hk' => hnone k' (List.mem_cons_of_mem _ hk')) (hkeeps k e s h)⟩

theorem quiet_append : Quiet react (ks ++ ks') e s ↔ Quiet react ks e s ∧
    Quiet react ks' (visit react ks e s).buffer (visit react ks e s).state := by
  induction ks generalizing e s with
  | nil => exact (iff_of_eq (true_and _)).symm
  | cons k ks ih =>
      change _ ∧ Quiet react (ks ++ ks') _ _ ↔
        (_ ∧ _) ∧ Quiet react ks' (visit react ks _ _).buffer (visit react ks _ _).state
      rw [and_assoc]
      refine and_congr_right fun hnone => ?_
      rw [Reaction.buffer_of_quiet hnone]
      exact ih

end XmrigProxy.Dispatch
