import XmrigProxy.VerifierAccounting

/-! Readiness of seeds. A control request is matched to its seed by hash alone, so an
answer is the answer to the last request only as long as no entry is created for a seed
that still has one outstanding. Under that condition a ready seed is one whose last
request on the current connection was answered, in every reachable state; without it a
late answer to a forgotten request decides the status of its successor. -/
namespace XmrigProxy.VerifierSeeds

open RandomXVerifier Handler VerifierAccounting

variable {κ : Type}

/-- One observation's effect on the last control request for a seed. -/
def noteControl (seedHash : String) (last : Option (ℕ × ControlOp)) :
    Output κ → Option (ℕ × ControlOp)
  | .sent id (.control op h) => if h = seedHash then some (id, op) else last
  | .disconnected => none
  | _ => last

/-- The last control request sent for a seed on the current connection. -/
def lastControl (seedHash : String) (tr : List (Output κ)) : Option (ℕ × ControlOp) :=
  tr.foldl (noteControl seedHash) none

/-- This very request was a `prepare_seed` for the seed and ended with success. -/
def SettledOk (seedHash : String) (id : ℕ) (tr : List (Output κ)) : Prop :=
  ∃ control before after, control.op = .prepareSeed ∧ control.seedHash = seedHash ∧
    .settled id control .ok before after ∈ tr

/-- The end of a control request changes nothing when a later one was sent for its seed. -/
def EarlierHarmless (before : List (Output κ)) : Output κ → Prop
  | .settled id control _ old new => ∀ id' op,
      lastControl control.seedHash before = some (id', op) → id < id' → old = new
  | _ => True

theorem lastControl_append (seedHash : String) (xs ys : List (Output κ)) :
    lastControl seedHash (xs ++ ys) = ys.foldl (noteControl seedHash) (lastControl seedHash xs) :=
  List.foldl_append

@[simp] theorem lastControl_snoc (seedHash : String) (xs : List (Output κ)) (o : Output κ) :
    lastControl seedHash (xs ++ [o]) = noteControl seedHash (lastControl seedHash xs) o := by
  rw [lastControl_append]
  rfl

theorem SettledOk.append {seedHash : String} {id : ℕ} {xs : List (Output κ)}
    (h : SettledOk seedHash id xs) (ys : List (Output κ)) :
    SettledOk seedHash id (xs ++ ys) := by
  obtain ⟨control, before, after, hop, hseed, hmem⟩ := h
  exact ⟨control, before, after, hop, hseed, List.mem_append_left _ hmem⟩

/-- The only requests that can still end for a retained seed are the last ones. -/
structure Current (s : State κ) (tr : List (Output κ)) : Prop where
  outstanding : ∀ id control seed, s.controls.find id = some control →
    control.op = .prepareSeed → s.seeds.find control.seedHash = some seed →
    seed.status = .requested ∧ lastControl control.seedHash tr = some (id, .prepareSeed)
  ready : ∀ seedHash seed, s.seeds.find seedHash = some seed → seed.status = .ready →
    ∃ id, lastControl seedHash tr = some (id, .prepareSeed) ∧ SettledOk seedHash id tr
  named : ∀ seedHash seed, s.seeds.find seedHash = some seed → seedHash ≠ ""
  harmless : Along EarlierHarmless tr

/-- Observations that are not about control requests. -/
def Neutral : Output κ → Prop
  | .sent _ (.verify _) => True
  | .called _ _ => True
  | .dropped _ => True
  | _ => False

theorem lastControl_neutral {tr out : List (Output κ)} (h : ∀ o ∈ out, Neutral o)
    (seedHash : String) : lastControl seedHash (tr ++ out) = lastControl seedHash tr := by
  rw [lastControl_append]
  induction out generalizing tr with
  | nil => rfl
  | cons o rest ih =>
      have ho := h o List.mem_cons_self
      have hrest := @ih tr fun o' ho' => h o' (List.mem_cons_of_mem _ ho')
      rw [List.foldl_cons]
      cases o with
      | sent id message =>
          cases message with
          | control op hash => exact ho.elim
          | verify request => exact hrest
      | settled => exact ho.elim
      | called => exact hrest
      | dropped => exact hrest
      | disconnected => exact ho.elim

/-- Steps that neither touch the seeds nor send or end control requests. -/
theorem Current.neutral {s s' : State κ} {tr out : List (Output κ)} (h : Current s tr)
    (hcontrols : s'.controls = s.controls) (hseeds : s'.seeds = s.seeds)
    (hout : ∀ o ∈ out, Neutral o) : Current s' (tr ++ out) := by
  refine ⟨fun id control seed hc hop hs => ?_, fun seedHash seed hs hready => ?_,
    fun seedHash seed hs => ?_, h.harmless.append fun o ho before => ?_⟩
  · rw [lastControl_neutral hout]
    exact h.outstanding id control seed (hcontrols ▸ hc) hop (hseeds ▸ hs)
  · obtain ⟨id, hlast, hok⟩ := h.ready seedHash seed (hseeds ▸ hs) hready
    exact ⟨id, by rw [lastControl_neutral hout, hlast], hok.append out⟩
  · exact h.named seedHash seed (hseeds ▸ hs)
  · have := hout o ho
    cases o <;> trivial

theorem Current.unchanged {s s' : State κ} {tr : List (Output κ)} (h : Current s tr)
    (hcontrols : s'.controls = s.controls) (hseeds : s'.seeds = s.seeds) : Current s' tr := by
  have hnone : ∀ o ∈ ([] : List (Output κ)), Neutral o := by simp
  simpa using h.neutral hcontrols hseeds hnone

/-- After a disconnect no control request is outstanding and every seed is wanted. -/
structure TornDown (s s' : State κ) : Prop where
  controls : s'.controls = ∅
  seeds : ∀ seedHash seed, s'.seeds.find seedHash = some seed →
    seed.status = .wanted ∧ (s.seeds.find seedHash).isSome

theorem Current.tornDown {s s' : State κ} {tr out : List (Output κ)} (h : Current s tr)
    (ht : TornDown s s') (hout : ∀ o ∈ out, Neutral o) :
    Current s' (tr ++ .disconnected :: out) := by
  have hstep : Current s' (tr ++ [.disconnected]) := by
    refine ⟨fun id control seed hc => ?_, fun seedHash seed hs hready => ?_,
      fun seedHash seed hs => ?_, h.harmless.snoc trivial⟩
    · simp [ht.controls] at hc
    · simp [(ht.seeds seedHash seed hs).1] at hready
    · obtain ⟨seed₀, hs₀⟩ := Option.isSome_iff_exists.mp (ht.seeds seedHash seed hs).2
      exact h.named seedHash seed₀ hs₀
  simpa using hstep.neutral rfl rfl hout

theorem Current.erase {s s' : State κ} {tr : List (Output κ)} (h : Current s tr)
    (seedHash : String) (hcontrols : s'.controls = s.controls)
    (hseeds : s'.seeds = s.seeds.erase seedHash) : Current s' tr := by
  have hfind : ∀ {other seed}, s'.seeds.find other = some seed →
      s.seeds.find other = some seed := by
    intro other seed hs
    rw [hseeds, Table.find_erase] at hs
    split at hs
    · simp at hs
    · exact hs
  exact ⟨fun id control seed hc hop hs => h.outstanding id control seed (hcontrols ▸ hc) hop
      (hfind hs), fun other seed hs => h.ready other seed (hfind hs),
    fun other seed hs => h.named other seed (hfind hs), h.harmless⟩

/-- Forgetting an outstanding request that is never answered. -/
theorem Current.forget {s s' : State κ} {tr : List (Output κ)} (h : Current s tr)
    (hcontrols : ∀ id control, s'.controls.find id = some control →
      s.controls.find id = some control)
    (hseeds : s'.seeds = s.seeds) : Current s' tr :=
  ⟨fun id control seed hc hop hs => h.outstanding id control seed (hcontrols id control hc) hop
      (hseeds ▸ hs), fun seedHash seed hs => h.ready seedHash seed (hseeds ▸ hs),
    fun seedHash seed hs => h.named seedHash seed (hseeds ▸ hs), h.harmless⟩

/-- A control request that concerns no retained seed. -/
theorem Current.sentOther {s s' : State κ} {tr : List (Output κ)} (h : Current s tr)
    {id now : ℕ} {op : ControlOp} {seedHash : String} (hop : op ≠ .prepareSeed)
    (hnone : s.seeds.find seedHash = none)
    (hcontrols : s'.controls = s.controls.insert id ⟨op, seedHash, now⟩)
    (hseeds : s'.seeds = s.seeds) : Current s' (tr ++ [.sent id (.control op seedHash)]) := by
  have hother : ∀ {other seed}, s.seeds.find other = some seed → seedHash ≠ other := by
    rintro other seed hs rfl
    simp [hnone] at hs
  refine ⟨fun i control seed hc hprep hs => ?_, fun other seed hs hready => ?_,
    fun other seed hs => h.named other seed (hseeds ▸ hs), h.harmless.snoc trivial⟩
  · rw [hseeds] at hs
    rw [hcontrols, Table.find_insert] at hc
    split at hc
    · obtain rfl := Option.some.inj hc
      exact absurd hprep hop
    · obtain ⟨hreq, hlast⟩ := h.outstanding i control seed hc hprep hs
      exact ⟨hreq, by simpa [noteControl, hother hs] using hlast⟩
  · rw [hseeds] at hs
    obtain ⟨i, hlast, hok⟩ := h.ready other seed hs hready
    exact ⟨i, by simpa [noteControl, hother hs] using hlast, hok.append _⟩

def Wanted (s : State κ) (seedHash : String) : Prop :=
  ∀ seed, s.seeds.find seedHash = some seed → seed.status = .wanted

/-- A `prepare_seed` for a seed that is wanted, hence has no request outstanding. -/
theorem Current.sentPrepare {s s' : State κ} {tr : List (Output κ)} (h : Current s tr)
    {id now : ℕ} {seedHash : String} (hwanted : Wanted s seedHash)
    (hcontrols : s'.controls = s.controls.insert id ⟨.prepareSeed, seedHash, now⟩)
    (hseeds : s'.seeds = s.seeds.modify seedHash fun seed =>
      { seed with status := .requested, retryAtMs := 0 }) :
    Current s' (tr ++ [.sent id (.control .prepareSeed seedHash)]) := by
  refine ⟨fun i control seed hc hprep hs => ?_, fun other seed hs hready => ?_,
    fun other seed hs => ?_, h.harmless.snoc trivial⟩
  · rw [hseeds, Table.find_modify] at hs
    rw [hcontrols, Table.find_insert] at hc
    by_cases hi : i = id
    · rw [if_pos hi] at hc
      obtain rfl := Option.some.inj hc
      simp only [if_true, Option.map_eq_some_iff] at hs
      obtain ⟨seed₀, -, rfl⟩ := hs
      exact ⟨rfl, by simp [noteControl, hi]⟩
    · rw [if_neg hi] at hc
      by_cases hsame : control.seedHash = seedHash
      · simp only [hsame, if_true, Option.map_eq_some_iff] at hs
        obtain ⟨seed₀, hs₀, rfl⟩ := hs
        have hw := hwanted seed₀ hs₀
        have := (h.outstanding i control seed₀ hc hprep (hsame ▸ hs₀)).1
        simp [hw] at this
      · rw [if_neg hsame] at hs
        obtain ⟨hreq, hlast⟩ := h.outstanding i control seed hc hprep hs
        exact ⟨hreq, by simpa [noteControl, Ne.symm hsame] using hlast⟩
  · rw [hseeds, Table.find_modify] at hs
    by_cases hsame : other = seedHash
    · simp only [hsame, if_true, Option.map_eq_some_iff] at hs
      obtain ⟨seed₀, -, rfl⟩ := hs
      simp at hready
    · rw [if_neg hsame] at hs
      obtain ⟨i, hlast, hok⟩ := h.ready other seed hs hready
      exact ⟨i, by simpa [noteControl, Ne.symm hsame] using hlast, hok.append _⟩
  · rw [hseeds, Table.find_modify] at hs
    by_cases hsame : other = seedHash
    · simp only [hsame, if_true, Option.map_eq_some_iff] at hs
      obtain ⟨seed₀, hs₀, -⟩ := hs
      exact hsame ▸ h.named seedHash seed₀ hs₀
    · rw [if_neg hsame] at hs
      exact h.named other seed hs

/-- The end of a control request other than `prepare_seed`. -/
theorem Current.settleOther {s s' : State κ} {tr : List (Output κ)} (h : Current s tr)
    (id : ℕ) (control : Control) (outcome : Outcome) (status : Option SeedStatus)
    (hcontrols : ∀ i c, s'.controls.find i = some c → s.controls.find i = some c)
    (hseeds : s'.seeds = s.seeds) :
    Current s' (tr ++ [.settled id control outcome status status]) := by
  have hf := h.forget hcontrols hseeds
  refine ⟨fun i c seed hc hop hs => ?_, fun seedHash seed hs hready => ?_, hf.named,
    h.harmless.snoc fun _ _ _ _ => rfl⟩
  · simpa [noteControl] using hf.outstanding i c seed hc hop hs
  · obtain ⟨i, hlast, hok⟩ := hf.ready seedHash seed hs hready
    exact ⟨i, by simpa [noteControl] using hlast, hok.append _⟩

/-- The end of a `prepare_seed`: it was the last request for its seed, if that is retained. -/
theorem Current.settlePrepare {s s' : State κ} {tr : List (Output κ)} (h : Current s tr)
    {id : ℕ} {control : Control} (hfind : s.controls.find id = some control)
    (hop : control.op = .prepareSeed) {outcome : Outcome} (update : SeedState → SeedState)
    (hupdate : ∀ seed, (update seed).status = .wanted ∨
      (update seed).status = .ready ∧ outcome = .ok)
    (hcontrols : s'.controls = s.controls.erase id)
    (hseeds : s'.seeds = s.seeds.modify control.seedHash update) :
    Current s' (tr ++ [.settled id control outcome (seedStatus s control.seedHash)
      (seedStatus s' control.seedHash)]) := by
  have hlater : ∀ i c, s'.controls.find i = some c → i ≠ id ∧ s.controls.find i = some c := by
    intro i c hc
    rw [hcontrols, Table.find_erase] at hc
    split at hc
    · simp at hc
    · exact ⟨‹_›, hc⟩
  refine ⟨fun i c seed hc hprep hs => ?_, fun other seed hs hready => ?_,
    fun other seed hs => ?_, h.harmless.snoc ?_⟩
  · obtain ⟨hi, hc⟩ := hlater i c hc
    rw [hseeds, Table.find_modify] at hs
    by_cases hsame : c.seedHash = control.seedHash
    · simp only [hsame, if_true, Option.map_eq_some_iff] at hs
      obtain ⟨seed₀, hs₀, -⟩ := hs
      have hmine := (h.outstanding id control seed₀ hfind hop hs₀).2
      have hother := (h.outstanding i c seed₀ hc hprep (hsame ▸ hs₀)).2
      rw [hsame, hmine] at hother
      simp only [Option.some.injEq, Prod.mk.injEq, and_true] at hother
      exact absurd hother.symm hi
    · rw [if_neg hsame] at hs
      simpa [noteControl] using h.outstanding i c seed hc hprep hs
  · rw [hseeds, Table.find_modify] at hs
    by_cases hsame : other = control.seedHash
    · simp only [hsame, if_true, Option.map_eq_some_iff] at hs
      obtain ⟨seed₀, hs₀, rfl⟩ := hs
      have hlast := (h.outstanding id control seed₀ hfind hop hs₀).2
      rcases hupdate seed₀ with hw | ⟨-, rfl⟩
      · simp [hw] at hready
      · exact ⟨id, by simpa [noteControl, hsame] using hlast,
          control, _, _, hop, hsame.symm, List.mem_append_right _ (List.mem_singleton_self _)⟩
    · rw [if_neg hsame] at hs
      obtain ⟨i, hlast, hok⟩ := h.ready other seed hs hready
      exact ⟨i, by simpa [noteControl] using hlast, hok.append _⟩
  · rw [hseeds, Table.find_modify] at hs
    by_cases hsame : other = control.seedHash
    · simp only [hsame, if_true, Option.map_eq_some_iff] at hs
      obtain ⟨seed₀, hs₀, -⟩ := hs
      exact hsame ▸ h.named _ seed₀ hs₀
    · rw [if_neg hsame] at hs
      exact h.named other seed hs
  · intro id' op hlast hlt
    cases hs : s.seeds.find control.seedHash with
    | none => simp [seedStatus, hseeds, Table.find_modify, hs]
    | some seed =>
        have hmine := (h.outstanding id control seed hfind hop hs).2
        rw [hmine] at hlast
        simp only [Option.some.injEq, Prod.mk.injEq] at hlast
        omega

section Handlers

variable (env : Env)

theorem neutral_failAll (error : String) (s : State κ) :
    ∀ o ∈ (failAll env error s).2, Neutral o := by
  intro o ho
  obtain ⟨e, -, rfl⟩ := List.mem_map.mp ho
  trivial

/-- A disconnect tears everything down, unless there is nothing to tear down. -/
theorem disconnect_cases (error : String) (failPending : Bool) (s : State κ) :
    (s.connected = false ∧ disconnect env error failPending s = (s, [])) ∨
      ∃ out, (∀ o ∈ out, Neutral o) ∧ (disconnect env error failPending s).2 =
        .disconnected :: out ∧ TornDown s (disconnect env error failPending s).1 := by
  have hseeds : ∀ seedHash seed,
      (s.seeds.map fun _ seed => { seed with status := .wanted, retryAtMs := 0 }).find seedHash =
        some seed → seed.status = .wanted ∧ (s.seeds.find seedHash).isSome := by
    intro seedHash seed hs
    simp only [Table.find_map, Option.map_eq_some_iff] at hs
    obtain ⟨seed₀, hs₀, rfl⟩ := hs
    exact ⟨rfl, by simp [hs₀]⟩
  by_cases hc : (!s.connected && !s.pipe) = true
  · refine Or.inl ⟨?_, by simp [disconnect, hc]⟩
    simp only [Bool.and_eq_true, Bool.not_eq_true'] at hc
    exact hc.1
  · apply Or.inr
    simp only [disconnect, hc]
    cases failPending with
    | false => exact ⟨[], by simp, rfl, rfl, hseeds⟩
    | true => exact ⟨_, neutral_failAll env error _, rfl, rfl, hseeds⟩

theorem current_disconnect (error : String) (failPending : Bool) :
    Preserves Current (disconnect (κ := κ) env error failPending) := by
  intro s tr h
  rcases disconnect_cases env error failPending s with ⟨-, heq⟩ | ⟨out, hout, heq, ht⟩
  · simpa [heq] using h
  · rw [heq]
    exact h.tornDown ht hout

/-- A control request is refused without a trace, breaks the connection, or goes out. -/
theorem sendControl_cases (op : ControlOp) (seedHash : String) (s : State κ) :
    ((sendControl env op seedHash s).1 = false ∧ (sendControl env op seedHash s).2.2 = [] ∧
        (sendControl env op seedHash s).2.1.seeds = s.seeds ∧
        ∀ id control, (sendControl env op seedHash s).2.1.controls.find id = some control →
          s.controls.find id = some control) ∨
      ((sendControl env op seedHash s).1 = false ∧
        (sendControl env op seedHash s).2.2 = [.disconnected] ∧
        TornDown s (sendControl env op seedHash s).2.1) ∨
      ((sendControl env op seedHash s).1 = true ∧
        (sendControl env op seedHash s).2.2 = [.sent s.nextRequestId (.control op seedHash)] ∧
        (sendControl env op seedHash s).2.1.seeds = s.seeds ∧
        (sendControl env op seedHash s).2.1.controls =
          s.controls.insert s.nextRequestId ⟨op, seedHash, env.now⟩) := by
  have herase : ∀ id control, ((s.controls.insert s.nextRequestId ⟨op, seedHash, env.now⟩).erase
      s.nextRequestId).find id = some control → s.controls.find id = some control := by
    intro id control hc
    by_cases hid : id = s.nextRequestId <;> simp_all [Table.find_erase, Table.find_insert]
  cases hconn : s.connected with
  | false => exact Or.inl (by simp [sendControl, hconn])
  | true =>
      cases hpipe : s.pipe with
      | false => exact Or.inl (by simpa [sendControl, sendDocument, hconn, hpipe] using herase)
      | true =>
          cases hw : env.write s.nextRequestId with
          | refused =>
              exact Or.inl (by simpa [sendControl, sendDocument, hconn, hpipe, hw] using herase)
          | failed =>
              refine Or.inr (Or.inl ⟨?_, ?_, ?_, ?_⟩)
              · simp [sendControl, sendDocument, hconn, hpipe, hw]
              · simp [sendControl, sendDocument, disconnect, hconn, hpipe, hw]
              · simp only [sendControl, sendDocument, disconnect, hconn, hpipe, hw]
                rfl
              · intro h seed hs
                simp only [sendControl, sendDocument, disconnect, hconn, hpipe, hw] at hs
                simp only [Bool.not_true, Bool.or_self, Bool.false_eq_true, if_false,
                  Bool.and_self, Table.find_map, Option.map_eq_some_iff] at hs
                obtain ⟨seed₀, hs₀, rfl⟩ := hs
                exact ⟨rfl, by simp [hs₀]⟩
          | sent => exact Or.inr (Or.inr (by simp [sendControl, sendDocument, hconn, hpipe, hw]))

theorem current_sendOther {s : State κ} {tr : List (Output κ)} (h : Current s tr)
    {op : ControlOp} {seedHash : String} (hop : op ≠ .prepareSeed)
    (hnone : s.seeds.find seedHash = none) :
    Current (sendControl env op seedHash s).2.1 (tr ++ (sendControl env op seedHash s).2.2) := by
  rcases sendControl_cases env op seedHash s with
    ⟨-, hout, hseeds, hcontrols⟩ | ⟨-, hout, ht⟩ | ⟨-, hout, hseeds, hcontrols⟩
  · rw [hout, List.append_nil]
    exact h.forget hcontrols hseeds
  · rw [hout]
    exact h.tornDown ht (by simp)
  · rw [hout]
    exact h.sentOther hop hnone hcontrols hseeds

theorem Current.find_empty_name {s : State κ} {tr : List (Output κ)} (h : Current s tr) :
    s.seeds.find "" = none := by
  cases hs : s.seeds.find "" with
  | none => rfl
  | some seed => exact absurd rfl (h.named "" seed hs)

theorem current_requestSeed {s : State κ} {tr : List (Output κ)} (h : Current s tr)
    {seedHash : String} (hwanted : Wanted s seedHash) :
    Current (requestSeed env seedHash s).1 (tr ++ (requestSeed env seedHash s).2) := by
  simp only [requestSeed]
  rcases sendControl_cases env .prepareSeed seedHash s with
    ⟨hsent, hout, hseeds, hcontrols⟩ | ⟨hsent, hout, ht⟩ | ⟨hsent, hout, hseeds, hcontrols⟩
  · simp only [hsent, hout, Bool.false_eq_true, if_false, List.append_nil]
    exact h.forget hcontrols hseeds
  · simp only [hsent, hout, Bool.false_eq_true, if_false]
    exact h.tornDown ht (by simp)
  · simp only [hsent, if_true, hout]
    exact h.sentPrepare hwanted hcontrols (by rw [hseeds])

theorem wanted_requestSeed {s : State κ} {seedHash other : String} (hne : other ≠ seedHash)
    (hwanted : Wanted s other) : Wanted (requestSeed env seedHash s).1 other := by
  intro seed hs
  simp only [requestSeed] at hs
  rcases sendControl_cases env .prepareSeed seedHash s with
    ⟨hsent, -, hseeds, -⟩ | ⟨hsent, -, ht⟩ | ⟨hsent, -, hseeds, -⟩
  · simp only [hsent, Bool.false_eq_true, if_false, hseeds] at hs
    exact hwanted seed hs
  · simp only [hsent, Bool.false_eq_true, if_false] at hs
    exact (ht.seeds other seed hs).1
  · simp only [hsent, if_true, hseeds, Table.find_modify, if_neg hne] at hs
    exact hwanted seed hs

/-- The loop over the wanted seeds: each is still wanted when its turn comes. -/
theorem current_requestEach (l : List (ℕ × String)) (hnodup : (l.map Prod.snd).Nodup)
    {s : State κ} {tr : List (Output κ)} (h : Current s tr) (hwanted : ∀ e ∈ l, Wanted s e.2) :
    let run := forEach (fun (e : ℕ × String) s =>
      if (s.seeds.find e.2).isSome then requestSeed env e.2 s else (s, [])) l s
    Current run.1 (tr ++ run.2) := by
  induction l generalizing s tr with
  | nil => simpa [forEach, skip] using h
  | cons e rest ih =>
      obtain ⟨hnot, hrest⟩ := List.nodup_cons.mp hnodup
      have hne : ∀ e' ∈ rest, e'.2 ≠ e.2 := fun e' he' heq =>
        hnot (List.mem_map.mpr ⟨e', he', heq⟩)
      simp only [forEach, Handler.seq]
      cases hs : (s.seeds.find e.2).isSome with
      | false =>
          have := ih hrest h fun e' he' => hwanted e' (List.mem_cons_of_mem _ he')
          simpa [hs] using this
      | true =>
          have hstep := current_requestSeed env h (hwanted e List.mem_cons_self)
          have := ih hrest hstep fun e' he' =>
            wanted_requestSeed env (hne e' he') (hwanted e' (List.mem_cons_of_mem _ he'))
          simpa [hs, List.append_assoc] using this

theorem wantedSeeds_spec (s : State κ) :
    ((wantedSeeds env s).map Prod.snd).Nodup ∧ ∀ e ∈ wantedSeeds env s, Wanted s e.2 := by
  have hperm := List.perm_insertionSort (fun a b : ℕ × String =>
    a.1 < b.1 ∨ (a.1 = b.1 ∧ a.2 ≤ b.2)) ((s.seeds.entries.filter fun e =>
      e.2.status = .wanted && e.2.retryAtMs ≤ env.now).map fun e => (e.2.order, e.1))
  constructor
  · apply ((hperm.map Prod.snd).nodup_iff).mpr
    rw [List.map_map]
    exact s.seeds.keys_nodup.sublist (List.filter_sublist.map _)
  · intro e he seed hs
    obtain ⟨⟨seedHash, seed₀⟩, hmem, rfl⟩ := List.mem_map.mp (hperm.mem_iff.mp he)
    obtain ⟨hmem, hdue⟩ := List.mem_filter.mp hmem
    have hfind := s.seeds.mem_entries.mp hmem
    obtain rfl : seed₀ = seed := Option.some.inj (hfind.symm.trans hs)
    simp only [Bool.and_eq_true, decide_eq_true_eq] at hdue
    exact hdue.1

theorem current_requestWantedSeeds : Preserves Current (requestWantedSeeds (κ := κ) env) :=
  fun s _ h => current_requestEach env _ (wantedSeeds_spec env s).1 h (wantedSeeds_spec env s).2

theorem current_requestStats : Preserves Current (requestStats (κ := κ) env) := by
  intro s tr h
  have h' : Current { s with nextStatsAtMs := env.now + statsIntervalMs } tr :=
    h.unchanged rfl rfl
  simp only [requestStats]
  split
  · simpa using h'
  · exact current_sendOther env h' (by simp) h'.find_empty_name

theorem current_releaseSeed (seedHash : String) :
    Preserves Current (releaseSeed (κ := κ) env seedHash) := by
  intro s tr h
  have herased : Current { s with seeds := s.seeds.erase seedHash } tr := h.erase seedHash rfl rfl
  simp only [releaseSeed]
  split
  · rcases sendControl_cases env .releaseSeed seedHash s with
      ⟨-, hout, hseeds, hcontrols⟩ | ⟨-, hout, ht⟩ | ⟨-, hout, hseeds, hcontrols⟩
    · rw [hout, List.append_nil]
      exact herased.forget hcontrols (by rw [hseeds])
    · rw [hout]
      exact (h.tornDown ht (by simp)).erase seedHash rfl rfl
    · rw [hout]
      exact herased.sentOther (by simp) (Table.find_erase_self _ _) hcontrols (by rw [hseeds])
  · simpa using herased

theorem current_maintain : Preserves Current (maintain (κ := κ) env) := by
  refine Preserves.seq (fun s => Preserves.forEach (current_releaseSeed env) _ s)
    (Preserves.seq (fun s tr h => ?_) fun s tr h => ?_)
  · split
    · refine Preserves.seq (current_requestWantedSeeds env) (fun s tr h => ?_) s tr h
      split
      · exact current_requestStats env s tr h
      · simpa using h
    · simpa using h
  · split
    · unfold connect
      split
      · simpa using h
      · split <;> exact h.neutral rfl rfl (by simp)
    · simpa using h

theorem current_expireControl {s : State κ} {tr : List (Output κ)} (h : Current s tr)
    {id : ℕ} {control : Control} (hfind : s.controls.find id = some control) :
    Current (expireControl env id control s).1 (tr ++ (expireControl env id control s).2) := by
  by_cases hop : control.op = .prepareSeed
  · refine h.settlePrepare hfind hop
      (fun seed => { seed with status := .wanted, retryAtMs := env.now + seedRetryDelayMs })
      (fun _ => Or.inl rfl) rfl ?_
    simp [expireControl, hop]
  · have hsame : seedStatus (expireControl env id control s).1 control.seedHash =
        seedStatus s control.seedHash := by
      simp [expireControl, hop, seedStatus]
    simp only [expireControl] at hsame ⊢
    rw [hsame]
    refine h.settleOther id control .timeout _ (fun i c hc => ?_) (by simp [hop])
    simp only [Table.find_erase] at hc
    split at hc
    · simp at hc
    · exact hc

theorem current_expireControls (options : Options) (entries : List (ℕ × Control))
    (hkeys : entries.Pairwise fun a b => a.1 < b.1) {s : State κ} {tr : List (Output κ)}
    (h : Current s tr) (hfind : ∀ e ∈ entries, s.controls.find e.1 = some e.2) :
    Current (expireControls options env entries s).2.1
      (tr ++ (expireControls options env entries s).2.2) := by
  induction entries generalizing s tr with
  | nil => simpa [expireControls] using h
  | cons entry rest ih =>
      obtain ⟨id, control⟩ := entry
      obtain ⟨hfirst, hrest⟩ := List.pairwise_cons.mp hkeys
      simp only [expireControls]
      split
      · exact ih hrest h fun e he => hfind e (List.mem_cons_of_mem _ he)
      · split
        · exact current_disconnect env _ true s tr h
        · have hone := current_expireControl env h (hfind _ List.mem_cons_self)
          have := ih hrest hone fun e he => by
            have hne : e.1 ≠ id := (hfirst e he).ne'
            simp only [expireControl, Table.find_erase_of_ne _ hne]
            exact hfind e (List.mem_cons_of_mem _ he)
          simpa [List.append_assoc] using this

theorem current_complete (id : ℕ) (pending : Pending κ) (result : Result) :
    Preserves Current (complete id pending result) :=
  fun _ _ h => h.neutral rfl rfl (by simp [complete, Neutral])

theorem current_tick (options : Options) : Preserves Current (tick (κ := κ) options env) := by
  refine Preserves.seq (fun s => Preserves.forEach (fun id s tr h => ?_) _ s) fun s tr h => ?_
  · unfold expireRequest
    split
    · simpa using h
    · exact current_complete _ _ _ s tr h
  · have hc := current_expireControls env options s.controls.entries s.controls.sorted h
      fun e he => s.controls.mem_entries.mp he
    dsimp only
    split
    · simpa [List.append_assoc] using current_maintain env _ _ hc
    · exact hc

theorem current_controlAnswered {s : State κ} {tr : List (Output κ)} (h : Current s tr)
    (doc : Json) {id : ℕ} {control : Control} (hfind : s.controls.find id = some control) :
    Current (controlAnswered env doc id control { s with controls := s.controls.erase id }).1
      (tr ++ (controlAnswered env doc id control
        { s with controls := s.controls.erase id }).2) := by
  have hsub : ∀ i c, (s.controls.erase id).find i = some c → s.controls.find i = some c := by
    intro i c hc
    rw [Table.find_erase] at hc
    split at hc
    · simp at hc
    · exact hc
  have hforgotten : Current { s with controls := s.controls.erase id } tr := h.forget hsub rfl
  unfold controlAnswered
  cases hop : control.op with
  | hello =>
      dsimp only
      split
      · exact current_disconnect env _ true _ tr hforgotten
      · split
        · exact current_disconnect env _ true _ tr hforgotten
        · exact (current_requestWantedSeeds env).seq (current_requestStats env) _ _
            (hforgotten.unchanged rfl rfl)
  | prepareSeed =>
      dsimp only
      split
      · exact current_disconnect env _ true _ tr hforgotten
      · refine h.settlePrepare hfind hop (fun seed => { seed with
          status := if doc.getBool "ok" false then .ready else .wanted
          retryAtMs := if doc.getBool "ok" false then 0 else env.now + seedRetryDelayMs })
          (fun seed => ?_) rfl rfl
        cases doc.getBool "ok" false <;> simp
  | releaseSeed => exact h.settleOther id control _ _ hsub rfl
  | stats => exact h.settleOther id control _ _ hsub rfl

theorem current_handleResponse (doc : Json) :
    Preserves Current (handleResponse (κ := κ) env doc) := by
  intro s tr h
  unfold handleResponse
  split
  · exact current_disconnect env _ true s tr h
  · dsimp only
    split
    · exact current_disconnect env _ true s tr h
    · split
      · next hfind => exact current_controlAnswered env h doc hfind
      · split
        · simpa using h
        · exact current_complete _ _ _ s tr h

theorem current_onConnect (accepted : Bool) :
    Preserves Current (onConnect (κ := κ) env accepted) := by
  intro s tr h
  unfold onConnect
  split
  · simpa using h
  · split
    · exact current_disconnect env _ true s tr h
    · have h' : Current { s with connected := true, ready := false } tr := h.unchanged rfl rfl
      have hop : ControlOp.hello ≠ .prepareSeed := by decide
      have hs := current_sendOther env h' hop h'.find_empty_name
      dsimp only
      split
      · exact hs
      · simpa [List.append_assoc] using current_disconnect env _ true _ _ hs

theorem current_stop : Preserves Current (stop (κ := κ) env) := by
  intro s tr h
  unfold stop
  split
  · simpa using h
  · have hfailed := neutral_failAll env "verifier stopped" { s with stopping := true }
    exact Current.forget (h.neutral rfl rfl hfailed) (by simp) rfl

theorem current_cancelOwner (owner : ℕ) : Preserves Current (cancelOwner (κ := κ) owner) := by
  intro s tr h
  refine h.neutral rfl rfl fun o ho => ?_
  obtain ⟨e, -, rfl⟩ := List.mem_map.mp ho
  trivial

/-- An entry is about to be created for a seed that still has a `prepare_seed` outstanding. -/
def recreates (s : State κ) (seedHash : String) : Bool :=
  (s.seeds.find seedHash).isNone &&
    s.controls.entries.any fun (_, control) =>
      control.op = .prepareSeed && control.seedHash = seedHash

theorem current_retainSeed {s : State κ} {tr : List (Output κ)} (h : Current s tr)
    {seedHash : String} (hvalid : validHash seedHash = true)
    (hfresh : recreates s seedHash = false) : Current (retainSeed env seedHash s) tr := by
  have hne : seedHash ≠ "" := by
    rintro rfl
    simp [validHash] at hvalid
  have hold : ∀ seed, (retainSeed env seedHash s).seeds.find seedHash = some seed →
      ∀ seed₀, s.seeds.find seedHash = some seed₀ → seed.status = seed₀.status := by
    intro seed hs seed₀ hs₀
    simp only [retainSeed, Table.find_insert_self, hs₀, Option.getD_some, Option.some.injEq] at hs
    rw [← hs]
  have hnew : ∀ seed, (retainSeed env seedHash s).seeds.find seedHash = some seed →
      s.seeds.find seedHash = none → seed.status = .wanted := by
    intro seed hs hs₀
    simp only [retainSeed, Table.find_insert_self, hs₀, Option.getD_none, Option.some.injEq] at hs
    rw [← hs]
  have hother : ∀ other, other ≠ seedHash →
      (retainSeed env seedHash s).seeds.find other = s.seeds.find other :=
    fun other hother => Table.find_insert_of_ne _ hother _
  refine ⟨fun id control seed hc hop hs => ?_, fun other seed hs hready => ?_,
    fun other seed hs => ?_, h.harmless⟩
  · by_cases hsame : control.seedHash = seedHash
    · subst hsame
      cases hs₀ : s.seeds.find control.seedHash with
      | none =>
          simp only [recreates, hs₀, Option.isNone_none, Bool.true_and, List.any_eq_false] at hfresh
          have := hfresh (id, control) (s.controls.mem_entries.mpr hc)
          simp [hop] at this
      | some seed₀ =>
          rw [hold seed hs seed₀ hs₀]
          exact h.outstanding id control seed₀ hc hop hs₀
    · rw [hother _ hsame] at hs
      exact h.outstanding id control seed hc hop hs
  · by_cases hsame : other = seedHash
    · subst hsame
      cases hs₀ : s.seeds.find other with
      | none => simp [hnew seed hs hs₀] at hready
      | some seed₀ => exact h.ready other seed₀ hs₀ (hold seed hs seed₀ hs₀ ▸ hready)
    · rw [hother _ hsame] at hs
      exact h.ready other seed hs hready
  · by_cases hsame : other = seedHash
    · exact hsame ▸ hne
    · rw [hother _ hsame] at hs
      exact h.named other seed hs

theorem current_prepareSeed {s : State κ} {tr : List (Output κ)} (h : Current s tr)
    {seedHash : String} (hfresh : recreates s seedHash = false) :
    Current (prepareSeed env seedHash s).1 (tr ++ (prepareSeed env seedHash s).2) := by
  simp only [prepareSeed]
  split
  · simpa using h
  · next hvalid =>
    simp only [Bool.or_eq_true, Bool.not_eq_true', not_or, Bool.not_eq_false] at hvalid
    have hr := current_retainSeed env h hvalid.1 hfresh
    split
    · next hdue =>
      refine current_requestSeed env hr fun seed hs => ?_
      simp only [Bool.and_eq_true, seedDue, hs, Option.any_some, decide_eq_true_eq] at hdue
      exact hdue.2.1
    · simpa using hr

end Handlers

/-! ### The frames that say that a seed is ready -/

/-- The frame answers the request with this number, and says that the seed is ready. -/
structure Confirms (doc : Json) (id : ℕ) (seedHash : String) : Prop where
  version : doc.getUint "v" 0 = 1
  id : doc.getUint64 "id" 0 = id
  ok : doc.getBool "ok" false = true
  seed : matchingSeed doc seedHash = true
  state : doc.getString "state" "" = "ready"

/-- No `prepare_seed` ends with success unless it is confirmed. -/
def Justified (confirmed : ℕ → String → Prop) : Output κ → Prop
  | .settled id control .ok _ _ => control.op = .prepareSeed → confirmed id control.seedHash
  | _ => True

section Answers

variable (env : Env) {confirmed : ℕ → String → Prop} {s : State κ} {o : Output κ}

theorem justified_of_neutral (h : Neutral o) : Justified confirmed o := by
  cases o with
  | settled => exact h.elim
  | sent => trivial
  | called => trivial
  | dropped => trivial
  | disconnected => trivial

theorem justified_disconnect {error : String} {failPending : Bool}
    (ho : o ∈ (disconnect env error failPending s).2) : Justified confirmed o := by
  rcases disconnect_cases env error failPending s with ⟨-, heq⟩ | ⟨out, hout, heq, -⟩
  · rw [heq] at ho
    exact absurd ho List.not_mem_nil
  · rw [heq] at ho
    rcases List.mem_cons.mp ho with rfl | ho
    · trivial
    · exact justified_of_neutral (hout o ho)

theorem justified_sendDocument {id : ℕ} {message : Message}
    (ho : o ∈ (sendDocument env id message s).2.2) : Justified confirmed o := by
  unfold sendDocument at ho
  split at ho
  · exact absurd ho List.not_mem_nil
  · split at ho
    · exact absurd ho List.not_mem_nil
    · exact justified_disconnect env ho
    · rw [List.mem_singleton.mp ho]
      trivial

theorem justified_sendControl {op : ControlOp} {seedHash : String}
    (ho : o ∈ (sendControl env op seedHash s).2.2) : Justified confirmed o := by
  rcases sendControl_cases env op seedHash s with
    ⟨-, hout, -⟩ | ⟨-, hout, -⟩ | ⟨-, hout, -⟩
  · rw [hout] at ho
    exact absurd ho List.not_mem_nil
  · rw [hout] at ho
    rw [List.mem_singleton.mp ho]
    trivial
  · rw [hout] at ho
    rw [List.mem_singleton.mp ho]
    trivial

/-- What is reported so far is justified. -/
abbrev AllJustified (confirmed : ℕ → String → Prop) (_ : State κ) (tr : List (Output κ)) : Prop :=
  ∀ o ∈ tr, Justified confirmed o

theorem allJustified_of {f : Handler (State κ) (Output κ)}
    (h : ∀ s, ∀ o ∈ (f s).2, Justified confirmed o) : Preserves (AllJustified confirmed) f := by
  intro s tr htr o ho
  rcases List.mem_append.mp ho with ho | ho
  · exact htr o ho
  · exact h s o ho

theorem justified_of_all {f : Handler (State κ) (Output κ)}
    (h : Preserves (AllJustified confirmed) f) (ho : o ∈ (f s).2) : Justified confirmed o :=
  h s [] (fun _ hnone => absurd hnone List.not_mem_nil) o ho

theorem justified_requestSeed {seedHash : String} (ho : o ∈ (requestSeed env seedHash s).2) :
    Justified confirmed o := by
  unfold requestSeed at ho
  dsimp only at ho
  split at ho
  · exact justified_sendControl env ho
  · exact justified_sendControl env ho

theorem all_requestWantedSeeds :
    Preserves (AllJustified confirmed) (requestWantedSeeds (κ := κ) env) := by
  refine fun s => Preserves.forEach (fun entry => allJustified_of fun s o ho => ?_) _ s
  split at ho
  · exact justified_requestSeed env ho
  · exact absurd ho List.not_mem_nil

theorem all_requestStats : Preserves (AllJustified confirmed) (requestStats (κ := κ) env) := by
  refine allJustified_of fun s o ho => ?_
  unfold requestStats at ho
  dsimp only at ho
  split at ho
  · exact absurd ho List.not_mem_nil
  · exact justified_sendControl env ho

theorem all_maintain : Preserves (AllJustified confirmed) (maintain (κ := κ) env) := by
  refine Preserves.seq (fun s => Preserves.forEach (fun seedHash => ?_) _ s) (Preserves.seq ?_ ?_)
  · refine allJustified_of fun s o ho => ?_
    unfold releaseSeed at ho
    dsimp only at ho
    split at ho
    · exact justified_sendControl env ho
    · exact absurd ho List.not_mem_nil
  · refine Preserves.ite (fun s => (s.connected && s.ready) = true)
      ((all_requestWantedSeeds env).seq ?_) (preserves_skip _)
    exact Preserves.ite (fun s => s.nextStatsAtMs ≤ env.now) (all_requestStats env)
      (preserves_skip _)
  · exact allJustified_of fun _ _ hnone => absurd hnone List.not_mem_nil

theorem justified_expireControls (options : Options) (entries : List (ℕ × Control))
    (ho : o ∈ (expireControls options env entries s).2.2) : Justified confirmed o := by
  induction entries generalizing s with
  | nil => exact absurd ho List.not_mem_nil
  | cons entry rest ih =>
      obtain ⟨id, control⟩ := entry
      unfold expireControls at ho
      split at ho
      · exact ih ho
      · split at ho
        · exact justified_disconnect env ho
        · rcases List.mem_append.mp ho with ho | ho
          · rw [List.mem_singleton.mp ho]
            trivial
          · exact ih ho

theorem justified_tick (options : Options) (ho : o ∈ (tick options env s).2) :
    Justified confirmed o := by
  refine justified_of_all (Preserves.seq (fun s => Preserves.forEach (fun id => ?_) _ s) ?_) ho
  · refine allJustified_of fun s o ho => ?_
    unfold expireRequest at ho
    split at ho
    · exact absurd ho List.not_mem_nil
    · rw [List.mem_singleton.mp ho]
      trivial
  · refine allJustified_of fun s o ho => ?_
    dsimp only at ho
    split at ho
    · rcases List.mem_append.mp ho with ho | ho
      · exact justified_expireControls env options _ ho
      · exact justified_of_all (all_maintain env) ho
    · exact justified_expireControls env options _ ho

/-- An answer to a control request, of which the frame has the number. -/
theorem justified_controlAnswered {doc : Json} {id : ℕ} {control : Control}
    (hversion : doc.getUint "v" 0 = 1) (hid : doc.getUint64 "id" 0 = id)
    (ho : o ∈ (controlAnswered env doc id control s).2) : Justified (Confirms doc) o := by
  unfold controlAnswered at ho
  dsimp only at ho
  cases hop : control.op with
  | hello =>
      rw [hop] at ho
      dsimp only at ho
      split at ho
      · exact justified_disconnect env ho
      · split at ho
        · exact justified_disconnect env ho
        · exact justified_of_all ((all_requestWantedSeeds env).seq (all_requestStats env)) ho
  | prepareSeed =>
      rw [hop] at ho
      dsimp only at ho
      split at ho
      · exact justified_disconnect env ho
      · next hvalid =>
        rw [List.mem_singleton.mp ho]
        cases hok : doc.getBool "ok" false with
        | false => trivial
        | true =>
            rw [hok] at hvalid
            intro hprepare
            refine ⟨hversion, hid, hok, ?_, ?_⟩
            · by_contra hseed
              exact hvalid (by simp [hseed])
            · by_contra hstate
              exact hvalid (by simp [hstate])
  | releaseSeed =>
      rw [hop] at ho
      rw [List.mem_singleton.mp ho]
      cases hok : doc.getBool "ok" false with
      | false => trivial
      | true => exact fun hprepare => absurd (hop.symm.trans hprepare) (by decide)
  | stats =>
      rw [hop] at ho
      rw [List.mem_singleton.mp ho]
      cases hok : doc.getBool "ok" false with
      | false => trivial
      | true => exact fun hprepare => absurd (hop.symm.trans hprepare) (by decide)

theorem justified_handleResponse {doc : Json} (ho : o ∈ (handleResponse env doc s).2) :
    Justified (Confirms doc) o := by
  unfold handleResponse at ho
  split at ho
  · exact justified_disconnect env ho
  · next hversion =>
    dsimp only at ho
    split at ho
    · exact justified_disconnect env ho
    · split at ho
      · exact justified_controlAnswered env (not_not.mp hversion) rfl ho
      · split at ho
        · exact absurd ho List.not_mem_nil
        · rw [List.mem_singleton.mp ho]
          trivial

end Answers

section Runs

variable (options : Options)

def preparedSeed : Event → Option String
  | .prepareSeed seedHash => some seedHash
  | _ => none

/-- The step creates no entry for a seed with a `prepare_seed` outstanding. -/
abbrev Fresh (sys : System) (e : Env × Event) : Prop :=
  ∀ seedHash ∈ preparedSeed e.2, recreates sys.verifier seedHash = false

theorem current_verify (env : Env) (request : Request) (callback : Option ℕ) :
    Preserves Current fun s => (verify options env request callback s).2 := by
  intro s tr h
  have hid : Current { s with nextRequestId := s.nextRequestId + 1 } tr := h.unchanged rfl rfl
  have hsend : Current
      (sendDocument env s.nextRequestId (.verify request)
        { s with nextRequestId := s.nextRequestId + 1 }).2.1
      (tr ++ (sendDocument env s.nextRequestId (.verify request)
        { s with nextRequestId := s.nextRequestId + 1 }).2.2) := by
    unfold sendDocument
    split
    · simpa using hid
    · cases env.write s.nextRequestId with
      | refused => simpa using hid
      | failed => exact current_disconnect env _ false _ tr hid
      | sent => exact hid.neutral rfl rfl (by simp [Neutral])
  cases callback with
  | none => simpa [verify] using h
  | some handle =>
      simp only [verify]
      split
      · simpa using h
      · split
        · exact hsend
        · exact hsend.unchanged rfl rfl

theorem current_handle {s : State ℕ} {tr : List (Output ℕ)} (h : Current s tr) (env : Env)
    (event : Event)
    (hfresh : ∀ seedHash, event = .prepareSeed seedHash → recreates s seedHash = false) :
    Current (handle options env event s).1 (tr ++ (handle options env event s).2) := by
  cases event with
  | start =>
      simp only [handle, start, connect]
      split
      · simpa using h
      · split
        · exact h.neutral rfl rfl (by simp)
        · split <;> exact h.neutral rfl rfl (by simp)
  | stop => exact current_stop env s tr h
  | tick => exact current_tick env options s tr h
  | onConnect accepted =>
      simp only [handle]
      split
      · exact current_onConnect env accepted s tr h
      · simpa using h
  | frame doc =>
      simp only [handle]
      split
      · cases doc with
        | none => exact current_disconnect env _ true s tr h
        | some doc => exact current_handleResponse env doc s tr h
      · simpa using h
  | closed error => exact current_disconnect env error true s tr h
  | verify request hasCallback => simpa [handle] using h
  | cancelOwner owner => exact current_cancelOwner owner s tr h
  | prepareSeed seedHash => exact current_prepareSeed env h (hfresh seedHash rfl)
  | allowCandidate owner =>
      simp only [handle, allowCandidate]
      split
      · simpa using h
      · split <;> exact h.neutral rfl rfl (by simp)
  | allowEmergencyCandidate owner =>
      simp only [handle, allowEmergencyCandidate]
      split
      · simpa using h
      · split <;> exact h.neutral rfl rfl (by simp)

theorem current_step (sys : System) (tr : List Observation) (e : Env × Event)
    (hfresh : Fresh sys e) (h : Current sys.verifier (outputs tr)) :
    Current (step options sys e).1.verifier (outputs (tr ++ (step options sys e).2)) := by
  obtain ⟨env, event⟩ := e
  rw [outputs_append]
  cases event with
  | verify request hasCallback =>
      have := current_verify options env request (if hasCallback then some sys.calls else none)
        sys.verifier (outputs tr) h
      simp only [step, outputs_append, outputs_map, outputs_verdict, List.append_nil]
      exact this
  | prepareSeed seedHash =>
      simp only [step, outputs_map]
      exact current_handle options h env _ fun _ heq => hfresh _ (by cases heq; rfl)
  | _ =>
      simp only [step, outputs_map]
      exact current_handle options h env _ (by simp)

theorem justified_verify {env : Env} {request : Request} {callback : Option ℕ} {s : State ℕ}
    {confirmed : ℕ → String → Prop} {o : Output ℕ}
    (ho : o ∈ (verify options env request callback s).2.2) : Justified confirmed o := by
  unfold verify at ho
  split at ho
  · exact absurd ho List.not_mem_nil
  · dsimp only at ho
    split at ho
    · exact absurd ho List.not_mem_nil
    · split at ho <;> exact justified_sendDocument env ho

theorem justified_handle {s : State ℕ} {env : Env} {event : Event} {o : Output ℕ}
    (ho : o ∈ (handle options env event s).2) :
    Justified
      (fun id seedHash => ∃ doc, event = .frame (some doc) ∧ Confirms doc id seedHash) o := by
  cases event with
  | start =>
      unfold handle at ho
      dsimp only at ho
      split at ho <;> exact absurd ho List.not_mem_nil
  | stop =>
      simp only [handle, stop] at ho
      split at ho
      · exact absurd ho List.not_mem_nil
      · exact justified_of_neutral (neutral_failAll env _ _ o ho)
  | tick => exact justified_tick env options ho
  | onConnect accepted =>
      simp only [handle, onConnect] at ho
      split at ho
      · split at ho
        · exact absurd ho List.not_mem_nil
        · split at ho
          · exact justified_disconnect env ho
          · split at ho
            · exact justified_sendControl env ho
            · rcases List.mem_append.mp ho with ho | ho
              · exact justified_sendControl env ho
              · exact justified_disconnect env ho
      · exact absurd ho List.not_mem_nil
  | frame doc =>
      simp only [handle, handleFrame] at ho
      split at ho
      · cases doc with
        | none => exact justified_disconnect env ho
        | some doc =>
            have hconfirms := justified_handleResponse env ho
            cases o with
            | settled id control outcome before after =>
                cases outcome with
                | ok => exact fun hop => ⟨doc, rfl, hconfirms hop⟩
                | error => trivial
                | timeout => trivial
            | sent => trivial
            | called => trivial
            | dropped => trivial
            | disconnected => trivial
      · exact absurd ho List.not_mem_nil
  | closed error => exact justified_disconnect env ho
  | verify request hasCallback => exact absurd ho List.not_mem_nil
  | cancelOwner owner =>
      obtain ⟨entry, -, rfl⟩ := List.mem_map.mp ho
      trivial
  | prepareSeed seedHash =>
      simp only [handle, prepareSeed] at ho
      split at ho
      · exact absurd ho List.not_mem_nil
      · split at ho
        · exact justified_requestSeed env ho
        · exact absurd ho List.not_mem_nil
  | allowCandidate owner => exact absurd ho List.not_mem_nil
  | allowEmergencyCandidate owner => exact absurd ho List.not_mem_nil

/-- A `prepare_seed` ends with success only in a step that handles a frame which confirms it. -/
theorem confirmed_step {sys : System} {e : Env × Event} {id : ℕ} {control : Control}
    {before after : Option SeedStatus} (hop : control.op = .prepareSeed)
    (ho : .output (.settled id control .ok before after) ∈ (step options sys e).2) :
    ∃ doc, e.2 = .frame (some doc) ∧ Confirms doc id control.seedHash := by
  obtain ⟨env, event⟩ := e
  have hhandle : .settled id control .ok before after ∈ (handle options env event sys.verifier).2 →
      ∃ doc, event = .frame (some doc) ∧ Confirms doc id control.seedHash :=
    fun hmem => justified_handle options hmem hop
  cases event with
  | verify request hasCallback =>
      simp only [step, List.mem_append, List.mem_singleton, List.mem_map] at ho
      rcases ho with ⟨o, hmem, heq⟩ | hverdict
      · obtain rfl := Observation.output.inj heq
        exact (@justified_verify options _ _ _ _ (fun _ _ => False) _ hmem hop).elim
      · generalize (verify options env request _ sys.verifier).1 = admitted at hverdict
        cases admitted <;> cases hverdict
  | _ =>
      obtain ⟨o, hmem, heq⟩ := List.mem_map.mp ho
      obtain rfl := Observation.output.inj heq
      exact hhandle hmem

/-- This very request was a `prepare_seed` for the seed, and a frame that confirms it ended it with
success. -/
def AnsweredOk (es : ℕ → Env × Event) (k : ℕ) (seedHash : String) (id : ℕ) : Prop :=
  ∃ j < k, ∃ doc control before after, (es j).2 = .frame (some doc) ∧ Confirms doc id seedHash ∧
    control.op = .prepareSeed ∧ control.seedHash = seedHash ∧
    .output (.settled id control .ok before after) ∈ (machine options).emitted es j

theorem answeredOk_of_settled {es : ℕ → Env × Event} {k : ℕ} {seedHash : String} {id : ℕ}
    (h : SettledOk seedHash id (outputs ((machine options).trace es k))) :
    AnsweredOk options es k seedHash id := by
  obtain ⟨control, before, after, hop, rfl, hmem⟩ := h
  have htrace : .output (.settled id control .ok before after) ∈ (machine options).trace es k := by
    obtain ⟨o, ho, heq⟩ := List.mem_filterMap.mp hmem
    cases o with
    | output o =>
        obtain rfl := Option.some.inj heq
        exact ho
    | admitted => exact nomatch heq
    | refused => exact nomatch heq
  obtain ⟨j, hj, ho⟩ := (Machine.mem_trace _).mp htrace
  obtain ⟨doc, hframe, hconfirms⟩ := confirmed_step options hop ho
  exact ⟨j, hj, doc, control, before, after, hframe, hconfirms, hop, rfl, ho⟩

/-- The readiness of seeds after `k` steps of a run. -/
structure SeedReadiness (options : Options) (es : ℕ → Env × Event) (k : ℕ) : Prop where
  ready : ∀ seedHash seed,
    ((machine options).state es k).verifier.seeds.find seedHash = some seed →
    seed.status = .ready → ∃ id,
      lastControl seedHash (outputs ((machine options).trace es k)) = some (id, .prepareSeed) ∧
        AnsweredOk options es k seedHash id
  earlier : Along EarlierHarmless (outputs ((machine options).trace es k))

theorem seed_readiness (es : ℕ → Env × Event)
    (hfresh : ∀ k, Fresh ((machine options).state es k) (es k)) (k : ℕ) :
    SeedReadiness options es k := by
  have hinit : Current (machine options).init.verifier (outputs []) :=
    ⟨by simp [machine], by simp [machine], by simp [machine], along_nil _⟩
  have h := Machine.invariant_guarded (m := machine options) (G := Fresh)
    (P := fun sys tr => Current sys.verifier (outputs tr)) hinit (current_step options) k
    fun j _ => hfresh j
  refine ⟨fun seedHash seed hseed hready => ?_, h.harmless⟩
  obtain ⟨id, hlast, hsettled⟩ := h.ready seedHash seed hseed hready
  exact ⟨id, hlast, answeredOk_of_settled options hsettled⟩

end Runs

section Scenario

def defaultOptions : Options where
  timeoutMs := 5000
  maxQueue := 1024
  maxPendingPerMiner := 64
  candidateLimit := 4
  globalCandidateLimit := 16
  emergencyCandidateLimit := 4
  maxQueue_le := scenarioQueue_le
  maxPendingPerMiner_le := scenarioPending_le

def seedA : String := "00000000000000000000000000000000000000000000000000000000000000aa"

def helloResponse : Json := .obj [("v", .int 1), ("id", .int 1), ("ok", .bool true),
  ("service", .str "xmrig-randomx-verifier"), ("mode", .str "fast"),
  ("allow_light_fallback", .bool false), ("max_frame", .int 16384), ("vm_pool_size", .int 2),
  ("capabilities", .arr [.str "prepare_seed", .str "release_seed", .str "verify",
    .str "stats"])]

def prepareResponse (id : ℕ) : Json := .obj [("v", .int 1), ("id", .int id), ("ok", .bool true),
  ("seed_hash", .str seedA), ("state", .str "ready")]

/-- The seed is asked for when the verifier gets ready, leaves the retained set while the
answer is still due, and comes back before it arrives. -/
def lateAnswer : List (Env × Event) := [
  ({ now := 0 }, .start),
  ({ now := 0 }, .onConnect true),
  ({ now := 0 }, .prepareSeed seedA),
  ({ now := 1000 }, .frame (some helloResponse)),
  ({ now := 120000 }, .tick),
  ({ now := 120100 }, .prepareSeed seedA),
  ({ now := 120200 }, .frame (some (prepareResponse 2)))]

/-- A run that follows a script and then stays idle. -/
def follow (script : List (Env × Event)) (k : ℕ) : Env × Event :=
  script.getD k ({ now := 0 }, .allowCandidate 0)

/-- What does not settle the request `id`. -/
def unsettled (id : ℕ) : Observation → Bool
  | .output (.settled other ..) => other ≠ id
  | _ => true

theorem late_answer_trusted :
    ¬ ∀ (options : Options) (es : ℕ → Env × Event) (k : ℕ), SeedReadiness options es k := by
  intro h
  have hready := (h defaultOptions (follow lateAnswer) 7).ready seedA
    ⟨.ready, 120100, 0, 2⟩ (by decide +kernel) rfl
  obtain ⟨id, hlast, j, hj, doc, control, before, after, -, -, -, -, hmem⟩ := hready
  have hfive : lastControl seedA (outputs ((machine defaultOptions).trace (follow lateAnswer) 7)) =
      some (5, .prepareSeed) := by decide +kernel
  obtain rfl : 5 = id := by simpa [hfive] using hlast
  have hnone : ((machine defaultOptions).trace (follow lateAnswer) 7).all (unsettled 5) = true := by
    decide +kernel
  simpa [unsettled] using List.all_eq_true.mp hnone _ ((Machine.mem_trace _).mpr ⟨j, hj, hmem⟩)

/-- The answer arrives while its seed is retained. -/
def timelyAnswer : List (Env × Event) := [
  ({ now := 0 }, .start),
  ({ now := 0 }, .onConnect true),
  ({ now := 1000 }, .frame (some helloResponse)),
  ({ now := 1000 }, .prepareSeed seedA),
  ({ now := 2000 }, .frame (some (prepareResponse 3)))]

theorem fresh_follow (options : Options) (script : List (Env × Event))
    (h : ∀ k < script.length, Fresh ((machine options).state (follow script) k) (follow script k))
    (k : ℕ) : Fresh ((machine options).state (follow script) k) (follow script k) := by
  by_cases hk : k < script.length
  · exact h k hk
  · have : follow script k = ({ now := 0 }, .allowCandidate 0) := by
      simp [follow, List.getD, List.getElem?_eq_none (Nat.not_lt.mp hk)]
    intro seedHash hmem
    simp [this, preparedSeed] at hmem

theorem seed_readiness_timely :
    ((machine defaultOptions).state (follow timelyAnswer) 5).verifier.seeds.find seedA =
        some ⟨.ready, 1000, 0, 1⟩ ∧
      SeedReadiness defaultOptions (follow timelyAnswer) 5 :=
  ⟨by decide +kernel, seed_readiness defaultOptions (follow timelyAnswer)
    (fresh_follow defaultOptions timelyAnswer (by decide +kernel)) 5⟩

end Scenario

end XmrigProxy.VerifierSeeds
