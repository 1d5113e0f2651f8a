import XmrigProxy.Library.Machine
import XmrigProxy.GlobalShareCache

/-! Runs of the share cache under all of its operations. The representation invariant says
which buckets exist and what their owner counts are; the operations are followed through
the counts of one bucket at a time, since an owner that moves is attached before it is
detached. The entries are compared with the set of reservations that the history leaves. -/
namespace XmrigProxy.ShareCacheInvariants

open GlobalShareCache

inductive Operation where
  | observeHeight (sourceId height : ℕ)
  | setOwnerHeights (owner sourceId : ℕ) (heights : List ℕ)
  | removeOwner (owner : ℕ)
  | reserve (sourceId height : ℕ) (key : Key)
  | release (reservation : Reservation)
  | removeSource (sourceId : ℕ)
  | clear
  deriving DecidableEq

def next (s : State) : Operation → State × List (Result × Reservation)
  | .observeHeight sourceId height => (observeHeight sourceId height s, [])
  | .setOwnerHeights owner sourceId heights => (setOwnerHeights owner sourceId heights s, [])
  | .removeOwner owner => (removeOwner owner s, [])
  | .reserve sourceId height key =>
      let answer := reserve sourceId height key s
      (answer.2.2, [(answer.1, answer.2.1)])
  | .release reservation => (release reservation s, [])
  | .removeSource sourceId => (removeSource sourceId s, [])
  | .clear => (clear s, [])

def machine : Machine State Operation (Result × Reservation) := ⟨{}, next⟩

theorem shrinks_clear (s : State) : Shrinks s (clear s) :=
  ⟨fun _ _ _ h => by simp [clear, bucket] at h,
    fun _ => consistent_initial.congr rfl fun _ _ _ => rfl, rfl⟩

/-- The operations fall into three kinds by what they do to the entries. -/
theorem next_cases (s : State) (op : Operation) :
    (∃ src h key, op = .reserve src h key) ∨ (∃ r, op = .release r) ∨
      ((∃ src heights, Maintains src heights s (next s op).1) ∧ (next s op).2 = [] ∧
        ∀ r, op ≠ .release r) := by
  cases op with
  | reserve src h key => exact Or.inl ⟨src, h, key, rfl⟩
  | release r => exact Or.inr (Or.inl ⟨r, rfl⟩)
  | observeHeight src h =>
      exact Or.inr (Or.inr ⟨⟨src, [h], maintains_observeHeight src h s⟩, rfl, by simp⟩)
  | setOwnerHeights owner src heights =>
      exact Or.inr (Or.inr
        ⟨⟨src, heights, maintains_setOwnerHeights owner src heights s⟩, rfl, by simp⟩)
  | removeOwner owner =>
      exact Or.inr (Or.inr ⟨⟨0, [], maintains_removeOwner owner 0 s⟩, rfl, by simp⟩)
  | removeSource src =>
      exact Or.inr (Or.inr ⟨⟨0, [], (shrinks_removeSource src s).maintains 0⟩, rfl, by simp⟩)
  | clear => exact Or.inr (Or.inr ⟨⟨0, [], (shrinks_clear s).maintains 0⟩, rfl, by simp⟩)

section References

/-- The owner count of one bucket. -/
def references (s : State) (src h : ℕ) : Option ℕ := (bucket s src h).map fun b => b.owners

/-- The registered owners that list one height of one source. -/
def ownerCount (s : State) (src h : ℕ) : ℕ :=
  s.owners.count fun _ owner => owner.sourceId = src && owner.heights.contains h

/-- One for the heights that an owner lists and zero elsewhere. -/
def lists (owner : OwnerHeights) (src h : ℕ) : ℕ :=
  if owner.sourceId = src ∧ h ∈ owner.heights then 1 else 0

/-- A bucket exists for the current height and where something is counted. -/
def Counted (count : ℕ → ℕ → ℕ) (s : State) : Prop :=
  ∀ src h, references s src h =
    if (h ≠ 0 ∧ h = height s src) ∨ 0 < count src h then some (count src h) else none

variable {s : State} {count : ℕ → ℕ → ℕ}

theorem Counted.getD (hc : Counted count s) (src h : ℕ) :
    (references s src h).getD 0 = count src h := by
  rw [hc src h]
  split
  · rfl
  · simp only [Option.getD_none]
    omega

theorem height_insert (sources : Table ℕ SourceEntries) (sourceId : ℕ) (source : SourceEntries)
    (owners : Table ℕ OwnerHeights) (keys : Table Key ℕ) (sequence src : ℕ) :
    height ⟨sources.insert sourceId source, owners, keys, sequence⟩ src =
      if src = sourceId then source.currentHeight
      else ((sources.find src).map fun source => source.currentHeight).getD 0 := by
  simp only [height, Table.find_insert]
  split <;> rfl

theorem height_eraseHeight (sourceId h : ℕ) (s : State) (src : ℕ) :
    height (eraseHeight sourceId h s) src = height s src := by
  unfold eraseHeight
  split
  · rfl
  · next source hs =>
    split
    · rfl
    · rw [height_insert]
      by_cases hsrc : src = sourceId
      · simp [height, hsrc, hs]
      · simp [height, hsrc]

theorem height_eraseHeightIfUnused (sourceId h : ℕ) (s : State) (src : ℕ) :
    height (eraseHeightIfUnused sourceId h s) src = height s src := by
  unfold eraseHeightIfUnused
  split
  · rfl
  · split
    · rfl
    · split
      · rfl
      · split
        · rfl
        · exact height_eraseHeight sourceId h s src

theorem height_dropReference (sourceId h : ℕ) (s : State) (src : ℕ) :
    height (dropReference sourceId h s) src = height s src := by
  simp only [height, dropReference, Table.find_modify]
  by_cases hsrc : src = sourceId
  · cases s.sources.find src <;> simp [hsrc]
  · simp [hsrc]

theorem height_addReference (sourceId h : ℕ) (s : State) (src : ℕ) :
    height (addReference sourceId h s) src = height s src := by
  rw [addReference, height_insert]
  by_cases hsrc : src = sourceId
  · cases hs : s.sources.find sourceId <;> simp [height, hsrc, hs]
  · simp [height, hsrc]

theorem references_dropReference (sourceId height src h : ℕ) (s : State) :
    references (dropReference sourceId height s) src h =
      if src = sourceId ∧ h = height then (references s src h).map (· - 1)
      else references s src h := by
  rw [references, bucket_dropReference, references, Option.map_map]
  split <;> simp_all [Function.comp_def]

theorem references_eraseHeightIfUnused (sourceId h src h' : ℕ) (s : State) :
    references (eraseHeightIfUnused sourceId h s) src h' =
      if src = sourceId ∧ h' = h ∧ h ≠ height s sourceId ∧ references s src h' = some 0 then none
      else references s src h' := by
  unfold eraseHeightIfUnused
  cases hs : s.sources.find sourceId with
  | none =>
      rw [if_neg]
      rintro ⟨rfl, -, -, hzero⟩
      simp [references, bucket, hs] at hzero
  | some source =>
      have hheight : height s sourceId = source.currentHeight := by simp [height, hs]
      rw [hheight]
      dsimp only
      by_cases hcurrent : source.currentHeight = h
      · rw [if_pos hcurrent, if_neg]
        rintro ⟨-, -, hne, -⟩
        exact hne hcurrent.symm
      · rw [if_neg hcurrent]
        cases hb : source.heights.find h with
        | none =>
            rw [if_neg]
            rintro ⟨rfl, rfl, -, hzero⟩
            simp [references, bucket, hs, hb] at hzero
        | some b =>
            have hreferences : references s sourceId h = some b.owners := by
              simp [references, bucket, hs, hb]
            dsimp only
            by_cases hb0 : b.owners = 0
            · rw [if_neg (by simpa using hb0), references, bucket_eraseHeight]
              by_cases hh : src = sourceId ∧ h' = h
              · obtain ⟨rfl, rfl⟩ := hh
                simp [hreferences, hb0, Ne.symm hcurrent]
              · rw [if_neg hh, if_neg fun hc => hh ⟨hc.1, hc.2.1⟩, references]
            · rw [if_pos hb0, if_neg]
              rintro ⟨rfl, rfl, -, hzero⟩
              rw [hreferences] at hzero
              exact hb0 (Option.some.inj hzero)

theorem references_addReference (sourceId height src h : ℕ) (s : State) :
    references (addReference sourceId height s) src h =
      if src = sourceId ∧ h = height then some ((references s src h).getD 0 + 1)
      else references s src h := by
  rw [references, bucket_addReference]
  split
  · next heq =>
    obtain ⟨rfl, rfl⟩ := heq
    cases hb : bucket s src h <;> simp [references, hb]
  · rfl

theorem foldl_unchanged {α β : Type} (read : State → β) {f : State → α → State}
    (hf : ∀ s a, read (f s a) = read s) (l : List α) (s : State) :
    read (l.foldl f s) = read s := by
  induction l generalizing s with
  | nil => rfl
  | cons a rest ih => exact (ih (f s a)).trans (hf s a)

theorem height_dropReferences (sourceId : ℕ) (heights : List ℕ) (s : State) (src : ℕ) :
    height (heights.foldl (fun s height => dropReference sourceId height s) s) src =
      height s src :=
  foldl_unchanged (height · src) (fun s h => height_dropReference sourceId h s src) heights s

theorem height_detachOwner (owner : ℕ) (s : State) (src : ℕ) :
    height (detachOwner owner s) src = height s src := by
  unfold detachOwner
  split
  · rfl
  · next previous _ =>
    exact (foldl_unchanged (height · src)
      (fun s h => height_eraseHeightIfUnused previous.sourceId h s src) previous.heights _).trans
        (height_dropReferences previous.sourceId previous.heights _ src)

theorem references_dropReferences (sourceId src h : ℕ) {heights : List ℕ} (hnodup : heights.Nodup)
    (s : State) :
    references (heights.foldl (fun s height => dropReference sourceId height s) s) src h =
      if src = sourceId ∧ h ∈ heights then (references s src h).map (· - 1)
      else references s src h := by
  induction heights generalizing s with
  | nil => simp
  | cons height rest ih =>
      obtain ⟨hfresh, hrest⟩ := List.nodup_cons.mp hnodup
      rw [List.foldl_cons, ih hrest, references_dropReference]
      by_cases hsrc : src = sourceId
      · by_cases hh : h = height
        · subst hh
          simp [hsrc, hfresh]
        · simp [hsrc, hh]
      · simp [hsrc]

theorem references_eraseUnused (sourceId src h : ℕ) (heights : List ℕ) (s : State) :
    references (heights.foldl (fun s height => eraseHeightIfUnused sourceId height s) s) src h =
      if src = sourceId ∧ h ∈ heights ∧ h ≠ height s sourceId ∧ references s src h = some 0
      then none else references s src h := by
  induction heights generalizing s with
  | nil => simp
  | cons first rest ih =>
      rw [List.foldl_cons, ih, references_eraseHeightIfUnused, height_eraseHeightIfUnused]
      by_cases hsrc : src = sourceId
      · by_cases hh : h = first
        · subst hh
          by_cases hzero : h ≠ height s sourceId ∧ references s src h = some 0
          · simp [hsrc, hzero]
          · simp only [hsrc, true_and, List.mem_cons, true_or] at hzero ⊢
            simp [hzero]
        · simp [hsrc, hh]
      · simp [hsrc]

theorem counted_addReference (sourceId h : ℕ) (hc : Counted count s) :
    Counted (fun src h' => count src h' + if src = sourceId ∧ h' = h then 1 else 0)
      (addReference sourceId h s) := by
  intro src h'
  rw [references_addReference, height_addReference, hc.getD]
  by_cases heq : src = sourceId ∧ h' = h
  · simp [heq]
  · simpa [heq] using hc src h'

theorem counted_addReferences (sourceId : ℕ) {heights : List ℕ} (hnodup : heights.Nodup)
    (hc : Counted count s) :
    Counted (fun src h => count src h + lists ⟨sourceId, heights⟩ src h)
      (heights.foldl (fun s height => addReference sourceId height s) s) := by
  induction heights generalizing s count with
  | nil => simpa [lists] using hc
  | cons first rest ih =>
      obtain ⟨hfresh, hrest⟩ := List.nodup_cons.mp hnodup
      have hall := ih hrest (counted_addReference sourceId first hc)
      have hcount : (fun src h => count src h + (if src = sourceId ∧ h = first then 1 else 0) +
          lists ⟨sourceId, rest⟩ src h) =
          fun src h => count src h + lists ⟨sourceId, first :: rest⟩ src h := by
        funext src h
        by_cases hsrc : src = sourceId
        · by_cases hh : h = first
          · subst hh
            simp [lists, hsrc, hfresh]
          · simp [lists, hsrc, hh]
        · simp [lists, hsrc, Ne.symm hsrc]
      rw [hcount] at hall
      exact hall

theorem owners_dropReference (sourceId h : ℕ) (s : State) :
    (dropReference sourceId h s).owners = s.owners := rfl

theorem owners_addReference (sourceId h : ℕ) (s : State) :
    (addReference sourceId h s).owners = s.owners := rfl

theorem owners_eraseHeight (sourceId h : ℕ) (s : State) :
    (eraseHeight sourceId h s).owners = s.owners := by
  unfold eraseHeight
  split
  · rfl
  · split <;> rfl

theorem owners_eraseHeightIfUnused (sourceId h : ℕ) (s : State) :
    (eraseHeightIfUnused sourceId h s).owners = s.owners := by
  unfold eraseHeightIfUnused
  split
  · rfl
  · split
    · rfl
    · split
      · rfl
      · split
        · rfl
        · exact owners_eraseHeight sourceId h s

/-- The heights of an owner were listed once each. -/
def Registered (owner : OwnerHeights) : Prop := owner.heights.Nodup ∧ 0 ∉ owner.heights

theorem counted_detachOwner {owner : ℕ} {previous : OwnerHeights}
    (hfind : s.owners.find owner = some previous) (hregistered : Registered previous)
    (hcount : ∀ h ∈ previous.heights, 0 < count previous.sourceId h) (hc : Counted count s) :
    Counted (fun src h => count src h - lists previous src h) (detachOwner owner s) := by
  intro src h
  rw [height_detachOwner]
  simp only [detachOwner, hfind]
  rw [references_eraseUnused, height_dropReferences, references_dropReferences _ _ _ hregistered.1]
  have hkept : references { s with owners := s.owners.erase owner } = references s := rfl
  have hheight : height { s with owners := s.owners.erase owner } = height s := rfl
  rw [hkept, hheight]
  by_cases hlisted : src = previous.sourceId ∧ h ∈ previous.heights
  · obtain ⟨rfl, hmem⟩ := hlisted
    have hpos := hcount h hmem
    have hne : h ≠ 0 := fun h0 => hregistered.2 (h0 ▸ hmem)
    have hreferences : references s previous.sourceId h = some (count previous.sourceId h) := by
      rw [hc, if_pos (Or.inr hpos)]
    simp only [hmem, and_self, if_true, true_and, hreferences, Option.map_some, lists,
      Option.some.injEq]
    by_cases hlast : count previous.sourceId h - 1 = 0
    · by_cases hcurrent : h = height s previous.sourceId
      · rw [if_neg fun hh => hh.1 hcurrent, if_pos (Or.inl ⟨hne, hcurrent⟩)]
      · rw [if_pos ⟨hcurrent, hlast⟩, if_neg]
        rintro (⟨-, hh⟩ | hh)
        · exact hcurrent hh
        · omega
    · rw [if_neg fun hh => hlast hh.2, if_pos (Or.inr (by omega))]
  · have hzero : lists previous src h = 0 := by
      rw [lists, if_neg fun hh => hlisted ⟨hh.1.symm, hh.2⟩]
    rw [if_neg hlisted, if_neg fun hh => hlisted ⟨hh.1, hh.2.1⟩, hc src h, hzero]
    rfl

theorem owners_detachOwner (owner : ℕ) (s : State) :
    (detachOwner owner s).owners = s.owners.erase owner := by
  unfold detachOwner
  cases hfind : s.owners.find owner with
  | none => exact (Table.erase_eq_self _ hfind).symm
  | some previous =>
      dsimp only
      rw [foldl_unchanged State.owners fun s h => owners_eraseHeightIfUnused previous.sourceId h s]
      exact foldl_unchanged State.owners
        (fun s h => owners_dropReference previous.sourceId h s) previous.heights _

/-- The other owners of one height of one source. -/
def otherOwners (s : State) (owner src h : ℕ) : ℕ :=
  (s.owners.erase owner).count fun _ o => o.sourceId = src && o.heights.contains h

theorem ownerCount_split {owner : ℕ} {previous : OwnerHeights}
    (hfind : s.owners.find owner = some previous) (src h : ℕ) :
    ownerCount s src h = otherOwners s owner src h + lists previous src h := by
  rw [ownerCount, Table.count_erase _ _ hfind, otherOwners]
  simp [lists]

theorem counted_detach {owner : ℕ} {extra : ℕ → ℕ → ℕ}
    (hregistered : ∀ previous, s.owners.find owner = some previous → Registered previous)
    (hc : Counted (fun src h => ownerCount s src h + extra src h) s) :
    Counted (fun src h => otherOwners s owner src h + extra src h) (detachOwner owner s) := by
  cases hfind : s.owners.find owner with
  | none =>
      simpa only [otherOwners, Table.erase_eq_self _ hfind, detachOwner, hfind, ownerCount] using hc
  | some previous =>
      have hpos : ∀ h ∈ previous.heights,
          0 < ownerCount s previous.sourceId h + extra previous.sourceId h := by
        intro h hmem
        rw [ownerCount_split hfind]
        simp only [lists, hmem, and_self, if_true]
        omega
      have hdetached := counted_detachOwner hfind (hregistered previous hfind) hpos hc
      have hcount : (fun src h => ownerCount s src h + extra src h - lists previous src h) =
          fun src h => otherOwners s owner src h + extra src h := by
        funext src h
        rw [ownerCount_split hfind]
        omega
      rw [hcount] at hdetached
      exact hdetached

/-- What the tables of owners and references say about each other. -/
structure Referenced (s : State) : Prop where
  registered : ∀ owner o, s.owners.find owner = some o → Registered o
  counted : Counted (ownerCount s) s

theorem referenced_initial : Referenced {} := by
  refine ⟨by simp, fun src h => ?_⟩
  simp [references, bucket, ownerCount, height]

theorem Referenced.hasHeight_iff (h : Referenced s) (src h' : ℕ) : hasHeight s src h' = true ↔
    (h' ≠ 0 ∧ h' = height s src) ∨ 0 < ownerCount s src h' := by
  have hcount := h.counted src h'
  have hsome : hasHeight s src h' = (references s src h').isSome := by
    rw [hasHeight, references, Option.isSome_map]
  rw [hsome, hcount]
  split
  · next hcond => simpa using hcond
  · next hcond => simpa using hcond

theorem Referenced.congr {s' : State} (h : Referenced s) (howners : s'.owners = s.owners)
    (hreferences : ∀ src h, references s' src h = references s src h)
    (hheight : ∀ src, height s' src = height s src) : Referenced s' := by
  have hcount : ownerCount s' = ownerCount s := by
    funext src h
    rw [ownerCount, howners, ownerCount]
  refine ⟨by simpa only [howners] using h.registered, fun src h' => ?_⟩
  rw [hreferences, hheight, hcount]
  exact h.counted src h'

theorem referenced_detachOwner (owner : ℕ) (h : Referenced s) :
    Referenced (detachOwner owner s) := by
  have howners := owners_detachOwner owner s
  have hdetached := @counted_detach s owner (fun _ _ => 0)
    (fun previous hfind => h.registered owner previous hfind) (by simpa using h.counted)
  refine ⟨fun owner' o hfind => ?_, ?_⟩
  · rw [howners, Table.find_erase] at hfind
    split at hfind
    · cases hfind
    · exact h.registered owner' o hfind
  · have hcount : ownerCount (detachOwner owner s) = otherOwners s owner := by
      funext src h
      rw [ownerCount, howners, otherOwners]
    rw [hcount]
    exact hdetached

theorem referenced_removeOwner (owner : ℕ) (h : Referenced s) :
    Referenced (removeOwner owner s) := by
  unfold removeOwner
  split
  · exact referenced_detachOwner owner h
  · exact h

theorem referenced_setOwnerHeights (owner sourceId : ℕ) (heights : List ℕ) (h : Referenced s) :
    Referenced (setOwnerHeights owner sourceId heights s) := by
  unfold setOwnerHeights
  split
  · exact h
  · dsimp only
    split
    · exact referenced_detachOwner owner h
    · have hnodup := (heights.filter (· ≠ 0)).nodup_dedup
      have hzero : 0 ∉ (heights.filter (· ≠ 0)).dedup := by
        rw [List.mem_dedup]
        simp
      generalize hunique : (heights.filter (· ≠ 0)).dedup = unique at hnodup hzero ⊢
      have hadded := counted_addReferences sourceId hnodup h.counted
      have howners : (unique.foldl (fun s height => addReference sourceId height s) s).owners =
          s.owners := foldl_unchanged State.owners
            (fun s h => owners_addReference sourceId h s) unique s
      generalize hs' : unique.foldl (fun s height => addReference sourceId height s) s = s'
        at hadded howners ⊢
      have hcount : ownerCount s' = ownerCount s := by
        funext src h
        rw [ownerCount, howners, ownerCount]
      rw [← hcount] at hadded
      have hdetached := counted_detach
        (fun previous hfind => h.registered owner previous (howners ▸ hfind)) hadded
      have hafter := owners_detachOwner owner s'
      refine ⟨fun owner' o hfind => ?_, fun src h' => ?_⟩
      · rw [Table.find_insert, hafter, howners, Table.find_erase] at hfind
        split at hfind
        · obtain rfl := Option.some.inj hfind
          exact ⟨hnodup, hzero⟩
        · exact h.registered owner' o hfind
      · have hfresh : (s'.owners.erase owner).find owner = none := by simp
        have hnew : ownerCount { detachOwner owner s' with
            owners := (detachOwner owner s').owners.insert owner ⟨sourceId, unique⟩ } src h' =
            otherOwners s' owner src h' + lists ⟨sourceId, unique⟩ src h' := by
          rw [ownerCount, hafter, Table.count_insert_of_fresh _ _ hfresh, otherOwners]
          simp [lists]
        rw [hnew]
        exact hdetached src h'

theorem references_eraseHeights (sourceId : ℕ) (heights : List ℕ) (s : State) (src h : ℕ) :
    references (heights.foldl (fun s height => eraseHeight sourceId height s) s) src h =
      if src = sourceId ∧ h ∈ heights then none else references s src h := by
  rw [references, bucket_eraseHeights]
  split <;> rfl

theorem references_observeHeight {sourceId h : ℕ} (hvalid : ¬(sourceId = 0 ∨ h = 0)) (s : State)
    (src h' : ℕ) :
    references (observeHeight sourceId h s) src h' =
      if src = sourceId ∧ h' = h then some ((references s src h').getD 0)
      else if src = sourceId ∧ references s src h' = some 0 then none
      else references s src h' := by
  rw [observeHeight, if_neg hvalid]
  dsimp only
  rw [references_eraseHeights]
  simp only [Table.mem_keys, Table.find_filter, find_observed, Option.filter_eq_some_iff,
    references, bucket_insert]
  by_cases hsrc : src = sourceId
  · subst hsrc
    by_cases hh : h' = h
    · cases hs : s.sources.find src with
      | none => simp [hh, bucket, hs]
      | some source => cases hb : source.heights.find h <;> simp [hh, bucket, hs, hb]
    · cases hs : s.sources.find src with
      | none => simp [hh, bucket, hs]
      | some source => cases hb : source.heights.find h' <;> simp [hh, bucket, hs, hb]
  · simp [hsrc, bucket]

theorem height_observeHeight {sourceId h : ℕ} (hvalid : ¬(sourceId = 0 ∨ h = 0)) (s : State)
    (src : ℕ) :
    height (observeHeight sourceId h s) src = if src = sourceId then h else height s src := by
  rw [observeHeight, if_neg hvalid]
  refine (foldl_unchanged (height · src)
    (fun s h => height_eraseHeight sourceId h s src) _ _).trans ?_
  rw [height_insert]
  rfl

theorem owners_observeHeight (sourceId h : ℕ) (s : State) :
    (observeHeight sourceId h s).owners = s.owners := by
  unfold observeHeight
  split
  · rfl
  · exact foldl_unchanged State.owners (fun s h => owners_eraseHeight sourceId h s) _ _

theorem referenced_observeHeight (sourceId h : ℕ) (hr : Referenced s) :
    Referenced (observeHeight sourceId h s) := by
  by_cases hvalid : sourceId = 0 ∨ h = 0
  · rw [observeHeight, if_pos hvalid]
    exact hr
  · have howners := owners_observeHeight sourceId h s
    refine ⟨by simpa only [howners] using hr.registered, fun src h' => ?_⟩
    have hcount : ownerCount (observeHeight sourceId h s) = ownerCount s := by
      funext src h
      rw [ownerCount, howners, ownerCount]
    rw [references_observeHeight hvalid, height_observeHeight hvalid, hcount, hr.counted.getD]
    have hbefore := hr.counted src h'
    by_cases hsrc : src = sourceId
    · by_cases hh : h' = h
      · have hne : h ≠ 0 := by omega
        simp [hsrc, hh, hne]
      · simp only [hsrc, hh, and_false, if_false, true_and, false_or, if_true] at hbefore ⊢
        by_cases hpos : 0 < ownerCount s sourceId h'
        · rw [if_pos (Or.inr hpos)] at hbefore
          rw [hbefore, if_pos hpos, if_neg]
          intro hzero
          have := Option.some.inj hzero
          omega
        · rw [if_neg hpos]
          split
          · rfl
          · next hne =>
            rw [hbefore] at hne ⊢
            split
            · next hcurrent =>
              rw [if_pos hcurrent] at hne
              exact absurd (by simpa using hpos) hne
            · rfl
    · simpa [hsrc] using hbefore

theorem height_removeSource (sourceId src : ℕ) (s : State) :
    height (removeSource sourceId s) src = if src = sourceId then 0 else height s src := by
  unfold removeSource
  cases hs : s.sources.find sourceId with
  | none =>
      by_cases hsrc : src = sourceId
      · simp [hsrc, height, hs]
      · simp [hsrc]
  | some source =>
      by_cases hsrc : src = sourceId
      · simp [hsrc, height]
      · simp only [hsrc, if_false]
        have hfold := foldl_unchanged (height · src)
          (fun s h => height_eraseHeight sourceId h s src) source.heights.keys
          { s with owners := s.owners.filter fun _ owner => owner.sourceId ≠ sourceId }
        simp only [height, Table.find_erase, hsrc, if_false] at hfold ⊢
        exact hfold

theorem referenced_removeSource (sourceId : ℕ) (h : Referenced s) :
    Referenced (removeSource sourceId s) := by
  cases hs : s.sources.find sourceId with
  | none => simpa only [removeSource, hs] using h
  | some source =>
      have howners : (removeSource sourceId s).owners =
          s.owners.filter fun _ owner => owner.sourceId ≠ sourceId := by
        simp only [removeSource, hs]
        exact foldl_unchanged State.owners (fun s h => owners_eraseHeight sourceId h s) _ _
      refine ⟨fun owner o hfind => ?_, fun src h' => ?_⟩
      · rw [howners, Table.find_filter, Option.filter_eq_some_iff] at hfind
        exact h.registered owner o hfind.1
      · have hcount : ownerCount (removeSource sourceId s) src h' =
            if src = sourceId then 0 else ownerCount s src h' := by
          rw [ownerCount, howners, Table.count_filter]
          by_cases hsrc : src = sourceId
          · rw [if_pos hsrc, Table.count_eq_zero]
            intro _ o _
            by_cases ho : o.sourceId = sourceId <;> simp [ho, hsrc]
          · rw [if_neg hsrc, ownerCount]
            congr 1
            funext _ o
            by_cases ho : o.sourceId = src <;> simp [ho, hsrc]
        rw [references, bucket_removeSource, height_removeSource, hcount]
        by_cases hsrc : src = sourceId
        · simp [hsrc]
        · rw [if_neg hsrc, if_neg hsrc, if_neg hsrc]
          exact h.counted src h'

theorem owners_release (r : Reservation) (s : State) :
    (release r s).owners = s.owners ∧ ∀ src, height (release r s) src = height s src := by
  unfold release
  split
  · exact ⟨rfl, fun _ => rfl⟩
  · split
    · exact ⟨rfl, fun _ => rfl⟩
    · next source hs =>
      split
      · exact ⟨rfl, fun _ => rfl⟩
      · split
        · refine ⟨rfl, fun src => ?_⟩
          rw [height_insert]
          by_cases hsrc : src = r.sourceId <;> simp [height, hsrc, hs]
        · exact ⟨rfl, fun _ => rfl⟩

theorem referenced_release (r : Reservation) (h : Referenced s) : Referenced (release r s) := by
  rcases release_cases r s with ⟨-, heq⟩ | ⟨-, -, -, hbucket⟩
  · rwa [heq]
  · refine h.congr (owners_release r s).1 (fun src h' => ?_) (owners_release r s).2
    rw [references, hbucket, references]
    split <;> simp [Function.comp_def]

theorem owners_reserve (sourceId h : ℕ) (key : Key) (s : State) :
    (reserve sourceId h key s).2.2.owners = s.owners ∧
      ∀ src, height (reserve sourceId h key s).2.2 src = height s src := by
  unfold reserve
  split
  · exact ⟨rfl, fun _ => rfl⟩
  · split
    · exact ⟨rfl, fun _ => rfl⟩
    · next source hs =>
      split
      · exact ⟨rfl, fun _ => rfl⟩
      · split
        · exact ⟨rfl, fun _ => rfl⟩
        · split
          · exact ⟨rfl, fun _ => rfl⟩
          · split
            · exact ⟨rfl, fun _ => rfl⟩
            · refine ⟨rfl, fun src => ?_⟩
              rw [height_insert]
              by_cases hsrc : src = sourceId <;> simp [height, hsrc, hs]

theorem referenced_reserve (sourceId h : ℕ) (key : Key) (hr : Referenced s) :
    Referenced (reserve sourceId h key s).2.2 := by
  have hsame := owners_reserve sourceId h key s
  refine hr.congr hsame.1 (fun src h' => ?_) hsame.2
  rcases reserve_cases sourceId h key s with ⟨-, -, hsources, -⟩ | ⟨-, -, -, -, -, -, hbucket⟩
  · simp [references, bucket, hsources]
  · rw [references, hbucket, references]
    split <;> simp [Function.comp_def]

end References

section Sizes

variable {s s' : State}

def heightsOf (s : State) (src : ℕ) : Table ℕ HeightEntries :=
  ((s.sources.find src).map fun source => source.heights).getD ∅

def entriesOf (s : State) (src h : ℕ) : Table Key ℕ :=
  ((bucket s src h).map fun b => b.entries).getD ∅

theorem find_heightsOf (s : State) (src h : ℕ) : (heightsOf s src).find h = bucket s src h := by
  cases hs : s.sources.find src <;> simp [heightsOf, bucket, hs]

theorem find_entriesOf (s : State) (src h : ℕ) (key : Key) :
    (entriesOf s src h).find key = entry s src h key := by
  cases hb : bucket s src h <;> simp [entriesOf, entry, hb]

theorem sizeOfSource_eq_total (s : State) (src : ℕ) :
    sizeOfSource s src = (heightsOf s src).total fun b => b.entries.size := by
  cases hs : s.sources.find src with
  | none =>
      simp [sizeOfSource, heightsOf, hs, Table.total, EmptyCollection.emptyCollection, Table.empty]
  | some source => simp [sizeOfSource, heightsOf, hs, Table.total, sourceSize]

theorem weight_heightsOf (s : State) (src h : ℕ) :
    (heightsOf s src).weight (fun b => b.entries.size) h = (entriesOf s src h).size := by
  rw [Table.weight, find_heightsOf, entriesOf]
  cases bucket s src h <;> rfl

theorem sizeOfSource_le_add {src : ℕ} (h gain : ℕ)
    (hsize : ∀ h', (entriesOf s' src h').size ≤
      (entriesOf s src h').size + if h' = h then gain else 0) :
    sizeOfSource s' src ≤ sizeOfSource s src + gain := by
  rw [sizeOfSource_eq_total, sizeOfSource_eq_total]
  apply Table.total_le_add h
  intro h'
  rw [weight_heightsOf, weight_heightsOf]
  exact hsize h'

/-- An operation that adds no entry makes nothing larger. -/
theorem sizes_le (hc : Consistent s) (hc' : Consistent s')
    (h : ∀ src h key token, entry s' src h key = some token → entry s src h key = some token) :
    size s' ≤ size s ∧ ∀ src, sizeOfSource s' src ≤ sizeOfSource s src := by
  constructor
  · apply Table.size_le_of_contains
    intro key hkey
    obtain ⟨token, htoken⟩ := (Table.contains_iff _).mp hkey
    obtain ⟨src, h', he⟩ := (hc'.keys_iff key token).mp htoken
    exact (Table.contains_iff _).mpr ⟨token, (hc.keys_iff key token).mpr ⟨src, h', h _ _ _ _ he⟩⟩
  · intro src
    apply sizeOfSource_le_add 0 0
    intro h'
    rw [ite_self]
    apply Table.size_le_of_contains
    intro key hkey
    obtain ⟨token, htoken⟩ := (Table.contains_iff _).mp hkey
    rw [find_entriesOf] at htoken
    exact (Table.contains_iff _).mpr ⟨token, (find_entriesOf s src h' key).trans (h _ _ _ _ htoken)⟩

theorem entry_of_maintains {sourceId : ℕ} {heights : List ℕ}
    (hm : Maintains sourceId heights s s') {src h : ℕ} {key : Key} {token : ℕ}
    (he : entry s' src h key = some token) : entry s src h key = some token := by
  obtain ⟨after, ha, hfind⟩ := Option.bind_eq_some_iff.mp he
  cases hb : bucket s src h with
  | none =>
      rw [(hm.created _ _ after hb ha).2.2] at hfind
      cases hfind
  | some before =>
      rw [hm.kept _ _ before after hb ha] at hfind
      simp [entry, hb, hfind]

/-- The bounds on the entries of all sources and of each. -/
structure Bounded (s : State) : Prop where
  total : size s ≤ maxEntries
  source : ∀ src, sizeOfSource s src ≤ maxEntriesPerSource

theorem Bounded.mono (h : Bounded s)
    (hle : size s' ≤ size s ∧ ∀ src, sizeOfSource s' src ≤ sizeOfSource s src) : Bounded s' :=
  ⟨hle.1.trans h.total, fun src => (hle.2 src).trans (h.source src)⟩

theorem reserve_invalid_iff (src h : ℕ) (key : Key) (s : State) :
    (reserve src h key s).1 = .invalid ↔
      src = 0 ∨ h = 0 ∨ key.length ≠ keySize ∨ hasHeight s src h = false := by
  unfold reserve
  by_cases hinvalid : src = 0 ∨ h = 0 ∨ key.length ≠ keySize
  · rw [if_pos hinvalid]
    exact ⟨fun _ => by tauto, fun _ => rfl⟩
  · rw [if_neg hinvalid]
    cases hs : s.sources.find src with
    | none => simp [hasHeight, bucket, hs]
    | some source =>
        cases hb : source.heights.find h with
        | none => simp [hasHeight, bucket, hs, hb]
        | some b =>
            have hhas : hasHeight s src h = true := by simp [hasHeight, bucket, hs, hb]
            simp only [hb, hhas]
            constructor
            · intro hresult
              split_ifs at hresult
            · tauto

/-- What `reserve` answers, in the order in which it looks. -/
theorem reserve_result (hc : Consistent s) (src h : ℕ) (key : Key) :
    (reserve src h key s).1 =
      if src = 0 ∨ h = 0 ∨ key.length ≠ keySize ∨ hasHeight s src h = false then .invalid
      else if s.keys.contains key then .duplicate
      else if maxEntries ≤ size s ∨ maxEntriesPerSource ≤ sizeOfSource s src then .capacity
      else .accepted := by
  unfold reserve
  by_cases hinvalid : src = 0 ∨ h = 0 ∨ key.length ≠ keySize
  · rw [if_pos hinvalid, if_pos (by tauto)]
  · rw [if_neg hinvalid]
    cases hs : s.sources.find src with
    | none => simp [hasHeight, bucket, hs]
    | some source =>
        cases hb : source.heights.find h with
        | none => simp [hasHeight, bucket, hs, hb]
        | some b =>
            have hhas : hasHeight s src h = true := by simp [hasHeight, bucket, hs, hb]
            have hsize : sizeOfSource s src = sourceSize source := by simp [sizeOfSource, hs]
            rw [if_neg (by rw [hhas]; simp; tauto), hsize]
            simp only [hb]
            by_cases hdup : s.keys.contains key
            · simp [hdup]
            · rw [if_neg hdup, if_neg hdup]
              have hglobal : s.keys.find key = none := by
                simpa [Table.contains] using hdup
              have hfresh : b.entries.contains key = false := by
                have hnone := entry_none_of_fresh hc hglobal src h
                simpa [Table.contains, entry, bucket, hs, hb] using hnone
              rw [hfresh, size]
              split
              · rfl
              · rfl

theorem bounded_reserve (hc : Consistent s) (h : Bounded s) (src h' : ℕ) (key : Key) :
    Bounded (reserve src h' key s).2.2 := by
  have hresult := reserve_result hc src h' key
  rcases reserve_cases src h' key s with
    ⟨hne, -, hsources, hkeys⟩ | ⟨haccepted, -, -, -, hfresh, hkeys, hbucket⟩
  · exact h.mono ⟨by rw [size, hkeys, size], fun a => by rw [sizeOfSource, hsources, sizeOfSource]⟩
  · rw [haccepted] at hresult
    split at hresult
    · cases hresult
    · split at hresult
      · cases hresult
      · split at hresult
        · cases hresult
        · next hroom =>
          rw [not_or] at hroom
          refine ⟨?_, fun a => ?_⟩
          · rw [size, hkeys, Table.size_insert_of_fresh _ hfresh]
            have := hroom.1
            rw [size] at this
            omega
          · have hgrow : ∀ h₀, (entriesOf (reserve src h' key s).2.2 a h₀).size ≤
                (entriesOf s a h₀).size + if h₀ = h' then (if a = src then 1 else 0) else 0 := by
              intro h₀
              rw [entriesOf, hbucket]
              by_cases hh : a = src ∧ h₀ = h'
              · obtain ⟨rfl, rfl⟩ := hh
                cases hb : bucket s a h₀ with
                | none => simp
                | some b =>
                    have hempty : b.entries.find key = none := by
                      have hnone := entry_none_of_fresh hc hfresh a h₀
                      simpa [entry, hb] using hnone
                    simp [entriesOf, hb, Table.size_insert_of_fresh _ hempty]
              · rw [if_neg hh, entriesOf]
                exact Nat.le_add_right _ _
            have := sizeOfSource_le_add h' _ hgrow
            by_cases hsrc : a = src
            · subst hsrc
              rw [if_pos rfl] at this
              omega
            · rw [if_neg hsrc] at this
              exact this.trans (h.source a)

end Sizes

section Runs

structure Represents (s : State) : Prop where
  consistent : Consistent s
  referenced : Referenced s
  bounded : Bounded s

theorem represents_initial : Represents {} := by
  refine ⟨consistent_initial, referenced_initial, ?_, fun src => ?_⟩
  · simp [size]
  · simp [sizeOfSource]

variable {s s' : State}

theorem find_setOwnerHeights (owner sourceId : ℕ) (heights : List ℕ) (s : State) (key : ℕ) :
    (setOwnerHeights owner sourceId heights s).owners.find key =
      if owner = 0 ∨ key ≠ owner then s.owners.find key
      else if sourceId = 0 ∨ (heights.filter (· ≠ 0)).dedup = [] then none
      else some ⟨sourceId, (heights.filter (· ≠ 0)).dedup⟩ := by
  unfold setOwnerHeights
  by_cases howner : owner = 0
  · simp [howner]
  · dsimp only
    rw [if_neg howner]
    split
    · rw [owners_detachOwner, Table.find_erase]
      by_cases hkey : key = owner <;> simp [hkey, howner]
    · have hadded : ((heights.filter (· ≠ 0)).dedup.foldl
          (fun s height => addReference sourceId height s) s).owners = s.owners :=
        foldl_unchanged State.owners (fun s h => owners_addReference sourceId h s) _ s
      rw [Table.find_insert, owners_detachOwner, hadded, Table.find_erase]
      by_cases hkey : key = owner <;> simp [hkey, howner]

theorem find_removeOwner (owner : ℕ) (s : State) (key : ℕ) :
    (removeOwner owner s).owners.find key =
      if owner ≠ 0 ∧ key = owner then none else s.owners.find key := by
  unfold removeOwner
  by_cases howner : owner = 0
  · simp [howner]
  · rw [if_pos howner, owners_detachOwner, Table.find_erase]
    by_cases hkey : key = owner <;> simp [hkey, howner]

/-- Only owners of the removed source go. -/
theorem find_removeSource (sourceId key : ℕ) (s : State) (o : OwnerHeights) :
    ((removeSource sourceId s).owners.find key = some o → s.owners.find key = some o) ∧
      (o.sourceId ≠ sourceId → s.owners.find key = some o →
        (removeSource sourceId s).owners.find key = some o) := by
  unfold removeSource
  cases s.sources.find sourceId with
  | none => exact ⟨id, fun _ => id⟩
  | some source =>
      have hfold : (source.heights.keys.foldl (fun s height => eraseHeight sourceId height s)
          { s with owners := s.owners.filter fun _ owner => owner.sourceId ≠ sourceId }).owners =
          s.owners.filter fun _ owner => owner.sourceId ≠ sourceId :=
        foldl_unchanged State.owners (fun s h => owners_eraseHeight sourceId h s) _ _
      simp only [hfold, Table.find_filter, Option.filter_eq_some_iff, decide_eq_true_eq]
      exact ⟨fun h => h.1, fun hsource h => ⟨h, hsource⟩⟩

theorem referenced_clear (s : State) : Referenced (clear s) :=
  referenced_initial.congr rfl (fun _ _ => rfl) fun _ => rfl

theorem referenced_step (h : Referenced s) (op : Operation) : Referenced (next s op).1 := by
  cases op with
  | observeHeight src height => exact referenced_observeHeight src height h
  | setOwnerHeights owner src heights => exact referenced_setOwnerHeights owner src heights h
  | removeOwner owner => exact referenced_removeOwner owner h
  | reserve src height key => exact referenced_reserve src height key h
  | release r => exact referenced_release r h
  | removeSource src => exact referenced_removeSource src h
  | clear => exact referenced_clear s

theorem represents_step (h : Represents s) (op : Operation) : Represents (next s op).1 := by
  have hr := referenced_step h.referenced op
  rcases next_cases s op with ⟨src, height, key, rfl⟩ | ⟨r, rfl⟩ | ⟨⟨src, heights, hm⟩, -, -⟩
  · exact ⟨consistent_reserve src height key h.consistent, hr,
      bounded_reserve h.consistent h.bounded src height key⟩
  · have hc := consistent_release r h.consistent
    refine ⟨hc, hr, h.bounded.mono (sizes_le h.consistent hc fun src height key token he => ?_)⟩
    change entry (release r s) src height key = some token at he
    rw [entry_release] at he
    split at he
    · cases he
    · exact he
  · have hc := hm.consistent h.consistent
    exact ⟨hc, hr, h.bounded.mono
      (sizes_le h.consistent hc fun _ _ _ _ he => entry_of_maintains hm he)⟩

theorem represents_run (es : ℕ → Operation) (k : ℕ) : Represents (machine.state es k) :=
  Machine.invariant (P := Represents) represents_initial (fun _ op h => represents_step h op) k

theorem cache_representation (es : ℕ → Operation) (k : ℕ) :
    let s := machine.state es k
    (∀ key token, s.keys.find key = some token ↔
      ∃ src h, entry s src h key = some token) ∧
    (∀ key src h src' h', (entry s src h key).isSome → (entry s src' h' key).isSome →
      src = src' ∧ h = h') ∧
    (∀ src h b, bucket s src h = some b → b.owners = ownerCount s src h) ∧
    (∀ src h, hasHeight s src h = true ↔
      (h ≠ 0 ∧ h = height s src) ∨ 0 < ownerCount s src h) ∧
    size s ≤ 131072 ∧ ∀ src, sizeOfSource s src ≤ 65536 := by
  intro s
  have h := represents_run es k
  refine ⟨h.consistent.keys_iff, fun key src h₁ src' h₂ he he' => ?_, fun src h₁ b hb => ?_,
    fun src h₁ => ?_, h.bounded.total, h.bounded.source⟩
  · obtain ⟨token, htoken⟩ := Option.isSome_iff_exists.mp he
    obtain ⟨token', htoken'⟩ := Option.isSome_iff_exists.mp he'
    exact h.consistent.unique _ _ _ _ _ _ _ htoken htoken'
  · have hcount := h.referenced.counted.getD src h₁
    have hreferences : references s src h₁ = some b.owners := by rw [references, hb]; rfl
    change (references s src h₁).getD 0 = _ at hcount
    rwa [hreferences] at hcount
  · exact h.referenced.hasHeight_iff src h₁

end Runs

section Reservations

/-- The reservation was granted by step `i`. -/
def Granted (es : ℕ → Operation) (i : ℕ) (r : Reservation) : Prop :=
  (.accepted, r) ∈ machine.emitted es i

/-- The reservation of step `i` was neither released since nor dropped with its bucket. -/
def Live (es : ℕ → Operation) (k i : ℕ) (r : Reservation) : Prop :=
  i < k ∧ Granted es i r ∧ (∀ j, i < j → j < k → es j ≠ .release r) ∧
    ∀ j, i < j → j ≤ k → hasHeight (machine.state es j) r.sourceId r.height = true

def isReserve : Operation → Bool
  | .reserve .. => true
  | _ => false

/-- The number of `reserve` calls in the first steps. -/
def reserves (es : ℕ → Operation) : ℕ → ℕ
  | 0 => 0
  | k + 1 => reserves es k + if isReserve (es k) then 1 else 0

variable {es : ℕ → Operation} {k i : ℕ} {r : Reservation}

theorem granted_iff : Granted es i r ↔ ∃ src h key, es i = .reserve src h key ∧
    (reserve src h key (machine.state es i)).1 = .accepted ∧
    r = (reserve src h key (machine.state es i)).2.1 := by
  rw [Granted, Machine.emitted]
  cases hop : es i with
  | reserve src h key =>
      simp only [machine, next, List.mem_singleton, Prod.mk.injEq, Operation.reserve.injEq]
      constructor
      · rintro ⟨haccepted, hr⟩
        exact ⟨src, h, key, ⟨rfl, rfl, rfl⟩, haccepted.symm, hr⟩
      · rintro ⟨src', h', key', ⟨rfl, rfl, rfl⟩, haccepted, hr⟩
        exact ⟨haccepted.symm, hr⟩
  | _ => simp [machine, next]

theorem live_succ : Live es (k + 1) i r ↔
    hasHeight (machine.state es (k + 1)) r.sourceId r.height = true ∧
      ((Live es k i r ∧ es k ≠ .release r) ∨ (i = k ∧ Granted es k r)) := by
  constructor
  · rintro ⟨hik, hgranted, hreleased, hbucket⟩
    refine ⟨hbucket (k + 1) hik le_rfl, ?_⟩
    rcases Nat.lt_succ_iff_lt_or_eq.mp hik with hlt | rfl
    · left
      exact ⟨⟨hlt, hgranted, fun j hij hjk => hreleased j hij (by omega),
        fun j hij hjk => hbucket j hij (by omega)⟩, hreleased k hlt (by omega)⟩
    · exact Or.inr ⟨rfl, hgranted⟩
  · rintro ⟨hlast, ⟨⟨hlt, hgranted, hreleased, hbucket⟩, hkeep⟩ | ⟨rfl, hgranted⟩⟩
    · refine ⟨by omega, hgranted, fun j hij hjk => ?_, fun j hij hjk => ?_⟩
      · rcases Nat.lt_succ_iff_lt_or_eq.mp hjk with hlt' | rfl
        · exact hreleased j hij hlt'
        · exact hkeep
      · rcases Nat.le_succ_iff.mp hjk with hle | rfl
        · exact hbucket j hij hle
        · exact hlast
    · refine ⟨by omega, hgranted, fun j hij hjk => by omega, fun j hij hjk => ?_⟩
      obtain rfl : j = i + 1 := by omega
      exact hlast

theorem held_step {s : State} (hc : Consistent s) (op : Operation) (r : Reservation) :
    held (next s op).1 r = true ↔ hasHeight (next s op).1 r.sourceId r.height = true ∧
      ((held s r = true ∧ op ≠ .release r) ∨ (.accepted, r) ∈ (next s op).2) := by
  rcases next_cases s op with ⟨src, h, key, rfl⟩ | ⟨r', rfl⟩ | ⟨⟨src, heights, hm⟩, hquiet, hnot⟩
  · simp only [next, held_reserve hc, hasHeight_reserve, List.mem_singleton, Prod.mk.injEq]
    constructor
    · intro hor
      rcases Bool.or_eq_true_iff.mp hor with hheld | hnew
      · exact ⟨hasHeight_of_held hheld, Or.inl ⟨hheld, by simp⟩⟩
      · obtain ⟨haccepted, rfl⟩ := of_decide_eq_true hnew
        have hbucket := hasHeight_of_held (reserve_accepted haccepted).1
        rw [hasHeight_reserve] at hbucket
        exact ⟨hbucket, Or.inr ⟨haccepted.symm, rfl⟩⟩
    · rintro ⟨-, ⟨hheld, -⟩ | ⟨haccepted, hr⟩⟩
      · exact Bool.or_eq_true_iff.mpr (Or.inl hheld)
      · exact Bool.or_eq_true_iff.mpr (Or.inr (decide_eq_true ⟨haccepted.symm, hr⟩))
  · simp only [next, held_release, hasHeight_release, List.not_mem_nil, or_false,
      Bool.and_eq_true, decide_eq_true_eq, ne_eq, Operation.release.injEq]
    constructor
    · rintro ⟨hheld, hne⟩
      exact ⟨hasHeight_of_held hheld, hheld, fun h => hne h.symm⟩
    · rintro ⟨-, hheld, hne⟩
      exact ⟨hheld, fun h => hne h.symm⟩
  · rw [hquiet, hm.held r]
    constructor
    · rintro ⟨hheld, hbucket⟩
      exact ⟨hbucket, Or.inl ⟨hheld, hnot r⟩⟩
    · rintro ⟨hbucket, ⟨hheld, -⟩ | hmem⟩
      · exact ⟨hheld, hbucket⟩
      · cases hmem

/-- The cache holds exactly the reservations that the history left alive. -/
theorem held_iff_live (es : ℕ → Operation) (k : ℕ) (r : Reservation) :
    held (machine.state es k) r = true ↔ ∃ i, Live es k i r := by
  induction k with
  | zero =>
      constructor
      · intro hheld
        simp [machine, held, entry, bucket] at hheld
      · rintro ⟨i, hlt, -⟩
        omega
  | succ k ih =>
      have hstep := held_step (represents_run es k).consistent (es k) r
      change held (machine.state es (k + 1)) r = true ↔ _ at hstep
      rw [hstep, ih]
      simp only [live_succ]
      constructor
      · rintro ⟨hbucket, ⟨⟨i, hlive⟩, hkeep⟩ | hgranted⟩
        · exact ⟨i, hbucket, Or.inl ⟨hlive, hkeep⟩⟩
        · exact ⟨k, hbucket, Or.inr ⟨rfl, hgranted⟩⟩
      · rintro ⟨i, hbucket, ⟨hlive, hkeep⟩ | ⟨-, hgranted⟩⟩
        · exact ⟨hbucket, Or.inl ⟨⟨i, hlive⟩, hkeep⟩⟩
        · exact ⟨hbucket, Or.inr hgranted⟩

theorem tokens_ne_zero (es : ℕ → Operation) (k src h : ℕ) (key : Key) :
    entry (machine.state es k) src h key ≠ some 0 := by
  revert src h key
  apply Machine.invariant (m := machine)
    (P := fun s => ∀ src h key, entry s src h key ≠ some 0)
  · simp [machine, entry, bucket]
  · intro s op hs src h key
    change entry (next s op).1 src h key ≠ some 0
    rcases next_cases s op with ⟨src', h', key', rfl⟩ | ⟨r', rfl⟩ | ⟨⟨src', heights, hm⟩, -, -⟩
    · rw [next, entry_reserve]
      split
      · intro hzero
        exact nextToken_ne_zero s.sequence (Option.some.inj hzero)
      · exact hs src h key
    · rw [next, entry_release]
      split
      · simp
      · exact hs src h key
    · exact fun he => hs src h key (entry_of_maintains hm he)

theorem entry_iff_live (es : ℕ → Operation) (k src h : ℕ) (key : Key) (token : ℕ) :
    entry (machine.state es k) src h key = some token ↔ ∃ i, Live es k i ⟨key, src, h, token⟩ := by
  rw [← held_iff_live, held_iff]
  constructor
  · intro he
    refine ⟨?_, he⟩
    rintro rfl
    exact tokens_ne_zero es k src h key he
  · exact fun he => he.2

theorem sequence_reserve (src h : ℕ) (key : Key) (s : State) :
    ((reserve src h key s).2.2.sequence = s.sequence ∧ (reserve src h key s).1 ≠ .accepted) ∨
      (reserve src h key s).2.2.sequence = nextToken s.sequence := by
  unfold reserve
  split
  · exact Or.inl ⟨rfl, by simp⟩
  · split
    · exact Or.inl ⟨rfl, by simp⟩
    · split
      · exact Or.inl ⟨rfl, by simp⟩
      · split
        · exact Or.inl ⟨rfl, by simp⟩
        · split
          · exact Or.inl ⟨rfl, by simp⟩
          · split
            · exact Or.inr rfl
            · exact Or.inr rfl

theorem sequence_step (s : State) (op : Operation) :
    (next s op).1.sequence = s.sequence ∨
      (isReserve op = true ∧ (next s op).1.sequence = nextToken s.sequence) := by
  rcases next_cases s op with ⟨src, h, key, rfl⟩ | ⟨r, rfl⟩ | ⟨⟨src, heights, hm⟩, -, -⟩
  · rcases sequence_reserve src h key s with ⟨hsame, -⟩ | hnext
    · exact Or.inl hsame
    · exact Or.inr ⟨rfl, hnext⟩
  · rcases release_cases r s with ⟨-, heq⟩ | ⟨-, hsequence, -⟩
    · exact Or.inl (congrArg State.sequence heq)
    · exact Or.inl hsequence
  · exact Or.inl hm.sequence

theorem nextToken_eq {sequence : ℕ} (h : sequence + 1 < 2 ^ 64) :
    nextToken sequence = sequence + 1 := by
  rw [nextToken, Nat.mod_eq_of_lt h]
  exact if_neg (by omega)

theorem sequence_mono (hfew : reserves es k < 2 ^ 64) :
    (machine.state es k).sequence ≤ reserves es k ∧
      ∀ j ≤ k, (machine.state es j).sequence ≤ (machine.state es k).sequence := by
  induction k with
  | zero =>
      refine ⟨le_rfl, fun j hj => ?_⟩
      obtain rfl : j = 0 := by omega
      exact le_rfl
  | succ k ih =>
      have hcount : reserves es (k + 1) = reserves es k + if isReserve (es k) then 1 else 0 := rfl
      obtain ⟨hle, hmono⟩ := ih (by omega)
      have hstep : (machine.state es k).sequence ≤ (machine.state es (k + 1)).sequence ∧
          (machine.state es (k + 1)).sequence ≤ reserves es (k + 1) := by
        rcases sequence_step (machine.state es k) (es k) with hsame | ⟨hreserve, hnext⟩
        · change (machine.state es (k + 1)).sequence = _ at hsame
          omega
        · change (machine.state es (k + 1)).sequence = _ at hnext
          rw [if_pos hreserve] at hcount
          rw [nextToken_eq (by omega)] at hnext
          omega
      refine ⟨hstep.2, fun j hj => ?_⟩
      rcases Nat.le_succ_iff.mp hj with hle' | rfl
      · exact (hmono j hle').trans hstep.1
      · exact le_rfl

theorem reserves_mono {i k : ℕ} (hik : i ≤ k) : reserves es i ≤ reserves es k := by
  induction k with
  | zero => rw [Nat.le_zero.mp hik]
  | succ k ih =>
      rcases Nat.le_succ_iff.mp hik with hle | rfl
      · exact (ih hle).trans (Nat.le_add_right _ _)
      · exact le_rfl

theorem token_of_granted (hgranted : Granted es i r) (hik : i < k)
    (hfew : reserves es k < 2 ^ 64) :
    (machine.state es i).sequence < r.token ∧ r.token = (machine.state es (i + 1)).sequence := by
  obtain ⟨src, h, key, hop, haccepted, hr⟩ := granted_iff.mp hgranted
  have hcount : reserves es (i + 1) = reserves es i + 1 := by simp [reserves, hop, isReserve]
  have hle : reserves es (i + 1) ≤ reserves es k := reserves_mono hik
  have hsequence : (machine.state es i).sequence ≤ reserves es i :=
    (sequence_mono (by omega)).1
  have hnext : nextToken (machine.state es i).sequence = (machine.state es i).sequence + 1 :=
    nextToken_eq (by omega)
  have htoken : r.token = nextToken (machine.state es i).sequence := by
    rw [hr, (reserve_accepted haccepted).2.1]
  have hafter : (machine.state es (i + 1)).sequence = nextToken (machine.state es i).sequence := by
    rw [Machine.state_succ, hop]
    rcases sequence_reserve src h key (machine.state es i) with ⟨-, hne⟩ | heq
    · exact absurd haccepted hne
    · exact heq
  omega

/-- No two steps grant the same reservation. -/
theorem granted_unique {j : ℕ} (hi : Granted es i r) (hj : Granted es j r) (hik : i < k)
    (hjk : j < k) (hfew : reserves es k < 2 ^ 64) : i = j := by
  have hlater : ∀ {a b : ℕ}, Granted es a r → Granted es b r → a < b → b < k → False := by
    intro a b ha hb hab hbk
    have hfewer : reserves es b < 2 ^ 64 := lt_of_le_of_lt (reserves_mono hbk.le) hfew
    have htoken := (token_of_granted ha (by omega) hfew).2
    have hmono := (sequence_mono hfewer).2 (a + 1) hab
    have hnew := (token_of_granted hb hbk hfew).1
    omega
  rcases Nat.lt_trichotomy i j with hij | hij | hji
  · exact (hlater hi hj hij hjk).elim
  · exact hij
  · exact (hlater hj hi hji hik).elim

theorem granted_inj {r' : Reservation} (h : Granted es i r) (h' : Granted es i r') : r = r' := by
  obtain ⟨src, height, key, hop, -, hr⟩ := granted_iff.mp h
  obtain ⟨src', height', key', hop', -, hr'⟩ := granted_iff.mp h'
  obtain ⟨rfl, rfl, rfl⟩ : src = src' ∧ height = height' ∧ key = key' := by
    simpa using hop.symm.trans hop'
  rw [hr, hr']

theorem Live.hasHeight (h : Live es k i r) :
    hasHeight (machine.state es k) r.sourceId r.height = true :=
  h.2.2.2 k h.1 le_rfl

theorem live_release {r' : Reservation} {j : ℕ} (hop : es k = .release r) :
    Live es (k + 1) j r' ↔ Live es k j r' ∧ r ≠ r' := by
  have hnone : ¬ Granted es k r' := by
    rw [granted_iff, hop]
    simp
  have hbucket : ∀ src h, hasHeight (machine.state es (k + 1)) src h =
      hasHeight (machine.state es k) src h := by
    intro src h
    rw [Machine.state_succ, hop]
    exact hasHeight_release r _ src h
  rw [live_succ, hop, hbucket]
  constructor
  · rintro ⟨-, ⟨hlive, hne⟩ | ⟨-, hgranted⟩⟩
    · exact ⟨hlive, fun heq => hne (congrArg _ heq)⟩
    · exact absurd hgranted hnone
  · rintro ⟨hlive, hne⟩
    exact ⟨hlive.hasHeight, Or.inl ⟨hlive, by simpa using hne⟩⟩

theorem key_live_iff (es : ℕ → Operation) (k : ℕ) (key : Key) :
    (machine.state es k).keys.contains key = true ↔ ∃ i r, Live es k i r ∧ r.key = key := by
  rw [Table.contains_iff]
  constructor
  · rintro ⟨token, htoken⟩
    obtain ⟨src, h, he⟩ := ((represents_run es k).consistent.keys_iff key token).mp htoken
    obtain ⟨i, hlive⟩ := (entry_iff_live es k src h key token).mp he
    exact ⟨i, _, hlive, rfl⟩
  · rintro ⟨i, r, hlive, rfl⟩
    have he := (entry_iff_live es k r.sourceId r.height r.key r.token).mpr ⟨i, hlive⟩
    exact ⟨r.token, ((represents_run es k).consistent.keys_iff _ _).mpr ⟨_, _, he⟩⟩

theorem reservations_refined (es : ℕ → Operation) (k : ℕ) (hfew : reserves es k < 2 ^ 64) :
    (∀ src h key token, entry (machine.state es k) src h key = some token ↔
      ∃ i, Live es k i ⟨key, src, h, token⟩) ∧
    (∀ src h key, es k = .reserve src h key → ∃ result r, machine.emitted es k = [(result, r)] ∧
      let invalid := src = 0 ∨ h = 0 ∨ key.length ≠ keySize ∨
        hasHeight (machine.state es k) src h = false
      let duplicate := ∃ i r, Live es k i r ∧ r.key = key
      let full := maxEntries ≤ size (machine.state es k) ∨
        maxEntriesPerSource ≤ sizeOfSource (machine.state es k) src
      (result = .invalid ↔ invalid) ∧ (¬ invalid → (result = .duplicate ↔ duplicate)) ∧
      (¬ invalid → ¬ duplicate → (result = .capacity ↔ full)) ∧
      (¬ invalid → ¬ duplicate → ¬ full → result = .accepted ∧
        r.key = key ∧ r.sourceId = src ∧ r.height = h)) ∧
    ∀ r, es k = .release r →
      (∀ i < k, Granted es i r → ∀ j r', Live es (k + 1) j r' ↔ Live es k j r' ∧ j ≠ i) ∧
      ((∀ i < k, ¬ Granted es i r) → ∀ j r', Live es (k + 1) j r' ↔ Live es k j r') ∧
      ∀ src h key token, entry (machine.state es (k + 1)) src h key = some token ↔
        entry (machine.state es k) src h key = some token ∧ r ≠ ⟨key, src, h, token⟩ := by
  refine ⟨entry_iff_live es k, fun src h key hop => ?_, fun r hop => ⟨?_, ?_, ?_⟩⟩
  · have hresult := reserve_result (represents_run es k).consistent src h key
    have hduplicate := key_live_iff es k key
    refine ⟨_, _, by rw [Machine.emitted, hop]; rfl, ?_⟩
    dsimp only
    rw [hresult, ← hduplicate]
    refine ⟨?_, fun hvalid => ?_, fun hvalid hnew => ?_, fun hvalid hnew hroom => ?_⟩
    · split_ifs with hinvalid <;> simp [hinvalid]
    · rw [if_neg hvalid]
      split_ifs with hdup <;> simp [hdup]
    · rw [if_neg hvalid, if_neg hnew]
      split_ifs with hfull <;> simp [hfull]
    · rw [if_neg hvalid, if_neg hnew, if_neg hroom] at hresult ⊢
      rw [(reserve_accepted hresult).2.1]
      exact ⟨rfl, rfl, rfl, rfl⟩
  · intro i hik hgranted j r'
    rw [live_release hop]
    constructor
    · rintro ⟨hlive, hne⟩
      refine ⟨hlive, ?_⟩
      rintro rfl
      exact hne (granted_inj hgranted hlive.2.1)
    · rintro ⟨hlive, hne⟩
      refine ⟨hlive, ?_⟩
      rintro rfl
      exact hne (granted_unique hlive.2.1 hgranted hlive.1 hik hfew)
  · intro hforeign j r'
    rw [live_release hop]
    constructor
    · exact fun h => h.1
    · intro hlive
      refine ⟨hlive, ?_⟩
      rintro rfl
      exact hforeign j hlive.1 hlive.2.1
  · intro src h key token
    rw [entry_iff_live, entry_iff_live]
    simp only [live_release hop, exists_and_right]

def repeatedKey : Key := List.replicate keySize 7

/-- The bucket of the first reservation is dropped, its key reserved again at the next
height, and then the first handle is released. -/
def staleRelease : ℕ → Operation :=
  follow [.observeHeight 1 10, .reserve 1 10 repeatedKey, .observeHeight 1 11,
    .reserve 1 11 repeatedKey, .release ⟨repeatedKey, 1, 10, 1⟩] .clear

theorem reservations_refined_stale :
    (machine.state staleRelease 5).keys.contains repeatedKey = true ∧
      ∀ j r, Live staleRelease 5 j r ↔ Live staleRelease 4 j r ∧ j ≠ 1 :=
  ⟨by decide +kernel,
    ((reservations_refined staleRelease 4 (by decide)).2.2 ⟨repeatedKey, 1, 10, 1⟩ rfl).1 1
      (by decide) (by unfold Granted; decide +kernel)⟩

end Reservations

end XmrigProxy.ShareCacheInvariants
