import Mathlib.Data.List.Dedup
import XmrigProxy.Library.Hex
import XmrigProxy.Library.Table

/-! The process-wide cache of submitted shares. Entries live in one bucket for each source
and height, and a second table maps every key to its token across all buckets. Buckets are
created by observed heights and by the heights registered for owners, and they are dropped
together with their entries once nothing refers to them. -/
namespace XmrigProxy.GlobalShareCache

abbrev Key := List UInt8

structure HeightEntries where
  owners : ℕ := 0
  entries : Table Key ℕ := ∅
  deriving DecidableEq

structure SourceEntries where
  currentHeight : ℕ := 0
  heights : Table ℕ HeightEntries := ∅
  deriving DecidableEq

structure OwnerHeights where
  sourceId : ℕ
  heights : List ℕ
  deriving DecidableEq

structure State where
  sources : Table ℕ SourceEntries := ∅
  owners : Table ℕ OwnerHeights := ∅
  keys : Table Key ℕ := ∅
  sequence : ℕ := 0
  deriving DecidableEq

structure Reservation where
  key : Key := []
  sourceId : ℕ := 0
  height : ℕ := 0
  token : ℕ := 0
  deriving DecidableEq, Repr

def Reservation.valid (r : Reservation) : Bool := r.token ≠ 0

inductive Result where
  | accepted
  | duplicate
  | capacity
  | invalid
  deriving DecidableEq, Repr

def maxEntries : ℕ := 131072
def maxEntriesPerSource : ℕ := 65536
def keySize : ℕ := 48

def makeKey (entropyHex resultHash : String) : Option Key :=
  if entropyHex.length = 32 ∧ resultHash.length = 64 then
    (Hex.decode entropyHex.toList).bind fun entropy =>
      (Hex.decode resultHash.toList).map (entropy ++ ·)
  else none

def bucket (s : State) (sourceId height : ℕ) : Option HeightEntries :=
  (s.sources.find sourceId).bind fun source => source.heights.find height

def hasHeight (s : State) (sourceId height : ℕ) : Bool := (bucket s sourceId height).isSome

def eraseEntries (height : HeightEntries) (keys : Table Key ℕ) : Table Key ℕ :=
  keys.filter fun key token => height.entries.find key ≠ some token

/-- Drops one bucket together with its entries. -/
def eraseHeight (sourceId height : ℕ) (s : State) : State :=
  match s.sources.find sourceId with
  | none => s
  | some source =>
      match source.heights.find height with
      | none => s
      | some entries =>
          { s with
            keys := eraseEntries entries s.keys
            sources := s.sources.insert sourceId
              { source with heights := source.heights.erase height } }

def eraseHeightIfUnused (sourceId height : ℕ) (s : State) : State :=
  match s.sources.find sourceId with
  | none => s
  | some source =>
      if source.currentHeight = height then s
      else match source.heights.find height with
        | none => s
        | some entries => if entries.owners ≠ 0 then s else eraseHeight sourceId height s

/-- Decrements the owner count of one bucket. -/
def dropReference (sourceId height : ℕ) (s : State) : State :=
  { s with sources := s.sources.modify sourceId fun source =>
      { source with heights := source.heights.modify height fun entries =>
          { entries with owners := entries.owners - 1 } } }

def detachOwner (owner : ℕ) (s : State) : State :=
  match s.owners.find owner with
  | none => s
  | some previous =>
      let s := { s with owners := s.owners.erase owner }
      let s := previous.heights.foldl (fun s height => dropReference previous.sourceId height s) s
      previous.heights.foldl (fun s height => eraseHeightIfUnused previous.sourceId height s) s

def observeHeight (sourceId height : ℕ) (s : State) : State :=
  if sourceId = 0 ∨ height = 0 then s
  else
    let source := (s.sources.find sourceId).getD {}
    let heights :=
      if source.heights.contains height then source.heights else source.heights.insert height {}
    let s := { s with sources := s.sources.insert sourceId ⟨height, heights⟩ }
    (heights.filter fun h entries => h ≠ height && entries.owners = 0).keys.foldl
      (fun s h => eraseHeight sourceId h s) s

/-- Increments the owner count of one bucket, creating the bucket when it is missing. -/
def addReference (sourceId height : ℕ) (s : State) : State :=
  let source := (s.sources.find sourceId).getD {}
  let entries := (source.heights.find height).getD {}
  { s with sources := s.sources.insert sourceId { source with
      heights := source.heights.insert height { entries with owners := entries.owners + 1 } } }

def setOwnerHeights (owner sourceId : ℕ) (heights : List ℕ) (s : State) : State :=
  if owner = 0 then s
  else
    let unique := (heights.filter (· ≠ 0)).dedup
    if sourceId = 0 ∨ unique = [] then detachOwner owner s
    else
      let s := unique.foldl (fun s height => addReference sourceId height s) s
      let s := detachOwner owner s
      { s with owners := s.owners.insert owner ⟨sourceId, unique⟩ }

def removeOwner (owner : ℕ) (s : State) : State :=
  if owner ≠ 0 then detachOwner owner s else s

def release (reservation : Reservation) (s : State) : State :=
  if reservation.token = 0 then s
  else match s.sources.find reservation.sourceId with
    | none => s
    | some source =>
        match source.heights.find reservation.height with
        | none => s
        | some entries =>
            if entries.entries.find reservation.key = some reservation.token then
              let keys := if s.keys.find reservation.key = some reservation.token then
                  s.keys.erase reservation.key else s.keys
              let entries := { entries with entries := entries.entries.erase reservation.key }
              { s with
                keys := keys
                sources := s.sources.insert reservation.sourceId
                  { source with heights := source.heights.insert reservation.height entries } }
            else s

def sourceSize (source : SourceEntries) : ℕ :=
  (source.heights.entries.map fun e => e.2.entries.size).sum

/-- The next token; zero, the token of an invalid reservation, is skipped. -/
def nextToken (sequence : ℕ) : ℕ :=
  let token := (sequence + 1) % 2 ^ 64
  if token = 0 then 1 else token

def reserve (sourceId height : ℕ) (key : Key) (s : State) : Result × Reservation × State :=
  if sourceId = 0 ∨ height = 0 ∨ key.length ≠ keySize then (.invalid, {}, s)
  else match s.sources.find sourceId with
    | none => (.invalid, {}, s)
    | some source =>
        match source.heights.find height with
        | none => (.invalid, {}, s)
        | some entries =>
            if s.keys.contains key then (.duplicate, {}, s)
            else if maxEntries ≤ s.keys.size ∨ maxEntriesPerSource ≤ sourceSize source then
              (.capacity, {}, s)
            else
              let token := nextToken s.sequence
              if entries.entries.contains key then
                (.duplicate, {}, { s with sequence := token })
              else
                let entries := { entries with entries := entries.entries.insert key token }
                (.accepted, ⟨key, sourceId, height, token⟩,
                  { s with
                    sequence := token
                    keys := s.keys.insert key token
                    sources := s.sources.insert sourceId
                      { source with heights := source.heights.insert height entries } })

def removeSource (sourceId : ℕ) (s : State) : State :=
  match s.sources.find sourceId with
  | none => s
  | some source =>
      let s := { s with owners := s.owners.filter fun _ owner => owner.sourceId ≠ sourceId }
      let s := source.heights.keys.foldl (fun s height => eraseHeight sourceId height s) s
      { s with sources := s.sources.erase sourceId }

def size (s : State) : ℕ := s.keys.size

def sizeOfSource (s : State) (sourceId : ℕ) : ℕ :=
  ((s.sources.find sourceId).map sourceSize).getD 0

def height (s : State) (sourceId : ℕ) : ℕ :=
  ((s.sources.find sourceId).map fun source => source.currentHeight).getD 0

/-- The token sequence outlives the tables. -/
def clear (s : State) : State := { s with owners := ∅, sources := ∅, keys := ∅ }

/-- The token of a key in one bucket. -/
def entry (s : State) (sourceId height : ℕ) (key : Key) : Option ℕ :=
  (bucket s sourceId height).bind fun entries => entries.entries.find key

/-- A reservation whose entry is still in its bucket. -/
def held (s : State) (r : Reservation) : Bool :=
  r.token ≠ 0 && entry s r.sourceId r.height r.key = some r.token

section Consistency

/-- The global table is the disjoint union of the buckets. -/
structure Consistent (s : State) : Prop where
  keys_iff : ∀ key token, s.keys.find key = some token ↔
    ∃ sourceId height, entry s sourceId height key = some token
  unique : ∀ sourceId height sourceId' height' key token token',
    entry s sourceId height key = some token → entry s sourceId' height' key = some token' →
    sourceId = sourceId' ∧ height = height'

theorem consistent_initial : Consistent {} :=
  ⟨by simp [entry, bucket], by simp [entry, bucket]⟩

variable {s s' : State}

theorem Consistent.congr (h : Consistent s) (hkeys : s'.keys = s.keys)
    (hentry : ∀ sourceId height key,
      entry s' sourceId height key = entry s sourceId height key) : Consistent s' :=
  ⟨by simpa only [hkeys, hentry] using h.keys_iff, by simpa only [hentry] using h.unique⟩

theorem bucket_insert (sources : Table ℕ SourceEntries) (sourceId : ℕ) (source : SourceEntries)
    (owners : Table ℕ OwnerHeights) (keys : Table Key ℕ) (sequence src height : ℕ) :
    bucket ⟨sources.insert sourceId source, owners, keys, sequence⟩ src height =
      if src = sourceId then source.heights.find height
      else (sources.find src).bind fun source => source.heights.find height := by
  simp only [bucket, Table.find_insert]
  split <;> rfl

/-- No bucket appears and none changes its entries. -/
structure Shrinks (s s' : State) : Prop where
  entries : ∀ sourceId height after, bucket s' sourceId height = some after →
    ∃ before, bucket s sourceId height = some before ∧ after.entries = before.entries
  consistent : Consistent s → Consistent s'
  sequence : s'.sequence = s.sequence

theorem Shrinks.refl (s : State) : Shrinks s s :=
  ⟨fun _ _ after h => ⟨after, h, rfl⟩, id, rfl⟩

theorem Shrinks.trans {s₁ s₂ s₃ : State} (h : Shrinks s₁ s₂) (h' : Shrinks s₂ s₃) :
    Shrinks s₁ s₃ := by
  refine ⟨fun sourceId height after ha => ?_, fun hc => h'.consistent (h.consistent hc),
    h'.sequence.trans h.sequence⟩
  obtain ⟨middle, hm, heq⟩ := h'.entries sourceId height after ha
  obtain ⟨before, hb, heq'⟩ := h.entries sourceId height middle hm
  exact ⟨before, hb, heq.trans heq'⟩

theorem Shrinks.foldl {α : Type} (f : State → α → State) (hf : ∀ s a, Shrinks s (f s a))
    (l : List α) (s : State) : Shrinks s (l.foldl f s) := by
  induction l generalizing s with
  | nil => exact Shrinks.refl s
  | cons a rest ih => exact (hf s a).trans (ih (f s a))

theorem bucket_eraseHeight (sourceId height src h : ℕ) (s : State) :
    bucket (eraseHeight sourceId height s) src h =
      if src = sourceId ∧ h = height then none else bucket s src h := by
  unfold eraseHeight
  cases hs : s.sources.find sourceId with
  | none =>
      by_cases hc : src = sourceId ∧ h = height
      · simp [hc, bucket, hs]
      · simp [hc]
  | some source =>
      cases hh : source.heights.find height with
      | none =>
          by_cases hc : src = sourceId ∧ h = height
          · simp [hc, bucket, hs, hh]
          · simp [hc, hh]
      | some entries =>
          simp only [hh, bucket_insert, Table.find_erase]
          by_cases hsrc : src = sourceId
          · by_cases hheight : h = height <;> simp [hsrc, hheight, bucket, hs]
          · simp [hsrc, bucket]

theorem shrinks_eraseHeight (sourceId height : ℕ) (s : State) :
    Shrinks s (eraseHeight sourceId height s) := by
  have hentry : ∀ src h key, entry (eraseHeight sourceId height s) src h key =
      if src = sourceId ∧ h = height then none else entry s src h key := by
    intro src h key
    rw [entry, bucket_eraseHeight]
    split <;> rfl
  refine ⟨fun src h after ha => ?_, fun hc => ⟨fun key token => ?_, ?_⟩, ?_⟩
  · rw [bucket_eraseHeight] at ha
    split at ha
    · cases ha
    · exact ⟨after, ha, rfl⟩
  · have hkeys : (eraseHeight sourceId height s).keys.find key = some token ↔
        s.keys.find key = some token ∧ entry s sourceId height key ≠ some token := by
      unfold eraseHeight entry bucket
      cases hs : s.sources.find sourceId with
      | none => simp
      | some source =>
          cases hh : source.heights.find height with
          | none => simp [hh]
          | some entries => simp [hh, eraseEntries, Table.find_filter, Option.filter_eq_some_iff]
    rw [hkeys, hc.keys_iff]
    simp only [hentry]
    constructor
    · rintro ⟨⟨src, h, he⟩, hne⟩
      refine ⟨src, h, ?_⟩
      rw [if_neg]
      · exact he
      · rintro ⟨rfl, rfl⟩
        exact hne he
    · rintro ⟨src, h, he⟩
      split at he
      · cases he
      · next hne => exact ⟨⟨src, h, he⟩, fun he' => hne (hc.unique _ _ _ _ _ _ _ he he')⟩
  · intro src h src' h' key token token' he he'
    rw [hentry] at he he'
    split at he
    · cases he
    · split at he'
      · cases he'
      · exact hc.unique _ _ _ _ _ _ _ he he'
  · unfold eraseHeight
    split
    · rfl
    · split <;> rfl

theorem shrinks_eraseHeightIfUnused (sourceId height : ℕ) (s : State) :
    Shrinks s (eraseHeightIfUnused sourceId height s) := by
  unfold eraseHeightIfUnused
  split
  · exact Shrinks.refl s
  · split
    · exact Shrinks.refl s
    · split
      · exact Shrinks.refl s
      · split
        · exact Shrinks.refl s
        · exact shrinks_eraseHeight sourceId height s

theorem bucket_dropReference (sourceId height src h : ℕ) (s : State) :
    bucket (dropReference sourceId height s) src h =
      (bucket s src h).map fun entries =>
        if src = sourceId ∧ h = height then { entries with owners := entries.owners - 1 }
        else entries := by
  simp only [bucket, dropReference, Table.find_modify]
  by_cases hsrc : src = sourceId
  · subst hsrc
    cases s.sources.find src with
    | none => simp
    | some source =>
        simp only [if_true, Option.map_some, Option.bind_some, Table.find_modify]
        by_cases hheight : h = height
        · subst hheight
          cases source.heights.find h <;> simp
        · cases source.heights.find h <;> simp [hheight]
  · cases s.sources.find src with
    | none => simp [hsrc]
    | some source => cases hh : source.heights.find h <;> simp [hsrc, hh]

theorem shrinks_dropReference (sourceId height : ℕ) (s : State) :
    Shrinks s (dropReference sourceId height s) := by
  have hbucket := bucket_dropReference sourceId height
  refine ⟨fun src h after ha => ?_, fun hc => hc.congr rfl fun src h key => ?_, rfl⟩
  · rw [hbucket] at ha
    obtain ⟨before, hb, rfl⟩ := Option.map_eq_some_iff.mp ha
    refine ⟨before, hb, ?_⟩
    split <;> rfl
  · simp only [entry, hbucket]
    cases bucket s src h with
    | none => rfl
    | some before =>
        simp only [Option.map_some, Option.bind_some]
        split <;> rfl

theorem shrinks_detachOwner (owner : ℕ) (s : State) : Shrinks s (detachOwner owner s) := by
  unfold detachOwner
  split
  · exact Shrinks.refl s
  · next previous _ =>
    have hforget : Shrinks s { s with owners := s.owners.erase owner } :=
      ⟨fun _ _ after h => ⟨after, h, rfl⟩, fun hc => hc.congr rfl fun _ _ _ => rfl, rfl⟩
    exact (hforget.trans (Shrinks.foldl _
      (fun s height => shrinks_dropReference previous.sourceId height s) _ _)).trans
        (Shrinks.foldl _ (fun s height => shrinks_eraseHeightIfUnused previous.sourceId height s)
          _ _)

/-- Every bucket keeps its entries, and the new ones, empty, are among the given heights. -/
structure Grows (sourceId : ℕ) (heights : List ℕ) (s s' : State) : Prop where
  kept : ∀ src h before, bucket s src h = some before →
    ∃ after, bucket s' src h = some after ∧ after.entries = before.entries
  created : ∀ src h after, bucket s src h = none → bucket s' src h = some after →
    src = sourceId ∧ h ∈ heights ∧ after.entries = ∅
  keys : s'.keys = s.keys
  sequence : s'.sequence = s.sequence

theorem Grows.entry {sourceId : ℕ} {heights : List ℕ} (h : Grows sourceId heights s s')
    (src height : ℕ) (key : Key) : entry s' src height key = entry s src height key := by
  unfold GlobalShareCache.entry
  cases hb : bucket s src height with
  | some before =>
      obtain ⟨after, ha, heq⟩ := h.kept src height before hb
      simp [ha, heq]
  | none =>
      cases ha : bucket s' src height with
      | none => rfl
      | some after => simp [(h.created src height after hb ha).2.2]

theorem bucket_addReference (sourceId height src h : ℕ) (s : State) :
    bucket (addReference sourceId height s) src h =
      if src = sourceId ∧ h = height then
        some { (bucket s sourceId height).getD {} with
          owners := ((bucket s sourceId height).getD {}).owners + 1 }
      else bucket s src h := by
  simp only [addReference, bucket_insert, Table.find_insert]
  by_cases hsrc : src = sourceId
  · subst hsrc
    by_cases hheight : h = height
    · subst hheight
      cases hs : s.sources.find src <;> simp [bucket, hs]
    · cases hs : s.sources.find src <;> simp [bucket, hs, hheight]
  · simp [hsrc, bucket]

theorem grows_addReference (sourceId height : ℕ) (s : State) :
    Grows sourceId [height] s (addReference sourceId height s) := by
  have hbucket := bucket_addReference sourceId height
  refine ⟨fun src h before hb => ?_, fun src h after hb ha => ?_, rfl, rfl⟩
  · rw [hbucket]
    split
    · next heq =>
      obtain ⟨rfl, rfl⟩ := heq
      exact ⟨_, rfl, by simp [hb]⟩
    · exact ⟨before, hb, rfl⟩
  · rw [hbucket] at ha
    split at ha
    · next heq =>
      obtain ⟨rfl, rfl⟩ := heq
      obtain rfl := Option.some.inj ha
      exact ⟨rfl, List.mem_singleton_self _, by simp [hb]⟩
    · rw [hb] at ha
      cases ha

theorem grows_foldl_addReference (sourceId : ℕ) (heights : List ℕ) (s : State) :
    Grows sourceId heights s (heights.foldl
      (fun s height => addReference sourceId height s) s) := by
  induction heights generalizing s with
  | nil => exact ⟨fun _ _ before hb => ⟨before, hb, rfl⟩, fun _ _ after hb ha => by simp_all,
      rfl, rfl⟩
  | cons height rest ih =>
      have hone := grows_addReference sourceId height s
      have hrest := ih (addReference sourceId height s)
      refine ⟨fun src h before hb => ?_, fun src h after hb ha => ?_,
        hrest.keys.trans hone.keys, hrest.sequence.trans hone.sequence⟩
      · obtain ⟨middle, hm, heq⟩ := hone.kept src h before hb
        obtain ⟨after, ha, heq'⟩ := hrest.kept src h middle hm
        exact ⟨after, ha, heq'.trans heq⟩
      · cases hm : bucket (addReference sourceId height s) src h with
        | none =>
            obtain ⟨hsrc, hmem, hempty⟩ := hrest.created src h after hm ha
            exact ⟨hsrc, List.mem_cons_of_mem _ hmem, hempty⟩
        | some middle =>
            obtain ⟨hsrc, hmem, hempty⟩ := hone.created src h middle hb hm
            obtain ⟨after', ha', heq⟩ := hrest.kept src h middle hm
            obtain rfl : after = after' := Option.some.inj (ha.symm.trans ha')
            exact ⟨hsrc, List.mem_cons.mpr (Or.inl (List.mem_singleton.mp hmem)),
              heq.trans hempty⟩

/-- What an operation other than `reserve` and `release` does to the buckets. -/
structure Maintains (sourceId : ℕ) (heights : List ℕ) (s s' : State) : Prop where
  kept : ∀ src h before after, bucket s src h = some before → bucket s' src h = some after →
    after.entries = before.entries
  created : ∀ src h after, bucket s src h = none → bucket s' src h = some after →
    src = sourceId ∧ h ∈ heights ∧ after.entries = ∅
  consistent : Consistent s → Consistent s'
  sequence : s'.sequence = s.sequence

theorem Grows.shrinks {sourceId : ℕ} {heights : List ℕ} {s₁ s₂ s₃ : State}
    (hg : Grows sourceId heights s₁ s₂) (hs : Shrinks s₂ s₃) :
    Maintains sourceId heights s₁ s₃ := by
  refine ⟨fun src h before after hb ha => ?_, fun src h after hb ha => ?_,
    fun hc => hs.consistent (hc.congr hg.keys hg.entry), hs.sequence.trans hg.sequence⟩
  · obtain ⟨middle, hm, heq⟩ := hs.entries src h after ha
    obtain ⟨middle', hm', heq'⟩ := hg.kept src h before hb
    obtain rfl : middle = middle' := Option.some.inj (hm.symm.trans hm')
    exact heq.trans heq'
  · obtain ⟨middle, hm, heq⟩ := hs.entries src h after ha
    obtain ⟨hsrc, hmem, hempty⟩ := hg.created src h middle hb hm
    exact ⟨hsrc, hmem, heq.trans hempty⟩

theorem Shrinks.maintains (h : Shrinks s s') (sourceId : ℕ) : Maintains sourceId [] s s' :=
  Grows.shrinks ⟨fun _ _ before hb => ⟨before, hb, rfl⟩, fun _ _ after hb ha => by simp_all,
    rfl, rfl⟩ h

theorem Maintains.mono {sourceId : ℕ} {heights heights' : List ℕ}
    (h : Maintains sourceId heights s s') (hsub : heights ⊆ heights') :
    Maintains sourceId heights' s s' := by
  refine ⟨h.kept, fun src k after hb ha => ?_, h.consistent, h.sequence⟩
  obtain ⟨hsrc, hmem, hempty⟩ := h.created src k after hb ha
  exact ⟨hsrc, hsub hmem, hempty⟩

theorem maintains_refl (sourceId : ℕ) (heights : List ℕ) (s : State) :
    Maintains sourceId heights s s :=
  ((Shrinks.refl s).maintains sourceId).mono (List.nil_subset heights)

theorem find_observed (height : ℕ) (heights : Table ℕ HeightEntries) (h : ℕ) :
    (if heights.contains height then heights else heights.insert height {}).find h =
      if h = height then some ((heights.find height).getD {}) else heights.find h := by
  cases hc : heights.find height <;> by_cases hh : h = height <;>
    simp [Table.contains, Table.find_insert, hc, hh]

theorem maintains_observeHeight (sourceId height : ℕ) (s : State) :
    Maintains sourceId [height] s (observeHeight sourceId height s) := by
  unfold observeHeight
  split
  · exact maintains_refl sourceId _ s
  · refine Grows.shrinks ?_ (Shrinks.foldl _
      (fun s h => shrinks_eraseHeight sourceId h s) _ _)
    have hfind := find_observed height
    refine ⟨fun src h before hb => ?_, fun src h after hb ha => ?_, rfl, rfl⟩
    · simp only [bucket_insert, hfind]
      by_cases hsrc : src = sourceId
      · subst hsrc
        obtain ⟨source, hs, hh⟩ := Option.bind_eq_some_iff.mp hb
        by_cases heq : h = height
        · subst heq
          exact ⟨before, by simp [hs, hh], rfl⟩
        · exact ⟨before, by simp [hs, hh, heq], rfl⟩
      · exact ⟨before, by rw [if_neg hsrc]; exact hb, rfl⟩
    · simp only [bucket_insert, hfind] at ha
      by_cases hsrc : src = sourceId
      · subst hsrc
        rw [if_pos rfl] at ha
        by_cases heq : h = height
        · subst heq
          refine ⟨rfl, List.mem_singleton_self _, ?_⟩
          cases hs : s.sources.find src <;> simp_all [bucket] <;> rw [← ha]
        · cases hs : s.sources.find src <;> simp_all [bucket]
      · rw [if_neg hsrc] at ha
        exact absurd (hb.symm.trans ha) (by simp)

theorem maintains_setOwnerHeights (owner sourceId : ℕ) (heights : List ℕ) (s : State) :
    Maintains sourceId heights s (setOwnerHeights owner sourceId heights s) := by
  unfold setOwnerHeights
  split
  · exact maintains_refl sourceId _ s
  · dsimp only
    split
    · exact ((shrinks_detachOwner owner s).maintains sourceId).mono (List.nil_subset _)
    · have hm := (grows_foldl_addReference sourceId (heights.filter (· ≠ 0)).dedup s).shrinks
        (shrinks_detachOwner owner _)
      exact ⟨hm.kept, fun src h after hb ha => by
        obtain ⟨hsrc, hmem, hempty⟩ := hm.created src h after hb ha
        exact ⟨hsrc, List.mem_of_mem_filter (List.mem_dedup.mp hmem), hempty⟩,
        fun hc => (hm.consistent hc).congr rfl fun _ _ _ => rfl, hm.sequence⟩

theorem maintains_removeOwner (owner sourceId : ℕ) (s : State) :
    Maintains sourceId [] s (removeOwner owner s) := by
  unfold removeOwner
  split
  · exact (shrinks_detachOwner owner s).maintains sourceId
  · exact (Shrinks.refl s).maintains sourceId

theorem release_cases (r : Reservation) (s : State) :
    (held s r = false ∧ release r s = s) ∨
      (held s r = true ∧ (release r s).sequence = s.sequence ∧
        (release r s).keys = (if s.keys.find r.key = some r.token then s.keys.erase r.key
          else s.keys) ∧
        ∀ src h, bucket (release r s) src h = if src = r.sourceId ∧ h = r.height then
            (bucket s src h).map fun b => { b with entries := b.entries.erase r.key }
          else bucket s src h) := by
  unfold release
  by_cases htoken : r.token = 0
  · left
    simp [held, htoken]
  · rw [if_neg htoken]
    cases hs : s.sources.find r.sourceId with
    | none => simp [held, entry, bucket, hs]
    | some source =>
        cases hh : source.heights.find r.height with
        | none => simp [held, entry, bucket, hs, hh]
        | some entries =>
            by_cases hfound : entries.entries.find r.key = some r.token
            · right
              simp only [hh, if_pos hfound]
              refine ⟨by simp [held, htoken, entry, bucket, hs, hh, hfound], trivial, trivial, ?_⟩
              intro src h
              simp only [bucket_insert, Table.find_insert]
              by_cases hsrc : src = r.sourceId
              · by_cases hheight : h = r.height <;> simp [hsrc, hheight, bucket, hs, hh]
              · simp [hsrc, bucket]
            · left
              simp [held, htoken, entry, bucket, hs, hh, hfound]

theorem hasHeight_release (r : Reservation) (s : State) (src h : ℕ) :
    hasHeight (release r s) src h = hasHeight s src h := by
  rcases release_cases r s with ⟨-, heq⟩ | ⟨-, -, -, hbucket⟩
  · rw [heq]
  · rw [hasHeight, hbucket]
    split <;> simp [hasHeight]

theorem entry_release (r : Reservation) (s : State) (src h : ℕ) (key : Key) :
    entry (release r s) src h key =
      if held s r = true ∧ src = r.sourceId ∧ h = r.height ∧ key = r.key then none
      else entry s src h key := by
  rcases release_cases r s with ⟨hheld, heq⟩ | ⟨hheld, -, -, hbucket⟩
  · simp [heq, hheld]
  · simp only [entry, hbucket, hheld, true_and]
    by_cases hb : src = r.sourceId ∧ h = r.height
    · obtain ⟨rfl, rfl⟩ := hb
      cases bucket s r.sourceId r.height with
      | none => simp
      | some b => simp [Table.find_erase]
    · rw [if_neg hb, if_neg fun hc => hb ⟨hc.1, hc.2.1⟩]

theorem consistent_release (r : Reservation) (hc : Consistent s) : Consistent (release r s) := by
  rcases release_cases r s with ⟨hheld, heq⟩ | ⟨hheld, -, hkeys, -⟩
  · rw [heq]
    exact hc
  · have hentry := entry_release r s
    simp only [hheld, true_and] at hentry
    have hown : entry s r.sourceId r.height r.key = some r.token := by
      simp only [held, Bool.and_eq_true, decide_eq_true_eq] at hheld
      exact hheld.2
    have hglobal : s.keys.find r.key = some r.token := (hc.keys_iff _ _).mpr ⟨_, _, hown⟩
    rw [if_pos hglobal] at hkeys
    refine ⟨fun key token => ?_, fun src h src' h' key token token' he he' => ?_⟩
    · simp only [hkeys, Table.find_erase, hentry]
      by_cases hk : key = r.key
      · subst hk
        simp only [if_true, reduceCtorEq, false_iff, not_exists, and_true]
        intro src h he
        split at he
        · cases he
        · next hne => exact hne (hc.unique _ _ _ _ _ _ _ he hown)
      · simp only [hk, if_false, and_false, hc.keys_iff]
    · rw [hentry] at he he'
      split at he
      · cases he
      · split at he'
        · cases he'
        · exact hc.unique _ _ _ _ _ _ _ he he'

theorem nextToken_ne_zero (sequence : ℕ) : nextToken sequence ≠ 0 := by
  unfold nextToken
  dsimp only
  split <;> omega

theorem reserve_cases (src h : ℕ) (key : Key) (s : State) :
    ((reserve src h key s).1 ≠ .accepted ∧ (reserve src h key s).2.1 = {} ∧
        (reserve src h key s).2.2.sources = s.sources ∧ (reserve src h key s).2.2.keys = s.keys) ∨
      ((reserve src h key s).1 = .accepted ∧
        (reserve src h key s).2.1 = ⟨key, src, h, nextToken s.sequence⟩ ∧ key.length = keySize ∧
        hasHeight s src h = true ∧ s.keys.find key = none ∧
        (reserve src h key s).2.2.keys = s.keys.insert key (nextToken s.sequence) ∧
        ∀ src' h', bucket (reserve src h key s).2.2 src' h' = if src' = src ∧ h' = h then
            (bucket s src' h').map fun b =>
              { b with entries := b.entries.insert key (nextToken s.sequence) }
          else bucket s src' h') := by
  unfold reserve
  by_cases hinvalid : src = 0 ∨ h = 0 ∨ key.length ≠ keySize
  · left
    simp [hinvalid]
  · rw [if_neg hinvalid]
    cases hs : s.sources.find src with
    | none => simp
    | some source =>
        cases hh : source.heights.find h with
        | none => simp [hh]
        | some entries =>
            simp only [hh]
            by_cases hdup : s.keys.contains key
            · simp [hdup]
            · rw [if_neg hdup]
              split
              · simp
              · split
                · simp
                · right
                  refine ⟨rfl, rfl, by omega, by simp [hasHeight, bucket, hs, hh], ?_, rfl, ?_⟩
                  · simpa [Table.contains] using hdup
                  · intro src' h'
                    simp only [bucket_insert, Table.find_insert]
                    by_cases hsrc : src' = src
                    · by_cases hheight : h' = h <;> simp [hsrc, hheight, bucket, hs, hh]
                    · simp [hsrc, bucket]

theorem hasHeight_reserve (src h : ℕ) (key : Key) (s : State) (src' h' : ℕ) :
    hasHeight (reserve src h key s).2.2 src' h' = hasHeight s src' h' := by
  rcases reserve_cases src h key s with ⟨-, -, hsources, -⟩ | ⟨-, -, -, -, -, -, hbucket⟩
  · simp [hasHeight, bucket, hsources]
  · rw [hasHeight, hbucket]
    split <;> simp [hasHeight]

/-- An accepted reservation adds one entry, under a key that was nowhere in the cache. -/
theorem reserve_accepted {src h : ℕ} {key : Key}
    (haccepted : (reserve src h key s).1 = .accepted) :
    held (reserve src h key s).2.2 (reserve src h key s).2.1 = true ∧
      (reserve src h key s).2.1 = ⟨key, src, h, nextToken s.sequence⟩ ∧
      key.length = keySize ∧ hasHeight s src h = true ∧ s.keys.find key = none := by
  rcases reserve_cases src h key s with ⟨hne, -⟩ | ⟨-, hr, hlen, hhas, hkeys, -, hbucket⟩
  · exact absurd haccepted hne
  · refine ⟨?_, hr, hlen, hhas, hkeys⟩
    obtain ⟨b, hb⟩ := Option.isSome_iff_exists.mp hhas
    rw [hr]
    simp [held, entry, hbucket, hb, nextToken_ne_zero]

theorem entry_reserve (src h : ℕ) (key : Key) (s : State) (src' h' : ℕ) (key' : Key) :
    entry (reserve src h key s).2.2 src' h' key' =
      if (reserve src h key s).1 = .accepted ∧ src' = src ∧ h' = h ∧ key' = key then
        some (nextToken s.sequence)
      else entry s src' h' key' := by
  rcases reserve_cases src h key s with
    ⟨hne, -, hsources, -⟩ | ⟨haccepted, -, -, hhas, -, -, hbucket⟩
  · simp [entry, bucket, hsources, hne]
  · simp only [entry, hbucket, haccepted, true_and]
    by_cases hb : src' = src ∧ h' = h
    · obtain ⟨rfl, rfl⟩ := hb
      obtain ⟨b, hb⟩ := Option.isSome_iff_exists.mp hhas
      simp [hb, Table.find_insert]
    · rw [if_neg hb, if_neg fun hc => hb ⟨hc.1, hc.2.1⟩]

theorem entry_none_of_fresh (hc : Consistent s) {key : Key} (hfresh : s.keys.find key = none)
    (src h : ℕ) : entry s src h key = none := by
  cases he : entry s src h key with
  | none => rfl
  | some token =>
      have hglobal := (hc.keys_iff key token).mpr ⟨src, h, he⟩
      rw [hfresh] at hglobal
      cases hglobal

theorem consistent_reserve (src h : ℕ) (key : Key) (hc : Consistent s) :
    Consistent (reserve src h key s).2.2 := by
  have hentry := entry_reserve src h key s
  rcases reserve_cases src h key s with
    ⟨hne, -, hsources, hkeys⟩ | ⟨haccepted, -, -, -, hfresh, hkeys, -⟩
  · refine hc.congr hkeys fun src' h' key' => ?_
    simp [hentry, hne]
  · simp only [haccepted, true_and] at hentry
    have hnone := entry_none_of_fresh hc hfresh
    refine ⟨fun key' token => ?_, fun src₁ h₁ src₂ h₂ key' token token' he he' => ?_⟩
    · simp only [hkeys, Table.find_insert, hentry]
      by_cases hk : key' = key
      · subst hk
        simp only [if_true, and_true, Option.some.injEq]
        constructor
        · intro htoken
          exact ⟨src, h, by simp [htoken]⟩
        · rintro ⟨src', h', he⟩
          split at he
          · exact Option.some.inj he
          · rw [hnone] at he
            cases he
      · simp only [hk, if_false, and_false, hc.keys_iff]
    · rw [hentry] at he he'
      by_cases hk : key' = key
      · subst hk
        simp only [and_true, hnone] at he he'
        split at he
        · split at he'
          · next h₁ h₂ => exact ⟨h₁.1.trans h₂.1.symm, h₁.2.trans h₂.2.symm⟩
          · cases he'
        · cases he
      · simp only [hk, and_false, if_false] at he he'
        exact hc.unique _ _ _ _ _ _ _ he he'

theorem held_iff (r : Reservation) :
    held s r = true ↔ r.token ≠ 0 ∧ entry s r.sourceId r.height r.key = some r.token := by
  simp [held]

theorem hasHeight_of_held {r : Reservation} (h : held s r = true) :
    hasHeight s r.sourceId r.height = true := by
  obtain ⟨-, hentry⟩ := (held_iff r).mp h
  obtain ⟨b, hb, -⟩ := Option.bind_eq_some_iff.mp hentry
  simp [hasHeight, hb]

/-- Outside `reserve` and `release` a reservation is held exactly as long as its bucket. -/
theorem Maintains.held {sourceId : ℕ} {heights : List ℕ} (h : Maintains sourceId heights s s')
    (r : Reservation) : held s' r = true ↔
      GlobalShareCache.held s r = true ∧ hasHeight s' r.sourceId r.height = true := by
  constructor
  · intro hheld
    refine ⟨?_, hasHeight_of_held hheld⟩
    rw [held_iff] at hheld ⊢
    obtain ⟨htoken, hentry⟩ := hheld
    obtain ⟨after, ha, hfind⟩ := Option.bind_eq_some_iff.mp hentry
    cases hb : bucket s r.sourceId r.height with
    | none =>
        rw [(h.created _ _ after hb ha).2.2] at hfind
        cases hfind
    | some before =>
        rw [h.kept _ _ before after hb ha] at hfind
        exact ⟨htoken, by simp [entry, hb, hfind]⟩
  · rintro ⟨hheld, hbucket⟩
    rw [held_iff] at hheld ⊢
    obtain ⟨htoken, hentry⟩ := hheld
    obtain ⟨before, hb, hfind⟩ := Option.bind_eq_some_iff.mp hentry
    obtain ⟨after, ha⟩ := Option.isSome_iff_exists.mp hbucket
    rw [← h.kept _ _ before after hb ha] at hfind
    exact ⟨htoken, by simp [entry, ha, hfind]⟩

/-- A release affects the reservation that it names and no other. -/
theorem held_release (r r' : Reservation) :
    held (release r' s) r = (held s r && decide (r ≠ r')) := by
  rw [Bool.eq_iff_iff, Bool.and_eq_true, held_iff, held_iff, entry_release, decide_eq_true_eq]
  constructor
  · rintro ⟨htoken, hentry⟩
    split at hentry
    · cases hentry
    · next hother =>
      refine ⟨⟨htoken, hentry⟩, ?_⟩
      rintro rfl
      exact hother ⟨(held_iff r).mpr ⟨htoken, hentry⟩, rfl, rfl, rfl⟩
  · rintro ⟨⟨htoken, hentry⟩, hne⟩
    refine ⟨htoken, ?_⟩
    rw [if_neg]
    · exact hentry
    · rintro ⟨hheld, hsrc, hheight, hkey⟩
      apply hne
      have hentry' := ((held_iff r').mp hheld).2
      rw [← hsrc, ← hheight, ← hkey, hentry] at hentry'
      cases r
      cases r'
      simp_all

/-- A reservation that is granted is new, and granting it affects no other one. -/
theorem held_reserve (hc : Consistent s) (src h : ℕ) (key : Key) (r : Reservation) :
    held (reserve src h key s).2.2 r = (held s r ||
      decide ((reserve src h key s).1 = .accepted ∧ r = (reserve src h key s).2.1)) := by
  rw [Bool.eq_iff_iff, Bool.or_eq_true, held_iff, held_iff, entry_reserve, decide_eq_true_eq]
  constructor
  · rintro ⟨htoken, hentry⟩
    split at hentry
    · next hnew =>
      obtain ⟨haccepted, hsrc, hheight, hkey⟩ := hnew
      right
      refine ⟨haccepted, ?_⟩
      rw [(reserve_accepted haccepted).2.1]
      cases r
      simp_all
    · exact Or.inl ⟨htoken, hentry⟩
  · rintro (⟨htoken, hentry⟩ | ⟨haccepted, rfl⟩)
    · refine ⟨htoken, ?_⟩
      rw [if_neg]
      · exact hentry
      · rintro ⟨haccepted, -, -, rfl⟩
        have hglobal := (hc.keys_iff r.key r.token).mpr ⟨_, _, hentry⟩
        rw [(reserve_accepted haccepted).2.2.2.2] at hglobal
        cases hglobal
    · have hr := (reserve_accepted haccepted).2.1
      refine ⟨?_, ?_⟩
      · rw [hr]
        exact nextToken_ne_zero s.sequence
      · rw [hr, if_pos ⟨haccepted, rfl, rfl, rfl⟩]

/-- A granted reservation is none that was held before. -/
theorem not_held_of_accepted (hc : Consistent s) {src h : ℕ} {key : Key}
    (haccepted : (reserve src h key s).1 = .accepted) :
    held s (reserve src h key s).2.1 = false := by
  rw [Bool.eq_false_iff]
  intro hheld
  obtain ⟨-, hr, -, -, hnone⟩ := reserve_accepted haccepted
  obtain ⟨-, hentry⟩ := (held_iff _).mp hheld
  rw [hr] at hentry
  have := (hc.keys_iff key _).mpr ⟨_, _, hentry⟩
  rw [hnone] at this
  cases this

theorem bucket_eraseHeights (sourceId : ℕ) (heights : List ℕ) (s : State) (src h : ℕ) :
    bucket (heights.foldl (fun s height => eraseHeight sourceId height s) s) src h =
      if src = sourceId ∧ h ∈ heights then none else bucket s src h := by
  induction heights generalizing s with
  | nil => simp
  | cons height rest ih =>
      rw [List.foldl_cons, ih, bucket_eraseHeight]
      by_cases hsrc : src = sourceId
      · by_cases hh : h = height <;> simp [hsrc, hh]
      · simp [hsrc]

theorem bucket_eraseSource (sourceId : ℕ) (source : SourceEntries) (s : State) (src h : ℕ)
    (hs : s.sources.find sourceId = some source) :
    bucket (source.heights.keys.foldl (fun s height => eraseHeight sourceId height s) s) src h =
      if src = sourceId then none else bucket s src h := by
  rw [bucket_eraseHeights]
  by_cases hsrc : src = sourceId
  · subst hsrc
    by_cases hmem : h ∈ source.heights.keys
    · simp [hmem]
    · have hnone : source.heights.find h = none := by
        cases hfind : source.heights.find h with
        | none => rfl
        | some v => exact absurd (source.heights.mem_keys.mpr ⟨v, hfind⟩) hmem
      simp [bucket, hs, hnone]
  · simp [hsrc]

theorem bucket_removeSource (sourceId src h : ℕ) (s : State) :
    bucket (removeSource sourceId s) src h = if src = sourceId then none else bucket s src h := by
  unfold removeSource
  cases hs : s.sources.find sourceId with
  | none =>
      by_cases hsrc : src = sourceId
      · simp [hsrc, bucket, hs]
      · simp [hsrc]
  | some source =>
      have herased := bucket_eraseSource sourceId source
        { s with owners := s.owners.filter fun _ owner => owner.sourceId ≠ sourceId } src h hs
      by_cases hsrc : src = sourceId
      · simp [hsrc, bucket]
      · rw [if_neg hsrc] at herased ⊢
        simp only [bucket, Table.find_erase, hsrc, if_false] at herased ⊢
        exact herased

theorem shrinks_removeSource (sourceId : ℕ) (s : State) :
    Shrinks s (removeSource sourceId s) := by
  unfold removeSource
  cases hs : s.sources.find sourceId with
  | none => exact Shrinks.refl s
  | some source =>
      have hforget : Shrinks s
          { s with owners := s.owners.filter fun _ owner => owner.sourceId ≠ sourceId } :=
        ⟨fun _ _ after h => ⟨after, h, rfl⟩, fun hc => hc.congr rfl fun _ _ _ => rfl, rfl⟩
      have hfold := hforget.trans (Shrinks.foldl _
        (fun s height => shrinks_eraseHeight sourceId height s) source.heights.keys _)
      have herased := fun src h => bucket_eraseSource sourceId source
        { s with owners := s.owners.filter fun _ owner => owner.sourceId ≠ sourceId } src h hs
      have hsame : ∀ t : State, (∀ h, bucket t sourceId h = none) → ∀ src h,
          bucket { t with sources := t.sources.erase sourceId } src h = bucket t src h := by
        intro t ht src h
        by_cases hsrc : src = sourceId
        · subst hsrc
          rw [ht]
          simp [bucket]
        · simp [bucket, Table.find_erase, hsrc]
      have hempty := fun h => (herased sourceId h).trans (if_pos rfl)
      refine hfold.trans ⟨fun src h after ha => ?_, fun hc => hc.congr rfl fun src h key => ?_, rfl⟩
      · exact ⟨after, (hsame _ hempty src h).symm.trans ha, rfl⟩
      · simp only [entry, hsame _ hempty]

end Consistency

end XmrigProxy.GlobalShareCache
