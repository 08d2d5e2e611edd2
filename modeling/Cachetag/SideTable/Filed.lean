import Cachetag.SideTable.Index

/-! The objects of an index are filed in its side tables: each slot in exactly one live bucket, to which
    the probe for its object leads. What the operations do to that. -/

namespace Cachetag.SideIndex
open LinearProbe SideTable

variable {α β : Type*} {H : SideHash α} {s : SideIndex α β} {oc : α} {ent : ObjEnt α β} {r r' : Bool} {i j f a c : Nat} {t : SideTable}

/-- A bucket of one of the two tables. -/
def bucketAt (s : SideIndex α β) (r : Bool) (i : Nat) : SideBucket := (s.table r).bucket i

@[simp] theorem table_false : s.table false = s.primary := rfl

@[simp] theorem table_true : s.table true = s.retiring := rfl

theorem table_setTable : (s.setTable r t).table r' = if r' = r then t else s.table r' := by
  cases r <;> cases r' <;> rfl

theorem length_ocs : s.ocs.length = s.objects.length := List.length_map _

theorem getElem?_ocs : s.ocs[a]? = s.objects[a]?.map (·.oc) := List.getElem?_map

theorem lt_of_ocs (h : s.ocs[a]? = some oc) : a < s.objects.length :=
  length_ocs ▸ (List.getElem?_eq_some_iff.mp h).1

theorem ocs_congr {s' : SideIndex α β} (h : s'.objects = s.objects) : s'.ocs = s.ocs := by rw [ocs, h, ocs]

/-- Each table has an EMPTY bucket: none has become full. -/
def Open (s : SideIndex α β) : Prop := ∀ r, (s.table r).buckets ≠ 0 → 0 < (s.table r).empties

instance (s : SideIndex α β) : Decidable s.Open :=
  inferInstanceAs (Decidable (∀ r : Bool, (s.table r).buckets ≠ 0 → 0 < (s.table r).empties))

@[simp] theorem objects_setTable : (s.setTable r t).objects = s.objects := by
  cases r <;> rfl

/-- An index on which every lookup ends with an answer. -/
structure Searchable (s : SideIndex α β) : Prop where
  sum : s.objects.length = s.primary.live + s.retiring.live
  tables : ∀ r, (s.table r).buckets ≠ 0 → (s.table r).Scannable s.ocs

/-- Every object of an index is filed under its own hash, once. -/
structure Filed (H : SideHash α) (s : SideIndex α β) : Prop where
  nodup : s.ocs.Nodup
  few : s.objects.length ≤ sideMaxObjects
  sum : s.objects.length = s.primary.live + s.retiring.live
  intact : ∀ r, (s.table r).Intact
  entry : ∀ r i f a, s.bucketAt r i = .live f a →
    ∃ oc, s.ocs[a]? = some oc ∧ f = H.mark oc ∧ Path H (s.table r) oc i
  uniq : ∀ r i f r' i' f' a, s.bucketAt r i = .live f a → s.bucketAt r' i' = .live f' a → r = r' ∧ i = i'
  cover : ∀ a < s.objects.length, ∃ r i f, s.bucketAt r i = .live f a

theorem Filed.searchable (h : Filed H s) (ho : s.Open) : s.Searchable where
  sum := h.sum
  tables r hr :=
    { pow := (h.intact r).pow hr
      room := ho r hr
      slots := fun i f a hb => by
        obtain ⟨oc, ho, -⟩ := h.entry r i f a hb
        exact (List.getElem?_eq_some_iff.mp ho).1 }

theorem Filed.slot_unique (h : Filed H s) (ha : s.ocs[a]? = some oc) (hc : s.ocs[c]? = some oc) : a = c :=
  (List.getElem?_inj (List.getElem?_eq_some_iff.mp ha).1 h.nodup).mp (ha.trans hc.symm)

section Find
variable [DecidableEq α]

variable (H) in
theorem Searchable.table_absent (h : s.Searchable) (hno : Lacks s.ocs (s.table r) oc) :
    (s.table r).find H s.ocs oc = .absent := by
  by_cases hr : (s.table r).buckets = 0
  · rw [SideTable.find, if_pos hr]
  · exact (h.tables r hr).find_absent H hno

variable (H) in
theorem Searchable.find_absent (h : s.Searchable) (hno : ∀ r, Lacks s.ocs (s.table r) oc) :
    s.find H oc = .absent := by
  have hp : s.primary.find H s.ocs oc = .absent := h.table_absent H (hno false)
  have hr : s.retiring.find H s.ocs oc = .absent := h.table_absent H (hno true)
  rw [find, if_neg (not_not.mpr h.sum), hp, hr]

/-- The one live bucket of an object is found. -/
theorem Searchable.find_found (h : s.Searchable) (hb : s.bucketAt r i = .live (H.mark oc) a)
    (ha : s.ocs[a]? = some oc) (hp : Path H (s.table r) oc i)
    (huniq : ∀ r' j f c, s.bucketAt r' j = .live f c → s.ocs[c]? = some oc → r' = r ∧ j = i) :
    s.find H oc = .found ⟨r, i, a⟩ := by
  have hin : (s.table r).buckets ≠ 0 := by
    have := lt_of_live hb
    omega
  have hfound := (h.tables r hin).find_found hb ha hp fun j f c hj ho => (huniq r j f c hj ho).2
  have hother : (s.table !r).find H s.ocs oc = .absent := by
    refine h.table_absent H fun j f c hj ho => ?_
    have := (huniq (!r) j f c hj ho).1
    cases r <;> cases this
  rw [find, if_neg (not_not.mpr h.sum)]
  cases r with
  | false =>
    rw [table_false] at hfound
    rw [Bool.not_false, table_true] at hother
    simp only [hfound, hother, ne_eq, not_true_eq_false, and_false, if_false]
  | true =>
    rw [table_true] at hfound
    rw [Bool.not_true, table_false] at hother
    simp only [hfound, hother]

theorem Filed.find_absent (h : Filed H s) (hopen : s.Open) (hno : oc ∉ s.ocs) : s.find H oc = .absent :=
  (h.searchable hopen).find_absent H fun _ _ _ _ _ ho => hno (List.mem_of_getElem? ho)

theorem Filed.find_found (h : Filed H s) (hopen : s.Open) (ha : s.ocs[a]? = some oc) :
    ∃ r i, s.find H oc = .found ⟨r, i, a⟩ ∧ s.bucketAt r i = .live (H.mark oc) a := by
  obtain ⟨r, i, f, hb⟩ := h.cover a (lt_of_ocs ha)
  obtain ⟨oc', ho, rfl, hp⟩ := h.entry r i f a hb
  cases ha.symm.trans ho
  refine ⟨r, i, (h.searchable hopen).find_found hb ha hp fun r' j g c hj hc => ?_, hb⟩
  cases h.slot_unique ha hc
  obtain ⟨hr, hi⟩ := h.uniq r i _ r' j g a hb hj
  exact ⟨hr.symm, hi.symm⟩

theorem Filed.find_ne_corrupt (h : Filed H s) (hopen : s.Open) (oc : α) : s.find H oc ≠ .corrupt := by
  by_cases ho : oc ∈ s.ocs
  · obtain ⟨a, ha⟩ := List.mem_iff_getElem?.mp ho
    obtain ⟨r, i, hf, -⟩ := h.find_found hopen ha
    rw [hf]
    simp
  · rw [h.find_absent hopen ho]
    simp

end Find

/-! ### Publications -/

theorem Filed.new : Filed H (SideIndex.new : SideIndex α β) where
  nodup := List.nodup_nil
  few := Nat.zero_le _
  sum := rfl
  intact r := by cases r <;> exact Intact.null
  entry r i f a hb := by cases r <;> cases hb
  uniq r i f _ _ _ a hb := by cases r <;> cases hb
  cover a ha := absurd ha (Nat.not_lt_zero a)

/-- A table without live buckets. -/
structure Vacant (t : SideTable) : Prop where
  intact : t.Intact
  live : t.live = 0

theorem Vacant.null : Vacant .null := ⟨.null, rfl⟩

theorem Vacant.fresh {n : Nat} (hn : PowTwo n) : Vacant (.fresh n) := ⟨.fresh hn, rfl⟩

theorem not_live (ht : t.Intact) (hl : t.live = 0) : t.bucket i ≠ .live f a := by
  intro hb
  have := ht.live_pos hb
  omega

/-- The tables change places or not, and tables without live buckets come and go. -/
theorem Filed.shuffled (h : Filed H s) {s' : SideIndex α β} (hobj : s'.objects = s.objects) (p : Bool → Bool)
    (hp : ∀ r, p (p r) = r)
    (htab : ∀ r, s'.table r = s.table (p r) ∨ Vacant (s'.table r) ∧ (s.table (p r)).live = 0) : Filed H s' := by
  have hlive : ∀ r, (s'.table r).live = (s.table (p r)).live := by
    intro r
    rcases htab r with heq | ⟨hv, hl⟩
    · rw [heq]
    · rw [hv.live, hl]
  -- A live bucket is in a table that was there before.
  have hat : ∀ {r i f a}, s'.bucketAt r i = .live f a → s.bucketAt (p r) i = .live f a ∧ s'.table r = s.table (p r) := by
    intro r i f a hb
    rcases htab r with heq | ⟨hv, -⟩
    · exact ⟨by rwa [bucketAt, heq] at hb, heq⟩
    · exact absurd hb (not_live hv.intact hv.live)
  exact
    { nodup := ocs_congr hobj ▸ h.nodup
      few := hobj ▸ h.few
      sum := by
        have hsum : (s.table (p false)).live + (s.table (p true)).live = s.primary.live + s.retiring.live := by
          have h₀ := hp false
          have h₁ := hp true
          cases hf : p false <;> cases ht : p true <;> simp_all [Nat.add_comm]
        rw [hobj, h.sum, ← hsum, ← hlive, ← hlive]
        rfl
      intact := fun r => by
        rcases htab r with heq | ⟨hv, -⟩
        · exact heq ▸ h.intact (p r)
        · exact hv.intact
      entry := fun r i f a hb => by
        obtain ⟨hb, heq⟩ := hat hb
        rw [ocs_congr hobj, heq]
        exact h.entry (p r) i f a hb
      uniq := fun r i f r' i' f' a hb hb' => by
        obtain ⟨hr, hi⟩ := h.uniq _ i f _ i' f' a (hat hb).1 (hat hb').1
        exact ⟨by rw [← hp r, hr, hp], hi⟩
      cover := fun a ha => by
        obtain ⟨r, i, f, hb⟩ := h.cover a (hobj ▸ ha)
        rw [← hp r] at hb
        rcases htab (p r) with heq | ⟨-, hl⟩
        · exact ⟨p r, i, f, by rw [bucketAt, heq]; exact hb⟩
        · exact absurd hb (not_live (h.intact _) hl) }

/-! ### Writes of one bucket -/

/-- A step writes one bucket, and what it writes is not EMPTY. -/
structure Writes (s s' : SideIndex α β) (r : Bool) (i : Nat) (b : SideBucket) : Prop where
  other : ∀ r' ≠ r, s'.table r' = s.table r'
  buckets : (s'.table r).buckets = (s.table r).buckets
  bucket : ∀ j, (s'.table r).bucket j = if j = i then b else (s.table r).bucket j
  filled : b ≠ .empty

section Write
variable {s' : SideIndex α β} {b : SideBucket}

theorem Writes.fill (hi : i < s.primary.buckets) (objects : List (ObjEnt α β)) :
    Writes s { s with primary := s.primary.fill i f a, objects } false i (.live f a) where
  other r' hr := by
    cases r' with
    | false => exact absurd rfl hr
    | true => rfl
  buckets := buckets_fill
  bucket j := bucket_fill hi
  filled := by simp

theorem Writes.bucketAt (h : Writes s s' r i b) (r' : Bool) (j : Nat) :
    s'.bucketAt r' j = if r' = r ∧ j = i then b else s.bucketAt r' j := by
  unfold SideIndex.bucketAt
  by_cases hr : r' = r
  · simp only [hr, true_and, h.bucket]
  · simp only [hr, false_and, if_false, h.other r' hr]

/-- No probe chain gets shorter. -/
theorem Writes.path (h : Writes s s' r i b) {r' : Bool} {j : Nat} {y : α} (hy : Path H (s.table r') y j) :
    Path H (s'.table r') y j := by
  by_cases hr : r' = r
  · subst hr
    refine hy.congr h.buckets fun q hq => ?_
    rw [h.bucket]
    split
    · exact h.filled
    · exact hq
  · rw [h.other r' hr]
    exact hy

theorem Writes.intactAll (h : Writes s s' r i b) (hi : ∀ r, (s.table r).Intact) (hw : (s'.table r).Intact) (r' : Bool) :
    (s'.table r').Intact := by
  by_cases hr : r' = r
  · rw [hr]
    exact hw
  · rw [h.other r' hr]
    exact hi r'

end Write

/-! ### Inserts -/

/-- An object that is attached takes a free bucket on its path. -/
theorem Filed.attached (h : Filed H s) (hi : i < s.primary.buckets)
    (hfree : s.primary.bucket i = .tombstone ∨ s.primary.bucket i = .empty) (hp : Path H s.primary ent.oc i)
    (hnew : ent.oc ∉ s.ocs) (hfew : s.objects.length < sideMaxObjects) :
    Filed H { s with
      primary := s.primary.fill i (H.mark ent.oc) s.objects.length
      objects := s.objects ++ [ent] } := by
  have hw := Writes.fill (f := H.mark ent.oc) (a := s.objects.length) hi (s.objects ++ [ent])
  generalize hs' : ({ s with primary := s.primary.fill i (H.mark ent.oc) s.objects.length, objects := s.objects ++ [ent] } :
    SideIndex α β) = s' at hw
  have hobj : s'.objects = s.objects ++ [ent] := by rw [← hs']
  have hprim : s'.primary = s.primary.fill i (H.mark ent.oc) s.objects.length := by rw [← hs']
  have hret : s'.retiring = s.retiring := by rw [← hs']
  have hocs : s'.ocs = s.ocs ++ [ent.oc] := by rw [ocs, hobj, List.map_append, List.map_singleton, ocs]
  -- No live bucket has the new slot, which is behind the others.
  have hold : ∀ {r j f a}, s.bucketAt r j = .live f a → a < s.objects.length := by
    intro r j f a hb
    obtain ⟨x, hx, -⟩ := h.entry r j f a hb
    rw [← length_ocs]
    exact (List.getElem?_eq_some_iff.mp hx).1
  have hne : ∀ {r j f a}, s.bucketAt r j = .live f a → ¬(r = false ∧ j = i) := by
    rintro r j f a hb ⟨rfl, rfl⟩
    rcases hfree with hf | hf <;> exact absurd (hf.symm.trans hb) (by simp)
  exact
    { nodup := by
        rw [hocs]
        exact List.nodup_append.mpr ⟨h.nodup, List.nodup_singleton _, by
          rintro a ha _ hb rfl
          exact hnew (List.mem_singleton.mp hb ▸ ha)⟩
      few := by
        rw [hobj, List.length_append]
        exact hfew
      sum := by
        rw [hobj, hprim, hret, live_fill, List.length_append, h.sum, List.length_singleton]
        omega
      intact := hw.intactAll h.intact (by
        rw [table_false, hprim]
        exact (h.intact false).fill hi hfree)
      entry := fun r j f a hb => by
        rw [hw.bucketAt] at hb
        split at hb
        · rename_i hrj
          obtain ⟨rfl, rfl⟩ := hrj
          cases hb
          exact ⟨ent.oc, by simp [hocs, ← length_ocs], rfl, hw.path hp⟩
        · obtain ⟨x, hx, hf, hx'⟩ := h.entry r j f a hb
          refine ⟨x, ?_, hf, hw.path hx'⟩
          rw [hocs, List.getElem?_append_left (length_ocs ▸ hold hb)]
          exact hx
      uniq := fun r j f r' j' f' a hb hb' => by
        rw [hw.bucketAt] at hb hb'
        split at hb <;> split at hb'
        · rename_i h₁ h₂
          exact ⟨h₁.1.trans h₂.1.symm, h₁.2.trans h₂.2.symm⟩
        · cases hb
          exact absurd (hold hb') (Nat.lt_irrefl _)
        · cases hb'
          exact absurd (hold hb) (Nat.lt_irrefl _)
        · exact h.uniq r j f r' j' f' a hb hb'
      cover := fun a ha => by
        rw [hobj, List.length_append, List.length_singleton] at ha
        rcases Nat.lt_succ_iff_lt_or_eq.mp ha with hlt | rfl
        · obtain ⟨r, j, f, hb⟩ := h.cover a hlt
          exact ⟨r, j, f, by rw [hw.bucketAt, if_neg (hne hb)]; exact hb⟩
        · exact ⟨false, i, _, by rw [hw.bucketAt, if_pos ⟨rfl, rfl⟩]⟩ }

/-- An object that migrates takes a free bucket of the primary table and leaves a tombstone behind. -/
theorem Filed.migrated (h : Filed H s) (hb : s.retiring.bucket c = .live f a) (ho : s.ocs[a]? = some oc)
    (hi : i < s.primary.buckets) (hfree : s.primary.bucket i = .tombstone ∨ s.primary.bucket i = .empty)
    (hp : Path H s.primary oc i) :
    Filed H { s with primary := s.primary.fill i (H.mark oc) a, retiring := s.retiring.bury c } := by
  have hfill := Writes.fill (f := H.mark oc) (a := a) hi s.objects
  have hbury : Writes { s with primary := s.primary.fill i (H.mark oc) a }
      { s with primary := s.primary.fill i (H.mark oc) a, retiring := s.retiring.bury c } true c .tombstone :=
    { other := fun r' hr => by
        cases r' with
        | false => rfl
        | true => exact absurd rfl hr
      buckets := buckets_bury
      bucket := fun j => bucket_bury (lt_of_live hb)
      filled := by simp }
  generalize hs' : ({ s with primary := s.primary.fill i (H.mark oc) a, retiring := s.retiring.bury c } :
    SideIndex α β) = s' at hbury
  have hobj : s'.objects = s.objects := by rw [← hs']
  have hprim : s'.primary = s.primary.fill i (H.mark oc) a := by rw [← hs']
  have hret : s'.retiring = s.retiring.bury c := by rw [← hs']
  have hat : ∀ r j, s'.bucketAt r j =
      if r = true ∧ j = c then .tombstone else if r = false ∧ j = i then .live (H.mark oc) a else s.bucketAt r j :=
    fun r j => by rw [hbury.bucketAt, hfill.bucketAt]
  have hpath : ∀ r j (x : α), Path H (s.table r) x j → Path H (s'.table r) x j := fun r j x hx =>
    hbury.path (hfill.path hx)
  -- The bucket that is taken was not live.
  have hne : ∀ {r j g b}, s.bucketAt r j = .live g b → ¬(r = false ∧ j = i) := by
    rintro r j g b hb ⟨rfl, rfl⟩
    rcases hfree with hf | hf <;> exact absurd (hf.symm.trans hb) (by simp)
  -- The other live buckets are those of before, and none of them has the slot that moves.
  have hold : ∀ {r j g b}, s'.bucketAt r j = .live g b → (r = false ∧ j = i ∧ g = H.mark oc ∧ b = a) ∨
      (s.bucketAt r j = .live g b ∧ b ≠ a) := by
    intro r j g b hj
    rw [hat] at hj
    split at hj
    · cases hj
    · rename_i hrc
      split at hj
      · rename_i hrj
        cases hj
        exact .inl ⟨hrj.1, hrj.2, rfl, rfl⟩
      · refine .inr ⟨hj, ?_⟩
        rintro rfl
        exact hrc (h.uniq r j g true c f b hj hb)
  exact
    { nodup := ocs_congr hobj ▸ h.nodup
      few := hobj ▸ h.few
      sum := by
        have hpos := (h.intact true).live_pos hb
        rw [table_true] at hpos
        rw [hobj, hprim, hret, live_fill, live_bury, h.sum]
        omega
      intact := fun r => by
        cases r with
        | false =>
          rw [table_false, hprim]
          exact (h.intact false).fill hi hfree
        | true =>
          rw [table_true, hret]
          exact (h.intact true).bury hb
      entry := fun r j g b hj => by
        rw [ocs_congr hobj]
        rcases hold hj with ⟨rfl, rfl, rfl, rfl⟩ | ⟨hj, -⟩
        · exact ⟨oc, ho, rfl, hpath false j oc hp⟩
        · obtain ⟨x, hx, hg, hx'⟩ := h.entry r j g b hj
          exact ⟨x, hx, hg, hpath r j x hx'⟩
      uniq := fun r j g r' j' g' b hj hj' => by
        rcases hold hj with ⟨rfl, rfl, -, hba⟩ | ⟨hj, hba⟩
        · rcases hold hj' with ⟨rfl, rfl, -, -⟩ | ⟨-, hba'⟩
          · exact ⟨rfl, rfl⟩
          · exact absurd hba hba'
        · rcases hold hj' with ⟨-, -, -, hba'⟩ | ⟨hj', -⟩
          · exact absurd hba' hba
          · exact h.uniq r j g r' j' g' b hj hj'
      cover := fun b hlt => by
        rw [hobj] at hlt
        by_cases hba : b = a
        · exact ⟨false, i, H.mark oc, by rw [hat, if_neg (by simp), if_pos ⟨rfl, rfl⟩, hba]⟩
        · obtain ⟨r, j, g, hj⟩ := h.cover b hlt
          refine ⟨r, j, g, ?_⟩
          rw [hat, if_neg, if_neg (hne hj)]
          · exact hj
          · rintro ⟨rfl, rfl⟩
            cases hj.symm.trans hb
            exact hba rfl }

/-! ### Removals -/

/-- An index about to lose an object. Its bucket `loc` is still live, with the slot `x` in it. The objects
    but the one of slot `k`, which is no longer wanted there, are filed in the other buckets. -/
structure Holed (H : SideHash α) (s : SideIndex α β) (loc : SideLocation) (x k : Nat) : Prop where
  hole : k < s.objects.length
  bucket : ∃ f, s.bucketAt loc.retiring loc.bucket = .live f x
  stale : x < s.objects.length
  few : s.objects.length ≤ sideMaxObjects
  sum : s.objects.length = s.primary.live + s.retiring.live
  distinct : ∀ a b oc, a ≠ k → b ≠ k → s.ocs[a]? = some oc → s.ocs[b]? = some oc → a = b
  intact : ∀ r, (s.table r).Intact
  entry : ∀ r i f a, s.bucketAt r i = .live f a → ¬(r = loc.retiring ∧ i = loc.bucket) →
    a ≠ k ∧ ∃ oc, s.ocs[a]? = some oc ∧ f = H.mark oc ∧ Path H (s.table r) oc i
  uniq : ∀ r i f r' i' f' a, s.bucketAt r i = .live f a → s.bucketAt r' i' = .live f' a →
    ¬(r = loc.retiring ∧ i = loc.bucket) → ¬(r' = loc.retiring ∧ i' = loc.bucket) → r = r' ∧ i = i'
  cover : ∀ a < s.objects.length, a ≠ k →
    ∃ r i f, s.bucketAt r i = .live f a ∧ ¬(r = loc.retiring ∧ i = loc.bucket)

section Removal
variable {loc : SideLocation} {x k src : Nat}

theorem Filed.holed (h : Filed H s) (ha : s.ocs[a]? = some oc) (hb : s.bucketAt r i = .live f a) :
    Holed H s ⟨r, i, a⟩ a a where
  hole := lt_of_ocs ha
  bucket := ⟨f, hb⟩
  stale := lt_of_ocs ha
  few := h.few
  sum := h.sum
  distinct _ _ _ _ _ hb hc := h.slot_unique hb hc
  intact := h.intact
  entry r' j g b hj hne := by
    refine ⟨?_, h.entry r' j g b hj⟩
    rintro rfl
    exact hne (h.uniq r' j g r i f b hj hb)
  uniq r j g r' j' g' b hj hj' _ _ := h.uniq r j g r' j' g' b hj hj'
  cover b hlt hne := by
    obtain ⟨r', j, g, hj⟩ := h.cover b hlt
    refine ⟨r', j, g, hj, ?_⟩
    rintro ⟨rfl, rfl⟩
    cases hj.symm.trans hb
    exact hne rfl

theorem Holed.searchable (h : Holed H s loc x k) (hopen : s.Open) : s.Searchable where
  sum := h.sum
  tables r hr :=
    { pow := (h.intact r).pow hr
      room := hopen r hr
      slots := fun i f a hb => by
        by_cases hl : r = loc.retiring ∧ i = loc.bucket
        · obtain ⟨rfl, rfl⟩ := hl
          obtain ⟨g, hg⟩ := h.bucket
          cases hb.symm.trans hg
          exact length_ocs ▸ h.stale
        · obtain ⟨-, oc, ho, -⟩ := h.entry r i f a hb hl
          exact (List.getElem?_eq_some_iff.mp ho).1 }

/-- What a removal does to the tables: live buckets become tombstones or change their slot. -/
structure Thins (s s' : SideIndex α β) : Prop where
  buckets : ∀ r, (s'.table r).buckets = (s.table r).buckets
  empties : ∀ r, (s'.table r).empties = (s.table r).empties
  live : ∀ r, (s'.table r).live ≤ (s.table r).live
  bucket : ∀ r i f a, s'.bucketAt r i = .live f a → ∃ b, s.bucketAt r i = .live f b
  cursor : s'.migrateCursor = s.migrateCursor
  active : s'.migrationActive = s.migrationActive
  sweepActive : s'.sweepActive = s.sweepActive

theorem Thins.refl : Thins s s := ⟨fun _ => rfl, fun _ => rfl, fun _ => Nat.le_refl _, fun _ _ _ a h => ⟨a, h⟩, rfl, rfl, rfl⟩

theorem Thins.trans {s₁ s₂ s₃ : SideIndex α β} (h₁ : Thins s₁ s₂) (h₂ : Thins s₂ s₃) : Thins s₁ s₃ where
  buckets r := (h₂.buckets r).trans (h₁.buckets r)
  empties r := (h₂.empties r).trans (h₁.empties r)
  live r := (h₂.live r).trans (h₁.live r)
  bucket r i f a h := by
    obtain ⟨b, hb⟩ := h₂.bucket r i f a h
    exact h₁.bucket r i f b hb
  cursor := h₂.cursor.trans h₁.cursor
  active := h₂.active.trans h₁.active
  sweepActive := h₂.sweepActive.trans h₁.sweepActive

@[simp] theorem migrateCursor_setTable : (s.setTable r t).migrateCursor = s.migrateCursor := by
  cases r <;> rfl

@[simp] theorem migrationActive_setTable : (s.setTable r t).migrationActive = s.migrationActive := by
  cases r <;> rfl

@[simp] theorem sweepActive_setTable : (s.setTable r t).sweepActive = s.sweepActive := by
  cases r <;> rfl

@[simp] theorem sweepRemaining_setTable : (s.setTable r t).sweepRemaining = s.sweepRemaining := by
  cases r <;> rfl

/-- The bucket that is written was live. -/
structure Rewrites (s s' : SideIndex α β) (r : Bool) (i : Nat) (b : SideBucket) : Prop extends Writes s s' r i b where
  empties : (s'.table r).empties = (s.table r).empties
  live : (s'.table r).live ≤ (s.table r).live
  intact : (s.table r).Intact → (s'.table r).Intact
  cursor : s'.migrateCursor = s.migrateCursor
  active : s'.migrationActive = s.migrationActive
  sweepActive : s'.sweepActive = s.sweepActive
  sweepRemaining : s'.sweepRemaining = s.sweepRemaining

section Rewrite
variable {s' : SideIndex α β} {b : SideBucket}

theorem Rewrites.reslot (hb : s.bucketAt r i = .live f a) (objects : List (ObjEnt α β)) (k : Nat) :
    Rewrites s (({ s with objects } : SideIndex α β).setTable r ((s.table r).reslot i k)) r i (.live f k) where
  other r' hr := by
    rw [table_setTable, if_neg hr]
    cases r' <;> rfl
  buckets := by rw [table_setTable, if_pos rfl, buckets_reslot hb]
  empties := by rw [table_setTable, if_pos rfl, empties_reslot hb]
  live := by rw [table_setTable, if_pos rfl, live_reslot hb]
  intact h := by
    rw [table_setTable, if_pos rfl]
    exact h.reslot hb
  bucket j := by rw [table_setTable, if_pos rfl, bucket_reslot hb]
  filled := by simp
  cursor := migrateCursor_setTable
  active := migrationActive_setTable
  sweepActive := sweepActive_setTable
  sweepRemaining := sweepRemaining_setTable

theorem Rewrites.bury (hb : s.bucketAt r i = .live f a) :
    Rewrites s (s.dropLast ⟨r, i, c⟩) r i .tombstone := by
  have htab : ∀ r', (s.dropLast ⟨r, i, c⟩).table r' = if r' = r then (s.table r).bury i else s.table r' := fun r' => by
    rw [← table_setTable]
    rfl
  exact
    { other := fun r' hr => (htab r').trans (if_neg hr)
      buckets := by rw [htab, if_pos rfl, buckets_bury]
      empties := by rw [htab, if_pos rfl, empties_bury hb]
      live := by
        rw [htab, if_pos rfl, live_bury]
        exact Nat.sub_le _ _
      intact := fun h => by
        rw [htab, if_pos rfl]
        exact h.bury hb
      bucket := fun j => by rw [htab, if_pos rfl, bucket_bury (lt_of_live hb)]
      filled := by simp
      cursor := migrateCursor_setTable
      active := migrationActive_setTable
      sweepActive := sweepActive_setTable
      sweepRemaining := sweepRemaining_setTable }

/-- The one table loses what the written bucket loses. -/
theorem Rewrites.liveSum (h : Rewrites s s' r i b) {lost : Nat}
    (hlost : (s'.table r).live + lost = (s.table r).live) :
    s'.primary.live + s'.retiring.live + lost = s.primary.live + s.retiring.live := by
  have hother := h.other (!r) (by cases r <;> simp)
  cases r with
  | false =>
    have hret : s'.retiring = s.retiring := hother
    have hprim : s'.primary.live + lost = s.primary.live := hlost
    rw [hret]
    omega
  | true =>
    have hprim : s'.primary = s.primary := hother
    have hret : s'.retiring.live + lost = s.retiring.live := hlost
    rw [hprim]
    omega

theorem Rewrites.thins (h : Rewrites s s' r i b) (hkept : ∀ g a, b = .live g a → ∃ c, s.bucketAt r i = .live g c) :
    Thins s s' where
  buckets r' := by
    by_cases hr : r' = r
    · subst hr
      exact h.buckets
    · rw [h.other r' hr]
  empties r' := by
    by_cases hr : r' = r
    · subst hr
      exact h.empties
    · rw [h.other r' hr]
  live r' := by
    by_cases hr : r' = r
    · subst hr
      exact h.live
    · rw [h.other r' hr]
  bucket r' j g a hj := by
    rw [h.bucketAt] at hj
    split at hj
    · rename_i hrj
      obtain ⟨rfl, rfl⟩ := hrj
      exact hkept g a hj
    · exact ⟨a, hj⟩
  cursor := h.cursor
  active := h.active
  sweepActive := h.sweepActive

end Rewrite

/-- The object of slot `src` is copied to slot `k`, and its bucket gets the new slot. The hole is then at `src`. -/
theorem Holed.moved (h : Holed H s loc x k) {s' : SideIndex α β} (hne : src ≠ k) (hsrc : s.ocs[src]? = some oc)
    (hb : s.bucketAt r i = .live (H.mark oc) src) (hloc : ¬(r = loc.retiring ∧ i = loc.bucket))
    (hp : Path H (s.table r) oc i) (hw : Rewrites s s' r i (.live (H.mark oc) k))
    (hlive : (s'.table r).live = (s.table r).live) (hocs : s'.ocs = s.ocs.set k oc) : Holed H s' loc x src := by
  have hlen : s'.objects.length = s.objects.length := by rw [← length_ocs, hocs, List.length_set, length_ocs]
  exact
    { hole := hlen ▸ lt_of_ocs hsrc
      bucket := by
        obtain ⟨g, hg⟩ := h.bucket
        refine ⟨g, ?_⟩
        rw [hw.bucketAt, if_neg fun hl => hloc ⟨hl.1.symm, hl.2.symm⟩]
        exact hg
      stale := hlen ▸ h.stale
      few := hlen ▸ h.few
      sum := by
        have hsum : s'.primary.live + s'.retiring.live + 0 = s.primary.live + s.retiring.live := hw.liveSum hlive
        rw [hlen, h.sum]
        exact hsum.symm
      distinct := fun a b o ha hb hoa hob => by
        have hdistinct := h.distinct
        rw [hocs] at hoa hob
        grind
      intact := hw.intactAll h.intact (hw.intact (h.intact _))
      entry := fun r' j g b hj hl => by
        rw [hw.bucketAt] at hj
        split at hj
        · rename_i hrj
          obtain ⟨rfl, rfl⟩ := hrj
          cases hj
          exact ⟨hne.symm, oc, by rw [hocs, List.getElem?_set_self (length_ocs ▸ h.hole)], rfl, hw.path hp⟩
        · rename_i hrj
          obtain ⟨hbk, y, hy, hg, hy'⟩ := h.entry r' j g b hj hl
          refine ⟨?_, y, ?_, hg, hw.path hy'⟩
          · rintro rfl
            exact hrj (h.uniq r' j g r i _ b hj hb hl hloc)
          · rw [hocs, List.getElem?_set_ne hbk.symm]
            exact hy
      uniq := fun r₁ j₁ g₁ r₂ j₂ g₂ b h₁ h₂ hl₁ hl₂ => by
        rw [hw.bucketAt] at h₁ h₂
        -- no other bucket has the slot `k`
        split at h₁ <;> split at h₂
        · rename_i e₁ e₂
          exact ⟨e₁.1.trans e₂.1.symm, e₁.2.trans e₂.2.symm⟩
        · cases h₁
          exact absurd rfl (h.entry r₂ j₂ g₂ k h₂ hl₂).1
        · cases h₂
          exact absurd rfl (h.entry r₁ j₁ g₁ k h₁ hl₁).1
        · exact h.uniq r₁ j₁ g₁ r₂ j₂ g₂ b h₁ h₂ hl₁ hl₂
      cover := fun b hlt' hbs => by
        rw [hlen] at hlt'
        by_cases hbk : b = k
        · exact ⟨r, i, H.mark oc, by rw [hw.bucketAt, if_pos ⟨rfl, rfl⟩, hbk], hloc⟩
        · obtain ⟨r', j, g, hj, hl⟩ := h.cover b hlt' hbk
          refine ⟨r', j, g, ?_, hl⟩
          rw [hw.bucketAt, if_neg]
          · exact hj
          · rintro ⟨rfl, rfl⟩
            cases hj.symm.trans hb
            exact hbs rfl }

section Move
variable [DecidableEq α]

/-- An object but that of the hole is found where it is filed, also with the dead bucket still in its table. -/
theorem Holed.find (h : Holed H s loc x k) (hopen : s.Open) (hsrc : s.ocs[src]? = some oc) (hstale : s.ocs[x]? ≠ some oc)
    (hne : src ≠ k) :
    ∃ r i, s.find H oc = .found ⟨r, i, src⟩ ∧ s.bucketAt r i = .live (H.mark oc) src ∧
      ¬(r = loc.retiring ∧ i = loc.bucket) ∧ Path H (s.table r) oc i := by
  obtain ⟨r, i, f, hb, hloc⟩ := h.cover src (lt_of_ocs hsrc) hne
  obtain ⟨-, oc', ho, rfl, hp⟩ := h.entry r i f src hb hloc
  cases hsrc.symm.trans ho
  refine ⟨r, i, ?_, hb, hloc, hp⟩
  refine (h.searchable hopen).find_found hb hsrc hp fun r' j g c hj hc => ?_
  by_cases hl : r' = loc.retiring ∧ j = loc.bucket
  · -- the dead bucket has the slot `x`, where there is another object
    obtain ⟨rfl, rfl⟩ := hl
    obtain ⟨g', hg⟩ := h.bucket
    cases hj.symm.trans hg
    exact absurd hc hstale
  · obtain ⟨hck, -⟩ := h.entry r' j g c hj hl
    cases h.distinct c src oc hck hne hc hsrc
    exact h.uniq r' j g r i _ _ hj hb hl hloc

/-- Moving an object into the hole leaves a hole where it was. -/
theorem Holed.move (h : Holed H s loc x k) (hopen : s.Open) (hent : s.objects[src]? = some ent)
    (hstale : s.ocs[x]? ≠ some ent.oc) (hne : src ≠ k) :
    ∃ s', s.moveObject H loc src k = (s', none) ∧ Holed H s' loc x src ∧ Thins s s' ∧
      s'.objects = s.objects.set k ent ∧ s'.sweepRemaining = s.sweepRemaining := by
  have hsrc : s.ocs[src]? = some ent.oc := by rw [getElem?_ocs, hent, Option.map_some]
  obtain ⟨r, i, hfind, hb, hloc, hp⟩ := h.find hopen hsrc hstale hne
  have hmax : ¬sideMaxObjects ≤ k := by
    have := h.hole
    have := h.few
    omega
  have hw := Rewrites.reslot hb (s.objects.set k ent) k
  generalize hs' : ({ s with objects := s.objects.set k ent } : SideIndex α β).setTable r ((s.table r).reslot i k) = s' at hw
  have hobj : s'.objects = s.objects.set k ent := by rw [← hs', objects_setTable]
  have hocs : s'.ocs = s.ocs.set k ent.oc := by rw [ocs, hobj, List.map_set, ocs]
  have hlive : (s'.table r).live = (s.table r).live := by
    rw [← hs', table_setTable, if_pos rfl]
    exact live_reslot hb
  have hmove : s.moveObject H loc src k = (s', none) := by
    rw [moveObject, hent]
    simp only [hfind]
    rw [if_neg hloc, if_neg (not_not.mpr rfl), if_neg hmax, ← hs']
    cases r <;> rfl
  refine ⟨s', hmove, h.moved hne hsrc hb hloc hp hw hlive hocs, hw.thins fun g a heq => ?_, hobj, hw.sweepRemaining⟩
  cases heq
  exact ⟨src, hb⟩

end Move

/-- The bucket of the removed object becomes a tombstone and the last slot goes, which is the hole. -/
theorem Holed.filed (h : Holed H s loc x (s.objects.length - 1)) {s' : SideIndex α β}
    (hw : Rewrites s s' loc.retiring loc.bucket .tombstone)
    (hlive : (s'.table loc.retiring).live + 1 = (s.table loc.retiring).live)
    (hobj : s'.objects = s.objects.dropLast) : Filed H s' := by
  have hpos := h.hole
  have hocs : s'.ocs = s.ocs.dropLast := by rw [ocs, hobj, ocs, List.map_dropLast]
  have hlen : s'.objects.length = s.objects.length - 1 := by rw [hobj, List.length_dropLast]
  -- The written bucket is a tombstone, and the other ones are as they were.
  have hold : ∀ {r i g a}, s'.bucketAt r i = .live g a →
      s.bucketAt r i = .live g a ∧ ¬(r = loc.retiring ∧ i = loc.bucket) := by
    intro r i g a hi
    rw [hw.bucketAt] at hi
    split at hi
    · cases hi
    · rename_i hne
      exact ⟨hi, hne⟩
  exact
    { nodup := by
        rw [hocs, List.nodup_iff_getElem?_ne_getElem?]
        intro a b hab hlt heq
        rw [List.length_dropLast, length_ocs] at hlt
        have hy := List.getElem?_eq_getElem (show b < s.ocs.length by rw [length_ocs]; omega)
        have hsame := h.distinct a b _ (by omega) (by omega) (by grind) hy
        omega
      few := by
        have := h.few
        omega
      sum := by
        have hsum := hw.liveSum hlive
        rw [← h.sum] at hsum
        omega
      intact := hw.intactAll h.intact (hw.intact (h.intact _))
      entry := fun r' j g b hj => by
        obtain ⟨hj, hl⟩ := hold hj
        obtain ⟨hbk, y, hy, hg, hy'⟩ := h.entry r' j g b hj hl
        refine ⟨y, ?_, hg, hw.path hy'⟩
        have hlt := lt_of_ocs hy
        rw [hocs, List.getElem?_dropLast, length_ocs, if_pos (by omega)]
        exact hy
      uniq := fun r₁ j₁ g₁ r₂ j₂ g₂ b h₁ h₂ => by
        obtain ⟨h₁, hl₁⟩ := hold h₁
        obtain ⟨h₂, hl₂⟩ := hold h₂
        exact h.uniq r₁ j₁ g₁ r₂ j₂ g₂ b h₁ h₂ hl₁ hl₂
      cover := fun b hlt => by
        rw [hlen] at hlt
        obtain ⟨r', j, g, hj, hl⟩ := h.cover b (by omega) (by omega)
        refine ⟨r', j, g, ?_⟩
        rw [hw.bucketAt, if_neg hl]
        exact hj }

/-- With the hole at the last slot, the object can be dropped. -/
theorem Holed.drop (h : Holed H s loc x (s.objects.length - 1)) :
    Filed H (s.dropLast loc) ∧ Thins s (s.dropLast loc) ∧
      (s.dropLast loc).objects = s.objects.dropLast ∧ (s.dropLast loc).sweepRemaining = s.sweepRemaining := by
  obtain ⟨f, hb⟩ := h.bucket
  have hw : Rewrites s (s.dropLast loc) loc.retiring loc.bucket .tombstone := Rewrites.bury hb
  have hlive : ((s.dropLast loc).table loc.retiring).live + 1 = (s.table loc.retiring).live := by
    have htab : (s.dropLast loc).table loc.retiring = (s.table loc.retiring).bury loc.bucket :=
      table_setTable.trans (if_pos rfl)
    have hpos := (h.intact loc.retiring).live_pos hb
    rw [htab, live_bury]
    omega
  refine ⟨h.filed hw hlive rfl, hw.thins fun g a heq => ?_, rfl, hw.sweepRemaining⟩
  cases heq

theorem Holed.sweptTo (h : Holed H s loc x k) (n : Nat) : Holed H { s with sweepRemaining := n } loc x k :=
  ⟨h.hole, h.bucket, h.stale, h.few, h.sum, h.distinct, h.intact, h.entry, h.uniq, h.cover⟩

section Remove
variable [DecidableEq α]

/-- A move that is not needed, or done: the hole is where the object was. -/
theorem Holed.moveIf (h : Holed H s loc x k) (hopen : s.Open) (hent : s.objects[src]? = some ent)
    (hstale : src ≠ k → s.ocs[x]? ≠ some ent.oc) :
    ∃ s', (if k ≠ src then s.moveObject H loc src k else (s, none)) = (s', none) ∧ Holed H s' loc x src ∧
      Thins s s' ∧ s'.objects = s.objects.set k ent ∧ s'.sweepRemaining = s.sweepRemaining := by
  by_cases hk : k = src
  · subst hk
    obtain ⟨hlt, rfl⟩ := List.getElem?_eq_some_iff.mp hent
    exact ⟨s, if_neg (not_not.mpr rfl), h, .refl, (List.set_getElem_self hlt).symm, rfl⟩
  · obtain ⟨s', hm, hrest⟩ := h.move hopen hent (hstale (Ne.symm hk)) (Ne.symm hk)
    exact ⟨s', by rw [if_pos hk, hm], hrest⟩

/-- The slot whose object goes into the slot of a removed one. The last object takes its place. -/
def boundary (s : SideIndex α β) (a : Nat) : Nat :=
  if s.sweepActive = true ∧ a < s.sweepRemaining then s.sweepRemaining - 1 else s.objects.length - 1

omit [DecidableEq α] in
theorem Thins.open (h : Thins s s') (hopen : s.Open) : s'.Open := by
  intro r hr
  rw [h.buckets] at hr
  rw [h.empties]
  exact hopen r hr

omit [DecidableEq α] in
theorem dropLast_set_last {γ : Type*} (l : List γ) (y : γ) : (l.set (l.length - 1) y).dropLast = l.dropLast := by
  rw [List.dropLast_eq_take, List.dropLast_eq_take, List.length_set, List.take_set_of_le (Nat.le_refl _)]

/-- A removal never fails as long as no table is full, and leaves the other objects filed. -/
theorem Filed.remove (h : Filed H s) (hopen : s.Open) (ha : a < s.objects.length)
    (hsweep : s.sweepActive = true → s.sweepRemaining ≤ s.objects.length) :
    ∃ s' eb el, s.remove H a = (s', none) ∧ Filed H s' ∧ Thins s s' ∧
      s.objects[s.boundary a]? = some eb ∧ s.objects[s.objects.length - 1]? = some el ∧
      s'.objects = ((s.objects.set a eb).set (s.boundary a) el).dropLast ∧
      s'.sweepRemaining = if s.sweepActive = true ∧ a < s.sweepRemaining then s.sweepRemaining - 1
        else s.sweepRemaining := by
  have ho := List.getElem?_eq_getElem ha
  have hoc : s.ocs[a]? = some s.objects[a].oc := by rw [getElem?_ocs, ho, Option.map_some]
  obtain ⟨r, i, hfind, hb⟩ := h.find_found hopen hoc
  have hholed := h.holed hoc hb
  -- The objects at different slots differ, so that the dead bucket is never taken for that of a moved one.
  have hnodup : ∀ {b c}, b < s.objects.length → b ≠ c → s.ocs[b]? ≠ s.ocs[c]? := by
    intro b c hb hbc heq
    exact hbc ((List.getElem?_inj (length_ocs ▸ hb) h.nodup).mp heq)
  have hel := List.getElem?_eq_getElem (show s.objects.length - 1 < s.objects.length by omega)
  rw [SideIndex.remove, ho]
  simp only [hfind]
  -- Below the sweep the hole goes to the boundary first and then to the last slot, elsewhere to the last slot at once.
  by_cases hin : s.sweepActive = true ∧ a < s.sweepRemaining
  · obtain ⟨hact, hlt⟩ := hin
    have hle := hsweep hact
    have hbound : s.boundary a = s.sweepRemaining - 1 := if_pos ⟨hact, hlt⟩
    have heb := List.getElem?_eq_getElem (show s.sweepRemaining - 1 < s.objects.length by omega)
    rw [if_neg (by simp [hact]; omega), if_neg (by omega)]
    obtain ⟨s₁, hm, hh, hthin, hobj, hrem⟩ := hholed.moveIf hopen heb fun hne => by
      have := hnodup ha (Ne.symm hne)
      rwa [getElem?_ocs (a := s.sweepRemaining - 1), heb, Option.map_some] at this
    rw [hm]
    dsimp only
    have hlast : s.boundary a ≠ s.objects.length - 1 →
        s₁.objects[s.objects.length - 1]? = some s.objects[s.objects.length - 1] := by
      intro hne
      rw [hobj, List.getElem?_set_ne (by omega), hel]
    obtain ⟨el, hel₁, hel'⟩ : ∃ el, s₁.objects[s.objects.length - 1]? = some el ∧
        (s.boundary a ≠ s.objects.length - 1 → el = s.objects[s.objects.length - 1]) := by
      have hlt₁ : s.objects.length - 1 < s₁.objects.length := by
        rw [hobj, List.length_set]
        omega
      refine ⟨_, List.getElem?_eq_getElem hlt₁, fun hne => ?_⟩
      exact Option.some.inj ((List.getElem?_eq_getElem hlt₁).symm.trans (hlast hne))
    obtain ⟨s₂, hm₂, hh₂, hthin₂, hobj₂, hrem₂⟩ := hh.moveIf (hthin.open hopen) hel₁ fun hne => by
      rw [hel' (by omega), ocs, hobj, List.map_set, List.getElem?_set_self (by simpa using ha)]
      have := hnodup (b := s.sweepRemaining - 1) (c := s.objects.length - 1) (by omega) (Ne.symm hne)
      rw [getElem?_ocs, heb, getElem?_ocs, hel] at this
      exact this
    rw [hm₂]
    have hlen₂ : s₂.objects.length = s.objects.length := by rw [hobj₂, hobj, List.length_set, List.length_set]
    rw [← hlen₂] at hh₂
    obtain ⟨hf, hthin', hobj', hrem'⟩ := (hh₂.sweptTo (s₂.sweepRemaining - 1)).drop
    have hthin₃ : Thins s₂ { s₂ with sweepRemaining := s₂.sweepRemaining - 1 } :=
      ⟨fun r => by cases r <;> rfl, fun r => by cases r <;> rfl, fun r => by cases r <;> exact Nat.le_refl _,
        fun r i f a h => ⟨a, by cases r <;> exact h⟩, rfl, rfl, rfl⟩
    refine ⟨_, _, _, rfl, hf, ((hthin.trans hthin₂).trans hthin₃).trans hthin', by rw [hbound, heb], hel, ?_, ?_⟩
    · rw [hobj']
      show s₂.objects.dropLast = _
      rw [hobj₂, hobj, hbound]
      by_cases hlast' : s.sweepRemaining - 1 = s.objects.length - 1
      · -- The object at the boundary is the last one: what is stored there is dropped.
        have hset : ∀ y, ((s.objects.set a s.objects[s.sweepRemaining - 1]).set (s.sweepRemaining - 1) y).dropLast =
            (s.objects.set a s.objects[s.sweepRemaining - 1]).dropLast := by
          intro y
          have := dropLast_set_last (s.objects.set a s.objects[s.sweepRemaining - 1]) y
          rwa [List.length_set, ← hlast'] at this
        rw [hset, hset]
      · rw [hel' (by omega)]
    · rw [hrem', if_pos ⟨hact, hlt⟩]
      show s₂.sweepRemaining - 1 = _
      omega
  · have hbound : s.boundary a = s.objects.length - 1 := if_neg hin
    have hoff : !s.sweepActive ∨ s.sweepRemaining ≤ a := by
      by_cases hact : s.sweepActive = true
      · exact .inr (by by_contra hlt; exact hin ⟨hact, by omega⟩)
      · exact .inl (by simpa using hact)
    rw [if_pos (by simpa using hoff)]
    obtain ⟨s₁, hm, hh, hthin, hobj, hrem⟩ := hholed.moveIf hopen hel fun hne => by
      have := hnodup ha (Ne.symm hne)
      rwa [getElem?_ocs (a := s.objects.length - 1), hel, Option.map_some] at this
    rw [hm]
    have hlen : s₁.objects.length = s.objects.length := by rw [hobj, List.length_set]
    rw [← hlen] at hh
    obtain ⟨hf, hthin', hobj', hrem'⟩ := hh.drop
    refine ⟨_, _, _, rfl, hf, hthin.trans hthin', by rw [hbound, hel], hel, ?_, ?_⟩
    · have := dropLast_set_last (s.objects.set a s.objects[s.objects.length - 1]) s.objects[s.objects.length - 1]
      rw [List.length_set] at this
      rw [hobj', hobj, hbound, this]
    · rw [hrem', hrem, if_neg hin]

end Remove
end Removal

end Cachetag.SideIndex
