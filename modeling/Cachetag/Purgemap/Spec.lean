import Cachetag.Purgemap.Map

/-! What each operation of the purge map does to the entries the map stands for, up to their order. -/

namespace Cachetag.Purgemap
open LinearProbe

/-! ### Capacity -/

section Capacity
variable {need fuel nslot r : Nat}

theorem loop_bound (need nslot : Nat) (hn : initialSlots ≤ nslot) : need * 100 ≤ nslot * 2 ^ need * maxLoadPercent := by
  have hlt : need < 2 ^ need := Nat.lt_two_pow_self
  have h16 : 16 * 2 ^ need ≤ nslot * 2 ^ need := Nat.mul_le_mul_right _ hn
  unfold maxLoadPercent
  omega

theorem roomFor_spec (hp : PowTwo nslot) (hf : need * 100 ≤ nslot * 2 ^ fuel * maxLoadPercent) :
    PowTwo (roomFor need fuel nslot) ∧ nslot ≤ roomFor need fuel nslot ∧
      need * 100 ≤ roomFor need fuel nslot * maxLoadPercent := by
  induction fuel generalizing nslot with
  | zero => exact ⟨hp, Nat.le_refl _, by simpa [roomFor] using hf⟩
  | succ fuel ih =>
    rw [roomFor]
    split
    · obtain ⟨hpow, hle, hroom⟩ := ih hp.double (by rwa [Nat.mul_assoc nslot 2, ← Nat.pow_succ'])
      exact ⟨hpow, by omega, hroom⟩
    · exact ⟨hp, Nat.le_refl _, by omega⟩

variable (fuel) in
/-- No table of a size that would do is smaller. -/
theorem roomFor_le {n : Nat} (hp : PowTwo nslot) (hn : PowTwo n) (hle : nslot ≤ n)
    (hroom : need * 100 ≤ n * maxLoadPercent) : roomFor need fuel nslot ≤ n := by
  induction fuel generalizing nslot with
  | zero => exact hle
  | succ fuel ih =>
    rw [roomFor]
    split
    · rename_i hfull
      refine ih hp.double (hp.double_le hn (Nat.lt_of_le_of_ne hle fun heq => ?_))
      rw [heq] at hfull
      omega
    · exact hle

theorem roomForChecked_spec (hp : PowTwo nslot) (hf : need * 100 ≤ nslot * 2 ^ fuel * maxLoadPercent)
    (hr : roomForChecked need fuel nslot = some r) : r = roomFor need fuel nslot := by
  induction fuel generalizing nslot with
  | zero => exact (Option.some.inj hr).symm
  | succ fuel ih =>
    rw [roomForChecked] at hr
    rw [roomFor]
    split at hr
    · split at hr
      · cases hr
      · rename_i hgt _
        rw [if_pos hgt]
        exact ih hp.double (by rwa [Nat.mul_assoc nslot 2, ← Nat.pow_succ']) hr
    · rename_i hle
      rw [if_neg hle]
      exact (Option.some.inj hr).symm

/-- Where such a table can be counted, the check of the loop never strikes. -/
theorem roomForChecked_eq {n : Nat} (hp : PowTwo nslot) (hn : PowTwo n) (hle : nslot ≤ n)
    (hroom : need * 100 ≤ n * maxLoadPercent) (hmax : n ≤ sizeMax / 2) :
    roomForChecked need fuel nslot = some (roomFor need fuel nslot) := by
  induction fuel generalizing nslot with
  | zero => rfl
  | succ fuel ih =>
    rw [roomForChecked, roomFor]
    by_cases hfull : need * 100 > nslot * maxLoadPercent
    · rw [if_pos hfull, if_pos hfull, if_neg (by omega)]
      refine ih hp.double (hp.double_le hn (Nat.lt_of_le_of_ne hle fun heq => ?_))
      rw [heq] at hfull
      omega
    · rw [if_neg hfull, if_neg hfull]

theorem atLeast_spec {minslot : Nat} (hp : PowTwo nslot) (hf : minslot ≤ nslot * 2 ^ fuel) :
    PowTwo (atLeast minslot fuel nslot) ∧ nslot ≤ atLeast minslot fuel nslot ∧
      minslot ≤ atLeast minslot fuel nslot := by
  induction fuel generalizing nslot with
  | zero => exact ⟨hp, Nat.le_refl _, by simpa [atLeast] using hf⟩
  | succ fuel ih =>
    rw [atLeast]
    split
    · obtain ⟨hpow, hle, hmin⟩ := ih hp.double (by rwa [Nat.mul_assoc nslot 2, ← Nat.pow_succ'])
      exact ⟨hpow, by omega, hmin⟩
    · exact ⟨hp, Nat.le_refl _, by omega⟩

end Capacity

/-! ### Maps that are in order -/

/-- The table and the counters of a map agree, and the table has room. -/
structure Map.WF (pm : Map) : Prop where
  table : ∀ t, pm.table = some t → t.WF ∧ pm.nentry * 100 ≤ t.nslot * maxLoadPercent
  count : pm.nentry = pm.live.length
  tomb : pm.ntombstone = 0

/-- No entry and no floor is above a bound, and no entry is without a purge. -/
structure Map.Below (pm : Map) (b : Nat) : Prop where
  live : ∀ e ∈ pm.live, e.hardSeq ≤ b ∧ e.softSeq ≤ b ∧ 0 < e.newest
  hard : pm.hardFloor ≤ b
  soft : pm.softFloor ≤ b

/-- Two maps stand for the same entries, floors and sequence. -/
structure Map.Same (pm pm' : Map) : Prop where
  live : pm'.live.Perm pm.live
  seq : pm'.seq = pm.seq
  hard : pm'.hardFloor = pm.hardFloor
  soft : pm'.softFloor = pm.softFloor

/-- `k` more entries fit into the table without a rebuild. -/
def Map.Room (pm : Map) (k : Nat) : Prop :=
  ∃ t, pm.table = some t ∧ (pm.nentry + k) * 100 ≤ t.nslot * maxLoadPercent

section WF
variable {pm pm' : Map} {t : Table} {b b' : Nat}

theorem Map.Same.rfl' : pm.Same pm := ⟨List.Perm.refl _, rfl, rfl, rfl⟩

theorem Map.Below.mono (h : pm.Below b) (hb : b ≤ b') : pm.Below b' :=
  ⟨fun e he => ⟨(h.live e he).1.trans hb, (h.live e he).2.1.trans hb, (h.live e he).2.2⟩, h.hard.trans hb,
    h.soft.trans hb⟩

theorem Map.Below.same (h : pm.Below b) (hs : pm.Same pm') : pm'.Below b :=
  ⟨fun e he => h.live e (hs.live.mem_iff.mp he), hs.hard ▸ h.hard, hs.soft ▸ h.soft⟩

theorem Map.WF.init : Map.init.WF :=
  ⟨fun t ht => (by cases ht), rfl, rfl⟩

theorem Map.live_some (ht : pm.table = some t) : pm.live = t.live := by
  simp [Map.live, ht]

/-- A table filled to at most 70 percent has an empty slot. -/
theorem Table.WF.room_of_load (h : t.WF) {n : Nat} (hload : n * 100 ≤ t.nslot * maxLoadPercent) : n < t.nslot := by
  have := h.pow.pos
  unfold maxLoadPercent at hload
  omega

theorem Map.WF.room (h : pm.WF) (ht : pm.table = some t) : t.live.length < t.nslot := by
  obtain ⟨hwf, hload⟩ := h.table t ht
  rw [h.count, Map.live_some ht] at hload
  exact hwf.room_of_load hload

theorem Map.WF.nodup (h : pm.WF) : (pm.live.map (·.fold)).Nodup := by
  cases ht : pm.table with
  | none => simp [Map.live, ht]
  | some t =>
    rw [Map.live_some ht]
    exact (h.table t ht).1.nodup

theorem Map.live_live {e : Entry} (he : e ∈ pm.live) : e.Live := by
  cases ht : pm.table with
  | none => simp [Map.live, ht] at he
  | some t =>
    rw [Map.live_some ht] at he
    exact (Table.mem_live_iff.mp he).1

end WF

/-! ### Copies -/

section Copies
variable {t : Table} {es : List Entry}

variable (es) in
/-- Copying entries of distinct folds into a table that lacks them and has room. -/
theorem insertAll_spec (h : t.WF) (hl : ∀ e ∈ es, e.Live) (hnd : (es.map (·.fold)).Nodup)
    (hnew : ∀ e ∈ es, ∀ x ∈ t.live, x.fold ≠ e.fold) (hroom : t.live.length + es.length < t.nslot) :
    ∃ t', insertAll es t = .ok t' ∧ t'.WF ∧ t'.nslot = t.nslot ∧ t'.live.Perm (es ++ t.live) := by
  induction es generalizing t with
  | nil => exact ⟨t, rfl, h, rfl, List.Perm.refl _⟩
  | cons e es ih =>
    simp only [List.length_cons] at hroom
    simp only [List.map_cons, List.nodup_cons, List.mem_map, not_exists, not_and] at hnd
    obtain ⟨t₁, hins, hwf, hnslot, hperm⟩ := h.insertExisting (by omega) (hl e List.mem_cons_self)
      (hnew e List.mem_cons_self)
    obtain ⟨t₂, hall, hwf₂, hnslot₂, hperm₂⟩ := ih hwf (fun x hx => hl x (List.mem_cons_of_mem _ hx)) hnd.2
      (fun x hx y hy => by
        rcases List.mem_cons.mp (hperm.mem_iff.mp hy) with rfl | hy
        · exact fun heq => hnd.1 x hx heq.symm
        · exact hnew x (List.mem_cons_of_mem _ hx) y hy)
      (by rw [hperm.length_eq, hnslot, List.length_cons]; omega)
    refine ⟨t₂, by rw [insertAll, hins]; exact hall, hwf₂, hnslot₂.trans hnslot, hperm₂.trans ?_⟩
    exact (hperm.append_left es).trans (List.perm_middle)

variable (es) in
theorem insertAll_new {n : Nat} (hp : PowTwo n) (hbig : initialSlots ≤ n) (hl : ∀ e ∈ es, e.Live)
    (hnd : (es.map (·.fold)).Nodup) (hroom : es.length < n) :
    ∃ t', insertAll es (Table.new n) = .ok t' ∧ t'.WF ∧ t'.nslot = n ∧ t'.live.Perm es := by
  obtain ⟨t', hall, hwf, hnslot, hperm⟩ := insertAll_spec es (Table.WF.new hp hbig) hl hnd
    (fun e _ x hx => by simp [Table.live_new] at hx) (by simpa [Table.live_new] using hroom)
  exact ⟨t', hall, hwf, by simpa using hnslot, by simpa [Table.live_new] using hperm⟩

theorem tableNew_eq {alloc : Bool} {n : Nat} (h : tableNew alloc n = some t) : t = Table.new n := by
  unfold tableNew at h
  split at h
  · exact (Option.some.inj h).symm
  · cases h

end Copies

/-! ### Rebuilds -/

section Rebuild
variable {env : Env} {pm pm' : Map} {minslot k : Nat} {grow : Bool}

variable (grow) in
theorem Map.WF.base (h : pm.WF) : PowTwo (baseSlots pm grow) ∧ initialSlots ≤ baseSlots pm grow ∧
    pm.nentry * 100 ≤ baseSlots pm grow * maxLoadPercent := by
  unfold baseSlots
  cases ht : pm.table with
  | none =>
    have hcount := h.count
    simp only [Map.live, ht] at hcount
    exact ⟨⟨4, rfl⟩, Nat.le_refl _, by rw [hcount]; simp⟩
  | some old =>
    obtain ⟨hwf, hload⟩ := h.table old ht
    cases grow with
    | false => exact ⟨hwf.pow, hwf.big, hload⟩
    | true =>
      refine ⟨hwf.pow.double, by have := hwf.big; simp only [if_true]; omega, ?_⟩
      simp only [if_true]
      unfold maxLoadPercent at hload ⊢
      omega

variable (env minslot grow) in
/-- A rebuild copies the map into a table of at least the wanted size, or fails for want of memory. -/
theorem rebuild_spec (h : pm.WF) :
    (∃ pm' t, rebuild env pm minslot grow = .ok pm' ∧ pm'.WF ∧ pm.Same pm' ∧ pm'.table = some t ∧
      minslot ≤ t.nslot ∧ baseSlots pm grow ≤ t.nslot) ∨
    (rebuild env pm minslot grow = .error .enomem ∧
      tableNew env.tableAlloc (atLeast minslot minslot (baseSlots pm grow)) = none) := by
  obtain ⟨hpow, hbig, hload⟩ := h.base grow
  have hfuel : minslot ≤ baseSlots pm grow * 2 ^ minslot :=
    (Nat.lt_two_pow_self (n := minslot)).le.trans (Nat.le_mul_of_pos_left _ hpow.pos)
  obtain ⟨hpow', hle, hmin⟩ := atLeast_spec hpow hfuel
  have hload' : pm.nentry * 100 ≤ atLeast minslot minslot (baseSlots pm grow) * maxLoadPercent :=
    hload.trans (Nat.mul_le_mul_right _ hle)
  cases halloc : tableNew env.tableAlloc (atLeast minslot minslot (baseSlots pm grow)) with
  | none =>
    exact Or.inr ⟨by simp only [rebuild, halloc], rfl⟩
  | some fresh =>
    obtain rfl := tableNew_eq halloc
    have hroom : pm.live.length < atLeast minslot minslot (baseSlots pm grow) := by
      rw [← h.count]
      simpa using (Table.WF.new hpow' (hbig.trans hle)).room_of_load (by simpa using hload')
    obtain ⟨t, hins, hwf, hnslot, hperm⟩ :=
      insertAll_new pm.live hpow' (hbig.trans hle) (fun _ he => Map.live_live he) h.nodup hroom
    refine Or.inl ⟨{ pm with table := some t, ntombstone := 0 }, t, ?_, ⟨?_, ?_, rfl⟩, ⟨hperm, rfl, rfl, rfl⟩, rfl,
      by omega, by omega⟩
    · simp only [rebuild, halloc, hins]
    · rintro _ ⟨⟩
      exact ⟨hwf, by rw [hnslot]; exact hload'⟩
    · exact h.count.trans hperm.length_eq.symm

theorem Map.WF.no_rebuild (h : pm.WF) : needsSameSizeRebuild pm = false := by
  unfold needsSameSizeRebuild
  cases ht : pm.table with
  | none => rfl
  | some t =>
    obtain ⟨hwf, hload⟩ := h.table t ht
    have hbig := hwf.big
    simp only [h.tomb, emptySlots, Bool.or_eq_false_iff, decide_eq_false_iff_not, not_lt, not_le,
      initialSlots, emptyMinDivisor, maxLoadPercent] at *
    omega

theorem Map.Same.nentry (hs : pm.Same pm') (h : pm.WF) (h' : pm'.WF) : pm'.nentry = pm.nentry := by
  rw [h'.count, h.count, hs.live.length_eq]

variable (env) in
/-- A single upsert is prepared, or memory is short. -/
theorem prepareUpsert_spec (h : pm.WF) :
    (∃ pm', prepareUpsert env pm = .ok pm' ∧ pm'.WF ∧ pm.Same pm' ∧ pm'.Room 1) ∨
    prepareUpsert env pm = .error .enomem := by
  unfold prepareUpsert
  cases ht : pm.table with
  | none =>
    simp only
    rcases rebuild_spec env initialSlots true h with
      ⟨pm', t, hok, hwf, hs, ht', hmin, -⟩ | ⟨herr, -⟩
    · refine Or.inl ⟨pm', hok, hwf, hs, t, ht', ?_⟩
      have hcount := h.count
      simp only [Map.live, ht] at hcount
      rw [hs.nentry h hwf, hcount]
      unfold initialSlots maxLoadPercent at *
      simp
      omega
    · exact Or.inr herr
  | some t =>
    obtain ⟨hwft, hload⟩ := h.table t ht
    simp only [h.no_rebuild, Bool.false_eq_true, if_false]
    by_cases hfull : (pm.nentry + 1) * 100 > t.nslot * maxLoadPercent
    · rw [if_pos hfull]
      rcases rebuild_spec env (t.nslot * 2) true h with
        ⟨pm', t', hok, hwf, hs, ht', hmin, -⟩ | ⟨herr, -⟩
      · refine Or.inl ⟨pm', hok, hwf, hs, t', ht', ?_⟩
        have hbig := hwft.big
        rw [hs.nentry h hwf]
        unfold initialSlots maxLoadPercent at *
        omega
      · exact Or.inr herr
    · rw [if_neg hfull]
      exact Or.inl ⟨pm, rfl, h, Map.Same.rfl', t, ht, by omega⟩

variable (env k) in
/-- A batch is prepared, or memory or the size of the table is short. -/
theorem prepareBatch_spec (h : pm.WF) :
    (∃ pm', prepareBatch env pm k = .ok pm' ∧ pm'.WF ∧ pm.Same pm' ∧ (0 < k → pm'.Room k)) ∨
    (∃ f, prepareBatch env pm k = .error f ∧ f ≠ .loops) := by
  have hbase : PowTwo (pm.table.elim initialSlots Table.nslot) ∧
      initialSlots ≤ pm.table.elim initialSlots Table.nslot := by
    cases ht : pm.table with
    | none => exact ⟨⟨4, rfl⟩, Nat.le_refl _⟩
    | some t => exact ⟨(h.table t ht).1.pow, (h.table t ht).1.big⟩
  have hfuel := loop_bound (pm.nentry + k) _ hbase.2
  unfold prepareBatch
  split
  · exact Or.inr ⟨.eoverflow, rfl, by decide⟩
  split
  · exact Or.inr ⟨.eoverflow, rfl, by decide⟩
  · rename_i nslot hr
    obtain rfl := roomForChecked_spec hbase.1 hfuel hr
    obtain ⟨-, hle, hroom⟩ := roomFor_spec hbase.1 hfuel
    dsimp only
    split
    · rename_i hstay
      simp only [Bool.and_eq_true, Bool.not_eq_true', Option.all_eq_false, decide_eq_false_iff_not, not_lt] at hstay
      obtain ⟨⟨t, ht, hfit⟩, -⟩ := hstay
      rw [ht, Option.elim_some] at hle hroom hfit
      refine Or.inl ⟨pm, rfl, h, Map.Same.rfl', fun _ => ⟨t, ht, ?_⟩⟩
      rwa [Nat.le_antisymm hfit hle] at hroom
    · rcases rebuild_spec env _ _ h with ⟨pm', t', hok, hwf, hs, ht', hmin, -⟩ | ⟨herr, -⟩
      · refine Or.inl ⟨pm', hok, hwf, hs, fun _ => ⟨t', ht', ?_⟩⟩
        rw [hs.nentry h hwf]
        exact hroom.trans (Nat.mul_le_mul_right _ hmin)
      · exact Or.inr ⟨_, herr, by decide⟩

end Rebuild

/-! ### Upserts -/

/-- What an upsert does to the entries of a map. -/
def upserted (l : List Entry) (fold seq : Nat) (mode : PurgeMode) : List Entry :=
  if ∃ e ∈ l, e.fold = fold then l.map fun e => if e.fold = fold then e.bump seq mode else e
  else .fresh fold seq mode :: l

section Upsert
variable {pm : Map} {t : Table} {l l' : List Entry} {f : Fold} {e : Entry} {fold seq k : Nat} {mode : PurgeMode}

@[simp] theorem Entry.bump_fold : (e.bump seq mode).fold = e.fold := by
  cases mode <;> simp only [Entry.bump] <;> split <;> rfl

@[simp] theorem Entry.fresh_fold : (Entry.fresh fold seq mode).fold = fold := by
  cases mode <;> rfl

theorem fold_live (f : Fold) : f.val ≠ EMPTY ∧ f.val ≠ TOMBSTONE :=
  ⟨f.ne_zero, fun heq => by have := f.lt_max; rw [heq] at this; exact Nat.lt_irrefl _ this⟩

theorem upserted_perm (h : l.Perm l') : (upserted l fold seq mode).Perm (upserted l' fold seq mode) := by
  unfold upserted
  simp only [h.mem_iff]
  split
  · exact h.map _
  · exact h.cons _

theorem length_upserted_le : (upserted l fold seq mode).length ≤ l.length + 1 := by
  unfold upserted
  split <;> simp

variable (f seq mode) in
/-- An upsert ends in the entry of its fold, or makes one where there was none. -/
theorem applyUpsert_spec (h : pm.WF) (hroom : pm.Room 1) :
    ∃ pm', applyUpsert pm f.val seq mode = .ok pm' ∧ pm'.WF ∧
      pm'.live.Perm (upserted pm.live f.val seq mode) ∧ pm'.seq = pm.seq ∧ pm'.memoSeq = pm.memoSeq ∧
      pm'.hardFloor = pm.hardFloor ∧ pm'.softFloor = pm.softFloor ∧ pm'.table.map Table.nslot = pm.table.map Table.nslot := by
  obtain ⟨t, ht, hload⟩ := hroom
  obtain ⟨hwf, hload₀⟩ := h.table t ht
  have hlive := Map.live_some ht
  rcases hwf.upsertAt (h.room ht) f with ⟨p, hp, ⟨hwalk, hfound⟩ | ⟨hwalk, hempty, habs, hpath⟩⟩
  -- The fold has an entry, whose sequence is bumped in place.
  · have hfold : ((t.slot p).bump seq mode).fold = (t.slot p).fold := Entry.bump_fold
    have hlv : ((t.slot p).bump seq mode).Live := by
      unfold Entry.Live
      rw [hfold, hfound]
      exact fold_live f
    have hlive' := hwf.live_rewrite hp hlv hfold
    have hmem : t.slot p ∈ t.live := hwf.mem_live hp (by rw [hfound]; exact f.ne_zero)
    have hmap : (t.set p ((t.slot p).bump seq mode)).live = upserted pm.live f.val seq mode := by
      rw [upserted, if_pos (hlive ▸ ⟨_, hmem, hfound⟩), hlive', hlive]
      refine List.map_congr_left fun x hx => ?_
      rw [hfold, hfound]
      by_cases hxf : x.fold = f.val
      · rw [if_pos hxf, if_pos hxf, hwf.eq_of_fold hx hmem (hxf.trans hfound.symm)]
      · rw [if_neg hxf, if_neg hxf]
    refine ⟨{ pm with table := some (t.set p ((t.slot p).bump seq mode)) }, by simp only [applyUpsert, ht, hwalk],
      ⟨?_, ?_, h.tomb⟩, by rw [← hmap]; exact List.Perm.refl _, rfl, rfl, rfl, rfl, by simp [ht]⟩
    · rintro _ ⟨⟩
      exact ⟨hwf.rewrite hp hfold, by simpa using hload₀⟩
    · rw [show Map.live { pm with table := some (t.set p ((t.slot p).bump seq mode)) } = _ from hlive']
      simp [h.count, hlive]
  -- The fold has no entry, and the walk has ended at an empty slot.
  · have hlv : (Entry.fresh f.val seq mode).Live := by
      unfold Entry.Live
      rw [Entry.fresh_fold]
      exact fold_live f
    have hperm := Table.WF.live_fill hp hempty hlv
    have hnone : ¬∃ e ∈ pm.live, e.fold = f.val := by
      rintro ⟨x, hx, hxf⟩
      exact hwf.absent_of_slots habs x (hlive ▸ hx) hxf
    refine ⟨{ pm with
        table := some (t.set p (.fresh f.val seq mode))
        ntombstone := if false = true then pm.ntombstone - 1 else pm.ntombstone
        nentry := pm.nentry + 1 }, by simp only [applyUpsert, ht, hwalk],
      ⟨?_, ?_, h.tomb⟩, ?_, rfl, rfl, rfl, rfl, by simp [ht]⟩
    · rintro _ ⟨⟩
      exact ⟨hwf.fill hp hempty hlv (by simpa using habs) (by simpa using hpath), by simpa using hload⟩
    · rw [show Map.live { pm with
        table := some (t.set p (.fresh f.val seq mode))
        ntombstone := if false = true then pm.ntombstone - 1 else pm.ntombstone
        nentry := pm.nentry + 1 } = (t.set p (.fresh f.val seq mode)).live from rfl]
      simp [hperm.length_eq, h.count, hlive]
    · rw [upserted, if_neg hnone, hlive]
      exact hperm

/-- What the upserts of a batch do to the entries of a map. -/
def upsertedAll (l : List Entry) (fs : List Fold) (seq : Nat) (mode : PurgeMode) : List Entry :=
  fs.foldl (fun l f => upserted l f.val seq mode) l

theorem upsertedAll_perm {fs : List Fold} (h : l.Perm l') :
    (upsertedAll l fs seq mode).Perm (upsertedAll l' fs seq mode) := by
  induction fs generalizing l l' with
  | nil => exact h
  | cons f fs ih => exact ih (upserted_perm h)

theorem Map.Room.one (h : pm.Room (k + 1)) : pm.Room 1 := by
  obtain ⟨t, ht, hload⟩ := h
  exact ⟨t, ht, by omega⟩

/-- An upsert takes one place of the room at most. -/
theorem Map.Room.upserted {pm' : Map} (h : pm.Room (k + 1)) (hwf : pm.WF) (hwf' : pm'.WF)
    (hperm : pm'.live.Perm (upserted pm.live f.val seq mode))
    (hnslot : pm'.table.map Table.nslot = pm.table.map Table.nslot) : pm'.Room k := by
  obtain ⟨t, ht, hload⟩ := h
  rw [ht, Option.map_some] at hnslot
  obtain ⟨t', ht', hn⟩ := Option.map_eq_some_iff.mp hnslot
  have hle : pm'.nentry ≤ pm.nentry + 1 := by
    rw [hwf'.count, hwf.count, hperm.length_eq]
    exact length_upserted_le
  exact ⟨t', ht', by rw [hn]; omega⟩

variable (seq mode) in
theorem applyAll_spec (fs : List Fold) (h : pm.WF) (hroom : fs ≠ [] → pm.Room fs.length) :
    ∃ pm', applyAll seq mode fs pm = .ok pm' ∧ pm'.WF ∧
      pm'.live.Perm (upsertedAll pm.live fs seq mode) ∧ pm'.seq = pm.seq ∧ pm'.memoSeq = pm.memoSeq ∧
      pm'.hardFloor = pm.hardFloor ∧ pm'.softFloor = pm.softFloor := by
  induction fs generalizing pm with
  | nil => exact ⟨pm, rfl, h, List.Perm.refl _, rfl, rfl, rfl, rfl⟩
  | cons f fs ih =>
    have hroom := hroom (by simp)
    obtain ⟨pm₁, hup, hwf₁, hperm₁, hseq₁, hmemo₁, hhard₁, hsoft₁, hnslot₁⟩ :=
      applyUpsert_spec f seq mode h hroom.one
    obtain ⟨pm₂, hall, hwf₂, hperm₂, hseq₂, hmemo₂, hhard₂, hsoft₂⟩ :=
      ih hwf₁ fun _ => hroom.upserted h hwf₁ hperm₁ hnslot₁
    refine ⟨pm₂, by rw [applyAll, hup]; exact hall, hwf₂, hperm₂.trans (upsertedAll_perm hperm₁),
      hseq₂.trans hseq₁, hmemo₂.trans hmemo₁, hhard₂.trans hhard₁, hsoft₂.trans hsoft₁⟩

end Upsert

/-! ### History prune -/

/-- The number of entries that a prune removes at least, and 0 when it does nothing. -/
def pruneNeed (cfg : Config) (nentry : Nat) : Nat :=
  if cfg.historyMax = 0 ∨ nentry ≤ cfg.historyMax then 0 else nentry - pruneTarget cfg.historyMax

/-- A floor raised to the sequences of pruned entries. -/
def raised (seqOf : Entry → Nat) (floor : Nat) (pruned : List Entry) : Nat :=
  pruned.foldl (fun fl e => max fl (seqOf e)) floor

/-- `pm'` is `pm` with the entries whose newest purge is not behind the cutoff moved into the floors. -/
structure PrunesTo (pm pm' : Map) (cutoff : Nat) : Prop where
  live : pm'.live.Perm (pm.live.filter fun e => cutoff < e.newest)
  hard : pm'.hardFloor = raised Entry.hardSeq pm.hardFloor (pm.live.filter fun e => e.newest ≤ cutoff)
  soft : pm'.softFloor = raised Entry.softSeq pm.softFloor (pm.live.filter fun e => e.newest ≤ cutoff)
  seq : pm'.seq = pm.seq
  memoSeq : pm'.memoSeq = pm.memoSeq

section Prune
variable {cfg : Config} {env : Env} {pm pm' : Map} {t : Table} {seqOf : Entry → Nat} {l l' : List Entry}
  {e : Entry} {floor b cutoff : Nat}

theorem floor_le_raised : floor ≤ raised seqOf floor l := by
  induction l generalizing floor with
  | nil => exact Nat.le_refl _
  | cons e l ih => exact (Nat.le_max_left _ _).trans ih

variable (seqOf) in
theorem le_raised (he : e ∈ l) : seqOf e ≤ raised seqOf floor l := by
  induction l generalizing floor with
  | nil => cases he
  | cons x l ih =>
    rcases List.mem_cons.mp he with rfl | he
    · exact (Nat.le_max_right floor _).trans floor_le_raised
    · exact ih he

theorem raised_le (hf : floor ≤ b) (hl : ∀ e ∈ l, seqOf e ≤ b) : raised seqOf floor l ≤ b := by
  induction l generalizing floor with
  | nil => exact hf
  | cons e l ih =>
    exact ih (max_le hf (hl e List.mem_cons_self)) fun x hx => hl x (List.mem_cons_of_mem _ hx)

theorem length_kept :
    (l.filter fun e => cutoff < e.newest).length = l.length - (l.filter fun e => e.newest ≤ cutoff).length := by
  have hsum := List.length_eq_length_filter_add (l := l) fun e => decide (e.newest ≤ cutoff)
  have hnot : (l.filter fun e => !decide (e.newest ≤ cutoff)) = l.filter fun e => cutoff < e.newest := by
    refine List.filter_congr fun e _ => ?_
    rw [← decide_not, decide_eq_decide]
    exact Nat.not_le
  rw [hnot] at hsum
  omega

theorem range_map_getD (l : List Nat) : (List.range l.length).map (fun i => l.getD i 0) = l := by
  refine List.ext_getElem (by simp) fun i _ hi => ?_
  simp [List.getD_eq_getElem?_getD, hi]

variable (env) in
/-- The part of a prune behind the choice of the cutoff succeeds, or memory is short. -/
theorem pruneAt_spec {need : Nat} (h : pm.WF) (ht : pm.table = some t) (hneed : 0 < need)
    (hcount : need ≤ (t.live.map Entry.newest).countP (· ≤ cutoff)) :
    (∃ pm' n, pruneAt env pm t need cutoff = .ok (pm', n) ∧ 0 < n ∧ pm'.WF ∧ PrunesTo pm pm' cutoff) ∨
    (pruneAt env pm t need cutoff = .error .enomem ∧
      ∃ kept ≤ t.live.length, tableNew env.replacementAlloc (roomFor kept kept initialSlots) = none) := by
  have hlen : (t.live.map Entry.newest).countP (· ≤ cutoff) = (t.live.filter fun e => e.newest ≤ cutoff).length := by
    rw [List.countP_map, List.countP_eq_length_filter]
    rfl
  have hle : (t.live.filter fun e => e.newest ≤ cutoff).length ≤ t.live.length := List.length_filter_le _ _
  rw [hlen] at hcount
  unfold pruneAt
  rw [hlen, if_neg (by omega), ← length_kept]
  have hlive := Map.live_some ht
  have hbound := loop_bound (t.live.filter fun e => cutoff < e.newest).length initialSlots (Nat.le_refl _)
  obtain ⟨hpow, hbig, hload⟩ := roomFor_spec powTwo_initialSlots hbound
  dsimp only
  split
  · rename_i hnone
    exact Or.inr ⟨rfl, _, List.length_filter_le _ _, hnone⟩
  · rename_i fresh halloc
    obtain rfl := tableNew_eq halloc
    have hsub : (t.live.filter fun e => cutoff < e.newest).Sublist t.live := List.filter_sublist
    obtain ⟨t', hins, hwf, hnslot, hperm⟩ := insertAll_new (t.live.filter fun e => cutoff < e.newest) hpow hbig
      (fun e he => (Table.mem_live_iff.mp (hsub.subset he)).1)
      ((h.table t ht).1.nodup.sublist (hsub.map _))
      (by simpa using (Table.WF.new hpow hbig).room_of_load (by simpa using hload))
    rw [hins]
    dsimp only
    rw [if_neg (by simp)]
    refine Or.inl ⟨_, _, rfl, by omega, ⟨?_, hperm.length_eq.symm, rfl⟩, ⟨by rw [hlive]; exact hperm, ?_, ?_, rfl, rfl⟩⟩
    · rintro _ ⟨⟩
      exact ⟨hwf, by rw [hnslot]; exact hload⟩
    · rw [hlive]
      rfl
    · rw [hlive]
      rfl

variable (cfg env) in
/-- A prune does nothing, moves the entries up to the right cutoff into the floors, or fails for want of
    memory. -/
theorem prune_spec (h : pm.WF) :
    (pruneNeed cfg pm.nentry = 0 ∧ prune cfg env pm = .ok (pm, 0)) ∨
    (∃ pm' n cutoff, prune cfg env pm = .ok (pm', n) ∧ 0 < n ∧ 0 < pruneNeed cfg pm.nentry ∧
      Quickselect.IsKth (pm.live.map Entry.newest) (pruneNeed cfg pm.nentry - 1) cutoff ∧ pm'.WF ∧
      PrunesTo pm pm' cutoff) ∨
    (∃ f, prune cfg env pm = .error f ∧ f ≠ .loops ∧ f ≠ .einval ∧ 0 < pruneNeed cfg pm.nentry ∧
      (pm.nentry > sizeMax / 8 ∨ env.newestAlloc = false ∨
        ∃ kept ≤ pm.nentry, tableNew env.replacementAlloc (roomFor kept kept initialSlots) = none)) := by
  unfold prune pruneNeed
  split
  · exact Or.inl ⟨rfl, rfl⟩
  cases ht : pm.table with
  | none =>
    have hcount := h.count
    simp only [Map.live, ht, Option.elim_none, List.length_nil] at hcount
    omega
  | some t =>
    have hlive := Map.live_some ht
    have hcount := h.count
    rw [hlive] at hcount
    dsimp only
    -- The three ways to fail are the limit on the array, its allocation and that of the replacement.
    by_cases hneed : pm.nentry - pruneTarget cfg.historyMax = 0
    · exact Or.inl ⟨hneed, if_pos hneed⟩
    rw [if_neg hneed]
    refine Or.inr ?_
    by_cases hbig : pm.nentry > sizeMax / 8
    · rw [if_pos hbig]
      exact Or.inr ⟨.efbig, rfl, by decide, by decide, by omega, Or.inl hbig⟩
    rw [if_neg hbig]
    by_cases halloc : env.newestAlloc = true
    · rw [if_pos halloc, if_neg (by rw [List.length_map]; omega)]
      -- The cutoff is the sequence of the last entry that has to go, as the selection finds it.
      obtain ⟨cutoff, hsel, hkth⟩ := Quickselect.select_spec (t.live.map Entry.newest).length
        (pm.nentry - pruneTarget cfg.historyMax - 1) (fun i => (t.live.map Entry.newest).getD i 0)
        (by rw [List.length_map]; omega)
      rw [range_map_getD] at hkth
      rw [hsel]
      dsimp only
      have hmany : pm.nentry - pruneTarget cfg.historyMax ≤ (t.live.map Entry.newest).countP (· ≤ cutoff) := by
        have := hkth.2
        omega
      rcases pruneAt_spec env h ht (Nat.pos_of_ne_zero hneed) hmany with
        ⟨pm', n, hok, hn, hwf, hto⟩ | ⟨herr, hnew⟩
      · exact Or.inl ⟨pm', n, cutoff, hok, hn, by omega, by rw [hlive]; exact hkth, hwf, hto⟩
      · exact Or.inr ⟨.enomem, herr, by decide, by decide, by omega, Or.inr (Or.inr (hcount ▸ hnew))⟩
    · rw [if_neg halloc]
      exact Or.inr ⟨.enomem, rfl, by decide, by decide, by omega, Or.inr (Or.inl (Bool.not_eq_true _ ▸ halloc))⟩

end Prune

end Cachetag.Purgemap
